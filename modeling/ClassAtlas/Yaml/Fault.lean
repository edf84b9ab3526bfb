import ClassAtlas.Number.Numeral
import ClassAtlas.Time.Iso
/-!
# Faults of YAML texts

A text can be malformed, or it can be well formed and hold a scalar that stands for nothing.
-/
namespace ClassAtlas.Yaml

/-- What makes a text malformed. -/
inductive Malformation where
  | unprintable
  | strayCharacter
  | missingColon
  | entryNotAllowed
  | keyNotAllowed
  | valueNotAllowed
  | unopened
  | anchor
  | tag
  | directive
  | blockHeader
  | escape
  | unclosedQuote
  | separatorInQuote
  | unexpectedToken
  | repeatedDirective
  | version
  | unknownHandle
  | unknownAlias
  | repeatedAnchor
  | severalDocuments
  | unknownTag
  | scalarExpected
  | sequenceExpected
  | mappingExpected
  | singlePairExpected
  | collectionAsKey
  | binary
deriving DecidableEq, Repr

def Malformation.message : Malformation → String
  | unprintable => "special characters are not allowed"
  | strayCharacter => "found a character that cannot start any token"
  | missingColon => "could not find expected ':'"
  | entryNotAllowed => "sequence entries are not allowed here"
  | keyNotAllowed => "mapping keys are not allowed here"
  | valueNotAllowed => "mapping values are not allowed here"
  | unopened => "found the end of a collection that was not begun"
  | anchor => "found a bad anchor or alias"
  | tag => "found a bad tag"
  | directive => "found a bad directive"
  | blockHeader => "found a bad block scalar header"
  | escape => "found a bad escape"
  | unclosedQuote => "found unexpected end of stream"
  | separatorInQuote => "found unexpected document separator"
  | unexpectedToken => "found an unexpected token"
  | repeatedDirective => "found duplicate directive"
  | version => "found incompatible document (version 1.* is required)"
  | unknownHandle => "found undefined tag handle"
  | unknownAlias => "found undefined alias"
  | repeatedAnchor => "found duplicate anchor"
  | severalDocuments => "expected a single document in the stream"
  | unknownTag => "could not determine a constructor for the tag"
  | scalarExpected => "expected a scalar node"
  | sequenceExpected => "expected a sequence node"
  | mappingExpected => "expected a mapping node"
  | singlePairExpected => "expected a single mapping item"
  | collectionAsKey => "found unhashable key"
  | binary => "failed to decode base64 data"

inductive Fault where
  | malformed (what : Malformation)
  | tooDeep
  /-- An escape that names no character; `wide` when its number takes more than 31 bits. -/
  | noCharacter (wide : Bool)
  /-- A scalar tagged as a truth value that is none. -/
  | notTruth (text : String)
  /-- A number without any digit. -/
  | emptyNumber
  /-- A scalar tagged as a time that has not the form of one. -/
  | notTime
  | numeral (fault : Numeral.Fault)
  | time (fault : Iso.Fault)
  | numberTooLarge
deriving DecidableEq, Repr

abbrev Reading (α : Type) := Except Fault α

def refuse {α : Type} (what : Malformation) : Reading α := .error (.malformed what)

end ClassAtlas.Yaml
