import ClassAtlas.Yaml.Time
import ClassAtlas.Yaml.TokenList
/-!
# Nodes

The tokens of a document make a tree of nodes. A node with an anchor stands in a table under its
name, and wherever it is meant, at its own place too, only the name stands in the tree; so a node
may hold itself.
-/
namespace ClassAtlas.Yaml

inductive Node where
  | scalar (tag : String) (text : List Char)
  | sequence (tag : String) (items : List Node)
  | mapping (tag : String) (entries : List (Node × Node))
  | shared (name : String)
deriving Repr, Inhabited

structure Document where
  root : Node
  shared : List (String × Node)
deriving Repr

/-- What is left to be read, and what is known from before. -/
structure Composer where
  tokens : List Token
  /-- Why there are no more tokens. -/
  stop : Fault
  /-- The names of anchors that were met. -/
  known : List String
  shared : List (String × Node)
  handles : List (String × String)

abbrev Composing := StateT Composer (Except Fault)

namespace Composing

def refuse {α : Type} (what : Malformation) : Composing α := throw (.malformed what)

def peek : Composing Token := do
  let s ← get
  match s.tokens with
  | t :: _ => pure t
  | [] => throw s.stop

def advance : Composing Unit := modify fun s => { s with tokens := s.tokens.drop 1 }

/-- Passes the next token if it is `t`. -/
def accept (t : Token) : Composing Bool := do
  if (← peek) = t then advance; return true else return false

/-- Passes the next token, which has to be `t`. -/
def pass (t : Token) : Composing Unit := do
  if ← accept t then pure () else refuse .unexpectedToken

/-- Whether the next token is one of some. -/
def sees (ts : List Token) : Composing Bool := do return ts.contains (← peek)

end Composing

namespace Node

open Composing

/-- How deep nodes may be nested. -/
def maxDepth : Nat := 485

def emptyScalar : Node := .scalar Tag.null []

/-- The tag of a node: the one that was given, unless that asks for the form. -/
def tagOr (given : Option String) (other : String) : String :=
  match given with
  | none => other
  | some tag => if tag = Tag.byForm then other else tag

def scalarTag (given : Option String) (plain : Bool) (text : List Char) : String :=
  match given with
  | none => if plain then Tag.ofForm TimeText.isTime text else Tag.text
  | some tag => if tag = Tag.byForm then Tag.ofForm TimeText.isTime text else tag

def readAnchor : Composing (Option String) := do
  match ← peek with
  | .anchor name => advance; return some name
  | _ => return none

def readTag : Composing (Option String) := do
  match ← peek with
  | .tag none suffix => advance; return some suffix
  | .tag (some handle) suffix =>
    advance
    match (← get).handles.lookup handle with
    | some lead => return some (lead ++ suffix)
    | none => refuse .unknownHandle
  | _ => return none

/-- Anchor and tag, in any order and each optional. -/
def readProperties : Composing (Option String × Option String) := do
  match ← readAnchor with
  | some name => return (some name, ← readTag)
  | none =>
    match ← readTag with
    | some tag => return (← readAnchor, some tag)
    | none => return (none, none)

/-- Enters the name of an anchor. -/
def enter (anchor : Option String) : Composing Unit := do
  match anchor with
  | none => pure ()
  | some name => modify fun s => { s with known := name :: s.known }

/-- Puts a node with an anchor into the table. -/
def share (anchor : Option String) (n : Node) : Composing Node := do
  match anchor with
  | none => return n
  | some name =>
    modify fun s => { s with shared := (name, n) :: s.shared }
    return .shared name

mutual
/-- Reads a node. In lines of indentation collections of lines may come, and after a key such a
sequence need not be indented. -/
def read : Nat → Nat → Bool → Bool → Composing Node
  | 0, _, _, _ => refuse .unexpectedToken
  | _, 0, _, _ => throw .tooDeep
  | fuel + 1, depth + 1, lines, unindented => do
    match ← peek with
    | .alias name =>
      advance
      if (← get).known.contains name then return .shared name else refuse .unknownAlias
    | _ =>
      let (anchor, given) ← readProperties
      if anchor.any (← get).known.contains then refuse .repeatedAnchor
      match ← peek with
      | .blockEntry =>
        if unindented then
          enter anchor
          share anchor (.sequence (tagOr given Tag.sequence) (← readUnindented fuel depth))
        else readEmpty anchor given
      | .scalar plain text =>
        advance
        enter anchor
        share anchor (.scalar (scalarTag given plain text) text)
      | .flowSequenceStart =>
        advance
        enter anchor
        share anchor (.sequence (tagOr given Tag.sequence) (← readFlowItems fuel depth true))
      | .flowMappingStart =>
        advance
        enter anchor
        share anchor (.mapping (tagOr given Tag.mapping) (← readFlowEntries fuel depth true))
      | .blockSequenceStart =>
        if lines then
          advance
          enter anchor
          share anchor (.sequence (tagOr given Tag.sequence) (← readBlockItems fuel depth))
        else readEmpty anchor given
      | .blockMappingStart =>
        if lines then
          advance
          enter anchor
          share anchor (.mapping (tagOr given Tag.mapping) (← readBlockEntries fuel depth))
        else readEmpty anchor given
      | _ => readEmpty anchor given
/-- A node of which only the properties are there. -/
def readEmpty (anchor given : Option String) : Composing Node := do
  if anchor.isNone && given.isNone then refuse .unexpectedToken
  enter anchor
  share anchor (.scalar (scalarTag given true []) [])
/-- A node, or the empty one when one of `stops` comes first. -/
def readUnless : Nat → Nat → List Token → Bool → Bool → Composing Node
  | 0, _, _, _, _ => refuse .unexpectedToken
  | fuel + 1, depth, stops, lines, unindented => do
    if ← sees stops then return emptyScalar else read fuel depth lines unindented
def readUnindented : Nat → Nat → Composing (List Node)
  | 0, _ => refuse .unexpectedToken
  | fuel + 1, depth => do
    if ← accept .blockEntry then
      let item ← readUnless fuel depth [.blockEntry, .key, .value, .blockEnd] true false
      return item :: (← readUnindented fuel depth)
    else return []
def readBlockItems : Nat → Nat → Composing (List Node)
  | 0, _ => refuse .unexpectedToken
  | fuel + 1, depth => do
    if ← accept .blockEntry then
      let item ← readUnless fuel depth [.blockEntry, .blockEnd] true false
      return item :: (← readBlockItems fuel depth)
    else if ← accept .blockEnd then return []
    else refuse .unexpectedToken
def readBlockEntries : Nat → Nat → Composing (List (Node × Node))
  | 0, _ => refuse .unexpectedToken
  | fuel + 1, depth => do
    if ← accept .key then
      let key ← readUnless fuel depth [.key, .value, .blockEnd] true true
      let value ←
        if ← accept .value then readUnless fuel depth [.key, .value, .blockEnd] true true
        else pure emptyScalar
      return (key, value) :: (← readBlockEntries fuel depth)
    else if ← accept .blockEnd then return []
    else refuse .unexpectedToken
/-- The items up to the closing bracket; `first` says whether one was read. -/
def readFlowItems : Nat → Nat → Bool → Composing (List Node)
  | 0, _, _ => refuse .unexpectedToken
  | fuel + 1, depth, first => do
    if ← accept .flowSequenceEnd then return []
    if !first then pass .flowEntry
    if ← accept .key then
      match depth with
      | 0 => throw .tooDeep
      | depth + 1 =>
        let key ← readUnless fuel depth [.value, .flowEntry, .flowSequenceEnd] false false
        let value ←
          if ← accept .value then readUnless fuel depth [.flowEntry, .flowSequenceEnd] false false
          else pure emptyScalar
        return .mapping Tag.mapping [(key, value)] :: (← readFlowItems fuel (depth + 1) false)
    else if ← accept .flowSequenceEnd then return []
    else
      let item ← read fuel depth false false
      return item :: (← readFlowItems fuel depth false)
def readFlowEntries : Nat → Nat → Bool → Composing (List (Node × Node))
  | 0, _, _ => refuse .unexpectedToken
  | fuel + 1, depth, first => do
    if ← accept .flowMappingEnd then return []
    if !first then pass .flowEntry
    if ← accept .key then
      let key ← readUnless fuel depth [.value, .flowEntry, .flowMappingEnd] false false
      let value ←
        if ← accept .value then readUnless fuel depth [.flowEntry, .flowMappingEnd] false false
        else pure emptyScalar
      return (key, value) :: (← readFlowEntries fuel depth false)
    else if ← accept .flowMappingEnd then return []
    else
      let key ← read fuel depth false false
      return (key, emptyScalar) :: (← readFlowEntries fuel depth false)
end

end Node

namespace Document

open Composing

def standardHandles : List (String × String) := [("!", "!"), ("!!", Tag.lead)]

/-- Reads the directives in front of a document; `versioned` says whether one gave a version. -/
def readDirectives : Nat → Bool → List (String × String) → Composing (List (String × String))
  | 0, _, handles => return handles
  | fuel + 1, versioned, handles => do
    match ← peek with
    | .versionDirective major =>
      advance
      if versioned then refuse .repeatedDirective
      if major != 1 then refuse .version
      readDirectives fuel true handles
    | .handleDirective handle lead =>
      advance
      if (handles.lookup handle).isSome then refuse .repeatedDirective
      readDirectives fuel versioned ((handle, lead) :: handles)
    | .otherDirective =>
      advance
      readDirectives fuel versioned handles
    | _ => return handles

/-- Passes marks that end a document. -/
def skipEnds : Nat → Composing Unit
  | 0 => pure ()
  | fuel + 1 => do if ← accept .documentEnd then skipEnds fuel

def isDirective : Token → Bool
  | .versionDirective _ | .handleDirective _ _ | .otherDirective => true
  | _ => false

/-- The node of a document that begins with a mark or with directives. -/
def readMarked (fuel : Nat) : Composing Node := do
  let handles ← readDirectives fuel false []
  if !(← accept .documentStart) then refuse .unexpectedToken
  modify fun s => { s with handles := handles ++ standardHandles }
  let next ← peek
  if isDirective next || [.documentStart, .documentEnd, .streamEnd].contains next then
    return Node.emptyScalar
  else Node.read fuel Node.maxDepth true false

/-- Reads the only document of a text; none when there is nothing in it. -/
def readAll (fuel : Nat) : Composing (Option Node) := do
  let next ← peek
  if next = .streamEnd then return none
  let root ←
    if isDirective next || next = .documentStart then readMarked fuel
    else Node.read fuel Node.maxDepth true false
  skipEnds fuel
  if ← accept .streamEnd then return some root else refuse .severalDocuments

/-- The document that a text holds, if it holds one. -/
def ofText? (text : List Char) : Reading (Option Document) := do
  let (tokens, fault) := Token.ofText text
  let start : Composer :=
    ⟨tokens, fault.getD (.malformed .unexpectedToken), [], [], standardHandles⟩
  let (root, last) ← (readAll (4 * tokens.length + 8)).run start
  return root.map fun r => ⟨r, last.shared⟩

end Document
end ClassAtlas.Yaml
