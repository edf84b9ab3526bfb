import ClassAtlas.Text.Utf8
import ClassAtlas.Yaml.ScalarText
/-!
# Tokens

A token is a mark or a piece of text that carries meaning. Indentation has become tokens of its own
here: a collection of indented lines begins and ends with one.
-/
namespace ClassAtlas.Yaml

inductive Token where
  | streamEnd
  | versionDirective (major : Int)
  | handleDirective (handle lead : String)
  /-- A directive of another name. -/
  | otherDirective
  | documentStart
  | documentEnd
  | blockSequenceStart
  | blockMappingStart
  | blockEnd
  | flowSequenceStart
  | flowMappingStart
  | flowSequenceEnd
  | flowMappingEnd
  | flowEntry
  | blockEntry
  | key
  | value
  | alias (name : String)
  | anchor (name : String)
  /-- A tag in full has no handle. -/
  | tag (handle : Option String) (suffix : String)
  | scalar (plain : Bool) (text : List Char)
deriving DecidableEq, Repr

namespace Token

def isNameChar (c : Char) : Bool :=
  ('0' ≤ c && c ≤ '9') || ('A' ≤ c && c ≤ 'Z') || ('a' ≤ c && c ≤ 'z') || c == '-' || c == '_'

/-- The characters of a tag, but for escapes. -/
def isTagChar (c : Char) : Bool := isNameChar c || ";/?:@&=+$,.!~*'()[]".toList.contains c

/-- Escaped bytes in front, each a percent sign and two hexadecimal digits. -/
def escapedBytes : Nat → List Char → Option (List UInt8 × List Char)
  | 0, cs => some ([], cs)
  | fuel + 1, cs =>
    match cs with
    | '%' :: rest =>
      match Json.hexNumber? (rest.take 2), escapedBytes fuel (rest.drop 2) with
      | some n, some (more, after) =>
        if (rest.take 2).length = 2 then some (UInt8.ofNat n :: more, after) else none
      | _, _ => none
    | _ => some ([], cs)

/-- The text of a tag in front, possibly empty. -/
def tagText : Nat → List Char → Option (List Char × List Char)
  | 0, cs => some ([], cs)
  | fuel + 1, cs =>
    match cs with
    | [] => some ([], [])
    | c :: rest =>
      if c = '%' then
        match escapedBytes cs.length cs with
        | none => none
        | some (bytes, after) =>
          match Utf8.decode bytes, tagText fuel after with
          | .ok own, some (more, last) => some (own ++ more, last)
          | _, _ => none
      else if isTagChar c then (tagText fuel rest).map fun (more, last) => (c :: more, last)
      else some ([], cs)

/-- The text of a tag and the place after it. -/
def readTagText (what : Malformation) (c : Cursor) : Reading (String × Cursor) :=
  match tagText c.rest.length c.rest with
  | some (text, rest) =>
    if rest.length = c.rest.length then refuse what
    else .ok (String.ofList text, c.skip (c.rest.length - rest.length))
  | none => refuse what

/-- A handle: one exclamation mark, or two with a name between them. -/
def readHandle (what : Malformation) (c : Cursor) : Reading (String × Cursor) :=
  match c.rest with
  | '!' :: rest =>
    if rest.head? = some ' ' then .ok ("!", c.next)
    else
      let name := rest.takeWhile isNameChar
      if (rest.drop name.length).head? = some '!' then
        .ok (String.ofList ('!' :: name ++ ['!']), c.skip (name.length + 2))
      else refuse what
  | _ => refuse what

/-- Reads a tag; `c` stands at its first mark. -/
def readTag (c : Cursor) : Reading (Token × Cursor) := do
  let rest := c.rest.drop 1
  let (token, after) ←
    if rest.head? = some '<' then do
      let (text, after) ← readTagText .tag (c.skip 2)
      if after.head? = some '>' then pure (tag none text, after.next) else refuse .tag
    else if isGap rest.head? then pure (tag none "!", c.next)
    else if (rest.takeWhile fun ch => !isSpaceOrEnd (some ch)).contains '!' then do
      let (handle, after) ← readHandle .tag c
      let (text, after) ← readTagText .tag after
      pure (tag (some handle) text, after)
    else do
      let (text, after) ← readTagText .tag c.next
      pure (tag (some "!") text, after)
  if isSpaceOrEnd after.head? then return (token, after) else refuse .tag

/-- What may stand behind the name of an anchor. -/
def endsAnchor (c : Option Char) : Bool := isGap c || c.any "?:,]\x7d%@`".toList.contains

/-- Reads the name of an anchor or alias; `c` stands at its mark. -/
def readName (make : String → Token) (c : Cursor) : Reading (Token × Cursor) :=
  let (name, after) := c.next.span isNameChar
  if name.isEmpty || !endsAnchor after.head? then refuse .anchor
  else .ok (make (String.ofList name), after)

def readVersionNumber (c : Cursor) : Reading (Int × Cursor) :=
  let (digits, after) := c.span Json.isDigit
  if digits.isEmpty then refuse .directive
  else
    match Numeral.whole 10 digits with
    | .ok n => .ok (n, after)
    | .error fault => .error (.numeral fault)

/-- The value of a version directive. -/
def readVersion (c : Cursor) : Reading (Token × Cursor) := do
  let (major, c) ← readVersionNumber (c.skipWhile (· == ' '))
  if c.head? != some '.' then refuse .directive
  let (_, c) ← readVersionNumber c.next
  if isSpaceOrEnd c.head? then return (versionDirective major, c) else refuse .directive

/-- The value of a directive that gives a tag handle its meaning. -/
def readHandleDirective (c : Cursor) : Reading (Token × Cursor) := do
  let (handle, c) ← readHandle .directive (c.skipWhile (· == ' '))
  if c.head? != some ' ' then refuse .directive
  let (lead, c) ← readTagText .directive (c.skipWhile (· == ' '))
  if isSpaceOrEnd c.head? then return (handleDirective handle lead, c) else refuse .directive

/-- Reads a directive; `c` stands at the percent sign. -/
def readDirective (c : Cursor) : Reading (Token × Cursor) := do
  let (name, c) := c.next.span isNameChar
  if name.isEmpty || !isSpaceOrEnd c.head? then refuse .directive
  let (token, c) ←
    if name = "YAML".toList then readVersion c
    else if name = "TAG".toList then readHandleDirective c
    else pure (otherDirective, c.skipWhile (!isBreak ·))
  match c.finishLine? with
  | some c => return (token, c)
  | none => refuse .directive

end Token
end ClassAtlas.Yaml
