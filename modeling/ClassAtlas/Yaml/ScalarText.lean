import ClassAtlas.Json.Reader
import ClassAtlas.Yaml.Cursor
/-!
# The text of scalars

A scalar is written plain, in single or double quotes, or as a block of lines. Lines of plain and
quoted scalars are folded: a single line break stands for a space, and of several the first is
dropped.
-/
namespace ClassAtlas.Yaml

open Cursor

/-- What folded lines put between two pieces of text: `broke` is the line break after the first
piece and `more` are the breaks after it. -/
def fold (broke : Char) (more : List Char) : List Char :=
  if broke != '\n' then broke :: more else if more.isEmpty then [' '] else more

namespace Plain

def flowMarks : List Char := [',', '[', ']', '\x7b', '\x7d']

/-- Whether a plain scalar ends here; `flow` says whether it stands in brackets. -/
def endsAt (flow : Bool) (cs : List Char) : Bool :=
  match cs with
  | [] => true
  | c :: rest =>
    isGap (some c) ||
      (c == ':' && (isGap rest.head? || (flow && rest.head?.any flowMarks.contains))) ||
      (flow && (c == '?' || flowMarks.contains c))

/-- The longest piece of plain text in front. -/
def piece (flow : Bool) : List Char → List Char
  | [] => []
  | c :: cs => if endsAt flow (c :: cs) then [] else c :: piece flow cs

/-- The breaks and spaces of further lines, without the spaces. None when a document ends there. -/
def furtherBreaks : Nat → Cursor → Option (List Char) × Cursor
  | 0, c => (some [], c)
  | fuel + 1, c =>
    match c.head? with
    | some ' ' => furtherBreaks fuel c.next
    | _ =>
      match c.lineBreak? with
      | none => (some [], c)
      | some (b, c) =>
        if c.atSeparator then (none, c)
        else
          let (more, c) := furtherBreaks fuel c
          (more.map (b :: ·), c)

/-- The gap after a piece: what it stands for, none if the scalar ends with it. -/
structure Gap where
  text : Option (List Char)
  after : Cursor
  /-- Whether a line ended in it. -/
  broke : Bool

def gap (c : Cursor) : Gap :=
  let (spaces, c) := c.span (· == ' ')
  match c.lineBreak? with
  | some (b, c) =>
    if c.atSeparator then ⟨none, c, true⟩
    else
      let (more, c) := furtherBreaks c.rest.length c
      ⟨more.map (fold b), c, true⟩
  | none => ⟨if spaces.isEmpty then none else some spaces, c, false⟩

/-- Reads pieces and gaps; `indent` is the least column of a further line. Gives the text, the
place after it, and whether a line ended behind the last piece. -/
def read (flow : Bool) (indent : Int) : Nat → List Char → Cursor → List Char × Cursor × Bool
  | 0, lead, c => (lead, c, false)
  | fuel + 1, lead, c =>
    let own := if c.head? == some '#' then [] else piece flow c.rest
    if own.isEmpty then ([], c, true)
    else
      let g := gap (c.skip own.length)
      match g.text with
      | none => (lead ++ own, g.after, g.broke)
      | some between =>
        if g.after.head? == some '#' || (!flow && (g.after.column : Int) < indent) then
          (lead ++ own, g.after, g.broke)
        else
          let (more, after, broke) := read flow indent fuel between g.after
          if more.isEmpty then (lead ++ own, g.after, g.broke) else (lead ++ own ++ more, after, broke)

end Plain

namespace Quoted

/-- The characters that single-letter escapes stand for. -/
def simpleEscapes : List (Char × Nat) :=
  [('0', 0), ('a', 7), ('b', 8), ('t', 9), ('\t', 9), ('n', 10), ('v', 11), ('f', 12), ('r', 13),
    ('e', 27), (' ', 32), ('"', 34), ('\\', 92), ('/', 47), ('N', 0x85), ('_', 0xA0), ('L', 0x2028),
    ('P', 0x2029)]

/-- How many hexadecimal digits follow the letter of an escape. -/
def escapeWidth? : Char → Option Nat
  | 'x' => some 2
  | 'u' => some 4
  | 'U' => some 8
  | _ => none

/-- The low half of a pair of units that follows a high half. -/
def lowUnit? (cs : List Char) : Option Nat :=
  match cs with
  | '\\' :: 'u' :: rest =>
    match Json.hexNumber? (rest.take 4) with
    | some n => if (rest.take 4).length = 4 ∧ Json.isLowUnit n then some n else none
    | none => none
  | _ => none

/-- The character of a numeric escape of `width` digits, and how many characters it takes. -/
def numericEscape (width : Nat) (cs : List Char) : Reading (Char × Nat) :=
  let digits := cs.take width
  match Json.hexNumber? digits with
  | none => refuse .escape
  | some n =>
    if digits.length < width then refuse .escape
    else if n ≥ 0x80000000 then .error (.noCharacter true)
    else if n > 0x10FFFF then .error (.noCharacter false)
    else if Json.isHighUnit n then
      match lowUnit? (cs.drop width) with
      | some low => .ok (Char.ofNat (0x10000 + (n - 0xD800) * 0x400 + (low - 0xDC00)), width + 6)
      | none => .ok (Json.unitChar n, width)
    else .ok (Json.unitChar n, width)

/-- The line breaks in front, with blanks before each. A document must not end among them. -/
def breaks : Nat → Cursor → Reading (List Char × Cursor)
  | 0, c => .ok ([], c)
  | fuel + 1, c =>
    if c.atSeparator then refuse .separatorInQuote
    else
      let c := c.skipWhile fun ch => ch == ' ' || ch == '\t'
      match c.lineBreak? with
      | none => .ok ([], c)
      | some (b, c) => do
        let (more, c) ← breaks fuel c
        return (b :: more, c)

/-- The text that blanks and line breaks stand for. -/
def gap (c : Cursor) : Reading (List Char × Cursor) :=
  let (blanks, c) := c.span fun ch => ch == ' ' || ch == '\t'
  match c.lineBreak? with
  | some (b, c) => do
    let (more, c) ← breaks (c.rest.length + 1) c
    return (fold b more, c)
  | none => if c.rest.isEmpty then refuse .unclosedQuote else .ok (blanks, c)

/-- What a backslash and the characters after it stand for; `c` is behind the backslash. -/
def escape (c : Cursor) : Reading (List Char × Cursor) :=
  match c.rest with
  | [] => refuse .escape
  | ch :: cs =>
    match simpleEscapes.lookup ch, escapeWidth? ch with
    | some n, _ => .ok ([Char.ofNat n], c.next)
    | none, some width => do
      let (own, length) ← numericEscape width cs
      return ([own], c.next.skip length)
    | none, none =>
      match c.lineBreak? with
      | some (_, c) => breaks (c.rest.length + 1) c
      | none => refuse .escape

/-- Reads up to the closing quote; `acc` is the text so far, backwards. -/
def readFrom (double : Bool) : Nat → List Char → Cursor → Reading (List Char × Cursor)
  | 0, _, _ => refuse .unclosedQuote
  | fuel + 1, acc, c =>
    match c.rest with
    | [] => refuse .unclosedQuote
    | ch :: cs =>
      if ch = (if double then '"' else '\'') then
        if !double && cs.head? == some '\'' then readFrom double fuel ('\'' :: acc) c.next.next
        else .ok (acc.reverse, c.next)
      else if ch = ' ' || ch = '\t' || isBreak ch then do
        let (text, c) ← gap c
        readFrom double fuel (text.reverse ++ acc) c
      else if double && ch = '\\' then do
        let (text, c) ← escape c.next
        readFrom double fuel (text.reverse ++ acc) c
      else readFrom double fuel (ch :: acc) c.next

/-- Reads a quoted scalar; `c` stands at the opening quote. -/
def read (double : Bool) (c : Cursor) : Reading (List Char × Cursor) :=
  readFrom double (c.rest.length + 1) [] c.next

end Quoted

namespace Block

/-- What becomes of the line breaks at the end of a block. -/
inductive Chomping where
  | strip
  | clip
  | keep
deriving DecidableEq, Repr

/-- Reads a sign as chomping. -/
def chomping? : Option Char → Option Chomping
  | some '+' => some .keep
  | some '-' => some .strip
  | _ => none

def increment? (c : Option Char) : Option Nat :=
  c.bind fun ch => if Json.isDigit ch then some (ch.toNat - 48) else none

/-- Chomping and indentation from the header, both in any order and each optional. -/
def header (c : Cursor) : Reading (Chomping × Option Nat × Cursor) :=
  let (chomping, increment, c) :=
    match chomping? c.head? with
    | some chomping =>
      match increment? c.next.head? with
      | some n => (chomping, some n, c.next.next)
      | none => (chomping, none, c.next)
    | none =>
      match increment? c.head? with
      | some n =>
        match chomping? c.next.head? with
        | some chomping => (chomping, some n, c.next.next)
        | none => (.clip, some n, c.next)
      | none => (.clip, none, c)
  if increment = some 0 || !isSpaceOrEnd c.head? then refuse .blockHeader
  else
    match c.finishLine? with
    | some c => .ok (chomping, increment, c)
    | none => refuse .blockHeader

/-- Empty lines in front and the greatest column that their spaces, or those before the first text,
reach. -/
def leadingBreaks : Nat → Nat → Cursor → List Char × Nat × Cursor
  | 0, width, c => ([], width, c)
  | fuel + 1, width, c =>
    match c.head? with
    | some ' ' => leadingBreaks fuel (max width c.next.column) c.next
    | _ =>
      match c.lineBreak? with
      | none => ([], width, c)
      | some (b, c) =>
        let (more, width, c) := leadingBreaks fuel width c
        (b :: more, width, c)

/-- Skips spaces up to a column. -/
def skipIndent (indent : Nat) : Nat → Cursor → Cursor
  | 0, c => c
  | fuel + 1, c =>
    if c.column < indent && c.head? == some ' ' then skipIndent indent fuel c.next else c

/-- Empty lines in front, each indented at most to `indent`. -/
def breaks (indent : Nat) : Nat → Cursor → List Char × Cursor
  | 0, c => ([], c)
  | fuel + 1, c =>
    let c := skipIndent indent indent c
    match c.lineBreak? with
    | none => ([], c)
    | some (b, c) =>
      let (more, c) := breaks indent fuel c
      (b :: more, c)

def beginsBlank (c : Cursor) : Bool := c.head? == some ' ' || c.head? == some '\t'

/-- The lines of a block: the text, the last line break, and the empty lines after it. -/
def body (folded : Bool) (indent : Nat) : Nat → List Char → Cursor →
    List Char × Option Char × List Char × Cursor
  | 0, empty, c => ([], none, empty, c)
  | fuel + 1, empty, c =>
    if c.column != indent || c.rest.isEmpty then ([], none, empty, c)
    else
      let (line, after) := c.span (!isBreak ·)
      let text := empty ++ line
      match after.lineBreak? with
      | none => (text, none, [], after)
      | some (b, next) =>
        let (more, next) := breaks indent (next.rest.length + 1) next
        if next.column = indent && !next.rest.isEmpty then
          let join := if folded && b == '\n' && !beginsBlank c && !beginsBlank next then
              (if more.isEmpty then [' '] else [])
            else [b]
          let (rest, last, tail, stop) := body folded indent fuel more next
          (text ++ join ++ rest, last, tail, stop)
        else (text, some b, more, next)

/-- Reads a block; `c` is behind its mark, and `least` is the least indentation of its lines. -/
def read (folded : Bool) (least : Nat) (c : Cursor) : Reading (List Char × Cursor) := do
  let (chomping, increment, c) ← header c
  let (empty, indent, c) := match increment with
    | none =>
      let (empty, width, c) := leadingBreaks c.rest.length 0 c
      (empty, max least width, c)
    | some n =>
      let (empty, c) := breaks (least + n - 1) (c.rest.length + 1) c
      (empty, least + n - 1, c)
  let (text, last, tail, c) := body folded indent (c.rest.length + 1) empty c
  match chomping with
  | .strip => return (text, c)
  | .clip => return (text ++ last.toList, c)
  | .keep => return (text ++ last.toList ++ tail, c)

end Block
end ClassAtlas.Yaml
