import ClassAtlas.Yaml.Fault
/-!
# A place in a YAML text

A cursor holds what is left of the text, and how far it has come. A byte order mark takes no
column. Line ends are taken to be unified before.
-/
namespace ClassAtlas.Yaml

def byteOrderMark : Char := Char.ofNat 0xFEFF

def isBreak (c : Char) : Bool :=
  let n := c.toNat
  n == 10 || n == 0x85 || n == 0x2028 || n == 0x2029

/-- The line break that stands in a scalar for one in the text. -/
def breakText (c : Char) : Char := if c.toNat = 0x85 then '\n' else c

def isBreakOrEnd : Option Char → Bool
  | none => true
  | some c => isBreak c

/-- A space, a line break or the end. -/
def isSpaceOrEnd : Option Char → Bool
  | some ' ' => true
  | c => isBreakOrEnd c

/-- A space, a tab, a line break or the end. -/
def isGap : Option Char → Bool
  | some '\t' => true
  | c => isSpaceOrEnd c

def isPrintable (c : Char) : Bool :=
  let n := c.toNat
  n == 9 || n == 10 || (0x20 ≤ n && n ≤ 0x7E) || n == 0x85 || (0xA0 ≤ n && n ≤ 0xFFFD) || 0x10000 ≤ n

structure Cursor where
  rest : List Char
  index : Nat
  line : Nat
  column : Nat
deriving Repr

namespace Cursor

def start (text : List Char) : Cursor := ⟨text, 0, 0, 0⟩

def next (c : Cursor) : Cursor :=
  match c.rest with
  | [] => c
  | ch :: cs =>
    if isBreak ch then ⟨cs, c.index + 1, c.line + 1, 0⟩
    else if ch = byteOrderMark then ⟨cs, c.index + 1, c.line, c.column⟩
    else ⟨cs, c.index + 1, c.line, c.column + 1⟩

def skip : Nat → Cursor → Cursor
  | 0, c => c
  | n + 1, c => skip n c.next

def peek (c : Cursor) (k : Nat) : Option Char := c.rest[k]?
def head? (c : Cursor) : Option Char := c.rest.head?

/-- The longest run in front of characters that satisfy `p`, and the place after it. -/
def span (p : Char → Bool) (c : Cursor) : List Char × Cursor :=
  let run := c.rest.takeWhile p
  (run, c.skip run.length)

def skipWhile (p : Char → Bool) (c : Cursor) : Cursor := (c.span p).2

/-- Whether three equal marks stand here and a gap follows them. -/
def sees (mark : Char) (c : Cursor) : Bool :=
  [mark, mark, mark].isPrefixOf c.rest && isGap (c.peek 3)

/-- Whether the line begins or ends a document; `c` stands at the start of the line. -/
def atSeparator (c : Cursor) : Bool := c.sees '-' || c.sees '.'

/-- The line break in front, if there is one, and the place after it. -/
def lineBreak? (c : Cursor) : Option (Char × Cursor) :=
  match c.rest with
  | ch :: _ => if isBreak ch then some (breakText ch, c.next) else none
  | [] => none

/-- Skips the rest of a line on which nothing but a comment may stand. -/
def finishLine? (c : Cursor) : Option Cursor :=
  let c := c.skipWhile (· == ' ')
  let c := if c.head? == some '#' then c.skipWhile (!isBreak ·) else c
  match c.lineBreak? with
  | some (_, c) => some c
  | none => if c.rest.isEmpty then some c else none

end Cursor
end ClassAtlas.Yaml
