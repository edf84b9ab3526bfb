import ClassAtlas.Text.WordChar
import ClassAtlas.Text.Blank
/-!
# Text patterns

A pattern is tried at a place of a text. Of the ways to match, the first in order of preference
counts: a run takes as much as it can and gives back one character at a time, and the left
alternative comes before the right one.
-/
namespace ClassAtlas.Text

/-- A place in a text, with the text captured on the way to it. -/
structure Place where
  before : Option Char
  rest : List Char
  captured : List Char

inductive Pattern where
  | empty
  | one (p : Char → Bool)
  /-- The longest run comes first. -/
  | many (p : Char → Bool)
  | seq (a b : Pattern)
  | alt (a b : Pattern)
  /-- Remembers the text that `a` matches. -/
  | capture (a : Pattern)
  | lineStart
  /-- Between a word character and one that is none, or a text's end. -/
  | wordEdge

namespace Pattern

def char (c : Char) : Pattern := one (· == c)
def word (w : String) : Pattern := w.toList.foldr (fun c p => seq (char c) p) empty
def many1 (p : Char → Bool) : Pattern := seq (one p) (many p)
def opt (a : Pattern) : Pattern := alt a empty
def oneOf (ps : List Pattern) (last : Pattern) : Pattern := ps.foldr alt last
def blanks : Pattern := many isBlank
def blanks1 : Pattern := many1 isBlank
def wordRun : Pattern := many1 isWordChar

instance : HAppend Pattern Pattern Pattern := ⟨seq⟩

/-- Tries `next` after the longest run first. -/
def runMany {β : Type} (p : Char → Bool) (captured : List Char) (next : Place → Option β) :
    Option Char → List Char → Option β
  | before, [] => next ⟨before, [], captured⟩
  | before, c :: cs =>
    if p c then
      match runMany p captured next (some c) cs with
      | some r => some r
      | none => next ⟨before, c :: cs, captured⟩
    else next ⟨before, c :: cs, captured⟩

/-- The first way to match at a place after which `next` succeeds. -/
def run {β : Type} : Pattern → Place → (Place → Option β) → Option β
  | empty, s, next => next s
  | one p, s, next =>
    match s.rest with
    | [] => none
    | c :: cs => if p c then next ⟨some c, cs, s.captured⟩ else none
  | many p, s, next => runMany p s.captured next s.before s.rest
  | seq a b, s, next => a.run s fun t => b.run t next
  | alt a b, s, next =>
    match a.run s next with
    | some r => some r
    | none => b.run s next
  | capture a, s, next =>
    a.run s fun t => next { t with captured := s.rest.take (s.rest.length - t.rest.length) }
  | lineStart, s, next => if s.before = none ∨ s.before = some '\n' then next s else none
  | wordEdge, s, next =>
    if s.before.any isWordChar != s.rest.head?.any isWordChar then next s else none

/-- A match: the matched text and what was captured in it. -/
structure Found where
  text : List Char
  captured : List Char
deriving DecidableEq, Repr

def matchAt (p : Pattern) (before : Option Char) (rest : List Char) : Option Found :=
  p.run ⟨before, rest, []⟩ fun t =>
    some ⟨rest.take (rest.length - t.rest.length), t.captured⟩

/-- The match at the earliest place. -/
def findFrom (p : Pattern) : Option Char → List Char → Option Found
  | before, [] => p.matchAt before []
  | before, c :: cs =>
    match p.matchAt before (c :: cs) with
    | some m => some m
    | none => findFrom p (some c) cs

def find? (p : Pattern) (text : List Char) : Option Found := p.findFrom none text

/-- The matches after the next `skip` characters, each beginning where the one before it ended
or later. Only matches that take a character are looked for. -/
def findAllFrom (p : Pattern) : Nat → Option Char → List Char → List Found
  | _, _, [] => []
  | skip + 1, _, c :: cs => findAllFrom p skip (some c) cs
  | 0, before, c :: cs =>
    match p.matchAt before (c :: cs) with
    | some m => m :: findAllFrom p (m.text.length - 1) (some c) cs
    | none => findAllFrom p 0 (some c) cs

def findAll (p : Pattern) (text : List Char) : List Found := p.findAllFrom 0 none text

end Pattern
end ClassAtlas.Text
