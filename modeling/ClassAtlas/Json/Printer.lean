import ClassAtlas.Json.Value
import ClassAtlas.Number.Numeral
import ClassAtlas.Number.Shortest
import ClassAtlas.Text.Quoted
/-!
# Writing JSON

The text is pure ASCII: every other character is written as an escape, one beyond the first
plane as two. The indented form puts each item on a line of its own, two columns deeper than
the list or object that holds it; an empty list or object stays on its line.
-/
namespace ClassAtlas.Json

open Text (hexDigits)

def unitEscape (n : Nat) : List Char := '\\' :: 'u' :: hexDigits 4 n

def escapeChar (c : Char) : List Char :=
  let n := c.toNat
  if c = '"' ∨ c = '\\' then ['\\', c]
  else if c = '\n' then ['\\', 'n']
  else if c = '\r' then ['\\', 'r']
  else if c = '\t' then ['\\', 't']
  else if n = 8 then ['\\', 'b']
  else if n = 12 then ['\\', 'f']
  else if 32 ≤ n ∧ n < 127 then [c]
  else if n < 0x10000 then unitEscape n
  else unitEscape (0xD800 + (n - 0x10000) / 0x400) ++ unitEscape (0xDC00 + (n - 0x10000) % 0x400)

def renderString (cs : List Char) : List Char := '"' :: cs.flatMap escapeChar ++ ['"']

def renderInt (n : Int) : List Char :=
  let digits := Nat.toDigits 10 n.natAbs
  if n < 0 then '-' :: digits else digits

def renderReal : Binary64 → List Char
  | .nan => ['N', 'a', 'N']
  | .infinite negative => (if negative then ['-'] else []) ++ "Infinity".toList
  | x => x.render.toList

/-- A new line of `depth` levels of indentation. -/
def newLine (depth : Nat) : List Char := '\n' :: List.replicate (2 * depth) ' '

mutual
/-- The indented text of a value that stands `depth` levels deep. -/
def renderAt (depth : Nat) : Json → List Char
  | null => "null".toList
  | bool b => if b then "true".toList else "false".toList
  | int n => renderInt n
  | real x => renderReal x
  | str s => renderString s.toList
  | arr [] => ['[', ']']
  | arr (v :: vs) =>
    '[' :: newLine (depth + 1) ++ renderAt (depth + 1) v ++ renderItems (depth + 1) vs ++
      newLine depth ++ [']']
  | obj [] => ['{', '}']
  | obj ((k, v) :: ms) =>
    '{' :: newLine (depth + 1) ++ renderString k.toList ++ [':', ' '] ++ renderAt (depth + 1) v ++
      renderMembers (depth + 1) ms ++ newLine depth ++ ['}']
def renderItems (depth : Nat) : List Json → List Char
  | [] => []
  | v :: vs => ',' :: newLine depth ++ renderAt depth v ++ renderItems depth vs
def renderMembers (depth : Nat) : List (String × Json) → List Char
  | [] => []
  | (k, v) :: ms =>
    ',' :: newLine depth ++ renderString k.toList ++ [':', ' '] ++ renderAt depth v ++
      renderMembers depth ms
end

/-- The indented text of a document. -/
def render (v : Json) : List Char := renderAt 0 v

/-- Whether a whole number has more digits than are written. -/
def isLong (n : Int) : Bool := !decide (n.natAbs < Nat.pow 10 Numeral.maxDigits)

mutual
/-- Whether a value holds a whole number that is too long to be written. -/
def hasLongNumber : Json → Bool
  | int n => isLong n
  | arr vs => anyLongNumber vs
  | obj ms => anyMemberLongNumber ms
  | _ => false
def anyLongNumber : List Json → Bool
  | [] => false
  | v :: vs => hasLongNumber v || anyLongNumber vs
def anyMemberLongNumber : List (String × Json) → Bool
  | [] => false
  | (_, v) :: ms => hasLongNumber v || anyMemberLongNumber ms
end

mutual
/-- The text of a value on one line. -/
def compact : Json → List Char
  | arr vs => '[' :: compactItems true vs
  | obj ms => '{' :: compactMembers true ms
  | v => renderAt 0 v
def compactItems (first : Bool) : List Json → List Char
  | [] => [']']
  | v :: vs => (if first then [] else [',']) ++ compact v ++ compactItems false vs
def compactMembers (first : Bool) : List (String × Json) → List Char
  | [] => ['}']
  | (k, v) :: ms =>
    (if first then [] else [',']) ++ renderString k.toList ++ ':' :: compact v ++
      compactMembers false ms
end

end ClassAtlas.Json
