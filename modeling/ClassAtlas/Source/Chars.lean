import ClassAtlas.Dialect
/-!
# Blanks, comments and words of source texts

A line feed and the two separators of lines and paragraphs end a line. Readers return what is left
of the text.
-/
namespace ClassAtlas.Source

def endsLine (c : Char) : Bool := c == '\n' || c == Char.ofNat 0x2028 || c == Char.ofNat 0x2029

def isSpace (c : Char) : Bool :=
  let n := c.toNat
  (9 ≤ n && n ≤ 13) || n == 32 || n == 0x85 || n == 0xA0 || n == 0x1680 ||
    (0x2000 ≤ n && n ≤ 0x200B) || n == 0x2028 || n == 0x2029 || n == 0x202F || n == 0x205F ||
    n == 0x2060 || n == 0x3000 || n == 0xFEFF

/-- Characters of ASCII that stand in no word. -/
def marks : List Char :=
  [':', ';', '"', '\'', '@', '#', '.', ',', '|', '^', '&', '<', '=', '>', '+', '-', '*', '/', '\\',
    '%', '?', '!', '~', '(', ')', '[', ']', '\x7b', '\x7d', Char.ofNat 96]

/-- A character of a word. All beyond ASCII but blanks count. -/
def inWord (c : Char) : Bool := 32 < c.toNat && !isSpace c && !marks.contains c

def isDigit (c : Char) : Bool := '0' ≤ c && c ≤ '9'
def startsWord (c : Char) : Bool := inWord c && !isDigit c

def isHexDigit (c : Char) : Bool :=
  isDigit c || ('a' ≤ c && c ≤ 'f') || ('A' ≤ c && c ≤ 'F')

/-- The length of an escaped character at the front of a word's rest. -/
def escapeLength? : List Char → Option Nat
  | '\\' :: 'u' :: '\x7b' :: cs =>
    let digits := cs.takeWhile isHexDigit
    if digits.isEmpty || (cs.drop digits.length).head? != some '\x7d' then none
    else some (digits.length + 4)
  | '\\' :: 'u' :: cs =>
    let digits := (cs.take 4).takeWhile isHexDigit
    if digits.length = 4 then some 6 else none
  | _ => none

/-- The length of the word at the front, of which `skip` more characters are already known. -/
def wordLengthFrom : Nat → List Char → Nat
  | _, [] => 0
  | skip + 1, _ :: cs => wordLengthFrom skip cs + 1
  | 0, c :: cs =>
    if inWord c then wordLengthFrom 0 cs + 1
    else match escapeLength? (c :: cs) with
      | some n => wordLengthFrom (n - 1) cs + 1
      | none => 0

/-- The word at the front of the text, empty when there is none. -/
def word (cs : List Char) : List Char :=
  match cs with
  | [] => []
  | c :: _ =>
    if startsWord c || (escapeLength? cs).isSome then cs.take (wordLengthFrom 0 cs) else []

/-- How far blanks and comments go. -/
inductive Between where
  | blank
  | lineComment
  | blockComment

/-- Drops blanks and comments in front; comes with whether a line ended among them. With `markup`
the arrows of markup comments begin comments that go to the end of the line. -/
def skipFrom (markup : Bool) : Between → Bool → List Char → Bool × List Char
  | _, broke, [] => (broke, [])
  | .blockComment, broke, '*' :: '/' :: cs => skipFrom markup .blank broke cs
  | .blockComment, broke, c :: cs => skipFrom markup .blockComment (broke || endsLine c) cs
  | .lineComment, broke, c :: cs =>
    if endsLine c then skipFrom markup .blank true cs
    else if c == '\r' then skipFrom markup .blank broke cs
    else skipFrom markup .lineComment broke cs
  | .blank, broke, '/' :: '/' :: cs => skipFrom markup .lineComment broke cs
  | .blank, broke, '/' :: '*' :: cs => skipFrom markup .blockComment broke cs
  | .blank, broke, '<' :: '!' :: '-' :: '-' :: cs =>
    if markup then skipFrom markup .lineComment broke cs
    else (broke, '<' :: '!' :: '-' :: '-' :: cs)
  | .blank, broke, '-' :: '-' :: '>' :: cs =>
    if markup then skipFrom markup .lineComment broke cs else (broke, '-' :: '-' :: '>' :: cs)
  | .blank, broke, c :: cs =>
    if isSpace c then skipFrom markup .blank (broke || endsLine c) cs else (broke, c :: cs)

/-- The text after blanks and comments where an operator may follow. -/
def skip (cs : List Char) : List Char := (skipFrom false .blank false cs).2

/-- The text after blanks and comments where a statement or an operand may begin. -/
def skipLead (cs : List Char) : List Char := (skipFrom true .blank false cs).2

/-- Whether a line ends before the next thing in the text. -/
def lineEnds (cs : List Char) : Bool := (skipFrom false .blank false cs).1

/-- The word that comes next on the same line. -/
def wordOnLine (cs : List Char) : List Char := if lineEnds cs then [] else word (skip cs)

def nextIs (c : Char) (cs : List Char) : Bool := (skip cs).head? == some c

/-- The characters of `cs` in front of what is left. -/
def readUpTo (cs rest : List Char) : List Char := cs.take (cs.length - rest.length)

end ClassAtlas.Source
