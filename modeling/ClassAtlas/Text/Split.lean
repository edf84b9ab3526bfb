import ClassAtlas.Text.Blank
/-!
# Splitting and joining

Splitting at a separator keeps empty pieces, so joining with the separator gives the text back.
Lines end at any of the line boundaries of all scripts; a last empty line does not count.
-/
namespace ClassAtlas.Text

/-- The pieces between the characters that satisfy `p`; never empty. -/
def splitAt (p : Char → Bool) : List Char → List (List Char)
  | [] => [[]]
  | c :: cs =>
    if p c then [] :: splitAt p cs
    else match splitAt p cs with
      | [] => [[c]]
      | piece :: pieces => (c :: piece) :: pieces

def splitOn (sep : Char) (cs : List Char) : List (List Char) := splitAt (· == sep) cs

/-- What comes before the first character that satisfies `p`. -/
def upTo (p : Char → Bool) (cs : List Char) : List Char := cs.takeWhile fun c => !p c

/-- What comes after the last `sep`, or everything when there is none. -/
def afterLast (sep : Char) (cs : List Char) : List Char :=
  (cs.reverse.takeWhile (· != sep)).reverse

def startsWith (cs lead : List Char) : Bool := lead.isPrefixOf cs

/-- Whether `piece` occurs somewhere in the text. -/
def contains (piece : List Char) : List Char → Bool
  | [] => piece.isEmpty
  | c :: cs => piece.isPrefixOf (c :: cs) || contains piece cs

def isLineBoundary (c : Char) : Bool :=
  let n := c.toNat
  (10 ≤ n && n ≤ 13) || (28 ≤ n && n ≤ 30) || n == 0x85 || n == 0x2028 || n == 0x2029

/-- The lines of a text without their ends; a carriage return and a line feed end one line. -/
def linesFrom (line : List Char) : List Char → List (List Char)
  | [] => if line.isEmpty then [] else [line.reverse]
  | '\r' :: '\n' :: cs => line.reverse :: linesFrom [] cs
  | c :: cs => if isLineBoundary c then line.reverse :: linesFrom [] cs else linesFrom (c :: line) cs

def lines (cs : List Char) : List (List Char) := linesFrom [] cs

/-- Writes every line end as a line feed. -/
def unifyLineEnds : List Char → List Char
  | [] => []
  | '\r' :: '\n' :: cs => '\n' :: unifyLineEnds cs
  | c :: cs => (if c = '\r' then '\n' else c) :: unifyLineEnds cs

/-- The comma-separated parts of a text, trimmed, without the empty ones. -/
def commaParts (s : String) : List String :=
  ((splitOn ',' s.toList).map trim).filter (!·.isEmpty) |>.map String.ofList

def joinWith (sep : String) (parts : List String) : String := sep.intercalate parts

end ClassAtlas.Text
