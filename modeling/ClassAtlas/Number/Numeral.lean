import ClassAtlas.Number.Binary64
import ClassAtlas.Text.Blank
import ClassAtlas.Text.DecimalDigit
import ClassAtlas.Text.Lowercase
import ClassAtlas.Text.Quoted
/-!
# Numerals

Numbers as people write them: blanks around, a sign, digits of any script, single underscores
between digits. Whole numbers are read in a base from 2 to 36, floating point numbers with point
and exponent or as one of the words for the infinite and for what is no number.
-/
namespace ClassAtlas.Numeral

/-- The longest whole number, in digits, that is read or written in decimal. -/
def maxDigits : Nat := 4300

inductive Fault where
  | notWhole (base : Nat) (text : String)
  | notReal (text : String)
  | manyDigitsRead (count : Nat)
  | manyDigitsWritten
deriving DecidableEq, Repr

def limitText : String := "Exceeds the limit (4300 digits) for integer string conversion"
def adviceText : String := "; use sys.set_int_max_str_digits() to increase the limit"

/-- The words for a fault; of a text that is no whole number only the beginning is shown. -/
def Fault.message : Fault → String
  | notWhole base text =>
    "invalid literal for int() with base " ++ Nat.repr base ++ ": " ++
      String.ofList ((Text.quoted text).toList.take 200)
  | notReal text => "could not convert string to float: " ++ Text.quoted text
  | manyDigitsRead count => limitText ++ ": value has " ++ Nat.repr count ++ " digits" ++ adviceText
  | manyDigitsWritten => limitText ++ adviceText

/-- The blanks that may stand around a number: all but the information separators. -/
def isPad (c : Char) : Bool := Text.isBlank c && !(28 ≤ c.toNat && c.toNat ≤ 31)

def unpad (cs : List Char) : List Char := Text.dropEndWhile isPad (cs.dropWhile isPad)

/-- The value of a digit: a decimal digit of any script or a letter. -/
def digit? (c : Char) : Option Nat :=
  match Text.digitValue? c with
  | some n => some n
  | none =>
    let n := c.toNat
    if 97 ≤ n ∧ n ≤ 122 then some (n - 87) else if 65 ≤ n ∧ n ≤ 90 then some (n - 55) else none

/-- Digits with single underscores between them; `after` says whether a digit has come just
before. -/
def separated? (after : Bool) : List Char → Option (List Nat)
  | [] => if after then some [] else none
  | c :: cs =>
    if c = '_' then if after then separated? false cs else none
    else do return (← digit? c) :: (← separated? true cs)

/-- Whether a character is a digit of a base, or an underscore. -/
def belongs (base : Nat) (c : Char) : Bool := c == '_' || (digit? c).any (· < base)

/-- A text that is all digits of a base with single underscores between them. -/
def digits? (base : Nat) (cs : List Char) : Option (List Nat) :=
  if cs.all (belongs base) then separated? false cs else none

def valueOf (base : Nat) (digits : List Nat) : Nat := digits.foldl (fun n d => n * base + d) 0

/-- A sign in front, and what comes after it. -/
def sign : List Char → Bool × List Char
  | '-' :: cs => (true, cs)
  | '+' :: cs => (false, cs)
  | cs => (false, cs)

/-- The marks that may stand in front of the digits of a base. -/
def marks (base : Nat) : List Char :=
  if base = 2 then ['b', 'B'] else if base = 8 then ['o', 'O'] else if base = 16 then ['x', 'X'] else []

/-- Drops the mark of a base, with an underscore after it. -/
def dropMark (base : Nat) : List Char → List Char
  | '0' :: m :: cs =>
    if (marks base).contains m then
      match cs with
      | '_' :: more => more
      | _ => cs
    else '0' :: m :: cs
  | cs => cs

/-- A base that is a power of two has no limit of digits. -/
def isLimited (base : Nat) : Bool := !([2, 4, 8, 16, 32].contains base)

/-- Reads a whole number in a base. Too many digits are told before what comes after them. -/
def whole (base : Nat) (text : List Char) : Except Fault Int :=
  let (negative, body) := sign (unpad text)
  let body := dropMark base body
  match digits? base (body.takeWhile (belongs base)) with
  | none => .error (.notWhole base (String.ofList text))
  | some digits =>
    if isLimited base && digits.length > maxDigits then .error (.manyDigitsRead digits.length)
    else if body.all (belongs base) then
      let n : Int := valueOf base digits
      .ok (if negative then -n else n)
    else .error (.notWhole base (String.ofList text))

/-- The words that stand for numbers that are not finite. -/
def wordValues : List (String × Binary64) :=
  [("inf", .infinite false), ("infinity", .infinite false), ("nan", .nan)]

/-- Digits in front of a text, with single underscores between them. -/
def leadingDigits (cs : List Char) : Option (List Nat) × List Char :=
  let run := cs.takeWhile fun c => (Text.digitValue? c).isSome || c == '_'
  (if run.isEmpty then some [] else digits? 10 run, cs.drop run.length)

/-- The exponent after `e`. -/
def exponent? : List Char → Option Int
  | [] => some 0
  | e :: cs =>
    if e = 'e' ∨ e = 'E' then
      let (negative, body) := sign cs
      (digits? 10 body).map fun digits =>
        let n : Int := valueOf 10 digits
        if negative then -n else n
    else none

/-- A point and the digits after it. -/
def fraction? : List Char → Option (List Nat × List Char)
  | '.' :: cs =>
    match leadingDigits cs with
    | (some digits, rest) => some (digits, rest)
    | (none, _) => none
  | cs => some ([], cs)

/-- A number with point and exponent, without its sign. -/
def decimal? (negative : Bool) (cs : List Char) : Option Binary64 := do
  let (front, rest) := leadingDigits cs
  let front ← front
  let (behind, rest) ← fraction? rest
  let e ← exponent? rest
  if front.isEmpty && behind.isEmpty then none
  return Binary64.ofDecimal negative (valueOf 10 (front ++ behind)) (e - (behind.length : Int))

/-- Reads a floating point number. -/
def real (text : List Char) : Except Fault Binary64 :=
  let (negative, body) := sign (unpad text)
  match wordValues.lookup (String.ofList (Text.lower body)) with
  | some x => .ok (if negative then x.neg else x)
  | none =>
    match decimal? negative body with
    | some x => .ok x
    | none => .error (.notReal (String.ofList text))

/-- Writes a whole number. -/
def writeWhole (n : Int) : Except Fault String :=
  if n.natAbs < Nat.pow 10 maxDigits then .ok (Int.repr n) else .error .manyDigitsWritten

/-- The floating point number of a whole number; none when that is too large. -/
def realOfWhole? (n : Int) : Option Binary64 :=
  let x := Binary64.ofInt n
  if x.isInfinite then none else some x

end ClassAtlas.Numeral
