import ClassAtlas.Json.Value
/-!
# Reading JSON

A reader takes what is left of the text and returns a value with what is left after it. A fault
is placed by the number of characters that were left where it was found. Besides strict JSON the
words `NaN`, `Infinity` and `-Infinity` are numbers; of members with one name the last one counts.
-/
namespace ClassAtlas.Json

inductive Fault where
  | byteOrderMark
  | expectingValue
  | expectingName
  | expectingColon
  | expectingComma
  | extraData
  | unterminatedString
  | controlCharacter
  | badEscape
  | badUnitEscape
deriving DecidableEq, Repr

def Fault.message : Fault → String
  | byteOrderMark => "Unexpected UTF-8 BOM (decode using utf-8-sig)"
  | expectingValue => "Expecting value"
  | expectingName => "Expecting property name enclosed in double quotes"
  | expectingColon => "Expecting ':' delimiter"
  | expectingComma => "Expecting ',' delimiter"
  | extraData => "Extra data"
  | unterminatedString => "Unterminated string starting at"
  | controlCharacter => "Invalid control character at"
  | badEscape => "Invalid \\escape"
  | badUnitEscape => "Invalid \\uXXXX escape"

inductive ReadError where
  /-- `left` characters were left at the place of the fault. -/
  | malformed (fault : Fault) (left : Nat)
  | tooDeep (inArray : Bool)
  | tooManyDigits (count : Nat)
deriving DecidableEq, Repr

abbrev Reading (α : Type) := Except ReadError (α × List Char)

def isSpace (c : Char) : Bool := c = ' ' || c = '\t' || c = '\n' || c = '\r'
def skipSpace (cs : List Char) : List Char := cs.dropWhile isSpace

def fail {α : Type} (fault : Fault) (rest : List Char) : Except ReadError α :=
  .error (.malformed fault rest.length)

def hexValue? (c : Char) : Option Nat :=
  let n := c.toNat
  if 48 ≤ n ∧ n ≤ 57 then some (n - 48)
  else if 97 ≤ n ∧ n ≤ 102 then some (n - 87)
  else if 65 ≤ n ∧ n ≤ 70 then some (n - 55)
  else none

def hexNumber? (cs : List Char) : Option Nat :=
  cs.foldl (fun acc c => do return (← acc) * 16 + (← hexValue? c)) (some 0)

/-- The four hexadecimal digits after `\u`; at least one more character has to follow them. -/
def unit? (cs : List Char) : Option (Nat × List Char) :=
  if cs.length ≤ 4 then none
  else (hexNumber? (cs.take 4)).map fun n => (n, cs.drop 4)

def isHighUnit (n : Nat) : Bool := 0xD800 ≤ n && n < 0xDC00
def isLowUnit (n : Nat) : Bool := 0xDC00 ≤ n && n < 0xE000

/-- A unit that is half of a pair and stands alone has no character; it is replaced. -/
def unitChar (n : Nat) : Char :=
  if isHighUnit n || isLowUnit n then Char.ofNat 0xFFFD else Char.ofNat n

/-- The character written by the escape whose `u` comes first in `cs`. -/
def unitEscape? (cs : List Char) : Except ReadError (Char × List Char) :=
  match unit? (cs.drop 1) with
  | none => fail .badUnitEscape cs
  | some (n, rest) =>
    match rest with
    | '\\' :: 'u' :: more =>
      if isHighUnit n && 4 < more.length then
        match unit? more with
        | none => fail .badUnitEscape ('u' :: more)
        | some (low, after) =>
          if isLowUnit low then
            .ok (Char.ofNat (0x10000 + (n - 0xD800) * 0x400 + (low - 0xDC00)), after)
          else .ok (unitChar n, rest)
      else .ok (unitChar n, rest)
    | _ => .ok (unitChar n, rest)

def simpleEscape? : Char → Option Char
  | '"' => some '"'
  | '\\' => some '\\'
  | '/' => some '/'
  | 'b' => some (Char.ofNat 8)
  | 'f' => some (Char.ofNat 12)
  | 'n' => some '\n'
  | 'r' => some '\r'
  | 't' => some '\t'
  | _ => none

/-- The text up to the closing quote; `start` characters were left at the opening one. -/
def readString (start : Nat) : Nat → List Char → List Char → Reading (List Char)
  | 0, _, _ => .error (.malformed .unterminatedString start)
  | fuel + 1, acc, cs =>
    match cs with
    | [] => .error (.malformed .unterminatedString start)
    | '"' :: rest => .ok (acc.reverse, rest)
    | '\\' :: rest =>
      match rest with
      | [] => .error (.malformed .unterminatedString start)
      | 'u' :: _ =>
        match unitEscape? rest with
        | .error e => .error e
        | .ok (c, after) => readString start fuel (c :: acc) after
      | c :: after =>
        match simpleEscape? c with
        | some d => readString start fuel (d :: acc) after
        | none => fail .badEscape cs
    | c :: rest =>
      if c.toNat < 32 then fail .controlCharacter cs
      else readString start fuel (c :: acc) rest

def readText (cs : List Char) : Reading (List Char) := readString (cs.length + 1) (cs.length + 1) [] cs

def isDigit (c : Char) : Bool := '0' ≤ c && c ≤ '9'

/-- The value of decimal digits. -/
def digitsValue (cs : List Char) : Nat := cs.foldl (fun n c => n * 10 + (c.toNat - 48)) 0

/-- The digits after a point, if there is a point with digits after it. -/
def fractionPart (cs : List Char) : List Char × List Char :=
  match cs with
  | '.' :: c :: rest =>
    if isDigit c then ((c :: rest).takeWhile isDigit, (c :: rest).dropWhile isDigit) else ([], cs)
  | _ => ([], cs)

/-- The exponent of ten, if there is one with digits. -/
def exponentPart (cs : List Char) : Option Int × List Char :=
  match cs with
  | c :: rest =>
    if c = 'e' ∨ c = 'E' then
      let (negative, body) := match rest with
        | '-' :: more => (true, more)
        | '+' :: more => (false, more)
        | _ => (false, rest)
      let digits := body.takeWhile isDigit
      if digits.isEmpty then (none, cs)
      else
        let n : Int := digitsValue digits
        (some (if negative then -n else n), body.dropWhile isDigit)
    else (none, cs)
  | [] => (none, cs)

/-- The longest whole number that is read from text. -/
def maxDigits : Nat := 4300

def readNumber (cs : List Char) : Reading Json :=
  let (negative, body) := match cs with
    | '-' :: rest => (true, rest)
    | _ => (false, cs)
  match body with
  | [] => fail .expectingValue cs
  | c :: more =>
    if !isDigit c then fail .expectingValue cs
    else
      let whole := if c = '0' then ['0'] else body.takeWhile isDigit
      let rest := if c = '0' then more else body.dropWhile isDigit
      let (fraction, rest) := fractionPart rest
      let (exponent, rest) := exponentPart rest
      if fraction.isEmpty && exponent.isNone then
        if whole.length > maxDigits then .error (.tooManyDigits whole.length)
        else
          let n : Int := digitsValue whole
          .ok (int (if negative then -n else n), rest)
      else
        let e : Int := exponent.getD 0 - (fraction.length : Int)
        .ok (real (Binary64.ofDecimal negative (digitsValue (whole ++ fraction)) e), rest)

/-- The values that are written as words. -/
def wordValues : List (List Char × Json) :=
  [("null".toList, null), ("true".toList, bool true), ("false".toList, bool false),
    ("NaN".toList, real .nan), ("Infinity".toList, real (.infinite false)),
    ("-Infinity".toList, real (.infinite true))]

mutual
/-- A value that begins at the front of `cs`; `depth` more levels may be opened. -/
def readValue : Nat → Nat → List Char → Reading Json
  | 0, _, cs => fail .expectingValue cs
  | fuel + 1, depth, cs =>
    match cs with
    | [] => fail .expectingValue cs
    | '"' :: rest =>
      match readText rest with
      | .error e => .error e
      | .ok (s, after) => .ok (str (String.ofList s), after)
    | '{' :: rest =>
      match depth with
      | 0 => .error (.tooDeep false)
      | depth + 1 =>
        match skipSpace rest with
        | '}' :: after => .ok (obj [], after)
        | inside => readMembers fuel depth [] inside
    | '[' :: rest =>
      match depth with
      | 0 => .error (.tooDeep true)
      | depth + 1 =>
        match skipSpace rest with
        | ']' :: after => .ok (arr [], after)
        | inside => readItems fuel depth [] inside
    | _ =>
      match wordValues.find? fun (w, _) => w.isPrefixOf cs with
      | some (w, v) => .ok (v, cs.drop w.length)
      | none => readNumber cs
def readItems : Nat → Nat → List Json → List Char → Reading Json
  | 0, _, _, cs => fail .expectingValue cs
  | fuel + 1, depth, acc, cs =>
    match readValue fuel depth cs with
    | .error e => .error e
    | .ok (v, rest) =>
      match skipSpace rest with
      | ']' :: after => .ok (arr (v :: acc).reverse, after)
      | ',' :: after => readItems fuel depth (v :: acc) (skipSpace after)
      | other => fail .expectingComma other
def readMembers : Nat → Nat → List (String × Json) → List Char → Reading Json
  | 0, _, _, cs => fail .expectingName cs
  | fuel + 1, depth, acc, cs =>
    match cs with
    | '"' :: rest =>
      match readText rest with
      | .error e => .error e
      | .ok (name, afterName) =>
        match skipSpace afterName with
        | ':' :: afterColon =>
          match readValue fuel depth (skipSpace afterColon) with
          | .error e => .error e
          | .ok (v, afterValue) =>
            let members := setMember (String.ofList name) v acc
            match skipSpace afterValue with
            | '}' :: after => .ok (obj members, after)
            | ',' :: after => readMembers fuel depth members (skipSpace after)
            | other => fail .expectingComma other
        | other => fail .expectingColon other
    | _ => fail .expectingName cs
end

/-- Reads one value with blanks around it; at most `depth` levels deep. -/
def readValueText (depth : Nat) (cs : List Char) : Except ReadError Json :=
  match readValue (2 * cs.length + 2) depth (skipSpace cs) with
  | .error e => .error e
  | .ok (v, rest) =>
    match skipSpace rest with
    | [] => .ok v
    | other => fail .extraData other

/-- Reads a document, which must not begin with a byte order mark. -/
def readDeep (depth : Nat) (cs : List Char) : Except ReadError Json :=
  if cs.head? = some (Char.ofNat 0xFEFF) then fail .byteOrderMark cs else readValueText depth cs

end ClassAtlas.Json
