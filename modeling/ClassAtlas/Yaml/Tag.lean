import ClassAtlas.Json.Reader
import ClassAtlas.Text.Split
/-!
# Tags

The tag of a node says what kind of value it stands for. A plain scalar without a tag gets one from
its form: a truth value, a number, a time, nothing, a merge or value key, or else text.
-/
namespace ClassAtlas.Yaml.Tag

def lead : String := "tag:yaml.org,2002:"
def of (name : String) : String := lead ++ name

def null : String := of "null"
def truth : String := of "bool"
def whole : String := of "int"
def real : String := of "float"
def bytes : String := of "binary"
def time : String := of "timestamp"
def text : String := of "str"
def sequence : String := of "seq"
def mapping : String := of "map"
def orderedMap : String := of "omap"
def pairs : String := of "pairs"
def set : String := of "set"
def merge : String := of "merge"
def value : String := of "value"
def reserved : String := of "yaml"

/-- The tag that asks for the one that the form gives. -/
def byForm : String := "!"

open Json (isDigit)

def truthWords : List String :=
  ["yes", "Yes", "YES", "no", "No", "NO", "true", "True", "TRUE", "false", "False", "FALSE", "on",
    "On", "ON", "off", "Off", "OFF"]

def nullWords : List String := ["", "~", "null", "Null", "NULL"]

def dropSign : List Char → List Char
  | '-' :: cs => cs
  | '+' :: cs => cs
  | cs => cs

def isDigitOrScore (c : Char) : Bool := isDigit c || c == '_'

/-- A digit and then digits and underscores. -/
def isDigits : List Char → Bool
  | [] => false
  | c :: cs => isDigit c && cs.all isDigitOrScore

/-- One character at least, all of which satisfy `p`. -/
def isRun (p : Char → Bool) (cs : List Char) : Bool := !cs.isEmpty && cs.all p

/-- A part of a number of base sixty: below 60, of one or two digits. -/
def isSixtieth : List Char → Bool
  | [d] => isDigit d
  | [t, d] => '0' ≤ t && t ≤ '5' && isDigit d
  | _ => false

/-- A sign and digits, with nothing after them. -/
def isExponent : List Char → Bool
  | [] => true
  | e :: sign :: cs => (e == 'e' || e == 'E') && (sign == '-' || sign == '+') && isRun isDigit cs
  | _ => false

/-- Digits and underscores with an exponent after them. -/
def isFraction (cs : List Char) : Bool := isExponent (cs.dropWhile isDigitOrScore)

/-- A number in decimal without zeros in front, or a zero, or of base sixty. -/
def isPlainWhole (cs : List Char) : Bool :=
  match Text.splitOn ':' cs with
  | [] => false
  | first :: parts =>
    (first == ['0'] && parts.isEmpty) ||
      (isDigits first && first.head? != some '0' && parts.all isSixtieth)

def isHexOrScore (c : Char) : Bool := (Json.hexValue? c).isSome || c == '_'

def isWhole (cs : List Char) : Bool :=
  let body := dropSign cs
  isPlainWhole body ||
    match body with
    | '0' :: 'b' :: digits => isRun (fun c => c == '0' || c == '1' || c == '_') digits
    | '0' :: 'x' :: digits => isRun isHexOrScore digits
    | '0' :: digits => isRun (fun c => ('0' ≤ c && c ≤ '7') || c == '_') digits
    | _ => false

/-- Parts of base sixty, the last one with a point in it. -/
def isSixtyReal (cs : List Char) : Bool :=
  let (front, behind) := (cs.takeWhile (· != '.'), cs.dropWhile (· != '.'))
  match Text.splitOn ':' front, behind with
  | first :: part :: parts, '.' :: digits =>
    isDigits first && (part :: parts).all isSixtieth && digits.all isDigitOrScore
  | _, _ => false

def isReal (cs : List Char) : Bool :=
  let body := dropSign cs
  let front := body.takeWhile isDigitOrScore
  (match body.drop front.length with
    | '.' :: rest => isDigits front && isFraction rest
    | _ => false) ||
  (match cs with
    | '.' :: d :: rest => isDigit d && isFraction rest
    | _ => false) ||
  isSixtyReal body ||
  [".inf", ".Inf", ".INF"].contains (String.ofList body) ||
  [".nan", ".NaN", ".NAN"].contains (String.ofList cs)

/-- A date of ten characters; a longer form has a time after it. -/
def isDate (cs : List Char) : Bool :=
  match cs with
  | [a, b, c, d, '-', e, f, '-', g, h] => [a, b, c, d, e, f, g, h].all isDigit
  | _ => false

/-- The tag that the form of a plain scalar gives. A line end at the end does not count. -/
def ofForm (isTime : List Char → Bool) (cs : List Char) : String :=
  let body := if cs.getLast? = some '\n' && cs != ['\n'] then cs.dropLast else cs
  let s := String.ofList body
  if cs = ['\n'] then text
  else if truthWords.contains s then truth
  else if isReal body then real
  else if isWhole body then whole
  else if s = "<<" then merge
  else if nullWords.contains s then null
  else if isDate body || isTime body then time
  else if s = "=" then value
  else if s = "!" || s = "&" || s = "*" then reserved
  else text

end ClassAtlas.Yaml.Tag
