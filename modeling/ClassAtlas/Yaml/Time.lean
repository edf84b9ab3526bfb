import ClassAtlas.Yaml.Tag
import ClassAtlas.Yaml.Fault
/-!
# Times in YAML

A time is a date, perhaps with a time of day and an offset after it. The parts may be of one digit,
and blanks may stand between date and time and in front of the offset.
-/
namespace ClassAtlas.Yaml.TimeText

open Json (isDigit)

structure Parts where
  year : List Char
  month : List Char
  day : List Char
  /-- Hour, minute, second and fraction. -/
  clock : Option (List Char × List Char × List Char × List Char)
  /-- Sign, hours and minutes; an offset of zero can be written as a letter. -/
  offset : Option (Char × List Char × List Char)

def isBlank (c : Char) : Bool := c == ' ' || c == '\t'

/-- At most `most` digits in front. -/
def digits (most : Nat) (cs : List Char) : List Char × List Char :=
  let run := (cs.take most).takeWhile isDigit
  (run, cs.drop run.length)

/-- From `least` to `most` digits and then the mark `stop`. -/
def field? (least most : Nat) (stop : Char) (cs : List Char) : Option (List Char × List Char) :=
  match digits most cs with
  | (run, c :: rest) => if least ≤ run.length ∧ c = stop then some (run, rest) else none
  | _ => none

def offset? (cs : List Char) : Option (Option (Char × List Char × List Char)) :=
  match cs with
  | [] => some none
  | _ =>
    match cs.dropWhile isBlank with
    | ['Z'] => some (some ('Z', [], []))
    | sign :: rest =>
      let (hours, rest) := digits 2 rest
      if (sign != '+' && sign != '-') || hours.isEmpty then none
      else
        match rest with
        | [] => some (some (sign, hours, []))
        | [':', a, b] => if isDigit a && isDigit b then some (some (sign, hours, [a, b])) else none
        | _ => none
    | [] => none

/-- The time of day and the offset. -/
def clock? (cs : List Char) :
    Option ((List Char × List Char × List Char × List Char) × Option (Char × List Char × List Char)) := do
  let (hour, rest) ← field? 1 2 ':' cs
  let (minute, rest) ← field? 2 2 ':' rest
  let (second, rest) := digits 2 rest
  if second.length < 2 then none
  let (fraction, rest) := match rest with
    | '.' :: more => (more.takeWhile isDigit, more.dropWhile isDigit)
    | _ => ([], rest)
  return ((hour, minute, second, fraction), ← offset? rest)

/-- The parts of a time; a line end at the end does not count. -/
def parts? (cs : List Char) : Option Parts := do
  let cs := if cs.getLast? = some '\n' then cs.dropLast else cs
  let (year, rest) ← field? 4 4 '-' cs
  let (month, rest) ← field? 1 2 '-' rest
  let (day, rest) := digits 2 rest
  if day.isEmpty then none
  match rest with
  | [] => return ⟨year, month, day, none, none⟩
  | c :: more =>
    let body ← if c = 'T' ∨ c = 't' then some more else if isBlank c then some (more.dropWhile isBlank) else none
    let (clock, offset) ← clock? body
    return ⟨year, month, day, some clock, offset⟩

/-- Whether a scalar without a tag is a time: a date in full, or a date with a time of day. -/
def isTime (cs : List Char) : Bool :=
  match parts? cs with
  | some p => p.clock.isSome
  | none => false

def number (cs : List Char) : Nat := Json.digitsValue cs

/-- Millionths from the digits of a fraction, of which six count. -/
def micros (fraction : List Char) : Nat := number ((fraction ++ List.replicate 6 '0').take 6)

def offsetMicros : Option (Char × List Char × List Char) → Option Int
  | none => none
  | some (sign, hours, minutes) =>
    let n : Int := ((number hours * 3600 + number minutes * 60) * Moment.second : Nat)
    some (if sign = '-' then -n else n)

/-- Reads a time that has the form of one. -/
def read (cs : List Char) : Reading Moment :=
  match parts? cs with
  | none => .error .notTime
  | some p =>
    let clock : Iso.Clock := match p.clock with
      | some (h, m, s, f) => ⟨number h, number m, number s, micros f⟩
      | none => ⟨0, 0, 0, 0⟩
    match Iso.moment (number p.year) (number p.month) (number p.day) clock (offsetMicros p.offset) with
    | .ok m => .ok m
    | .error fault => .error (.time fault)

end ClassAtlas.Yaml.TimeText
