import ClassAtlas.Time.Moment
import ClassAtlas.Text.Quoted
/-!
# Reading dates and times

A date is written as year, month and day or as year, week and weekday, with hyphens or without.
Any one character may separate it from a time of hours, minutes, seconds and a fraction, of which
six digits count. An offset or the letter `Z` may follow.
-/
namespace ClassAtlas.Iso

inductive Fault where
  /-- The text has not the form of a date and time. -/
  | form (text : String)
  | year (n : Nat)
  | month
  | day
  | hour
  | minute
  | second
  /-- The offset, in microseconds, is a day or more. -/
  | offset (micros : Int)
deriving DecidableEq, Repr

/-- A span of time as its days, seconds and microseconds, those that are zero left out. -/
def spanText (micros : Int) : String :=
  let days := Int.fdiv micros 86400000000
  let rest := (Int.fmod micros 86400000000).toNat
  let shown := [("days", days), ("seconds", ((rest / 1000000 : Nat) : Int)),
    ("microseconds", ((rest % 1000000 : Nat) : Int))].filter fun (_, n) => n != 0
  "datetime.timedelta(" ++ ", ".intercalate (shown.map fun (k, n) => k ++ "=" ++ Int.repr n) ++ ")"

def Fault.message : Fault → String
  | form text => "Invalid isoformat string: " ++ Text.quoted text
  | year n => "year " ++ Nat.repr n ++ " is out of range"
  | month => "month must be in 1..12"
  | day => "day is out of range for month"
  | hour => "hour must be in 0..23"
  | minute => "minute must be in 0..59"
  | second => "second must be in 0..59"
  | offset micros =>
    "offset must be a timedelta strictly between -timedelta(hours=24) and timedelta(hours=24), not " ++
      spanText micros ++ "."

def isDigit (c : Char) : Bool := '0' ≤ c && c ≤ '9'

/-- The next `n` characters as digits. -/
def digits? (n : Nat) (cs : List Char) : Option (Nat × List Char) :=
  let ds := cs.take n
  if ds.length = n && ds.all isDigit then some (Json.digitsValue ds, cs.drop n) else none

/-- How many characters belong to the date; none when that cannot be told. -/
def dateLength? (cs : List Char) : Option Nat :=
  let n := cs.length
  if n = 7 then some 7
  else if cs[4]? = some '-' then
    if cs[5]? = some 'W' then
      if cs[8]? = some '-' then
        if n = 9 then none
        else if (cs[10]?).any isDigit then some 8
        else some 10
      else some 8
    else some 10
  else if cs[4]? = some 'W' then
    let stop := 7 + ((cs.drop 7).takeWhile isDigit).length
    if stop < 9 then some stop else if stop % 2 = 0 then some 7 else some 8
  else some 8

/-- The date of a weekday in a week of a year. Weeks of year 0 give a month that does not exist. -/
def weekDate? (year week weekday : Nat) : Option (Nat × Nat × Nat) :=
  if week = 0 ∨ week > 53 ∨ (week = 53 ∧ !Calendar.hasLongYear year) then none
  else if weekday = 0 ∨ weekday > 7 then none
  else if year = 0 then some (1, 0, 1)
  else
    let n := Calendar.firstWeek year + ((week - 1) * 7 + weekday - 1 : Nat)
    if n < 0 then none else some (Calendar.date n.toNat)

/-- Year, month and day; `length` is how many characters belong to the date. -/
def date? (length : Nat) (cs : List Char) : Option (Nat × Nat × Nat) := do
  let (year, rest) ← digits? 4 cs
  let (hyphens, rest) := match rest with
    | '-' :: more => (true, more)
    | _ => (false, rest)
  match rest with
  | 'W' :: more =>
    let (week, more) ← digits? 2 more
    if cs.length - more.length < length then
      let more ← if hyphens then (match more with
        | '-' :: r => some r
        | _ => none) else some more
      let (weekday, _) ← digits? 1 more
      weekDate? year week weekday
    else weekDate? year week 1
  | _ =>
    let (month, rest) ← digits? 2 rest
    let rest ← if hyphens then (match rest with
      | '-' :: r => some r
      | _ => none) else some rest
    let (day, _) ← digits? 2 rest
    some (year, month, day)

/-- Hours, minutes, seconds and microseconds. -/
structure Clock where
  hour : Nat
  minute : Nat
  second : Nat
  micro : Nat
deriving DecidableEq, Repr

/-- The fraction of a second, of which up to six digits are read and more are passed over. With it
comes whether something else is left. -/
def fraction? (cs : List Char) : Option (Nat × Bool) := do
  let n := min cs.length 6
  let (value, rest) ← digits? n cs
  some (value * Nat.pow 10 (6 - n), !(rest.dropWhile isDigit).isEmpty)

/-- What comes after the hours, minutes or seconds. -/
inductive Step where
  | done (left : Bool)
  | fraction (rest : List Char)
  | next (rest : List Char)
  | wrong

/-- `colons` says whether the parts of the time are set apart by colons. One character more at the
end is left to be judged later. -/
def step (colons : Bool) : List Char → Step
  | [] => .done false
  | c :: more =>
    if more.isEmpty && c.toNat < 128 then .done true
    else if colons && c == ':' then .next more
    else if c == '.' || c == ',' then .fraction more
    else if colons then .wrong
    else .next (c :: more)

/-- Ends a time of day with a fraction. -/
def withFraction? (clock : Clock) (rest : List Char) : Option (Clock × Bool) :=
  (fraction? rest).map fun (micro, left) => ({ clock with micro }, left)

/-- Reads a time of day, and whether something is left after it. -/
def clock? (cs : List Char) : Option (Clock × Bool) := do
  let (hour, rest) ← digits? 2 cs
  let colons := rest.head? == some ':'
  match step colons rest with
  | .done left => some (⟨hour, 0, 0, 0⟩, left)
  | .wrong => none
  | .fraction rest => withFraction? ⟨hour, 0, 0, 0⟩ rest
  | .next rest =>
    let (minute, rest) ← digits? 2 rest
    match step colons rest with
    | .done left => some (⟨hour, minute, 0, 0⟩, left)
    | .wrong => none
    | .fraction rest => withFraction? ⟨hour, minute, 0, 0⟩ rest
    | .next rest =>
      let (second, rest) ← digits? 2 rest
      match step colons rest with
      | .done left => some (⟨hour, minute, second, 0⟩, left)
      | .wrong => none
      | .fraction rest => withFraction? ⟨hour, minute, second, 0⟩ rest
      | .next rest => withFraction? ⟨hour, minute, second, 0⟩ rest

def isOffsetMark (c : Char) : Bool := c == '+' || c == '-' || c == 'Z'

/-- A time of day with the offset after it, in microseconds. An offset below a second is none. -/
def time? (cs : List Char) : Option (Clock × Option Int) := do
  let own := cs.takeWhile fun c => !isOffsetMark c
  let (clock, left) ← clock? own
  match cs.drop own.length with
  | [] => if left then none else some (clock, none)
  | 'Z' :: rest => if rest.isEmpty then some (clock, some 0) else none
  | sign :: rest =>
    let (away, left) ← clock? rest
    if left then none
    let seconds := away.hour * 3600 + away.minute * 60 + away.second
    let n : Int := if seconds = 0 then 0 else (seconds * Moment.second + away.micro : Nat)
    some (clock, some (if sign = '-' then -n else n))

/-- Checks that a date and a time of day exist and puts them together. -/
def moment (year month day : Nat) (clock : Clock) (offset : Option Int) : Except Fault Moment :=
  let away := offset.getD 0
  if away.natAbs ≥ Moment.day then .error (.offset away)
  else if year < 1 ∨ year > 9999 then .error (.year year)
  else if month < 1 ∨ month > 12 then .error .month
  else if day < 1 ∨ day > Calendar.monthLength year month then .error .day
  else if clock.hour > 23 then .error .hour
  else if clock.minute > 59 then .error .minute
  else if clock.second > 59 then .error .second
  else
    let seconds := clock.hour * 3600 + clock.minute * 60 + clock.second
    let days := Calendar.dayNumber year month day
    .ok ⟨(days * Moment.day + seconds * Moment.second + clock.micro : Nat), offset⟩

def parts? (cs : List Char) : Option ((Nat × Nat × Nat) × Clock × Option Int) := do
  if cs.length < 7 then none
  let length ← dateLength? cs
  let date ← date? length cs
  match cs.drop length with
  | [] => some (date, ⟨0, 0, 0, 0⟩, none)
  | _ :: rest => some (date, ← time? rest)

/-- The moment that a text writes. -/
def read (text : String) : Except Fault Moment :=
  match parts? text.toList with
  | none => .error (.form text)
  | some ((year, month, day), clock, offset) => moment year month day clock offset

end ClassAtlas.Iso
