/-!
# The calendar

Days are counted from the first day of year 1, and the Gregorian rule of leap years holds for all
years.
-/
namespace ClassAtlas.Calendar

def isLeap (year : Nat) : Bool := year % 4 == 0 && (year % 100 != 0 || year % 400 == 0)

/-- Days before the first of January of a year. -/
def daysBeforeYear (year : Nat) : Nat :=
  let y := year - 1
  365 * y + y / 4 - y / 100 + y / 400

def monthLengths (leap : Bool) : List Nat :=
  [31, if leap then 29 else 28, 31, 30, 31, 30, 31, 31, 30, 31, 30, 31]

def monthLength (year month : Nat) : Nat := (monthLengths (isLeap year)).getD (month - 1) 0

def daysBeforeMonth (year month : Nat) : Nat :=
  ((monthLengths (isLeap year)).take (month - 1)).foldr (· + ·) 0

def dayNumber (year month day : Nat) : Nat :=
  daysBeforeYear year + daysBeforeMonth year month + (day - 1)

/-- The year of a day. -/
def yearOf (n : Nat) : Nat :=
  let guess := n * 400 / 146097 + 1
  if daysBeforeYear (guess + 1) ≤ n then guess + 1
  else if daysBeforeYear guess > n then guess - 1
  else guess

/-- The month and the day of the month, both from 1, of the day `n` of a year. -/
def monthAndDay (month n : Nat) : List Nat → Nat × Nat
  | [] => (month, n + 1)
  | k :: ks => if n < k then (month, n + 1) else monthAndDay (month + 1) (n - k) ks

/-- Year, month and day of a day. -/
def date (n : Nat) : Nat × Nat × Nat :=
  let year := yearOf n
  (year, monthAndDay 1 (n - daysBeforeYear year) (monthLengths (isLeap year)))

/-- The day of the week, Monday being 0. -/
def weekday (n : Nat) : Nat := n % 7

/-- The days of years 1 to 9999. -/
def limit : Nat := daysBeforeYear 10000

/-- The Monday on which the first week of a year begins, the week of its first Thursday. -/
def firstWeek (year : Nat) : Int :=
  let first := daysBeforeYear year
  let monday : Int := (first : Int) - (weekday first : Int)
  if weekday first > 3 then monday + 7 else monday

/-- A year has 53 weeks when it begins on a Thursday, or on a Wednesday and is a leap year. -/
def hasLongYear (year : Nat) : Bool :=
  let first := weekday (daysBeforeYear year)
  first == 3 || (first == 2 && isLeap year)

end ClassAtlas.Calendar
