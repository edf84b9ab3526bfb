import ClassAtlas.Time.Calendar
import ClassAtlas.Json.Reader
/-!
# Moments

A moment is a reading of calendar and clock, with its distance from universal time when that is
known. All are counted in microseconds; readings lie in years 1 to 9999.
-/
namespace ClassAtlas

structure Moment where
  /-- Microseconds since the beginning of year 1, as the clock on the wall shows it. -/
  wall : Int
  /-- Microseconds that the clock is ahead of universal time. -/
  offset : Option Int
deriving DecidableEq, Repr

namespace Moment

def second : Nat := 1000000
def day : Nat := 86400 * second

/-- The end of year 9999. -/
def limit : Int := (Calendar.limit * day : Nat)

/-- Universal time; a moment without an offset is taken to show it. -/
def instant (m : Moment) : Int := m.wall - m.offset.getD 0

def inRange (t : Int) : Bool := 0 ≤ t && t < limit

/-- `n` in decimal with zeros in front up to `width` digits. -/
def padded (width n : Nat) : List Char :=
  let digits := Nat.toDigits 10 n
  List.replicate (width - digits.length) '0' ++ digits

/-- A time of day to the millisecond, rounded down. -/
def clockText (micros : Nat) : List Char :=
  let ms := micros / 1000
  padded 2 (ms / 3600000) ++ ':' :: padded 2 (ms / 60000 % 60) ++ ':' ::
    padded 2 (ms / 1000 % 60) ++ '.' :: padded 3 (ms % 1000)

/-- The stamp of an instant since the beginning of year 1. -/
def stampText (t : Nat) : List Char :=
  let (y, m, d) := Calendar.date (t / day)
  padded 4 y ++ '-' :: padded 2 m ++ '-' :: padded 2 d ++ 'T' :: clockText (t % day) ++ ['Z']

/-- The stamp of a moment in universal time; none when that falls outside years 1 to 9999. -/
def stamp? (m : Moment) : Option String :=
  if inRange m.instant then some (String.ofList (stampText m.instant.toNat)) else none

end Moment
end ClassAtlas
