/-!
# Binary floating point numbers of 64 bits

A finite number is a sign, a mantissa below `2 ^ 53` and an exponent of two. The mantissa is at
least `2 ^ 52` but for the smallest exponent, so each number has one form. Rounding goes to the
nearest number, and to the even mantissa from half-way.
-/
namespace ClassAtlas

inductive Binary64 where
  | nan
  | infinite (negative : Bool)
  | finite (negative : Bool) (mantissa : Nat) (exponent : Int)
deriving DecidableEq, Repr, Inhabited

namespace Binary64

def zero : Binary64 := finite false 0 (-1074)

/-- The quotient rounded to the nearest integer, to the even one from half-way. -/
def roundDiv (num den : Nat) : Nat :=
  let q := num / den
  let r := num % den
  if 2 * r > den ∨ (2 * r = den ∧ q % 2 = 1) then q + 1 else q

/-- `num / den` in units of `2 ^ e`, as a fraction. -/
def scaled (num den : Nat) (e : Int) : Nat × Nat :=
  if e < 0 then (num * Nat.pow 2 e.natAbs, den) else (num, den * Nat.pow 2 e.natAbs)

/-- The nearest number to `num / den`. -/
def ofRatio (negative : Bool) (num den : Nat) : Binary64 :=
  if num = 0 ∨ den = 0 then finite negative 0 (-1074)
  else
    let guess : Int := (num.log2 : Int) - (den.log2 : Int) - 52
    let (n, d) := scaled num den guess
    let e := max (if n / d < Nat.pow 2 52 then guess - 1 else guess) (-1074)
    let (n, d) := scaled num den e
    let m := roundDiv n d
    let (m, e) := if m = Nat.pow 2 53 then (Nat.pow 2 52, e + 1) else (m, e)
    if e > 971 then infinite negative else finite negative m e

/-- The number of decimal digits of `n`. -/
def decimalLength (n : Nat) : Nat := (Nat.toDigits 10 n).length

/-- The nearest number to `digits * 10 ^ exponent`. -/
def ofDecimal (negative : Bool) (digits : Nat) (exponent : Int) : Binary64 :=
  if digits = 0 then ofRatio negative 0 1
  else
    let magnitude := (decimalLength digits : Int) + exponent
    if magnitude > 310 then infinite negative
    else if magnitude < -330 then ofRatio negative 0 1
    else if exponent < 0 then ofRatio negative digits (Nat.pow 10 exponent.natAbs)
    else ofRatio negative (digits * Nat.pow 10 exponent.natAbs) 1

def ofInt (n : Int) : Binary64 := ofRatio (n < 0) n.natAbs 1

def isPositive : Binary64 → Bool
  | infinite negative => !negative
  | finite negative m _ => !negative && m != 0
  | nan => false

def isInfinite : Binary64 → Bool
  | infinite _ => true
  | _ => false

def neg : Binary64 → Binary64
  | nan => nan
  | infinite s => infinite !s
  | finite s m e => finite (!s) m e

/-- The signed mantissa in units of `2 ^ e`, for `e` at most the exponent. -/
def signedAt (negative : Bool) (m : Nat) (exponent e : Int) : Int :=
  let n : Int := (m * Nat.pow 2 (exponent - e).natAbs : Nat)
  if negative then -n else n

/-- `n * 2 ^ e` rounded. -/
def ofScaled (n : Int) (e : Int) : Binary64 :=
  if e < 0 then ofRatio (n < 0) n.natAbs (Nat.pow 2 e.natAbs)
  else ofRatio (n < 0) (n.natAbs * Nat.pow 2 e.natAbs) 1

def add : Binary64 → Binary64 → Binary64
  | nan, _ => nan
  | _, nan => nan
  | infinite s, infinite t => if s = t then infinite s else nan
  | infinite s, _ => infinite s
  | _, infinite t => infinite t
  | finite s m e, finite t n f =>
    if m = 0 ∧ n = 0 then finite (s && t) 0 (-1074)
    else
      let low := min e f
      ofScaled (signedAt s m e low + signedAt t n f low) low

def mul : Binary64 → Binary64 → Binary64
  | nan, _ => nan
  | _, nan => nan
  | infinite s, infinite t => infinite (s != t)
  | infinite s, finite t n _ => if n = 0 then nan else infinite (s != t)
  | finite s m _, infinite t => if m = 0 then nan else infinite (s != t)
  | finite s m e, finite t n f =>
    let sum := e + f
    if sum < 0 then ofRatio (s != t) (m * n) (Nat.pow 2 sum.natAbs)
    else ofRatio (s != t) (m * n * Nat.pow 2 sum.natAbs) 1

/-- The quotient by `n`, rounded down. Only finite numbers have one. -/
def floorDiv (n : Nat) : Binary64 → Int
  | finite s m e => (signedAt s m (max e 0) 0).fdiv (n * Nat.pow 2 (min e 0).natAbs : Nat)
  | _ => 0

end Binary64
end ClassAtlas
