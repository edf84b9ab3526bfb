import ClassAtlas.Number.Binary64
/-!
# The shortest decimal text of a number

A finite number is written with the fewest digits that read back as the same number, and of those
with the nearest. Numbers from `0.0001` up to below `10 ^ 16` are written out with a point; the
others with an exponent of at least two digits.
-/
namespace ClassAtlas.Binary64

/-- Of the two decimals of `unit` next to `num / den` the nearer, or else the other, if it reads
back as the number `x` without its sign. -/
def readingBack? (x : Binary64) (num den : Nat) (unit : Int) : Option Nat :=
  let ten := Nat.pow 10 unit.natAbs
  let (n, d) := if unit < 0 then (num * ten, den) else (num, den * ten)
  let near := roundDiv n d
  let far := if near = n / d then near + 1 else n / d
  if ofDecimal false near unit = x then some near
  else if ofDecimal false far unit = x then some far
  else none

/-- Tries grids of more and more digits; `top` is the place of the first digit. -/
def shortestFrom (x : Binary64) (num den : Nat) (top : Int) : Nat → Nat → Nat × Int
  | _, 0 => (0, 0)
  | n, fuel + 1 =>
    match readingBack? x num den (top - n) with
    | some digits => (digits, top - n)
    | none => shortestFrom x num den top (n + 1) fuel

/-- The place of the first digit of `num / den`: the least `k` with `num / den < 10 ^ k`. -/
def topPlace (num den : Nat) : Int :=
  let guess : Int := (decimalLength num : Int) - (decimalLength den : Int)
  let below (k : Int) : Bool :=
    let ten := Nat.pow 10 k.natAbs
    if k < 0 then num * ten < den else num < den * ten
  if below guess then guess else guess + 1

/-- Digits and exponent of ten of a positive number. -/
def shortest (m : Nat) (e : Int) : Nat × Int :=
  let (num, den) := if e < 0 then (m, Nat.pow 2 e.natAbs) else (m * Nat.pow 2 e.natAbs, 1)
  shortestFrom (finite false m e) num den (topPlace num den) 1 17

/-- Drops the zeros at the end of the digits. -/
def trimZeros (digits : List Char) : List Char :=
  (digits.reverse.dropWhile (· == '0')).reverse

/-- Writes `0.d₁d₂… * 10 ^ point`. -/
def layout (digits : List Char) (point : Int) : List Char :=
  if point ≤ -4 ∨ point > 16 then
    let shown := match digits with
      | [] => []
      | [d] => [d]
      | d :: ds => d :: '.' :: ds
    let e := (Nat.toDigits 10 (point - 1).natAbs)
    shown ++ ['e', if point - 1 < 0 then '-' else '+'] ++ (if e.length < 2 then '0' :: e else e)
  else if point ≤ 0 then '0' :: '.' :: (List.replicate point.natAbs '0' ++ digits)
  else
    let n := point.natAbs
    if digits.length ≤ n then digits ++ List.replicate (n - digits.length) '0' ++ ['.', '0']
    else digits.take n ++ '.' :: digits.drop n

def render : Binary64 → String
  | nan => "nan"
  | infinite negative => if negative then "-inf" else "inf"
  | finite negative m e =>
    let body :=
      if m = 0 then ['0', '.', '0']
      else
        let (n, ten) := shortest m e
        let all := Nat.toDigits 10 n
        layout (trimZeros all) ((all.length : Int) + ten)
    String.ofList (if negative then '-' :: body else body)

end ClassAtlas.Binary64
