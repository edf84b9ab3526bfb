import ClassAtlas.Number.Numeral
import Mathlib.Tactic.Ring
/-!
# Whole numbers as floating point numbers

A whole number above zero has a number above zero next to it. From half a step above the largest finite number on it is
the infinite one, so that there is none to stand for it. A whole number of at most 53 bits is a floating point number.
-/
namespace ClassAtlas.Binary64

variable {n num den top k : Nat}

/-- Rounding a quotient goes up to an even bound from half a unit below it. -/
theorem roundDiv_eq_top_iff (hden : 0 < den) (heven : top % 2 = 0) (hlt : num < top * den) :
    roundDiv num den = top ↔ (2 * top - 1) * den ≤ 2 * num := by
  have hdiv : den * (num / den) + num % den = num := Nat.div_add_mod num den
  have hmod : num % den < den := Nat.mod_lt num hden
  have hquot : num / den < top := (Nat.div_lt_iff_lt_mul hden).mpr hlt
  obtain ⟨below, rfl⟩ := Nat.exists_eq_add_one.mpr (Nat.zero_lt_of_lt hquot)
  have hbound : (2 * (below + 1) - 1) * den = 2 * (den * below) + den := by
    rw [show 2 * (below + 1) - 1 = 2 * below + 1 by omega]
    ring
  rw [hbound, roundDiv]
  by_cases hsame : num / den = below
  · rw [hsame] at hdiv ⊢
    have hodd : below % 2 = 1 := by omega
    split <;> omega
  · -- A smaller quotient stays below the bound, also when it is rounded up.
    have hsmall : den * (num / den) + den ≤ den * below := by
      rw [← Nat.mul_succ]
      exact Nat.mul_le_mul_left den (by omega)
    split <;> omega

/-- In units of the place of its last bit a whole number has 53 bits. -/
theorem scaled_log2 (hn : n ≠ 0) : ∃ num den, scaled n 1 ((n.log2 : Int) - 52) = (num, den) ∧ 0 < den ∧
    2 ^ 52 * den ≤ num ∧ num < 2 ^ 53 * den ∧ (52 ≤ n.log2 → num = n ∧ den = 2 ^ (n.log2 - 52)) := by
  have hlow : 2 ^ n.log2 ≤ n := Nat.log2_self_le hn
  have hhigh : n < 2 ^ (n.log2 + 1) := Nat.lt_log2_self
  generalize n.log2 = l at hlow hhigh ⊢
  rcases Nat.lt_or_ge l 52 with hl | hl
  · have hexp : ((l : Int) - 52).natAbs = 52 - l := by omega
    have hunit : 2 ^ l * 2 ^ (52 - l) = 2 ^ 52 := by
      rw [← Nat.pow_add]
      congr 1
      omega
    refine ⟨n * 2 ^ (52 - l), 1, ?_, Nat.one_pos, ?_, ?_, fun hge => absurd hge (Nat.not_le.mpr hl)⟩
    · rw [scaled, if_pos (by omega), hexp]
      rfl
    · rw [Nat.mul_one, ← hunit]
      exact Nat.mul_le_mul_right _ hlow
    · have hdouble : 2 ^ (l + 1) * 2 ^ (52 - l) = 2 ^ 53 := by rw [Nat.pow_succ 2 l, Nat.mul_right_comm, hunit, ← Nat.pow_succ]
      rw [Nat.mul_one, ← hdouble]
      exact Nat.mul_lt_mul_of_pos_right hhigh (Nat.two_pow_pos _)
  · obtain ⟨k, rfl⟩ : ∃ k, l = 52 + k := ⟨l - 52, by omega⟩
    have hexp : ((52 + k : Nat) : Int) - 52 = k := by omega
    refine ⟨n, 2 ^ k, ?_, Nat.two_pow_pos k, ?_, ?_, fun _ => ⟨rfl, by rw [Nat.add_sub_cancel_left]⟩⟩
    · rw [scaled, hexp, if_neg (by omega), Int.natAbs_natCast, Nat.one_mul]
      rfl
    · rwa [← Nat.pow_add]
    · rw [← Nat.pow_add]
      rwa [Nat.add_right_comm] at hhigh

/-- The least whole number that is too large: half a step above the largest finite number, or `2 ^ 1024 - 2 ^ 970`. -/
def tooLarge : Nat := (2 ^ 54 - 1) * 2 ^ 970

theorem tooLarge_pos : 0 < tooLarge := by
  have hunit : ∀ e, 0 < (2 ^ 54 - 1) * 2 ^ e := fun e => Nat.mul_pos (by decide) (Nat.two_pow_pos e)
  exact hunit 970

/-- The exponent of the number next to a whole number passes the greatest one where the whole number is too large. -/
theorem overflow_iff (hn : n ≠ 0) (hscaled : scaled n 1 ((n.log2 : Int) - 52) = (num, den)) :
    (if roundDiv num den = 2 ^ 53 then (n.log2 : Int) - 52 + 1 else (n.log2 : Int) - 52) > 971 ↔ tooLarge ≤ n := by
  obtain ⟨num', den', hscaled', hden, _, hhigh, hexact⟩ := scaled_log2 hn
  cases hscaled.symm.trans hscaled'
  have hround := roundDiv_eq_top_iff hden (by decide) hhigh
  rw [tooLarge]
  generalize hunit : (2 : Nat) ^ 970 = unit
  have hlast : n.log2 < 53 + 970 ↔ n < 2 ^ 53 * unit := by rw [← hunit, ← Nat.pow_add, Nat.log2_lt hn]
  have hbeyond : n.log2 < 54 + 970 ↔ n < 2 ^ 54 * unit := by rw [← hunit, ← Nat.pow_add, Nat.log2_lt hn]
  by_cases hl : n.log2 = 1023
  · -- Only here the carry decides.
    obtain ⟨rfl, hden⟩ := hexact (by omega)
    have hstep : den = unit * 2 := by rw [hden, hl, ← hunit, ← Nat.pow_succ]
    rw [hstep] at hround ⊢
    clear hunit
    split <;> omega
  · clear hunit
    split <;> omega

/-- A whole number above zero has a number above zero next to it, and it is infinite for one that is too large. -/
theorem ofInt_of_pos (hn : n ≠ 0) :
    (ofInt n).isPositive = true ∧ ((ofInt n).isInfinite = true ↔ tooLarge ≤ n) := by
  obtain ⟨num, den, hscaled, hden, hlow, _, _⟩ := scaled_log2 hn
  have hlog : Nat.log2 1 = 0 := by decide
  have hfull : 2 ^ 52 ≤ num / den := (Nat.le_div_iff_mul_le hden).mpr hlow
  have hquot : ¬ num / den < Nat.pow 2 52 := Nat.not_lt.mpr hfull
  have hmax : max ((n.log2 : Int) - 52) (-1074) = (n.log2 : Int) - 52 := by omega
  have hsign : decide ((n : Int) < 0) = false := by simp
  have hmantissa : roundDiv num den ≠ 0 := by
    have hround : num / den ≤ roundDiv num den := by
      rw [roundDiv]
      split <;> omega
    omega
  have hover := overflow_iff hn hscaled
  rw [ofInt, ofRatio, hsign, Int.natAbs_natCast, if_neg (by simp [hn])]
  simp only [hlog, Int.sub_zero, Nat.cast_zero, hscaled, if_neg hquot, hmax]
  rw [← hover]
  split <;> split <;> simp_all [isPositive, isInfinite]

/-! ## Whole numbers of few bits -/

theorem roundDiv_mul (q : Nat) (hden : 0 < den) : roundDiv (q * den) den = q := by
  rw [roundDiv, Nat.mul_div_cancel _ hden, Nat.mul_mod_left, if_neg (by omega)]

theorem scaled_neg (num den k : Nat) : scaled num den (-(k : Int)) = (num * 2 ^ k, den) := by
  cases k with
  | zero => simp [scaled]
  | succ k =>
    rw [scaled, if_pos (by omega), Int.natAbs_neg, Int.natAbs_natCast]
    rfl

/-- The binary logarithm of a product is the sum of those of its factors, or one more. -/
theorem log2_mul (hn : n ≠ 0) (hden : den ≠ 0) :
    (n * den).log2 = n.log2 + den.log2 ∨ (n * den).log2 = n.log2 + den.log2 + 1 := by
  have hlow : 2 ^ (n.log2 + den.log2) ≤ n * den := by
    rw [Nat.pow_add]
    exact Nat.mul_le_mul (Nat.log2_self_le hn) (Nat.log2_self_le hden)
  have hhigh : n * den < 2 ^ (n.log2 + den.log2 + 2) := by
    rw [show n.log2 + den.log2 + 2 = (n.log2 + 1) + (den.log2 + 1) by omega, Nat.pow_add]
    exact Nat.mul_lt_mul'' Nat.lt_log2_self Nat.lt_log2_self
  have hne : n * den ≠ 0 := Nat.mul_ne_zero hn hden
  have hle := (Nat.le_log2 hne).mpr hlow
  have hlt := (Nat.log2_lt hne).mpr hhigh
  omega

/-- In units twice as great a whole number has a bit less. -/
theorem scaled_double (hhigh : n * 2 ^ k < 2 ^ 53) (hden : 0 < den) :
    (scaled (n * den) den (1 - (k : Int))).1 / (scaled (n * den) den (1 - (k : Int))).2 < Nat.pow 2 52 := by
  cases k with
  | zero =>
    have hunit : scaled (n * den) den (1 - ((0 : Nat) : Int)) = (n * den, den * 2) := rfl
    rw [hunit, Nat.mul_comm den 2]
    dsimp only
    rw [Nat.mul_div_mul_right _ _ hden]
    change n / 2 < 2 ^ 52
    omega
  | succ k =>
    have hunit : (1 : Int) - ((k + 1 : Nat) : Int) = -(k : Int) := by omega
    rw [hunit, scaled_neg]
    dsimp only
    rw [Nat.mul_right_comm, Nat.mul_div_cancel _ hden]
    rw [Nat.pow_succ, ← Nat.mul_assoc] at hhigh
    change n * 2 ^ k < 2 ^ 52
    omega

/-- A whole number of at most 53 bits is a floating point number, whatever fraction it is given by. -/
theorem ofRatio_mul (hn : n ≠ 0) (hlt : n < 2 ^ 53) (hden : 0 < den) (negative : Bool) :
    ∃ k : Nat, ofRatio negative (n * den) den = finite negative (n * 2 ^ k) (-(k : Int)) := by
  have hlog : n.log2 < 53 := (Nat.log2_lt hn).mpr hlt
  obtain ⟨k, hk⟩ : ∃ k, n.log2 + k = 52 := ⟨52 - n.log2, by omega⟩
  have hlow : 2 ^ 52 ≤ n * 2 ^ k := by
    rw [← hk, Nat.pow_add]
    exact Nat.mul_le_mul_right _ (Nat.log2_self_le hn)
  have hhigh : n * 2 ^ k < 2 ^ 53 := by
    rw [show 53 = n.log2 + 1 + k by omega, Nat.pow_add]
    exact Nat.mul_lt_mul_of_pos_right Nat.lt_log2_self (Nat.two_pow_pos k)
  have hexact : scaled (n * den) den (-(k : Int)) = (n * 2 ^ k * den, den) := by rw [scaled_neg, Nat.mul_right_comm]
  have hmax : max (-(k : Int)) (-1074) = -(k : Int) := by omega
  have hexponent : ¬ -(k : Int) > 971 := by omega
  have hmantissa : ¬ n * 2 ^ k = Nat.pow 2 53 := hhigh.ne
  have hguess : ((n * den).log2 : Int) - den.log2 - 52 = -(k : Int) ∨
      ((n * den).log2 : Int) - den.log2 - 52 = 1 - (k : Int) := by
    have := log2_mul hn hden.ne'
    omega
  refine ⟨k, ?_⟩
  rw [ofRatio, if_neg (by simp [hn, hden.ne'])]
  dsimp only
  -- The first guess at the exponent is right, or one too great.
  rcases hguess with hguess | hguess
  · have hfull : ¬ n * 2 ^ k * den / den < Nat.pow 2 52 := by
      rw [Nat.mul_div_cancel _ hden]
      exact Nat.not_lt.mpr hlow
    simp only [hguess, hexact, if_neg hfull, hmax, roundDiv_mul _ hden, if_neg hmantissa, if_neg hexponent]
  · have hback : (1 : Int) - k - 1 = -(k : Int) := by omega
    simp only [hguess, if_pos (scaled_double hhigh hden), hback, hmax, hexact, roundDiv_mul _ hden, if_neg hmantissa,
      if_neg hexponent]

/-- The whole number of a sign and a magnitude. -/
def signed (negative : Bool) (n : Nat) : Int := if negative then -n else n

/-- A whole number of at most 53 bits is divided as such. -/
theorem floorDiv_ofRatio_mul (hlt : n < 2 ^ 53) (hden : 0 < den) (negative : Bool) (divisor : Nat) :
    (ofRatio negative (n * den) den).floorDiv divisor = (signed negative n).fdiv divisor := by
  by_cases hn : n = 0
  · subst hn
    have hzero : ∀ e, signedAt negative 0 e 0 = 0 := by
      intro e
      simp [signedAt]
    rw [ofRatio, if_pos (by simp), floorDiv, signed]
    simp only [hzero, Int.zero_fdiv, Nat.cast_zero, neg_zero, ite_self]
  · obtain ⟨k, hratio⟩ := ofRatio_mul hn hlt hden negative
    have hmin : (min (-(k : Int)) 0).natAbs = k := by omega
    have hmax : max (-(k : Int)) 0 = 0 := by omega
    have hsigned : signedAt negative (n * 2 ^ k) 0 0 = signed negative n * (2 ^ k : Nat) := by
      cases negative <;> simp [signedAt, signed]
    have hunit : (0 : Int) < (2 ^ k : Nat) := Int.natCast_pos.mpr (Nat.two_pow_pos k)
    rw [hratio, floorDiv, hmin, hmax, hsigned, Int.natCast_mul]
    exact Int.mul_fdiv_mul_of_pos_left _ _ hunit

end ClassAtlas.Binary64

namespace ClassAtlas.Numeral

/-- No floating point number stands for a whole number that is too large; any other above zero has one above zero. -/
theorem realOfWhole?_of_pos {n : Int} (hn : 0 < n) :
    (realOfWhole? n = none ↔ Binary64.tooLarge ≤ n) ∧ ∀ x, realOfWhole? n = some x → x.isPositive = true := by
  obtain ⟨m, rfl⟩ := Int.eq_ofNat_of_zero_le hn.le
  obtain ⟨hpositive, hinfinite⟩ := Binary64.ofInt_of_pos (n := m) (by omega)
  rw [Int.ofNat_le, ← hinfinite, realOfWhole?]
  constructor
  · split <;> simp_all
  · intro x hx
    split at hx
    · cases hx
    · cases hx
      exact hpositive

end ClassAtlas.Numeral
