import ClassAtlas.Json.Printer
import ClassAtlas.Json.Reader
import Mathlib.Algebra.Ring.Nat
import Mathlib.Data.List.Basic
/-!
# Whole numbers in JSON

A whole number that is not too long is read back from its decimal digits, as long as nothing stands
behind it that a number could go on with.
-/
namespace ClassAtlas.Json

variable {n : Nat} {rest : List Char}

theorem digitsValue_eq_ofDigitChars (cs : List Char) : digitsValue cs = Nat.ofDigitChars 10 cs 0 := by
  simp only [digitsValue, Nat.ofDigitChars_eq_foldl, Nat.mul_comm]
  rfl

theorem isDigit_eq_isDigit (c : Char) : isDigit c = c.isDigit := by
  simp [isDigit, Char.isDigit, Char.le_def]

theorem isDigit_of_mem_toDigits {c : Char} (hc : c ∈ Nat.toDigits 10 n) : isDigit c = true := by
  rw [isDigit_eq_isDigit]
  exact Nat.isDigit_of_mem_toDigits (by decide) (by decide) hc

/-- Only zero is written with a zero in front. -/
theorem head?_toDigits_ne_zero (hn : n ≠ 0) : (Nat.toDigits 10 n).head? ≠ some '0' := by
  induction n using Nat.strongRecOn with
  | ind n ih =>
    rcases Nat.lt_or_ge n 10 with hlt | hge
    · have hsmall : ∀ k < 10, k ≠ 0 → Nat.digitChar k ≠ '0' := by decide
      rw [Nat.toDigits_of_lt_base hlt]
      simpa using hsmall n hlt hn
    · have hquotient := ih (n / 10) (by omega) (by omega)
      rw [Nat.toDigits_of_base_le (by decide) hge, List.head?_append]
      cases hhead : (Nat.toDigits 10 (n / 10)).head? with
      | none => exact absurd (List.head?_eq_none_iff.mp hhead) Nat.toDigits_ne_nil
      | some c =>
        rw [hhead] at hquotient
        simpa using hquotient

theorem digitsValue_toDigits (n : Nat) : digitsValue (Nat.toDigits 10 n) = n := by
  rw [digitsValue_eq_ofDigitChars, Nat.ofDigitChars_ten_toDigits]

/-- Nothing, or something that begins with one of the signs that stand behind a value. -/
def Ends (rest : List Char) : Prop := ∀ c ∈ rest.head?, c = ',' ∨ c = '\n' ∨ c = ']' ∨ c = '}'

/-- Behind a value there is nothing that a number could go on with. -/
theorem Ends.stops (h : Ends rest) : (rest.takeWhile isDigit = [] ∧ rest.dropWhile isDigit = rest) ∧
    fractionPart rest = ([], rest) ∧ exponentPart rest = (none, rest) := by
  cases rest with
  | nil => exact ⟨⟨rfl, rfl⟩, rfl, rfl⟩
  | cons c cs =>
    rcases h c rfl with rfl | rfl | rfl | rfl <;> exact ⟨⟨rfl, rfl⟩, rfl, rfl⟩

theorem wholePart_append {c : Char} {ds : List Char} (hdigits : Nat.toDigits 10 n = c :: ds) (hrest : Ends rest) :
    (if c = '0' then ['0'] else (c :: (ds ++ rest)).takeWhile isDigit) = c :: ds ∧
      (if c = '0' then ds ++ rest else (c :: (ds ++ rest)).dropWhile isDigit) = rest := by
  have hall : ∀ x ∈ c :: ds, isDigit x = true := fun x hx => isDigit_of_mem_toDigits (hdigits ▸ hx)
  obtain ⟨htake, hdrop⟩ := hrest.stops.1
  by_cases hzero : c = '0'
  · have hn : n = 0 := by
      by_contra hne
      exact head?_toDigits_ne_zero hne (by rw [hdigits, hzero, List.head?_cons])
    obtain rfl : ds = [] := by
      rw [hn, Nat.toDigits_zero] at hdigits
      exact (List.cons.inj hdigits).2.symm
    simp [hzero]
  · rw [if_neg hzero, if_neg hzero, ← List.cons_append, List.takeWhile_append_of_pos hall,
      List.dropWhile_append_of_pos hall, htake, hdrop, List.append_nil]
    exact ⟨rfl, rfl⟩

/-- A number is read up to the end of its digits. -/
theorem readNumber_digits {c : Char} {ds : List Char} (hdigits : Nat.toDigits 10 n = c :: ds)
    (hlen : (c :: ds).length ≤ maxDigits) (hrest : Ends rest) :
    readNumber ('-' :: (c :: ds ++ rest)) = .ok (int (-n), rest) ∧
      readNumber (c :: ds ++ rest) = .ok (int n, rest) := by
  obtain ⟨_, hfraction, hexponent⟩ := hrest.stops
  obtain ⟨hwhole, hafter⟩ := wholePart_append hdigits hrest
  have hdigit : isDigit c = true := isDigit_of_mem_toDigits (by rw [hdigits]; exact List.mem_cons_self)
  have hminus : c ≠ '-' := by
    rintro rfl
    cases hdigit
  have hvalue : digitsValue (c :: ds) = n := by rw [← hdigits, digitsValue_toDigits]
  have hshort : ¬ maxDigits < (c :: ds).length := Nat.not_lt.mpr hlen
  constructor
  · simp only [readNumber, List.cons_append, hdigit, Bool.not_true, Bool.false_eq_true, if_false,
      hwhole, hafter, hfraction, hexponent, List.isEmpty_nil, Option.isNone_none, Bool.and_self, if_true,
      hshort, hvalue]
  · rw [List.cons_append]
    unfold readNumber
    split
    next negative body hsign =>
    obtain ⟨rfl, rfl⟩ : false = negative ∧ c :: (ds ++ rest) = body := by
      split at hsign
      next heq => exact absurd (List.cons.inj heq).1 hminus
      next => exact Prod.mk.inj hsign
    simp only [hdigit, Bool.not_true, Bool.false_eq_true, if_false, hwhole, hafter, hfraction, hexponent,
      List.isEmpty_nil, Option.isNone_none, Bool.and_self, if_true, hshort, hvalue]

theorem maxDigits_eq : Numeral.maxDigits = maxDigits := rfl

/-- The reader takes as many digits as are written. -/
theorem isLong_eq_false_iff {k : Int} : isLong k = false ↔ k.natAbs < 10 ^ maxDigits := by
  rw [isLong, Bool.not_eq_false', decide_eq_true_iff, Nat.pow_eq, maxDigits_eq]

theorem readNumber_renderInt {k : Int} (hk : isLong k = false) (hrest : Ends rest) :
    readNumber (renderInt k ++ rest) = .ok (int k, rest) := by
  have hlen : (Nat.toDigits 10 k.natAbs).length ≤ maxDigits :=
    (Nat.length_toDigits_le_iff (by decide) (by decide)).mpr (isLong_eq_false_iff.mp hk)
  obtain ⟨c, ds, hdigits⟩ := List.exists_cons_of_ne_nil (@Nat.toDigits_ne_nil k.natAbs 10)
  rw [hdigits] at hlen
  obtain ⟨hnegative, hpositive⟩ := readNumber_digits hdigits hlen hrest
  unfold renderInt
  simp only [hdigits]
  split
  case isTrue hneg =>
    rw [List.cons_append, hnegative, show (-(k.natAbs : Int)) = k by omega]
  case isFalse hnonneg =>
    rw [hpositive, show ((k.natAbs : Int)) = k by omega]

end ClassAtlas.Json
