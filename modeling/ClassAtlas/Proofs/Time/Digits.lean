import ClassAtlas.Proofs.Json.Numeral
import ClassAtlas.Time.Iso
import Mathlib.Data.Char
import Mathlib.Data.List.Lex
import Mathlib.Tactic.Tauto
/-!
# Numbers of a fixed width

A number that is written with zeros in front up to a width is read back from that many characters. Written so, numbers
are ordered as their texts are.
-/
namespace ClassAtlas

variable {width n : ℕ} {rest : List Char}

theorem Iso.isDigit_eq_isDigit (c : Char) : isDigit c = c.isDigit := by
  simp [isDigit, Char.isDigit, Char.le_def]

namespace Moment

theorem length_padded (hpos : 0 < width) (h : n < 10 ^ width) : (padded width n).length = width := by
  have hlen := (Nat.length_toDigits_le_iff (by decide : 1 < 10) hpos).mpr h
  simp only [padded, List.length_append, List.length_replicate]
  omega

theorem isDigit_of_mem_padded {c : Char} (h : c ∈ padded width n) : Iso.isDigit c = true := by
  rcases List.mem_append.mp h with hzero | hdigit
  · rw [List.eq_of_mem_replicate hzero]
    rfl
  · rw [Iso.isDigit_eq_isDigit]
    exact Nat.isDigit_of_mem_toDigits (by decide) (by decide) hdigit

theorem digitsValue_padded (width n : ℕ) : Json.digitsValue (padded width n) = n := by
  simp [Json.digitsValue_eq_ofDigitChars, padded, Nat.ofDigitChars_append]

/-- Two digits stand for a number below a hundred. -/
theorem exists_padded_two (h : n < 100) : ∃ c d, padded 2 n = [c, d] ∧ Iso.isDigit c ∧ Iso.isDigit d := by
  obtain ⟨c, d, heq⟩ := List.length_eq_two.mp (length_padded (by decide : 0 < 2) h)
  have hdigit : ∀ x ∈ padded 2 n, Iso.isDigit x = true := fun x hx => isDigit_of_mem_padded hx
  rw [heq] at hdigit
  exact ⟨c, d, heq, hdigit c (by simp), hdigit d (by simp)⟩

end Moment

theorem Iso.digits?_padded (hpos : 0 < width) (h : n < 10 ^ width) :
    digits? width (Moment.padded width n ++ rest) = some (n, rest) := by
  have hlen := Moment.length_padded hpos h
  have hall : (Moment.padded width n).all isDigit = true :=
    List.all_eq_true.mpr fun c hc => Moment.isDigit_of_mem_padded hc
  simp [digits?, List.take_left' hlen, List.drop_left' hlen, hlen, hall, Moment.digitsValue_padded]

/-! ## The order of numbers and texts -/

namespace Text

variable {as bs as' bs' : List Char}

/-- Of texts that begin with as many characters, these beginnings decide unless they are the same. -/
theorem append_lt_append_iff (hlen : as.length = bs.length) :
    as ++ as' < bs ++ bs' ↔ as < bs ∨ as = bs ∧ as' < bs' := by
  induction as generalizing bs with
  | nil =>
    obtain rfl := List.length_eq_zero_iff.mp hlen.symm
    simp
  | cons c as ih =>
    cases bs with
    | nil => cases hlen
    | cons d bs =>
      have hrest := @ih bs (Nat.succ.inj hlen)
      simp only [List.cons_append, List.cons_lt_cons_iff, List.cons.injEq, hrest]
      tauto

end Text

namespace Iso

variable {as bs : List Char}

theorem digitsValue_cons (c : Char) (cs : List Char) :
    Json.digitsValue (c :: cs) = 10 ^ cs.length * (c.toNat - 48) + Json.digitsValue cs := by
  simp only [Json.digitsValue_eq_ofDigitChars]
  rw [Nat.ofDigitChars_cons, Nat.ofDigitChars_eq_ofDigitChars_zero, Nat.mul_zero, Nat.zero_add]
  rfl

theorem digit_bounds {c : Char} (h : isDigit c = true) : 48 ≤ c.toNat ∧ c.toNat ≤ 57 := by
  simp only [isDigit, Bool.and_eq_true, decide_eq_true_eq, Char.le_def, UInt32.le_iff_toNat_le] at h
  exact h

theorem digitsValue_lt_pow (has : ∀ c ∈ as, isDigit c = true) : Json.digitsValue as < 10 ^ as.length := by
  induction as with
  | nil => decide
  | cons c as ih =>
    obtain ⟨hc, has⟩ := List.forall_mem_cons.mp has
    have hvalue := digit_bounds hc
    have hrest := ih has
    have hfirst : 10 ^ as.length * (c.toNat - 48) ≤ 10 ^ as.length * 9 := Nat.mul_le_mul_left _ (by omega)
    rw [digitsValue_cons, List.length_cons, Nat.pow_succ]
    omega

/-- Digits of the same number are ordered as the numbers that they write. -/
theorem digitsValue_lt_digitsValue (hlen : as.length = bs.length) (has : ∀ c ∈ as, isDigit c = true)
    (hbs : ∀ c ∈ bs, isDigit c = true) (hlt : as < bs) : Json.digitsValue as < Json.digitsValue bs := by
  induction as generalizing bs with
  | nil =>
    obtain rfl := List.length_eq_zero_iff.mp hlen.symm
    simp at hlt
  | cons c as ih =>
    cases bs with
    | nil => cases hlen
    | cons d bs =>
      have hlength : as.length = bs.length := Nat.succ.inj hlen
      obtain ⟨hc, has⟩ := List.forall_mem_cons.mp has
      have hrest := (List.forall_mem_cons.mp hbs).2
      rw [digitsValue_cons, digitsValue_cons, hlength]
      rcases List.cons_lt_cons_iff.mp hlt with hfirst | ⟨rfl, hlater⟩
      · have hstep : c.toNat - 48 + 1 ≤ d.toNat - 48 := by
          have hless : c.toNat < d.toNat := hfirst
          have hc := digit_bounds hc
          omega
        have hmore := Nat.mul_le_mul_left (10 ^ bs.length) hstep
        have hsmall := digitsValue_lt_pow has
        rw [hlength] at hsmall
        rw [Nat.mul_succ] at hmore
        omega
      · have hless := ih hlength has hrest hlater
        omega

end Iso

namespace Moment

variable {m : ℕ}

theorem padded_inj (h : padded width m = padded width n) : m = n := by
  rw [← digitsValue_padded width m, h, digitsValue_padded]

theorem padded_lt_padded (hpos : 0 < width) (hm : m < 10 ^ width) (hn : n < 10 ^ width) (hlt : m < n) :
    padded width m < padded width n := by
  have hlen : (padded width n).length = (padded width m).length := by
    rw [length_padded hpos hm, length_padded hpos hn]
  rcases lt_trichotomy (padded width m) (padded width n) with hless | hsame | hmore
  · exact hless
  · exact absurd (padded_inj hsame) (Nat.ne_of_lt hlt)
  · have hvalue := Iso.digitsValue_lt_digitsValue hlen (fun c hc => isDigit_of_mem_padded hc)
      (fun c hc => isDigit_of_mem_padded hc) hmore
    rw [digitsValue_padded, digitsValue_padded] at hvalue
    omega

/-- A field that is smaller makes the text smaller. If it is the same, what follows the mark behind it decides. -/
theorem field_lt_field {as bs : List Char} (hpos : 0 < width) (hm : m < 10 ^ width) (hn : n < 10 ^ width) (mark : Char)
    (h : m < n ∨ m = n ∧ as < bs) : padded width m ++ mark :: as < padded width n ++ mark :: bs := by
  rw [Text.append_lt_append_iff (by rw [length_padded hpos hm, length_padded hpos hn])]
  rcases h with hless | ⟨rfl, hrest⟩
  · exact .inl (padded_lt_padded hpos hm hn hless)
  · exact .inr ⟨rfl, List.cons_lt_cons_iff.mpr (.inr ⟨rfl, hrest⟩)⟩

end Moment

end ClassAtlas
