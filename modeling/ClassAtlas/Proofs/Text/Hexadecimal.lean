import ClassAtlas.Text.Quoted
import Mathlib.Algebra.Ring.Nat
import Mathlib.Data.List.Basic
/-!
# Hexadecimal digits of a fixed width

So many digits tell so many numbers apart.
-/
namespace ClassAtlas.Text

theorem hexDigit_injOn {m n : Nat} (hm : m < 16) (hn : n < 16) (h : hexDigit m = hexDigit n) :
    m = n := by
  have hval : ∀ k < 16, (hexDigit k).toNat = if k < 10 then 48 + k else 87 + k := by decide
  have h' := congrArg Char.toNat h
  rw [hval m hm, hval n hn] at h'
  split at h' <;> split at h' <;> omega

@[simp] theorem length_hexDigits (width n : Nat) : (hexDigits width n).length = width := by
  induction width generalizing n with
  | zero => rfl
  | succ width ih => simp [hexDigits, ih]

/-- So many digits tell so many numbers apart. -/
theorem mod_eq_of_hexDigits_eq {width m n : Nat} (h : hexDigits width m = hexDigits width n) :
    m % 16 ^ width = n % 16 ^ width := by
  induction width generalizing m n with
  | zero => simp [Nat.mod_one]
  | succ width ih =>
    simp only [hexDigits] at h
    obtain ⟨hinit, hlast⟩ := List.append_inj' h rfl
    have hdigit : m % 16 = n % 16 :=
      hexDigit_injOn (Nat.mod_lt _ (by decide)) (Nat.mod_lt _ (by decide)) (List.singleton_inj.mp hlast)
    have hrest := ih hinit
    rw [Nat.pow_succ', Nat.mod_mul, Nat.mod_mul, hdigit, hrest]

end ClassAtlas.Text
