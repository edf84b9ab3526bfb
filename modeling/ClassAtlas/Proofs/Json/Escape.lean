import ClassAtlas.Json.Printer
import ClassAtlas.Json.Reader
import ClassAtlas.Proofs.Text.Hexadecimal
/-!
# Escapes in JSON

Every character is read back from its escape, one beyond the first plane from the two halves of its
pair, and so is every text from between its quotes.
-/
namespace ClassAtlas.Json

open Text (hexDigit hexDigits)

variable {n start fuel : Nat} {acc tail rest : List Char}

theorem hexValue?_hexDigit : ∀ {d : Nat}, d < 16 → hexValue? (hexDigit d) = some d := by decide

theorem hexNumber?_hexDigits {width : Nat} (h : n < 16 ^ width) :
    hexNumber? (hexDigits width n) = some n := by
  induction width generalizing n with
  | zero =>
    obtain rfl : n = 0 := by simpa using h
    rfl
  | succ width ih =>
    have hquotient : n / 16 < 16 ^ width := Nat.div_lt_of_lt_mul (by rwa [Nat.pow_succ'] at h)
    have hrest := ih hquotient
    have hdigit := hexValue?_hexDigit (Nat.mod_lt n (by decide : 0 < 16))
    simp only [hexDigits, hexNumber?, List.foldl_append, List.foldl_cons, List.foldl_nil] at hrest ⊢
    rw [hrest, hdigit]
    have hjoin : n / 16 * 16 + n % 16 = n := Nat.div_add_mod' n 16
    simp [hjoin]

theorem unit?_hexDigits (hn : n < 0x10000) (htail : tail ≠ []) :
    unit? (hexDigits 4 n ++ tail) = some (n, tail) := by
  have hlen : (hexDigits 4 n).length = 4 := Text.length_hexDigits 4 n
  have hpos : 0 < tail.length := List.length_pos_iff.mpr htail
  have hnumber : hexNumber? (hexDigits 4 n) = some n := hexNumber?_hexDigits (by omega)
  rw [unit?, if_neg (by simp [hlen]; omega), List.take_left' hlen, List.drop_left' hlen, hnumber]
  rfl

/-- An escape of a character that is no half of a pair stands for that character. -/
theorem unitEscape?_single (hn : n < 0x10000) (hwhole : n < 0xD800 ∨ 0xE000 ≤ n) (htail : tail ≠ []) :
    unitEscape? ('u' :: (hexDigits 4 n ++ tail)) = .ok (Char.ofNat n, tail) := by
  have hhigh : isHighUnit n = false := by simp [isHighUnit]; omega
  have hlow : isLowUnit n = false := by simp [isLowUnit]; omega
  have hchar : unitChar n = Char.ofNat n := by simp [unitChar, hhigh, hlow]
  simp only [unitEscape?, List.drop_one, List.tail_cons, unit?_hexDigits hn htail, hhigh, Bool.false_and,
    Bool.false_eq_true, if_false, hchar]
  split <;> rfl

/-- Two escapes that make a pair stand for a character beyond the first plane. -/
theorem unitEscape?_pair {high low : Nat} (hhigh : 0xD800 ≤ high ∧ high < 0xDC00)
    (hlow : 0xDC00 ≤ low ∧ low < 0xE000) (htail : tail ≠ []) :
    unitEscape? ('u' :: (hexDigits 4 high ++ unitEscape low ++ tail)) =
      .ok (Char.ofNat (0x10000 + (high - 0xD800) * 0x400 + (low - 0xDC00)), tail) := by
  have hfirst : unit? (hexDigits 4 high ++ (unitEscape low ++ tail)) = some (high, unitEscape low ++ tail) :=
    unit?_hexDigits (by omega) (by simp [unitEscape])
  have hsecond : unit? (hexDigits 4 low ++ tail) = some (low, tail) := unit?_hexDigits (by omega) htail
  have hlen : 4 < (hexDigits 4 low ++ tail).length := by
    have := List.length_pos_iff.mpr htail
    simp
    omega
  have hishigh : isHighUnit high = true := by simp [isHighUnit]; omega
  have hislow : isLowUnit low = true := by simp [isLowUnit]; omega
  simp only [unitEscape?, List.drop_one, List.tail_cons, List.append_assoc, hfirst]
  simp only [unitEscape, List.cons_append, hishigh, Bool.true_and, hsecond, hislow, hlen, decide_true, if_true]

theorem toNat_lt_or_of_char (c : Char) : c.toNat < 0xD800 ∨ 0xDFFF < c.toNat ∧ c.toNat < 0x110000 :=
  c.valid

theorem eq_ofNat_of_toNat {c : Char} (h : c.toNat = n) : c = Char.ofNat n := by
  rw [← h, Char.ofNat_toNat]

/-- A character of the first plane is the one that its escape stands for. -/
theorem unitEscape?_of_lt {c : Char} (h : c.toNat < 0x10000) (htail : tail ≠ []) :
    unitEscape? ('u' :: (hexDigits 4 c.toNat ++ tail)) = .ok (c, tail) := by
  have hrange := toNat_lt_or_of_char c
  rw [unitEscape?_single h (by omega) htail, Char.ofNat_toNat]

/-- A character beyond the first plane is the one that its two escapes stand for. -/
theorem unitEscape?_of_le {c : Char} (h : 0x10000 ≤ c.toNat) (htail : tail ≠ []) :
    unitEscape? ('u' :: (hexDigits 4 (0xD800 + (c.toNat - 0x10000) / 0x400) ++
      unitEscape (0xDC00 + (c.toNat - 0x10000) % 0x400) ++ tail)) = .ok (c, tail) := by
  have hrange := toNat_lt_or_of_char c
  have hchar : 0x10000 + (0xD800 + (c.toNat - 0x10000) / 0x400 - 0xD800) * 0x400 +
      (0xDC00 + (c.toNat - 0x10000) % 0x400 - 0xDC00) = c.toNat := by omega
  rw [unitEscape?_pair (by omega) (by omega) htail, hchar, Char.ofNat_toNat]

theorem readString_unit {c : Char} {after more : List Char} (h : unitEscape? ('u' :: more) = .ok (c, after)) :
    readString start (fuel + 1) acc ('\\' :: 'u' :: more) = readString start fuel (c :: acc) after := by
  conv_lhs => whnf
  rw [h]

theorem readString_plain {c : Char} (hplain : ¬(c = '"' ∨ c = '\\')) (hcontrol : ¬c.toNat < 32) (start fuel : Nat)
    (acc rest : List Char) :
    readString start (fuel + 1) acc (c :: rest) = readString start fuel (c :: acc) rest := by
  simp [readString, not_or.mp hplain, hcontrol]

/-- The escape of a character is read as that character. -/
theorem readString_escapeChar (c : Char) (htail : tail ≠ []) (start fuel : Nat) (acc : List Char) :
    readString start (fuel + 1) acc (escapeChar c ++ tail) = readString start fuel (c :: acc) tail := by
  unfold escapeChar
  simp only []
  split
  case isTrue h =>
    rcases h with rfl | rfl <;> rfl
  case isFalse hplain =>
  split
  case isTrue h => subst h; rfl
  split
  case isTrue h => subst h; rfl
  split
  case isTrue h => subst h; rfl
  split
  case isTrue h => rw [eq_ofNat_of_toNat h]; rfl
  split
  case isTrue h => rw [eq_ofNat_of_toNat h]; rfl
  split
  case isTrue h =>
    exact readString_plain hplain (by omega) start fuel acc tail
  split
  case isTrue h =>
    exact readString_unit (unitEscape?_of_lt h htail)
  case isFalse h =>
    exact readString_unit (unitEscape?_of_le (Nat.le_of_not_lt h) htail)

theorem readString_flatMap (cs : List Char) (hfuel : cs.length < fuel) :
    readString start fuel acc (cs.flatMap escapeChar ++ '"' :: rest) = .ok (acc.reverse ++ cs, rest) := by
  induction cs generalizing fuel acc with
  | nil =>
    obtain ⟨fuel, rfl⟩ := Nat.exists_eq_succ_of_ne_zero (Nat.ne_of_gt hfuel)
    rw [List.append_nil]
    rfl
  | cons c cs ih =>
    obtain ⟨fuel, rfl⟩ := Nat.exists_eq_succ_of_ne_zero (Nat.ne_of_gt (Nat.zero_lt_of_lt hfuel))
    rw [List.flatMap_cons, List.append_assoc, readString_escapeChar c (by simp), ih (by simpa using hfuel)]
    simp

theorem length_escapeChar_pos (c : Char) : 0 < (escapeChar c).length := by
  unfold escapeChar unitEscape
  simp only []
  repeat' split
  all_goals simp

theorem length_le_length_flatMap (cs : List Char) : cs.length ≤ (cs.flatMap escapeChar).length := by
  induction cs with
  | nil => exact Nat.le_refl _
  | cons c cs ih =>
    have hpos := length_escapeChar_pos c
    rw [List.flatMap_cons, List.length_append, List.length_cons]
    omega

theorem readText_flatMap (cs : List Char) :
    readText (cs.flatMap escapeChar ++ '"' :: rest) = .ok (cs, rest) := by
  have hlen := length_le_length_flatMap cs
  rw [readText, readString_flatMap cs (by rw [List.length_append]; omega)]
  rfl

end ClassAtlas.Json
