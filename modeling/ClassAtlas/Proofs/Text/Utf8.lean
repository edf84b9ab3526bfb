import ClassAtlas.Text.Utf8
import Mathlib.Data.List.Basic
/-!
# Bytes that are text

Bytes are text exactly if they fall into characters, each read from its own bytes. Encoded characters
are such bytes, and none of them begins with a byte that could go on with a character before it. So
adding encoded text to the end of a file makes it neither text nor no text.
-/
namespace ClassAtlas.Utf8

/-- The bytes fall into characters. -/
inductive IsText : List UInt8 → Prop where
  | nil : IsText []
  | char {b bs c rest} (read : readChar b bs = .ok (c, rest)) (more : IsText rest) : IsText (b :: bs)

variable {b : UInt8} {bs rest tail : List UInt8} {c : Char} {cs : List Char}

/-- No byte in front could go on with a character. -/
def StartsChar (bs : List UInt8) : Prop := ∀ b ∈ bs.head?, b.toNat < 0x80 ∨ 0xBF < b.toNat

/-! ## Reading one character -/

theorem readMore_succ (low high more seen n : Nat) (b : UInt8) (bs : List UInt8) :
    readMore low high (more + 1) seen n (b :: bs) =
      if low ≤ b.toNat ∧ b.toNat ≤ high then readMore 0x80 0xBF more (seen + 1) (n * 64 + (b.toNat - 0x80)) bs
      else .error (.continuationByte, seen) := rfl

theorem length_readMore {low high more seen n m : Nat} (h : readMore low high more seen n bs = .ok (m, rest)) :
    rest.length ≤ bs.length := by
  induction more generalizing low high seen n bs with
  | zero =>
    cases h
    exact Nat.le_refl _
  | succ more ih =>
    cases bs with
    | nil => cases h
    | cons b bs =>
      rw [readMore_succ] at h
      split at h
      · exact Nat.le_succ_of_le (ih h)
      · cases h

theorem readMore_append {low high more seen n m : Nat} (h : readMore low high more seen n bs = .ok (m, rest)) :
    readMore low high more seen n (bs ++ tail) = .ok (m, rest ++ tail) := by
  induction more generalizing low high seen n bs with
  | zero =>
    cases h
    rfl
  | succ more ih =>
    cases bs with
    | nil => cases h
    | cons b bs =>
      rw [readMore_succ] at h
      rw [List.cons_append, readMore_succ]
      split at h
      case isTrue hbounds => rw [if_pos hbounds, ih h]
      case isFalse => cases h

/-- A reader does not go on into text that begins with a character of its own. -/
theorem readMore_of_append {low high more seen n m : Nat} (htail : StartsChar tail) (hlow : 0x80 ≤ low)
    (hhigh : high ≤ 0xBF) (h : readMore low high more seen n (bs ++ tail) = .ok (m, rest)) :
    ∃ left, rest = left ++ tail ∧ readMore low high more seen n bs = .ok (m, left) := by
  induction more generalizing low high seen n bs with
  | zero =>
    cases h
    exact ⟨bs, rfl, rfl⟩
  | succ more ih =>
    cases bs with
    | nil =>
      cases tail with
      | nil => cases h
      | cons b tail =>
        have hfirst := htail b rfl
        rw [List.nil_append, readMore_succ, if_neg (by omega)] at h
        cases h
    | cons b bs =>
      rw [List.cons_append, readMore_succ] at h
      rw [readMore_succ]
      split at h
      case isTrue hbounds =>
        rw [if_pos hbounds]
        exact ih (Nat.le_refl _) (Nat.le_refl _) h
      case isFalse => cases h

theorem lead?_bounds {n : Nat} {l : Lead} (h : lead? n = some l) : 0x80 ≤ l.low ∧ l.high ≤ 0xBF := by
  unfold lead? at h
  split at h
  case isTrue => cases h
  split at h
  case isTrue => cases h; exact ⟨Nat.le_refl _, Nat.le_refl _⟩
  split at h
  case isTrue => cases h; dsimp only; split <;> split <;> decide
  split at h
  case isTrue => cases h; dsimp only; split <;> split <;> decide
  case isFalse => cases h

theorem readChar_cases (h : readChar b bs = .ok (c, rest)) : (b.toNat < 0x80 ∧ c = Char.ofNat b.toNat ∧ rest = bs) ∨
    ∃ l n, ¬ b.toNat < 0x80 ∧ lead? b.toNat = some l ∧ readMore l.low l.high l.more 1 l.bits bs = .ok (n, rest) ∧
      c = Char.ofNat n := by
  unfold readChar at h
  split at h
  case isTrue hsmall =>
    cases h
    exact .inl ⟨hsmall, rfl, rfl⟩
  case isFalse hlarge =>
    split at h
    · cases h
    · rename_i l hlead
      cases hmore : readMore l.low l.high l.more 1 l.bits bs with
      | error e => rw [hmore] at h; cases h
      | ok read =>
        rw [hmore] at h
        cases h
        exact .inr ⟨l, read.1, hlarge, hlead, hmore, rfl⟩

theorem readChar_of_lead {l : Lead} {n : Nat} (hb : ¬ b.toNat < 0x80) (hlead : lead? b.toNat = some l)
    (hmore : readMore l.low l.high l.more 1 l.bits bs = .ok (n, rest)) : readChar b bs = .ok (Char.ofNat n, rest) := by
  rw [readChar, if_neg hb, hlead]
  simp only [hmore]
  rfl

theorem length_readChar (h : readChar b bs = .ok (c, rest)) : rest.length ≤ bs.length := by
  rcases readChar_cases h with ⟨_, _, rfl⟩ | ⟨l, n, _, _, hmore, _⟩
  · exact Nat.le_refl _
  · exact length_readMore hmore

theorem readChar_append (h : readChar b bs = .ok (c, rest)) (tail : List UInt8) :
    readChar b (bs ++ tail) = .ok (c, rest ++ tail) := by
  rcases readChar_cases h with ⟨hsmall, rfl, rfl⟩ | ⟨l, n, hlarge, hlead, hmore, rfl⟩
  · rw [readChar, if_pos hsmall]
  · exact readChar_of_lead hlarge hlead (readMore_append hmore)

theorem readChar_of_append (htail : StartsChar tail) (h : readChar b (bs ++ tail) = .ok (c, rest)) :
    ∃ left, rest = left ++ tail ∧ readChar b bs = .ok (c, left) := by
  rcases readChar_cases h with ⟨hsmall, rfl, rfl⟩ | ⟨l, n, hlarge, hlead, hmore, rfl⟩
  · exact ⟨bs, rfl, by rw [readChar, if_pos hsmall]⟩
  · obtain ⟨hlow, hhigh⟩ := lead?_bounds hlead
    obtain ⟨left, hrest, hread⟩ := readMore_of_append htail hlow hhigh hmore
    exact ⟨left, hrest, readChar_of_lead hlarge hlead hread⟩

/-! ## Encoded characters -/

theorem toNat_ofNat {n : Nat} (h : n < 256) : (UInt8.ofNat n).toNat = n := by
  rw [UInt8.toNat_ofNat']
  exact Nat.mod_eq_of_lt h

/-- A byte that goes on with a character, and what it adds. -/
theorem readMore_cons {low high more seen n k : Nat} (hlow : low ≤ 0x80 + k) (hhigh : 0x80 + k ≤ high) (hk : k < 64) :
    readMore low high (more + 1) seen n (UInt8.ofNat (k + 128) :: bs) =
      readMore 0x80 0xBF more (seen + 1) (n * 64 + k) bs := by
  have hbyte : (UInt8.ofNat (k + 128)).toNat = k + 128 := toNat_ofNat (by omega)
  rw [readMore_succ, hbyte, if_pos (by omega), Nat.add_sub_cancel]

/-- The first byte of a character of several bytes. -/
theorem readChar_lead {k more low high bits : Nat} (hk : 0xC2 ≤ k ∧ k < 256)
    (hlead : lead? k = some ⟨more, low, high, bits⟩)
    (hmore : readMore low high more 1 bits bs = .ok (c.toNat, rest)) :
    readChar (UInt8.ofNat k) bs = .ok (c, rest) := by
  have hbyte : (UInt8.ofNat k).toNat = k := toNat_ofNat hk.2
  have hread := @readChar_of_lead (UInt8.ofNat k) bs rest ⟨more, low, high, bits⟩ c.toNat (by omega)
    (by rw [hbyte, hlead]) hmore
  rwa [Char.ofNat_toNat] at hread

theorem begins_of_le {k : Nat} (hk : 0xC2 ≤ k ∧ k < 256) :
    (UInt8.ofNat k).toNat < 0x80 ∨ 0xBF < (UInt8.ofNat k).toNat := by
  rw [toNat_ofNat hk.2]
  omega

/-- The bytes of a character are read as it, and the first of them begins a character. -/
theorem exists_utf8EncodeChar (c : Char) : ∃ b bs, String.utf8EncodeChar c = b :: bs ∧
    (b.toNat < 0x80 ∨ 0xBF < b.toNat) ∧ ∀ rest, readChar b (bs ++ rest) = .ok (c, rest) := by
  have hvalid : c.toNat < 0xD800 ∨ 0xDFFF < c.toNat ∧ c.toNat < 0x110000 := c.valid
  have hval : c.val.toNat = c.toNat := rfl
  rw [String.utf8EncodeChar.eq_1, hval]
  generalize hn : c.toNat = n at hvalid
  split
  case isTrue h =>
    have hbyte : (UInt8.ofNat n).toNat = n := toNat_ofNat (by omega)
    refine ⟨_, _, rfl, by omega, fun rest => ?_⟩
    rw [readChar, hbyte, if_pos (by omega), ← hn, Char.ofNat_toNat]
    rfl
  split
  case isTrue h =>
    have hk : 0xC2 ≤ n / 64 % 32 + 192 ∧ n / 64 % 32 + 192 < 256 := by omega
    have hbits : n / 64 % 32 + 192 - 0xC0 = n / 64 := by omega
    have hlead : lead? (n / 64 % 32 + 192) = some ⟨1, 0x80, 0xBF, n / 64⟩ := by
      rw [lead?, if_neg (by omega), if_pos (by omega), hbits]
    refine ⟨_, _, rfl, begins_of_le hk, fun rest => readChar_lead hk hlead ?_⟩
    rw [List.cons_append, readMore_cons (by omega) (by omega) (by omega), hn, Nat.div_add_mod']
    rfl
  split
  case isTrue h =>
    have hk : 0xC2 ≤ n / 4096 % 16 + 224 ∧ n / 4096 % 16 + 224 < 256 := by omega
    have hbits : n / 4096 % 16 + 224 - 0xE0 = n / 4096 := by omega
    have hlead : lead? (n / 4096 % 16 + 224) = some ⟨2, if n / 4096 % 16 + 224 = 0xE0 then 0xA0 else 0x80,
        if n / 4096 % 16 + 224 = 0xED then 0x9F else 0xBF, n / 4096⟩ := by
      rw [lead?, if_neg (by omega), if_neg (by omega), if_pos (by omega), hbits]
    refine ⟨_, _, rfl, begins_of_le hk, fun rest => readChar_lead hk hlead ?_⟩
    rw [List.cons_append, List.cons_append, readMore_cons (by split <;> omega) (by split <;> omega) (by omega),
      readMore_cons (by omega) (by omega) (by omega), hn]
    have hjoin : (n / 4096 * 64 + n / 64 % 64) * 64 + n % 64 = n := by omega
    rw [hjoin]
    rfl
  case isFalse h =>
    have hk : 0xC2 ≤ n / 262144 % 8 + 240 ∧ n / 262144 % 8 + 240 < 256 := by omega
    have hbits : n / 262144 % 8 + 240 - 0xF0 = n / 262144 := by omega
    have hlead : lead? (n / 262144 % 8 + 240) = some ⟨3, if n / 262144 % 8 + 240 = 0xF0 then 0x90 else 0x80,
        if n / 262144 % 8 + 240 = 0xF4 then 0x8F else 0xBF, n / 262144⟩ := by
      rw [lead?, if_neg (by omega), if_neg (by omega), if_neg (by omega), if_pos (by omega), hbits]
    refine ⟨_, _, rfl, begins_of_le hk, fun rest => readChar_lead hk hlead ?_⟩
    rw [List.cons_append, List.cons_append, List.cons_append,
      readMore_cons (by split <;> omega) (by split <;> omega) (by omega),
      readMore_cons (by omega) (by omega) (by omega), readMore_cons (by omega) (by omega) (by omega), hn]
    have hjoin : ((n / 262144 * 64 + n / 4096 % 64) * 64 + n / 64 % 64) * 64 + n % 64 = n := by omega
    rw [hjoin]
    rfl

/-! ## Text -/

theorem isText_cons_iff : IsText (b :: bs) ↔ ∃ c rest, readChar b bs = .ok (c, rest) ∧ IsText rest := by
  constructor
  · intro h
    cases h with
    | char read more => exact ⟨_, _, read, more⟩
  · rintro ⟨c, rest, read, more⟩
    exact .char read more

theorem exists_decodeFrom_iff {position fuel : Nat} (hfuel : bs.length ≤ fuel) :
    (∃ cs, decodeFrom position fuel bs = .ok cs) ↔ IsText bs := by
  induction fuel generalizing position bs with
  | zero =>
    obtain rfl := List.length_eq_zero_iff.mp (Nat.le_zero.mp hfuel)
    exact ⟨fun _ => .nil, fun _ => ⟨[], rfl⟩⟩
  | succ fuel ih =>
    cases bs with
    | nil => exact ⟨fun _ => .nil, fun _ => ⟨[], rfl⟩⟩
    | cons b bs =>
      rw [isText_cons_iff, decodeFrom]
      cases hread : readChar b bs with
      | error e =>
        constructor
        · rintro ⟨_, h⟩
          cases h
        · rintro ⟨_, _, h, _⟩
          cases h
      | ok read =>
        obtain ⟨c, rest⟩ := read
        have hshort : rest.length ≤ fuel :=
          Nat.le_trans (length_readChar hread) (Nat.le_of_succ_le_succ hfuel)
        have hrest : (∃ ds, decodeFrom (position + (bs.length + 1 - rest.length)) fuel rest = .ok ds) ↔
            IsText rest := ih hshort
        constructor
        · rintro ⟨cs, h⟩
          refine ⟨c, rest, rfl, hrest.mp ?_⟩
          cases hdecoded : decodeFrom (position + (bs.length + 1 - rest.length)) fuel rest with
          | error e =>
            simp only [hdecoded] at h
            cases h
          | ok ds => exact ⟨ds, rfl⟩
        · rintro ⟨_, _, h, hmore⟩
          cases h
          obtain ⟨ds, hdecoded⟩ := hrest.mpr hmore
          exact ⟨c :: ds, by simp only [hdecoded]; rfl⟩

theorem exists_decode_iff : (∃ cs, decode bs = .ok cs) ↔ IsText bs := exists_decodeFrom_iff (Nat.le_refl _)

theorem startsChar_encode (cs : List Char) : StartsChar (encode cs) := by
  cases cs with
  | nil =>
    intro b hb
    cases hb
  | cons c cs =>
    obtain ⟨first, bs, hbytes, hfirst, _⟩ := exists_utf8EncodeChar c
    intro b hb
    rw [encode, List.flatMap_cons, hbytes] at hb
    cases hb
    exact hfirst

theorem isText_encode (cs : List Char) : IsText (encode cs) := by
  induction cs with
  | nil => exact .nil
  | cons c cs ih =>
    obtain ⟨b, bs, hbytes, _, hread⟩ := exists_utf8EncodeChar c
    rw [encode, List.flatMap_cons, hbytes]
    exact .char (hread _) ih

theorem decodeFrom_encode {position fuel : Nat} (hfuel : (encode cs).length ≤ fuel) :
    decodeFrom position fuel (encode cs) = .ok cs := by
  induction cs generalizing position fuel with
  | nil => cases fuel <;> rfl
  | cons c cs ih =>
    obtain ⟨b, bs, hbytes, _, hread⟩ := exists_utf8EncodeChar c
    have hencode : encode (c :: cs) = b :: (bs ++ encode cs) := by rw [encode, List.flatMap_cons, hbytes]; rfl
    rw [hencode, List.length_cons, List.length_append] at hfuel
    obtain ⟨fuel, rfl⟩ := Nat.exists_eq_succ_of_ne_zero (by omega : fuel ≠ 0)
    rw [hencode, decodeFrom, hread]
    simp only
    rw [ih (by omega)]
    rfl

theorem decode_encode (cs : List Char) : decode (encode cs) = .ok cs := decodeFrom_encode (Nat.le_refl _)

/-- Encoded text at the end makes bytes neither text nor no text. -/
theorem isText_append_encode_iff : IsText (bs ++ encode cs) ↔ IsText bs := by
  constructor
  · intro h
    generalize hall : bs ++ encode cs = all at h
    induction h generalizing bs with
    | nil =>
      obtain rfl := (List.append_eq_nil_iff.mp hall).1
      exact .nil
    | char read more ih =>
      cases bs with
      | nil => exact .nil
      | cons b bs =>
        obtain ⟨rfl, hrest⟩ := List.cons.inj hall
        rw [← hrest] at read
        obtain ⟨left, hleft, hread⟩ := readChar_of_append (startsChar_encode cs) read
        exact .char hread (ih hleft.symm)
  · intro h
    induction h with
    | nil => exact isText_encode cs
    | char read more ih => exact .char (readChar_append read _) ih

end ClassAtlas.Utf8
