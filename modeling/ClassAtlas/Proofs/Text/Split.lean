import ClassAtlas.Text.Split
import ClassAtlas.Text.WordChar
import Mathlib.Data.List.DropRight
/-!
# Splitting and trimming

Splitting agrees with that of lists, so it undoes joining. Trimming drops exactly the blank
characters around a text whose own ends are not blank.
-/
namespace ClassAtlas.Text

variable {p : Char → Bool} {sep : Char} {lead core tail : List Char}

theorem splitAt_eq_splitOnP (p : Char → Bool) (cs : List Char) : splitAt p cs = cs.splitOnP p := by
  induction cs with
  | nil => rfl
  | cons c cs ih =>
    rw [splitAt, ih, List.splitOnP_cons_eq_if_modifyHead]
    by_cases hc : p c = true
    · simp [hc]
    · simp only [hc, if_false, Bool.false_eq_true]
      cases h : cs.splitOnP p with
      | nil => exact absurd h (List.splitOnP_ne_nil p cs)
      | cons piece pieces => rfl

theorem splitOn_eq_splitOn (sep : Char) (cs : List Char) : splitOn sep cs = cs.splitOn sep := by
  rw [splitOn, splitAt_eq_splitOnP, List.splitOn_eq_splitOnP]

/-! ## The last separator -/

theorem exists_last_of_mem {cs : List Char} (hsep : sep ∈ cs) : ∃ lead seg, cs = lead ++ sep :: seg ∧ sep ∉ seg := by
  obtain ⟨seg, lead, hcs, hseg⟩ := List.eq_append_cons_of_mem (List.mem_reverse.mpr hsep)
  refine ⟨lead.reverse, seg.reverse, ?_, fun h => hseg (List.mem_reverse.mp h)⟩
  rw [← List.reverse_reverse cs, hcs]
  simp

theorem afterLast_append_cons {seg : List Char} (hseg : sep ∉ seg) (lead : List Char) :
    afterLast sep (lead ++ sep :: seg) = seg := by
  have hall : ∀ c ∈ seg.reverse, (c != sep) = true := by
    intro c hc
    exact bne_iff_ne.mpr (ne_of_mem_of_not_mem (List.mem_reverse.mp hc) hseg)
  rw [afterLast, List.reverse_append, List.reverse_cons, List.append_assoc, List.takeWhile_append_of_pos hall]
  simp

theorem afterLast_eq_self {cs : List Char} (hcs : sep ∉ cs) : afterLast sep cs = cs := by
  refine List.rtakeWhile_eq_self_iff.mpr fun c hc => ?_
  exact bne_iff_ne.mpr (ne_of_mem_of_not_mem hc hcs)

theorem contains_iff_infix {piece cs : List Char} : contains piece cs = true ↔ piece <:+: cs := by
  induction cs with
  | nil => rw [contains, List.isEmpty_iff, List.infix_nil]
  | cons c cs ih =>
    rw [contains, Bool.or_eq_true, ih, List.isPrefixOf_iff_prefix, List.infix_cons_iff]

/-- Splitting undoes joining when no piece has the separator in it. -/
theorem splitOn_intercalate {pieces : List (List Char)} (hne : pieces ≠ [])
    (hsep : ∀ piece ∈ pieces, sep ∉ piece) : splitOn sep ([sep].intercalate pieces) = pieces := by
  rw [splitOn_eq_splitOn, List.splitOn_intercalate sep hsep hne]

theorem mem_of_mem_splitAt {piece cs : List Char} {c : Char} (hpiece : piece ∈ splitAt p cs) (hc : c ∈ piece) :
    c ∈ cs := by
  induction cs generalizing piece with
  | nil =>
    obtain rfl := List.mem_singleton.mp hpiece
    cases hc
  | cons d ds ih =>
    rw [splitAt] at hpiece
    split at hpiece
    case isTrue =>
      rcases List.mem_cons.mp hpiece with rfl | hlater
      · cases hc
      · exact List.mem_cons_of_mem _ (ih hlater hc)
    case isFalse =>
      split at hpiece
      case h_1 =>
        obtain rfl := List.mem_singleton.mp hpiece
        exact List.mem_cons.mpr (.inl (List.mem_singleton.mp hc))
      case h_2 first pieces hsplit =>
        rw [hsplit] at ih
        rcases List.mem_cons.mp hpiece with rfl | hlater
        · rcases List.mem_cons.mp hc with rfl | hc
          · exact List.mem_cons_self
          · exact List.mem_cons_of_mem _ (ih List.mem_cons_self hc)
        · exact List.mem_cons_of_mem _ (ih (List.mem_cons_of_mem _ hlater) hc)

theorem splitAt_append_cons {c : Char} (cs ds : List Char) (hc : p c = true) :
    splitAt p (cs ++ c :: ds) = splitAt p cs ++ splitAt p ds := by
  rw [splitAt_eq_splitOnP, splitAt_eq_splitOnP, splitAt_eq_splitOnP, List.splitOnP_append_cons cs ds hc]

/-- What stands in front of the first separator only makes the first piece longer. -/
theorem splitAt_append (hlead : ∀ c ∈ lead, p c = false) (cs : List Char) :
    splitAt p (lead ++ cs) = (splitAt p cs).modifyHead (lead ++ ·) := by
  rw [splitAt_eq_splitOnP, splitAt_eq_splitOnP]
  induction lead with
  | nil => cases h : cs.splitOnP p <;> simp [h]
  | cons c lead ih =>
    rw [List.cons_append, List.splitOnP_cons_eq_if_modifyHead, hlead c List.mem_cons_self,
      ih fun d hd => hlead d (List.mem_cons_of_mem c hd)]
    cases cs.splitOnP p <;> simp

/-- The pieces have all characters but the separators. -/
theorem forall_mem_splitAt {q : Char → Prop} {cs : List Char} :
    (∀ piece ∈ splitAt p cs, ∀ c ∈ piece, q c) ↔ ∀ c ∈ cs, p c = false → q c := by
  induction cs with
  | nil => simp [splitAt]
  | cons c cs ih =>
    rw [splitAt_eq_splitOnP] at ih ⊢
    rw [List.splitOnP_cons_eq_if_modifyHead]
    cases hc : p c with
    | true => simp [ih, hc]
    | false =>
      cases hpieces : cs.splitOnP p with
      | nil => exact absurd hpieces (List.splitOnP_ne_nil p cs)
      | cons piece pieces =>
        rw [hpieces] at ih
        simp only [Bool.false_eq_true, if_false, List.modifyHead_cons, List.forall_mem_cons] at ih ⊢
        simp only [hc, forall_const, and_assoc, ih]

/-- All pieces but the first one are made of what comes after the first separator. -/
theorem forall_mem_tail_splitAt {q : Char → Prop} (hsep : ∀ c, p c = true → q c) {cs : List Char} :
    (∀ piece ∈ (splitAt p cs).tail, ∀ c ∈ piece, q c) ↔ ∀ c ∈ cs.dropWhile (!p ·), q c := by
  induction cs with
  | nil => simp [splitAt]
  | cons c cs ih =>
    rw [splitAt]
    cases hc : p c with
    | true =>
      simp only [if_true, List.tail_cons, List.dropWhile_cons, hc, Bool.not_true, Bool.false_eq_true, if_false,
        forall_mem_splitAt, List.forall_mem_cons]
      refine ⟨fun hall => ⟨hsep c hc, fun d hd => ?_⟩, fun hall d hd _ => hall.2 d hd⟩
      cases hd' : p d with
      | true => exact hsep d hd'
      | false => exact hall d hd hd'
    | false =>
      rw [← List.dropWhile_cons_of_pos (a := c) (l := cs) (p := (!p ·)) (by simp [hc])] at ih
      rw [if_neg (by simp), ← ih]
      cases hpieces : splitAt p cs <;> simp

/-- Neither the first nor the last character is blank. -/
def FirmEnds (cs : List Char) : Prop :=
  (∀ c ∈ cs.head?, isBlank c = false) ∧ ∀ c ∈ cs.getLast?, isBlank c = false

instance (cs : List Char) : Decidable (FirmEnds cs) :=
  decidable_of_iff ((cs.head?.all fun c => !isBlank c) && cs.getLast?.all fun c => !isBlank c)
    (by simp [FirmEnds, Option.all_eq_true])

theorem firmEnds_of_not_blank (h : ∀ c ∈ core, isBlank c = false) : FirmEnds core :=
  ⟨fun c hc => h c (List.mem_of_mem_head? hc), fun c hc => h c (List.mem_of_mem_getLast? hc)⟩

/-- What stands between two such texts does not matter. -/
theorem FirmEnds.append (hlead : FirmEnds lead) (hne : lead ≠ []) (hcore : FirmEnds core)
    (hne' : core ≠ []) (middle : List Char) : FirmEnds (lead ++ (middle ++ core)) := by
  obtain ⟨first, hfirst⟩ := Option.ne_none_iff_exists'.mp (mt List.head?_eq_none_iff.mp hne)
  obtain ⟨last, hlast⟩ := Option.ne_none_iff_exists'.mp (mt List.getLast?_eq_none_iff.mp hne')
  constructor
  · rw [List.head?_append, hfirst, Option.some_or, ← hfirst]
    exact hlead.1
  · rw [List.getLast?_append, List.getLast?_append, hlast, Option.some_or, Option.some_or, ← hlast]
    exact hcore.2

/-- No blank lies between the exclamation mark and the tilde. -/
theorem isBlank_eq_false_of_graphic {c : Char} (hlow : 33 ≤ c.toNat) (hhigh : c.toNat ≤ 126) :
    isBlank c = false := by
  simp only [isBlank, Bool.or_eq_false_iff, Bool.and_eq_false_iff, decide_eq_false_iff_not,
    beq_eq_false_iff_ne]
  omega

/-- The code points of all blanks. -/
def blankPoints : List Nat :=
  [9, 10, 11, 12, 13, 28, 29, 30, 31, 32, 0x85, 0xA0, 0x1680, 0x2000, 0x2001, 0x2002, 0x2003, 0x2004, 0x2005, 0x2006,
    0x2007, 0x2008, 0x2009, 0x200A, 0x2028, 0x2029, 0x202F, 0x205F, 0x3000]

theorem isBlank_eq_false_of_isWordChar {c : Char} (hc : isWordChar c = true) : isBlank c = false := by
  rw [← Bool.not_eq_true]
  intro hblank
  have hpoint : c.toNat ∈ blankPoints := by
    simp only [isBlank, Bool.or_eq_true, Bool.and_eq_true, decide_eq_true_eq, beq_iff_eq] at hblank
    simp only [blankPoints, List.mem_cons, List.not_mem_nil, or_false]
    omega
  have hnone : ∀ n ∈ blankPoints, isWordChar (Char.ofNat n) = false := by decide +kernel
  have hword := hnone _ hpoint
  rw [Char.ofNat_toNat, hc] at hword
  cases hword

theorem trimStart_eq_self (h : ∀ c ∈ core.head?, isBlank c = false) : trimStart core = core := by
  cases core with
  | nil => rfl
  | cons c cs => simp [trimStart, h c rfl]

theorem dropEndWhile_eq_self (h : ∀ c ∈ core.getLast?, p c = false) : dropEndWhile p core = core := by
  refine List.rdropWhile_eq_self_iff.mpr fun hne => ?_
  simp [h _ (List.getLast?_eq_some_getLast hne)]

theorem trimEnd_eq_self (h : ∀ c ∈ core.getLast?, isBlank c = false) : trimEnd core = core := dropEndWhile_eq_self h

theorem FirmEnds.trim_eq (h : FirmEnds core) : trim core = core := by
  rw [trim, trimStart_eq_self h.1, trimEnd_eq_self h.2]

theorem trim_blank_append (h : ∀ c ∈ lead, isBlank c = true) (core : List Char) : trim (lead ++ core) = trim core := by
  rw [trim, trimStart, List.dropWhile_append_of_pos h]
  rfl

theorem trim_eq_nil_iff {cs : List Char} : trim cs = [] ↔ ∀ c ∈ cs, isBlank c = true := by
  have hend : trim cs = [] ↔ ∀ c ∈ trimStart cs, isBlank c = true := List.rdropWhile_eq_nil_iff
  rw [hend]
  refine ⟨fun hall => ?_, fun hall c hc => hall c ((List.dropWhile_sublist _).subset hc)⟩
  have hstart : trimStart cs = [] := by
    rcases hfirst : trimStart cs with _ | ⟨c, rest⟩
    · rfl
    · have hblank := hall c (by rw [hfirst]; exact List.mem_cons_self)
      have hfirm : isBlank c = false := by
        have := List.head?_dropWhile_not isBlank cs
        simp_all [trimStart]
      rw [hfirm] at hblank
      cases hblank
  exact List.dropWhile_eq_nil_iff.mp hstart

theorem mem_of_mem_trim {c : Char} {cs : List Char} (hc : c ∈ trim cs) : c ∈ cs := by
  have hend : c ∈ (trimStart cs).reverse.dropWhile isBlank := List.mem_reverse.mp hc
  have hstart : c ∈ trimStart cs := List.mem_reverse.mp ((List.dropWhile_sublist _).subset hend)
  exact (List.dropWhile_sublist _).subset hstart

theorem dropEndWhile_append (htail : ∀ c ∈ tail, p c = true) (core : List Char) :
    dropEndWhile p (core ++ tail) = dropEndWhile p core := by
  have hrev : ∀ c ∈ tail.reverse, p c = true := fun c hc => htail c (List.mem_reverse.mp hc)
  simp [dropEndWhile, List.dropWhile_append_of_pos hrev]

theorem trimEnd_append_of_blank (h : ∀ c ∈ tail, isBlank c = true) :
    trimEnd (core ++ tail) = trimEnd core := dropEndWhile_append h core

theorem trim_append_of_blank (hcore : FirmEnds core) (hne : core ≠ [])
    (htail : ∀ c ∈ tail, isBlank c = true) : trim (core ++ tail) = core := by
  have hhead : (core ++ tail).head? = core.head? := by
    cases core with
    | nil => contradiction
    | cons c cs => rfl
  rw [trim, trimStart_eq_self (by rw [hhead]; exact hcore.1), trimEnd_append_of_blank htail,
    trimEnd_eq_self hcore.2]

/-! ## Line ends -/

/-- A text without carriage returns keeps its line ends. -/
theorem unifyLineEnds_eq_self {cs : List Char} (h : '\r' ∉ cs) : unifyLineEnds cs = cs := by
  induction cs with
  | nil => rfl
  | cons c cs ih =>
    rw [List.mem_cons, not_or] at h
    rw [unifyLineEnds, if_neg (Ne.symm h.1), ih h.2]
    rintro _ rfl
    exact absurd rfl h.1

end ClassAtlas.Text
