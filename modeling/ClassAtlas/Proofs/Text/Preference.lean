import ClassAtlas.Proofs.Text.Pattern
import Mathlib.Data.List.Basic
/-!
# Which way a pattern goes first

Where the first way to match succeeds no other way is tried. So a match is found by going the preferred way of each
part of a pattern, and the matches of a text by going from one to the next.
-/
namespace ClassAtlas.Text.Pattern

variable {p : Char → Bool} {a b : Pattern} {s t u : Place} {before after : Option Char} {c : Char}
  {taken rest captured caught : List Char}

/-- The first way to match leads to `t`: if what comes next succeeds there, nothing else is tried. -/
def Prefers (a : Pattern) (s t : Place) : Prop :=
  ∀ ⦃β : Type⦄ (next : Place → Option β) (r : β), next t = some r → a.run s next = some r

/-- There is no way to match. -/
def Refuses (a : Pattern) (s : Place) : Prop := ∀ ⦃β : Type⦄ (next : Place → Option β), a.run s next = none

/-- The only way to match leads to `t`. -/
def Forces (a : Pattern) (s t : Place) : Prop := ∀ ⦃β : Type⦄ (next : Place → Option β), a.run s next = next t

/-- What comes before a place is the last character that was passed. -/
theorem getLast?_cons_or (c : Char) (taken : List Char) (before : Option Char) :
    (c :: taken).getLast?.or before = taken.getLast?.or (some c) := by
  rw [List.getLast?_cons]
  cases taken.getLast? <;> rfl

theorem forall_mem_head?_cons (hc : p c = false) (rest : List Char) : ∀ d ∈ (c :: rest).head?, p d = false := by
  rintro d ⟨⟩
  exact hc

/-! ## The parts of a pattern -/

theorem prefers_empty (s : Place) : Prefers empty s s := fun _ _ _ hnext => hnext

theorem prefers_one (hc : p c = true) (before : Option Char) (rest captured : List Char) :
    Prefers (one p) ⟨before, c :: rest, captured⟩ ⟨some c, rest, captured⟩ := by
  intro β next r hnext
  rw [run_one_cons, if_pos hc, hnext]

/-- A run goes on to the first character that fails its test. -/
theorem prefers_many (htaken : ∀ c ∈ taken, p c = true) (hrest : ∀ c ∈ rest.head?, p c = false)
    (before : Option Char) (captured : List Char) :
    Prefers (many p) ⟨before, taken ++ rest, captured⟩ ⟨taken.getLast?.or before, rest, captured⟩ := by
  intro β next r hnext
  show runMany p captured next before (taken ++ rest) = some r
  induction taken generalizing before with
  | nil =>
    cases rest with
    | nil => exact hnext
    | cons d rest =>
      rw [List.nil_append, runMany_cons, hrest d rfl]
      exact hnext
  | cons d taken ih =>
    obtain ⟨hd, htaken⟩ := List.forall_mem_cons.mp htaken
    rw [getLast?_cons_or] at hnext
    rw [List.cons_append, runMany_cons, if_pos hd, ih htaken (some d) hnext, Option.some_or]

theorem Prefers.append (ha : Prefers a s t) (hb : Prefers b t u) : Prefers (a ++ b) s u :=
  fun _ _ _ hnext => ha _ _ (hb _ _ hnext)

theorem Prefers.left (ha : Prefers a s t) (b : Pattern) : Prefers (alt a b) s t := by
  intro β next r hnext
  rw [run_alt, ha next r hnext, Option.some_or]

theorem Refuses.right (ha : Refuses a s) (hb : Prefers b s t) : Prefers (alt a b) s t := by
  intro β next r hnext
  rw [run_alt, ha next, Option.none_or, hb next r hnext]

theorem Prefers.opt (ha : Prefers a s t) : Prefers (opt a) s t := ha.left empty

theorem Refuses.opt (ha : Refuses a s) : Prefers (opt a) s s := ha.right (prefers_empty s)

theorem Prefers.capture (ha : Prefers a ⟨before, taken ++ rest, captured⟩ ⟨after, rest, captured⟩) :
    Prefers (capture a) ⟨before, taken ++ rest, captured⟩ ⟨after, rest, taken⟩ := by
  intro β next r hnext
  refine ha _ r ?_
  rw [List.length_append, Nat.add_sub_cancel, List.take_left]
  exact hnext

theorem prefers_char (c : Char) (before : Option Char) (rest captured : List Char) :
    Prefers (char c) ⟨before, c :: rest, captured⟩ ⟨some c, rest, captured⟩ :=
  prefers_one (beq_self_eq_true c) before rest captured

theorem prefers_many1 (hne : taken ≠ []) (htaken : ∀ c ∈ taken, p c = true) (hrest : ∀ c ∈ rest.head?, p c = false)
    (before : Option Char) (captured : List Char) :
    Prefers (many1 p) ⟨before, taken ++ rest, captured⟩ ⟨taken.getLast?.or before, rest, captured⟩ := by
  obtain ⟨d, more, rfl⟩ := List.exists_cons_of_ne_nil hne
  obtain ⟨hd, hmore⟩ := List.forall_mem_cons.mp htaken
  rw [getLast?_cons_or]
  exact (prefers_one hd before (more ++ rest) captured).append (prefers_many hmore hrest (some d) captured)

/-- A word is taken as it is written. -/
theorem forces_word (w : String) (before : Option Char) (rest captured : List Char) :
    Forces (word w) ⟨before, w.toList ++ rest, captured⟩ ⟨w.toList.getLast?.or before, rest, captured⟩ := by
  intro β next
  unfold word
  induction w.toList generalizing before with
  | nil => rfl
  | cons d cs ih =>
    rw [getLast?_cons_or, ← ih (some d)]
    rw [List.foldr_cons, run_seq, char, List.cons_append, run_one_cons, if_pos (beq_self_eq_true d)]

theorem Forces.prefers (ha : Forces a s t) : Prefers a s t := fun _ next _ hnext => (ha next).trans hnext

theorem Forces.refuses_append (ha : Forces a s t) (hb : Refuses b t) : Refuses (a ++ b) s :=
  fun _ next => (ha _).trans (hb next)

theorem prefers_word (w : String) (before : Option Char) (rest captured : List Char) :
    Prefers (word w) ⟨before, w.toList ++ rest, captured⟩ ⟨w.toList.getLast?.or before, rest, captured⟩ :=
  (forces_word w before rest captured).prefers

theorem refuses_word {w : String} (hrest : ¬ w.toList <+: rest) (before : Option Char) (captured : List Char) :
    Refuses (word w) ⟨before, rest, captured⟩ := by
  intro β next
  unfold word
  generalize w.toList = cs at hrest
  induction cs generalizing before rest with
  | nil => exact absurd List.nil_prefix hrest
  | cons d cs ih =>
    cases rest with
    | nil => rfl
    | cons c rest =>
      rw [List.cons_prefix_cons] at hrest
      by_cases hc : c = d
      · subst hc
        have hmore := ih (some c) (fun hprefix => hrest ⟨rfl, hprefix⟩)
        rw [List.foldr_cons, run_seq, char, run_one_cons, if_pos (beq_self_eq_true c)]
        exact hmore
      · rw [List.foldr_cons, run_seq, char, run_one_cons, if_neg (mt eq_of_beq hc)]

theorem refuses_one (hrest : ∀ c ∈ rest.head?, p c = false) (before : Option Char) (captured : List Char) :
    Refuses (one p) ⟨before, rest, captured⟩ := by
  intro β next
  cases rest with
  | nil => rfl
  | cons d rest => rw [run_one_cons, hrest d rfl, if_neg Bool.false_ne_true]

theorem Refuses.append (ha : Refuses a s) (b : Pattern) : Refuses (a ++ b) s := fun _ _ => ha _

theorem refuses_many1 (hrest : ∀ c ∈ rest.head?, p c = false) (before : Option Char) (captured : List Char) :
    Refuses (many1 p) ⟨before, rest, captured⟩ := (refuses_one hrest before captured).append _

theorem refuses_char (hrest : c ∉ rest.head?) (before : Option Char) (captured : List Char) :
    Refuses (char c) ⟨before, rest, captured⟩ := by
  refine refuses_one (fun d hd => beq_eq_false_iff_ne.mpr ?_) before captured
  rintro rfl
  exact hrest hd

/-! ## The edges of words -/

theorem forces_wordEdge (h : s.before.any isWordChar ≠ s.rest.head?.any isWordChar) : Forces wordEdge s s := by
  intro β next
  rw [run_wordEdge, if_pos (bne_iff_ne.mpr h)]

theorem refuses_wordEdge (h : s.before.any isWordChar = s.rest.head?.any isWordChar) : Refuses wordEdge s := by
  intro β next
  rw [run_wordEdge, h, bne_self_eq_false, if_neg Bool.false_ne_true]

/-- An edge takes nothing, so it is no help to what comes after it. -/
theorem Refuses.after_wordEdge (hb : Refuses b s) : Refuses (wordEdge ++ b) s := by
  by_cases h : s.before.any isWordChar = s.rest.head?.any isWordChar
  · exact (refuses_wordEdge h).append b
  · exact (forces_wordEdge h).refuses_append hb

/-! ## Alternatives -/

theorem Refuses.alt (ha : Refuses a s) (hb : Refuses b s) : Refuses (alt a b) s := by
  intro β next
  rw [run_alt, ha next, hb next, Option.none_or]

theorem refuses_oneOf {ps : List Pattern} (hps : ∀ a ∈ ps, Refuses a s) (hb : Refuses b s) : Refuses (oneOf ps b) s := by
  induction ps with
  | nil => exact hb
  | cons a ps ih =>
    obtain ⟨ha, hps⟩ := List.forall_mem_cons.mp hps
    exact ha.alt (ih hps)

/-! ## Matches -/

theorem matchAt_of_prefers (ha : Prefers a ⟨before, taken ++ rest, []⟩ ⟨after, rest, caught⟩) :
    a.matchAt before (taken ++ rest) = some ⟨taken, caught⟩ := by
  refine ha _ _ ?_
  rw [List.length_append, Nat.add_sub_cancel, List.take_left]

theorem findAllFrom_succ (a : Pattern) (skip : ℕ) (before : Option Char) (c : Char) (rest : List Char) :
    a.findAllFrom (skip + 1) before (c :: rest) = a.findAllFrom skip (some c) rest := rfl

/-- One step of the search, with or without a match. -/
theorem findAllFrom_cons (a : Pattern) (before : Option Char) (c : Char) (cs : List Char) :
    a.findAllFrom 0 before (c :: cs) = (a.matchAt before (c :: cs)).toList ++
      a.findAllFrom (((a.matchAt before (c :: cs)).elim [] Found.text).length - 1) (some c) cs := by
  conv_lhs => whnf
  cases a.matchAt before (c :: cs) <;> rfl

theorem findAllFrom_skip (a : Pattern) (taken rest : List Char) (before : Option Char) :
    a.findAllFrom taken.length before (taken ++ rest) = a.findAllFrom 0 (taken.getLast?.or before) rest := by
  induction taken generalizing before with
  | nil => rfl
  | cons d taken ih =>
    rw [List.length_cons, List.cons_append, findAllFrom_succ, ih, getLast?_cons_or]

/-- After a match the search goes on where that ends. -/
theorem findAllFrom_of_matchAt (hne : taken ≠ []) (hmatch : a.matchAt before (taken ++ rest) = some ⟨taken, caught⟩) :
    a.findAllFrom 0 before (taken ++ rest) = ⟨taken, caught⟩ :: a.findAllFrom 0 (taken.getLast?.or before) rest := by
  obtain ⟨d, more, rfl⟩ := List.exists_cons_of_ne_nil hne
  have hskip := findAllFrom_skip a more rest (some d)
  rw [List.cons_append] at hmatch ⊢
  rw [findAllFrom_cons, hmatch, getLast?_cons_or, ← hskip]
  rfl

theorem findAllFrom_of_refuses (ha : Refuses a ⟨before, c :: rest, []⟩) :
    a.findAllFrom 0 before (c :: rest) = a.findAllFrom 0 (some c) rest := by
  rw [findAllFrom_cons, matchAt, ha]
  rfl

end ClassAtlas.Text.Pattern
