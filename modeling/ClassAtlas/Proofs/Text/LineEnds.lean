import ClassAtlas.Proofs.Text.Matches
import ClassAtlas.Proofs.Text.Split
/-!
# Line ends of two characters

A text may end its lines with a line feed, or with a carriage return and a line feed. A pattern finds the same in both
texts if it never matters that it can stop between the two characters. Whether it does is read off the pattern from its
end: each part is judged by what the parts after it do at the place between the two.
-/
namespace ClassAtlas.Text

/-- The text with a carriage return before every line feed. -/
def withReturns (cs : List Char) : List Char := cs.flatMap fun c => if c = '\n' then ['\r', '\n'] else [c]

variable {c : Char} {p : Char → Bool} {cs piece : List Char}

@[simp] theorem withReturns_nil : withReturns [] = [] := rfl

@[simp] theorem withReturns_feed (cs : List Char) : withReturns ('\n' :: cs) = '\r' :: '\n' :: withReturns cs := rfl

theorem withReturns_cons (hc : c ≠ '\n') (cs : List Char) : withReturns (c :: cs) = c :: withReturns cs := by
  simp [withReturns, hc]

@[simp] theorem withReturns_append (cs ds : List Char) : withReturns (cs ++ ds) = withReturns cs ++ withReturns ds :=
  List.flatMap_append

theorem withReturns_eq_self (hcs : '\n' ∉ cs) : withReturns cs = cs := by
  induction cs with
  | nil => rfl
  | cons c cs ih =>
    obtain ⟨hc, hmore⟩ := List.ne_and_not_mem_of_not_mem_cons hcs
    rw [withReturns_cons hc.symm, ih hmore]

/-! ## Trimming, searching and splitting -/

theorem trimStart_withReturns (cs : List Char) : trimStart (withReturns cs) = withReturns (trimStart cs) := by
  induction cs with
  | nil => rfl
  | cons c cs ih =>
    by_cases hc : c = '\n'
    · subst hc
      exact ih
    · rw [withReturns_cons hc]
      cases hblank : isBlank c with
      | true =>
        simp only [trimStart] at ih
        simp only [trimStart, List.dropWhile_cons, hblank, if_true, ih]
      | false => simp only [trimStart, List.dropWhile_cons, hblank, Bool.false_eq_true, if_false, withReturns_cons hc]

theorem trimEnd_withReturns (cs : List Char) : trimEnd (withReturns cs) = withReturns (trimEnd cs) := by
  induction cs using List.reverseRecOn with
  | nil => rfl
  | append_singleton cs c ih =>
    rw [withReturns_append]
    by_cases hc : c = '\n'
    · subst hc
      have hreturns : ∀ d ∈ withReturns ['\n'], isBlank d = true := List.all_eq_true.mp (by decide)
      have hfeed : ∀ d ∈ ['\n'], isBlank d = true := List.forall_mem_singleton.mpr (by decide)
      rw [trimEnd_append_of_blank hreturns, trimEnd_append_of_blank hfeed, ih]
    · have hself : withReturns [c] = [c] := withReturns_cons hc []
      rw [hself]
      cases hblank : isBlank c with
      | true =>
        have hall : ∀ d ∈ [c], isBlank d = true := List.forall_mem_singleton.mpr hblank
        rw [trimEnd_append_of_blank hall, trimEnd_append_of_blank hall, ih]
      | false => rw [trimEnd_eq_self (by simpa), trimEnd_eq_self (by simpa), withReturns_append, hself]

theorem trim_withReturns (cs : List Char) : trim (withReturns cs) = withReturns (trim cs) := by
  rw [trim, trimStart_withReturns, trimEnd_withReturns, trim]

theorem isPrefixOf_withReturns (hfeed : '\n' ∉ piece) (hreturn : '\r' ∉ piece) (cs : List Char) :
    piece.isPrefixOf (withReturns cs) = piece.isPrefixOf cs := by
  induction piece generalizing cs with
  | nil => simp
  | cons d piece ih =>
    obtain ⟨hd, hfeed⟩ := List.ne_and_not_mem_of_not_mem_cons hfeed
    obtain ⟨hd', hreturn⟩ := List.ne_and_not_mem_of_not_mem_cons hreturn
    cases cs with
    | nil => rfl
    | cons c cs =>
      by_cases hc : c = '\n'
      · subst hc
        rw [withReturns_feed, List.isPrefixOf, List.isPrefixOf, beq_eq_false_iff_ne.mpr hd.symm,
          beq_eq_false_iff_ne.mpr hd'.symm, Bool.false_and, Bool.false_and]
      · rw [withReturns_cons hc, List.isPrefixOf, List.isPrefixOf, ih hfeed hreturn]

/-- What has no line end in it occurs in both texts or in neither. -/
theorem contains_withReturns (hne : piece ≠ []) (hfeed : '\n' ∉ piece) (hreturn : '\r' ∉ piece) (cs : List Char) :
    contains piece (withReturns cs) = contains piece cs := by
  obtain ⟨d, more, rfl⟩ := List.exists_cons_of_ne_nil hne
  induction cs with
  | nil => rfl
  | cons c cs ih =>
    have hbegins := isPrefixOf_withReturns hfeed hreturn (c :: cs)
    by_cases hc : c = '\n'
    · subst hc
      have hd : d ≠ '\n' := fun h => hfeed (h ▸ List.mem_cons_self)
      have hinside : (d :: more).isPrefixOf ('\n' :: withReturns cs) = false := by simp [List.isPrefixOf, hd]
      rw [withReturns_feed] at hbegins ⊢
      rw [contains, contains, contains, hbegins, hinside, Bool.false_or, ih]
    · rw [withReturns_cons hc] at hbegins ⊢
      rw [contains, contains, hbegins, ih]

theorem length_splitOn_withReturns (cs : List Char) : (splitOn '\n' (withReturns cs)).length = (splitOn '\n' cs).length := by
  induction cs with
  | nil => rfl
  | cons c cs ih =>
    simp only [splitOn] at ih ⊢
    by_cases hc : c = '\n'
    · subst hc
      have hreturns : splitAt (· == '\n') ('\r' :: '\n' :: withReturns cs) = _ :=
        splitAt_append_cons ['\r'] (withReturns cs) (beq_self_eq_true '\n')
      have hfeeds : splitAt (· == '\n') ('\n' :: cs) = _ := splitAt_append_cons [] cs (beq_self_eq_true '\n')
      rw [withReturns_feed, hreturns, hfeeds, List.length_append, List.length_append, ih]
      rfl
    · have hsingle : ∀ d ∈ [c], (d == '\n') = false := List.forall_mem_singleton.mpr (beq_eq_false_iff_ne.mpr hc)
      have hcons (ds : List Char) : splitAt (· == '\n') (c :: ds) = _ := splitAt_append hsingle ds
      rw [withReturns_cons hc, hcons, hcons, List.length_modifyHead, List.length_modifyHead, ih]

/-! ## The place between the two characters -/

/-- What comes next at the place between a carriage return and a line feed, set against what it does after the two. -/
inductive Seam where
  /-- Nothing is known. -/
  | wild
  /-- It fails there if it fails after them. -/
  | tame
  /-- It fails there. -/
  | shut
  /-- It does the same in both places. -/
  | alike
deriving DecidableEq

namespace Seam

variable {β : Type} {k l : Seam} {next more : Place → Option β}

def Holds : Seam → (Place → Option β) → Prop
  | wild, _ => True
  | tame, next => ∀ rest captured, next ⟨some '\n', rest, captured⟩ = none →
      next ⟨some '\r', '\n' :: rest, captured⟩ = none
  | shut, next => ∀ rest captured, next ⟨some '\r', '\n' :: rest, captured⟩ = none
  | alike, next => ∀ rest captured, next ⟨some '\r', '\n' :: rest, captured⟩ = next ⟨some '\n', rest, captured⟩

/-- What is known when something else is tried first after the two characters, but not between them. -/
def loosen : Seam → Seam
  | alike => tame
  | k => k

/-- What is known of two alternatives together. -/
def both : Seam → Seam → Seam
  | wild, _ | _, wild => wild
  | shut, shut => shut
  | alike, alike => alike
  | _, _ => tame

/-- What is known when the text captured on the way may be another. -/
def bare : Seam → Seam
  | shut => shut
  | _ => wild

theorem Holds.tame_of_ne (h : k.Holds next) (hk : k ≠ wild) : tame.Holds next := by
  cases k with
  | wild => exact absurd rfl hk
  | tame => exact h
  | shut => exact fun rest captured _ => h rest captured
  | alike => exact fun rest captured hnone => (h rest captured).trans hnone

theorem Holds.loosen (h : k.Holds next)
    (hbetween : ∀ rest captured, more ⟨some '\r', '\n' :: rest, captured⟩ = next ⟨some '\r', '\n' :: rest, captured⟩)
    (hafter : ∀ rest captured, more ⟨some '\n', rest, captured⟩ = none → next ⟨some '\n', rest, captured⟩ = none) :
    k.loosen.Holds more := by
  have htame : k ≠ wild → tame.Holds more := fun hk rest captured hnone =>
    (hbetween rest captured).trans (h.tame_of_ne hk rest captured (hafter rest captured hnone))
  cases k with
  | wild => exact trivial
  | tame => exact htame (by decide)
  | shut => exact fun rest captured => (hbetween rest captured).trans (h rest captured)
  | alike => exact htame (by decide)

theorem Holds.both (hk : k.Holds next) (hl : l.Holds more) :
    (k.both l).Holds fun s => (next s).or (more s) := by
  have htame : k ≠ wild → l ≠ wild → tame.Holds fun s => (next s).or (more s) := by
    intro hk' hl' rest captured hnone
    obtain ⟨hnext, hmore⟩ := Option.or_eq_none_iff.mp hnone
    simp only [hk.tame_of_ne hk' rest captured hnext, hl.tame_of_ne hl' rest captured hmore, Option.or_none]
  cases k with
  | wild => exact trivial
  | tame =>
    cases l with
    | wild => exact trivial
    | tame | shut | alike => exact htame (by decide) (by decide)
  | shut =>
    cases l with
    | wild => exact trivial
    | shut =>
      intro rest captured
      simp only [hk rest captured, hl rest captured, Option.or_none]
    | tame | alike => exact htame (by decide) (by decide)
  | alike =>
    cases l with
    | wild => exact trivial
    | alike =>
      intro rest captured
      simp only [hk rest captured, hl rest captured]
    | tame | shut => exact htame (by decide) (by decide)

theorem Holds.bare (h : k.Holds next) (caught : Place → List Char) :
    k.bare.Holds fun t => next { t with captured := caught t } := by
  cases k with
  | shut => exact fun rest captured => h rest _
  | wild | tame | alike => exact trivial

end Seam

/-! ## How a pattern is judged -/

namespace Pattern

open Seam

/-- What a pattern and then something of kind `k` do between the two characters; there is none where the pattern may find
something else in a text with both. -/
def seam : Pattern → Seam → Option Seam
  | empty, k => some k
  | one p, k =>
    if p '\r' ≠ p '\n' then none
    else if p '\n' = false then some shut
    else if k = alike then some wild else none
  | many p, k =>
    if p '\r' ≠ p '\n' then none
    else if p '\n' = false then some k.loosen
    else if k = wild then none else some alike
  | seq a b, k => (b.seam k).bind a.seam
  | alt a b, k => (a.seam k).bind fun l => (b.seam k).map l.both
  | capture a, k => (a.seam k.bare).map Seam.bare
  | lineStart, _ => some shut
  | wordEdge, _ => some shut

variable {β γ : Type} {a : Pattern} {k l : Seam} {next : Place → Option β} {before : Option Char}
  {rest taken tail captured : List Char}

theorem seam_one_cases (h : (one p).seam k = some l) :
    p '\r' = p '\n' ∧ (p '\n' = false ∧ l = shut ∨ p '\n' = true ∧ k = alike ∧ l = wild) := by
  rw [seam] at h
  split at h
  case isTrue => cases h
  case isFalse hends =>
    refine ⟨not_ne_iff.mp hends, ?_⟩
    split at h
    case isTrue hfeed => exact .inl ⟨hfeed, (Option.some.inj h).symm⟩
    case isFalse hfeed =>
      split at h
      case isTrue hk => exact .inr ⟨by simpa using hfeed, hk, (Option.some.inj h).symm⟩
      case isFalse => cases h

theorem seam_many_cases (h : (many p).seam k = some l) :
    p '\r' = p '\n' ∧ (p '\n' = false ∧ l = k.loosen ∨ p '\n' = true ∧ k ≠ wild ∧ l = alike) := by
  rw [seam] at h
  split at h
  case isTrue => cases h
  case isFalse hends =>
    refine ⟨not_ne_iff.mp hends, ?_⟩
    split at h
    case isTrue hfeed => exact .inl ⟨hfeed, (Option.some.inj h).symm⟩
    case isFalse hfeed =>
      split at h
      case isTrue => cases h
      case isFalse hk => exact .inr ⟨by simpa using hfeed, hk, (Option.some.inj h).symm⟩

/-- A run may take nothing. -/
theorem next_of_runMany_eq_none (h : runMany p captured next before rest = none) :
    next ⟨before, rest, captured⟩ = none := by
  cases rest with
  | nil => exact h
  | cons c cs =>
    rw [runMany_cons] at h
    split at h
    · exact (Option.or_eq_none_iff.mp h).2
    · exact h

/-- What is read off a pattern is what it does. -/
theorem seam_holds (ha : a.seam k = some l) (hk : k.Holds next) : l.Holds fun s => a.run s next := by
  induction a generalizing k l next with
  | empty =>
    cases ha
    exact hk
  | one p =>
    obtain ⟨-, ⟨hfeed, rfl⟩ | ⟨-, -, rfl⟩⟩ := seam_one_cases ha
    · intro rest captured
      show (one p).run ⟨some '\r', '\n' :: rest, captured⟩ next = none
      rw [run_one_cons, hfeed, if_neg Bool.false_ne_true]
    · exact trivial
  | many p =>
    obtain ⟨-, ⟨hfeed, rfl⟩ | ⟨hfeed, hwild, rfl⟩⟩ := seam_many_cases ha
    · refine hk.loosen (fun rest captured => ?_) fun _ _ => next_of_runMany_eq_none
      exact (runMany_cons ..).trans (by rw [hfeed, if_neg Bool.false_ne_true])
    · intro rest captured
      show runMany p captured next (some '\r') ('\n' :: rest) = runMany p captured next (some '\n') rest
      rw [runMany_cons, if_pos hfeed]
      cases hmore : runMany p captured next (some '\n') rest with
      | some r => rfl
      | none => exact hk.tame_of_ne hwild rest captured (next_of_runMany_eq_none hmore)
  | seq a b iha ihb =>
    obtain ⟨m, hb, ha⟩ := Option.bind_eq_some_iff.mp ha
    exact iha ha (ihb hb hk)
  | alt a b iha ihb =>
    obtain ⟨m, hleft, hboth⟩ := Option.bind_eq_some_iff.mp ha
    obtain ⟨n, hright, rfl⟩ := Option.map_eq_some_iff.mp hboth
    simp only [run_alt]
    exact (iha hleft hk).both (ihb hright hk)
  | capture a ih =>
    obtain ⟨m, hinner, rfl⟩ := Option.map_eq_some_iff.mp ha
    cases m with
    | shut => exact fun rest captured => ih hinner (hk.bare _) rest captured
    | wild | tame | alike => exact trivial
  | lineStart =>
    cases ha
    exact fun rest captured => rfl
  | wordEdge =>
    cases ha
    exact fun rest captured => rfl

end Pattern

/-! ## The same way in both texts -/

def Place.withReturns (s : Place) : Place := ⟨s.before, Text.withReturns s.rest, Text.withReturns s.captured⟩

def Pattern.Found.withReturns (m : Found) : Found := ⟨Text.withReturns m.text, Text.withReturns m.captured⟩

namespace Pattern

variable {β γ : Type} {f : β → γ} {a : Pattern} {k l : Seam} {next : Place → Option β} {next' : Place → Option γ}
  {before : Option Char} {rest tail captured : List Char}

/-- What comes next does the same in both texts wherever it may be reached from the text `rest`. -/
def Mirrors (f : β → γ) (next' : Place → Option γ) (next : Place → Option β) (rest : List Char) : Prop :=
  ∀ t : Place, t.rest <:+ rest → next' t.withReturns = (next t).map f

theorem take_withReturns (h : tail <:+ rest) :
    (withReturns rest).take ((withReturns rest).length - (withReturns tail).length) =
      withReturns (rest.take (rest.length - tail.length)) := by
  obtain ⟨taken, rfl⟩ := h
  simp

theorem runMany_withReturns (ha : (many p).seam k = some l) (hk : k.Holds next') (hnext : Mirrors f next' next rest) :
    runMany p (withReturns captured) next' before (withReturns rest) = (runMany p captured next before rest).map f := by
  obtain ⟨hends, hfeed⟩ := seam_many_cases ha
  induction rest generalizing before with
  | nil => exact hnext ⟨before, [], captured⟩ List.suffix_rfl
  | cons c cs ih =>
    have hhere := hnext ⟨before, c :: cs, captured⟩ List.suffix_rfl
    have hmore (after : Option Char) : _ := @ih after fun t ht => hnext t (ht.trans (List.suffix_cons c cs))
    by_cases hc : c = '\n'
    · subst hc
      simp only [Place.withReturns, withReturns_feed] at hhere ⊢
      rcases hfeed with ⟨hfeed, -⟩ | ⟨hfeed, hwild, -⟩
      · simp only [runMany_cons, hends, hfeed, Bool.false_eq_true, if_false, hhere]
      · simp only [runMany_cons, hends, hfeed, if_true, hmore]
        cases hrun : runMany p captured next (some '\n') cs with
        | some r => rfl
        | none =>
          -- The run in the other text may also end between the two characters. What comes next fails there.
          have hafter := next_of_runMany_eq_none ((hmore (some '\n')).trans (congrArg (Option.map f) hrun))
          simp only [Option.map_none, hk.tame_of_ne hwild _ _ hafter, hhere, Option.none_or]
    · simp only [Place.withReturns, withReturns_cons hc] at hhere ⊢
      rw [runMany_cons, runMany_cons, hmore, hhere]
      split
      · cases runMany p captured next (some c) cs <;> rfl
      · rfl

/-- A pattern goes the same way in both texts, though on the way it may try one more place at each line end. -/
theorem run_withReturns (ha : a.seam k = some l) (hk : k.Holds next') (s : Place) (hnext : Mirrors f next' next s.rest) :
    a.run s.withReturns next' = (a.run s next).map f := by
  induction a generalizing k l next next' s with
  | empty => exact hnext s List.suffix_rfl
  | one p =>
    obtain ⟨before, rest, captured⟩ := s
    cases rest with
    | nil => rfl
    | cons c cs =>
      obtain ⟨hends, hfeed⟩ := seam_one_cases ha
      have hafter := hnext ⟨some c, cs, captured⟩ (List.suffix_cons c cs)
      by_cases hc : c = '\n'
      · subst hc
        simp only [run_one_cons, Place.withReturns, withReturns_feed] at hafter ⊢
        rcases hfeed with ⟨hfeed, -⟩ | ⟨hfeed, rfl, -⟩
        · simp [hends, hfeed]
        · rw [if_pos (hends.trans hfeed), if_pos hfeed, hk, hafter]
      · simp only [run_one_cons, Place.withReturns, withReturns_cons hc] at hafter ⊢
        split
        · exact hafter
        · rfl
  | many p => exact runMany_withReturns ha hk hnext
  | seq a b iha ihb =>
    obtain ⟨m, hb, ha⟩ := Option.bind_eq_some_iff.mp ha
    exact iha ha (seam_holds hb hk) s fun t ht => ihb hb hk t fun u hu => hnext u (hu.trans ht)
  | alt a b iha ihb =>
    obtain ⟨m, hleft, hboth⟩ := Option.bind_eq_some_iff.mp ha
    obtain ⟨n, hright, rfl⟩ := Option.map_eq_some_iff.mp hboth
    rw [run_alt, run_alt, iha hleft hk s hnext, ihb hright hk s hnext, Option.map_or]
  | capture a ih =>
    obtain ⟨m, hinner, rfl⟩ := Option.map_eq_some_iff.mp ha
    refine ih hinner (hk.bare _) s fun t ht => ?_
    have hcaught := hnext ⟨t.before, t.rest, s.rest.take (s.rest.length - t.rest.length)⟩ ht
    rw [Place.withReturns, ← take_withReturns ht] at hcaught
    exact hcaught
  | lineStart =>
    have hhere := hnext s List.suffix_rfl
    rw [run_lineStart, run_lineStart]
    split
    case isTrue hstart => rw [if_pos (by exact hstart), hhere]
    case isFalse hstart => rw [if_neg (by exact hstart)]; rfl
  | wordEdge =>
    have hhere := hnext s List.suffix_rfl
    have hhead : s.withReturns.rest.head?.any isWordChar = s.rest.head?.any isWordChar := by
      obtain ⟨before, rest, captured⟩ := s
      cases rest with
      | nil => rfl
      | cons c cs =>
        by_cases hc : c = '\n'
        · subst hc
          rfl
        · simp [Place.withReturns, withReturns_cons hc]
    have hbefore : s.withReturns.before = s.before := rfl
    rw [run_wordEdge, run_wordEdge, hhead, hbefore, hhere]
    split <;> rfl

/-! ## What is found in both texts -/

/-- Nothing begins between the two characters of a line end, and what goes past them finds the same in both texts. -/
def IgnoresReturns (a : Pattern) : Prop := a.seam .wild = some .shut

instance (a : Pattern) : Decidable (IgnoresReturns a) := inferInstanceAs (Decidable (a.seam .wild = some .shut))

theorem IgnoresReturns.matchAt_feed (ha : IgnoresReturns a) (rest : List Char) :
    a.matchAt (some '\r') ('\n' :: rest) = none := seam_holds ha trivial rest []

theorem IgnoresReturns.matchAt (ha : IgnoresReturns a) (before : Option Char) (rest : List Char) :
    a.matchAt before (withReturns rest) = (a.matchAt before rest).map Found.withReturns := by
  refine run_withReturns ha trivial ⟨before, rest, []⟩ fun t ht => ?_
  rw [Option.map_some, Found.withReturns, ← take_withReturns ht]
  rfl

theorem IgnoresReturns.find? (ha : IgnoresReturns a) (text : List Char) :
    a.find? (withReturns text) = (a.find? text).map Found.withReturns := by
  have hfrom : ∀ before rest, a.findFrom before (withReturns rest) = (a.findFrom before rest).map Found.withReturns := by
    intro before rest
    induction rest generalizing before with
    | nil => exact ha.matchAt before []
    | cons c cs ih =>
      have hhere := ha.matchAt before (c :: cs)
      by_cases hc : c = '\n'
      · subst hc
        rw [withReturns_feed] at hhere ⊢
        rw [findFrom_cons, findFrom_cons, findFrom_cons, hhere, ha.matchAt_feed, ih]
        cases a.matchAt before ('\n' :: cs) <;> rfl
      · rw [withReturns_cons hc] at hhere ⊢
        rw [findFrom_cons, findFrom_cons, hhere, ih]
        cases a.matchAt before (c :: cs) <;> rfl
  exact hfrom none text

/-- A match at a place, or none, and where the search goes on from there. -/
theorem IgnoresReturns.exists_taken (ha : IgnoresReturns a) (before : Option Char) (rest : List Char) :
    ∃ taken, taken <+: rest ∧ (a.matchAt before rest).elim [] Found.text = taken ∧
      (a.matchAt before (withReturns rest)).elim [] Found.text = withReturns taken ∧
      (a.matchAt before (withReturns rest)).toList = (a.matchAt before rest).toList.map Found.withReturns := by
  rw [ha.matchAt]
  cases hm : a.matchAt before rest with
  | none => exact ⟨[], List.nil_prefix, rfl, rfl, rfl⟩
  | some m =>
    obtain ⟨t, -, hrest⟩ := takes_of_matchAt hm
    exact ⟨m.text, ⟨t.rest, hrest.symm⟩, rfl, rfl, rfl⟩

/-- The search goes on behind both characters where it goes on behind the line feed. -/
theorem IgnoresReturns.findAllFrom (ha : IgnoresReturns a) (skip : Nat) (before : Option Char) (rest : List Char) :
    a.findAllFrom (withReturns (rest.take skip)).length before (withReturns rest) =
      (a.findAllFrom skip before rest).map Found.withReturns := by
  induction rest generalizing skip before with
  | nil => cases skip <;> rfl
  | cons c cs ih =>
    have hmore {more : List Char} (hbegins : more <+: cs) (after : Option Char) :
        a.findAllFrom (withReturns more).length after (withReturns cs) =
          (a.findAllFrom more.length after cs).map Found.withReturns := by
      have hrest := ih more.length after
      rwa [← List.prefix_iff_eq_take.mp hbegins] at hrest
    obtain ⟨taken, hbegins, htaken, hreturns, hfirst⟩ := ha.exists_taken before (c :: cs)
    by_cases hc : c = '\n'
    · subst hc
      cases skip with
      | succ skip => exact ih skip (some '\n')
      | zero =>
        rw [withReturns_feed] at hreturns hfirst ⊢
        rw [List.take_zero, withReturns_nil, List.length_nil, findAllFrom_cons, findAllFrom_cons a before, hfirst,
          hreturns, htaken, List.map_append]
        congr 1
        cases taken with
        | nil =>
          -- Nothing was found, so the search goes on between the two characters, where nothing begins.
          rw [withReturns_nil, List.length_nil, findAllFrom_cons, ha.matchAt_feed]
          exact hmore List.nil_prefix (some '\n')
        | cons d more =>
          obtain ⟨rfl, hrest⟩ := List.cons_prefix_cons.mp hbegins
          exact hmore hrest (some '\n')
    · rw [withReturns_cons hc] at hreturns hfirst ⊢
      cases skip with
      | succ skip =>
        rw [List.take_succ_cons, withReturns_cons hc]
        exact ih skip (some c)
      | zero =>
        rw [List.take_zero, withReturns_nil, List.length_nil, findAllFrom_cons, findAllFrom_cons a before, hfirst,
          hreturns, htaken, List.map_append]
        congr 1
        cases taken with
        | nil => exact hmore List.nil_prefix (some c)
        | cons d more =>
          obtain ⟨rfl, hrest⟩ := List.cons_prefix_cons.mp hbegins
          rw [withReturns_cons hc]
          exact hmore hrest (some d)

theorem IgnoresReturns.findAll (ha : IgnoresReturns a) (text : List Char) :
    a.findAll (withReturns text) = (a.findAll text).map Found.withReturns := ha.findAllFrom 0 none text

end Pattern
end ClassAtlas.Text
