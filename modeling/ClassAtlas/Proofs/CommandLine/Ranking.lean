import ClassAtlas.CommandLine.Summary
import Mathlib.Data.List.Basic
/-!
# The ranking of the summary

The summary shows the most complex of the project's own classes. Of two classes the more complex one ranks
higher, and of equals the one that comes first in the document.
-/
namespace ClassAtlas.Summary

/-- A record with its place in the document. -/
abbrev Entry := ClassRecord × Nat

/-- The project's own classes with their places. -/
def own (classes : List ClassRecord) : List Entry := classes.zipIdx.filter fun e => !e.1.external

structure Outranks (a b : Entry) : Prop where
  score : b.1.metrics.cyclomatic ≤ a.1.metrics.cyclomatic
  place : b.1.metrics.cyclomatic = a.1.metrics.cyclomatic → a.2 < b.2

/-- Whether the score of `a` is that of `b` at least. -/
def atLeast (a b : Entry) : Bool := decide (b.1.metrics.cyclomatic ≤ a.1.metrics.cyclomatic)

/-- The project's own classes by rank. -/
def ranked (classes : List ClassRecord) : List Entry := (own classes).mergeSort atLeast

theorem map_fst_own (classes : List ClassRecord) :
    (own classes).map Prod.fst = classes.filter fun r => !r.external := by
  conv => rhs; rw [← List.zipIdx_map_fst 0 classes, List.filter_map]
  rfl

theorem map_fst_ranked (classes : List ClassRecord) : (ranked classes).map Prod.fst = ranking classes := by
  rw [ranking, ← map_fst_own]
  exact List.map_mergeSort fun a _ b _ => rfl

/-! ## The order of the ranking -/

theorem pairwise_own (classes : List ClassRecord) : (own classes).Pairwise fun a b => a.2 < b.2 := by
  refine List.Pairwise.filter _ (List.pairwise_map.mp ?_)
  rw [List.zipIdx_map_snd]
  exact List.pairwise_lt_range'

theorem atLeast_trans (a b c : Entry) (hab : atLeast a b = true) (hbc : atLeast b c = true) : atLeast a c = true := by
  simp only [atLeast, decide_eq_true_eq] at hab hbc ⊢
  omega

theorem atLeast_total (a b : Entry) : (atLeast a b || atLeast b a) = true := by
  simp only [atLeast, Bool.or_eq_true, decide_eq_true_eq]
  omega

/-- Sorting keeps equals in their order: entries are told apart by where they stood before. -/
theorem pairwise_ranked (classes : List ClassRecord) : (ranked classes).Pairwise Outranks := by
  have hsorted := List.pairwise_mergeSort (List.zipIdxLE_trans atLeast_trans) (List.zipIdxLE_total atLeast_total)
    (own classes).zipIdx
  have hmem := List.mergeSort_perm (own classes).zipIdx (List.zipIdxLE atLeast)
  have hdistinct : ((own classes).zipIdx.mergeSort (List.zipIdxLE atLeast)).Pairwise fun x y => x.2 ≠ y.2 := by
    refine List.Pairwise.perm (List.pairwise_map.mp ?_) hmem.symm Ne.symm
    rw [List.zipIdx_map_snd]
    exact List.nodup_range'
  rw [ranked, ← List.mergeSort_zipIdx, List.pairwise_map]
  refine (hsorted.and hdistinct).imp_of_mem ?_
  rintro ⟨a, i⟩ ⟨b, j⟩ ha hb ⟨hle, hne⟩
  rw [hmem.mem_iff, List.mk_mem_zipIdx_iff_getElem?, List.getElem?_eq_some_iff] at ha hb
  obtain ⟨hi, rfl⟩ := ha
  obtain ⟨hj, rfl⟩ := hb
  rw [List.zipIdxLE] at hle
  by_cases hab : atLeast (own classes)[i] (own classes)[j] = true
  · rw [if_pos hab] at hle
    refine ⟨of_decide_eq_true hab, fun heq => ?_⟩
    have hba : atLeast (own classes)[j] (own classes)[i] = true := decide_eq_true (Int.le_of_eq heq.symm)
    rw [if_pos hba, decide_eq_true_eq] at hle
    exact List.pairwise_iff_getElem.mp (pairwise_own classes) i j hi hj (Nat.lt_of_le_of_ne hle hne)
  · rw [if_neg hab] at hle
    cases hle

/-! ## What is shown -/

/-- The lines in front of the classes. -/
def totals (s : Snapshot) (skipped : Nat) (output : String) : List String :=
  ["UML generation complete", "Classes analyzed: " ++ Nat.repr s.classes.length,
    "Packages: " ++ Nat.repr s.packages.length] ++
    (if skipped = 0 then [] else ["Files skipped: " ++ Nat.repr skipped]) ++ ["Output file: " ++ output]

/-- The lines of the classes that are shown. -/
def components (shown : List Entry) : List String :=
  if shown.isEmpty then [] else "Most complex components:" :: shown.map fun e => classLine e.1

theorem lines_eq (s : Snapshot) (skipped : Nat) (output : String) :
    lines s skipped output = totals s skipped output ++ components ((ranked s.classes).take shownClasses) := by
  have htop : mostComplex s.classes = ((ranked s.classes).take shownClasses).map Prod.fst := by
    rw [mostComplex, ← map_fst_ranked, List.map_take]
  simp only [lines, totals, components, htop, List.isEmpty_map, List.map_map, Function.comp_def]

end ClassAtlas.Summary
