import ClassAtlas.Proofs.Checkout.Cleanup
/-!
# What a cleanup spares

A cleanup goes by the names in a path. What it removes lies where the path leads, which need not be in a directory for
copies: double dots and links lead out of it.
-/
namespace ClassAtlas

open ClassAtlas.Action

/-- The same is at a place as before. A file that is logged to may have grown. -/
def Host.Keeps (h h' : Host) (q : Location) : Prop :=
  h'.files.at? q = h.files.at? q ∨ ∃ level m n, Sink.file level (some q) ∈ h.logging.sinks ∧
    h.files.at? q = some m ∧ h'.files.at? q = some n ∧ m.Grown n

namespace Checkout

/-- What is removed by a path: all below the directory that it leads to, and the directory itself when the path still
leads to it then and does not end in double dots. -/
def Removes (h : Host) (p : Path) (q : Location) : Prop :=
  ∃ place locked, h.files.lookup h.cwd false p = .ok (place, .directory locked) ∧ place ≠ [] ∧ place <+: q ∧
    (q = place → p.name ≠ ".." ∧ (h.files.clear place).locate h.cwd false p = .ok place)

/-- A cleanup returns, and what lies in no directory for copies is the same after it. -/
def SparesOthers (h : Host) (p : Path) : Prop :=
  ((cleanup p).on h).1 = .ok () ∧ ∀ q, directoryName ∉ q.dropLast → h.Keeps ((cleanup p).on h).2 q

end Checkout

open Checkout

variable {h h' removed : Host} {p : Path} {place q : Location} {node : Node} {locked : Bool}

/-! ## What is removed -/

theorem files_removeEmpty (hnul : hasNul p = false) (h : Host) : ((removeEmpty p).on h).2.files =
    match h.files.locate h.cwd false p with
    | .ok place => if p.name = ".." then h.files else h.files.erase place
    | .error _ => h.files := by
  rw [removeEmpty, on_place, hnul]
  simp only [Bool.false_eq_true, if_false]
  cases h.files.locate h.cwd false p with
  | error errno => rfl
  | ok place =>
    dsimp only
    split <;> rfl

theorem files_removeTree (hnul : hasNul p = false)
    (hfound : h.files.lookup h.cwd false p = .ok (place, .directory locked)) (hroot : place ≠ []) :
    ((removeTree p).on h).2.files =
      if p.name ≠ ".." ∧ (h.files.clear place).locate h.cwd false p = .ok place then (h.files.clear place).erase place
      else h.files.clear place := by
  let cleared : Host := ((clearBelow place).on h).2
  have hclear : (clearBelow place).on h = (.ok ⟨⟩, cleared) := rfl
  have hfiles : cleared.files = h.files.clear place := rfl
  have hcwd : cleared.cwd = h.cwd := rfl
  have hfewer := (cleared_clearBelow h place).fewer
  rw [removeTree, on_bind_of_ok (on_lookup hnul false h), hfound]
  simp only [if_neg hroot]
  rw [on_bind_of_ok hclear, files_removeEmpty hnul, hfiles, hcwd]
  cases hthere : (h.files.clear place).locate h.cwd false p with
  | error errno => simp
  | ok there =>
    have hplace : there = place := FileTree.locate_of_fewer hfewer (FileTree.locate_of_lookup hfound).1 hthere
    by_cases hdots : p.name = ".." <;> simp [hdots, hplace]

theorem at?_removeTree_of_removes (hnul : hasNul p = false) (hq : Removes h p q) :
    ((removeTree p).on h).2.files.at? q = none := by
  obtain ⟨place, locked, hfound, hroot, hbelow, hself⟩ := hq
  rw [files_removeTree hnul hfound hroot]
  by_cases hplace : q = place
  · rw [if_pos (hself hplace), hplace]
    exact FileTree.at?_erase_self hroot
  · have hcleared := @FileTree.at?_clear_below h.files _ _ hbelow hplace
    split
    · exact (FileTree.at?_erase_of_ne hplace).trans hcleared
    · exact hcleared

theorem at?_removeTree_of_not_removes (hq : ¬ Removes h p q) :
    ((removeTree p).on h).2.files.at? q = h.files.at? q := by
  rcases removeTree_cases p h with hsame | ⟨place, locked, hnul, hfound, hroot⟩
  · rw [hsame]
  rw [files_removeTree hnul hfound hroot]
  by_cases hplace : q = place
  · have hstays : ¬ (p.name ≠ ".." ∧ (h.files.clear place).locate h.cwd false p = .ok place) := fun hremoved =>
      hq ⟨place, locked, hfound, hroot, hplace ▸ List.prefix_rfl, fun _ => hremoved⟩
    rw [if_neg hstays, hplace]
    exact FileTree.at?_clear_of_not_below fun hbelow => hbelow.2 rfl
  · have hbeside : ¬ (place <+: q ∧ q ≠ place) := fun hbelow =>
      hq ⟨place, locked, hfound, hroot, hbelow.1, fun heq => absurd heq hplace⟩
    have hcleared := @FileTree.at?_clear_of_not_below h.files _ _ hbeside
    split
    · exact (FileTree.at?_erase_of_ne hplace).trans hcleared
    · exact hcleared

/-! ## What is kept -/

/-- The notes that are taken after a removal go to log files that were there before it. -/
theorem keeps_of_cleanup (hown : p.parts.contains directoryName = true) (hq : ¬ Removes h p q) :
    h.Keeps ((cleanup p).on h).2 q := by
  have hsame := at?_removeTree_of_not_removes hq
  have hnoted := noted_of_cleanup hown h
  have hsinks : ∀ level, Sink.file level (some q) ∈ ((removeTree p).on h).2.logging.sinks →
      Sink.file level (some q) ∈ h.logging.sinks := by
    rcases removeTree_cases p h with heq | ⟨place, locked, hnul, hfound, hroot⟩
    · simp [heq]
    · exact fun level => (cleared_of_removeTree hnul hfound hroot).logging level q
  by_cases hlogged : ∃ level, Sink.file level (some q) ∈ ((removeTree p).on h).2.logging.sinks
  · obtain ⟨level, hsink⟩ := hlogged
    cases hnode : h.files.at? q with
    | none => exact .inl ((hnoted.files.at?_eq_none_iff.mpr (hsame.trans hnode)).trans hnode.symm)
    | some m =>
      obtain ⟨n, hn, hgrown⟩ := hnoted.files.forth (hsame.trans hnode)
      exact .inr ⟨level, m, n, hsinks level hsink, hnode, hn, hgrown⟩
  · exact .inl ((hnoted.apart q (not_exists.mp hlogged)).trans hsame)

theorem gone_of_cleanup (hown : p.parts.contains directoryName = true) (hnul : hasNul p = false)
    (hq : Removes h p q) : ((cleanup p).on h).2.files.at? q = none :=
  (noted_of_cleanup hown h).files.at?_eq_none_iff.mpr (at?_removeTree_of_removes hnul hq)

theorem not_keeps_of_gone (hnode : h.files.at? q = some node) (hgone : h'.files.at? q = none) : ¬ h.Keeps h' q := by
  rintro (hsame | ⟨_, _, n, _, _, hn, _⟩)
  · rw [hgone, hnode] at hsame
    cases hsame
  · rw [hgone] at hn
    cases hn

theorem cleanup_returns (hnul : hasNul p = false) (h : Host) : ((cleanup p).on h).1 = .ok () := by
  rcases hrun : (cleanup p).on h with ⟨f | result, last⟩
  · obtain ⟨-, hnul', -⟩ := failsBy_cleanup p h f last hrun
    rw [hnul] at hnul'
    cases hnul'
  · rfl

theorem cleanup_fails (hown : p.parts.contains directoryName = true) (hnul : hasNul p = true) (h : Host) :
    ((cleanup p).on h).1 = .error .nulInPath := by
  rw [cleanup, hown, removeTree, lookup, refuseNul, hnul]
  rfl

theorem mem_dropLast_of_prefix {name : String} (hmem : name ∈ place.dropLast) (hbelow : place <+: q) :
    name ∈ q.dropLast := by
  obtain ⟨rest, rfl⟩ := hbelow
  by_cases hrest : rest = []
  · rwa [hrest, List.append_nil]
  · rw [List.dropLast_append_of_ne_nil hrest]
    exact List.mem_append_left _ (List.dropLast_subset _ hmem)

/-- A copy stands in the directory for copies, and a project beside that. -/
def copiedTree : FileTree where
  nodes := [([".umlgen-temp"], .directory false), ([".umlgen-temp", "repo-1"], .directory false),
    ([".umlgen-temp", "repo-1", "a.ts"], .file [1]), (["web"], .directory false), (["web", "b.ts"], .file [2])]

theorem wellFormed_copiedTree : copiedTree.WellFormed := by decide

end ClassAtlas
