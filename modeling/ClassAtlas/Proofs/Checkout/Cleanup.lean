import ClassAtlas.Checkout.Clone
import ClassAtlas.Proofs.Atlas.Writing
/-!
# Removing a copy

Removing a copy changes nothing outside of the place that the copy's path leads to, however it goes, and
nothing is left below that place.
-/
namespace ClassAtlas

open ClassAtlas.Action

/-- What is below a place has been removed, and what is at the place at most. -/
structure Host.Cleared (h h' : Host) (place : Location) : Prop where
  files : ∀ q, ¬ place <+: q → h'.files.at? q = h.files.at? q
  fewer : ∀ q, h'.files.at? q = h.files.at? q ∨ h'.files.at? q = none
  gone : ∀ q, place <+: q → q ≠ place → h'.files.at? q = none
  cwd : h'.cwd = h.cwd
  logging : ∀ level q, Sink.file level (some q) ∈ h'.logging.sinks → Sink.file level (some q) ∈ h.logging.sinks

theorem sink_of_lose {l : Logging} {gone : Location → Bool} {level : Int} {q : Location}
    (hsink : Sink.file level (some q) ∈ (l.lose gone).sinks) : Sink.file level (some q) ∈ l.sinks := by
  obtain ⟨sink, hmem, hkept⟩ := List.mem_map.mp hsink
  cases sink with
  | console n => cases hkept
  | file n place =>
    cases place with
    | none => cases hkept
    | some place =>
      cases hgone : gone place with
      | true =>
        simp only [Option.bind_some, hgone, if_true] at hkept
        cases hkept
      | false =>
        simp only [Option.bind_some, hgone, Bool.false_eq_true, if_false] at hkept
        cases hkept
        exact hmem

variable {h h' : Host} {p : Path} {place : Location} {node : Node}

theorem cleared_clearBelow (h : Host) (place : Location) : h.Cleared ((clearBelow place).on h).2 place where
  files _ hq := FileTree.at?_clear_of_not_below fun hbelow => hq hbelow.1
  fewer q := by
    by_cases hbelow : place <+: q ∧ q ≠ place
    · exact .inr (FileTree.at?_clear_below hbelow.1 hbelow.2)
    · exact .inl (FileTree.at?_clear_of_not_below hbelow)
  gone _ hbelow hne := FileTree.at?_clear_below hbelow hne
  cwd := rfl
  logging _ _ hsink := sink_of_lose hsink

theorem Host.Cleared.erase (hcleared : h.Cleared h' place) (hroot : place ≠ []) :
    h.Cleared { h' with files := h'.files.erase place } place where
  files q hq := by
    have hne : q ≠ place := by
      rintro rfl
      exact hq List.prefix_rfl
    exact (FileTree.at?_erase_of_ne hne).trans (hcleared.files q hq)
  fewer q := by
    by_cases hq : q = place
    · rw [hq]
      exact .inr (FileTree.at?_erase_self hroot)
    · rw [FileTree.at?_erase_of_ne hq]
      exact hcleared.fewer q
  gone q hbelow hne := (FileTree.at?_erase_of_ne hne).trans (hcleared.gone q hbelow hne)
  cwd := hcleared.cwd
  logging := hcleared.logging

theorem removeEmpty_cases (p : Path) (h : Host) : ((removeEmpty p).on h).2 = h ∨
    ∃ place, h.files.locate h.cwd false p = .ok place ∧
      ((removeEmpty p).on h).2 = { h with files := h.files.erase place } := by
  rw [removeEmpty, on_place]
  split
  case isTrue => exact .inl rfl
  case isFalse =>
    cases hplace : h.files.locate h.cwd false p with
    | error errno => exact .inl rfl
    | ok place =>
      dsimp only
      split
      · exact .inl rfl
      · exact .inr ⟨place, rfl, rfl⟩

/-- A directory is cleared. Its path leads to it still when all below has been removed, or leads nowhere. -/
theorem cleared_of_removeTree {locked : Bool} (hnul : hasNul p = false)
    (hfound : h.files.lookup h.cwd false p = .ok (place, .directory locked)) (hroot : place ≠ []) :
    h.Cleared ((removeTree p).on h).2 place := by
  let cleared : Host := ((clearBelow place).on h).2
  have hclear : (clearBelow place).on h = (.ok ⟨⟩, cleared) := rfl
  have hcleared := cleared_clearBelow h place
  rw [removeTree, on_bind_of_ok (on_lookup hnul false h), hfound]
  simp only [if_neg hroot]
  rw [on_bind_of_ok hclear]
  rcases removeEmpty_cases p cleared with hsame | ⟨there, hthere, herased⟩
  · rw [hsame]
    exact hcleared
  · have hplace : there = place :=
      FileTree.locate_of_fewer hcleared.fewer (FileTree.locate_of_lookup hfound).1 hthere
    rw [herased, hplace]
    exact hcleared.erase hroot

/-- Nothing is removed but a directory below the root. -/
theorem removeTree_cases (p : Path) (h : Host) : ((removeTree p).on h).2 = h ∨ ∃ place locked,
    hasNul p = false ∧ h.files.lookup h.cwd false p = .ok (place, .directory locked) ∧ place ≠ [] := by
  cases hnul : hasNul p with
  | true =>
    rw [removeTree, lookup, refuseNul, hnul]
    exact .inl rfl
  | false =>
    by_cases hdirectory : ∃ place locked, h.files.lookup h.cwd false p = .ok (place, .directory locked) ∧ place ≠ []
    · obtain ⟨place, locked, hfound, hroot⟩ := hdirectory
      exact .inr ⟨place, locked, rfl, hfound, hroot⟩
    · refine .inl ?_
      rw [removeTree, on_bind_of_ok (on_lookup hnul false h)]
      cases hfound : h.files.lookup h.cwd false p with
      | error errno => rfl
      | ok found =>
        obtain ⟨place, node⟩ := found
        cases node with
        | directory locked =>
          have hroot : place = [] := by_contra fun hne => hdirectory ⟨place, locked, hfound, hne⟩
          rw [hroot]
          rfl
        | file bytes => rfl
        | socket => rfl
        | link target =>
          dsimp only
          rw [on_bind_of_ok (on_lookup hnul true h)]
          split <;> rfl

/-- After the removal of a copy notes are taken. -/
theorem noted_of_cleanup (hown : p.parts.contains Checkout.directoryName = true) (h : Host) :
    ((removeTree p).on h).2.Noted ((Checkout.cleanup p).on h).2 := by
  rw [Checkout.cleanup, hown]
  simp only [Bool.not_true, Bool.false_eq_true, if_false]
  rw [on_bind_of_ok (on_attempt (removeTree p) h)]
  split
  · exact notes_debug _ _ _
  · exact notes_pure _ _
  · split
    · exact notes_warn _ _ _
    · exact notes_throw _ _

/-- A cleanup removes what a path leads to, if anything, and takes notes. -/
theorem cleanup_cases (p : Path) (h : Host) : h.Noted ((Checkout.cleanup p).on h).2 ∨
    ∃ place node cleared, h.files.lookup h.cwd false p = .ok (place, node) ∧ h.Cleared cleared place ∧
      cleared.Noted ((Checkout.cleanup p).on h).2 := by
  cases hown : p.parts.contains Checkout.directoryName with
  | false =>
    rw [Checkout.cleanup, hown]
    exact .inl (.refl h)
  | true =>
    have hnoted := noted_of_cleanup hown h
    rcases removeTree_cases p h with hsame | ⟨place, locked, hnul, hfound, hroot⟩
    · rw [hsame] at hnoted
      exact .inl hnoted
    · exact .inr ⟨place, _, _, hfound, cleared_of_removeTree hnul hfound hroot, hnoted⟩

/-- What a path leads to is kept when its way passes the removed place by. -/
theorem Host.Holds.cleanup {target : Path} {bytes : List UInt8} (hholds : h.Holds target place bytes)
    (haside : ∀ there node, h.files.lookup h.cwd false p = .ok (there, node) →
      ∀ q ∈ h.files.way h.cwd target, ¬ there <+: q) :
    ((Checkout.cleanup p).on h).2.Holds target place bytes := by
  rcases cleanup_cases p h with hnoted | ⟨there, node, cleared, hfound, hcleared, hnoted⟩
  · exact hholds.noted hnoted
  · have hways := haside there node hfound
    refine Host.Holds.noted ⟨?_, ?_, ?_⟩ hnoted
    · rw [hcleared.cwd, ← hholds.located]
      exact FileTree.locate_congr fun q hq => congrArg (Option.map _) (hcleared.files q (hways q hq))
    · rw [hcleared.files place (hways place (FileTree.mem_way_of_locate hholds.located))]
      exact hholds.bytes
    · exact fun level hsink => hholds.quiet level (hcleared.logging level place hsink)

/-- What lies below the removed directory is found no more. -/
theorem lookup_of_cleanup {target : Path} {locked : Bool} {q : Location} {r : Location × Node}
    (hown : p.parts.contains Checkout.directoryName = true) (hnul : hasNul p = false)
    (hfound : h.files.lookup h.cwd false p = .ok (place, .directory locked)) (hroot : place ≠ [])
    (htarget : h.files.lookup h.cwd true target = .ok (q, node)) (hbelow : place <+: q) (hne : q ≠ place) :
    ((Checkout.cleanup p).on h).2.files.lookup ((Checkout.cleanup p).on h).2.cwd true target ≠ .ok r := by
  intro hlater
  have hnoted := noted_of_cleanup hown h
  have hcleared := cleared_of_removeTree hnul hfound hroot
  rw [hnoted.cwd, hcleared.cwd] at hlater
  rcases hnoted.files.lookup_cases h.cwd true target with ⟨errno, _, hnone⟩ | ⟨there, m, n, hthere, _, _⟩
  · rw [hlater] at hnone
    cases hnone
  · have hbefore := FileTree.lookup_of_more hcleared.fewer hthere
    rw [htarget] at hbefore
    cases hbefore
    obtain ⟨_, hnode⟩ := FileTree.locate_of_lookup hthere
    rw [hcleared.gone q hbelow hne] at hnode
    cases hnode

theorem noNul_of_ensureDirectories (hrun : (ensureDirectories p).on h = (.ok (), h')) : hasNul p = false := by
  cases hnul : hasNul p with
  | false => rfl
  | true =>
    have hrefused : (makeDirectory p).on h = (.error .nulInPath, h) := by
      rw [makeDirectory, on_place, hnul]
      rfl
    have hmade : (attempt (makeDirectory p)).on h = (.ok (.error .nulInPath), h) := by rw [on_attempt, hrefused]
    have hensured : (attempt (ensureDirectory p)).on h = (.ok (.error .nulInPath), h) := by
      rw [on_attempt, ensureDirectory, on_bind_of_ok hmade]
      rfl
    rw [ensureDirectories, makeDirectories, on_bind_of_ok hensured] at hrun
    cases hrun

/-! ## Failing -/

theorem failsBy_removeEmpty (p : Path) : FailsBy (Failure.OfPath p) (removeEmpty p) := by
  intro h f next hrun
  rw [removeEmpty, on_place] at hrun
  split at hrun
  case isTrue hnul =>
    cases hrun
    exact .inl ⟨rfl, hnul⟩
  case isFalse =>
    cases hplace : h.files.locate h.cwd false p with
    | error errno =>
      rw [hplace] at hrun
      cases hrun
      exact .inr rfl
    | ok place =>
      rw [hplace] at hrun
      dsimp only at hrun
      split at hrun <;> cases hrun
      exact .inr rfl

theorem failsBy_removeTree (p : Path) : FailsBy (Failure.OfPath p) (removeTree p) := by
  have hclear : ∀ place, FailsBy (Failure.OfPath p) (clearBelow place) := fun _ => (succeeds_modify _).failsBy _
  refine (failsBy_lookup p false).bind fun found => ?_
  split
  · exact failsBy_throw (.inr rfl)
  · split
    · exact (failsBy_throw (.inr rfl)).bind fun _ => (hclear _).bind fun _ => failsBy_removeEmpty p
    · exact (hclear _).bind fun _ => failsBy_removeEmpty p
  · exact failsBy_throw (.inr rfl)
  · exact failsBy_throw (.inr rfl)
  · refine (failsBy_lookup p true).bind fun target => ?_
    split
    · exact failsBy_throw (.inr rfl)
    · exact failsBy_throw (.inr rfl)
    · exact failsBy_throw (.inr rfl)

/-- A cleanup warns of what the file system refuses. A null character is all that it fails by. -/
theorem failsBy_cleanup (p : Path) : FailsBy
    (fun f => f = .nulInPath ∧ hasNul p = true ∧ p.parts.contains Checkout.directoryName = true) (Checkout.cleanup p) := by
  unfold Checkout.cleanup
  cases hown : p.parts.contains Checkout.directoryName with
  | false => exact failsBy_pure _
  | true =>
    refine (failsBy_removeTree p).attempt_bind (fun _ => (succeeds_debug _ _).failsBy _) fun e he => ?_
    split
    case h_1 heq => cases heq
    case h_2 => exact failsBy_pure _
    case h_3 heq =>
      cases heq
      split
      · exact Succeeds.failsBy (succeeds_log _ _ _) _
      · rename_i htrouble
        exact failsBy_throw (he.elim (fun ⟨hsame, hnul⟩ => ⟨hsame, hnul, rfl⟩) fun hfile => absurd hfile htrouble)

/-- A copy is made in the directory for copies. -/
theorem clone_of_ok {url : String} (hrun : (Checkout.clone url none).on h = (.ok p, h')) :
    p.parts.contains Checkout.directoryName = true ∧ hasNul p = false := by
  unfold Checkout.clone at hrun
  obtain ⟨base, based, _, hrun⟩ := bind_eq_ok hrun
  obtain ⟨nanos, read, _, hrun⟩ := bind_eq_ok hrun
  dsimp only at hrun
  obtain ⟨_, ready, hready, hrun⟩ := bind_eq_ok hrun
  have hnul := noNul_of_ensureDirectories hready
  obtain ⟨_, noted, _, hrun⟩ := bind_eq_ok hrun
  obtain ⟨_, asked, _, hrun⟩ := bind_eq_ok hrun
  rw [on_bind_of_ok (on_get asked)] at hrun
  split at hrun
  case h_1 entries _ =>
    obtain ⟨_, planted, _, hrun⟩ := bind_eq_ok hrun
    obtain ⟨_, last, _, hrun⟩ := bind_eq_ok hrun
    cases hrun
    exact ⟨by simp [Path.child], hnul⟩
  case h_2 fault _ =>
    split at hrun
    · obtain ⟨_, _, _, hrun⟩ := bind_eq_ok hrun
      cases hrun
    · cases hrun

end ClassAtlas
