import ClassAtlas.Proofs.Atlas.Writing
import ClassAtlas.Proofs.Host.Making
/-!
# A document that cannot be written

When writing a document fails, no part of it stays: what was written beside the target is removed again, and only
the directories that were made for it are left.
-/
namespace ClassAtlas

open ClassAtlas.Action

variable {h h' after : Host} {p source target temporary : Path} {place : Location} {bytes : List UInt8} {f : Failure}

/-- Nothing is at the path, also no link. -/
def Host.Vacant (h : Host) (p : Path) : Prop := ∀ found, h.files.lookup h.cwd false p ≠ .ok found

theorem Host.Vacant.congr (hvacant : h.Vacant p) (hfiles : ∀ q, h'.files.at? q = h.files.at? q)
    (hcwd : h'.cwd = h.cwd) : h'.Vacant p := by
  rintro ⟨place, node⟩ hfound
  rw [hcwd] at hfound
  exact hvacant _ (FileTree.lookup_of_more (fun q => .inl (hfiles q)) hfound)

theorem Host.Vacant.noted (hvacant : h.Vacant p) (hnoted : h.Noted h') : h'.Vacant p := by
  intro found hfound
  rw [hnoted.cwd] at hfound
  rcases hnoted.files.lookup_cases h.cwd false p with ⟨errno, _, hnew⟩ | ⟨place, m, n, hold, _, _⟩
  · rw [hnew] at hfound
    cases hfound
  · exact hvacant _ hold

namespace Action

/-! ## Steps that fail -/

theorem writeBytes_failed (hrun : (writeBytes p bytes).on h = (.error f, after)) : after = h ∧ f.OfPath p := by
  rcases bind_eq_error hrun with hopen | ⟨place, opened, _, hrun⟩
  · rw [openPlace, on_place] at hopen
    split at hopen
    case isTrue hnul =>
      cases hopen
      exact ⟨rfl, .inl ⟨rfl, hnul⟩⟩
    case isFalse =>
      cases hplace : h.files.locate h.cwd true p with
      | error errno =>
        rw [hplace] at hopen
        cases hopen
        exact ⟨rfl, .inr rfl⟩
      | ok place =>
        rw [hplace] at hopen
        dsimp only at hopen
        rw [on_bind_of_ok (on_get h)] at hopen
        split at hopen <;> cases hopen <;> exact ⟨rfl, .inr rfl⟩
  · cases hrun

theorem noNul_of_writeBytes (hrun : (writeBytes p bytes).on h = (.ok (), after)) : hasNul p = false := by
  cases hnul : hasNul p with
  | false => rfl
  | true =>
    obtain ⟨place, opened, hopen, _⟩ := bind_eq_ok hrun
    rw [openPlace, on_place, hnul] at hopen
    cases hopen

theorem replaceFile_failed (hrun : (replaceFile source target).on h = (.error f, after)) :
    after = h ∧ (hasNul source = false → hasNul target = false → f.isFileTrouble = true) := by
  rw [replaceFile] at hrun
  cases hnul : hasNul source with
  | true =>
    rw [refuseNul, hnul] at hrun
    cases hrun
    exact ⟨rfl, fun hclean => by cases hclean⟩
  | false =>
    rw [on_bind_of_ok (on_refuseNul hnul h)] at hrun
    cases hnul' : hasNul target with
    | true =>
      rw [refuseNul, hnul'] at hrun
      cases hrun
      exact ⟨rfl, fun _ hclean => by cases hclean⟩
    | false =>
      rw [on_bind_of_ok (on_refuseNul hnul' h), on_bind_of_ok (on_get h)] at hrun
      cases hsrc : h.files.locate h.cwd false source with
      | error errno =>
        rw [hsrc] at hrun
        cases hrun
        exact ⟨rfl, fun _ _ => rfl⟩
      | ok src =>
        cases hdst : h.files.locate h.cwd false target with
        | error errno =>
          rw [hsrc, hdst] at hrun
          cases hrun
          exact ⟨rfl, fun _ _ => rfl⟩
        | ok dst =>
          rw [hsrc, hdst] at hrun
          dsimp only at hrun
          split at hrun
          case isTrue =>
            cases hrun
            exact ⟨rfl, fun _ _ => rfl⟩
          case isFalse =>
            split at hrun
            case h_1 =>
              cases hrun
              exact ⟨rfl, fun _ _ => rfl⟩
            case h_2 =>
              split at hrun
              · split at hrun <;> cases hrun <;> exact ⟨rfl, fun _ _ => rfl⟩
              · split at hrun
                · cases hrun
                  exact ⟨rfl, fun _ _ => rfl⟩
                · split at hrun <;> cases hrun

/-- A file does not take the place of a directory. -/
theorem replaceFile_over_directory {src dst : Location} {locked : Bool} (hnul : hasNul source = false)
    (hnul' : hasNul target = false) (hsrc : h.files.locate h.cwd false source = .ok src)
    (hdst : h.files.locate h.cwd false target = .ok dst) (hfile : h.files.at? src = some (.file bytes))
    (hdirectory : h.files.at? dst = some (.directory locked)) :
    ∃ errno, (replaceFile source target).on h =
      (.error (.file (.system errno (.move source.toString target.toString))), h) := by
  rw [replaceFile, on_bind_of_ok (on_refuseNul hnul h), on_bind_of_ok (on_refuseNul hnul' h), on_bind_of_ok (on_get h),
    hsrc, hdst]
  dsimp only
  split
  · exact ⟨_, rfl⟩
  · rw [hfile, hdirectory]
    exact ⟨_, rfl⟩

theorem removeFile_of_vacant (hvacant : h.Vacant p) : ((removeFile p).on h).2 = h := by
  cases hnul : hasNul p with
  | true =>
    rw [removeFile, lookup, refuseNul, hnul]
    rfl
  | false =>
    rw [removeFile, on_bind_of_ok (on_lookup hnul false h)]
    cases hlookup : h.files.lookup h.cwd false p with
    | error errno => cases errno <;> rfl
    | ok found => exact absurd hlookup (hvacant found)

theorem on_removeFile (hnul : hasNul p = false) (hfile : h.files.lookup h.cwd false p = .ok (place, .file bytes)) :
    (removeFile p).on h =
      (.ok (), { h with files := h.files.erase place, logging := h.logging.lose (· == place) }) := by
  rw [removeFile, on_bind_of_ok (on_lookup hnul false h), hfile]
  rfl

theorem failsBy_removeFile (p : Path) : FailsBy (Failure.OfPath p) (removeFile p) := by
  refine (failsBy_lookup p false).bind fun found => ?_
  split
  · exact failsBy_pure _
  · exact failsBy_throw (.inr rfl)
  · exact failsBy_throw (.inr rfl)
  · exact (succeeds_modify _).failsBy _

/-- What was written to a vacant path and is removed again leaves no trace. -/
theorem removeFile_of_writeBytes {wrote : Host} (hvacant : h.Vacant p)
    {name : String} (hparts : p.parts = p.parent.parts ++ [name]) (hdots : name ≠ "..")
    (hwrite : (writeBytes p bytes).on h = (.ok (), wrote)) :
    (∀ q, ((removeFile p).on wrote).2.files.at? q = h.files.at? q) ∧ ((removeFile p).on wrote).2.cwd = h.cwd := by
  have hnul := noNul_of_writeBytes hwrite
  obtain ⟨there, hthere, hwrote⟩ := writeBytes_of_ok hwrite
  obtain ⟨k, here, hlast⟩ := FileTree.LastIn.of_locate hparts hdots hthere
  have hmissing : h.files.at? (here ++ [name]) = none := by
    by_contra hsome
    obtain ⟨node, hnode⟩ := Option.ne_none_iff_exists'.mp hsome
    exact hvacant _ (FileTree.lookup_of_node hlast.locate_self hnode)
  have hplace : h.files.locate h.cwd true p = .ok (here ++ [name]) :=
    hlast.locate_eq fun _ target hlink => by cases hmissing.symm.trans hlink
  obtain rfl : there = here ++ [name] := Except.ok.inj (hthere.symm.trans hplace)
  have hfound := FileTree.lookup_of_node (hwrote.lastIn hlast).locate_self hwrote.written
  rw [on_removeFile hnul hfound]
  refine ⟨fun q => ?_, hwrote.cwd⟩
  by_cases hq : q = here ++ [name]
  · rw [hq, hmissing]
    exact FileTree.at?_erase_self (by simp)
  · exact (FileTree.at?_erase_of_ne hq).trans (hwrote.others q hq)

end Action

namespace Snapshot

/-- Where the directories for a document cannot be made, its temporary place stays vacant. -/
theorem vacant_of_refused (hh : h.files.Housed h.cwd) (htemporary : temporaryPath? target = some temporary)
    (hvacant : h.Vacant temporary) (hrefused : (ensureDirectories target.parent).on h = (.error f, after)) :
    after.Vacant temporary := by
  obtain ⟨hextends, hleads⟩ := makeDirectories_spec hh hrefused
  obtain ⟨_, hparent, htparts⟩ := parts_of_temporaryPath htemporary
  cases hnul : hasNul target.parent with
  | true =>
    have hsame : ensureDirectories target.parent = makeDirectories target.parent _ := rfl
    rw [hsame, makeDirectories_of_nul hnul] at hrefused
    cases hrefused
    exact hvacant
  | false =>
    rintro ⟨place, node⟩ hfound
    have habove := hextends.housed.lookup_parent hfound (by rw [htparts]; simp)
    rw [hparent] at habove
    cases (hleads hnul).mpr habove

/-- When a document cannot be moved from its temporary place, removing it there leaves the files as they were. When
it is not removed, nothing was written. -/
theorem undone_of_failed (htemporary : temporaryPath? target = some temporary) (hvacant : h.Vacant temporary)
    (hrun : (writeBytes temporary bytes >>= fun _ => replaceFile temporary target).on h = (.error f, after)) :
    (∀ q, ((removeFile temporary).on after).2.files.at? q = h.files.at? q) ∧
      ((removeFile temporary).on after).2.cwd = h.cwd ∧ (f.isFileTrouble = false → after = h) := by
  rcases bind_eq_error hrun with hwrite | ⟨_, wrote, hwrite, hreplace⟩
  · obtain ⟨rfl, _⟩ := writeBytes_failed hwrite
    rw [removeFile_of_vacant hvacant]
    exact ⟨fun _ => rfl, rfl, fun _ => rfl⟩
  · obtain ⟨rfl, htrouble⟩ := replaceFile_failed hreplace
    have hnul := noNul_of_writeBytes hwrite
    obtain ⟨_, _, htparts⟩ := parts_of_temporaryPath htemporary
    obtain ⟨hfiles, hcwd⟩ := removeFile_of_writeBytes hvacant htparts (temporaryName_ne_dots _) hwrite
    refine ⟨hfiles, hcwd, fun hother => ?_⟩
    cases hother.symm.trans (htrouble hnul ((hasNul_temporary htemporary).symm.trans hnul))

/-- The directories were made, as far as possible, and nothing else is there that was not there before. -/
theorem write_failed {s : Snapshot} (hh : h.files.Housed h.cwd) (hrun : (s.write target).on h = (.error f, after))
    (hvacant : ∀ temporary ∈ temporaryPath? target, h.Vacant temporary)
    (hready : ∀ temporary ∈ temporaryPath? target, ∀ ready,
      (ensureDirectories target.parent).on h = (.ok (), ready) → ready.Vacant temporary) :
    ∃ made, Extends h made target.parent ∧ (∀ temporary ∈ temporaryPath? target, made.Vacant temporary) ∧
      (∀ q, after.files.at? q = made.files.at? q) ∧ after.cwd = made.cwd := by
  rw [write] at hrun
  cases hlong : s.toJson.hasLongNumber with
  | true =>
    rw [hlong] at hrun
    cases hrun
    exact ⟨h, .refl hh _, hvacant, fun _ => rfl, rfl⟩
  | false =>
    rw [hlong] at hrun
    rcases bind_eq_error hrun with hrefused | ⟨_, ready, hensured, hrun⟩
    · obtain ⟨hextends, _⟩ := makeDirectories_spec hh hrefused
      exact ⟨after, hextends, fun temporary htemporary =>
        vacant_of_refused hh htemporary (hvacant temporary htemporary) hrefused, fun _ => rfl, rfl⟩
    · obtain ⟨hextends, _⟩ := makeDirectories_spec hh hensured
      cases htemporary : temporaryPath? target with
      | none =>
        rw [htemporary] at hrun
        cases hrun
        exact ⟨_, hextends, fun temporary hsome => (by cases hsome), fun _ => rfl, rfl⟩
      | some temporary =>
        have hfree := hready temporary htemporary ready hensured
        refine ⟨ready, hextends, fun other hother => by cases hother; exact hfree, ?_⟩
        rw [htemporary] at hrun
        dsimp only at hrun
        rw [on_bind_of_ok (on_attempt _ ready)] at hrun
        cases hmove : (writeBytes temporary (Utf8.encode s.text) >>= fun _ => replaceFile temporary target).on ready with
        | mk r last =>
          rw [hmove] at hrun
          cases r with
          | ok u => cases hrun
          | error f' =>
            obtain ⟨hfiles, hcwd, huntouched⟩ := undone_of_failed htemporary hfree hmove
            cases htrouble : f'.isFileTrouble with
            | true =>
              simp only [htrouble] at hrun
              have hafter : after = ((removeFile temporary).on last).2 := by
                rcases bind_eq_error hrun with hremoved | ⟨_, _, hremoved, hrun⟩
                · rw [hremoved]
                · cases hrun
                  rw [hremoved]
              rw [hafter]
              exact ⟨hfiles, hcwd⟩
            | false =>
              simp only [htrouble] at hrun
              cases hrun
              rw [huntouched htrouble]
              exact ⟨fun _ => rfl, rfl⟩

/-- What can keep a document from being written, apart from what the file system refuses. -/
theorem write_failed_cases {s : Snapshot} (hrun : (s.write target).on h = (.error f, after)) : f.OfPath target ∨
    (f = .noName target.toString ∧ target.name = "") ∨
    (f = .value (.numeral .manyDigitsWritten) ∧ s.toJson.hasLongNumber = true) := by
  rw [write] at hrun
  cases hlong : s.toJson.hasLongNumber with
  | true =>
    rw [hlong] at hrun
    cases hrun
    exact .inr (.inr ⟨rfl, rfl⟩)
  | false =>
    rw [hlong] at hrun
    rcases bind_eq_error hrun with hrefused | ⟨_, ready, _, hrun⟩
    · exact .inl ((failsBy_ensureDirectories _ _ _ _ hrefused).of_hasNul hasNul_of_parent)
    cases htemporary : temporaryPath? target with
    | none =>
      rw [htemporary] at hrun
      cases hrun
      refine .inr (.inl ⟨rfl, ?_⟩)
      by_contra hnamed
      rw [temporaryPath?, Path.withName?, if_neg hnamed] at htemporary
      cases htemporary
    | some temporary =>
      have htarget : ∀ {f : Failure}, f.OfPath temporary → f.OfPath target := fun hf =>
        hf.of_hasNul (hasNul_temporary htemporary).symm.trans
      have hmove : FailsBy (Failure.OfPath target)
          (writeBytes temporary (Utf8.encode s.text) >>= fun _ => replaceFile temporary target) := by
        intro ready f last hfailed
        rcases bind_eq_error hfailed with hwrite | ⟨_, wrote, hwrite, hreplace⟩
        · exact htarget (writeBytes_failed hwrite).2
        · have hnul := noNul_of_writeBytes hwrite
          exact .inr ((replaceFile_failed hreplace).2 hnul ((hasNul_temporary htemporary).symm.trans hnul))
      rw [htemporary] at hrun
      dsimp only at hrun
      refine .inl ((hmove.attempt_bind ?_ ?_) ready f after hrun)
      · exact fun _ => failsBy_pure _
      intro e he
      dsimp only
      split
      · exact ((failsBy_removeFile temporary).mono fun _ => htarget).bind fun _ => failsBy_throw he
      · exact failsBy_throw he

/-- A document is not written over a directory. What was at its temporary place is lost. -/
theorem write_over_directory {s : Snapshot} {ready : Host} {k : Nat} {here : Location}
    (hnumbers : s.toJson.hasLongNumber = false) (hensured : (ensureDirectories target.parent).on h = (.ok (), ready))
    (htemporary : temporaryPath? target = some temporary) (hnul : hasNul temporary = false)
    (hbeside : ready.files.LastIn ready.cwd temporary (temporaryName target.name) k here)
    (hfree : ready.files.Free (here ++ [temporaryName target.name]))
    (hlast : ready.files.LastIn ready.cwd target target.name k here)
    (hdirectory : ready.files.DirectoryAt (here ++ [target.name])) :
    ∃ f after, (s.write target).on h = (.error f, after) ∧
      after.files.at? (here ++ [temporaryName target.name]) = none ∧
      ∀ q, q ≠ here ++ [temporaryName target.name] → after.files.at? q = ready.files.at? q := by
  obtain ⟨locked, hthere⟩ := hdirectory
  have hplace : ready.files.locate ready.cwd true temporary = .ok (here ++ [temporaryName target.name]) := by
    refine hbeside.locate_eq fun _ link hlink => ?_
    rcases hfree with hnone | ⟨bytes, hfile⟩
    · cases hnone.symm.trans hlink
    · cases hfile.symm.trans hlink
  obtain ⟨_, wrote, hwrite⟩ : (writeBytes temporary (Utf8.encode s.text)).Returns ready :=
    writeBytes_returns hnul hplace hfree
  obtain ⟨there, hwritten, hwrote⟩ := writeBytes_of_ok hwrite
  obtain rfl := Except.ok.inj (hwritten.symm.trans hplace)
  have hkept : wrote.files.at? (here ++ [target.name]) = some (.directory locked) := by
    rw [hwrote.others _ fun hsame => ?_, hthere]
    exact temporaryName_ne target.name (List.singleton_inj.mp (List.append_cancel_left hsame)).symm
  obtain ⟨errno, hreplace⟩ := replaceFile_over_directory hnul ((hasNul_temporary htemporary).symm.trans hnul)
    (hwrote.lastIn hbeside).locate_self (hwrote.lastIn hlast).locate_self hwrote.written hkept
  have hmove : (writeBytes temporary (Utf8.encode s.text) >>= fun _ => replaceFile temporary target).on ready =
      (.error (.file (.system errno (.move temporary.toString target.toString))), wrote) := by
    rw [on_bind_of_ok hwrite, hreplace]
  have hremoved := on_removeFile hnul (FileTree.lookup_of_node (hwrote.lastIn hbeside).locate_self hwrote.written)
  refine ⟨.file (.system errno (.move temporary.toString target.toString)),
    { wrote with
      files := wrote.files.erase (here ++ [temporaryName target.name])
      logging := wrote.logging.lose (· == here ++ [temporaryName target.name]) }, ?_, ?_, fun q hq => ?_⟩
  · rw [write, hnumbers]
    simp only [Bool.false_eq_true, if_false]
    rw [on_bind_of_ok hensured, htemporary]
    dsimp only
    rw [on_bind_of_ok (on_attempt _ ready), hmove]
    show (removeFile temporary >>= fun _ => throw _).on wrote = _
    rw [on_bind_of_ok hremoved]
    rfl
  · exact FileTree.at?_erase_self (by simp)
  · exact (FileTree.at?_erase_of_ne hq).trans (hwrote.others q hq)

end Snapshot
end ClassAtlas
