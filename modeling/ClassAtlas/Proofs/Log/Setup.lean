import ClassAtlas.Log.Setup
import ClassAtlas.Proofs.Host.Directories
/-!
# What setting up the log changes

Setting up the log makes at most the log file and the directories above it. What is there already stays.
-/
namespace ClassAtlas

open ClassAtlas.Action

variable {h h' h'' : Host} {names : List String} {p : Path}

/-- Files and directories have been made, the directories with certain names, and nothing else has changed but the
log. -/
structure Host.Prepares (names : List String) (h h' : Host) : Prop where
  kept : ∀ {q node}, h.files.at? q = some node → h'.files.at? q = some node
  made : ∀ {q node}, h.files.at? q = none → h'.files.at? q = some node → node.isLink = false
  spreads : h.Spreads names h'
  housed : h'.files.Housed h'.cwd
  git : h'.git = h.git
  nanos : h'.nanos = h.nanos

namespace Host.Prepares

/-- Nothing changes but the log. -/
theorem of_files (hh : h.files.Housed h.cwd) (files : h'.files = h.files) (cwd : h'.cwd = h.cwd) (git : h'.git = h.git)
    (nanos : h'.nanos = h.nanos) : h.Prepares names h' where
  kept hnode := by rwa [files]
  made hnone hnode := by
    rw [files] at hnode
    cases hnone.symm.trans hnode
  spreads := .of_iff (fun q => by rw [files]) cwd
  housed := by rwa [files, cwd]
  git := git
  nanos := nanos

theorem trans (hh : h.Prepares names h') (hh' : h'.Prepares names h'') : h.Prepares names h'' where
  kept hnode := hh'.kept (hh.kept hnode)
  made {q node} hnone hnode := by
    cases hmiddle : h'.files.at? q with
    | none => exact hh'.made hmiddle hnode
    | some old =>
      cases (hh'.kept hmiddle).symm.trans hnode
      exact hh.made hnone hmiddle
  spreads := hh.spreads.trans hh'.spreads
  housed := hh'.housed
  git := hh'.git.trans hh.git
  nanos := hh'.nanos.trans hh.nanos

/-- A link that is there then was there before. -/
theorem link_before (hh : h.Prepares names h') {q : Location} {target : String}
    (hlink : h'.files.at? q = some (.link target)) : h.files.at? q = some (.link target) := by
  cases hbefore : h.files.at? q with
  | none => cases hh.made hbefore hlink
  | some node => rw [← hlink, hh.kept hbefore]

end Host.Prepares

namespace Action

theorem ensureDirectories_prepares {r : Except Failure Unit} (hh : h.files.Housed h.cwd)
    (hrun : (ensureDirectories p).on h = (r, h')) : h.Prepares p.parts h' := by
  obtain ⟨hextends, _⟩ := makeDirectories_spec hh hrun
  refine ⟨hextends.kept, fun hnone hnode => ?_, (makeDirectories_spreads hh.rooted hrun).1, hextends.housed, ?_, ?_⟩
  · rw [(hextends.made hnone hnode).1]
    rfl
  · rw [hextends.same]
  · rw [hextends.same]

/-- A file that is put where a path leads stands in a directory. -/
theorem openPlace_prepares {r : Except Failure Location} (hh : h.files.Housed h.cwd)
    (hrun : (openPlace p).on h = (r, h')) : h.Prepares names h' := by
  rcases openPlace_cases hrun with rfl | ⟨place, hplace, hnone, rfl⟩
  · exact .of_files hh rfl rfl rfl rfl
  rw [FileTree.locate] at hplace
  split at hplace
  case isTrue => cases hplace
  case isFalse =>
    rcases hh.followed.walk _ _ _ (hh.followed.origin p) hplace with ⟨locked, hdirectory⟩ | ⟨above, name, rfl, habove⟩
    · cases hnone.symm.trans hdirectory
    have hapart : ∀ {q node}, h.files.at? q = some node → q ≠ above ++ [name] := by
      rintro q node hnode rfl
      cases hnone.symm.trans hnode
    refine ⟨fun hnode => (FileTree.at?_put_of_ne (hapart hnode)).trans hnode, fun {q node} hfree hnode => ?_, ?_,
      hh.put habove hnone _, rfl, rfl⟩
    · by_cases hq : q = above ++ [name]
      · rw [hq, FileTree.at?_put_self (by simp)] at hnode
        cases hnode
        rfl
      · cases hfree.symm.trans ((FileTree.at?_put_of_ne hq).symm.trans hnode)
    · exact .of_iff (fun q => FileTree.directoryAt_put_iff (by rw [hnone]; rfl) rfl) rfl

end Action

namespace Logging

/-- The console is set up first, and then the file is opened. -/
theorem on_configure_some (verbose : Bool) (given : Path) (h : Host) : (configure verbose (some given)).on h =
    (openFile given >>= fun place => modify fun h =>
      { h with
        logging := { h.logging with sinks := h.logging.sinks ++ [.file (levelOf verbose) (some place)] } }).on
      { h with logging := console verbose } := by
  have hbegun : on (modify fun h => { h with logging := console verbose }) h =
    (.ok ⟨⟩, { h with logging := console verbose }) := rfl
  unfold configure
  rw [on_bind_of_ok hbegun]

/-- Without a file there is nothing about setting up the log that fails. -/
theorem configure_failed {verbose : Bool} {file : Option Path} {f : Failure}
    (hrun : (configure verbose file).on h = (.error f, h')) : ∃ given left, file = some given ∧
      (openFile given).on { h with logging := console verbose } = (.error f, left) := by
  cases file with
  | none => cases hrun
  | some given =>
    rw [on_configure_some] at hrun
    rcases bind_eq_error hrun with hrefused | ⟨_, _, _, hrest⟩
    · exact ⟨given, h', rfl, hrefused⟩
    · cases hrest

/-- The directories that are made have names of the path above the log file. -/
theorem configure_prepares {verbose : Bool} {file : Option Path} {r : Except Failure Unit} (hh : h.files.Housed h.cwd)
    (hrun : (configure verbose file).on h = (r, h')) : h.Prepares [] h' ∨
      ∃ given p, file = some given ∧ (expandHome given).on h = (.ok p, h) ∧ h.Prepares p.parent.parts h' := by
  let begun : Host := { h with logging := console verbose }
  cases file with
  | none =>
    obtain rfl : begun = h' := (Prod.mk.inj hrun).2
    exact .inl (.of_files hh rfl rfl rfl rfl)
  | some given =>
    have hstarts : ∀ {names}, h.Prepares names begun := .of_files hh rfl rfl rfl rfl
    rw [on_configure_some, openFile, bind_assoc] at hrun
    rcases (asks_expandHome given).bind_cases hrun with rfl | ⟨p, hexpanded, hrun⟩
    · exact .inl hstarts
    have hgiven : (expandHome given).on h = (.ok p, h) := by
      have hanswer := @expandHome_congr h begun rfl rfl given
      rw [hexpanded] at hanswer
      exact Prod.ext hanswer.symm (asks_expandHome given h)
    refine .inr ⟨given, p, rfl, hgiven, hstarts.trans ?_⟩
    rw [bind_assoc] at hrun
    rcases bind_cases hrun with ⟨e, hrefused, _⟩ | ⟨_, ready, hensured, hrun⟩
    · exact (ensureDirectories_prepares (h := begun) hh hrefused)
    have hready := ensureDirectories_prepares (h := begun) hh hensured
    refine hready.trans ?_
    have hcwd : cwd.on ready = (.ok (pathOf ready.cwd), ready) := rfl
    rw [bind_assoc, on_bind_of_ok hcwd] at hrun
    rcases bind_cases hrun with ⟨e, hrefused, _⟩ | ⟨place, opened, hopened, hrun⟩
    · exact openPlace_prepares hready.housed hrefused
    have hopen := @openPlace_prepares ready _ p.parent.parts _ _ hready.housed hopened
    cases hrun
    exact hopen.trans (.of_files hopen.housed rfl rfl rfl rfl)

end Logging
end ClassAtlas
