import ClassAtlas.Proofs.Generation.Stopping
/-!
# When generating goes well

In a project without a repository and without a manifest nothing can end the work on the files: each is
taken or passed over, and a snapshot is put together.
-/
namespace ClassAtlas

open ClassAtlas.Action

variable {h h' : Host} {path root : Path} {s : HistorySettings}

/-- Version control knows no file, or is not there. -/
def VersionControl.KnowsNothing (g : VersionControl) : Prop :=
  ∀ file, ∃ fault, g.commits file = .error fault ∧ fault.isTolerated = true

theorem VersionControl.KnowsNothing.tolerable {g : VersionControl} (hg : g.KnowsNothing) : History.Tolerable g := by
  intro name fault hfault
  obtain ⟨known, hknown, htolerated⟩ := hg name
  rcases hfault with hfault | ⟨⟨_, hcommits⟩, _⟩
  · cases hknown.symm.trans hfault
    exact htolerated
  · cases hknown.symm.trans hcommits

namespace Generation

/-- What is not there cannot stop the reading of a manifest. -/
theorem not_untold_of_missing (hnul : hasNul (root.child Manifest.fileName) = false)
    (hmissing : (pathExists (root.child Manifest.fileName)).on h = (.ok false, h)) (f : Failure) :
    ¬ Manifest.Untold h root f := by
  have hprobe := on_probe hnul true (fun _ => true) h
  intro hu
  cases hu with
  | long unseen =>
    rw [unseen] at hprobe
    cases hmissing.symm.trans hprobe
  | deep found =>
    rw [found] at hprobe
    cases hmissing.symm.trans hprobe
  | digits found =>
    rw [found] at hprobe
    cases hmissing.symm.trans hprobe

theorem not_stalls_of_knowsNothing (hgit : h.git.KnowsNothing) (hunder : (path.relativeTo? root).isSome)
    (f : Failure) : ¬ Stalls h s root path f := by
  rintro (⟨_, apart⟩ | ⟨_, _, moment, ⟨relative, commits, _, _, hcommits, _⟩, _⟩)
  · rw [apart] at hunder
    cases hunder
  · obtain ⟨fault, hfault, _⟩ := hgit relative.toString
    cases hfault.symm.trans hcommits

theorem under_of_mem_listing (ht : h.files.WellFormed) {place p : Location} (hp : p ∈ h.files.listing place) :
    ((pathOf p).relativeTo? (pathOf place)).isSome := by
  obtain ⟨rest, rfl⟩ := ht.prefix_of_mem_listing hp
  have hbegins : (pathOf place).parts.isPrefixOf (pathOf (place ++ rest)).parts = true :=
    List.isPrefixOf_iff_prefix.mpr (List.prefix_append _ _)
  rw [Path.relativeTo?, if_pos ⟨rfl, hbegins⟩]
  rfl

theorem ofSettings_returns {place : Location} {q : Request} {settings : Settings} (ht : h.files.WellFormed)
    (hroot : Discovery.LeadsTo h (pathOf place).toString place) (hgit : h.git.KnowsNothing)
    (hmanifest : (pathExists ((pathOf place).child Manifest.fileName)).on h = (.ok false, h))
    (hclock : h.now.stamp?.isSome) (ids : Ids) : (ofSettings ids (pathOf place) q settings).Returns h := by
  have hnul : hasNul ((pathOf place).child Manifest.fileName) = false :=
    hasNul_path_child (found_of_probe hroot.directory).1 (by decide)
  obtain ⟨noted, hnoted, hhinges⟩ := exists_hingesOn_ofSettings ht hroot hgit.tolerable hnul ids q settings
  rcases hhinges with ⟨hreturns, _⟩ | ⟨f, _, _, hstops⟩
  · exact hreturns
  exfalso
  cases hstops with
  | @file p _ listed _ stalls =>
    have hunder := under_of_mem_listing (hnoted.wellFormed ht) listed
    exact not_stalls_of_knowsNothing (by rw [hnoted.git]; exact hgit) hunder f stalls
  | manifest untold =>
    have hmissing := (steady_pathExists _).on_noted (asks_probe _ _ _) hnoted ht hmanifest
    exact not_untold_of_missing hnul hmissing f untold
  | clock unstamped =>
    rw [hnoted.now] at unstamped
    rw [unstamped] at hclock
    cases hclock

/-! ## A plain project -/

/-- A directory without a manifest in it, where its own path leads. -/
structure Plain (h : Host) (place : Location) : Prop where
  directory : ∃ locked, h.files.at? place = some (.directory locked)
  noManifest : h.files.at? (place ++ [Manifest.fileName]) = none
  resolved : h.files.resolve h.cwd (pathOf place) = place
  settingsResolved : h.files.resolve h.cwd (pathOf (place ++ [settingsFile])) = place ++ [settingsFile]
  short : ∀ names ∈ [[], [settingsFile], [Manifest.fileName]],
    (pathOf (place ++ names)).toString.utf8ByteSize ≤ FileTree.maxPathBytes

/-- A plain project without settings. -/
structure Bare (h : Host) (place : Location) : Prop extends Plain h place where
  noSettings : h.files.at? (place ++ [settingsFile]) = none

namespace Plain

variable {place : Location}

theorem on_missing (hplain : Plain h place) (ht : h.files.WellFormed) {name : String}
    (hname : name ∈ [settingsFile, Manifest.fileName]) (hmissing : h.files.at? (place ++ [name]) = none) :
    hasNul (pathOf (place ++ [name])) = false ∧
      h.files.lookup h.cwd true (pathOf (place ++ [name])) = .error .noEntry := by
  obtain ⟨locked, hdirectory⟩ := hplain.directory
  have hproper : FileTree.IsName name := by
    simp only [List.mem_cons, List.not_mem_nil, or_false] at hname
    rcases hname with rfl | rfl <;> decide
  have hshort := hplain.short [name] (by simpa using hname)
  exact ⟨hasNul_child ht hdirectory hproper, lookup_pathOf_missing ht hdirectory hproper hmissing hshort h.cwd true⟩

theorem pathExists_missing (hplain : Plain h place) (ht : h.files.WellFormed) {name : String}
    (hname : name ∈ [settingsFile, Manifest.fileName]) (hmissing : h.files.at? (place ++ [name]) = none) :
    (pathExists (pathOf (place ++ [name]))).on h = (.ok false, h) := by
  obtain ⟨hnul, hlookup⟩ := hplain.on_missing ht hname hmissing
  rw [pathExists, on_probe hnul, hlookup]

theorem found (hplain : Plain h place) (ht : h.files.WellFormed) : hasNul (pathOf place) = false ∧
    ∃ locked, h.files.lookup h.cwd true (pathOf place) = .ok (place, .directory locked) := by
  obtain ⟨locked, hdirectory⟩ := hplain.directory
  have hshort := hplain.short [] List.mem_cons_self
  rw [List.append_nil] at hshort
  exact ⟨hasNul_pathOf ht hdirectory, locked, lookup_pathOf ht hdirectory rfl hshort h.cwd true⟩

theorem on_resolve_root (hplain : Plain h place) (ht : h.files.WellFormed) :
    (resolve (pathOf place)).on h = (.ok (pathOf place), h) := by
  obtain ⟨hnul, locked, hfound⟩ := hplain.found ht
  refine on_resolve hnul hplain.resolved ?_
  rw [hfound]
  exact fun hloop => by cases hloop

theorem on_rootOf (hplain : Plain h place) (ht : h.files.WellFormed) :
    (rootOf (pathOf place)).on h = (.ok (pathOf place), h) := by
  obtain ⟨hnul, locked, hfound⟩ := hplain.found ht
  have hexpanded : (expandHome (pathOf place)).on h = (.ok (pathOf place), h) := rfl
  have hexists := on_probe_of_found hnul hfound fun _ => true
  rw [rootOf, on_bind_of_ok hexpanded, on_bind_of_ok (hplain.on_resolve_root ht), pathExists, on_bind_of_ok hexists]
  rfl

theorem leadsTo (hplain : Plain h place) (ht : h.files.WellFormed) :
    Discovery.LeadsTo h (pathOf place).toString place := by
  obtain ⟨locked, hdirectory⟩ := hplain.directory
  obtain ⟨hnul, _, hfound⟩ := hplain.found ht
  have hback : Path.ofString (pathOf place).toString = pathOf place :=
    Path.ofString_toString_root (ht.isName_of_mem hdirectory)
  refine ⟨⟨pathOf place, ?_, hplain.on_resolve_root ht⟩, on_probe_of_found hnul hfound Node.isDirectory⟩
  rw [hback]
  rfl

theorem on_filePath (hplain : Plain h place) (ht : h.files.WellFormed)
    (hend : h.files.lookup h.cwd true (pathOf (place ++ [settingsFile])) ≠ .error .linkLoop) :
    (Settings.filePath (pathOf place)).on h = (.ok (pathOf (place ++ [settingsFile])), h) ∧
      (resolve (pathOf (place ++ [settingsFile])).parent).on h = (.ok (pathOf place), h) := by
  obtain ⟨hnul, locked, hfound⟩ := hplain.found ht
  obtain ⟨_, hdirectory⟩ := hplain.directory
  have hnul' : hasNul (pathOf (place ++ [settingsFile])) = false := hasNul_child ht hdirectory (by decide)
  have hexpanded : (expandHome (pathOf place)).on h = (.ok (pathOf place), h) := rfl
  have hisDirectory := on_probe_of_found hnul hfound Node.isDirectory
  have hchild : (pathOf place).child settingsFile = pathOf (place ++ [settingsFile]) := rfl
  constructor
  · rw [Settings.filePath, on_bind_of_ok hexpanded, isDirectory, on_bind_of_ok hisDirectory, hchild]
    exact on_resolve hnul' hplain.settingsResolved hend
  · rw [parent_child]
    exact hplain.on_resolve_root ht

/-- The text of the settings file of a plain project is read. -/
theorem on_readText (hplain : Plain h place) (ht : h.files.WellFormed) {bytes : List UInt8} {text : List Char}
    (hfile : h.files.at? (place ++ [settingsFile]) = some (.file bytes)) (htext : Utf8.decode bytes = .ok text) :
    (pathExists (pathOf (place ++ [settingsFile]))).on h = (.ok true, h) ∧
      (Settings.filePath (pathOf place)).on h = (.ok (pathOf (place ++ [settingsFile])), h) ∧
      (resolve (pathOf (place ++ [settingsFile])).parent).on h = (.ok (pathOf place), h) ∧
      (Settings.readText (pathOf (place ++ [settingsFile]))).on h = (.ok (Text.unifyLineEnds text), h) := by
  obtain ⟨_, hdirectory⟩ := hplain.directory
  have hnul : hasNul (pathOf (place ++ [settingsFile])) = false := hasNul_child ht hdirectory (by decide)
  have hlooked := lookup_pathOf ht hfile rfl (hplain.short [settingsFile] (by simp)) h.cwd true
  obtain ⟨hplaced, hroot⟩ := hplain.on_filePath ht (by rw [hlooked]; exact fun hloop => by cases hloop)
  have hbytes : (readBytes (pathOf (place ++ [settingsFile]))).on h = (.ok bytes, h) := by
    rw [on_readBytes hnul, hlooked]
  refine ⟨on_probe_of_found hnul hlooked fun _ => true, hplaced, hroot, ?_⟩
  rw [Settings.readText, on_bind_of_ok (on_attempt _ h), hbytes]
  simp only [htext]
  rfl

/-- The settings of a plain project are those that the text in its settings file gives. -/
theorem on_load_eq (hplain : Plain h place) (ht : h.files.WellFormed) {bytes : List UInt8} {text : List Char}
    (hfile : h.files.at? (place ++ [settingsFile]) = some (.file bytes)) (htext : Utf8.decode bytes = .ok text) :
    (Settings.load (pathOf place)).on h =
      (Settings.ofText settingsFile (pathOf place) (Text.unifyLineEnds text), h) := by
  obtain ⟨hexists, hplaced, hroot, hread⟩ := hplain.on_readText ht hfile htext
  rw [Settings.load, on_bind_of_ok hplaced, on_bind_of_ok hroot, on_bind_of_ok hexists]
  show (Settings.readText _ >>= _).on h = _
  rw [on_bind_of_ok hread, name_child]
  rfl

theorem on_load (hplain : Plain h place) (ht : h.files.WellFormed) {bytes : List UInt8} {text : List Char}
    {s : Settings} (hfile : h.files.at? (place ++ [settingsFile]) = some (.file bytes))
    (htext : Utf8.decode bytes = .ok text)
    (hgiven : Settings.ofText settingsFile (pathOf place) (Text.unifyLineEnds text) = .ok s) :
    (Settings.load (pathOf place)).on h = (.ok s, h) := by
  rw [hplain.on_load_eq ht hfile htext, hgiven]

theorem generate_returns {q : Request} {s : Settings} (hplain : Plain h place) (ht : h.files.WellFormed)
    (hload : (Settings.load (pathOf place)).on h = (.ok s, h)) (hq : Path.ofString q.path = pathOf place)
    (hgit : h.git.KnowsNothing) (hclock : h.now.stamp?.isSome) (ids : Ids) : (generate ids q).Returns h := by
  have hmanifest := hplain.pathExists_missing ht (by simp) hplain.noManifest
  obtain ⟨g, after, hrun⟩ := ofSettings_returns ht (hplain.leadsTo ht) hgit hmanifest hclock ids
  refine ⟨g, after, ?_⟩
  rw [generate, hq, on_bind_of_ok (hplain.on_rootOf ht), on_bind_of_ok hload]
  exact hrun

end Plain

/-- A bare project has the settings of one that says nothing. -/
theorem Bare.on_load {place : Location} (hbare : Bare h place) (ht : h.files.WellFormed) :
    (Settings.load (pathOf place)).on h = (.ok (.default (pathOf place)), h) := by
  obtain ⟨_, hmissing⟩ := hbare.on_missing ht List.mem_cons_self hbare.noSettings
  obtain ⟨hplaced, hroot⟩ := hbare.on_filePath ht (by rw [hmissing]; exact fun hloop => by cases hloop)
  have hnone := hbare.pathExists_missing ht List.mem_cons_self hbare.noSettings
  rw [Settings.load, on_bind_of_ok hplaced, on_bind_of_ok hroot, on_bind_of_ok hnone]
  rfl

end Generation
end ClassAtlas
