import ClassAtlas.Proofs.Atlas.Stored
import ClassAtlas.Proofs.Checkout.Reference
import ClassAtlas.Proofs.Checkout.Sparing
import ClassAtlas.Proofs.CommandLine.Copies
import ClassAtlas.Proofs.Generation.Anchoring
/-!
# The output of a remote project

The project that a reference names is a single name, so the snapshot of a remote project is written into the current
directory itself, unless its settings say where. It is still there when the copy of the project has been removed.
-/
namespace ClassAtlas

open ClassAtlas.Action

variable {h h' started left after : Host} {here : Location} {name url : String} {p root : Path} {w : Written}
  {included excluded : Option (List String)}

/-! ## A document in a directory -/

namespace FileTree

variable {t : FileTree}

/-- A name is found in the directory that directories lead to. -/
theorem Paved.locate_child (hpaved : t.Paved here) (hdots : name ≠ "..") (hshort : ¬ name.utf8ByteSize > maxNameBytes)
    (hpath : ¬ (pathOf (here ++ [name])).toString.utf8ByteSize > maxPathBytes) (cwd : Location) :
    t.locate cwd false (pathOf (here ++ [name])) = .ok (here ++ [name]) := by
  rw [locate, if_neg hpath]
  show t.walk false maxLinks [] (here ++ [name]) = _
  rw [hpaved.walk_append, walk_last hdots hshort fun hfollow => absurd hfollow (by decide)]

end FileTree

namespace Snapshot

/-- Where directories lead to a place, a document is written into the directory there, if no link is beside it. -/
theorem node_of_write {s : Snapshot} (hpaved : h.files.Paved here) (hnul : hasNul (pathOf here) = false)
    (hlink : ∀ link, h.files.at? (here ++ [temporaryName name]) ≠ some (.link link))
    (hrun : (s.write (pathOf (here ++ [name]))).on h = (.ok p, h')) :
    h'.files.at? (here ++ [name]) = some (.file (Utf8.encode s.text)) ∧ h'.cwd = h.cwd := by
  obtain ⟨_, _, temporary, ready, wrote, htemporary, hready, hwrite, hreplace⟩ := steps_of_write hrun
  obtain ⟨k, above, there, node, hreplaced⟩ := replaced_of_move htemporary hwrite hreplace
  obtain rfl : ready = h := by
    have hshort := short_above (Nat.not_lt.mp hreplaced.last.pathShort)
    obtain ⟨_, hself⟩ := hpaved.lookup (Nat.not_lt.mpr hshort) h.cwd false
    obtain ⟨_, hdirectory⟩ := hpaved.lookup (Nat.not_lt.mpr hshort) h.cwd true
    rw [parent_child, on_ensureDirectories hnul hself hdirectory] at hready
    exact (Prod.mk.inj hready).2.symm
  have hlast := hreplaced.last
  have hname := name_child here name
  rw [hname] at hlast
  have hplace := hpaved.locate_child hlast.noDots hlast.short hlast.pathShort ready.cwd
  obtain rfl : here = above := List.append_cancel_right (Except.ok.inj (hplace.symm.trans hlast.locate_self))
  have hown := hreplaced.own_iff.mpr (by rwa [hname])
  have hbytes := hreplaced.node_of_own hown
  rw [hname] at hbytes
  exact ⟨hbytes, hreplaced.cwd⟩

end Snapshot

/-! ## What a copy leaves as it was -/

namespace Checkout

theorem at?_plantCopy {place q : Location} {node : Node} (hrooted : h.files.Rooted h.cwd) (hnul : hasNul p = false)
    (hfound : h.files.lookup h.cwd true p = .ok (place, node)) (entries : List (List String × Node))
    (hq : ¬ place <+: q) : ((plantCopy p entries).on h).2.files.at? q = h.files.at? q := by
  obtain ⟨_, hothers⟩ := hrooted.plantAll ⟨_, (FileTree.locate_of_lookup hfound).2⟩ entries
  rw [plantCopy, on_bind_of_ok (on_lookup hnul true h), hfound]
  exact hothers q hq

theorem cwd_plantCopy (hnul : hasNul p = false) (entries : List (List String × Node)) (h : Host) :
    ((plantCopy p entries).on h).2.cwd = h.cwd := by
  rw [plantCopy, on_bind_of_ok (on_lookup hnul true h)]
  cases h.files.lookup h.cwd true p <;> rfl

theorem cwd_of_clone {copy : Path} (hh : h.files.Housed h.cwd) (hclone : (clone url none).on h = (.ok copy, started)) :
    started.cwd = h.cwd := by
  have hcloned := cloned url h
  rw [hclone] at hcloned
  cases hcloned with
  | @copied made noted _ entries hensured hnotes _ hplanted =>
    obtain ⟨hextends, _⟩ := makeDirectories_spec (h := clocked h) hh hensured
    calc started.cwd = _ := hplanted.cwd
      _ = noted.cwd := cwd_plantCopy (noNul_of_ensureDirectories hensured) entries noted
      _ = made.cwd := hnotes.cwd
      _ = h.cwd := hextends.cwd

theorem noNul_of_clone {copy : Path} (hclone : (clone url none).on h = (.ok copy, started)) : hasNul copy = false := by
  have hcloned := cloned url h
  rw [hclone] at hcloned
  cases hcloned with
  | copied hensured => exact noNul_of_ensureDirectories hensured

/-- A copy that was made has its place, and brings links to no other one. -/
theorem copied_of_clone {copy : Path} (hh : h.files.Housed h.cwd) (hpaved : h.files.Paved h.cwd)
    (hlink : ∀ place ∈ [h.cwd ++ [directoryName], copyPlace h (copyName h.nanos)], ∀ target,
      h.files.at? place ≠ some (.link target)) (hclone : (clone url none).on h = (.ok copy, started)) :
    copy = pathOf (copyPlace h (copyName h.nanos)) ∧ Copied h started ∧ ∀ q target, ¬ copyPlace h (copyName h.nanos) <+: q →
      started.files.at? q = some (.link target) → h.files.at? q = some (.link target) := by
  have hcloned := cloned url h
  rw [hclone] at hcloned
  cases hcloned with
  | @copied made noted _ entries hensured hnotes _ hplanted =>
    obtain ⟨_, _, hcopied, hcopy⟩ := ready_of_ensured hh hpaved hlink hensured
    have htold := hcopied.noted hnotes
    have hway := hcopy.mono hnotes.files.directoryAt_iff.mpr
    refine ⟨rfl, (htold.planted hway entries).noted hplanted, fun q target hq hthere => ?_⟩
    obtain ⟨locked, hfound⟩ := hway.lookup htold.short noted.cwd true
    have hplaced := (hplanted.files.at?_iff rfl).mp hthere
    rw [at?_plantCopy htold.rooted htold.noNul hfound entries hq] at hplaced
    have hmade := (hnotes.files.at?_iff rfl).mp hplaced
    -- Only directories are made for the copy.
    obtain ⟨hextends, _⟩ := makeDirectories_spec (h := clocked h) hh hensured
    cases hbefore : (clocked h).files.at? q with
    | none => cases (hextends.made hbefore hmade).1
    | some node =>
      cases (hextends.kept hbefore).symm.trans hmade
      exact hbefore

/-- The removal of a copy leaves what is not in its place, apart from notes. -/
theorem Copied.grown_of_cleanup {names : List String} {q : Location} {node : Node} (hcopied : Copied h started)
    (hspreads : started.Spreads names left) (hq : ¬ copyPlace h (copyName h.nanos) <+: q)
    (hnode : left.files.at? q = some node) : ∃ grown,
      ((cleanup (pathOf (copyPlace h (copyName h.nanos)))).on left).2.files.at? q = some grown ∧ node.Grown grown := by
  rcases cleanup_cases (pathOf (copyPlace h (copyName h.nanos))) left with
    hnoted | ⟨place, _, cleared, hfound, hcleared, hnoted⟩
  · exact hnoted.files.forth hnode
  · have hplace := (hcopied.above.mono hspreads.kept).locate_child hcopied.noDots.1 hcopied.noDots.2 hcopied.short left.cwd
    obtain rfl := Except.ok.inj (hplace.symm.trans (FileTree.locate_of_lookup hfound).1)
    exact hnoted.files.forth ((hcleared.files q hq).trans hnode)

end Checkout

/-! ## A run without other settings for its output -/

namespace Generation

variable {q : Request} {s : Settings} {ids : Ids}

/-- No name of the root has a slash in it, for no text of a path gives such a name. -/
theorem oneName_of_rootOf {text : String} (hcwd : ∀ n ∈ h.cwd, '/' ∉ n.toList)
    (hrun : (rootOf (Path.ofString text)).on h = (.ok root, h)) : ∀ n ∈ root.parts, '/' ∉ n.toList := by
  obtain ⟨expanded, hexpanded, hrun⟩ := (asks_expandHome _).bind_eq_ok hrun
  obtain ⟨resolved, hresolved, hrun⟩ := (asks_resolve expanded).bind_eq_ok hrun
  obtain ⟨found, _, hrun⟩ := (asks_probe _ _ _).bind_eq_ok hrun
  cases found with
  | false => cases hrun
  | true =>
    cases hrun
    obtain rfl := eq_pathOf_of_resolve hresolved
    have hplain := plain_of_expandHome (Path.plain_ofString text) hexpanded
    exact FileTree.names_resolve (fun _ link _ n hn => (Path.plain_ofString link n hn).2.2) (by decide) hcwd
      fun n hn => (hplain n hn).2.2

theorem oneName_nameOf {given : Option String} (hgiven : ∀ g ∈ given, '/' ∉ g.toList)
    (hroot : ∀ n ∈ root.parts, '/' ∉ n.toList) : '/' ∉ (nameOf given root).toList := by
  have hname : '/' ∉ root.name.toList := by
    by_cases hempty : root.name = ""
    · rw [hempty]
      decide
    · exact hroot _ (Path.name_mem_parts hempty)
  unfold nameOf Project.prefer
  split
  · split
    · exact hname
    · exact hgiven _ rfl
  · exact hname

/-- What the document of a project is called. -/
def documentOf (given : Option String) (root : Path) : String := nameOf given root ++ "-uml.json"

theorem oneName_documentOf {given : Option String} (hslash : '/' ∉ (nameOf given root).toList) :
    '/' ∉ (documentOf given root).toList := by
  rw [documentOf, String.toList_append, List.mem_append, not_or]
  exact ⟨hslash, by decide⟩

/-- Nothing but the name decides where the output goes that no setting places. -/
theorem on_outputPath_of_silent (hslash : '/' ∉ (documentOf q.projectName root).toList) (hsilent : s.output = none)
    (h : Host) : (outputPath root q none s).on h = (.ok (pathOf (h.cwd ++ [documentOf q.projectName root])), h) := by
  have hlong : 2 < (documentOf q.projectName root).toList.length := by simp [documentOf]
  obtain ⟨hempty, hdot, _⟩ := FileTree.ne_dots_of_long hlong
  simp only [outputPath, hsilent]
  rw [← documentOf, Path.ofString_of_name hempty hdot hslash]
  rfl

/-- A run whose settings place no output writes into the current directory. -/
theorem writesAt_of_run (hroot : (rootOf (Path.ofString q.path)).on h = (.ok root, h))
    (hload : (Settings.load root).on h = (.ok s, h)) (hsilent : s.output = none)
    (hslash : '/' ∉ (documentOf q.projectName root).toList) (hrun : (run ids q none).on h = (.ok w, left)) :
    WritesAt h left w (pathOf (h.cwd ++ [documentOf q.projectName root])) := by
  obtain ⟨_, _, _, composed, written, hroot', hload', hgenerated, hplaced, _, hwrite, hlast⟩ := steps_of_run hrun
  cases hroot.symm.trans hroot'
  cases hload.symm.trans hload'
  have hcomposed := (notes_ofSettings _ _ _ _).of_eq hgenerated
  rw [on_outputPath_of_silent hslash hsilent] at hplaced
  have houtput := (Except.ok.inj (Prod.mk.inj hplaced).1).symm
  rw [houtput] at hwrite
  exact ⟨houtput, composed, written, hcomposed, hwrite, hlast⟩

end Generation

/-! ## A remote project -/

namespace CommandLine

open Checkout Generation

theorem grown_file {bytes : List UInt8} {node : Node} (hgrown : (Node.file bytes).Grown node) :
    ∃ more, node = .file (bytes ++ more) := by
  cases hgrown with
  | same => exact ⟨[], by rw [List.append_nil]⟩
  | added _ cs => exact ⟨Utf8.encode cs, rfl⟩

/-- What the run for a copy is asked for. -/
def copyRequest (copy : Path) (url : String) (included excluded : Option (List String)) : Request :=
  ⟨copy.toString, included, excluded, some (projectName url)⟩

/-- What the document of a remote project is called. -/
def remoteDocument (url : String) (root : Path) : String := documentOf (some (projectName url)) root

/-- A remote project whose settings place no output, with the copy that is made of it. -/
structure Unplaced (h started : Host) (url : String) (copy root : Path) (s : Settings) : Prop where
  wellFormed : h.files.WellFormed
  directory : h.files.DirectoryAt h.cwd
  remote : isRemote url = true
  cloned : (clone url none).on h = (.ok copy, started)
  rooted : (rootOf (Path.ofString copy.toString)).on started = (.ok root, started)
  loaded : (Settings.load root).on started = (.ok s, started)
  silent : s.output = none

/-- The document of a run is written under a name into the current directory. There it is when the copy has been
removed, with what is logged to it, unless links stand where the copy or the temporary file goes. -/
structure WritesHere (h started left after : Host) (w : Written) (name : String) : Prop where
  writes : WritesAt started left w (pathOf (h.cwd ++ [name]))
  leaves : (∀ place ∈ [h.cwd ++ [directoryName], copyPlace h (copyName h.nanos), h.cwd ++ [Snapshot.temporaryName name]],
      ∀ target, h.files.at? place ≠ some (.link target)) →
    ∃ more, after.files.at? (h.cwd ++ [name]) = some (.file (Utf8.encode w.snapshot.text ++ more))

theorem not_below_copyPlace (h : Host) (own name : String) : ¬ copyPlace h own <+: h.cwd ++ [name] := by
  intro hbelow
  have hlength := hbelow.length_le
  simp [copyPlace] at hlength

/-- What a run writes into the current directory is there when the copy has been removed. -/
theorem leaves_of_writesAt {q : Request} {copy : Path} (ht : h.files.WellFormed) (hcwd : h.files.DirectoryAt h.cwd)
    (hlink : ∀ place ∈ [h.cwd ++ [directoryName], copyPlace h (copyName h.nanos), h.cwd ++ [Snapshot.temporaryName name]],
      ∀ target, h.files.at? place ≠ some (.link target))
    (hclone : (clone url none).on h = (.ok copy, started))
    (hran : (Generation.run .sequential q none).on started = (.ok w, left))
    (hwrites : WritesAt started left w (pathOf (h.cwd ++ [name])))
    (hcleaned : (cleanup copy).on left = (.ok (), after)) :
    ∃ more, after.files.at? (h.cwd ++ [name]) = some (.file (Utf8.encode w.snapshot.text ++ more)) := by
  obtain ⟨rfl, hcopied, hlinks⟩ := copied_of_clone (.of_wellFormed ht hcwd) (ht.paved hcwd)
    (fun place hplace => hlink place (by simp only [List.mem_cons] at hplace ⊢; tauto)) hclone
  obtain ⟨_, composed, written, hcomposed, hwrite, hlast⟩ := hwrites
  obtain ⟨locked, hdirectory⟩ := hcwd
  have hpaved : composed.files.Paved h.cwd :=
    (hcopied.above.of_prefix (List.prefix_append _ _)).mono hcomposed.files.directoryAt_iff.mpr
  have hbeside : ∀ link, composed.files.at? (h.cwd ++ [Snapshot.temporaryName name]) ≠ some (.link link) := by
    intro link hthere
    exact hlink _ (by simp) link (hlinks _ link (not_below_copyPlace h _ _) ((hcomposed.files.at?_iff rfl).mp hthere))
  obtain ⟨hbytes, _⟩ := Snapshot.node_of_write hpaved (hasNul_pathOf ht hdirectory) hbeside hwrite
  obtain ⟨node, hnode, hgrown⟩ := hlast.files.forth hbytes
  obtain ⟨names, hspreads⟩ : ∃ names, started.Spreads names left := by
    rcases run_spreads hcopied.rooted hran with hspreads | ⟨target, _, hspreads⟩
    · exact ⟨_, hspreads⟩
    · exact ⟨_, hspreads⟩
  obtain ⟨last, hfound, hmore⟩ := hcopied.grown_of_cleanup hspreads (not_below_copyPlace h _ _) hnode
  rw [hcleaned] at hfound
  obtain ⟨more, rfl⟩ := grown_file (hgrown.trans hmore)
  exact ⟨more, hfound⟩

theorem on_generate_of_remote {copy : Path} (hremote : isRemote url = true)
    (hclone : (clone url none).on h = (.ok copy, started))
    (hran : (Generation.run .sequential (copyRequest copy url included excluded) none).on started = (.ok w, left))
    (hcleaned : (cleanup copy).on left = (.ok (), after)) :
    (generate url none included excluded).on h = (.ok (some w), after) := by
  have hcloned : (attempt (clone url none)).on h = (.ok (.ok copy), started) := by rw [on_attempt, hclone]
  have hreported := on_reporting hran
  have hattempt : (attempt (reporting (Generation.run .sequential (copyRequest copy url included excluded) none))).on
      started = (.ok (.ok (some w)), left) := by
    rw [on_attempt, hreported]
  rw [generate, hremote]
  simp only [if_true]
  rw [on_bind_of_ok hcloned]
  dsimp only
  rw [andFinally, ← copyRequest, on_bind_of_ok hattempt, on_bind_of_ok hcleaned]
  rfl

namespace Unplaced

variable {copy : Path} {s : Settings}

theorem cwd_eq (hu : Unplaced h started url copy root s) : started.cwd = h.cwd :=
  cwd_of_clone (.of_wellFormed hu.wellFormed hu.directory) hu.cloned

theorem oneName (hu : Unplaced h started url copy root s) : '/' ∉ (remoteDocument url root).toList := by
  obtain ⟨locked, hdirectory⟩ := hu.directory
  have hnames : ∀ n ∈ started.cwd, '/' ∉ n.toList := by
    rw [hu.cwd_eq]
    exact fun n hn => (hu.wellFormed.isName_of_mem hdirectory n hn).oneName
  have hgiven : ∀ g ∈ some (projectName url), '/' ∉ g.toList :=
    fun g hg => Option.some.inj hg ▸ (separators_notMem_projectName url).1
  exact oneName_documentOf (oneName_nameOf hgiven (oneName_of_rootOf hnames hu.rooted))

/-- The output goes into the current directory, whatever has been noted since the copy was made. -/
theorem on_outputPath {composed : Host} (hu : Unplaced h started url copy root s)
    (included excluded : Option (List String)) (hcomposed : started.Noted composed) :
    (outputPath root (copyRequest copy url included excluded) none s).on composed =
      (.ok (pathOf (h.cwd ++ [remoteDocument url root])), composed) := by
  have hplaced := on_outputPath_of_silent (q := copyRequest copy url included excluded) hu.oneName hu.silent composed
  rwa [hcomposed.cwd, hu.cwd_eq] at hplaced

theorem writesHere (hu : Unplaced h started url copy root s)
    (hrun : (generate url none included excluded).on h = (.ok (some w), after)) :
    ∃ left, (cleanup copy).on left = (.ok (), after) ∧
      WritesHere h started left after w (remoteDocument url root) := by
  rcases generate_of_some hrun with ⟨hlocal, _⟩ | ⟨_, _, _, left, hclone, hran, hcleaned⟩
  · rw [hu.remote] at hlocal
    cases hlocal
  cases hu.cloned.symm.trans hclone
  have hwrites := writesAt_of_run (q := copyRequest copy url included excluded) hu.rooted hu.loaded hu.silent
    hu.oneName hran
  rw [hu.cwd_eq] at hwrites
  exact ⟨left, hcleaned, hwrites,
    fun hlink => leaves_of_writesAt hu.wellFormed hu.directory hlink hclone hran hwrites hcleaned⟩

/-- Where nothing gets in the way of the document, what is generated for the copy is written. -/
theorem generates {g : Generation} {composed : Host} (hu : Unplaced h started url copy root s)
    (hgenerated : (ofSettings .sequential root (copyRequest copy url included excluded) s).on started =
      (.ok g, composed)) (hnumbers : g.snapshot.toJson.hasLongNumber = false)
    (hroom : Snapshot.Room started h.cwd (remoteDocument url root)) : ∃ after,
      (generate url none included excluded).on h =
        (.ok (some ⟨g.snapshot, pathOf (h.cwd ++ [remoteDocument url root]), g.skipped⟩), after) := by
  have hcomposed := (notes_ofSettings _ _ _ _).of_eq hgenerated
  obtain ⟨left, hran, _⟩ := on_run_of_room (q := copyRequest copy url included excluded) hu.rooted hu.loaded
    hgenerated (hu.on_outputPath included excluded hcomposed) (hroom.noted hcomposed) hnumbers
  have hcleaned : (cleanup copy).on left = (.ok (), _) := Prod.ext (cleanup_returns (noNul_of_clone hu.cloned) left) rfl
  exact ⟨_, on_generate_of_remote hu.remote hu.cloned hran hcleaned⟩

end Unplaced

/-- The name that a reference gives a project is a single one, without slashes and colons. It stays the same when slashes
or the usual ending are put behind the reference, as long as the last part has not got that ending. A run for a remote
project thus places its document in the current directory itself, when the settings in the copy place no output. There
it writes whatever it writes, and it does so when nothing is in the way. -/
theorem projectName_is_single_name :
    (∀ url, '/' ∉ (projectName url).toList ∧ ':' ∉ (projectName url).toList ∧
      (∀ n, projectName (url ++ String.ofList (List.replicate n '/')) = projectName url) ∧
      (url.toList.getLast? ≠ some '/' → ¬ ".git".toList <:+ lastPart url.toList →
        projectName (url ++ ".git") = projectName url)) ∧
    ∀ (h started : Host) (url : String) (copy root : Path) (s : Settings), Unplaced h started url copy root s →
      '/' ∉ (remoteDocument url root).toList ∧ ∀ included excluded : Option (List String),
        (∀ composed, started.Noted composed →
          (outputPath root (copyRequest copy url included excluded) none s).on composed =
            (.ok (pathOf (h.cwd ++ [remoteDocument url root])), composed)) ∧
        (∀ w after, (generate url none included excluded).on h = (.ok (some w), after) → ∃ left,
          (cleanup copy).on left = (.ok (), after) ∧ WritesHere h started left after w (remoteDocument url root)) ∧
        ∀ g composed, (ofSettings .sequential root (copyRequest copy url included excluded) s).on started =
            (.ok g, composed) → g.snapshot.toJson.hasLongNumber = false →
          Snapshot.Room started h.cwd (remoteDocument url root) → ∃ after,
            (generate url none included excluded).on h =
              (.ok (some ⟨g.snapshot, pathOf (h.cwd ++ [remoteDocument url root]), g.skipped⟩), after) := by
  refine ⟨fun url => ?_, fun h started url copy root s hu => ⟨hu.oneName, fun included excluded => ?_⟩⟩
  · obtain ⟨hslash, hcolon⟩ := separators_notMem_projectName url
    exact ⟨hslash, hcolon, projectName_append_slashes url, projectName_append_ending⟩
  · exact ⟨fun _ hcomposed => hu.on_outputPath included excluded hcomposed, fun _ _ hrun => hu.writesHere hrun,
      fun _ _ hgenerated hnumbers hroom => hu.generates hgenerated hnumbers hroom⟩

/-! ## A remote project without files -/

/-- The directories that are made for the copy. -/
def madeTree : FileTree :=
  (FileTree.empty.put [".umlgen-temp"] (.directory false)).put [".umlgen-temp", "repo-0"] (.directory false)

/-- The host with these directories. -/
def madeHost : Host := { clocked (remoteHost (.ok [])) with files := madeTree }

theorem wellFormed_madeTree : madeTree.WellFormed := by decide

theorem bare_madeTree : Bare madeHost [".umlgen-temp", "repo-0"] where
  directory := ⟨false, by decide⟩
  noSettings := by decide
  noManifest := by decide
  resolved := by decide
  settingsResolved := by decide
  short := by decide

theorem room_madeTree : Snapshot.Room madeHost [] "r-uml.json" where
  wellFormed := wellFormed_madeTree
  directory := ⟨false, rfl⟩
  named := by decide
  besideNamed := by decide
  free := .inl (by decide)
  besideFree := by decide
  short := by decide

theorem names_madeTree : madeTree.names [".umlgen-temp", "repo-0"] = [] := FileTree.names_of_sorted (by decide) (by decide)

/-- A copy of nothing adds nothing to the directory that was made for it. -/
theorem plantCopy_nil (hnul : hasNul p = false) (h : Host) : ((plantCopy p []).on h).2 = h := by
  rw [plantCopy, on_bind_of_ok (on_lookup hnul true h)]
  cases h.files.lookup h.cwd true p <;> rfl

theorem clone_remoteHost : ∃ started, (clone "git@host:r.git" none).on (remoteHost (.ok [])) =
    (.ok (pathOf [".umlgen-temp", "repo-0"]), started) ∧ madeHost.Noted started := by
  have hplace : copyPlace (remoteHost (.ok [])) (copyName (remoteHost (.ok [])).nanos) = [".umlgen-temp", "repo-0"] := by
    decide
  have hmade := ensureDirectories_remoteHost (.ok []) (remoteHost (.ok [])).logging
  rw [← hplace] at hmade
  rcases hclone : (clone "git@host:r.git" none).on (remoteHost (.ok [])) with ⟨r, started⟩
  have hcloned := cloned "git@host:r.git" (remoteHost (.ok []))
  rw [hclone] at hcloned
  cases hcloned with
  | refused hensured => cases hmade.symm.trans hensured
  | failed hensured hnotes hanswer _ _ _ =>
    cases hmade.symm.trans hensured
    rw [hnotes.git] at hanswer
    cases hanswer
  | broken hensured hnotes hanswer _ =>
    cases hmade.symm.trans hensured
    rw [hnotes.git] at hanswer
    cases hanswer
  | copied hensured hnotes hanswer hplanted =>
    cases hmade.symm.trans hensured
    rw [hnotes.git] at hanswer
    cases hanswer
    rw [plantCopy_nil (noNul_of_ensureDirectories hensured)] at hplanted
    exact ⟨started, by rw [hplace], hnotes.trans hplanted⟩

theorem bare_of_noted {o : Host} {place : Location} (hbare : Bare o place) (ho : o.files.WellFormed)
    (hnoted : o.Noted h) : Bare h place where
  directory := by
    obtain ⟨locked, hnode⟩ := hbare.directory
    exact ⟨locked, (hnoted.files.at?_iff rfl).mpr hnode⟩
  noSettings := hnoted.files.at?_eq_none_iff.mpr hbare.noSettings
  noManifest := hnoted.files.at?_eq_none_iff.mpr hbare.noManifest
  resolved := by
    rw [hnoted.cwd, hnoted.files.resolve_eq ho (hnoted.wellFormed ho)]
    exact hbare.resolved
  settingsResolved := by
    rw [hnoted.cwd, hnoted.files.resolve_eq ho (hnoted.wellFormed ho)]
    exact hbare.settingsResolved
  short := hbare.short

/-- The place of the copy of nothing. -/
def emptyCopy : Path := pathOf [".umlgen-temp", "repo-0"]

theorem remoteDocument_remoteHost (root : Path) : remoteDocument "git@host:r.git" root = "r-uml.json" := by
  have hname : projectName "git@host:r.git" = "r" := by decide
  rw [remoteDocument, hname]
  rfl

/-- The copy has no settings, and so they place no output. -/
theorem unplaced_remoteHost : ∃ started, madeHost.Noted started ∧
    Unplaced (remoteHost (.ok [])) started "git@host:r.git" emptyCopy emptyCopy (.default emptyCopy) := by
  obtain ⟨started, hclone, hnoted⟩ := clone_remoteHost
  have hformed := hnoted.wellFormed wellFormed_madeTree
  have hbare := bare_of_noted bare_madeTree wellFormed_madeTree hnoted
  have hback : Path.ofString emptyCopy.toString = emptyCopy := by decide
  refine ⟨started, hnoted, ?_⟩
  exact {
    wellFormed := by decide
    directory := ⟨false, rfl⟩
    remote := by decide
    cloned := hclone
    rooted := hback ▸ hbare.on_rootOf hformed
    loaded := hbare.on_load hformed
    silent := rfl }

theorem generated_remoteHost (hnoted : madeHost.Noted started) : ∃ g composed,
    (ofSettings .sequential emptyCopy (copyRequest emptyCopy "git@host:r.git" none none) (.default emptyCopy)).on started =
      (.ok g, composed) ∧ g.snapshot.toJson.hasLongNumber = false := by
  have hformed := hnoted.wellFormed wellFormed_madeTree
  have hnames : started.files.names [".umlgen-temp", "repo-0"] = [] :=
    (hnoted.files.names_eq wellFormed_madeTree hformed _).trans names_madeTree
  have hgit : started.git.KnowsNothing := by
    rw [hnoted.git]
    exact fun _ => ⟨.notFound, rfl, rfl⟩
  have hclock : started.now.stamp?.isSome := by
    rw [hnoted.now]
    rfl
  exact (bare_of_noted bare_madeTree wellFormed_madeTree hnoted).generated hformed hnames hgit hclock .sequential _

/-- The ending does not count, and the document of the copy is written beside the directory for copies. -/
theorem projectName_is_single_name_remoteHost : projectName "git@host:r.git" = projectName "git@host:r" ∧
    ∃ w after, (generate "git@host:r.git" none none none).on (remoteHost (.ok [])) = (.ok (some w), after) ∧
      w.output = pathOf ["r-uml.json"] ∧
      ∃ more, after.files.at? ["r-uml.json"] = some (.file (Utf8.encode w.snapshot.text ++ more)) := by
  obtain ⟨hnames, hruns⟩ := projectName_is_single_name
  obtain ⟨started, hnoted, hunplaced⟩ := unplaced_remoteHost
  obtain ⟨g, composed, hgenerated, hnumbers⟩ := generated_remoteHost hnoted
  obtain ⟨_, hremote⟩ := hruns _ _ _ _ _ _ hunplaced
  obtain ⟨_, hwrites, hreturns⟩ := hremote none none
  rw [remoteDocument_remoteHost] at hwrites hreturns
  obtain ⟨after, hrun⟩ := hreturns g composed hgenerated hnumbers (room_madeTree.noted hnoted)
  obtain ⟨left, _, hwritten⟩ := hwrites _ after hrun
  refine ⟨(hnames "git@host:r").2.2.2 (by decide) (by decide), _, after, hrun, hwritten.writes.1, hwritten.leaves ?_⟩
  intro place hplace target hlink
  simp only [List.mem_cons, List.not_mem_nil, or_false] at hplace
  rcases hplace with rfl | rfl | rfl <;> cases hlink

end CommandLine
end ClassAtlas
