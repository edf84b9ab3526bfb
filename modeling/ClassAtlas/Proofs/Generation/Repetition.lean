import ClassAtlas.Proofs.Atlas.Stored
import ClassAtlas.Proofs.Generation.Agreement
import ClassAtlas.Proofs.Generation.Failing
/-!
# A run that is repeated

A run leaves its output, and lines in its log, where it reads nothing. So the same run can be repeated on what the
first one left: it gives the same snapshot again, and the files are then as they were.
-/
namespace ClassAtlas

open ClassAtlas.Action

variable {o h h' after : Host} {root here place : Location} {name : String} {bytes : List UInt8}

/-- A document that is not read leaves a host that cannot be told apart from the one before. -/
theorem Host.Agrees.stored (hh : o.Agrees root h) (hs : Snapshot.Stored h h' here name bytes)
    (hout : Unread root (here ++ [name])) (hbeside : Unread root (here ++ [Snapshot.temporaryName name])) :
    o.Agrees root h' := by
  have hfiles := hs.agrees hh.files (not_not.mpr hout) (not_not.mpr hbeside)
  have hunlogged : ∀ level place, Sink.file level (some place) ∈ h'.logging.sinks → Unread root place := by
    intro level place hsink
    by_cases hplace : place = here ++ [name]
    · rwa [hplace]
    · have hold := hs.sink hsink
      rw [if_neg hplace] at hold
      exact hh.unlogged level place hold
  obtain rfl := hs.eq
  exact ⟨hfiles, hunlogged, hh.cwd, hh.home, hh.users, hh.git, hh.commits⟩

namespace Generation

variable {ids : Ids} {q : Request} {s : Settings} {g : Generation} {w : Written}

/-! ## Where a document goes -/

/-- What the document of the project at a root is called. -/
def documentName (root : Location) : String := (pathOf root).name ++ "-uml.json"

theorem toList_documentName (root : Location) :
    (documentName root).toList = ((pathOf root).name.toList ++ "-uml".toList) ++ '.' :: "json".toList := by
  simp [documentName]

theorem clean_documentName (hroot : ∀ n ∈ root, FileTree.IsName n) {c : Char}
    (hc : c ∉ "-uml.json".toList) (hclean : ∀ n, FileTree.IsName n → c ∉ n.toList) : c ∉ (documentName root).toList := by
  rw [documentName, String.toList_append, List.mem_append, not_or]
  refine ⟨?_, hc⟩
  by_cases hempty : (pathOf root).name = ""
  · simp [hempty]
  · exact hclean _ (hroot _ (Path.name_mem_parts hempty))

theorem length_documentName (root : Location) : 2 < (documentName root).toList.length := by
  simp [toList_documentName]

theorem ofString_documentName (hroot : ∀ n ∈ root, FileTree.IsName n) :
    Path.ofString (documentName root) = ⟨.here, [documentName root]⟩ := by
  obtain ⟨hempty, hdot, _⟩ := FileTree.ne_dots_of_long (length_documentName root)
  apply Path.ofString_of_name hempty hdot
  exact clean_documentName hroot (by decide) fun _ hname => hname.oneName

theorem isName_documentName (hroot : ∀ n ∈ root, FileTree.IsName n)
    (hshort : (documentName root).utf8ByteSize ≤ FileTree.maxNameBytes) : FileTree.IsName (documentName root) := by
  apply FileTree.IsName.of_long (length_documentName root)
  · exact clean_documentName hroot (by decide) fun _ hname => hname.oneName
  · exact clean_documentName hroot (by decide) fun _ hname => hname.noNul
  · exact hshort

theorem on_outputPath_here (hnames : ∀ n ∈ root, FileTree.IsName n) (hunnamed : q.projectName = none)
    (hplain : s.output = none) (h : Host) : (outputPath (pathOf root) q none s).on h =
      (.ok (pathOf (h.cwd ++ [documentName root])), h) := by
  have hname : nameOf q.projectName (pathOf root) ++ "-uml.json" = documentName root := by
    rw [hunnamed]
    rfl
  simp only [outputPath, hplain, hname, ofString_documentName hnames]
  rfl

/-- A file whose suffix is none of a source file is not read, unless it is called like the settings or the manifest. -/
theorem unread_of_suffix {stem ext ending : List Char} (hchars : name.toList = stem ++ '.' :: ext) (hstem : stem ≠ [])
    (hext : ext ≠ []) (hdot : '.' ∉ ext) (hsuffix : Dialect.isSourceSuffix (String.ofList ('.' :: ext)) = false)
    (hend : ending <:+ name.toList) (hsettings : ¬ ending <:+ settingsFile.toList)
    (hmanifest : ¬ ending <:+ Manifest.fileName.toList) (root here : Location) : Unread root (here ++ [name]) := by
  have hother : ∀ other : String, ¬ ending <:+ other.toList → here ++ [name] ≠ root ++ [other] := by
    intro other hother hsame
    rw [List.singleton_inj.mp (List.append_inj_right' hsame rfl)] at hend
    exact hother hend
  refine .inr ⟨?_, hother _ hsettings, hother _ hmanifest⟩
  rw [suffix_child, hchars, Path.splitSuffix_append hstem hext hdot]
  exact hsuffix

theorem unread_document (root here : Location) : Unread root (here ++ [documentName root]) := by
  have hend : "-uml.json".toList <:+ (documentName root).toList := by
    rw [documentName, String.toList_append]
    exact List.suffix_append _ _
  exact unread_of_suffix (toList_documentName root) (by simp) (by decide) (by decide) (by decide) hend (by decide)
    (by decide) root here

theorem unread_temporary (name : String) (root here : Location) :
    Unread root (here ++ [Snapshot.temporaryName name]) := by
  have hchars : (Snapshot.temporaryName name).toList = ('.' :: name.toList) ++ '.' :: "tmp".toList := by
    simp [Snapshot.temporaryName]
  have hend : '.' :: "tmp".toList <:+ (Snapshot.temporaryName name).toList := by
    rw [hchars]
    exact List.suffix_append _ _
  exact unread_of_suffix hchars (by simp) (by decide) (by decide) (by decide) hend (by decide) (by decide) root here

/-! ## The run -/

/-- A root that has been found is the path of a place with proper names. -/
theorem place_of_rootOf {p top : Path} (ht : h.files.WellFormed) (hlinks : h.files.Linkless)
    (hrun : (rootOf p).on h = (.ok top, h)) : ∃ root, top = pathOf root ∧ ∀ n ∈ root, FileTree.IsName n := by
  obtain ⟨expanded, _, hrun⟩ := (asks_expandHome p).bind_eq_ok hrun
  obtain ⟨resolved, hresolved, hrun⟩ := (asks_resolve expanded).bind_eq_ok hrun
  obtain rfl := eq_pathOf_of_resolve hresolved
  obtain ⟨found, hfound, hrun⟩ := (asks_probe _ _ _).bind_eq_ok hrun
  cases found with
  | false => cases hrun
  | true =>
    cases hrun
    refine ⟨_, rfl, ?_⟩
    obtain ⟨_, place, node, hlookup, _⟩ := found_of_probe hfound
    obtain ⟨hplace, hnode⟩ := FileTree.locate_of_lookup hlookup
    obtain rfl := hlinks.eq_of_locate (FileTree.dots_notMem_resolve _ _ _) hplace
    exact ht.isName_of_mem hnode

theorem on_rootOf_of_agrees {o : Host} {p : Path} (hroot : o.files.DirectoryAt root) (hh : o.Agrees root h)
    (hh' : o.Agrees root h') (hrun : (rootOf p).on h = (.ok (pathOf root), h)) :
    (rootOf p).on h' = (.ok (pathOf root), h') := by
  obtain ⟨expanded, hexpanded, hrun⟩ := (asks_expandHome p).bind_eq_ok hrun
  obtain ⟨resolved, hresolved, hrun⟩ := (asks_resolve expanded).bind_eq_ok hrun
  obtain ⟨found, hfound, hrun⟩ := (asks_probe _ _ _).bind_eq_ok hrun
  cases found with
  | false => cases hrun
  | true =>
    cases hrun
    have hexpanded' := (determined_expandHome p).on_asks (asks_expandHome p) hh hh' hexpanded
    have hresolved' := (determined_resolve expanded).on_asks (asks_resolve expanded) hh hh' hresolved
    have hfound' := (determined_probe (.directory hroot) true _).on_asks (asks_probe _ _ _) hh hh' hfound
    rw [rootOf, on_bind_of_ok hexpanded', on_bind_of_ok hresolved', pathExists, on_bind_of_ok hfound']
    rfl

/-- The project of a snapshot that has been put together is a directory. -/
theorem directoryAt_of_ofSettings (ht : h.files.WellFormed) (hlinks : h.files.Linkless)
    (hnames : ∀ n ∈ root, FileTree.IsName n) (hrun : (ofSettings ids (pathOf root) q s).on h = (.ok g, h')) :
    h.files.DirectoryAt root := by
  obtain ⟨_, _, searching, _, _, _, _, _, hsearching, hfiles, _⟩ := ofSettings_of_ok hrun
  obtain ⟨place, hleads⟩ := Discovery.leadsTo_of_sourceFiles _ _ hfiles
  have hleads := hleads.of_noted hsearching ht
  obtain rfl := hleads.eq_root hlinks hnames
  obtain ⟨_, there, node, hlookup, hkind⟩ := found_of_probe hleads.directory
  obtain ⟨hplace, hnode⟩ := FileTree.locate_of_lookup hlookup
  obtain rfl := hlinks.eq_of_locate (fun hdots => (hnames _ hdots).notDots rfl) hplace
  cases node with
  | directory locked => exact ⟨locked, hnode⟩
  | file _ => cases hkind
  | link _ => cases hkind
  | socket => cases hkind

/-- A run over a tree without links that is told neither a name nor an output, and that does not read its log. -/
structure Repeatable (q : Request) (root : Location) (s : Settings) (h : Host) : Prop where
  wellFormed : h.files.WellFormed
  linkless : h.files.Linkless
  cwd : h.files.DirectoryAt h.cwd
  unnamed : q.projectName = none
  found : (rootOf (Path.ofString q.path)).on h = (.ok (pathOf root), h)
  loaded : (Settings.load (pathOf root)).on h = (.ok s, h)
  noOutput : s.output = none
  unlogged : ∀ level place, Sink.file level (some place) ∈ h.logging.sinks → Unread root place

/-- What a run has left: a host that cannot be told apart from the first one, with the document in its place. -/
structure Left (root : Location) (h after : Host) : Prop where
  project : h.files.DirectoryAt root
  agrees : h.Agrees root after
  room : Snapshot.Room after h.cwd (documentName root)
  output : (after.files.at? (h.cwd ++ [documentName root])).isSome

namespace Repeatable

theorem names (hr : Repeatable q root s h) : ∀ n ∈ root, FileTree.IsName n := by
  obtain ⟨place, hplace, hnames⟩ := place_of_rootOf hr.wellFormed hr.linkless hr.found
  obtain rfl : root = place := congrArg Path.parts hplace
  exact hnames

theorem agrees (hr : Repeatable q root s h) : h.Agrees root h := .refl hr.wellFormed hr.linkless hr.unlogged

theorem of_agrees (hr : Repeatable q root s h) (hproject : h.files.DirectoryAt root) (hh : h.Agrees root h') :
    Repeatable q root s h' where
  wellFormed := hh.files.wellFormed
  linkless := hh.files.linkless
  cwd := by
    rw [hh.cwd]
    exact hh.files.directoryAt_iff.mpr hr.cwd
  unnamed := hr.unnamed
  found := on_rootOf_of_agrees hproject hr.agrees hh hr.found
  loaded := (Settings.determined_load hproject).on_asks (Settings.asks_load _) hr.agrees hh hr.loaded
  noOutput := hr.noOutput
  unlogged := hh.unlogged

/-- A run puts a snapshot together, writes it in the current directory and notes where. -/
theorem stored_of_run (hr : Repeatable q root s h) (hrun : (run ids q none).on h = (.ok w, after)) :
    ∃ g composed left, (ofSettings ids (pathOf root) q s).on h = (.ok g, composed) ∧
      g.snapshot.toJson.hasLongNumber = false ∧
      w = ⟨g.snapshot, pathOf (h.cwd ++ [documentName root]), g.skipped⟩ ∧
      Snapshot.Stored composed left h.cwd (documentName root) (Utf8.encode g.snapshot.text) ∧ left.Noted after := by
  rw [run, on_bind_of_ok hr.found, on_bind_of_ok hr.loaded] at hrun
  obtain ⟨g, composed, hgenerated, hrun⟩ := bind_eq_ok hrun
  have hnoted := (notes_ofSettings _ _ _ _).of_eq hgenerated
  rw [on_bind_of_ok (on_outputPath_here hr.names hr.unnamed hr.noOutput composed), hnoted.cwd] at hrun
  obtain ⟨written, left, hwrite, hrun⟩ := bind_eq_ok hrun
  obtain ⟨_, noted, _, hlast, hrun⟩ := (notes_info _ _).bind_eq_ok hrun
  obtain ⟨rfl, hnumbers, hstored⟩ := Snapshot.stored_of_write (hnoted.wellFormed hr.wellFormed)
    (hr.linkless.grown hnoted.files) (hnoted.files.directoryAt_iff.mpr hr.cwd) (isName_documentName hr.names) hwrite
  cases hrun
  exact ⟨g, composed, left, hgenerated, hnumbers, rfl, hstored, hlast⟩

theorem left_of_run (hr : Repeatable q root s h) (hrun : (run ids q none).on h = (.ok w, after)) :
    Left root h after := by
  obtain ⟨g, composed, left, hgenerated, _, _, hstored, hlast⟩ := hr.stored_of_run hrun
  have hnoted := (notes_ofSettings _ _ _ _).of_eq hgenerated
  constructor
  case project => exact directoryAt_of_ofSettings hr.wellFormed hr.linkless hr.names hgenerated
  case agrees =>
    have hwritten := (hr.agrees.noted hnoted).stored hstored (unread_document _ _) (unread_temporary _ _ _)
    exact hwritten.noted hlast
  case room => exact hstored.room.noted hlast
  case output =>
    rw [Snapshot.isSome_of_noted hlast, hstored.output]
    rfl

/-- On a host like the one that is left the same snapshot is put together, and written to the same place. -/
theorem run_again {later : Host} (hr : Repeatable q root s h) (hrun : (run ids q none).on h = (.ok w, after))
    (hleft : Left root h later) (hclock : later.now.stamp?.isSome) : ∃ generated last,
      (run ids q none).on later = (.ok { w with snapshot := { w.snapshot with generated } }, last) := by
  obtain ⟨g, composed, left, hgenerated, hnumbers, rfl, _, _⟩ := hr.stored_of_run hrun
  have hr' := hr.of_agrees hleft.project hleft.agrees
  obtain ⟨generated, recomposed, hgenerated'⟩ :=
    ofSettings_agrees hleft.project hr.names hr.agrees hleft.agrees hclock hgenerated
  have hnoted := (notes_ofSettings _ _ _ _).of_eq hgenerated'
  have hplaced := on_outputPath_here hr.names hr.unnamed hr.noOutput recomposed
  rw [hnoted.cwd, hleft.agrees.cwd] at hplaced
  obtain ⟨last, hrun', _⟩ :=
    on_run_of_room hr'.found hr'.loaded hgenerated' hplaced (hleft.room.noted hnoted) hnumbers
  exact ⟨generated, last, hrun'⟩

/-- Where a document has been left, another run changes nothing but the document and the log. -/
theorem unchanged_of_run {later last : Host} (hr : Repeatable q root s h) (hleft : Left root h later)
    (hrun : (run ids q none).on later = (.ok w, last)) :
    (∀ place, (last.files.at? place).isSome = (later.files.at? place).isSome) ∧
      ∀ place, place ≠ h.cwd ++ [documentName root] → (∀ level, Sink.file level (some place) ∉ later.logging.sinks) →
        last.files.at? place = later.files.at? place := by
  obtain ⟨_, _, _, hgenerated, _, _, hstored, hlast⟩ :=
    (hr.of_agrees hleft.project hleft.agrees).stored_of_run hrun
  rw [hleft.agrees.cwd] at hstored
  have hnoted := (notes_ofSettings _ _ _ _).of_eq hgenerated
  exact Snapshot.unchanged_of_stored hleft.room hleft.output hnoted hstored hlast

/-- A run adds to a log file beside its document, and the file stays open. -/
theorem logged_of_run (hr : Repeatable q root s h) {level : Int}
    (htaken : h.logging.sinksFor LogRecord.info = [.file level (some place)])
    (hfile : h.files.at? place = some (.file bytes)) (hout : place ≠ h.cwd ++ [documentName root])
    (hbeside : place ≠ h.cwd ++ [Snapshot.temporaryName (documentName root)])
    (hrun : (run ids q none).on h = (.ok w, after)) :
    (∃ b bs, after.files.at? place = some (.file (bytes ++ b :: bs))) ∧
      after.logging.sinksFor LogRecord.info = [.file level (some place)] := by
  obtain ⟨g, composed, left, hgenerated, _, _, hstored, hlast⟩ := hr.stored_of_run hrun
  have hnoted := (notes_ofSettings _ _ _ _).of_eq hgenerated
  constructor
  · obtain ⟨b, bs, hlogged⟩ := logged_of_ofSettings htaken hfile hgenerated
    rw [← hstored.others hout hbeside] at hlogged
    exact hlast.lengthened hlogged
  · rw [hlast.logging, hstored.eq]
    apply sinksFor_move _ hbeside hout
    rw [hnoted.logging, htaken]

/-- No time passes in a run. -/
theorem now_of_run (hr : Repeatable q root s h) (hrun : (run ids q none).on h = (.ok w, after)) : after.now = h.now := by
  obtain ⟨g, composed, left, hgenerated, _, _, hstored, hlast⟩ := hr.stored_of_run hrun
  have hnoted := (notes_ofSettings _ _ _ _).of_eq hgenerated
  rw [hlast.now, hstored.eq]
  exact hnoted.now

end Repeatable

/-- A run that is repeated on what the first one left, at any later time, gives the same snapshot, writes it to the
same place and leaves all other places as they were, except for the lines of its log. -/
theorem run_repeats {top : Path} {now : Moment} (ht : h.files.WellFormed) (hlinks : h.files.Linkless)
    (hcwd : h.files.DirectoryAt h.cwd) (hunnamed : q.projectName = none)
    (hfound : (rootOf (Path.ofString q.path)).on h = (.ok top, h)) (hload : (Settings.load top).on h = (.ok s, h))
    (hplain : s.output = none)
    (hlogs : ∀ level place, Sink.file level (some place) ∈ h.logging.sinks → Unread top.parts place)
    (hclock : now.stamp?.isSome)
    (hcommits : ∀ file answer, h.git.lastCommit file = .ok answer →
      History.readCommit now answer = History.readCommit h.now answer)
    (hrun : (run ids q none).on h = (.ok w, after)) : ∃ generated last,
      (run ids q none).on { after with now } = (.ok { w with snapshot := { w.snapshot with generated } }, last) ∧
      (∀ place, (last.files.at? place).isSome = (after.files.at? place).isSome) ∧
      ∀ place, pathOf place ≠ w.output → (∀ level, Sink.file level (some place) ∉ after.logging.sinks) →
        last.files.at? place = after.files.at? place := by
  obtain ⟨root, rfl, _⟩ := place_of_rootOf ht hlinks hfound
  have hr : Repeatable q root s h := ⟨ht, hlinks, hcwd, hunnamed, hfound, hload, hplain, hlogs⟩
  have hleft := hr.left_of_run hrun
  -- What the first run left is left at the later time too.
  have hlater : Left root h { after with now } :=
    ⟨hleft.project, { hleft.agrees with commits := hcommits }, { hleft.room with }, hleft.output⟩
  obtain ⟨generated, last, hagain⟩ := hr.run_again hrun hlater hclock
  obtain ⟨hplaces, hothers⟩ := hr.unchanged_of_run hlater hagain
  obtain ⟨g, _, _, _, _, rfl, _, _⟩ := hr.stored_of_run hrun
  refine ⟨generated, last, hagain, hplaces, ?_⟩
  intro place hplace
  apply hothers
  rintro rfl
  exact hplace rfl

/-! ## A project that is the current directory -/

open CommandLine (quietRequest)

/-- The host on which the empty project is the current directory and a log file is open. -/
def insideHost : Host := { lateHost with cwd := ["repo"] }

theorem bare_insideHost : Bare insideHost ["repo"] where
  directory := ⟨false, by decide⟩
  noSettings := by decide
  noManifest := by decide
  resolved := by decide
  settingsResolved := by decide
  short := by decide

theorem room_insideHost : Snapshot.Room insideHost ["repo"] "repo-uml.json" where
  wellFormed := wellFormed_lateTree
  directory := ⟨false, by decide⟩
  named := by decide
  besideNamed := by decide
  free := .inl (by decide)
  besideFree := by decide
  short := by decide

theorem repeatable_insideHost : Repeatable quietRequest ["repo"] (.default (pathOf ["repo"])) insideHost where
  wellFormed := wellFormed_lateTree
  linkless := .of_nodes (by decide)
  cwd := ⟨false, by decide⟩
  unnamed := rfl
  found := bare_insideHost.on_rootOf wellFormed_lateTree
  loaded := bare_insideHost.on_load wellFormed_lateTree
  noOutput := rfl
  unlogged := by
    intro level place hsink
    obtain ⟨_, rfl⟩ : level = 20 ∧ place = ["run.log"] := by simpa [insideHost, lateHost] using hsink
    exact .inl (by decide)

theorem run_insideHost : ∃ w after, (run .sequential quietRequest none).on insideHost = (.ok w, after) := by
  have hnames : lateTree.names ["repo"] = [] := FileTree.names_of_sorted (by decide) (by decide)
  obtain ⟨g, composed, hgenerated, hnumbers⟩ := bare_insideHost.generated wellFormed_lateTree hnames
    (fun _ => ⟨.notFound, rfl, rfl⟩) rfl .sequential quietRequest
  have hr := repeatable_insideHost
  have hnoted := (notes_ofSettings _ _ _ _).of_eq hgenerated
  have hplaced := on_outputPath_here hr.names hr.unnamed hr.noOutput composed
  rw [hnoted.cwd] at hplaced
  obtain ⟨last, hrun, _⟩ :=
    on_run_of_room hr.found hr.loaded hgenerated hplaced (room_insideHost.noted hnoted) hnumbers
  exact ⟨_, last, hrun⟩

/-- The run is repeated a day later, with its own document in the project. -/
theorem run_repeats_insideHost : ∃ w after, (run .sequential quietRequest none).on insideHost = (.ok w, after) ∧
    ∃ generated last, (run .sequential quietRequest none).on { after with now := ⟨86400000000, none⟩ } =
        (.ok { w with snapshot := { w.snapshot with generated } }, last) ∧
      (∀ place, (last.files.at? place).isSome = (after.files.at? place).isSome) ∧
      ∀ place, pathOf place ≠ w.output → (∀ level, Sink.file level (some place) ∉ after.logging.sinks) →
        last.files.at? place = after.files.at? place := by
  obtain ⟨w, after, hrun⟩ := run_insideHost
  have hr := repeatable_insideHost
  have hcommits : ∀ file answer, insideHost.git.lastCommit file = .ok answer →
      History.readCommit ⟨86400000000, none⟩ answer = History.readCommit insideHost.now answer := by
    intro file answer hanswer
    cases hanswer
  exact ⟨w, after, hrun, run_repeats hr.wellFormed hr.linkless hr.cwd hr.unnamed hr.found hr.loaded hr.noOutput
    hr.unlogged (by decide) hcommits hrun⟩

/-- The lines of a run that is repeated are added to its log, so the log is no longer as the first run left it. -/
theorem log_of_repeated_run : insideHost.files.WellFormed ∧ insideHost.files.Linkless ∧
    insideHost.files.DirectoryAt insideHost.cwd ∧ ∃ w after again last,
      (run .sequential quietRequest none).on insideHost = (.ok w, after) ∧
      (run .sequential quietRequest none).on after = (.ok again, last) ∧ pathOf ["run.log"] ≠ w.output ∧
      last.files.at? ["run.log"] ≠ after.files.at? ["run.log"] := by
  have hr := repeatable_insideHost
  obtain ⟨w, after, hrun⟩ := run_insideHost
  have hleft := hr.left_of_run hrun
  have hclock : after.now.stamp?.isSome := by
    rw [hr.now_of_run hrun]
    decide
  obtain ⟨generated, last, hagain⟩ := hr.run_again hrun hleft hclock
  have htaken : insideHost.logging.sinksFor LogRecord.info = [.file 20 (some ["run.log"])] := by decide
  have hfile : insideHost.files.at? ["run.log"] = some (.file []) := by decide
  obtain ⟨⟨b, bs, hlogged⟩, htaken⟩ := hr.logged_of_run htaken hfile (by decide) (by decide) hrun
  have hr' := hr.of_agrees hleft.project hleft.agrees
  have hcwd : after.cwd = ["repo"] := hleft.agrees.cwd
  obtain ⟨⟨c, cs, hmore⟩, _⟩ :=
    hr'.logged_of_run htaken hlogged (by rw [hcwd]; decide) (by rw [hcwd]; decide) hagain
  obtain ⟨_, _, _, _, _, rfl, _, _⟩ := hr.stored_of_run hrun
  refine ⟨hr.wellFormed, hr.linkless, hr.cwd, _, after, _, last, hrun, hagain, ?_, ?_⟩
  · intro hsame
    have hparts : ["run.log"] = ["repo", documentName ["repo"]] := congrArg Path.parts hsame
    exact absurd hparts (by decide)
  · rw [hmore, hlogged]
    simp

end Generation
end ClassAtlas
