import ClassAtlas.Proofs.Files.Agreement
import ClassAtlas.Proofs.Generation.Returning
/-!
# Hosts that an analysis cannot tell apart

The analysis of a project reads its source files, the tests beside them, its settings and its manifest. Other
files may come and go: on hosts that agree in what is read, the analysis answers alike.
-/
namespace ClassAtlas

open ClassAtlas.Action

/-- The analysis of the project at a root does not read what is at the place. -/
def Unread (root place : Location) : Prop :=
  ¬ root <+: place ∨ Dialect.isSourceSuffix (pathOf place).suffix = false ∧
    place ≠ root ++ [settingsFile] ∧ place ≠ root ++ [Manifest.fileName]

/-- A host without links whose log files are not read, and which is like the first host in what is read. -/
structure Host.Agrees (root : Location) (o h : Host) : Prop where
  files : o.files.Agrees (fun place => ¬ Unread root place) h.files
  unlogged : ∀ level place, Sink.file level (some place) ∈ h.logging.sinks → Unread root place
  cwd : h.cwd = o.cwd
  home : h.home = o.home
  users : h.users = o.users
  git : h.git = o.git
  commits : ∀ file answer, o.git.lastCommit file = .ok answer →
    History.readCommit h.now answer = History.readCommit o.now answer

theorem Host.Agrees.refl {root : Location} {h : Host} (ht : h.files.WellFormed) (hlinks : h.files.Linkless)
    (hlogs : ∀ level place, Sink.file level (some place) ∈ h.logging.sinks → Unread root place) : h.Agrees root h where
  files :=
    { wellFormed := ht
      linkless := hlinks
      directories := Iff.rfl
      read := fun _ => rfl }
  unlogged := hlogs
  cwd := rfl
  home := rfl
  users := rfl
  git := rfl
  commits := fun _ _ _ => rfl

theorem Host.Agrees.noted {root : Location} {o h h' : Host} (hh : o.Agrees root h) (hnoted : h.Noted h') :
    o.Agrees root h' where
  files :=
    { wellFormed := hnoted.wellFormed hh.files.wellFormed
      linkless := hh.files.linkless.grown hnoted.files
      directories := (hnoted.files.at?_iff rfl).trans hh.files.directories
      read := by
        intro place hread
        have hquiet : ∀ level, Sink.file level (some place) ∉ h.logging.sinks := fun level hsink =>
          hread (hh.unlogged level place hsink)
        exact (hnoted.apart place hquiet).trans (hh.files.read hread) }
  unlogged := by
    rw [hnoted.logging]
    exact hh.unlogged
  cwd := hnoted.cwd.trans hh.cwd
  home := hnoted.home.trans hh.home
  users := hnoted.users.trans hh.users
  git := hnoted.git.trans hh.git
  commits := by
    rw [hnoted.now]
    exact hh.commits

namespace Action

variable {α β : Type} {root place : Location} {o h h' : Host}

/-- On hosts that agree with the first one the action answers alike. -/
def Determined (root : Location) (o : Host) (a : Action α) : Prop :=
  ∀ ⦃h h' : Host⦄, o.Agrees root h → o.Agrees root h' → (a.on h').1 = (a.on h).1

theorem determined_pure (v : α) : Determined root o (pure v) := fun _ _ _ _ => rfl
theorem determined_throw (f : Failure) : Determined root o (throw f : Action α) := fun _ _ _ _ => rfl

theorem Determined.attempt {a : Action α} (ha : Determined root o a) : Determined root o (attempt a) :=
  fun _ _ hh hh' => congrArg Except.ok (ha hh hh')

theorem Succeeds.determined {a : Action Unit} (ha : a.Succeeds) : Determined root o a := by
  intro h h' _ _
  obtain ⟨next, hnext⟩ := ha h
  obtain ⟨next', hnext'⟩ := ha h'
  rw [hnext, hnext']

/-- What follows may depend on how the first answer comes about. -/
theorem Determined.bind_of {a : Action α} {f : α → Action β} (ha : Determined root o a) (hnotes : a.Notes)
    (hf : ∀ v h next, o.Agrees root h → a.on h = (.ok v, next) → Determined root o (f v)) :
    Determined root o (a >>= f) := by
  intro h h' hh hh'
  have hfirst := ha hh hh'
  rw [on_bind, on_bind]
  rcases hrun : a.on h with ⟨r, next⟩
  rcases hrun' : a.on h' with ⟨r', next'⟩
  rw [hrun, hrun'] at hfirst
  obtain rfl : r' = r := hfirst
  cases r' with
  | error e => rfl
  | ok v => exact hf v h next hh hrun (hh.noted (hnotes.of_eq hrun)) (hh'.noted (hnotes.of_eq hrun'))

theorem Determined.bind {a : Action α} {f : α → Action β} (ha : Determined root o a) (hnotes : a.Notes)
    (hf : ∀ v, Determined root o (f v)) : Determined root o (a >>= f) :=
  ha.bind_of hnotes fun v _ _ _ _ => hf v

/-- An answer on one of two hosts that agree is the answer on the other. -/
theorem Determined.on_eq {a : Action α} (ha : Determined root o a) (hh : o.Agrees root h) (hh' : o.Agrees root h')
    {r : Except Failure α} {next : Host} (hrun : a.on h = (r, next)) : ∃ next', a.on h' = (r, next') := by
  refine ⟨(a.on h').2, Prod.ext ?_ rfl⟩
  rw [ha hh hh', hrun]

theorem Determined.on_asks {a : Action α} (ha : Determined root o a) (hasks : a.Asks) (hh : o.Agrees root h)
    (hh' : o.Agrees root h') {r : Except Failure α} (hrun : a.on h = (r, h)) : a.on h' = (r, h') := by
  obtain ⟨next, hnext⟩ := ha.on_eq hh hh' hrun
  have hsame : (a.on h').2 = h' := hasks h'
  rw [hnext] at hsame
  rw [hnext]
  exact congrArg (Prod.mk r) hsame

theorem determined_log (logger : Option String) (level : Int) (message : String) :
    Determined root o (log logger level message) := (succeeds_log _ _ _).determined

/-! ## Looking at files -/

/-- A place that is shown alike by all trees which agree with that of the host. -/
def Certain (root : Location) (o : Host) (place : Location) : Prop :=
  FileTree.Certain (fun place => ¬ Unread root place) o.files place

theorem lookup_eq (hh : o.Agrees root h) (hh' : o.Agrees root h') (hplace : Certain root o place) (follow : Bool) :
    h'.files.lookup h'.cwd follow (pathOf place) = h.files.lookup h.cwd follow (pathOf place) := by
  rw [hh.cwd, hh'.cwd]
  exact hh.files.lookup_eq hh'.files hplace o.cwd follow

theorem determined_probe (hplace : Certain root o place) (follow : Bool) (test : Node → Bool) :
    Determined root o (probe follow test (pathOf place)) := by
  intro h h' hh hh'
  cases hnul : hasNul (pathOf place) with
  | true =>
    rw [probe, hnul]
    rfl
  | false => rw [on_probe hnul, on_probe hnul, lookup_eq hh hh' hplace]

theorem determined_readBytes (hplace : Certain root o place) : Determined root o (readBytes (pathOf place)) := by
  intro h h' hh hh'
  cases hnul : hasNul (pathOf place) with
  | true =>
    rw [readBytes, lookup, refuseNul, hnul]
    rfl
  | false => rw [Generation.on_readBytes hnul, Generation.on_readBytes hnul, lookup_eq hh hh' hplace]

theorem on_resolve_of_linkless {p : Path} (hlinks : h.files.Linkless) : (resolve p).on h =
    (if hasNul p then .error .nulInPath else .ok (pathOf (h.files.resolve h.cwd p)), h) := by
  cases hnul : hasNul p with
  | true =>
    rw [resolve, refuseNul, hnul]
    rfl
  | false => exact on_resolve hnul rfl hlinks.lookup_ne_linkLoop

theorem determined_expandHome (p : Path) : Determined root o (expandHome p) := fun _ _ hh hh' =>
  expandHome_congr (hh'.home.trans hh.home.symm) (hh'.users.trans hh.users.symm) p

theorem determined_resolve (p : Path) : Determined root o (resolve p) := by
  intro h h' hh hh'
  rw [on_resolve_of_linkless hh.files.linkless, on_resolve_of_linkless hh'.files.linkless, hh.cwd, hh'.cwd,
    hh.files.linkless.resolve_eq hh'.files.linkless hh.files.wellFormed hh'.files.wellFormed]

theorem eq_of_resolve (hlinks : h.files.Linkless) (hdots : ".." ∉ place) {p : Path} {next : Host}
    (hrun : (resolve (pathOf place)).on h = (.ok p, next)) : p = pathOf place := by
  have hplace : h.files.resolve h.cwd (pathOf place) = place :=
    FileTree.resolve_of_noLinks h.cwd hdots fun _ _ => hlinks _
  rw [on_resolve_of_linkless hlinks, hplace] at hrun
  split at hrun <;> cases hrun
  rfl

end Action

section
variable {α : Type} {root above : Location} {name : String} {o h h' next : Host}

/-! ## The settings -/

theorem Unread.not_settingsFile : ¬ Unread root (root ++ [settingsFile]) := by
  rintro (hnot | ⟨_, hsettings, _⟩)
  · exact hnot (List.prefix_append _ _)
  · exact hsettings rfl

theorem Unread.not_manifest : ¬ Unread root (root ++ [Manifest.fileName]) := by
  rintro (hnot | ⟨_, _, hmanifest⟩)
  · exact hnot (List.prefix_append _ _)
  · exact hmanifest rfl

/-- Of the files in the root those with the names of settings and manifest are read. -/
theorem certain_in_root (hroot : o.files.DirectoryAt root) (hname : name ∈ [settingsFile, Manifest.fileName]) :
    Certain root o (root ++ [name]) := by
  simp only [List.mem_cons, List.not_mem_nil, or_false] at hname
  rcases hname with rfl | rfl
  · exact .below hroot (by decide) Unread.not_settingsFile
  · exact .below hroot (by decide) Unread.not_manifest

/-- A probe of the root finds a directory, if it is possible at all. -/
theorem eq_true_of_isDirectory (hh : o.Agrees root h) (hroot : o.files.DirectoryAt root) {found : Bool}
    (hrun : (isDirectory (pathOf root)).on h = (.ok found, next)) : found = true := by
  have hdirectory := hh.files.directoryAt_iff.mpr hroot
  have hnul : hasNul (pathOf root) = false := hasNul_pathOf hh.files.wellFormed hdirectory.choose_spec
  rw [isDirectory, on_probe hnul] at hrun
  by_cases hlong : (pathOf root).toString.utf8ByteSize > FileTree.maxPathBytes
  · have hfault : h.files.lookup h.cwd true (pathOf root) = .error .nameTooLong := by
      apply FileTree.lookup_of_error
      rw [FileTree.locate, if_pos hlong]
    rw [hfault] at hrun
    cases hrun
  · obtain ⟨locked, hfound⟩ := (hh.files.wellFormed.paved hdirectory).lookup hlong h.cwd true
    have hfound : h.files.lookup h.cwd true (pathOf root) = .ok (root, .directory locked) := hfound
    rw [hfound] at hrun
    cases hrun
    rfl

namespace Settings

theorem filePath_eq (place : Location) : filePath (pathOf place) = isDirectory (pathOf place) >>= fun directory =>
    if directory then resolve ((pathOf place).child settingsFile)
    else if (pathOf place).name != settingsFile then resolve ((pathOf place).parent.child settingsFile)
    else resolve (pathOf place) := by
  have hexpanded : expandHome (pathOf place) = pure (pathOf place) := rfl
  rw [filePath, hexpanded, pure_bind]

theorem determined_filePath (hroot : o.files.DirectoryAt root) : Determined root o (filePath (pathOf root)) := by
  rw [filePath_eq]
  apply (determined_probe (.directory hroot) true Node.isDirectory).bind (asks_probe _ _ _).notes
  intro directory
  split
  · exact determined_resolve _
  · split <;> exact determined_resolve _

theorem eq_of_filePath (hh : o.Agrees root h) (hroot : o.files.DirectoryAt root) {file : Path}
    (hrun : (filePath (pathOf root)).on h = (.ok file, next)) : file = pathOf (root ++ [settingsFile]) := by
  rw [filePath_eq] at hrun
  obtain ⟨directory, hdirectory, hrun⟩ := (asks_probe _ _ _).bind_eq_ok hrun
  obtain rfl := eq_true_of_isDirectory hh hroot hdirectory
  have hdots : ".." ∉ root ++ [settingsFile] := by
    obtain ⟨locked, hnode⟩ := hh.files.directoryAt_iff.mpr hroot
    rw [List.mem_append, not_or]
    refine ⟨fun hmem => ?_, by decide⟩
    exact (hh.files.wellFormed.isName_of_mem hnode _ hmem).notDots rfl
  exact eq_of_resolve hh.files.linkless hdots hrun

theorem determined_readText (hroot : o.files.DirectoryAt root) :
    Determined root o (readText (pathOf (root ++ [settingsFile]))) := by
  have hfile := certain_in_root hroot (by simp : settingsFile ∈ _)
  apply (determined_readBytes hfile).attempt.bind (asks_readBytes _).attempt.notes
  intro result
  cases result with
  | error f =>
    dsimp only
    split <;> exact determined_throw _
  | ok bytes =>
    dsimp only
    split
    · exact determined_throw _
    · exact determined_pure _

theorem determined_load (hroot : o.files.DirectoryAt root) : Determined root o (load (pathOf root)) := by
  apply (determined_filePath hroot).bind_of (asks_filePath _).notes
  intro file h next hh hrun
  obtain rfl := eq_of_filePath hh hroot hrun
  apply (determined_resolve _).bind (asks_resolve _).notes
  intro above
  have hfile := certain_in_root hroot (by simp : settingsFile ∈ _)
  apply (determined_probe hfile true _).bind (asks_probe _ _ _).notes
  intro found
  split
  · exact determined_pure _
  · apply (determined_readText hroot).bind (asks_readText _).notes
    intro text h h' _ _
    rfl

end Settings

/-! ## The search -/

/-- A source file below the root of a project. -/
structure IsSource (root : Location) (o : Host) (above : Location) (name : String) : Prop where
  named : FileTree.IsName name
  directory : o.files.DirectoryAt above
  under : root <+: above
  suffix : Dialect.isSourceSuffix (pathOf (above ++ [name])).suffix = true

theorem IsSource.certain (hs : IsSource root o above name) : Certain root o (above ++ [name]) := by
  refine .below hs.directory hs.named.notDots ?_
  rintro (hnot | ⟨hsuffix, _⟩)
  · exact hnot (hs.under.trans (List.prefix_append _ _))
  · rw [hs.suffix] at hsuffix
    cases hsuffix

namespace Discovery

variable {included excluded : List String}

theorem wanted_iff {t t' : FileTree} {place : Location} (hlinks : t.Linkless) (hlinks' : t'.Linkless) :
    Wanted t' included excluded root place ↔ Wanted t included excluded root place :=
  ⟨fun hw => ⟨hlinks place, hw.suffix, hw.notExcluded, hw.isIncluded⟩,
    fun hw => ⟨hlinks' place, hw.suffix, hw.notExcluded, hw.isIncluded⟩⟩

theorem on_report (ht : h.files.WellFormed) (message : List Path → String) :
    (on (collect (walk h.files included excluded (h.files.height + 1) root "") >>= fun files =>
      debug "scanner" (message files) >>= fun _ => pure files) h).1 =
        .ok (((h.files.listing root).filter fun place =>
          decide (Wanted h.files included excluded root place)).map pathOf) := by
  obtain ⟨next, hcollected⟩ := on_collect (walk h.files included excluded (h.files.height + 1) root "") h
  rw [sources_walk_root included excluded ht] at hcollected
  rw [on_bind_of_ok hcollected]
  obtain ⟨last, hnoted⟩ := succeeds_debug "scanner" (message (((h.files.listing root).filter fun place =>
    decide (Wanted h.files included excluded root place)).map pathOf)) next
  rw [on_bind_of_ok hnoted, on_pure]

/-- The files that are wanted are read, so they are the same on both hosts. -/
theorem filter_wanted_eq (hh : o.Agrees root h) (hh' : o.Agrees root h') :
    ((h'.files.listing root).filter fun place => decide (Wanted h'.files included excluded root place)) =
      (h.files.listing root).filter fun place => decide (Wanted h.files included excluded root place) := by
  have hsame : ∀ place, decide (Wanted h'.files included excluded root place) =
      decide (Wanted h.files included excluded root place) := by
    intro place
    exact decide_eq_decide.mpr (wanted_iff hh.files.linkless hh'.files.linkless)
  simp only [hsame]
  apply hh.files.filter_listing_eq hh'.files
  rintro place hunder hwanted (hnot | ⟨hsuffix, _⟩)
  · exact hnot hunder
  · have hsource := isSourceSuffix_iff.mpr (of_decide_eq_true hwanted).suffix
    cases hsource.symm.trans hsuffix

theorem report_eq (hh : o.Agrees root h) (hh' : o.Agrees root h') (message : List Path → String) :
    (on (collect (walk h'.files included excluded (h'.files.height + 1) root "") >>= fun files =>
      debug "scanner" (message files) >>= fun _ => pure files) h').1 =
        (on (collect (walk h.files included excluded (h.files.height + 1) root "") >>= fun files =>
          debug "scanner" (message files) >>= fun _ => pure files) h).1 := by
  rw [on_report hh.files.wellFormed, on_report hh'.files.wellFormed, filter_wanted_eq hh hh']

theorem determined_sourceFiles (hroot : o.files.DirectoryAt root) (hnames : ∀ n ∈ root, FileTree.IsName n) :
    Determined root o (sourceFiles (pathOf root).toString included excluded) := by
  have hback : Path.ofString (pathOf root).toString = pathOf root := Path.ofString_toString_root hnames
  have hexpanded : expandHome (pathOf root) = pure (pathOf root) := rfl
  rw [sourceFiles, hback, hexpanded, pure_bind]
  apply (determined_resolve _).bind_of (asks_resolve _).notes
  intro place h next hh hrun
  obtain rfl := eq_of_resolve hh.files.linkless (fun hdots => (hnames _ hdots).notDots rfl) hrun
  apply (determined_probe (.directory hroot) true _).bind (asks_probe _ _ _).notes
  intro found
  cases found with
  | false => exact determined_throw _
  | true =>
    apply (determined_probe (.directory hroot) true _).bind (asks_probe _ _ _).notes
    intro directory
    cases directory with
    | false => exact determined_throw _
    | true =>
      intro h h' hh hh'
      exact report_eq hh hh' _

theorem LeadsTo.eq_root (hlinks : h.files.Linkless) (hnames : ∀ n ∈ root, FileTree.IsName n) {place : Location}
    (hleads : LeadsTo h (pathOf root).toString place) : place = root := by
  obtain ⟨p, hexpanded, hresolved⟩ := hleads.resolved
  have hback : Path.ofString (pathOf root).toString = pathOf root := Path.ofString_toString_root hnames
  rw [hback] at hexpanded
  cases hexpanded
  have hsame := eq_of_resolve hlinks (fun hdots => (hnames _ hdots).notDots rfl) hresolved
  exact congrArg Path.parts hsame

theorem isSource_of_sourceFiles (hh : o.Agrees root h) (hnames : ∀ n ∈ root, FileTree.IsName n) {files : List Path}
    (hrun : (sourceFiles (pathOf root).toString included excluded).on h = (.ok files, next)) :
    ∀ path ∈ files, ∃ above name, path = pathOf (above ++ [name]) ∧ IsSource root o above name := by
  obtain ⟨place, hleads⟩ := leadsTo_of_sourceFiles included excluded hrun
  obtain rfl := hleads.eq_root hh.files.linkless hnames
  obtain ⟨after, hall⟩ := on_sourceFiles_of_wellFormed included excluded hh.files.wellFormed hleads
  rw [hrun] at hall
  obtain rfl := Except.ok.inj (Prod.mk.inj hall).1
  intro path hpath
  obtain ⟨p, hp, rfl⟩ := List.mem_map.mp hpath
  obtain ⟨hlisted, hwanted⟩ := List.mem_filter.mp hp
  obtain ⟨rest, hne, rfl, ⟨node, hnode, _⟩, _⟩ := hh.files.wellFormed.mem_listing_iff.mp hlisted
  obtain ⟨more, name, rfl⟩ := (List.eq_nil_or_concat' rest).resolve_left hne
  rw [← List.append_assoc] at hnode hwanted ⊢
  obtain ⟨hname, habove⟩ := hh.files.wellFormed.parent hnode
  refine ⟨place ++ more, name, rfl, hname, hh.files.directoryAt_iff.mp habove, List.prefix_append _ _, ?_⟩
  exact isSourceSuffix_iff.mpr (of_decide_eq_true hwanted).suffix

end Discovery

/-! ## The analysis of files -/

namespace History

variable {file : Path}

theorem determined_notKnown (cause : String) : Determined root o (notKnown file cause) :=
  (determined_log _ _ _).bind (notes_debug _ _) fun _ => determined_pure _

theorem determined_refuse (c : Command) (fault : CommandFault) : Determined root o (query.refuse file c fault) := by
  unfold query.refuse
  split
  · exact determined_notKnown _
  · exact determined_throw _

/-- The answers of version control are the same, and they are read alike. -/
theorem determined_query (limit : Option Seconds) (top : Path) : Determined root o (query limit file top) := by
  have hask : ∀ (c : Command) (answer : VersionControl → Except CommandFault String),
      Determined root o (ask c answer) := by
    intro c answer h h' hh hh'
    show Except.ok (answer h'.git) = Except.ok (answer h.git)
    rw [hh.git, hh'.git]
  unfold query
  split
  case h_1 => exact determined_notKnown _
  case h_2 relative _ =>
    apply (hask _ _).bind (notes_ask _ _)
    intro commits
    cases commits with
    | error fault => exact determined_refuse _ _
    | ok commits =>
      apply (hask _ _).bind_of (notes_ask _ _)
      intro answer h next hh hrun
      cases answer with
      | error fault => exact determined_refuse _ _
      | ok answer =>
        have hanswer : o.git.lastCommit relative.toString = .ok answer := by
          rw [← hh.git]
          exact Except.ok.inj (Prod.mk.inj hrun).1
        -- The clocks may differ, so reading one is not determined; only what is read off the answer is.
        intro h h' hh hh'
        dsimp only
        rw [on_bind_of_ok (on_get h), on_bind_of_ok (on_get h'), hh.commits _ _ hanswer, hh'.commits _ _ hanswer]
        split
        · rfl
        · rfl
        · rfl
        · exact determined_notKnown _ hh hh'
        · exact determined_notKnown _ hh hh'

theorem determined_source (s : HistorySettings) (file top : Path) : Determined root o (source s file top) := by
  unfold source
  split
  · exact determined_query _ _
  · exact determined_pure _

end History

namespace SourceFile

theorem determined_read (hs : IsSource root o above name) (top : Path) :
    Determined root o (read (pathOf (above ++ [name])) top) := by
  apply (determined_readBytes hs.certain).bind (asks_readBytes _).notes
  intro bytes
  split
  · exact determined_throw _
  · split
    · exact determined_throw _
    · exact determined_pure _

theorem determined_hasTest (hs : IsSource root o above name) {f : SourceFile} (hpath : f.path = pathOf (above ++ [name])) :
    Determined root o f.hasTest := by
  have hsuffix : (pathOf (above ++ [name])).suffix ≠ "" := by
    intro hempty
    have hsource := hs.suffix
    rw [hempty] at hsource
    exact absurd hsource (by decide)
  -- The test has the suffix of its source file, so it is read, whether or not it is there.
  have hcertain : Certain root o (above ++ [Generation.testName name]) := by
    refine .below hs.directory (Generation.testName_ne_dots name) ?_
    rintro (hnot | ⟨hother, _⟩)
    · exact hnot (hs.under.trans (List.prefix_append _ _))
    · rw [Generation.suffix_testName hsuffix, hs.suffix] at hother
      cases hother
  unfold hasTest
  rw [hpath, Generation.siblingTest_eq hs.named]
  exact determined_probe hcertain true Node.isFile

theorem determined_record (hs : IsSource root o above name) {f : SourceFile} (hpath : f.path = pathOf (above ++ [name]))
    (id : String) (s : HistorySettings) (top : Path) : Determined root o (f.record id (History.source s) top) := by
  apply (History.determined_source s f.path top).bind (History.notes_source s f.path top)
  intro known
  apply (determined_hasTest hs hpath).bind f.asks_hasTest.notes
  intro tested
  exact determined_pure _

end SourceFile

namespace Generation

variable {s : HistorySettings} {top : Path}

theorem determined_passOver (p : Progress) (ids : Ids) (file : String) (f : Failure) :
    Determined root o (passOver p ids file f) := by
  unfold passOver
  split
  · exact determined_throw _
  · exact (determined_log _ _ _).bind (notes_warn _ _) fun _ => determined_pure _

theorem determined_analyzeNext (hs : IsSource root o above name) (p : Progress) :
    Determined root o (analyzeNext (History.source s) top p (pathOf (above ++ [name]))) := by
  apply (SourceFile.determined_read hs top).attempt.bind_of (SourceFile.asks_read _ _).attempt.notes
  intro result h next _ hrun
  cases result with
  | error f => exact (determined_passOver _ _ _ f).bind (notes_passOver _ _ _ f) fun _ => determined_pure _
  | ok source =>
    have hread : (SourceFile.read (pathOf (above ++ [name])) top).on h = (.ok source, next) := by
      rw [on_attempt] at hrun
      exact Prod.ext (Except.ok.inj (Prod.mk.inj hrun).1) (Prod.mk.inj hrun).2
    obtain ⟨_, _, hpath, _⟩ := read_of_ok hread
    apply (SourceFile.determined_record hs hpath _ s top).attempt.bind (source.notes_record _ s top).attempt
    intro result
    cases result with
    | error f => exact (determined_passOver _ _ _ f).bind (notes_passOver _ _ _ f) fun _ => determined_pure _
    | ok r => exact determined_pure _

theorem determined_analyzeAll {total index : Nat} {paths : List Path}
    (hpaths : ∀ path ∈ paths, ∃ above name, path = pathOf (above ++ [name]) ∧ IsSource root o above name)
    (p : Progress) : Determined root o (analyzeAll (History.source s) top total index p paths) := by
  induction paths generalizing index p with
  | nil => exact determined_pure _
  | cons path paths ih =>
    obtain ⟨above, name, rfl, hs⟩ := hpaths path List.mem_cons_self
    have hrest := fun other hother => hpaths other (List.mem_cons_of_mem _ hother)
    apply (determined_analyzeNext hs p).bind (notes_analyzeNext s top p _)
    rintro ⟨done, next⟩
    dsimp only
    split
    · exact (determined_log _ _ _).bind (notes_debug _ _) fun _ => ih hrest next
    · exact ih hrest next

/-! ## The snapshot -/

theorem determined_readManifest (hroot : o.files.DirectoryAt root) : Determined root o (Manifest.read (pathOf root)) := by
  have hpassOver : ∀ file cause, Determined root o (Manifest.passOver file cause) := by
    intro file cause
    exact (determined_log _ _ _).bind (notes_debug _ _) fun _ => determined_pure _
  have hfile := certain_in_root hroot (by simp : Manifest.fileName ∈ _)
  apply (determined_probe hfile true _).bind (asks_probe _ _ _).notes
  intro found
  cases found with
  | false => exact determined_pure _
  | true =>
    apply (determined_readBytes hfile).attempt.bind (asks_readBytes _).attempt.notes
    intro result
    cases result with
    | error f =>
      dsimp only
      split
      · exact hpassOver _ _
      · exact determined_throw _
    | ok bytes =>
      dsimp only
      split
      · exact hpassOver _ _
      · split
        · exact hpassOver _ _
        · exact determined_throw _
        · exact determined_throw _
        · exact determined_pure _
        · exact determined_pure _

/-- The work on a project up to the point where the clock is read. -/
def survey (ids : Ids) (root : Path) (q : Request) (s : Settings) : Action (Progress × Project) := do
  let included := q.included.getD s.included
  let excluded := q.excluded.getD s.excluded
  info orchestrator ("Analyzing project: " ++ root.toString)
  info orchestrator ("Include patterns: " ++ shownPatterns included "(all)")
  info orchestrator ("Exclude patterns: " ++ shownPatterns excluded "(none)")
  let files ← Discovery.sourceFiles root.toString included excluded
  info orchestrator ("Found " ++ Nat.repr files.length ++ " source files")
  let done ← analyzeAll (History.source s.history) root files.length 0 (.start ids) files
  noteStubs (Assembly.undefinedNames done.records)
  let project ← Project.load root (nameOf q.projectName root) s.project
  return (done, project)

theorem ofSettings_eq_survey (ids : Ids) (top : Path) (q : Request) (s : Settings) : ofSettings ids top q s =
    survey ids top q s >>= fun result => do
      let snapshot ← Snapshot.build result.2 ((Assembly.start result.1.ids).gather result.1.records).1 (← get).now
      return ⟨snapshot, result.1.analyzed, result.1.skipped⟩ := by
  simp only [ofSettings, survey, bind_assoc, pure_bind]

theorem notes_survey (ids : Ids) (top : Path) (q : Request) (s : Settings) : Notes (survey ids top q s) :=
  (notes_info _ _).bind fun _ => (notes_info _ _).bind fun _ => (notes_info _ _).bind fun _ =>
    (Discovery.notes_sourceFiles _ _ _).bind fun _ => (notes_info _ _).bind fun _ =>
      (notes_analyzeAll _ _ _ _ _ _).bind fun _ => (notes_noteStubs _).bind fun _ =>
        (notes_load _ _ _).bind fun _ => notes_pure _

theorem determined_survey (hroot : o.files.DirectoryAt root) (hnames : ∀ n ∈ root, FileTree.IsName n) (ids : Ids)
    (q : Request) (s : Settings) : Determined root o (survey ids (pathOf root) q s) := by
  apply (determined_log _ _ _).bind (notes_info _ _)
  intro _
  apply (determined_log _ _ _).bind (notes_info _ _)
  intro _
  apply (determined_log _ _ _).bind (notes_info _ _)
  intro _
  -- That the files which are found are read is known only of those that a search has given.
  apply (Discovery.determined_sourceFiles hroot hnames).bind_of (Discovery.notes_sourceFiles _ _ _)
  intro files h next hh hrun
  have hsources := Discovery.isSource_of_sourceFiles hh hnames hrun
  apply (determined_log _ _ _).bind (notes_info _ _)
  intro _
  apply (determined_analyzeAll hsources _).bind (notes_analyzeAll _ _ _ _ _ _)
  intro done
  apply (succeeds_noteStubs _).determined.bind (notes_noteStubs _)
  intro _
  apply Determined.bind ((determined_readManifest hroot).bind (notes_readManifest _) fun _ => determined_pure _)
    (notes_load _ _ _)
  intro project
  exact determined_pure _

/-- On hosts that agree the same snapshot is put together, but for the time that it bears. -/
theorem ofSettings_agrees (hroot : o.files.DirectoryAt root) (hnames : ∀ n ∈ root, FileTree.IsName n) {ids : Ids}
    {q : Request} {s : Settings} {g : Generation} (hh : o.Agrees root h) (hh' : o.Agrees root h')
    (hclock : h'.now.stamp?.isSome) (hrun : (ofSettings ids (pathOf root) q s).on h = (.ok g, next)) :
    ∃ generated next', (ofSettings ids (pathOf root) q s).on h' =
      (.ok { g with snapshot := { g.snapshot with generated } }, next') := by
  rw [ofSettings_eq_survey] at hrun ⊢
  obtain ⟨result, middle, hsurvey, hrun⟩ := bind_eq_ok hrun
  obtain ⟨middle', hsurvey'⟩ := (determined_survey hroot hnames ids q s).on_eq hh hh' hsurvey
  obtain ⟨stamp, hstamp⟩ := Option.isSome_iff_exists.mp hclock
  have hnoted := (notes_survey _ _ _ _).of_eq hsurvey'
  rw [on_bind_of_ok (on_get middle), Snapshot.build] at hrun
  rw [on_bind_of_ok hsurvey', on_bind_of_ok (on_get middle'), Snapshot.build, hnoted.now, hstamp]
  cases hfirst : middle.now.stamp? with
  | none =>
    rw [hfirst] at hrun
    cases hrun
  | some generated =>
    rw [hfirst] at hrun
    cases hrun
    exact ⟨stamp, middle', rfl⟩

end Generation
end

end ClassAtlas
