import ClassAtlas.Proofs.Atlas.Undoing
import ClassAtlas.Proofs.CommandLine.Output
/-!
# A run that fails

A run that fails, at whatever stage, leaves the files as they were, up to the lines of its log. New are at most the
directories above its output.
-/
namespace ClassAtlas.Generation

open ClassAtlas.Action

variable {h h' after : Host} {q : Request} {output : Option String} {ids : Ids} {f : Failure} {target : Path}

/-- The path that a run writes to, once it comes to that. -/
def Targets (q : Request) (output : Option String) (h : Host) (target : Path) : Prop :=
  ∃ root settings, (rootOf (Path.ofString q.path)).on h = (.ok root, h) ∧
    (Settings.load root).on h = (.ok settings, h) ∧ (outputPath root q output settings).on h = (.ok target, h)

theorem outputPath_noted (hnoted : h.Noted h') (root : Path) (q : Request) (output : Option String) (s : Settings) :
    ((outputPath root q output s).on h').1 = ((outputPath root q output s).on h).1 := by
  unfold outputPath
  split
  · exact expandHome_congr hnoted.home hnoted.users _
  · rfl
  · show Except.ok ((pathOf h'.cwd).join _) = Except.ok ((pathOf h.cwd).join _)
    rw [hnoted.cwd]

theorem steady_outputPath (root : Path) (q : Request) (output : Option String) (s : Settings) :
    Steady (outputPath root q output s) := fun _ _ hnoted _ => outputPath_noted hnoted root q output s

/-- A run fails before there is anything to write, or in writing it. -/
theorem run_failed_cases (ht : h.files.WellFormed) (hrun : (run ids q output).on h = (.error f, after)) :
    h.Noted after ∨ ∃ g composed target, h.Noted composed ∧ Targets q output h target ∧
      (Snapshot.write g target).on composed = (.error f, after) := by
  rcases (asks_rootOf _).bind_eq_error hrun with ⟨_, rfl⟩ | ⟨root, hroot, hrun⟩
  · exact .inl (.refl _)
  rcases (Settings.asks_load root).bind_eq_error hrun with ⟨_, rfl⟩ | ⟨settings, hload, hrun⟩
  · exact .inl (.refl _)
  rcases bind_eq_error hrun with hgenerated | ⟨g, composed, hgenerated, hrun⟩
  · exact .inl ((notes_ofSettings _ _ _ _).of_eq hgenerated)
  have hnoted := (notes_ofSettings _ _ _ _).of_eq hgenerated
  rcases (asks_outputPath _ _ _ _).bind_eq_error hrun with ⟨_, rfl⟩ | ⟨target, hplaced, hrun⟩
  · exact .inl hnoted
  have htarget := (steady_outputPath root q output settings).on_eq (asks_outputPath _ _ _ _) hnoted ht hplaced
  rcases bind_eq_error hrun with hwrite | ⟨written, left, _, hrun⟩
  · exact .inr ⟨_, _, target, hnoted, ⟨root, settings, hroot, hload, htarget⟩, hwrite⟩
  · obtain ⟨noted, hinfo⟩ := succeeds_log (some orchestrator) LogRecord.info ("Output file: " ++ written.toString) left
    have hinfo : (info orchestrator ("Output file: " ++ written.toString)).on left = (.ok (), noted) := hinfo
    rw [on_bind_of_ok hinfo] at hrun
    cases hrun

/-- What notes leave of a node: it is the same, or it is a file that is logged to and got lines added. -/
theorem node_of_noted (hnoted : h.Noted h') {place : Location} {node : Node} (hnode : h.files.at? place = some node) :
    h'.files.at? place = some node ∨ ∃ level bytes text, Sink.file level (some place) ∈ h.logging.sinks ∧
      node = .file bytes ∧ h'.files.at? place = some (.file (bytes ++ Utf8.encode text)) := by
  by_cases hlogged : ∃ level, Sink.file level (some place) ∈ h.logging.sinks
  · obtain ⟨level, hsink⟩ := hlogged
    obtain ⟨later, hlater, hgrown⟩ := hnoted.files.forth hnode
    cases hgrown with
    | same => exact .inl hlater
    | added bytes text => exact .inr ⟨level, bytes, text, hsink, rfl, hlater⟩
  · refine .inl ?_
    rw [hnoted.apart place fun level hsink => hlogged ⟨level, hsink⟩, hnode]

/-- When nothing is at the temporary path beside the output, nor will be once the directories above are made, a
failed run leaves every node as it was, except for lines in log files, makes no nodes but directories above the
output, and leaves nothing at the temporary path. -/
theorem run_failed_leaves (ht : h.files.WellFormed) (hcwd : h.files.DirectoryAt h.cwd)
    (hvacant : ∀ target, Targets q output h target → ∀ temporary ∈ Snapshot.temporaryPath? target, h.Vacant temporary)
    (hready : ∀ target, Targets q output h target → ∀ temporary ∈ Snapshot.temporaryPath? target, ∀ ready,
      (ensureDirectories target.parent).on h = (.ok (), ready) → ready.Vacant temporary)
    (hrun : (run ids q output).on h = (.error f, after)) :
    (∀ place node, h.files.at? place = some node → after.files.at? place = some node ∨
      ∃ level bytes text, Sink.file level (some place) ∈ h.logging.sinks ∧ node = .file bytes ∧
        after.files.at? place = some (.file (bytes ++ Utf8.encode text))) ∧
    (∀ place node, h.files.at? place = none → after.files.at? place = some node → node = .directory false ∧
      ∃ target names, Targets q output h target ∧ names <+: target.parent.parts ∧
        after.files.lookup after.cwd true ⟨target.anchor, names⟩ = .ok (place, node)) ∧
    ∀ target, Targets q output h target → ∀ temporary ∈ Snapshot.temporaryPath? target, after.Vacant temporary := by
  rcases run_failed_cases ht hrun with hnoted | ⟨g, composed, target, hnoted, htarget, hwrite⟩
  · refine ⟨fun place node => node_of_noted hnoted, fun place node hnone hnode => ?_, fun target htarget temporary hsome =>
      (hvacant target htarget temporary hsome).noted hnoted⟩
    rw [hnoted.files.at?_eq_none_iff.mpr hnone] at hnode
    cases hnode
  · have hhoused : composed.files.Housed composed.cwd := by
      rw [hnoted.cwd]
      exact hnoted.files.housed (.of_wellFormed ht hcwd)
    have hfree : ∀ temporary ∈ Snapshot.temporaryPath? target, ∀ ready,
        (ensureDirectories target.parent).on composed = (.ok (), ready) → ready.Vacant temporary := by
      intro temporary htemporary ready hensured
      -- The directories are made as they would have been before notes were taken.
      obtain ⟨hsame, halike⟩ := follows_makeDirectories target.parent _ ⟨hnoted.files, hnoted.cwd⟩
      have hunfold : (ensureDirectories target.parent).on composed =
        (makeDirectories target.parent (target.parent.parts.length + 1)).on composed := rfl
      rw [← hunfold, hensured] at hsame halike
      rintro ⟨place, node⟩ hfound
      rw [halike.cwd] at hfound
      rcases halike.files.lookup_cases _ false temporary with ⟨errno, _, hnew⟩ | ⟨place', m, n, hold, _, _⟩
      · rw [hnew] at hfound
        cases hfound
      · have hmade : (ensureDirectories target.parent).on h = (.ok (), ((ensureDirectories target.parent).on h).2) :=
          Prod.ext hsame.symm rfl
        exact hready target htarget temporary htemporary _ hmade _ hold
    obtain ⟨made, hextends, hleft, hfiles, hafter⟩ := Snapshot.write_failed hhoused hwrite
      (fun temporary hsome => (hvacant target htarget temporary hsome).noted hnoted) hfree
    have hlookup : ∀ {p : Path} {found : Location × Node}, made.files.lookup made.cwd true p = .ok found →
        after.files.lookup after.cwd true p = .ok found := by
      intro p found hfound
      rw [hafter]
      exact FileTree.lookup_of_more (fun place => .inl (hfiles place).symm) hfound
    refine ⟨fun place node hnode => ?_, fun place node hnone hnode => ?_, fun other hother temporary hsome => ?_⟩
    · rw [hfiles]
      rcases node_of_noted hnoted hnode with hsame | ⟨level, bytes, text, hsink, hfile, hgrown⟩
      · exact .inl (hextends.kept hsame)
      · exact .inr ⟨level, bytes, text, hsink, hfile, hextends.kept hgrown⟩
    · rw [hfiles] at hnode
      obtain ⟨hkind, names, name, hprefix, _, hfound⟩ :=
        hextends.made (hnoted.files.at?_eq_none_iff.mpr hnone) hnode
      exact ⟨hkind, target, names ++ [name], htarget, hprefix, hlookup hfound⟩
    · obtain ⟨root, settings, hroot, hload, hplaced⟩ := htarget
      obtain ⟨root', settings', hroot', hload', hplaced'⟩ := hother
      cases hroot.symm.trans hroot'
      cases hload.symm.trans hload'
      cases hplaced.symm.trans hplaced'
      exact (hleft temporary hsome).congr hfiles hafter

/-! ## A run over a directory -/

open CommandLine (quietRequest)

/-- A tree with an empty project, two directories where output might go, a file and a log. -/
def lateTree : FileTree where
  nodes := [([".x.tmp"], .file [1]), (["repo"], .directory false), (["run.log"], .file []), (["x"], .directory false),
    (["y"], .directory false)]

/-- The host with the tree that logs to the file. -/
def lateHost : Host := { Host.holding lateTree with logging := ⟨20, false, [.file 20 (some ["run.log"])]⟩ }

theorem wellFormed_lateTree : lateTree.WellFormed := by decide

theorem bare_lateTree : Bare lateHost ["repo"] where
  directory := ⟨false, by decide⟩
  noSettings := by decide
  noManifest := by decide
  resolved := by decide
  settingsResolved := by decide
  short := by decide

/-- After the first step of the work notes are taken at most. -/
theorem ofSettings_eq_bind (ids : Ids) (root : Path) (q : Request) (s : Settings) : ∃ rest : Action Generation,
    ofSettings ids root q s = (info orchestrator ("Analyzing project: " ++ root.toString) >>= fun _ => rest) ∧
      rest.Notes := by
  refine ⟨_, rfl, ?_⟩
  refine (notes_info _ _).bind fun _ => (notes_info _ _).bind fun _ =>
    (Discovery.notes_sourceFiles _ _ _).bind fun files => (notes_info _ _).bind fun _ =>
      (notes_analyzeAll _ _ _ _ _ _).bind fun done => (notes_noteStubs _).bind fun _ => ?_
  rcases (Assembly.start done.ids).gather done.records with ⟨gathering, assembly⟩
  exact (notes_load _ _ _).bind fun project => notes_get.bind fun h =>
    (asks_build _ _ _).notes.bind fun _ => notes_pure _

/-- With one sink a line goes to the end of its file. -/
theorem info_of_sink {level : Int} {place : Location} {bytes : List UInt8} (hsinks : h.logging.sinks.isEmpty = false)
    (htaken : h.logging.sinksFor LogRecord.info = [.file level (some place)])
    (hfile : h.files.at? place = some (.file bytes)) (hne : place ≠ []) (logger message : String) :
    ∃ next line, (info logger message).on h = (.ok (), next) ∧
      next.files.at? place = some (.file (bytes ++ Utf8.encode (line ++ "\n").toList)) := by
  let r : LogRecord := ⟨LogRecord.info, LogRecord.loggerName (some logger), message⟩
  let noted : Host := { h with journal := h.journal ++ [r] }
  have hjournal : on (modify fun h => { h with journal := h.journal ++ [r] }) h = (.ok ⟨⟩, noted) := on_modify _ _
  obtain ⟨line, hline⟩ : ∃ line, clockStamp noted.now ++ " " ++ LogRecord.levelName r.level ++ " " ++ r.logger ++
      ": " ++ r.message = line := ⟨_, rfl⟩
  let written : Host := { noted with files := noted.files.put place (.file (bytes ++ Utf8.encode (line ++ "\n").toList)) }
  have hall : (List.forM [Sink.file level (some place)] (deliver r)).on noted = (.ok ⟨⟩, written) := by
    have hfile : noted.files.at? place = some (.file bytes) := hfile
    show (deliver r (.file level (some place)) >>= fun _ => pure PUnit.unit).on noted = _
    rw [deliver, on_bind, on_bind_of_ok (on_get noted), hline, appendTo, on_modify]
    simp only [hfile]
    rfl
  refine ⟨written, line, ?_, FileTree.at?_put_self hne⟩
  have hquiet : (noted.logging.sinks.isEmpty && noted.logging.propagate && decide (LogRecord.info ≥ LogRecord.warning)) =
      false := by
    show (h.logging.sinks.isEmpty && _ && _) = false
    rw [hsinks, Bool.false_and, Bool.false_and]
  simp only [info, log]
  rw [on_bind_of_ok hjournal, on_bind_of_ok (on_get noted)]
  show (List.forM (h.logging.sinksFor LogRecord.info) (deliver r) >>= fun _ => _).on noted = _
  rw [htaken, on_bind_of_ok hall, hquiet]
  rfl

/-- The work on a project adds to the log. -/
theorem logged_of_ofSettings {ids : Ids} {root : Path} {s : Settings} {g : Generation} {level : Int} {place : Location}
    {bytes : List UInt8} (htaken : h.logging.sinksFor LogRecord.info = [.file level (some place)])
    (hfile : h.files.at? place = some (.file bytes)) (hrun : (ofSettings ids root q s).on h = (.ok g, h')) :
    ∃ b bs, h'.files.at? place = some (.file (bytes ++ b :: bs)) := by
  have hne : place ≠ [] := by
    rintro rfl
    cases hfile
  have hsinks : h.logging.sinks.isEmpty = false := by
    cases hnone : h.logging.sinks with
    | nil => simp [Logging.sinksFor, hnone] at htaken
    | cons => rfl
  obtain ⟨rest, hrest, hnotes⟩ := ofSettings_eq_bind ids root q s
  obtain ⟨next, line, hinfo, hlogged⟩ :=
    info_of_sink hsinks htaken hfile hne orchestrator ("Analyzing project: " ++ root.toString)
  rw [hrest, on_bind_of_ok hinfo] at hrun
  have hend : Utf8.encode (line ++ "\n").toList ≠ [] := by
    have hlast : Utf8.encode "\n".toList ≠ [] := by decide
    rw [String.toList_append, Utf8.encode_append]
    exact List.append_ne_nil_of_right_ne_nil _ hlast
  obtain ⟨b, bs, hbytes⟩ := List.exists_cons_of_ne_nil hend
  rw [hbytes] at hlogged
  exact (hnotes.of_eq hrun).lengthened hlogged

theorem generated_lateTree : ∃ g composed,
    (ofSettings .sequential (pathOf ["repo"]) quietRequest (.default (pathOf ["repo"]))).on lateHost =
      (.ok g, composed) ∧ g.snapshot.toJson.hasLongNumber = false ∧
      ∃ b bs, composed.files.at? ["run.log"] = some (.file (b :: bs)) := by
  have hnames : lateTree.names ["repo"] = [] := FileTree.names_of_sorted (by decide) (by decide)
  obtain ⟨g, composed, hgenerated, hnumbers⟩ := bare_lateTree.generated wellFormed_lateTree hnames
    (fun _ => ⟨.notFound, rfl, rfl⟩) rfl .sequential quietRequest
  have hlogged := @logged_of_ofSettings lateHost _ _ _ _ _ _ 20 ["run.log"] [] (by decide) (by decide) hgenerated
  exact ⟨g, composed, hgenerated, hnumbers, hlogged⟩

/-- A run fails over a directory, and what was at the temporary place is lost. -/
theorem run_lateHost {text : String} {made : Host} {k : Nat} {temporary : Path}
    (hexpanded : ∀ h, (expandHome (Path.ofString text)).on h = (.ok (Path.ofString text), h))
    (hensured : (ensureDirectories (Path.ofString text).parent).on lateHost = (.ok (), made))
    (htemporary : Snapshot.temporaryPath? (Path.ofString text) = some temporary) (hnul : hasNul temporary = false)
    (hbeside : made.files.LastIn made.cwd temporary (Snapshot.temporaryName (Path.ofString text).name) k [])
    (hfree : made.files.Free [Snapshot.temporaryName (Path.ofString text).name])
    (hlast : made.files.LastIn made.cwd (Path.ofString text) (Path.ofString text).name k [])
    (hdirectory : made.files.DirectoryAt [(Path.ofString text).name])
    (hlog : "run.log" ≠ Snapshot.temporaryName (Path.ofString text).name) :
    ∃ f after, (run .sequential quietRequest (some text)).on lateHost = (.error f, after) ∧
      after.files.at? [Snapshot.temporaryName (Path.ofString text).name] = none ∧
      ∃ b bs, after.files.at? ["run.log"] = some (.file (b :: bs)) := by
  obtain ⟨g, composed, hgenerated, hnumbers, b, bs, hlogged⟩ := generated_lateTree
  have hnoted := (notes_ofSettings _ _ _ _).of_eq hgenerated
  obtain ⟨hsame, halike⟩ := follows_makeDirectories (Path.ofString text).parent
    ((Path.ofString text).parent.parts.length + 1) ⟨hnoted.files, hnoted.cwd⟩
  have hunfold : ∀ h, (makeDirectories (Path.ofString text).parent ((Path.ofString text).parent.parts.length + 1)).on h =
    (ensureDirectories (Path.ofString text).parent).on h := fun _ => rfl
  rw [hunfold, hunfold, hensured] at hsame halike
  rcases hready : (ensureDirectories (Path.ofString text).parent).on composed with ⟨r, ready⟩
  rw [hready] at hsame halike
  obtain rfl : r = .ok () := hsame
  have hhoused : composed.files.Housed composed.cwd := by
    rw [hnoted.cwd]
    exact hnoted.files.housed (.of_wellFormed wellFormed_lateTree ⟨false, rfl⟩)
  have hextends := (makeDirectories_spec hhoused hready).1
  have hviews : ∀ q, ready.files.view q = made.files.view q := halike.files.view_eq
  have hcwd : ready.cwd = made.cwd := halike.cwd
  obtain ⟨f, after, hwrite, hlost, hothers⟩ := @Snapshot.write_over_directory composed _ temporary _ ready k [] hnumbers hready htemporary hnul
    (by rw [hcwd]; exact hbeside.congr fun q _ => hviews q) (halike.files.free_iff.mpr hfree)
    (by rw [hcwd]; exact hlast.congr fun q _ => hviews q) (halike.files.directoryAt_iff.mpr hdirectory)
  refine ⟨f, after, ?_, hlost, b, bs, ?_⟩
  · have hroot : (rootOf (Path.ofString quietRequest.path)).on lateHost = (.ok (pathOf ["repo"]), lateHost) :=
      bare_lateTree.on_rootOf wellFormed_lateTree
    have hplaced : (outputPath (pathOf ["repo"]) quietRequest (some text) (.default (pathOf ["repo"]))).on composed =
        (.ok (Path.ofString text), composed) := hexpanded composed
    rw [run, on_bind_of_ok hroot, on_bind_of_ok (bare_lateTree.on_load wellFormed_lateTree), on_bind_of_ok hgenerated,
      on_bind_of_ok hplaced, on_bind, hwrite]
  · rw [hothers _ (by simpa using hlog)]
    exact hextends.kept hlogged

theorem targets_lateHost {text : String}
    (hexpanded : ∀ h, (expandHome (Path.ofString text)).on h = (.ok (Path.ofString text), h)) :
    ∀ target, Targets quietRequest (some text) lateHost target ↔ target = Path.ofString text := by
  have hroot : (rootOf (Path.ofString quietRequest.path)).on lateHost = (.ok (pathOf ["repo"]), lateHost) :=
    bare_lateTree.on_rootOf wellFormed_lateTree
  have hload := bare_lateTree.on_load wellFormed_lateTree
  intro target
  constructor
  · rintro ⟨root, settings, hroot', hload', hplaced⟩
    cases hroot.symm.trans hroot'
    cases hload.symm.trans hload'
    cases (hexpanded lateHost).symm.trans hplaced
    rfl
  · rintro rfl
    exact ⟨_, _, hroot, hload, hexpanded lateHost⟩

theorem lastIn_lateTree {name : String} (hname : FileTree.IsName name)
    (hshort : ¬ (Path.toString ⟨.here, [name]⟩).utf8ByteSize > FileTree.maxPathBytes) :
    lateTree.LastIn [] ⟨.here, [name]⟩ name FileTree.maxLinks [] :=
  ⟨rfl, hname.notDots, Nat.not_lt.mpr hname.short, hshort, FileTree.reach_nil _ _ _⟩

/-- The output is a directory: it stays as it is, and nothing is left beside it. -/
theorem run_failed_leaves_lateHost : ∃ f after,
    (run .sequential quietRequest (some "y")).on lateHost = (.error f, after) ∧
      after.files.at? ["y"] = some (.directory false) ∧ after.Vacant ⟨.here, [".y.tmp"]⟩ := by
  have hexpanded : ∀ h, (expandHome (Path.ofString "y")).on h = (.ok (Path.ofString "y"), h) := fun _ => rfl
  have htemporary : Snapshot.temporaryPath? (Path.ofString "y") = some ⟨.here, [".y.tmp"]⟩ := by decide
  have hbeside : lateTree.LastIn [] ⟨.here, [".y.tmp"]⟩ ".y.tmp" FileTree.maxLinks [] :=
    lastIn_lateTree (by decide) (by decide)
  have hlast : lateTree.LastIn [] ⟨.here, ["y"]⟩ "y" FileTree.maxLinks [] := lastIn_lateTree (by decide) (by decide)
  have hhere : ∀ follow, lateHost.files.lookup lateHost.cwd follow (Path.ofString "y").parent =
      .ok ([], .directory false) := by
    intro follow
    refine FileTree.lookup_of_node ?_ rfl
    show lateTree.locate [] follow ⟨.here, []⟩ = _
    rw [FileTree.locate, if_neg (by decide)]
    exact FileTree.walk_nil ..
  have hensured := on_ensureDirectories (h := lateHost) (by decide) (hhere false) (hhere true)
  obtain ⟨f, after, hrun, _⟩ := run_lateHost hexpanded hensured htemporary (by decide) hbeside (.inl (by decide)) hlast
    ⟨false, by decide⟩ (by decide)
  have hvacant : lateHost.Vacant ⟨.here, [".y.tmp"]⟩ := by
    intro found hfound
    have hnothing := FileTree.lookup_of_nothing hbeside.locate_self (by decide)
    cases hnothing.symm.trans hfound
  obtain ⟨hkept, _, hleft⟩ := run_failed_leaves (h := lateHost) wellFormed_lateTree ⟨false, rfl⟩
    (fun target htarget temporary hsome => by
      rw [(targets_lateHost hexpanded target).mp htarget, htemporary] at hsome
      cases hsome
      exact hvacant)
    (fun target htarget temporary hsome ready hready => by
      rw [(targets_lateHost hexpanded target).mp htarget] at hsome hready
      rw [htemporary] at hsome
      cases hsome
      cases hensured.symm.trans hready
      exact hvacant)
    hrun
  refine ⟨f, after, hrun, ?_, hleft _ ((targets_lateHost hexpanded _).mpr rfl) _ htemporary⟩
  rcases hkept ["y"] (.directory false) (by decide) with hsame | ⟨_, _, _, _, hfile, _⟩
  · exact hsame
  · cases hfile

theorem ensureDirectories_lateHost : (ensureDirectories ⟨.here, ["new", ".."]⟩).on lateHost =
    (.ok (), { lateHost with files := lateTree.put ["new"] (.directory false) }) := by
  let made : Host := { lateHost with files := lateTree.put ["new"] (.directory false) }
  have hnew : lateTree.view ([] ++ ["new"]) = none := by decide
  have hmissing : lateHost.files.locate lateHost.cwd false ⟨.here, ["new", ".."]⟩ = .error .noEntry := by
    show lateTree.locate [] false ⟨.here, ["new", ".."]⟩ = _
    rw [FileTree.locate, if_neg (by decide)]
    show lateTree.walk false FileTree.maxLinks [] ["new", ".."] = _
    rw [FileTree.walk_step (by decide) (by decide), hnew]
    rfl
  have habove : (makeDirectories ⟨.here, ["new"]⟩ 2).on lateHost = (.ok (), made) := by
    have hplace : lateHost.files.locate lateHost.cwd false ⟨.here, ["new"]⟩ = .ok ["new"] := by
      show lateTree.locate [] false ⟨.here, ["new"]⟩ = _
      rw [FileTree.locate, if_neg (by decide)]
      show lateTree.walk false FileTree.maxLinks [] ["new"] = _
      rw [FileTree.walk_step (by decide) (by decide), hnew]
      rfl
    have hmade := on_ensureDirectory_of_missing (by decide) hplace (by decide)
    rw [makeDirectories, on_bind_of_ok (on_attempt _ lateHost), hmade]
    rfl
  have hlocated : ∀ follow, made.files.lookup made.cwd follow ⟨.here, ["new", ".."]⟩ = .ok ([], .directory false) := by
    intro follow
    refine FileTree.lookup_of_node ?_ rfl
    show (lateTree.put ["new"] (.directory false)).locate [] follow ⟨.here, ["new", ".."]⟩ = _
    have hview : (lateTree.put ["new"] (.directory false)).view ([] ++ ["new"]) = some (.directory false) := by decide
    rw [FileTree.locate, if_neg (by decide)]
    show (lateTree.put ["new"] (.directory false)).walk follow FileTree.maxLinks [] ["new", ".."] = _
    rw [FileTree.walk_step (by decide) (by decide), hview]
    dsimp only
    rw [FileTree.walk_dots, FileTree.walk_nil]
    rfl
  have hlast : (ensureDirectory ⟨.here, ["new", ".."]⟩).on made = (.ok (), made) :=
    on_ensureDirectory (by decide) (hlocated false) (hlocated true)
  have hsteps := on_makeDirectories_of_noEntry (by decide) hmissing (by decide) 2
  show (makeDirectories ⟨.here, ["new", ".."]⟩ 3).on lateHost = _
  rw [hsteps]
  show (makeDirectories ⟨.here, ["new"]⟩ 2 >>= fun _ => ensureDirectory ⟨.here, ["new", ".."]⟩).on lateHost = _
  rw [on_bind_of_ok habove, hlast]

/-- Once a directory above the output is made, the temporary path leads to a file that was there before; it is
lost, and the log has lines added. -/
theorem run_disturbs_lateHost :
    Targets quietRequest (some "new/../x") lateHost ⟨.here, ["new", "..", "x"]⟩ ∧
    Snapshot.temporaryPath? ⟨.here, ["new", "..", "x"]⟩ = some ⟨.here, ["new", "..", ".x.tmp"]⟩ ∧
    lateHost.Vacant ⟨.here, ["new", "..", ".x.tmp"]⟩ ∧
    ∃ f after, (run .sequential quietRequest (some "new/../x")).on lateHost = (.error f, after) ∧
      lateHost.files.at? [".x.tmp"] = some (.file [1]) ∧ after.files.at? [".x.tmp"] = none ∧
      lateHost.files.at? ["run.log"] = some (.file []) ∧
      ∃ b bs, after.files.at? ["run.log"] = some (.file (b :: bs)) := by
  have hexpanded : ∀ h, (expandHome (Path.ofString "new/../x")).on h = (.ok (Path.ofString "new/../x"), h) := fun _ => rfl
  have htemporary : Snapshot.temporaryPath? ⟨.here, ["new", "..", "x"]⟩ = some ⟨.here, ["new", "..", ".x.tmp"]⟩ := by decide
  have hreach : (lateTree.put ["new"] (.directory false)).reach FileTree.maxLinks [] ["new", ".."] =
      .ok (FileTree.maxLinks, []) := by
    have hview : (lateTree.put ["new"] (.directory false)).view ([] ++ ["new"]) = some (.directory false) := by decide
    rw [FileTree.reach_step (by decide) (by decide), hview]
    dsimp only
    rw [FileTree.reach_dots, FileTree.reach_nil]
    rfl
  refine ⟨(targets_lateHost hexpanded _).mpr (by decide), htemporary, fun found hfound => ?_, ?_⟩
  · have hplace : lateTree.locate [] false ⟨.here, ["new", "..", ".x.tmp"]⟩ = .error .noEntry := by
      have hnew : lateTree.view ([] ++ ["new"]) = none := by decide
      rw [FileTree.locate, if_neg (by decide)]
      show lateTree.walk false FileTree.maxLinks [] ["new", "..", ".x.tmp"] = _
      rw [FileTree.walk_step (by decide) (by decide), hnew]
      rfl
    cases (FileTree.lookup_of_error hplace).symm.trans hfound
  · obtain ⟨f, after, hrun, hlost, hlogged⟩ := run_lateHost hexpanded ensureDirectories_lateHost htemporary (by decide)
      ⟨rfl, by decide, by decide, by decide, hreach⟩ (.inr ⟨[1], by decide⟩) ⟨rfl, by decide, by decide, by decide, hreach⟩
      ⟨false, by decide⟩ (by decide)
    exact ⟨f, after, hrun, by decide, hlost, by decide, hlogged⟩

end ClassAtlas.Generation
