import ClassAtlas.CommandLine.Run
import ClassAtlas.Proofs.Checkout.Cleanup
import ClassAtlas.Proofs.Generation.Accounting
/-!
# The output of a run

A run that is done has written its snapshot and shown where. The file is there when the run ends, unless
links or the log get in the way of writing it, or it lies in a copy that the run removes.
-/
namespace ClassAtlas

open ClassAtlas.Action

variable {h after : Host}

namespace Generation

variable {q : Request} {output : Option String} {w : Written}

theorem asks_outputPath (root : Path) (q : Request) (output : Option String) (s : Settings) :
    Asks (outputPath root q output s) := by
  unfold outputPath
  split
  · exact asks_expandHome _
  · exact asks_pure _
  · exact (asks_get.bind fun _ => asks_pure _).bind fun _ => asks_pure _

/-- How a run came to its output: the project that it found, its host when the snapshot was there, and its
host when the directory of the output was. -/
structure Course (q : Request) (output : Option String) (h : Host) (w : Written) where
  root : Path
  settings : Settings
  generation : Generation
  composed : Host
  ready : Host
  found : (rootOf (Path.ofString q.path)).on h = (.ok root, h)
  loaded : (Settings.load root).on h = (.ok settings, h)
  generated : (ofSettings .sequential root q settings).on h = (.ok generation, composed)
  snapshot : w.snapshot = generation.snapshot
  placed : (outputPath root q output settings).on composed = (.ok w.output, composed)
  housed : (ensureDirectories w.output.parent).on composed = (.ok (), ready)

theorem course_of_ok (hrun : (run .sequential q output).on h = (.ok w, after)) : Nonempty (Course q output h w) := by
  obtain ⟨root, hroot, hrun⟩ := (asks_rootOf _).bind_eq_ok hrun
  obtain ⟨settings, hsettings, hrun⟩ := (Settings.asks_load root).bind_eq_ok hrun
  obtain ⟨g, composed, hgenerated, hrun⟩ := Action.bind_eq_ok hrun
  obtain ⟨path, hplaced, hrun⟩ := (asks_outputPath _ _ _ _).bind_eq_ok hrun
  obtain ⟨written, left, hwrite, hrun⟩ := Action.bind_eq_ok hrun
  obtain ⟨_, noted, _, hnoted, hrun⟩ := (notes_info _ _).bind_eq_ok hrun
  obtain ⟨hsame, ready, hready, _⟩ := Snapshot.write_of_ok hwrite
  cases hrun
  rw [← hsame] at hplaced hready
  exact ⟨⟨root, settings, g, composed, ready, hroot, hsettings, hgenerated, rfl, hplaced, hready⟩⟩

/-- A run leaves the text of its snapshot where its output leads. -/
theorem Course.holds (course : Course q output h w) (hrun : (run .sequential q output).on h = (.ok w, after))
    (hclear : Snapshot.Unhindered course.ready w.output) :
    ∃ place, after.Holds w.output place (Utf8.encode w.snapshot.text) := by
  rw [run, on_bind_of_ok course.found, on_bind_of_ok course.loaded, on_bind_of_ok course.generated,
    on_bind_of_ok course.placed] at hrun
  obtain ⟨written, left, hwrite, hrun⟩ := Action.bind_eq_ok hrun
  obtain ⟨_, noted, _, hnoted, hrun⟩ := (notes_info _ _).bind_eq_ok hrun
  obtain ⟨_, ready, hready, hholds⟩ := Snapshot.write_of_ok hwrite
  have hsame : ready = course.ready := by
    rw [course.housed] at hready
    exact (Prod.mk.inj hready).2.symm
  rw [hsame] at hholds
  obtain ⟨place, hheld⟩ := hholds hclear
  obtain rfl : noted = after := (Prod.mk.inj hrun).2
  rw [course.snapshot]
  exact ⟨place, hheld.noted hnoted⟩

/-- Where there is room for the output a run whose snapshot is put together leaves a file there. -/
theorem on_run_of_room {ids : Ids} {root : Path} {settings : Settings} {g : Generation} {composed : Host}
    {here : Location} {name : String} (hroot : (rootOf (Path.ofString q.path)).on h = (.ok root, h))
    (hload : (Settings.load root).on h = (.ok settings, h))
    (hgenerated : (ofSettings ids root q settings).on h = (.ok g, composed))
    (hplaced : (outputPath root q output settings).on composed = (.ok (pathOf (here ++ [name])), composed))
    (hroom : Snapshot.Room composed here name) (hnumbers : g.snapshot.toJson.hasLongNumber = false) : ∃ last,
      (run ids q output).on h = (.ok ⟨g.snapshot, pathOf (here ++ [name]), g.skipped⟩, last) ∧
        ∃ bytes, last.files.at? (here ++ [name]) = some (.file bytes) := by
  obtain ⟨wrote, hwrite, hfile⟩ := hroom.on_write hnumbers
  let line := "Output file: " ++ (pathOf (here ++ [name])).toString
  obtain ⟨last, hnote⟩ := succeeds_log (some orchestrator) LogRecord.info line wrote
  have hnoted := (notes_info orchestrator line).of_eq hnote
  have hnote : (info orchestrator line).on wrote = (.ok (), last) := hnote
  refine ⟨last, ?_, ?_⟩
  · rw [run, on_bind_of_ok hroot, on_bind_of_ok hload, on_bind_of_ok hgenerated, on_bind_of_ok hplaced,
      on_bind_of_ok hwrite, on_bind_of_ok hnote]
    rfl
  · obtain ⟨node, hnode, hgrown⟩ := hnoted.files.forth hfile
    cases hgrown with
    | same => exact ⟨_, hnode⟩
    | added => exact ⟨_, hnode⟩

end Generation

namespace CommandLine

variable {path : String} {output : Option String} {included excluded : Option (List String)} {w : Written}

theorem reporting_of_some {α : Type} {a : Action α} {v : α} (hrun : (reporting a).on h = (.ok (some v), after)) :
    a.on h = (.ok v, after) := by
  rcases attempt_bind_eq_ok hrun with ⟨u, last, hfirst, hrun⟩ | ⟨f, last, _, hrun⟩
  · cases hrun
    exact hfirst
  · obtain ⟨_, _, _, hrun⟩ := bind_eq_ok hrun
    cases hrun

theorem on_reporting {α : Type} {a : Action α} {v : α} (hrun : a.on h = (.ok v, after)) :
    (reporting a).on h = (.ok (some v), after) := by
  have hattempt : (attempt a).on h = (.ok (.ok v), after) := by rw [on_attempt, hrun]
  rw [reporting, on_bind_of_ok hattempt]
  rfl

theorem andFinally_of_ok {α : Type} {a : Action α} {last : Action Unit} {v : α}
    (hrun : (andFinally a last).on h = (.ok v, after)) :
    ∃ middle, a.on h = (.ok v, middle) ∧ last.on middle = (.ok (), after) := by
  rcases attempt_bind_eq_ok hrun with ⟨u, middle, hfirst, hrun⟩ | ⟨f, middle, _, hrun⟩
  · obtain ⟨_, final, hlast, hrun⟩ := bind_eq_ok hrun
    cases hrun
    exact ⟨middle, hfirst, hlast⟩
  · obtain ⟨_, _, _, hrun⟩ := bind_eq_ok hrun
    cases hrun

/-- A local project is generated from where it is, a remote one from a copy that is removed after that. -/
theorem generate_course {r : Except Failure (Option Written)}
    (hrun : (generate path output included excluded).on h = (r, after)) :
    (Checkout.isRemote path = false ∧
      (reporting (Generation.run .sequential ⟨path, included, excluded, none⟩ output)).on h = (r, after)) ∨
    (Checkout.isRemote path = true ∧ ∃ f started, (Checkout.clone path none).on h = (.error f, started) ∧
      (andFinally (reporting (throw f)) (Checkout.cleanup (Path.ofString path))).on started = (r, after)) ∨
    (Checkout.isRemote path = true ∧ ∃ copy started, (Checkout.clone path none).on h = (.ok copy, started) ∧
      (andFinally (reporting (Generation.run .sequential
        ⟨copy.toString, included, excluded, some (Checkout.projectName path)⟩ output)) (Checkout.cleanup copy)).on
          started = (r, after)) := by
  unfold generate at hrun
  cases hremote : Checkout.isRemote path with
  | false =>
    rw [hremote] at hrun
    exact .inl ⟨rfl, hrun⟩
  | true =>
    rw [hremote] at hrun
    simp only [if_true] at hrun
    rw [on_bind_of_ok (on_attempt _ h)] at hrun
    rcases hclone : (Checkout.clone path none).on h with ⟨f | copy, started⟩
    · rw [hclone] at hrun
      exact .inr (.inl ⟨rfl, f, started, rfl, hrun⟩)
    · rw [hclone] at hrun
      exact .inr (.inr ⟨rfl, copy, started, rfl, hrun⟩)

/-- What is generated is generated from a local project, or from a copy that is removed after that. -/
theorem generate_of_some (hrun : (generate path output included excluded).on h = (.ok (some w), after)) :
    (Checkout.isRemote path = false ∧
      (Generation.run .sequential ⟨path, included, excluded, none⟩ output).on h = (.ok w, after)) ∨
    (Checkout.isRemote path = true ∧ ∃ copy started left, (Checkout.clone path none).on h = (.ok copy, started) ∧
      (Generation.run .sequential ⟨copy.toString, included, excluded, some (Checkout.projectName path)⟩ output).on
        started = (.ok w, left) ∧ (Checkout.cleanup copy).on left = (.ok (), after)) := by
  rcases generate_course hrun with ⟨hlocal, hrun⟩ | ⟨_, f, started, _, hrun⟩ | ⟨hremote, copy, started, hclone, hrun⟩
  · exact .inl ⟨hlocal, reporting_of_some hrun⟩
  · obtain ⟨left, hreported, _⟩ := andFinally_of_ok hrun
    cases reporting_of_some hreported
  · obtain ⟨left, hreported, hcleaned⟩ := andFinally_of_ok hrun
    exact .inr ⟨hremote, copy, started, left, hclone, reporting_of_some hreported, hcleaned⟩

/-- The lines are printed one after the other, and nothing else changes. -/
theorem on_forM_print (lines : List String) (h : Host) : (lines.forM fun l => print (l ++ "\n")).on h =
    (.ok (), { h with printed := lines.foldl (fun text l => text ++ (l ++ "\n")) h.printed }) := by
  induction lines generalizing h with
  | nil => rfl
  | cons line lines ih =>
    have hfirst : (print (line ++ "\n")).on h = (.ok ⟨⟩, { h with printed := h.printed ++ (line ++ "\n") }) := rfl
    show (print (line ++ "\n") >>= fun _ => lines.forM fun l => print (l ++ "\n")).on h = _
    rw [on_bind_of_ok hfirst, ih]
    rfl

theorem summarize_of_ok (hrun : (summarize w).on h = (.ok (), after)) : ∃ resolved,
    (resolve w.output).on h = (.ok resolved, h) ∧
      after = { h with printed := (Summary.lines w.snapshot w.skipped.length
        (Summary.relativized w.output resolved (pathOf h.cwd))).foldl (fun text l => text ++ (l ++ "\n")) h.printed } := by
  obtain ⟨resolved, hresolved, hrun⟩ := (asks_resolve _).bind_eq_ok hrun
  refine ⟨resolved, hresolved, ?_⟩
  have hcwd : cwd.on h = (.ok (pathOf h.cwd), h) := rfl
  rw [on_bind_of_ok hcwd] at hrun
  dsimp only at hrun
  rw [on_forM_print] at hrun
  exact (Prod.mk.inj hrun).2.symm

theorem summarize_returns (w : Written) {resolved : Path} (hresolved : (resolve w.output).on h = (.ok resolved, h)) :
    ∃ after, (summarize w).on h = (.ok (), after) := by
  have hcwd : cwd.on h = (.ok (pathOf h.cwd), h) := rfl
  have hprinted := on_forM_print (Summary.lines w.snapshot w.skipped.length
    (Summary.relativized w.output resolved (pathOf h.cwd))) h
  exact ⟨_, by rw [summarize, on_bind_of_ok hresolved, on_bind_of_ok hcwd]; exact hprinted⟩

theorem on_generate_of_local (hlocal : Checkout.isRemote path = false)
    (hrun : (Generation.run .sequential ⟨path, included, excluded, none⟩ output).on h = (.ok w, after)) :
    (generate path output included excluded).on h = (.ok (some w), after) := by
  rw [generate, hlocal]
  exact on_reporting hrun

theorem on_run_of_generate {args : List String} {i : Invocation} {began finished : Host}
    (hparsed : Invocation.ofArguments args = .ok i) (htask : i.task = .generate path output included excluded)
    (hconfigured : (Logging.configure i.verbose (i.logFile.map Path.ofString)).on h = (.ok (), began))
    (hgenerated : (generate path output included excluded).on began = (.ok (some w), finished))
    (hsummarized : (summarize w).on finished = (.ok (), after)) : (run args).on h = (.ok .done, after) := by
  rw [run, hparsed]
  dsimp only
  rw [on_bind_of_ok hconfigured, htask]
  dsimp only
  rw [on_bind_of_ok hgenerated]
  dsimp only
  rw [on_bind_of_ok hsummarized]
  rfl

/-- Where the project of a run comes from: it is local, or a copy of a remote one. -/
inductive Fetched (path : String) (included excluded : Option (List String)) (h : Host) :
    Option Path → Request → Host → Prop where
  | here (hlocal : Checkout.isRemote path = false) : Fetched path included excluded h none
      ⟨path, included, excluded, none⟩ h
  | copy {copy : Path} {started : Host} (hremote : Checkout.isRemote path = true)
      (hclone : (Checkout.clone path none).on h = (.ok copy, started)) : Fetched path included excluded h (some copy)
      ⟨copy.toString, included, excluded, some (Checkout.projectName path)⟩ started

theorem Fetched.clone_eq {copy : Path} {q : Request} {started : Host}
    (hfetched : Fetched path included excluded h (some copy) q started) :
    (Checkout.clone path none).on h = (.ok copy, started) := by
  cases hfetched with
  | copy _ hclone => exact hclone

/-- A run that is done, by the hosts that it went through: with the log set up, with the project at hand, with the
snapshot written, and with the copy of the project removed again. -/
structure Finished (args : List String) (h after : Host) where
  invocation : Invocation
  path : String
  output : Option String
  included : Option (List String)
  excluded : Option (List String)
  copy : Option Path
  request : Request
  written : Written
  began : Host
  started : Host
  left : Host
  finished : Host
  parsed : Invocation.ofArguments args = .ok invocation
  task : invocation.task = .generate path output included excluded
  configured : (Logging.configure invocation.verbose (invocation.logFile.map Path.ofString)).on h = (.ok (), began)
  fetched : Fetched path included excluded began copy request started
  generated : (Generation.run .sequential request output).on started = (.ok written, left)
  course : Generation.Course request output started written
  cleaned : (copy.elim (pure ()) Checkout.cleanup).on left = (.ok (), finished)
  summarized : (summarize written).on finished = (.ok (), after)

/-- Nothing gets in the way of the output: neither links nor the log while it is written, nor the removal of the
copy after that. -/
structure Finished.Undisturbed {args : List String} (run : Finished args h after) : Prop where
  unhindered : Snapshot.Unhindered run.course.ready run.written.output
  outside : ∀ copy ∈ run.copy, ∀ place node, run.left.files.lookup run.left.cwd false copy = .ok (place, node) →
    ∀ q ∈ run.left.files.way run.left.cwd run.written.output, ¬ place <+: q

theorem noted_of_summarize (hrun : (summarize w).on h = (.ok (), after)) : h.Noted after := by
  obtain ⟨_, _, hshown⟩ := summarize_of_ok hrun
  rw [hshown]
  exact .of_files rfl rfl rfl rfl rfl rfl rfl

/-- The removal of the copy and the summary keep the output. -/
theorem Finished.keeps {args : List String} (run : Finished args h after) (hclear : run.Undisturbed) : ∃ place,
    after.files.lookup after.cwd true run.written.output =
      .ok (place, .file (Utf8.encode run.written.snapshot.text)) := by
  obtain ⟨place, hheld⟩ := run.course.holds run.generated hclear.unhindered
  have hkept : run.finished.Holds run.written.output place (Utf8.encode run.written.snapshot.text) := by
    have hcleaned := run.cleaned
    have houtside := hclear.outside
    cases hcopy : run.copy with
    | none =>
      rw [hcopy] at hcleaned
      have hsame : run.left = run.finished := (Prod.mk.inj hcleaned).2
      rw [← hsame]
      exact hheld
    | some copy =>
      rw [hcopy] at hcleaned houtside
      have hkept := hheld.cleanup (houtside copy rfl)
      rw [Option.elim_some] at hcleaned
      rwa [hcleaned] at hkept
  exact ⟨place, (hkept.noted (noted_of_summarize run.summarized)).lookup⟩

theorem finished_of_done {args : List String} (hrun : (run args).on h = (.ok .done, after)) :
    Nonempty (Finished args h after) := by
  unfold run at hrun
  cases hparsed : Invocation.ofArguments args with
  | error stop =>
    rw [hparsed] at hrun
    cases stop <;> obtain ⟨_, _, _, hrun⟩ := bind_eq_ok hrun <;> cases hrun
  | ok i =>
    rw [hparsed] at hrun
    obtain ⟨_, began, hconfigured, hrun⟩ := bind_eq_ok hrun
    cases htask : i.task with
    | serve host port =>
      rw [htask] at hrun
      cases hrun
    | generate path output included excluded =>
      rw [htask] at hrun
      obtain ⟨written?, finished, hgenerated, hrun⟩ := bind_eq_ok hrun
      cases written? with
      | none => cases hrun
      | some w =>
        obtain ⟨_, last, hsummarized, hrun⟩ := bind_eq_ok hrun
        cases hrun
        rcases generate_of_some hgenerated with ⟨hlocal, hran⟩ | ⟨hremote, copy, started, left, hclone, hran, hcleaned⟩
        · obtain ⟨course⟩ := Generation.course_of_ok hran
          exact ⟨⟨i, path, output, included, excluded, none, _, w, began, began, finished, finished, hparsed, htask,
            hconfigured, .here hlocal, hran, course, rfl, hsummarized⟩⟩
        · obtain ⟨course⟩ := Generation.course_of_ok hran
          exact ⟨⟨i, path, output, included, excluded, some copy, _, w, began, started, left, finished, hparsed, htask,
            hconfigured, .copy hremote hclone, hran, course, hcleaned, hsummarized⟩⟩

/-- A run that is done went through the steps of a finished one, and its output leads to the text of its snapshot
if nothing gets in the way. -/
theorem run_keeps_output {args : List String} (hrun : (run args).on h = (.ok .done, after)) :
    Nonempty (Finished args h after) ∧ ∀ run : Finished args h after, run.Undisturbed → ∃ place,
      after.files.lookup after.cwd true run.written.output =
        .ok (place, .file (Utf8.encode run.written.snapshot.text)) :=
  ⟨finished_of_done hrun, fun run hclear => run.keeps hclear⟩

/-- A tree with an empty project and a file where the output goes. -/
def quietTree : FileTree where
  nodes := [(["out.json"], .file [1]), (["repo"], .directory false)]

def quietArguments : List String := ["generate", "/repo", "--output", "/out.json"]

/-- The host with the tree when the log is set up. -/
def quietHost : Host := { Host.holding quietTree with logging := .console false }

theorem wellFormed_quietTree : quietTree.WellFormed := by decide

theorem bare_quietTree : Generation.Bare quietHost ["repo"] where
  directory := ⟨false, by decide⟩
  noSettings := by decide
  noManifest := by decide
  resolved := by decide
  settingsResolved := by decide
  short := by decide

theorem room_quietTree : Snapshot.Room quietHost [] "out.json" where
  wellFormed := wellFormed_quietTree
  directory := ⟨false, rfl⟩
  named := by decide
  besideNamed := by decide
  free := .inr ⟨[1], by decide⟩
  besideFree := by decide
  short := by decide

theorem ofArguments_quietArguments : Invocation.ofArguments quietArguments =
    .ok ⟨false, none, .generate "/repo" (some "/out.json") none none⟩ := by
  rfl

theorem configure_quietTree :
    (Logging.configure false none).on (.holding quietTree) = (.ok (), quietHost) := rfl

theorem isRemote_repo : Checkout.isRemote "/repo" = false := by decide

theorem quiet_of_noted {h : Host} (hnoted : quietHost.Noted h) (place : Location) (level : Int) :
    Sink.file level (some place) ∉ h.logging.sinks := by
  rw [hnoted.logging]
  simp [quietHost, Logging.console]

def quietRequest : Request := ⟨"/repo", none, none, none⟩

theorem names_quietTree : quietTree.names ["repo"] = [] := FileTree.names_of_sorted (by decide) (by decide)

theorem run_quietTree : ∃ after, (run quietArguments).on (.holding quietTree) = (.ok .done, after) := by
  obtain ⟨g, composed, hgenerated, hnumbers⟩ := bare_quietTree.generated wellFormed_quietTree names_quietTree
    (fun _ => ⟨.notFound, rfl, rfl⟩) rfl .sequential quietRequest
  have hnoted := (Generation.notes_ofSettings _ _ _ _).of_eq hgenerated
  have hgiven : Path.ofString quietRequest.path = pathOf ["repo"] := rfl
  have hroot : (Generation.rootOf (Path.ofString quietRequest.path)).on quietHost =
      (.ok (pathOf ["repo"]), quietHost) := by
    rw [hgiven]
    exact bare_quietTree.on_rootOf wellFormed_quietTree
  have hload := bare_quietTree.on_load wellFormed_quietTree
  have hplaced : (Generation.outputPath (pathOf ["repo"]) quietRequest (some "/out.json")
      (.default (pathOf ["repo"]))).on composed = (.ok (pathOf ([] ++ ["out.json"])), composed) := rfl
  obtain ⟨last, hran, bytes, hfile⟩ :=
    Generation.on_run_of_room hroot hload hgenerated hplaced (room_quietTree.noted hnoted) hnumbers
  have hreported := on_generate_of_local isRemote_repo hran
  have hshort : (pathOf ["out.json"]).toString.utf8ByteSize ≤ FileTree.maxPathBytes := by decide
  have hresolved := on_resolve_file (by decide) hshort hfile
  obtain ⟨after, hsummarized⟩ := summarize_returns ⟨g.snapshot, pathOf ["out.json"], g.skipped⟩ hresolved
  exact ⟨after, on_run_of_generate ofArguments_quietArguments rfl configure_quietTree hreported hsummarized⟩

theorem undisturbed_quietTree (run : Finished quietArguments (.holding quietTree) after) :
    run.Undisturbed ∧ run.written.output = pathOf ["out.json"] := by
  rcases run with ⟨i, path, output, included, excluded, copy, request, w, began, started, left, finished, hparsed, htask,
    hconfigured, hfetched, hgenerated, course, hcleaned, hsummarized⟩
  rw [ofArguments_quietArguments] at hparsed
  cases hparsed
  cases htask
  obtain rfl : quietHost = began := (Prod.mk.inj hconfigured).2
  cases hfetched with
  | copy hremote =>
    rw [isRemote_repo] at hremote
    cases hremote
  | here =>
    have hroom := room_quietTree.noted ((Generation.notes_ofSettings _ _ _ _).of_eq course.generated)
    have houtput : pathOf ["out.json"] = w.output := Except.ok.inj (Prod.mk.inj course.placed).1
    have hready : course.composed = course.ready := by
      have hhoused := course.housed
      rw [← houtput] at hhoused
      exact (Prod.mk.inj (hroom.on_ensureDirectories.symm.trans hhoused)).2
    refine ⟨⟨?_, fun _ hcopy => absurd hcopy (Option.not_mem_none _)⟩, houtput.symm⟩
    show Snapshot.Unhindered course.ready w.output
    rw [← hready, ← houtput]
    exact hroom.unhindered fun level =>
      quiet_of_noted ((Generation.notes_ofSettings _ _ _ _).of_eq course.generated) _ level

/-- The file is replaced by the document. -/
theorem run_keeps_output_quietTree : ∃ after snapshot place,
    (run quietArguments).on (.holding quietTree) = (.ok .done, after) ∧
      after.files.lookup after.cwd true (pathOf ["out.json"]) =
        .ok (place, .file (Utf8.encode (Snapshot.text snapshot))) := by
  obtain ⟨after, hrun⟩ := run_quietTree
  obtain ⟨⟨finished⟩, hkeeps⟩ := run_keeps_output hrun
  obtain ⟨hundisturbed, houtput⟩ := undisturbed_quietTree finished
  obtain ⟨place, hplace⟩ := hkeeps finished hundisturbed
  rw [houtput] at hplace
  exact ⟨after, finished.written.snapshot, place, hrun, hplace⟩

end CommandLine
end ClassAtlas
