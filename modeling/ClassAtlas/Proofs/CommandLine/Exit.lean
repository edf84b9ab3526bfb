import ClassAtlas.Proofs.CommandLine.Copies
import ClassAtlas.Proofs.Generation.Breaking
/-!
# How a run ends

A run that generates is done and has printed its summary, or it exits with status 1 and a message on the error output,
or a failure escapes it. What escapes has one of a few causes: the log cannot be set up, a null character in a path, an
output without a name, a value or a date that stands for nothing, a number that is too long, or a loop of links where
the output is shown.
-/
namespace ClassAtlas

open ClassAtlas.Action

variable {h next after : Host} {p : Path} {f : Failure} {text : String}

/-- The message that a run ends with. -/
def Failure.report (f : Failure) : String :=
  if f.isProjectTrouble then "Error: " ++ f.message ++ "\n"
  else "umlgen generate failed: " ++ f.message ++ "\nRun with --verbose for more details.\n"

/-- The text is on the error output. -/
def Host.Told (text : String) (h : Host) : Prop := text.toList <:+: h.errors.toList

/-- The message of a failure that is reported is on the error output. -/
def Host.Reports (h : Host) : Prop := ∃ f : Failure, f.isReported = true ∧ h.Told f.report

/-! ## What is told stays told -/

namespace Action

theorem told_printError (more : String) : Keeps (Host.Told text) (printError more) := by
  refine keeps_modify fun h htold => ?_
  rw [Host.Told, String.toList_append]
  exact htold.trans (List.prefix_append _ _).isInfix

theorem told_appendTo (place : Location) (more : String) : Keeps (Host.Told text) (appendTo place more) := by
  refine keeps_modify fun h htold => ?_
  split
  · exact htold
  · exact htold

theorem told_deliver (r : LogRecord) (s : Sink) : Keeps (Host.Told text) (deliver r s) := by
  cases s with
  | console n => exact told_printError _
  | file n place =>
    cases place with
    | none => exact (asks_pure _).keeps
    | some place => exact asks_get.keeps.bind fun _ => told_appendTo _ _

theorem told_log (logger : Option String) (level : Int) (message : String) :
    Keeps (Host.Told text) (log logger level message) := by
  unfold log
  refine Keeps.bind (keeps_modify fun _ htold => htold) fun _ => asks_get.keeps.bind fun h =>
    (keeps_forM (told_deliver _) _).bind fun _ => ?_
  split
  · exact told_printError _
  · exact (asks_pure _).keeps

theorem told_removeEmpty (p : Path) : Keeps (Host.Told text) (removeEmpty p) := by
  intro h htold
  rcases removeEmpty_cases p h with hsame | ⟨place, _, hremoved⟩
  · rwa [hsame]
  · rwa [hremoved]

theorem told_removeTree (p : Path) : Keeps (Host.Told text) (removeTree p) := by
  have hclear : ∀ place, Keeps (Host.Told text) (clearBelow place) := fun _ => keeps_modify fun _ htold => htold
  refine (asks_lookup p false).keeps.bind fun found => ?_
  split
  · exact (asks_failAt _ _).keeps
  · split
    · exact (asks_failAt _ _).keeps.bind fun _ => (hclear _).bind fun _ => told_removeEmpty p
    · exact (hclear _).bind fun _ => told_removeEmpty p
  · exact (asks_throw _).keeps
  · exact (asks_failAt _ _).keeps
  · refine (asks_lookup p true).keeps.bind fun target => ?_
    split
    · exact (asks_failAt _ _).keeps
    · exact (asks_failAt _ _).keeps
    · exact (asks_throw _).keeps

end Action

theorem Checkout.told_cleanup (p : Path) : Keeps (Host.Told text) (cleanup p) := by
  unfold cleanup
  split
  · exact (asks_pure _).keeps
  · refine (told_removeTree p).attempt.bind fun removed => ?_
    split
    · exact told_log _ _ _
    · exact (asks_pure _).keeps
    · split
      · exact told_log _ _ _
      · exact (asks_throw _).keeps

theorem Checkout.reports_cleanup (p : Path) : Keeps Host.Reports (cleanup p) := by
  rintro h ⟨f, hreported, htold⟩
  exact ⟨f, hreported, told_cleanup p h htold⟩

/-! ## Making a copy -/

namespace Checkout

/-- The path of a copy has no null character in it. -/
theorem hasNul_copyPlace (hs : h.Sound) (nanos : Nat) : hasNul (pathOf (copyPlace h (copyName nanos))) = false := by
  refine hasNul_path_child (p := pathOf (h.cwd ++ [directoryName])) (hasNul_path_child (p := pathOf h.cwd) ?_ (by decide)) ?_
  · exact hasNul_eq_false_iff.mpr fun name hname => (hs.isName_of_mem_cwd name hname).noNul
  · rw [copyName, String.toList_append, List.mem_append, Nat.repr_eq_ofList_toDigits, String.toList_ofList]
    rintro (hmem | hmem)
    · revert hmem
      decide
    · cases Nat.isDigit_of_mem_toDigits (by decide) (by decide) hmem

/-- A copy that cannot be made is reported, unless the program breaks off. -/
theorem clone_failed {url : String} (hs : h.Sound) (hfault : ∀ fault, h.git.copy = .error fault → fault.isRunFault = true)
    (hrun : (clone url none).on h = (.error f, after)) : f.isReported = true := by
  have hnul := hasNul_copyPlace hs h.nanos
  have hcloned := cloned url h
  rw [hrun] at hcloned
  cases hcloned with
  | refused hensured =>
    rcases (failsBy_ensureDirectories _ _ _ _ hensured).nul_or_isReported with ⟨_, hother⟩ | hreported
    · cases hnul.symm.trans hother
    · exact hreported
  | failed _ _ _ _ _ htold =>
    rcases htold with ⟨_, _, rfl⟩ | hcleaned
    · rfl
    · obtain ⟨_, hother, _⟩ := failsBy_cleanup _ _ _ _ (Prod.ext hcleaned rfl)
      cases hnul.symm.trans hother
  | broken hensured hnotes hanswer hbreak =>
    obtain ⟨hextends, _⟩ := makeDirectories_spec (h := clocked h) hs.housed hensured
    rw [hnotes.git, hextends.same] at hanswer
    cases hbreak.symm.trans (hfault _ hanswer)

/-- Making a copy leaves version control as it is. -/
theorem git_of_clone {url : String} (hs : h.Sound) (hrun : (clone url none).on h = (.ok p, after)) : after.git = h.git := by
  have hcloned := cloned url h
  rw [hrun] at hcloned
  cases hcloned with
  | @copied made noted _ entries hensured hnotes _ hplanted =>
    obtain ⟨hextends, _⟩ := makeDirectories_spec (h := clocked h) hs.housed hensured
    have hsame : ((plantCopy (pathOf (copyPlace h (copyName h.nanos))) entries).on noted).2.git = noted.git := by
      rw [plantCopy, on_bind_of_ok (on_lookup (hasNul_copyPlace hs _) true noted)]
      split <;> rfl
    rw [hplanted.git, hsame, hnotes.git, hextends.same]
    rfl

end Checkout

/-- A snapshot for a target without a name is not written. -/
theorem Snapshot.on_write_of_nameless {s : Snapshot} {target : Path} (hnumbers : s.toJson.hasLongNumber = false)
    (hmade : (ensureDirectories target.parent).on h = (.ok (), after)) (hname : target.name = "") :
    (s.write target).on h = (.error (.noName target.toString), after) := by
  have hnone : temporaryPath? target = none := by rw [temporaryPath?, Path.withName?, if_pos hname]
  rw [write, if_neg (by simp [hnumbers])]
  refine (on_bind_of_ok hmade _).trans ?_
  rw [hnone]
  rfl

namespace CommandLine

variable {path : String} {output : Option String} {included excluded : Option (List String)} {w : Written}

/-! ## Reporting -/

theorem on_reportFailure (f : Failure) (h : Host) : (reportFailure f).on h =
    if f.isReported then (.ok (), { h with errors := h.errors ++ f.report }) else (.error f, h) := by
  unfold reportFailure Failure.isReported Failure.report
  cases f.isProjectTrouble <;> cases f.isRunTrouble <;> rfl

theorem told_report (h : Host) (f : Failure) : Host.Told f.report { h with errors := h.errors ++ f.report } := by
  rw [Host.Told, String.toList_append]
  exact (List.suffix_append _ _).isInfix

/-- A failure is reported, or it is passed on. -/
theorem on_reporting_of_error {α : Type} {a : Action α} {left : Host} (hrun : a.on h = (.error f, left)) :
    (reporting a).on h = if f.isReported then (.ok none, { left with errors := left.errors ++ f.report })
      else (.error f, left) := by
  have hreport := on_reportFailure f left
  rw [reporting, on_bind_of_ok (on_attempt a h), hrun]
  cases hreported : f.isReported with
  | true =>
    rw [hreported] at hreport
    exact on_bind_of_ok hreport _
  | false =>
    rw [hreported] at hreport
    exact on_bind_of_error hreport _

/-- What is reported gives a result, or is a failure with a message on the error output, or escapes. -/
theorem reporting_cases {α : Type} {a : Action α} {r : Except Failure (Option α)}
    (hrun : (reporting a).on h = (r, after)) : (∃ v, r = .ok (some v) ∧ a.on h = (.ok v, after)) ∨
      (∃ f left, a.on h = (.error f, left) ∧ f.isReported = true ∧ r = .ok none ∧ after.Told f.report) ∨
      ∃ f left, a.on h = (.error f, left) ∧ f.isReported = false ∧ r = .error f := by
  rcases hfirst : a.on h with ⟨f | v, left⟩
  · have hreporting := on_reporting_of_error hfirst
    rw [hrun] at hreporting
    cases hreported : f.isReported with
    | true =>
      rw [hreported] at hreporting
      obtain ⟨rfl, rfl⟩ := Prod.mk.inj hreporting
      exact .inr (.inl ⟨f, _, rfl, hreported, rfl, told_report _ f⟩)
    | false =>
      rw [hreported] at hreporting
      obtain ⟨rfl, rfl⟩ := Prod.mk.inj hreporting
      exact .inr (.inr ⟨f, _, rfl, hreported, rfl⟩)
  · cases (on_reporting hfirst).symm.trans hrun
    exact .inl ⟨v, rfl, rfl⟩

theorem andFinally_cases {α : Type} {a : Action α} {last : Action Unit} {r : Except Failure α}
    (hrun : (andFinally a last).on h = (r, after)) : ∃ first left, a.on h = (first, left) ∧
      ((∃ e, last.on left = (.error e, after) ∧ r = .error e) ∨ (last.on left = (.ok (), after) ∧ r = first)) := by
  rw [andFinally, on_bind_of_ok (on_attempt a h)] at hrun
  refine ⟨_, _, rfl, ?_⟩
  rcases bind_cases hrun with ⟨e, hlast, rfl⟩ | ⟨_, done, hlast, hrun⟩
  · exact .inl ⟨e, hlast, rfl⟩
  · have hsame : (r, after) = ((a.on h).1, done) := by
      rw [← hrun]
      cases (a.on h).1 <;> rfl
    cases hsame
    exact .inr ⟨hlast, rfl⟩

/-! ## Generating -/

/-- What escapes from generating. -/
inductive GenerateEscapes (h : Host) (path : String) (output : Option String) (included excluded : Option (List String)) :
    Failure → Prop
  /-- The address of a remote project that cannot be copied is taken for the path of a copy, and has a null character
  in it. -/
  | address (remote : Checkout.isRemote path = true)
      (named : (Path.ofString path).parts.contains Checkout.directoryName = true)
      (character : hasNul (Path.ofString path) = true) : GenerateEscapes h path output included excluded .nulInPath
  | project {copy : Option Path} {q : Request} {started : Host} {f : Failure}
      (fetched : Fetched path included excluded h copy q started) (breaks : Generation.Breaks started q output f)
      (unreported : f.isReported = false) : GenerateEscapes h path output included excluded f

theorem reporting_run_cases {q : Request} {r : Except Failure (Option Written)} (hs : h.Sound)
    (hgit : History.Tolerable h.git)
    (hrun : (reporting (Generation.run .sequential q output)).on h = (r, after)) :
    (∃ w, r = .ok (some w)) ∨ (r = .ok none ∧ after.Reports) ∨
      ∃ f, r = .error f ∧ f.isReported = false ∧ Generation.Breaks h q output f := by
  rcases reporting_cases hrun with ⟨w, rfl, _⟩ | ⟨f, _, _, hreported, rfl, htold⟩ | ⟨f, _, hfailed, hescapes, rfl⟩
  · exact .inl ⟨w, rfl⟩
  · exact .inr (.inl ⟨rfl, f, hreported, htold⟩)
  · refine .inr (.inr ⟨f, rfl, hescapes, ?_⟩)
    rcases Generation.run_failed hs hgit hfailed with hreported | hbreaks
    · cases hescapes.symm.trans hreported
    · exact hbreaks

theorem generate_cases {r : Except Failure (Option Written)} (hs : h.Sound) (hgit : History.Tolerable h.git)
    (hfault : ∀ fault, h.git.copy = .error fault → fault.isRunFault = true)
    (hcopied : Checkout.isRemote path = true → ∀ copy started, (Checkout.clone path none).on h = (.ok copy, started) →
      started.Sound)
    (hrun : (generate path output included excluded).on h = (r, after)) :
    (∃ w, r = .ok (some w)) ∨ (r = .ok none ∧ after.Reports) ∨
      ∃ f, r = .error f ∧ GenerateEscapes h path output included excluded f := by
  rcases generate_course hrun with ⟨hlocal, hrun⟩ | ⟨hremote, f, started, hclone, hrun⟩ |
    ⟨hremote, copy, started, hclone, hrun⟩
  · refine (reporting_run_cases hs hgit hrun).imp_right (.imp_right ?_)
    rintro ⟨f, hthrown, hescapes, hbreaks⟩
    exact ⟨f, hthrown, .project (.here hlocal) hbreaks hescapes⟩
  · have hreported := Checkout.clone_failed hs hfault hclone
    have hreporting := @on_reporting_of_error started f Written (throw f) started rfl
    rw [if_pos hreported] at hreporting
    obtain ⟨first, left, hfirst, hlast⟩ := andFinally_cases hrun
    cases hreporting.symm.trans hfirst
    rcases hlast with ⟨e, hcleaned, rfl⟩ | ⟨hcleaned, rfl⟩
    -- What goes wrong with the removal takes the place of what was reported.
    · obtain ⟨rfl, hnul, hnamed⟩ := failsBy_cleanup _ _ _ _ hcleaned
      exact .inr (.inr ⟨_, rfl, .address hremote hnamed hnul⟩)
    · refine .inr (.inl ⟨rfl, (Checkout.reports_cleanup _).of_eq ⟨f, hreported, ?_⟩ hcleaned⟩)
      exact told_report started f
  · have htolerable : History.Tolerable started.git := by
      rw [Checkout.git_of_clone hs hclone]
      exact hgit
    obtain ⟨first, left, hreporting, hlast⟩ := andFinally_cases hrun
    -- The path of a copy has no null character, so that its removal only notes what goes wrong.
    rcases hlast with ⟨e, hcleaned, _⟩ | ⟨hcleaned, rfl⟩
    · obtain ⟨_, hnul, _⟩ := failsBy_cleanup _ _ _ _ hcleaned
      cases (clone_of_ok hclone).2.symm.trans hnul
    · refine (reporting_run_cases (hcopied hremote copy started hclone) htolerable hreporting).imp_right ?_
      rintro (⟨hnone, hreports⟩ | ⟨f, hthrown, hescapes, hbreaks⟩)
      · exact .inl ⟨hnone, (Checkout.reports_cleanup _).of_eq hreports hcleaned⟩
      · exact .inr ⟨f, hthrown, .project (.copy hremote hclone) hbreaks hescapes⟩

/-! ## All of a run -/

/-- An output that was written has no null character in its path. -/
theorem hasNul_of_generate (hrun : (generate path output included excluded).on h = (.ok (some w), after)) :
    hasNul w.output = false := by
  have hran : ∀ {q : Request} {started left : Host}, (Generation.run .sequential q output).on started = (.ok w, left) →
      hasNul w.output = false := by
    intro q started left hrun
    obtain ⟨root, _, hrun⟩ := (Generation.asks_rootOf _).bind_eq_ok hrun
    obtain ⟨settings, _, hrun⟩ := (Settings.asks_load root).bind_eq_ok hrun
    obtain ⟨g, composed, _, hrun⟩ := bind_eq_ok hrun
    obtain ⟨target, _, hrun⟩ := (Generation.asks_outputPath _ _ _ _).bind_eq_ok hrun
    obtain ⟨written, wrote, hwrite, hrun⟩ := bind_eq_ok hrun
    obtain ⟨_, noted, _, _, hrun⟩ := (notes_info _ _).bind_eq_ok hrun
    cases hrun
    obtain ⟨_, rfl, temporary, _, _, htemporary, _, hwritten, _⟩ := Snapshot.steps_of_write hwrite
    exact (Snapshot.hasNul_temporary htemporary).symm.trans (noNul_of_writeBytes hwritten)
  rcases generate_of_some hrun with ⟨_, hlocal⟩ | ⟨_, _, _, _, _, hremote, _⟩
  · exact hran hlocal
  · exact hran hremote

/-- A summary is shown, unless the path of the output leads into a loop of links. -/
theorem summarize_failed (hnul : hasNul w.output = false) (hrun : (summarize w).on h = (.error f, after)) :
    f = .linkLoop (pathOf (h.files.resolve h.cwd w.output)).toString ∧
      h.files.lookup h.cwd true (pathOf (h.files.resolve h.cwd w.output)) = .error .linkLoop := by
  rcases (asks_resolve _).bind_eq_error hrun with ⟨hfails, _⟩ | ⟨resolved, hresolved, _⟩
  · exact resolve_failed hnul hfails
  · obtain ⟨last, hlast⟩ := summarize_returns w hresolved
    cases hlast.symm.trans hrun

/-- The summary is all that is printed after the output is written, with the path of the output as it is seen from the
current directory. -/
def Finished.ShowsSummary {args : List String} (course : Finished args h after) : Prop := ∃ resolved,
  (resolve course.written.output).on course.finished = (.ok resolved, course.finished) ∧
    after.printed = (Summary.lines course.written.snapshot course.written.skipped.length
      (Summary.relativized course.written.output resolved (pathOf course.finished.cwd))).foldl
        (fun text l => text ++ (l ++ "\n")) course.finished.printed

theorem Finished.showsSummary {args : List String} (course : Finished args h after) : course.ShowsSummary := by
  obtain ⟨resolved, hresolved, hshown⟩ := summarize_of_ok course.summarized
  exact ⟨resolved, hresolved, congrArg Host.printed hshown⟩

/-- What escapes from a run that is to generate. -/
inductive Escapes (h : Host) (i : Invocation) (path : String) (output : Option String)
    (included excluded : Option (List String)) : Failure → Prop
  /-- The file of the log cannot be opened, or the directories above it cannot be made. -/
  | log {file : String} {left : Host} {f : Failure} (asked : i.logFile = some file)
      (refused : (Logging.openFile (Path.ofString file)).on { h with logging := Logging.console i.verbose } =
        (.error f, left)) : Escapes h i path output included excluded f
  | generate {began : Host} {f : Failure}
      (configured : (Logging.configure i.verbose (i.logFile.map Path.ofString)).on h = (.ok (), began))
      (escapes : GenerateEscapes began path output included excluded f) : Escapes h i path output included excluded f
  /-- With the output written, its path leads into a loop of links. -/
  | shown {began finished : Host} {w : Written}
      (configured : (Logging.configure i.verbose (i.logFile.map Path.ofString)).on h = (.ok (), began))
      (generated : (CommandLine.generate path output included excluded).on began = (.ok (some w), finished))
      (loop : finished.files.lookup finished.cwd true (pathOf (finished.files.resolve finished.cwd w.output)) =
        .error .linkLoop) :
      Escapes h i path output included excluded (.linkLoop (pathOf (finished.files.resolve finished.cwd w.output)).toString)

theorem sound_quietTree : (Host.holding quietTree).Sound where
  wellFormed := wellFormed_quietTree
  clean := clean_holding (by simp [quietTree])

def namelessArguments : List String := ["generate", "/repo", "--output", ""]

theorem ofArguments_namelessArguments : Invocation.ofArguments namelessArguments =
    .ok ⟨false, none, .generate "/repo" (some "") none none⟩ := by
  rfl

end CommandLine
end ClassAtlas
