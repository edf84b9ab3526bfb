import ClassAtlas.Proofs.Checkout.Copying
import ClassAtlas.Proofs.CommandLine.Output
import ClassAtlas.Proofs.Generation.Directories
import ClassAtlas.Proofs.Log.Setup
/-!
# What a run leaves of copies

A run for a remote project removes its copy, however it ends. The directory for copies has no more of them after the run
than before, unless the version control program breaks off, or the log or the output is wanted there.
-/
namespace ClassAtlas.CommandLine

open ClassAtlas.Action

variable {h after : Host} {path : String} {output : Option String} {included excluded : Option (List String)}

theorem on_andFinally_snd {α : Type} (a : Action α) (last : Action Unit) (h : Host) :
    ((andFinally a last).on h).2 = (last.on (a.on h).2).2 := by
  rw [andFinally, on_bind_of_ok (on_attempt a h), on_bind]
  rcases last.on (a.on h).2 with ⟨r, done⟩
  cases r with
  | ok u => cases (a.on h).1 <;> rfl
  | error f => rfl

theorem notes_reportFailure (f : Failure) : Notes (reportFailure f) := by
  unfold reportFailure
  split
  · exact notes_printError _
  · split
    · exact notes_printError _
    · exact notes_throw _

theorem noted_reporting {α : Type} (a : Action α) (h : Host) : (a.on h).2.Noted ((reporting a).on h).2 := by
  rw [reporting, on_bind_of_ok (on_attempt a h)]
  cases (a.on h).1 with
  | ok v => exact .refl _
  | error f =>
    have hreported : Notes (reportFailure f >>= fun _ => (pure none : Action (Option α))) :=
      (notes_reportFailure f).bind fun _ => notes_pure _
    exact hreported _

theorem notes_summarize (w : Written) : Notes (summarize w) := by
  refine (asks_resolve _).notes.bind fun resolved => (asks_get.bind fun _ => asks_pure _).notes.bind fun place h => ?_
  rw [on_forM_print]
  exact .of_files rfl rfl rfl rfl rfl rfl rfl

/-- After generating from a remote project there are no more copies than before, apart from directories above the
output. -/
theorem generate_leaves_no_copy {r : Except Failure (Option Written)} {name : String}
    (hh : h.files.Housed h.cwd) (hpaved : h.files.Paved h.cwd)
    (hlink : ∀ place ∈ [h.cwd ++ [Checkout.directoryName], Checkout.copyPlace h (Checkout.copyName h.nanos)], ∀ target,
      h.files.at? place ≠ some (.link target))
    (hfault : ∀ fault, h.git.copy = .error fault → fault.isRunFault = true) (hremote : Checkout.isRemote path = true)
    (hrun : (generate path output included excluded).on h = (r, after)) (hname : Checkout.namePrefix.toList <+: name.toList)
    (hleft : after.files.DirectoryAt (Checkout.copyPlace h name)) :
    h.files.DirectoryAt (Checkout.copyPlace h name) ∨ name ≠ Checkout.copyName h.nanos ∧ ∃ copy started target,
      (Checkout.clone path none).on h = (.ok copy, started) ∧ Generation.Targets
        ⟨copy.toString, included, excluded, some (Checkout.projectName path)⟩ output started target ∧
      name ∈ target.parent.parts := by
  rw [generate, hremote] at hrun
  simp only [if_true] at hrun
  rw [on_bind_of_ok (on_attempt _ h)] at hrun
  obtain ⟨cloned, started, hclone⟩ : ∃ cloned started, (Checkout.clone path none).on h = (cloned, started) := ⟨_, _, rfl⟩
  rw [hclone] at hrun
  rcases Checkout.clone_spec hh hpaved hlink hfault hclone with ⟨f, rfl, hnone⟩ | ⟨rfl, hcopied⟩
  · have hafter := congrArg Prod.snd hrun
    dsimp only at hafter
    rw [on_andFinally_snd] at hafter
    rw [← hafter] at hleft
    have hstarted := (noted_reporting (throw f) started).files.directoryAt_iff.mp (Checkout.directoryAt_of_cleanup hleft)
    exact .inl (hnone name hname List.not_mem_nil hstarted)
  · have hafter := congrArg Prod.snd hrun
    dsimp only at hafter
    rw [on_andFinally_snd] at hafter
    rcases hgenerated : (Generation.run .sequential ⟨(pathOf (Checkout.copyPlace h (Checkout.copyName h.nanos))).toString,
      included, excluded, some (Checkout.projectName path)⟩ output).on started with ⟨written, left⟩
    have hreported := noted_reporting (Generation.run .sequential
      ⟨(pathOf (Checkout.copyPlace h (Checkout.copyName h.nanos))).toString, included, excluded,
        some (Checkout.projectName path)⟩ output) started
    rw [hgenerated] at hreported
    obtain ⟨names, hspreads, hnames⟩ : ∃ names, started.Spreads names left ∧ ∀ name ∈ names, ∃ target,
        Generation.Targets ⟨(pathOf (Checkout.copyPlace h (Checkout.copyName h.nanos))).toString, included, excluded,
          some (Checkout.projectName path)⟩ output started target ∧ name ∈ target.parent.parts := by
      rcases Generation.run_spreads hcopied.rooted hgenerated with hspreads | ⟨target, htarget, hspreads⟩
      · exact ⟨[], hspreads, fun _ hmem => by cases hmem⟩
      · exact ⟨target.parent.parts, hspreads, fun _ hmem => ⟨target, htarget, hmem⟩⟩
    have hremoved := hcopied.removed (hspreads.trans (.of_noted hreported))
    rw [hafter] at hremoved
    have hother : name ≠ Checkout.copyName h.nanos := by
      rintro rfl
      exact hremoved hleft
    rw [← hafter] at hleft
    rcases hspreads.only (hreported.files.directoryAt_iff.mp (Checkout.directoryAt_of_cleanup hleft)) with
      hstarted | ⟨last, hmem, hlast⟩
    · exact .inl (hcopied.others name hname (fun hown => hother (List.mem_singleton.mp hown)) hstarted)
    · obtain rfl : name = last := by
        rw [Checkout.copyPlace, List.getLast?_concat] at hlast
        exact Option.some.inj hlast
      obtain ⟨target, htarget, habove⟩ := hnames name hmem
      exact .inr ⟨hother, _, started, target, hclone, htarget, habove⟩

/-- The names that a run is asked to make directories with, besides its copy: those above the log file and above the
output. -/
inductive Asked (h : Host) (i : Invocation) (path : String) (output : Option String)
    (included excluded : Option (List String)) (name : String) : Prop where
  | log {given p : Path} (file : i.logFile.map Path.ofString = some given)
      (expanded : (expandHome given).on h = (.ok p, h)) (above : name ∈ p.parent.parts)
  | output {began started : Host} {copy target : Path}
      (configured : (Logging.configure i.verbose (i.logFile.map Path.ofString)).on h = (.ok (), began))
      (cloned : (Checkout.clone path none).on began = (.ok copy, started))
      (targets : Generation.Targets ⟨copy.toString, included, excluded, some (Checkout.projectName path)⟩ output started
        target)
      (above : name ∈ target.parent.parts) (other : name ≠ Checkout.copyName h.nanos)

/-- However a run for a remote project ends, a directory among the copies was there before or is asked for, unless
the version control program breaks off. -/
theorem run_leaves_no_copy {args : List String} {i : Invocation} {r : Except Failure Outcome} (ht : h.files.WellFormed)
    (hcwd : h.files.DirectoryAt h.cwd) (hparsed : Invocation.ofArguments args = .ok i)
    (htask : i.task = .generate path output included excluded) (hremote : Checkout.isRemote path = true)
    (hfault : ∀ fault, h.git.copy = .error fault → fault.isRunFault = true)
    (hlink : ∀ place ∈ [h.cwd ++ [Checkout.directoryName], Checkout.copyPlace h (Checkout.copyName h.nanos)], ∀ target,
      h.files.at? place ≠ some (.link target))
    (hrun : (run args).on h = (r, after)) : ∀ name, Checkout.namePrefix.toList <+: name.toList →
      after.files.DirectoryAt (Checkout.copyPlace h name) → h.files.DirectoryAt (Checkout.copyPlace h name) ∨
        Asked h i path output included excluded name := by
  intro name hname hleft
  have hhoused : h.files.Housed h.cwd := .of_wellFormed ht hcwd
  rw [run, hparsed] at hrun
  dsimp only at hrun
  have hlogged : ∀ {configured : Except Failure Unit} {began : Host},
      (Logging.configure i.verbose (i.logFile.map Path.ofString)).on h = (configured, began) →
        began.files.DirectoryAt (Checkout.copyPlace h name) → h.files.DirectoryAt (Checkout.copyPlace h name) ∨
          Asked h i path output included excluded name := by
    intro configured began hconfigured hthere
    rcases Logging.configure_prepares hhoused hconfigured with hprepares | ⟨given, p, hfile, hexpanded, hprepares⟩
    · exact .inl (hprepares.spreads.directoryAt hthere)
    · rcases hprepares.spreads.only hthere with hbefore | ⟨last, hmem, hlast⟩
      · exact .inl hbefore
      · rw [Checkout.copyPlace, List.getLast?_concat] at hlast
        obtain rfl := Option.some.inj hlast
        exact .inr (.log hfile hexpanded hmem)
  rcases bind_cases hrun with ⟨e, hconfigured, _⟩ | ⟨_, began, hconfigured, hrun⟩
  · exact hlogged hconfigured hleft
  obtain ⟨names, hprepares⟩ : ∃ names, h.Prepares names began := by
    rcases Logging.configure_prepares hhoused hconfigured with hprepares | ⟨_, p, _, _, hprepares⟩
    · exact ⟨[], hprepares⟩
    · exact ⟨p.parent.parts, hprepares⟩
  have hbegan : began.cwd = h.cwd := hprepares.spreads.cwd
  have hplaces : Checkout.copyPlace began = Checkout.copyPlace h := by
    funext name
    rw [Checkout.copyPlace, Checkout.copyPlace, hbegan]
  rw [htask] at hrun
  dsimp only at hrun
  obtain ⟨generated, finished, hgenerated, hnoted⟩ : ∃ generated finished,
      (generate path output included excluded).on began = (generated, finished) ∧ finished.Noted after := by
    rcases bind_cases hrun with ⟨e, hgenerated, _⟩ | ⟨written, finished, hgenerated, hrun⟩
    · exact ⟨_, _, hgenerated, .refl _⟩
    · refine ⟨_, _, hgenerated, Notes.of_eq ?_ hrun⟩
      cases written with
      | none => exact notes_pure _
      | some w => exact (notes_summarize w).bind fun _ => notes_pure _
  have hleft := hnoted.files.directoryAt_iff.mp hleft
  have hlinks : ∀ place ∈ [began.cwd ++ [Checkout.directoryName],
      Checkout.copyPlace began (Checkout.copyName began.nanos)], ∀ target, began.files.at? place ≠ some (.link target) := by
    rw [hbegan, hplaces, hprepares.nanos]
    exact fun place hplace target hnode => hlink place hplace target (hprepares.link_before hnode)
  have hpaved : began.files.Paved began.cwd := by
    rw [hbegan]
    exact (ht.paved hcwd).mono hprepares.spreads.kept
  have hgit : ∀ fault, began.git.copy = .error fault → fault.isRunFault = true := by
    rw [hprepares.git]
    exact hfault
  rw [← hplaces] at hleft
  rcases generate_leaves_no_copy hprepares.housed hpaved hlinks hgit hremote hgenerated hname hleft with
    hbefore | ⟨hother, copy, started, target, hclone, htarget, habove⟩
  · rw [hplaces] at hbefore
    exact hlogged hconfigured hbefore
  · rw [hprepares.nanos] at hother
    exact .inr (.output hconfigured hclone htarget habove hother)

/-! ## A run whose program breaks off -/

/-- A host without files, where asking for a copy has a certain answer. -/
def remoteHost (answer : Except CommandFault (List (List String × Node))) : Host :=
  { Host.holding .empty with git := ⟨fun _ => .error .notFound, fun _ => .error .notFound, answer⟩ }

def remoteArguments : List String := ["generate", "git@host:r.git"]

/-- The arguments as they are read. -/
def remoteInvocation : Invocation := ⟨false, none, .generate "git@host:r.git" none none none⟩

theorem ofArguments_remoteArguments : Invocation.ofArguments remoteArguments = .ok remoteInvocation := by rfl

/-- The copy of a project with one file is gone after the run. -/
theorem run_leaves_no_copy_remoteHost :
    ¬ ((run remoteArguments).on (remoteHost (.ok [(["a.ts"], .file [])]))).2.files.DirectoryAt
      [".umlgen-temp", "repo-0"] := by
  intro hleft
  have hcopies := run_leaves_no_copy (h := remoteHost (.ok [(["a.ts"], .file [])])) (by decide) ⟨false, rfl⟩
    ofArguments_remoteArguments rfl (by decide) (fun fault hfault => by cases hfault)
    (fun place hplace target hlink => by
      rcases List.mem_cons.mp hplace with rfl | hplace
      · cases hlink
      · obtain rfl := List.mem_singleton.mp hplace
        cases hlink)
    rfl "repo-0" (by decide) hleft
  rcases hcopies with ⟨locked, hbefore⟩ | hasked
  · cases hbefore
  · cases hasked with
    | log hfile => cases hfile
    | output _ _ _ _ hother => exact hother rfl

/-- When the program breaks off, the directory of the copy stays. -/
theorem generate_leaves_copy {made : Host} {fault : CommandFault} {r : Except Failure (Option Written)}
    (hensured : (ensureDirectories (pathOf (Checkout.copyPlace h (Checkout.copyName h.nanos)))).on (Checkout.clocked h) =
      (.ok (), made))
    (hplace : made.files.DirectoryAt (Checkout.copyPlace h (Checkout.copyName h.nanos)))
    (hgit : made.git.copy = .error fault) (hbreak : fault.isRunFault = false) (hremote : Checkout.isRemote path = true)
    (hother : (Path.ofString path).parts.contains Checkout.directoryName = false)
    (hrun : (generate path output included excluded).on h = (r, after)) :
    after.files.DirectoryAt (Checkout.copyPlace h (Checkout.copyName h.nanos)) := by
  have hclone := Checkout.cloned path h
  rw [generate, hremote] at hrun
  simp only [if_true] at hrun
  rw [on_bind_of_ok (on_attempt _ h)] at hrun
  obtain ⟨cloned, started, hcloned⟩ : ∃ cloned started, (Checkout.clone path none).on h = (cloned, started) := ⟨_, _, rfl⟩
  rw [hcloned] at hclone hrun
  cases hclone with
  | refused hrefused => cases hensured.symm.trans hrefused
  | failed hensured' hnotes hanswer hfault =>
    cases hensured.symm.trans hensured'
    rw [hnotes.git, hgit] at hanswer
    cases hanswer
    cases hbreak.symm.trans hfault
  | copied hensured' hnotes hanswer =>
    cases hensured.symm.trans hensured'
    rw [hnotes.git, hgit] at hanswer
    cases hanswer
  | @broken _ _ _ f hensured' hnotes _ _ =>
    cases hensured.symm.trans hensured'
    have hafter := congrArg Prod.snd hrun
    dsimp only at hafter
    have hkept : ∀ left, ((Checkout.cleanup (Path.ofString path)).on left).2 = left := by
      intro left
      rw [Checkout.cleanup, hother]
      rfl
    rw [on_andFinally_snd, hkept] at hafter
    rw [← hafter]
    exact ((hnotes.trans (noted_reporting (throw f) started)).files.directoryAt_iff).mpr hplace

/-- The two directories that are made for the copy. -/
theorem ensureDirectories_remoteHost (answer : Except CommandFault (List (List String × Node))) (l : Logging) :
    (ensureDirectories (pathOf [".umlgen-temp", "repo-0"])).on
        (Checkout.clocked { remoteHost answer with logging := l }) =
      (.ok (), { Checkout.clocked { remoteHost answer with logging := l } with
        files := (FileTree.empty.put [".umlgen-temp"] (.directory false)).put [".umlgen-temp", "repo-0"]
          (.directory false) }) := by
  let start : Host := Checkout.clocked { remoteHost answer with logging := l }
  let made : Host := { start with files := FileTree.empty.put [".umlgen-temp"] (.directory false) }
  have hempty : FileTree.empty.view ([] ++ [".umlgen-temp"]) = none := by decide
  have hmissing : start.files.locate start.cwd false (pathOf [".umlgen-temp", "repo-0"]) = .error .noEntry := by
    show FileTree.empty.locate [] false (pathOf [".umlgen-temp", "repo-0"]) = _
    rw [FileTree.locate, if_neg (by decide)]
    show FileTree.empty.walk false FileTree.maxLinks [] [".umlgen-temp", "repo-0"] = _
    rw [FileTree.walk_step (by decide) (by decide), hempty]
    rfl
  have habove : (makeDirectories (pathOf [".umlgen-temp"]) 2).on start = (.ok (), made) := by
    have hplace : start.files.locate start.cwd false (pathOf [".umlgen-temp"]) = .ok [".umlgen-temp"] := by
      show FileTree.empty.locate [] false (pathOf [".umlgen-temp"]) = _
      rw [FileTree.locate, if_neg (by decide)]
      show FileTree.empty.walk false FileTree.maxLinks [] [".umlgen-temp"] = _
      rw [FileTree.walk_step (by decide) (by decide), hempty]
      rfl
    have hmade := on_ensureDirectory_of_missing (by decide) hplace (by rfl)
    rw [makeDirectories, on_bind_of_ok (on_attempt _ start), hmade]
    rfl
  have hplace : made.files.locate made.cwd false (pathOf [".umlgen-temp", "repo-0"]) = .ok [".umlgen-temp", "repo-0"] := by
    have hfirst : (FileTree.empty.put [".umlgen-temp"] (.directory false)).view ([] ++ [".umlgen-temp"]) =
        some (.directory false) := by decide
    have hsecond : (FileTree.empty.put [".umlgen-temp"] (.directory false)).view ([".umlgen-temp"] ++ ["repo-0"]) =
        none := by decide
    show (FileTree.empty.put [".umlgen-temp"] (.directory false)).locate [] false (pathOf [".umlgen-temp", "repo-0"]) = _
    rw [FileTree.locate, if_neg (by decide)]
    show (FileTree.empty.put [".umlgen-temp"] (.directory false)).walk false FileTree.maxLinks []
      [".umlgen-temp", "repo-0"] = _
    rw [FileTree.walk_step (by decide) (by decide), hfirst]
    dsimp only
    rw [List.nil_append, FileTree.walk_step (by decide) (by decide), hsecond]
    rfl
  have hsteps := on_makeDirectories_of_noEntry (by decide) hmissing (by decide) 2
  show (makeDirectories (pathOf [".umlgen-temp", "repo-0"]) 3).on start = _
  rw [hsteps]
  show (makeDirectories (pathOf [".umlgen-temp"]) 2 >>= fun _ =>
    ensureDirectory (pathOf [".umlgen-temp", "repo-0"])).on start = _
  rw [on_bind_of_ok habove, on_ensureDirectory_of_missing (by decide) hplace (by rfl)]

/-- The program says something that is no text. -/
def unreadable : CommandFault := .notText ⟨.startByte, 0, 1, 255⟩

/-- Then the directory of the copy is new and stays. -/
theorem run_leaves_copy_remoteHost :
    ¬ (remoteHost (.error unreadable)).files.DirectoryAt [".umlgen-temp", "repo-0"] ∧
      ((run remoteArguments).on (remoteHost (.error unreadable))).2.files.DirectoryAt [".umlgen-temp", "repo-0"] := by
  let began : Host := { remoteHost (.error unreadable) with logging := .console false }
  constructor
  · rintro ⟨locked, hnode⟩
    cases hnode
  · have hconfigured : (Logging.configure remoteInvocation.verbose
        (remoteInvocation.logFile.map Path.ofString)).on (remoteHost (.error unreadable)) = (.ok (), began) := rfl
    obtain ⟨r, finished, hgenerated⟩ : ∃ r finished,
        (generate "git@host:r.git" none none none).on began = (r, finished) := ⟨_, _, rfl⟩
    have hplace : Checkout.copyPlace began (Checkout.copyName began.nanos) = [".umlgen-temp", "repo-0"] := by decide
    have hensured := ensureDirectories_remoteHost (.error unreadable) (.console false)
    rw [← hplace] at hensured
    have hleft := generate_leaves_copy hensured ⟨false, by decide⟩ rfl rfl (by decide) (by decide) hgenerated
    rw [hplace] at hleft
    rw [run, ofArguments_remoteArguments]
    dsimp only
    rw [on_bind_of_ok hconfigured]
    show ((generate "git@host:r.git" none none none >>= _).on began).2.files.DirectoryAt _
    rw [on_bind, hgenerated]
    cases r with
    | error f => exact hleft
    | ok written =>
      cases written with
      | none => exact hleft
      | some w =>
        have hrest : Notes (summarize w >>= fun _ => (pure .done : Action Outcome)) :=
          (notes_summarize w).bind fun _ => notes_pure _
        exact (hrest finished).files.directoryAt_iff.mpr hleft

end ClassAtlas.CommandLine
