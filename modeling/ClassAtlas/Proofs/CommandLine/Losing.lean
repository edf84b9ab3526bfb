import ClassAtlas.Proofs.CommandLine.Remote
/-!
# An output in a copy

The settings of a remote project are read from its copy, so they may place the output there. A run for such a project
is done and shows its output, but the file has gone with the copy.
-/
namespace ClassAtlas

open ClassAtlas.Action

variable {h began started left after : Host} {here : Location} {name url : String} {w : Written}
  {included excluded : Option (List String)}

/-! ## Trees without links -/

theorem FileTree.Linkless.of_fewer {t t' : FileTree} (hl : t.Linkless)
    (hfewer : ∀ q, t'.at? q = t.at? q ∨ t'.at? q = none) : t'.Linkless := by
  intro place target hlink
  rcases hfewer place with hsame | hnone
  · exact hl place target (hsame ▸ hlink)
  · cases hnone.symm.trans hlink

theorem Checkout.linkless_of_cleanup (hl : h.files.Linkless) (p : Path) :
    ((Checkout.cleanup p).on h).2.files.Linkless := by
  rcases cleanup_cases p h with hnoted | ⟨_, _, _, _, hcleared, hnoted⟩
  · exact hl.grown hnoted.files
  · exact (hl.of_fewer hcleared.fewer).grown hnoted.files

namespace CommandLine

open Checkout Generation

/-! ## The output goes with the copy -/

/-- An output that lies in the copy is gone with it. -/
theorem Finished.loses {args : List String} (run : Finished args h after) {copy : Path} {place q : Location}
    {locked : Bool} {bytes : List UInt8} (hcopy : run.copy = some copy)
    (hplace : run.left.files.lookup run.left.cwd false copy = .ok (place, .directory locked)) (hroot : place ≠ [])
    (houtput : run.left.files.lookup run.left.cwd true run.written.output = .ok (q, .file bytes))
    (hbelow : place <+: q) (r : Location × Node) : after.files.lookup after.cwd true run.written.output ≠ .ok r := by
  have hcleaned := run.cleaned
  have hfetched := run.fetched
  rw [hcopy] at hcleaned hfetched
  obtain ⟨hown, hnul⟩ := clone_of_ok hfetched.clone_eq
  have hne : q ≠ place := by
    rintro rfl
    have hdirectory := (FileTree.locate_of_lookup hplace).2
    rw [(FileTree.locate_of_lookup houtput).2] at hdirectory
    cases hdirectory
  have hlost := fun r => lookup_of_cleanup (r := r) hown hnul hplace hroot houtput hbelow hne
  rw [Option.elim_some] at hcleaned
  rw [hcleaned] at hlost
  have hnoted := noted_of_summarize run.summarized
  intro hfound
  rw [hnoted.cwd] at hfound
  rcases hnoted.files.lookup_cases run.finished.cwd true run.written.output with
    ⟨errno, _, hnone⟩ | ⟨there, m, n, hthere, _, _⟩
  · rw [hfound] at hnone
    cases hnone
  · exact hlost (there, m) hthere

/-- A remote project whose settings place the output in the copy that is made of it. -/
structure Sunken (h started : Host) (url : String) (here : Location) (name : String) (s : Settings) : Prop where
  remote : isRemote url = true
  cloned : (clone url none).on h = (.ok (pathOf here), started)
  linkless : started.files.Linkless
  rooted : (rootOf (Path.ofString (pathOf here).toString)).on started = (.ok (pathOf here), started)
  loaded : (Settings.load (pathOf here)).on started = (.ok s, started)
  output : s.output = some (pathOf (here ++ [name]))
  room : Snapshot.Room started here name

namespace Sunken

variable {s : Settings}

theorem on_outputPath (hs : Sunken h started url here name s) (composed : Host) :
    (outputPath (pathOf here) (copyRequest (pathOf here) url included excluded) none s).on composed =
      (.ok (pathOf (here ++ [name])), composed) := by
  simp only [outputPath, hs.output]
  rfl

theorem here_ne_nil (hs : Sunken h started url here name s) : here ≠ [] := by
  obtain ⟨hown, _⟩ := clone_of_ok hs.cloned
  rintro rfl
  cases hown

/-- The document is written into the copy. -/
theorem stored (hs : Sunken h started url here name s)
    (hran : (Generation.run .sequential (copyRequest (pathOf here) url included excluded) none).on started =
      (.ok w, left)) : w.output = pathOf (here ++ [name]) ∧ left.files.Linkless ∧ Snapshot.Room left here name ∧
        ∃ bytes, left.files.at? (here ++ [name]) = some (.file bytes) := by
  obtain ⟨_, _, g, composed, wrote, hroot, hload, hgenerated, hplaced, _, hwrite, hnoted⟩ := steps_of_run hran
  cases hs.rooted.symm.trans hroot
  cases hs.loaded.symm.trans hload
  have houtput := Except.ok.inj (Prod.mk.inj ((hs.on_outputPath started).symm.trans hplaced)).1
  have hcomposed := (notes_ofSettings _ _ _ _).of_eq hgenerated
  have hroom := hs.room.noted hcomposed
  rw [← houtput] at hwrite
  obtain ⟨_, _, hstored⟩ := Snapshot.stored_of_write hroom.wellFormed (hs.linkless.grown hcomposed.files)
    hroom.directory (fun _ => hroom.named) hwrite
  have hwrote : wrote.files.Linkless := by
    rw [hstored.eq]
    exact (hs.linkless.grown hcomposed.files).erase.put rfl
  obtain ⟨node, hnode, hgrown⟩ := hnoted.files.forth hstored.output
  obtain ⟨more, rfl⟩ := grown_file hgrown
  exact ⟨houtput.symm, hwrote.grown hnoted.files, hstored.room.noted hnoted, _, hnode⟩

end Sunken

/-- A run for a remote project whose settings place the output in its copy is done once its snapshot is put together,
and then its output leads nowhere. -/
theorem run_loses_output {args : List String} {i : Invocation} {s : Settings} {g : Generation} {composed : Host}
    (hparsed : Invocation.ofArguments args = .ok i) (htask : i.task = .generate url none included excluded)
    (hconfigured : (Logging.configure i.verbose (i.logFile.map Path.ofString)).on h = (.ok (), began))
    (hs : Sunken began started url here name s)
    (hgenerated : (ofSettings .sequential (pathOf here) (copyRequest (pathOf here) url included excluded) s).on started =
      (.ok g, composed)) (hnumbers : g.snapshot.toJson.hasLongNumber = false) :
    ∃ after, (run args).on h = (.ok .done, after) ∧ ∃ finished : Finished args h after,
      finished.written.output = pathOf (here ++ [name]) ∧
        ∀ r, after.files.lookup after.cwd true finished.written.output ≠ .ok r := by
  have hcomposed := (notes_ofSettings _ _ _ _).of_eq hgenerated
  obtain ⟨left, hran, _⟩ := on_run_of_room (q := copyRequest (pathOf here) url included excluded) hs.rooted hs.loaded
    hgenerated (hs.on_outputPath composed) (hs.room.noted hcomposed) hnumbers
  obtain ⟨_, hlinks, hroom, bytes, hfile⟩ := hs.stored hran
  obtain ⟨locked, hdirectory⟩ := hroom.directory
  have hcleaned : (cleanup (pathOf here)).on left = (.ok (), ((cleanup (pathOf here)).on left).2) :=
    Prod.ext (cleanup_returns (noNul_of_clone hs.cloned) left) rfl
  have hnul : hasNul (pathOf (here ++ [name])) = false := hasNul_child hroom.wellFormed hdirectory hroom.named
  -- Without links the path of the output can be shown, although nothing is there any more.
  have hresolved : (resolve (pathOf (here ++ [name]))).on ((cleanup (pathOf here)).on left).2 = (.ok _, _) :=
    on_resolve hnul rfl (linkless_of_cleanup hlinks (pathOf here)).lookup_ne_linkLoop
  obtain ⟨after, hsummarized⟩ := summarize_returns ⟨g.snapshot, pathOf (here ++ [name]), g.skipped⟩ hresolved
  have hrun := on_run_of_generate hparsed htask hconfigured
    (on_generate_of_remote hs.remote hs.cloned hran hcleaned) hsummarized
  obtain ⟨course⟩ := course_of_ok hran
  let finished : Finished args h after := ⟨i, url, none, included, excluded, some (pathOf here), _, _, began, started, left,
    _, hparsed, htask, hconfigured, .copy hs.remote hs.cloned, hran, course, hcleaned, hsummarized⟩
  have hplace := lookup_pathOf hroom.wellFormed hdirectory rfl (by simpa using hroom.short [] (by simp)) left.cwd false
  have houtput := lookup_pathOf hroom.wellFormed hfile rfl (hroom.short [name] (by simp)) left.cwd true
  exact ⟨after, hrun, finished, rfl,
    finished.loses rfl hplace hs.here_ne_nil houtput (List.prefix_append here [name])⟩

/-! ## Settings that place the output beside them -/

/-- A remote project that has nothing but these settings. -/
def ownEntries : List (List String × Node) := [([settingsFile], .file (Utf8.encode outputText))]

/-- The host when the log is set up. -/
def ownHost : Host := { remoteHost (.ok ownEntries) with logging := .console false }

/-- The tree with the copy. -/
def ownTree : FileTree := madeTree.put [".umlgen-temp", "repo-0", settingsFile] (.file (Utf8.encode outputText))

/-- A console takes a line without a change to files. -/
theorem on_info_of_console (hlog : h.logging = .console false) (logger message : String) : ∃ journal errors,
    (info logger message).on h = (.ok (), { h with journal, errors }) := by
  obtain ⟨files, cwd, home, users, now, git, commands, logging, journal, printed, errors, nanos⟩ := h
  obtain rfl : logging = .console false := hlog
  exact ⟨_, _, rfl⟩

theorem plantCopy_ownEntries (hfiles : h.files = madeTree) :
    (plantCopy emptyCopy ownEntries).on h = (.ok (), { h with files := ownTree }) := by
  have hfound : h.files.lookup h.cwd true emptyCopy = .ok ([".umlgen-temp", "repo-0"], .directory false) := by
    rw [hfiles]
    exact lookup_pathOf wellFormed_madeTree (by decide) rfl (by decide) h.cwd true
  rw [plantCopy, on_bind_of_ok (on_lookup (by decide) true h), hfound, ownTree, ← hfiles]
  show (Except.ok (), { h with files := h.files.plant _ _ }) = _
  rw [hfiles]
  rfl

/-- The copy is made, with the settings in it. -/
theorem clone_ownHost : ∃ started, (clone "git@host:r.git" none).on ownHost = (.ok emptyCopy, started) ∧
    started.files = ownTree ∧ started.cwd = [] ∧ started.git = ownHost.git ∧ started.now = ownHost.now := by
  let made : Host := { clocked ownHost with files := madeTree }
  have hcwd : (cwd : Action Path).on ownHost = (.ok (pathOf []), ownHost) := rfl
  have hclock : readNanos.on ownHost = (.ok 0, clocked ownHost) := rfl
  have htarget : ((pathOf []).child directoryName).child ("repo-" ++ Nat.repr 0) = emptyCopy := by decide
  have hensured : (ensureDirectories emptyCopy).on (clocked ownHost) = (.ok (), made) :=
    ensureDirectories_remoteHost (.ok ownEntries) (.console false)
  obtain ⟨journal, errors, hbegun⟩ :=
    on_info_of_console (h := made) rfl "git" ("Cloning repository: " ++ "git@host:r.git")
  let asked : Host := { made with journal, errors, commands := [command "git@host:r.git" emptyCopy] }
  obtain ⟨journal', errors', hended⟩ :=
    on_info_of_console (h := { asked with files := ownTree }) rfl "git" ("Cloned to: " ++ emptyCopy.toString)
  refine ⟨{ asked with files := ownTree, journal := journal', errors := errors' }, ?_, rfl, rfl, rfl, rfl⟩
  unfold clone
  dsimp only
  rw [on_bind_of_ok hcwd, on_bind_of_ok hclock, htarget, on_bind_of_ok hensured, on_bind_of_ok hbegun]
  show (plantCopy emptyCopy ownEntries >>= fun _ => info "git" ("Cloned to: " ++ emptyCopy.toString) >>= fun _ =>
    pure emptyCopy).on asked = _
  rw [on_bind_of_ok (plantCopy_ownEntries rfl), on_bind_of_ok hended]
  rfl

theorem wellFormed_ownTree : ownTree.WellFormed := by decide

theorem plain_ownTree (hfiles : h.files = ownTree) (hcwd : h.cwd = []) : Plain h [".umlgen-temp", "repo-0"] where
  directory := ⟨false, by rw [hfiles]; decide⟩
  noManifest := by rw [hfiles]; decide
  resolved := by rw [hfiles, hcwd]; decide
  settingsResolved := by rw [hfiles, hcwd]; decide
  short := by decide

theorem room_ownTree (hfiles : h.files = ownTree) : Snapshot.Room h [".umlgen-temp", "repo-0"] "out.json" where
  wellFormed := hfiles ▸ wellFormed_ownTree
  directory := ⟨false, by rw [hfiles]; decide⟩
  named := by decide
  besideNamed := by decide
  free := .inl (by rw [hfiles]; decide)
  besideFree := by rw [hfiles]; decide
  short := by decide

theorem ofText_outputText : ∃ s, Settings.ofText settingsFile emptyCopy (Text.unifyLineEnds outputText) = .ok s ∧
    s.output = some (pathOf [".umlgen-temp", "repo-0", "out.json"]) := by
  have hread : (Settings.ofText settingsFile emptyCopy (Text.unifyLineEnds outputText)).toOption.map (·.output) =
      some (some (pathOf [".umlgen-temp", "repo-0", "out.json"])) := by decide +kernel
  obtain ⟨s, hs, houtput⟩ := map_toOption_eq_some_iff.mp hread
  exact ⟨s, hs, houtput⟩

/-- The settings in the copy place the output there. -/
theorem sunken_ownHost : ∃ started s, started.files = ownTree ∧ started.cwd = [] ∧ started.git = ownHost.git ∧
    started.now = ownHost.now ∧
      Sunken ownHost started "git@host:r.git" [".umlgen-temp", "repo-0"] "out.json" s := by
  obtain ⟨started, hclone, hfiles, hcwd, hgit, hnow⟩ := clone_ownHost
  obtain ⟨s, hgiven, houtput⟩ := ofText_outputText
  have hformed : started.files.WellFormed := hfiles ▸ wellFormed_ownTree
  have hplain := plain_ownTree hfiles hcwd
  have hback : Path.ofString emptyCopy.toString = emptyCopy := by decide
  have hsettings : started.files.at? ([".umlgen-temp", "repo-0"] ++ [settingsFile]) =
      some (.file (Utf8.encode outputText)) := by
    rw [hfiles]
    decide
  refine ⟨started, s, hfiles, hcwd, hgit, hnow, ?_⟩
  exact {
    remote := by decide
    cloned := hclone
    linkless := hfiles ▸ .of_nodes (by decide)
    rooted := hback ▸ hplain.on_rootOf hformed
    loaded := hplain.on_load hformed hsettings (Utf8.decode_encode outputText) hgiven
    output := houtput
    room := room_ownTree hfiles }

theorem unwanted_ownTree (included excluded : List String) : ∀ p ∈ ownTree.listing [".umlgen-temp", "repo-0"],
    ¬ Discovery.Wanted ownTree included excluded [".umlgen-temp", "repo-0"] p :=
  unwanted_of_names (FileTree.names_of_sorted (by decide) (by decide)) (by decide) (by decide) included excluded

/-- The settings say "output: out.json", and after the run there is no such file. -/
theorem run_loses_output_ownHost : ∃ after, (run remoteArguments).on (remoteHost (.ok ownEntries)) = (.ok .done, after) ∧
    ∃ finished : Finished remoteArguments (remoteHost (.ok ownEntries)) after,
      finished.written.output = pathOf [".umlgen-temp", "repo-0", "out.json"] ∧
        ∀ r, after.files.lookup after.cwd true finished.written.output ≠ .ok r := by
  obtain ⟨started, s, hfiles, hcwd, hgit, hnow, hsunken⟩ := sunken_ownHost
  have hknown : started.git.KnowsNothing := by
    rw [hgit]
    exact fun _ => ⟨.notFound, rfl, rfl⟩
  have hclock : started.now.stamp?.isSome := by
    rw [hnow]
    rfl
  have hnone : ∀ included excluded, ∀ p ∈ started.files.listing [".umlgen-temp", "repo-0"],
      ¬ Discovery.Wanted started.files included excluded [".umlgen-temp", "repo-0"] p := by
    rw [hfiles]
    exact unwanted_ownTree
  obtain ⟨g, composed, hgenerated, hnumbers⟩ := (plain_ownTree hfiles hcwd).generated hsunken.room.wellFormed
    (hnone _ _) hknown hclock .sequential (q := copyRequest emptyCopy "git@host:r.git" none none) (s := s)
  exact run_loses_output ofArguments_remoteArguments rfl rfl hsunken hgenerated hnumbers

end CommandLine
end ClassAtlas
