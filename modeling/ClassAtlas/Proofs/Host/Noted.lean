import ClassAtlas.Proofs.Files.Growth
import ClassAtlas.Proofs.Host.Files
/-!
# What taking notes changes

A run takes notes all the time: it logs, prints and counts its commands. Of the files that changes
the log files alone, which grow. So what a run looks up later is what it would have found at first.
-/
namespace ClassAtlas

/-- The second host is the first after notes were taken: files that are logged to may have grown. -/
structure Host.Noted (h h' : Host) : Prop where
  files : h.files.Grown h'.files
  wellFormed : h.files.WellFormed → h'.files.WellFormed
  apart : ∀ place, (∀ level, Sink.file level (some place) ∉ h.logging.sinks) →
    h'.files.at? place = h.files.at? place
  cwd : h'.cwd = h.cwd
  home : h'.home = h.home
  users : h'.users = h.users
  now : h'.now = h.now
  git : h'.git = h.git
  logging : h'.logging = h.logging

namespace Host.Noted

variable {h h' h'' : Host}

/-- Without a change of files. -/
theorem of_files (files : h'.files = h.files) (cwd : h'.cwd = h.cwd) (home : h'.home = h.home)
    (users : h'.users = h.users) (now : h'.now = h.now) (git : h'.git = h.git) (logging : h'.logging = h.logging) :
    h.Noted h' :=
  ⟨by rw [files]; exact .refl _, by rw [files]; exact id, fun _ _ => by rw [files], cwd, home, users, now, git, logging⟩

theorem refl (h : Host) : h.Noted h := of_files rfl rfl rfl rfl rfl rfl rfl

theorem trans (hh : h.Noted h') (hh' : h'.Noted h'') : h.Noted h'' where
  files := hh.files.trans hh'.files
  wellFormed ht := hh'.wellFormed (hh.wellFormed ht)
  apart place hplace := by
    rw [hh'.apart place (by rw [hh.logging]; exact hplace), hh.apart place hplace]
  cwd := hh'.cwd.trans hh.cwd
  home := hh'.home.trans hh.home
  users := hh'.users.trans hh.users
  now := hh'.now.trans hh.now
  git := hh'.git.trans hh.git
  logging := hh'.logging.trans hh.logging

/-- A file that got longer stays so. -/
theorem lengthened (hh : h.Noted h') {place : Location} {bytes bs : List UInt8} {b : UInt8}
    (hfile : h.files.at? place = some (.file (bytes ++ b :: bs))) :
    ∃ c cs, h'.files.at? place = some (.file (bytes ++ c :: cs)) := by
  obtain ⟨node, hnode, hgrown⟩ := hh.files.forth hfile
  cases hgrown with
  | same => exact ⟨b, bs, hnode⟩
  | added _ text => exact ⟨b, bs ++ Utf8.encode text, by simpa using hnode⟩

end Host.Noted

namespace Action

variable {α β : Type} {h h' : Host}

/-- The action takes notes at most. -/
def Notes (a : Action α) : Prop := ∀ h : Host, h.Noted (a.on h).2

theorem Asks.notes {a : Action α} (ha : a.Asks) : a.Notes := by
  intro h
  rw [ha h]
  exact .refl h

theorem notes_pure (v : α) : Notes (pure v) := (asks_pure v).notes
theorem notes_throw (f : Failure) : Notes (throw f : Action α) := (asks_throw f).notes
theorem notes_get : Notes (get : Action Host) := asks_get.notes

theorem Notes.bind {a : Action α} {f : α → Action β} (ha : a.Notes) (hf : ∀ v, (f v).Notes) : Notes (a >>= f) := by
  intro h
  have hfirst := ha h
  rw [on_bind]
  cases hrun : a.on h with
  | mk r next =>
    rw [hrun] at hfirst
    cases r with
    | ok v => exact hfirst.trans (hf v next)
    | error e => exact hfirst

theorem Notes.attempt {a : Action α} (ha : a.Notes) : Notes (attempt a) := ha

theorem Notes.of_eq {a : Action α} (ha : a.Notes) {r : Except Failure α} (hrun : a.on h = (r, h')) : h.Noted h' := by
  have hnoted := ha h
  rwa [hrun] at hnoted

/-- After notes were taken the rest goes on from the host with them. -/
theorem Notes.bind_eq_ok {a : Action α} (ha : a.Notes) {f : α → Action β} {v : β}
    (hrun : (a >>= f).on h = (.ok v, h')) :
    ∃ u noted, a.on h = (.ok u, noted) ∧ h.Noted noted ∧ (f u).on noted = (.ok v, h') := by
  obtain ⟨u, noted, hfirst, hrest⟩ := Action.bind_eq_ok hrun
  exact ⟨u, noted, hfirst, ha.of_eq hfirst, hrest⟩

theorem notes_printError (text : String) : Notes (printError text) := fun _ => .of_files rfl rfl rfl rfl rfl rfl rfl

/-- Lines are added to files that are logged to only. -/
theorem noted_appendTo {level : Int} {place : Location} (hsink : Sink.file level (some place) ∈ h.logging.sinks)
    (text : String) : h.Noted ((appendTo place text).on h).2 := by
  rw [appendTo, on_modify]
  dsimp only
  split
  case h_2 => exact .refl h
  case h_1 bytes hfile =>
    have hne : place ≠ [] := by
      rintro rfl
      cases hfile
    refine ⟨⟨?_, ?_⟩, fun ht => ht.put hfile rfl, ?_, rfl, rfl, rfl, rfl, rfl, rfl⟩
    · intro p m hm
      by_cases hp : p = place
      · rw [hp, hfile] at hm
        cases hm
        exact ⟨_, by rw [hp]; exact FileTree.at?_put_self hne, .added bytes text.toList⟩
      · exact ⟨m, by rw [← hm]; exact FileTree.at?_put_of_ne hp, .same m⟩
    · intro p n hn
      by_cases hp : p = place
      · rw [hp] at hn ⊢
        cases hn.symm.trans (FileTree.at?_put_self hne)
        exact ⟨_, hfile, .added bytes text.toList⟩
      · exact ⟨n, hn.symm.trans (FileTree.at?_put_of_ne hp) ▸ rfl, .same n⟩
    · intro p hp
      refine FileTree.at?_put_of_ne ?_
      rintro rfl
      exact hp level hsink

theorem noted_deliver {s : Sink} (hs : s ∈ h.logging.sinks) (r : LogRecord) :
    h.Noted ((deliver r s).on h).2 := by
  cases s with
  | console level => exact notes_printError _ h
  | file level place =>
    cases place with
    | none => exact .refl h
    | some place =>
      rw [deliver, on_bind_of_ok (on_get h)]
      exact noted_appendTo hs _

theorem noted_forM_deliver (r : LogRecord) {sinks : List Sink} (hsinks : ∀ s ∈ sinks, s ∈ h.logging.sinks) :
    h.Noted ((sinks.forM (deliver r)).on h).2 := by
  induction sinks generalizing h with
  | nil => exact .refl h
  | cons s sinks ih =>
    have hfirst := noted_deliver (hsinks s List.mem_cons_self) r
    obtain ⟨next, hnext⟩ := succeeds_deliver r s h
    rw [hnext] at hfirst
    show h.Noted (on (deliver r s >>= fun _ => sinks.forM (deliver r)) h).2
    rw [on_bind_of_ok hnext]
    refine hfirst.trans (ih fun other hother => ?_)
    rw [hfirst.logging]
    exact hsinks other (List.mem_cons_of_mem _ hother)

theorem notes_log (logger : Option String) (level : Int) (message : String) : Notes (log logger level message) := by
  intro h
  let r : LogRecord := ⟨level, LogRecord.loggerName logger, message⟩
  let noted : Host := { h with journal := h.journal ++ [r] }
  have hnoted : h.Noted noted := .of_files rfl rfl rfl rfl rfl rfl rfl
  have htaken : ∀ s ∈ noted.logging.sinksFor level, s ∈ noted.logging.sinks := by
    intro s hs
    unfold Logging.sinksFor at hs
    split at hs
    · cases hs
    · exact List.mem_of_mem_filter hs
  have hdelivered := noted_forM_deliver r htaken
  obtain ⟨delivered, hforM, hlog⟩ := exists_on_log logger level message h
  rw [hforM] at hdelivered
  rw [hlog]
  refine hnoted.trans (hdelivered.trans ?_)
  split
  · exact notes_printError _ delivered
  · exact .refl delivered

theorem notes_debug (logger message : String) : Notes (debug logger message) := notes_log _ _ _
theorem notes_info (logger message : String) : Notes (info logger message) := notes_log _ _ _
theorem notes_warn (logger message : String) : Notes (warn logger message) := notes_log _ _ _

/-! ## Answers that stay the same -/

/-- The action answers on a host with notes as it did before they were taken. -/
def Steady (a : Action α) : Prop := ∀ ⦃h h' : Host⦄, h.Noted h' → h.files.WellFormed → (a.on h').1 = (a.on h).1

/-- So an answer with notes is the answer without them. -/
theorem Steady.on_eq {a : Action α} (hsteady : a.Steady) (hasks : a.Asks) (hnoted : h.Noted h')
    (ht : h.files.WellFormed) {r : Except Failure α} (hrun : a.on h' = (r, h')) : a.on h = (r, h) := by
  have hanswer := hsteady hnoted ht
  rw [hrun] at hanswer
  exact Prod.ext hanswer.symm (hasks h)

theorem Steady.on_noted {a : Action α} (hsteady : a.Steady) (hasks : a.Asks) (hnoted : h.Noted h')
    (ht : h.files.WellFormed) {r : Except Failure α} (hrun : a.on h = (r, h)) : a.on h' = (r, h') := by
  have hanswer := hsteady hnoted ht
  rw [hrun] at hanswer
  exact Prod.ext hanswer (hasks h')

/-- A tilde stands for the same directory where the home directories are the same. -/
theorem expandHome_congr (hhome : h'.home = h.home) (husers : h'.users = h.users) (p : Path) :
    ((expandHome p).on h').1 = ((expandHome p).on h).1 := by
  unfold expandHome
  split
  case h_1 first rest _ _ =>
    split
    case h_1 name _ =>
      cases hnul : name.contains (Char.ofNat 0) with
      | true => rfl
      | false =>
        simp only [Bool.false_eq_true, if_false]
        rw [on_bind_of_ok (on_get h), on_bind_of_ok (on_get h'), hhome, husers]
        cases (if name.isEmpty = true then some h.home else h.users.lookup (String.ofList name)) <;> rfl
    case h_2 => rfl
  case h_2 => rfl

theorem steady_expandHome (p : Path) : Steady (expandHome p) := fun _ _ hnoted _ =>
  expandHome_congr hnoted.home hnoted.users p

theorem steady_probe (follow : Bool) {test : Node → Bool} (htest : ∀ {m n : Node}, m.Grown n → test n = test m)
    (p : Path) : Steady (probe follow test p) := by
  intro h h' hnoted _
  cases hnul : hasNul p with
  | true =>
    rw [probe, hnul]
    rfl
  | false =>
    rw [on_probe hnul, on_probe hnul, hnoted.cwd]
    rcases hnoted.files.lookup_cases h.cwd follow p with ⟨errno, hold, hnew⟩ | ⟨place, m, n, hold, hnew, hgrown⟩
    · rw [hold, hnew]
    · rw [hold, hnew]
      exact congrArg Except.ok (htest hgrown)

theorem steady_isDirectory (p : Path) : Steady (isDirectory p) := by
  refine steady_probe true (fun hgrown => ?_) p
  cases hgrown <;> rfl

theorem steady_pathExists (p : Path) : Steady (pathExists p) := steady_probe true (fun _ => rfl) p

theorem steady_resolve (p : Path) : Steady (resolve p) := by
  intro h h' hnoted ht
  unfold resolve refuseNul
  cases hnul : hasNul p with
  | true => rfl
  | false =>
    simp only [Bool.false_eq_true, if_false]
    rw [on_bind_of_ok (on_pure _ h), on_bind_of_ok (on_pure _ h'), on_bind_of_ok (on_get h), on_bind_of_ok (on_get h'),
      hnoted.cwd, hnoted.files.resolve_eq ht (hnoted.wellFormed ht)]
    rcases hnoted.files.lookup_cases h.cwd true (pathOf (h.files.resolve h.cwd p)) with
      ⟨errno, hold, hnew⟩ | ⟨place, m, n, hold, hnew, _⟩
    · simp only [hold, hnew]
      cases errno <;> rfl
    · simp only [hold, hnew]
      rfl

end Action
end ClassAtlas
