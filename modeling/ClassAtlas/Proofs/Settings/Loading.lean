import ClassAtlas.Proofs.Generation.Breaking
import ClassAtlas.Proofs.Settings.Outcome
/-!
# Loading the settings of a directory

Whatever stands where the settings of a directory are looked for, they are loaded with no limit or one above zero, or
they are told to be at fault; unless links or a name that is too long keep the file from being looked for, or a number
stands in it where none can be held.
-/
namespace ClassAtlas.Settings

open ClassAtlas.Action

variable {h : Host} {p q : Path} {f : Failure}

/-- Where the settings of a directory are looked for. -/
def fileOf (h : Host) (q : Path) : Path := pathOf (h.files.resolve h.cwd (q.child settingsFile))

/-- What ends the loading of settings from a file without being told as a fault of them. -/
inductive Escapes (h : Host) (file : Path) : Prop where
  /-- Links keep the file, or the directory above it, from being looked for. -/
  | loop (links : h.files.lookup h.cwd true file = .error .linkLoop) : Escapes h file
  | loopAbove (links : h.files.lookup h.cwd true (pathOf (h.files.resolve h.cwd file.parent)) = .error .linkLoop) :
      Escapes h file
  /-- A name on the way to it is too long. -/
  | long (name : h.files.lookup h.cwd true file = .error .nameTooLong) : Escapes h file
  /-- A number in it is too large, or has too many digits. -/
  | number {text : List Char} {s : Section} (reads : (readText file).on h = (.ok text, h))
      (mapping : mapping? file.name text = .ok (some s)) (overfull : s.Overfull) : Escapes h file

/-- The settings of a directory are looked for in it. -/
theorem on_filePath_of_directory (hexpanded : (expandHome p).on h = (.ok q, h))
    (hdirectory : (isDirectory q).on h = (.ok true, h)) :
    hasNul (q.child settingsFile) = false ∧ (filePath p).on h = (resolve (q.child settingsFile)).on h := by
  refine ⟨hasNul_path_child (found_of_probe hdirectory).1 (by decide), ?_⟩
  rw [filePath, on_bind_of_ok hexpanded, on_bind_of_ok hdirectory]
  rfl

/-- Settings that are loaded come from a text, or are the defaults. -/
theorem isPositive_of_load {s : Settings} {next : Host} (hload : (load p).on h = (.ok s, next)) :
    ∀ l ∈ s.history.limit, l.IsPositive := by
  obtain ⟨file, _, hload⟩ := (asks_filePath p).bind_eq_ok hload
  obtain ⟨root, _, hload⟩ := (asks_resolve _).bind_eq_ok hload
  obtain ⟨found, _, hload⟩ := (asks_probe _ _ file).bind_eq_ok hload
  cases found with
  | false =>
    cases hload
    exact isPositive_of_defaultLimit
  | true =>
    obtain ⟨text, _, hload⟩ := (asks_readText file).bind_eq_ok hload
    exact isPositive_of_ofText (congrArg Prod.fst hload)

theorem on_resolve_of_loop (hnul : hasNul p = false)
    (hloop : h.files.lookup h.cwd true (pathOf (h.files.resolve h.cwd p)) = .error .linkLoop) :
    ∃ f, (resolve p).on h = (.error f, h) := by
  rw [on_resolve_eq hnul, hloop]
  exact ⟨_, rfl⟩

section Directory
variable (hs : h.Sound) (hexpanded : (expandHome p).on h = (.ok q, h)) (hdirectory : (isDirectory q).on h = (.ok true, h))
  (htext : ∀ text, (readText (fileOf h q)).on h = (.ok text, h) → HasValueOrFault text)
include hs hexpanded hdirectory htext

/-- What ends the loading without being told keeps the file from being looked for, or is a number in it. -/
theorem escapes_of_untold (hu : Untold h p f) : Escapes h (fileOf h q) := by
  obtain ⟨hchild, hplaced⟩ := on_filePath_of_directory hexpanded hdirectory
  have hnul : hasNul (fileOf h q) = false := hasNul_of_resolve hs.wellFormed hs.clean hchild
  have hsame : ∀ {file}, (filePath p).on h = (.ok file, h) → file = fileOf h q :=
    fun hfile => eq_pathOf_of_resolve (hplaced.symm.trans hfile)
  cases hu with
  | unplaced fails => exact .loop (resolve_failed hchild (hplaced.symm.trans fails)).2
  | unhoused at_ fails =>
    rw [hsame at_] at fails
    exact .loopAbove (resolve_failed (hasNul_parent hnul) fails).2
  | unseen at_ above fails =>
    rw [hsame at_, pathExists, on_probe hnul] at fails
    split at fails
    case h_2 hlong => exact .long hlong
    all_goals cases fails
  | unvalued at_ above reads fails value =>
    rw [hsame at_] at reads fails
    obtain ⟨s, hmapping, hover⟩ := (fails_at_value_iff (htext _ reads)).mp ⟨f, fails, value⟩
    exact .number reads hmapping hover

/-- The other way round, each of these ends the loading, at the latest where it comes to it. -/
theorem untold_of_escapes (hescapes : Escapes h (fileOf h q)) : ∃ f, Untold h p f := by
  obtain ⟨hchild, hplaced⟩ := on_filePath_of_directory hexpanded hdirectory
  have hnul : hasNul (fileOf h q) = false := hasNul_of_resolve hs.wellFormed hs.clean hchild
  by_cases hloop : h.files.lookup h.cwd true (fileOf h q) = .error .linkLoop
  case pos =>
    obtain ⟨f, hfails⟩ := on_resolve_of_loop hchild hloop
    exact ⟨f, .unplaced (hplaced.trans hfails)⟩
  have hfile : (filePath p).on h = (.ok (fileOf h q), h) := hplaced.trans (on_resolve hchild rfl hloop)
  by_cases habove : h.files.lookup h.cwd true (pathOf (h.files.resolve h.cwd (fileOf h q).parent)) = .error .linkLoop
  case pos =>
    obtain ⟨f, hfails⟩ := on_resolve_of_loop (hasNul_parent hnul) habove
    exact ⟨f, .unhoused hfile hfails⟩
  have hbase := on_resolve (hasNul_parent hnul) rfl habove
  cases hescapes with
  | loop links => exact absurd links hloop
  | loopAbove links => exact absurd links habove
  | long name =>
    have hunseen : (pathExists (fileOf h q)).on h = (.error (.file (.system .nameTooLong (.path (fileOf h q).toString))), h) := by
      rw [pathExists, on_probe hnul, name]
    exact ⟨_, .unseen hfile hbase hunseen⟩
  | number reads mapping overfull =>
    obtain ⟨f, hf, hvalue⟩ := (fails_at_value_iff (htext _ reads)).mpr ⟨_, mapping, overfull⟩
    exact ⟨f, .unvalued hfile hbase reads hf hvalue⟩

end Directory

/-- The settings of a directory are loaded with no limit or one above zero, or are told to be at fault, exactly when
nothing keeps their file from being looked for and no number stands in it where none can be held. -/
theorem load_tells_iff (hs : h.Sound) (hexpanded : (expandHome p).on h = (.ok q, h))
    (hdirectory : (isDirectory q).on h = (.ok true, h))
    (htext : ∀ text, (readText (fileOf h q)).on h = (.ok text, h) → HasValueOrFault text) :
    ((∃ s, (load p).on h = (.ok s, h) ∧ ∀ l ∈ s.history.limit, l.IsPositive) ∨
      ∃ fault, (load p).on h = (.error (.settings fault), h)) ↔ ¬ Escapes h (fileOf h q) := by
  constructor
  · intro hends hescapes
    obtain ⟨f, hu⟩ := untold_of_escapes hs hexpanded hdirectory htext hescapes
    have hload := hu.on_load
    rcases hends with ⟨s, hloaded, _⟩ | ⟨fault, htold⟩
    · cases hload.symm.trans hloaded
    · cases hload.symm.trans htold
      rcases hu.kind with hlookup | hvalue
      · cases hlookup
      · cases hvalue
  · intro hnone
    rcases load_cases h p with ⟨s, hloaded⟩ | htold | ⟨f, _, hu⟩
    · exact .inl ⟨s, hloaded, isPositive_of_load hloaded⟩
    · exact .inr htold
    · exact absurd (escapes_of_untold hs hexpanded hdirectory htext hu) hnone

/-! ## The least number that is too large -/

/-- A directory that has nothing but settings. -/
def settingsTree (text : List Char) : FileTree where
  nodes := [(["repo"], .directory false), (["repo", settingsFile], .file (Utf8.encode text))]

/-- Settings that give a whole number of seconds as the time limit. -/
def limitText (seconds : Nat) : List Char := "git:\n  timeout: ".toList ++ Nat.toDigits 10 seconds ++ ['\n']

def greatestText : List Char := limitText (Binary64.tooLarge - 1)
def tooLargeText : List Char := limitText Binary64.tooLarge

theorem wellFormed_settingsTree (text : List Char) : (settingsTree text).WellFormed := of_decide_eq_true rfl

theorem sound_settingsTree (text : List Char) : (Host.holding (settingsTree text)).Sound where
  wellFormed := wellFormed_settingsTree text
  clean := clean_holding (by simp [settingsTree])

theorem plain_settingsTree (text : List Char) : Generation.Plain (.holding (settingsTree text)) ["repo"] where
  directory := ⟨false, rfl⟩
  noManifest := rfl
  resolved := rfl
  settingsResolved := rfl
  short := of_decide_eq_true rfl

theorem isDirectory_settingsTree (text : List Char) :
    (isDirectory (pathOf ["repo"])).on (.holding (settingsTree text)) = (.ok true, .holding (settingsTree text)) := by
  obtain ⟨hnul, locked, hfound⟩ := (plain_settingsTree text).found (wellFormed_settingsTree text)
  exact on_probe_of_found hnul hfound Node.isDirectory

/-- The greatest whole number that is not too large is a limit, and so nothing escapes. -/
theorem load_tells_greatest :
    (∃ s, (load (pathOf ["repo"])).on (.holding (settingsTree greatestText)) =
      (.ok s, .holding (settingsTree greatestText)) ∧
        s.history.limit = some (.real (Binary64.ofInt (Binary64.tooLarge - 1)))) ∧
    ¬ Escapes (.holding (settingsTree greatestText)) (pathOf ["repo", settingsFile]) := by
  have hdecode := Utf8.decode_encode greatestText
  have hlines : Text.unifyLineEnds greatestText = greatestText := by decide +kernel
  have hplain := plain_settingsTree greatestText
  have hformed := wellFormed_settingsTree greatestText
  obtain ⟨_, _, _, hread⟩ := hplain.on_readText hformed rfl hdecode
  have hload := hplain.on_load_eq hformed rfl hdecode
  rw [hlines] at hread hload
  have hgiven : (ofText settingsFile (pathOf ["repo"]) greatestText).toOption.map (·.history.limit) =
      some (some (.real (Binary64.ofInt (Binary64.tooLarge - 1)))) := by decide +kernel
  cases hs : ofText settingsFile (pathOf ["repo"]) greatestText with
  | error f =>
    rw [hs] at hgiven
    cases hgiven
  | ok s =>
    rw [hs] at hgiven hload
    refine ⟨⟨s, hload, Option.some.inj hgiven⟩, ?_⟩
    refine (load_tells_iff (sound_settingsTree greatestText) rfl (isDirectory_settingsTree greatestText) ?_).mp
      (.inl ⟨s, hload, isPositive_of_load hload⟩)
    intro text htext fault hfault
    cases hread.symm.trans htext
    have hvalid : (Yaml.Document.read greatestText).isOk = true := by decide +kernel
    rw [hfault] at hvalid
    cases hvalid

/-- The next one ends the loading, although the text is valid, and the failure is none of the settings. -/
theorem load_escapes_tooLarge :
    (expandHome (pathOf ["repo"])).on (.holding (settingsTree tooLargeText)) =
      (.ok (pathOf ["repo"]), .holding (settingsTree tooLargeText)) ∧
    (isDirectory (pathOf ["repo"])).on (.holding (settingsTree tooLargeText)) =
      (.ok true, .holding (settingsTree tooLargeText)) ∧
    (Yaml.Document.read tooLargeText).isOk = true ∧
    (load (pathOf ["repo"])).on (.holding (settingsTree tooLargeText)) =
      (.error .numberTooLarge, .holding (settingsTree tooLargeText)) ∧
    Failure.isSettings .numberTooLarge = false := by
  have hdecode := Utf8.decode_encode tooLargeText
  have hfails : ofText settingsFile (pathOf ["repo"]) (Text.unifyLineEnds tooLargeText) = .error .numberTooLarge := by
    decide +kernel
  refine ⟨rfl, isDirectory_settingsTree tooLargeText, by decide +kernel, ?_, rfl⟩
  rw [(plain_settingsTree tooLargeText).on_load_eq (wellFormed_settingsTree tooLargeText) rfl hdecode, hfails]

end ClassAtlas.Settings
