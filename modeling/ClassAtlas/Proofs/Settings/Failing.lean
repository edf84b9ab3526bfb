import ClassAtlas.Proofs.Generation.Reading
import ClassAtlas.Proofs.Host.Making
import ClassAtlas.Proofs.Settings.Layers
/-!
# When settings cannot be loaded

Settings that cannot be read, that are malformed or that are no mapping are told as such. What is not told as a
fault of the settings comes from looking for their file, or from a single value in them.
-/
namespace ClassAtlas.Settings

open ClassAtlas.Action Yaml

/-- Failures that stand for a single value. -/
def isOfValue : Failure → Bool
  | .value _ | .scalar _ | .numberTooLarge | .tooDeep _ => true
  | _ => false

/-! ## Reading a text -/

section Fails
variable {α β : Type} {p : Failure → Prop} {x : Except Failure α}

/-- Every failure of the result satisfies `p`. -/
def Fails (p : Failure → Prop) (x : Except Failure α) : Prop := ∀ f, x = .error f → p f

theorem fails_ok (v : α) : Fails p (.ok v : Except Failure α) := by
  intro f hf
  cases hf

theorem fails_error {f : Failure} (hf : p f) : Fails p (.error f : Except Failure α) := by
  intro g hg
  cases hg
  exact hf

theorem Fails.bind {f : α → Except Failure β} (hx : Fails p x) (hf : ∀ v, Fails p (f v)) : Fails p (x >>= f) := by
  cases x with
  | error e => exact fails_error (hx e rfl)
  | ok v => exact hf v

theorem fails_mapM {f : α → Except Failure β} (hf : ∀ v, Fails p (f v)) (vs : List α) : Fails p (vs.mapM f) := by
  induction vs with
  | nil => exact fails_ok _
  | cons v vs ih =>
    rw [List.mapM_cons]
    exact (hf v).bind fun _ => ih.bind fun _ => fails_ok _

end Fails

/-- A fault of the settings as such, or one of a single value. -/
def IsOfText (f : Failure) : Prop := f.isSettings = true ∨ isOfValue f = true

variable {s : Section} {file : String} {root : Path}

theorem isOfText_failure (fault : Fault) : IsOfText (failure file fault) := by
  cases fault with
  | malformed what => exact .inl rfl
  | noCharacter wide => cases wide <;> exact .inr rfl
  | _ => exact .inr rfl

theorem fails_text? (v : Value) : Fails IsOfText (text? v) := by
  unfold text?
  split
  · exact fails_ok _
  · split
    · exact fails_ok _
    · exact fails_error (.inr rfl)
  · exact fails_ok _
  · exact fails_ok _

theorem fails_patterns (value : Yaml.Node → Reading Value) (v : Value) : Fails IsOfText (patterns value file v) := by
  have hitem : ∀ v, Fails IsOfText (itemText? v) := by
    intro v
    unfold itemText?
    split
    · exact fails_ok _
    · exact fails_text? v
  unfold patterns
  split
  · exact fails_ok _
  · exact fails_ok _
  · refine (fails_mapM (fun node => ?_) _).bind fun items => fails_ok _
    split
    · exact hitem _
    · exact fails_error (isOfText_failure _)
  · exact fails_ok _

theorem fails_limit (v : Value) : Fails IsOfText (limit v) := by
  unfold limit
  split
  · split
    · exact fails_ok _
    · split
      · exact fails_ok _
      · exact fails_error (.inr rfl)
  · exact fails_ok _
  · split
    · exact fails_ok _
    · exact fails_ok _
  · exact fails_ok _

namespace Section

theorem fails_value? (s : Section) (name : String) : Fails IsOfText (s.value? name) := by
  unfold value?
  split
  · exact fails_ok _
  · split
    · exact fails_ok _
    · exact fails_error (isOfText_failure _)

theorem fails_value (s : Section) (name : String) : Fails IsOfText (s.value name) :=
  (s.fails_value? name).bind fun _ => fails_ok _

theorem fails_inner (s : Section) (name : String) : Fails IsOfText (s.inner name) := by
  refine (s.fails_value name).bind fun v => ?_
  split
  · exact fails_ok _
  · exact fails_ok _

theorem fails_text (s : Section) (name : String) : Fails IsOfText (s.text name) :=
  (s.fails_value name).bind fun v => fails_text? v

theorem fails_patternList (s : Section) (name : String) (fallback : List String) :
    Fails IsOfText (s.patternList name fallback) := by
  refine (s.fails_value? name).bind fun v => ?_
  split
  · exact fails_patterns _ _
  · exact fails_ok _

end Section

theorem fails_ofSection (root : Path) (s : Section) : Fails IsOfText (ofSection root s) :=
  (s.fails_patternList _ _).bind fun _ => (s.fails_patternList _ _).bind fun _ => (s.fails_text _).bind fun _ =>
    (s.fails_inner _).bind fun about => (about.fails_text _).bind fun _ => (about.fails_text _).bind fun _ =>
      (about.fails_text _).bind fun _ => (s.fails_inner _).bind fun history => (history.fails_value _).bind fun _ =>
        (history.fails_value _).bind fun v => (fails_limit v).bind fun _ => fails_ok _

/-- A text gives settings, or a fault of the settings as such, or one of a single value. -/
theorem fails_ofText (file : String) (root : Path) (text : List Char) : Fails IsOfText (ofText file root text) := by
  unfold ofText
  split
  · exact fails_ok _
  · split
    · exact fails_error (isOfText_failure _)
    · unfold ofDocument
      split
      · exact fails_ok _
      · split
        · exact fails_error (isOfText_failure _)
        · exact fails_ok _
        · exact fails_ofSection _ _
        · exact fails_error (.inl rfl)

/-! ## Loading -/

variable {h next : Host} {f : Failure}

/-- What ends the loading of settings without being told as a fault of them. -/
inductive Untold (h : Host) (root : Path) : Failure → Prop where
  /-- Links keep their file from being looked for, or a name on the way is too long. -/
  | unplaced {f : Failure} (fails : (filePath root).on h = (.error f, h)) : Untold h root f
  | unhoused {f : Failure} {file : Path} (at_ : (filePath root).on h = (.ok file, h))
      (fails : (resolve file.parent).on h = (.error f, h)) : Untold h root f
  | unseen {f : Failure} {file base : Path} (at_ : (filePath root).on h = (.ok file, h))
      (above : (resolve file.parent).on h = (.ok base, h)) (fails : (pathExists file).on h = (.error f, h)) :
      Untold h root f
  /-- A value in them stands for nothing. -/
  | unvalued {f : Failure} {file base : Path} {text : List Char} (at_ : (filePath root).on h = (.ok file, h))
      (above : (resolve file.parent).on h = (.ok base, h)) (reads : (readText file).on h = (.ok text, h))
      (fails : ofText file.name base text = .error f) (value : isOfValue f = true) : Untold h root f

/-- A file that exists is read, or is told to be unreadable. -/
theorem readText_cases {file : Path} (hexists : (pathExists file).on h = (.ok true, h)) :
    (∃ text, (readText file).on h = (.ok text, h)) ∨
      ∃ fault, (readText file).on h = (.error (.settings fault), h) := by
  obtain ⟨hnul, place, node, hfound, _⟩ := found_of_probe hexists
  rw [readText, on_bind_of_ok (on_attempt _ h), Generation.on_readBytes hnul, hfound]
  cases node with
  | file bytes =>
    dsimp only
    cases Utf8.decode bytes with
    | error fault => exact .inr ⟨_, rfl⟩
    | ok text => exact .inl ⟨_, rfl⟩
  | directory locked => exact .inr ⟨_, rfl⟩
  | link target => exact .inr ⟨_, rfl⟩
  | socket => exact .inr ⟨_, rfl⟩

theorem failsBy_filePath (p : Path) : FailsBy Failure.OfLookup (filePath p) := by
  refine (failsBy_expandHome p).bind fun p => (failsBy_probe _ _ p).bind fun directory => ?_
  split
  · exact failsBy_resolve _
  · split
    · exact failsBy_resolve _
    · exact failsBy_resolve _

/-- Settings are loaded, or they are told to be at fault, or else something untold ends the loading. -/
theorem load_cases (h : Host) (root : Path) : (∃ s, (load root).on h = (.ok s, h)) ∨
    (∃ fault, (load root).on h = (.error (.settings fault), h)) ∨
      ∃ f, (load root).on h = (.error f, h) ∧ Untold h root f := by
  rcases hload : (load root).on h with ⟨r, next⟩
  have hsame := asks_load root h
  rw [hload] at hsame
  obtain rfl : next = h := hsame
  cases r with
  | ok s => exact .inl ⟨s, rfl⟩
  | error f =>
    rcases (asks_filePath root).bind_eq_error hload with ⟨hfails, _⟩ | ⟨file, hfile, hload⟩
    · exact .inr (.inr ⟨f, rfl, .unplaced hfails⟩)
    rcases (asks_resolve _).bind_eq_error hload with ⟨hfails, _⟩ | ⟨base, hbase, hload⟩
    · exact .inr (.inr ⟨f, rfl, .unhoused hfile hfails⟩)
    rcases (asks_probe _ _ file).bind_eq_error hload with ⟨hfails, _⟩ | ⟨found, hfound, hload⟩
    · exact .inr (.inr ⟨f, rfl, .unseen hfile hbase hfails⟩)
    cases found with
    | false => cases hload
    | true =>
      rcases readText_cases hfound with ⟨text, htext⟩ | ⟨fault, htext⟩
      · have hgiven : ofText file.name base text = .error f := by
          have hrest := hload
          change (readText file >>= _).on next = _ at hrest
          rw [on_bind_of_ok htext] at hrest
          exact congrArg Prod.fst hrest
        rcases fails_ofText _ _ _ _ hgiven with hsettings | hvalue
        · cases f <;> first | exact .inr (.inl ⟨_, rfl⟩) | cases hsettings
        · exact .inr (.inr ⟨f, rfl, .unvalued hfile hbase htext hgiven hvalue⟩)
      · change (readText file >>= _).on next = _ at hload
        rw [on_bind, htext] at hload
        cases hload
        exact .inr (.inl ⟨fault, rfl⟩)

namespace Untold

variable {root : Path}

/-- None of them is the failure to find something or a fault of the settings. -/
theorem kind (hu : Untold h root f) : f.OfLookup ∨ isOfValue f = true := by
  cases hu with
  | unplaced fails => exact .inl (failsBy_filePath _ _ _ _ fails)
  | unhoused _ fails => exact .inl (failsBy_resolve _ _ _ _ fails)
  | unseen _ _ fails => exact .inl (failsBy_probe _ _ _ _ _ _ fails)
  | unvalued _ _ _ _ value => exact .inr value

theorem on_load (hu : Untold h root f) : (load root).on h = (.error f, h) := by
  unfold load
  cases hu with
  | unplaced fails => rw [on_bind, fails]
  | unhoused at_ fails => rw [on_bind_of_ok at_, on_bind, fails]
  | unseen at_ above fails => rw [on_bind_of_ok at_, on_bind_of_ok above, on_bind, fails]
  | @unvalued file base text at_ above reads fails value =>
    have hexists : (pathExists file).on h = (.ok true, h) := by
      rcases attempt_bind_eq_ok reads with ⟨bytes, middle, hbytes, _⟩ | ⟨e, middle, _, hrest⟩
      · obtain ⟨hnul, place, hfound⟩ := Generation.found_of_readBytes hbytes
        exact on_probe_of_found hnul hfound _
      · dsimp only at hrest
        split at hrest <;> cases hrest
    rw [on_bind_of_ok at_, on_bind_of_ok above, on_bind_of_ok hexists]
    show (readText file >>= _).on h = _
    rw [on_bind_of_ok reads, fails]
    rfl

end Untold
end ClassAtlas.Settings
