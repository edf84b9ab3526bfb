import ClassAtlas.Proofs.Generation.Notes
import ClassAtlas.Proofs.Yaml.Values
import ClassAtlas.Settings.Load
/-!
# Layers of settings

A settings file may say something about each setting, or not. The settings that are loaded are what it
says, and the defaults for the rest.
-/
namespace ClassAtlas.Settings

open ClassAtlas.Action

/-- What a settings file says of the settings that a call can give too. -/
structure Layer where
  included : Option (List String)
  excluded : Option (List String)
  output : Option String
  projectName : Option String

def Layer.silent : Layer := ⟨none, none, none, none⟩

/-- A text that is there and not empty. -/
def nonEmpty (text : Option String) : Option String := text.filter (· != "")

theorem prefer_eq (first : Option String) (second : String) :
    Project.prefer first second = (nonEmpty first).getD second := by
  cases first with
  | none => rfl
  | some text => by_cases h : text = "" <;> simp [Project.prefer, nonEmpty, Option.filter, h]

namespace Section

/-- The patterns under a name, if that is there. -/
def patterns? (s : Section) (name : String) : Except Failure (Option (List String)) := do
  match ← s.value? name with
  | some v => return some (← patterns s.document.value s.file v)
  | none => return none

/-- What a mapping says. -/
def layer (s : Section) : Except Failure Layer := do
  let included ← s.patterns? "include"
  let excluded ← s.patterns? "exclude"
  let output ← s.text "output"
  let about ← s.inner "project"
  let projectName ← about.text "name"
  return ⟨included, excluded, output, projectName⟩

variable {s : Section} {name : String}

theorem patternList_eq (s : Section) (name : String) (fallback : List String) :
    s.patternList name fallback = (·.getD fallback) <$> s.patterns? name := by
  rw [patternList, patterns?]
  cases s.value? name with
  | error f => rfl
  | ok v =>
    cases v with
    | none => rfl
    | some v =>
      show patterns s.document.value s.file v = (·.getD fallback) <$> some <$> patterns s.document.value s.file v
      cases patterns s.document.value s.file v <;> rfl

end Section

/-- The settings are those of a layer over the defaults. -/
structure Follows (s : Settings) (l : Layer) : Prop where
  included : s.included = l.included.getD defaultIncluded
  excluded : s.excluded = l.excluded.getD defaultExcluded
  output : s.output = (nonEmpty l.output).map fun o => s.root.join (Path.ofString o)
  projectName : s.project.name = l.projectName

theorem follows_default (root : Path) : (default root).Follows .silent := ⟨rfl, rfl, rfl, rfl⟩

theorem follows_of_ofSection {root : Path} {sec : Section} {s : Settings} (h : ofSection root sec = .ok s) :
    s.root = root ∧ ∃ l, sec.layer = .ok l ∧ s.Follows l := by
  rw [ofSection, Section.patternList_eq, Section.patternList_eq] at h
  obtain ⟨_, hfirst, h⟩ := bind_eq_ok_iff.mp h
  obtain ⟨included, hincluded, rfl⟩ := map_eq_ok_iff.mp hfirst
  obtain ⟨_, hsecond, h⟩ := bind_eq_ok_iff.mp h
  obtain ⟨excluded, hexcluded, rfl⟩ := map_eq_ok_iff.mp hsecond
  obtain ⟨output, houtput, h⟩ := bind_eq_ok_iff.mp h
  obtain ⟨about, habout, h⟩ := bind_eq_ok_iff.mp h
  obtain ⟨name, hname, h⟩ := bind_eq_ok_iff.mp h
  obtain ⟨_, _, h⟩ := bind_eq_ok_iff.mp h
  obtain ⟨_, _, h⟩ := bind_eq_ok_iff.mp h
  obtain ⟨_, _, h⟩ := bind_eq_ok_iff.mp h
  obtain ⟨_, _, h⟩ := bind_eq_ok_iff.mp h
  obtain ⟨_, _, h⟩ := bind_eq_ok_iff.mp h
  obtain ⟨_, _, h⟩ := bind_eq_ok_iff.mp h
  cases h
  refine ⟨rfl, ⟨included, excluded, output, name⟩, ?_, ⟨rfl, rfl, rfl, rfl⟩⟩
  simp only [Section.layer, hincluded, hexcluded, houtput, habout, hname, bind, Except.bind]
  rfl

/-- The mapping in the text of a settings file. A text with nothing in it has none. -/
def mapping? (file : String) (text : List Char) : Except Failure (Option Section) :=
  if (Text.trim text).isEmpty then .ok none
  else
    match Yaml.Document.read text with
    | .error fault => .error (failure file fault)
    | .ok none => .ok none
    | .ok (some d) =>
      match d.value d.root with
      | .error fault => .error (failure file fault)
      | .ok .null => .ok none
      | .ok (.entries pairs) => .ok (some ⟨d, file, pairs⟩)
      | .ok _ => .error (.settings .notMapping)

theorem ofText_eq (file : String) (root : Path) (text : List Char) : ofText file root text =
    mapping? file text >>= fun
      | none => .ok (default root)
      | some sec => ofSection root sec := by
  unfold ofText mapping?
  split
  · rfl
  · cases Yaml.Document.read text with
    | error fault => rfl
    | ok d =>
      cases d with
      | none => rfl
      | some d =>
        simp only [ofDocument]
        cases d.value d.root with
        | error fault => rfl
        | ok v => cases v <;> rfl

/-- The layer that the settings file of a project makes. -/
inductive Says (h : Host) (root : Path) : Layer → Prop where
  | noFile {file : Path} (at_ : (filePath root).on h = (.ok file, h))
      (missing : (pathExists file).on h = (.ok false, h)) : Says h root .silent
  | nothing {file : Path} {text : List Char} (at_ : (filePath root).on h = (.ok file, h))
      (reads : (readText file).on h = (.ok text, h)) (none : mapping? file.name text = .ok none) :
      Says h root .silent
  | mapping {file : Path} {text : List Char} {sec : Section} {l : Layer}
      (at_ : (filePath root).on h = (.ok file, h)) (reads : (readText file).on h = (.ok text, h))
      (some : mapping? file.name text = .ok (some sec)) (layer : sec.layer = .ok l) : Says h root l

/-- The settings that are loaded, over the root that the settings file stands in. -/
theorem load_of_ok {h next : Host} {p : Path} {s : Settings} (hrun : (load p).on h = (.ok s, next)) :
    ∃ l file, Says h p l ∧ s.Follows l ∧ (filePath p).on h = (.ok file, h) ∧
      (resolve file.parent).on h = (.ok s.root, h) := by
  obtain ⟨file, hfile, hrun⟩ := (asks_filePath p).bind_eq_ok hrun
  obtain ⟨root, hroot, hrun⟩ := (asks_resolve _).bind_eq_ok hrun
  obtain ⟨found, hfound, hrun⟩ := (asks_probe _ _ file).bind_eq_ok hrun
  cases found with
  | false =>
    cases hrun
    exact ⟨.silent, file, .noFile hfile hfound, follows_default root, hfile, hroot⟩
  | true =>
    obtain ⟨text, htext, hrun⟩ := (asks_readText file).bind_eq_ok hrun
    have hgiven : ofText file.name root text = .ok s := congrArg Prod.fst hrun
    rw [ofText_eq] at hgiven
    obtain ⟨sec, hsec, hgiven⟩ := bind_eq_ok_iff.mp hgiven
    cases sec with
    | none =>
      cases hgiven
      exact ⟨.silent, file, .nothing hfile htext hsec, follows_default root, hfile, hroot⟩
    | some sec =>
      obtain ⟨rfl, l, hlayer, hfollows⟩ := follows_of_ofSection hgiven
      exact ⟨l, file, .mapping hfile htext hsec hlayer, hfollows, hfile, hroot⟩

end ClassAtlas.Settings
