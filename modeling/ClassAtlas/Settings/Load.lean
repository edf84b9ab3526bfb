import ClassAtlas.Host.Files
import ClassAtlas.Settings.Basic
import ClassAtlas.Yaml.Value
/-!
# Reading the settings of a project

Settings stand in a file of a fixed name in the root of a project. A setting of another kind than
expected counts as not given. Without the file all settings are the defaults.
-/
namespace ClassAtlas.Settings

open ClassAtlas.Action Yaml

/-- The failure for a fault of the text. A malformed text is named as such; faults of single
scalars stand for themselves. -/
def failure (file : String) : Yaml.Fault → Failure
  | .malformed what => .settings (.malformed file what.message)
  | .tooDeep => .tooDeep ""
  | .noCharacter false => .value .noCharacter
  | .noCharacter true => .scalar .wideCharacter
  | .notTruth text => .scalar (.notTruth text)
  | .emptyNumber => .scalar .emptyNumber
  | .notTime => .scalar .notTime
  | .numeral fault => .value (.numeral fault)
  | .time fault => .value (.date fault)
  | .numberTooLarge => .numberTooLarge

/-- A text or number as text. -/
def text? : Value → Except Failure (Option String)
  | .text s => .ok (some s)
  | .whole n =>
    match Numeral.writeWhole n with
    | .ok s => .ok (some s)
    | .error fault => .error (.value (.numeral fault))
  | .real x => .ok (some x.render)
  | _ => .ok none

/-- An item of a list as text: texts, numbers and truth values count. -/
def itemText? : Value → Except Failure (Option String)
  | .truth b => .ok (some (if b then "True" else "False"))
  | v => text? v

/-- The items that are there after trimming. -/
def patternsOf (items : List (Option String)) : List String :=
  (items.filterMap fun s => s.map Text.strip).filter (· != "")

/-- The patterns of a setting: a text with commas, or a list. `value` gives the values of items. -/
def patterns (value : Yaml.Node → Reading Value) (file : String) : Value → Except Failure (List String)
  | .text s => .ok (Text.commaParts s)
  | .bytes bs => .ok (bs.map fun b => Nat.repr b.toNat)
  | .items nodes => do
    let items ← nodes.mapM fun n =>
      match value n with
      | .ok v => itemText? v
      | .error fault => .error (failure file fault)
    return patternsOf items
  | _ => .ok []

def truthWords : List (String × Bool) :=
  [("true", true), ("yes", true), ("1", true), ("false", false), ("no", false), ("0", false)]

/-- A truth value, also as one of the words for it. -/
def truth? : Value → Option Bool
  | .truth b => some b
  | .text s => truthWords.lookup (String.ofList (Text.lower (Text.trim s.toList)))
  | _ => none

/-- A positive number is a limit; any other number is none. -/
def limitOf (x : Binary64) : Option Seconds := if x.isPositive then some (.real x) else none

/-- A time limit, the default for what is no number. -/
def limit : Value → Except Failure (Option Seconds)
  | .whole n =>
    if n ≤ 0 then .ok none
    else
      match Numeral.realOfWhole? n with
      | some x => .ok (some (.real x))
      | none => .error .numberTooLarge
  | .real x => .ok (limitOf x)
  | .text s =>
    match Numeral.real s.toList with
    | .ok x => .ok (limitOf x)
    | .error _ => .ok defaultLimit
  | _ => .ok defaultLimit

/-- A mapping of settings with the document that it stands in. -/
structure Section where
  document : Document
  file : String
  pairs : List (Yaml.Node × Yaml.Node)

namespace Section

/-- The value of a setting, if the setting is there. -/
def value? (s : Section) (name : String) : Except Failure (Option Value) :=
  match s.document.find? name s.pairs with
  | none => .ok none
  | some n =>
    match s.document.value n with
    | .ok v => .ok (some v)
    | .error fault => .error (failure s.file fault)

/-- The value of a setting; one that is not there has the value of nothing. -/
def value (s : Section) (name : String) : Except Failure Value := do
  return (← s.value? name).getD .null

/-- The mapping under a name, empty when there is none. -/
def inner (s : Section) (name : String) : Except Failure Section := do
  match ← s.value name with
  | .entries pairs => return { s with pairs }
  | _ => return { s with pairs := [] }

def text (s : Section) (name : String) : Except Failure (Option String) := do
  text? (← s.value name)

def patternList (s : Section) (name : String) (fallback : List String) :
    Except Failure (List String) := do
  match ← s.value? name with
  | some v => patterns s.document.value s.file v
  | none => return fallback

end Section

/-- The settings that a mapping gives. -/
def ofSection (root : Path) (s : Section) : Except Failure Settings := do
  let included ← s.patternList "include" defaultIncluded
  let excluded ← s.patternList "exclude" defaultExcluded
  let output ← s.text "output"
  let about ← s.inner "project"
  let name ← about.text "name"
  let description ← about.text "description"
  let language ← about.text "language"
  let history ← s.inner "git"
  let enabled := truth? (← history.value "enabled")
  let limit ← limit (← history.value "timeout")
  return {
    root, included, excluded
    output := (output.filter (· != "")).map fun o => root.join (Path.ofString o)
    project := ⟨name, description, language⟩
    history := ⟨enabled.getD true, limit⟩ }

/-- The settings that a document gives; an empty document gives the defaults. -/
def ofDocument (file : String) (root : Path) : Option Document → Except Failure Settings
  | none => .ok (default root)
  | some d =>
    match d.value d.root with
    | .error fault => .error (failure file fault)
    | .ok .null => .ok (default root)
    | .ok (.entries pairs) => ofSection root ⟨d, file, pairs⟩
    | .ok _ => .error (.settings .notMapping)

/-- The settings that a text gives. -/
def ofText (file : String) (root : Path) (text : List Char) : Except Failure Settings :=
  if (Text.trim text).isEmpty then .ok (default root)
  else
    match Document.read text with
    | .error fault => .error (failure file fault)
    | .ok document => ofDocument file root document

/-- Where the settings stand for a path: in a directory itself, else beside the file of that path. -/
def filePath (p : Path) : Action Path := do
  let p ← expandHome p
  if ← isDirectory p then resolve (p.child settingsFile)
  else if p.name != settingsFile then resolve (p.parent.child settingsFile)
  else resolve p

/-- The text of a settings file. -/
def readText (file : Path) : Action (List Char) := do
  match ← attempt (readBytes file) with
  | .error f =>
    if f.isFileTrouble then throw (.settings (.unreadable file.name f.message)) else throw f
  | .ok bytes =>
    match Utf8.decode bytes with
    | .error fault => throw (.settings (.unreadable file.name fault.message))
    | .ok text => return Text.unifyLineEnds text

/-- The settings for a path. -/
def load (p : Path) : Action Settings := do
  let file ← filePath p
  let root ← resolve file.parent
  if !(← pathExists file) then return default root
  ExceptT.mk (pure (ofText file.name root (← readText file)))

end ClassAtlas.Settings
