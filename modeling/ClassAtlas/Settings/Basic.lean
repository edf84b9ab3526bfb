import ClassAtlas.Files.Path
import ClassAtlas.History.Command
/-!
# Settings of a project
-/
namespace ClassAtlas

/-- Facts about the project that its settings put in place of others. -/
structure ProjectOverrides where
  name : Option String
  description : Option String
  language : Option String
deriving DecidableEq, Repr

def ProjectOverrides.none : ProjectOverrides := ⟨.none, .none, .none⟩

/-- Whether and how version control is asked. -/
structure HistorySettings where
  enabled : Bool
  limit : Option Seconds
deriving DecidableEq, Repr

structure Settings where
  root : Path
  included : List String
  excluded : List String
  output : Option Path
  project : ProjectOverrides
  history : HistorySettings
deriving DecidableEq, Repr

namespace Settings

def defaultIncluded : List String :=
  ["src", "lib", "components", "pages", "utils", "hooks", "services"]

def defaultExcluded : List String :=
  ["node_modules", "dist", "build", ".git", "coverage", "test", "__tests__"]

def defaultLimit : Option Seconds := some (.real (Binary64.ofInt 30))

/-- The settings of a project that says nothing. -/
def default (root : Path) : Settings :=
  { root, included := defaultIncluded, excluded := defaultExcluded, output := none,
    project := .none, history := ⟨true, defaultLimit⟩ }

end Settings
end ClassAtlas
