import ClassAtlas.Files.Path
import ClassAtlas.Text.Lowercase
/-!
# Source dialects

The dialect of a source file is told from the suffix of its name.
-/
namespace ClassAtlas

inductive Dialect where
  | javascript
  | typescript
  | tsx
deriving DecidableEq, Repr

namespace Dialect

def name : Dialect → String
  | javascript => "javascript"
  | typescript => "typescript"
  | tsx => "tsx"

/-- The suffixes of source files with their dialects. -/
def bySuffix : List (String × Dialect) :=
  [(".js", javascript), (".jsx", javascript), (".mjs", javascript), (".ts", typescript),
    (".tsx", tsx)]

/-- The dialect of a file; the case of its suffix does not matter. -/
def ofPath? (p : Path) : Option Dialect :=
  bySuffix.lookup (String.ofList (Text.lower p.suffix.toList))

/-- Whether files with this very suffix are looked for in a project. -/
def isSourceSuffix (suffix : String) : Bool := (bySuffix.lookup suffix).isSome

/-- Whether the dialect has types. -/
def isTyped : Dialect → Bool
  | javascript => false
  | _ => true

/-- Whether the dialect has markup elements. -/
def hasMarkup : Dialect → Bool
  | typescript => false
  | _ => true

end Dialect
end ClassAtlas
