import ClassAtlas.Atlas.Record
import ClassAtlas.Host.Files
import ClassAtlas.Json.Reader
import ClassAtlas.Settings.Basic
import ClassAtlas.Text.Split
/-!
# Facts about a project

Name and description come from the settings, else from the manifest beside the sources, else they
are given. A manifest that cannot be read counts as empty.
-/
namespace ClassAtlas

namespace Manifest

open ClassAtlas.Action

def fileName : String := "package.json"

/-- How deep the values of a manifest may be nested. -/
def maxDepth : Nat := 980

/-- The place of a fault in a text, by line and column and by characters. -/
def faultPlace (text : List Char) (left : Nat) : String :=
  let seen := text.take (text.length - left)
  let line := (seen.filter (· == '\n')).length + 1
  let column := (seen.reverse.takeWhile (· != '\n')).length + 1
  ": line " ++ Nat.repr line ++ " column " ++ Nat.repr column ++ " (char " ++ Nat.repr seen.length ++ ")"

/-- Notes that the manifest was passed over. -/
def passOver (file : Path) (cause : String) : Action (List (String × Json)) := do
  debug "analyzers" ("Could not read " ++ file.toString ++ ": " ++ cause)
  pure []

/-- The members of the manifest in a directory. -/
def read (root : Path) : Action (List (String × Json)) := do
  let file := root.child fileName
  if !(← pathExists file) then return []
  match ← attempt (readBytes file) with
  | .error f => if f.isFileTrouble then passOver file f.message else throw f
  | .ok bytes =>
    match Utf8.decode bytes with
    | .error fault => passOver file fault.message
    | .ok chars =>
      let text := Text.unifyLineEnds chars
      match Json.readDeep maxDepth text with
      | .error (.malformed fault left) => passOver file (fault.message ++ faultPlace text left)
      | .error (.tooDeep inArray) =>
        throw (.tooDeep (" while decoding a JSON " ++ (if inArray then "array" else "object") ++
          " from a unicode string"))
      | .error (.tooManyDigits count) => throw (.value (.numeral (.manyDigitsRead count)))
      | .ok (.obj members) => pure members
      | .ok _ => pure []

end Manifest

namespace Project

/-- The first of two texts that is there and not empty. -/
def prefer (first : Option String) (second : String) : String :=
  match first with
  | some s => if s = "" then second else s
  | none => second

def manifestText (members : List (String × Json)) (name : String) : Option String :=
  (members.lookup name).bind Json.str?

/-- The facts from a manifest and the settings. -/
def ofManifest (members : List (String × Json)) (given : String) (wanted : ProjectOverrides) : Project where
  name := prefer wanted.name (prefer (manifestText members "name") given)
  description :=
    prefer wanted.description (prefer (manifestText members "description") "Codebase visualization")
  language := prefer wanted.language "JavaScript"

def load (root : Path) (given : String) (wanted : ProjectOverrides) : Action Project := do
  return ofManifest (← Manifest.read root) given wanted

end Project
end ClassAtlas
