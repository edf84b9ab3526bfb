import ClassAtlas.Atlas.Assembly
import ClassAtlas.Atlas.Wire
import ClassAtlas.Host.Files
import ClassAtlas.Json.Printer
/-!
# The atlas document

A snapshot is written as one document. The text goes to a file beside the target first and then
takes its place in one step.
-/
namespace ClassAtlas.Snapshot

open ClassAtlas.Action

def formatVersion : String := "6.0"

/-- Puts a snapshot together as of a moment. -/
def build (project : Project) (g : Gathering) (at_ : Moment) : Action Snapshot :=
  match at_.stamp? with
  | some generated =>
    pure { version := formatVersion, generated, project, packages := g.packages, classes := g.classes }
  | none => throw .dateRange

/-- The text of the document. -/
def text (s : Snapshot) : List Char := Json.render s.toJson

/-- The file that the text goes to first. -/
def temporaryPath? (target : Path) : Option Path := target.withName? ("." ++ target.name ++ ".tmp")

/-- Writes the document and gives the path of it. A document with a number that is too long to be
written changes nothing. -/
def write (s : Snapshot) (target : Path) : Action Path := do
  if s.toJson.hasLongNumber then throw (.value (.numeral .manyDigitsWritten))
  ensureDirectories target.parent
  match temporaryPath? target with
  | none => throw (.noName target.toString)
  | some temporary =>
    let move : Action Unit := do
      writeBytes temporary (Utf8.encode s.text)
      replaceFile temporary target
    match ← attempt move with
    | .ok _ => pure target
    | .error f =>
      if f.isFileTrouble then removeFile temporary
      throw f

end ClassAtlas.Snapshot
