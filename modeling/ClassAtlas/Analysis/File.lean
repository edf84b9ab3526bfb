import ClassAtlas.Atlas.Ids
import ClassAtlas.History.Query
import ClassAtlas.Imports
import ClassAtlas.Outline.Choice
import ClassAtlas.Settings.Basic
/-!
# Analysing one source file
-/
namespace ClassAtlas

/-- A source file of a project, with its place in the project. -/
structure SourceFile where
  path : Path
  relative : String
  text : List Char

namespace SourceFile

open ClassAtlas.Action

def baseName (f : SourceFile) : String := f.path.stem

/-- Reads a file as text. -/
def read (path root : Path) : Action SourceFile := do
  let bytes ← readBytes path
  match Utf8.decode bytes with
  | .error fault => throw (.undecodable path.toString fault.reason)
  | .ok text =>
    match path.relativeTo? root with
    | none => throw (.notWithin path.toString root.bare)
    | some relative => pure ⟨path, relative.toString, text⟩

/-- The package of a file is the directory that holds it. -/
def package (f : SourceFile) : String :=
  let directory := Text.dropEndWhile (· != '/') f.relative.toList
  let trimmed := Text.dropEndWhile (· == '/') directory
  if directory.isEmpty then "root"
  else String.ofList (if trimmed.isEmpty then directory else trimmed)

/-- Whether a test stands beside the file. -/
def hasTest (f : SourceFile) : Action Bool :=
  match f.path.siblingTest? with
  | some test => isFile test
  | none => throw (.noName f.path.toString)

/-- The record of a file; its identifier is drawn from `ids` once the file is read. -/
def record (f : SourceFile) (id : String) (history : Path → Path → Action FileHistory) (root : Path) :
    Action ClassRecord := do
  let outline := Outline.choose f.path f.text Outline.defaultChain
  let metrics := Metrics.ofText f.text outline.methods.length
  let known ← history f.path root
  let tested ← f.hasTest
  pure
    { id
      name := if outline.className = "" then f.baseName else outline.className
      package := f.package
      file := f.relative
      metrics
      parents := outline.parents.take 1
      interfaces := outline.interfaces
      methods := outline.methods
      dependencies := Imports.dependencies f.text
      reactLike := Scan.isReactLike f.text
      history := known
      hasTest := tested
      external := false }

end SourceFile

/-- How the history of files is found out. -/
def History.source (s : HistorySettings) : Path → Path → Action FileHistory :=
  if s.enabled then History.query s.limit else fun _ _ => pure .empty

end ClassAtlas
