import ClassAtlas.Atlas.Record
import ClassAtlas.Files.Path
/-!
# The summary of a run

After a run the numbers of classes and packages are shown, and the most complex of the project's own
classes, the most complex first and equals in the order of the document.
-/
namespace ClassAtlas.Summary

/-- How many classes are shown at most. -/
def shownClasses : Nat := 5

/-- The project's own classes, the most complex first. -/
def ranking (classes : List ClassRecord) : List ClassRecord :=
  (classes.filter fun r => !r.external).mergeSort fun r s =>
    decide (s.metrics.cyclomatic ≤ r.metrics.cyclomatic)

/-- The most complex of the project's own classes. -/
def mostComplex (classes : List ClassRecord) : List ClassRecord :=
  (ranking classes).take shownClasses

def classLine (r : ClassRecord) : String :=
  "  " ++ r.name ++ ": complexity " ++ Int.repr r.metrics.cyclomatic ++ ", " ++
    Int.repr r.metrics.lines ++ " lines (" ++ r.metrics.level ++ ")"

/-- The path as seen from a directory, if it lies under it; `resolved` is the path without links. -/
def relativized (path resolved directory : Path) : String :=
  match resolved.relativeTo? directory with
  | some p => p.toString
  | none => path.toString

/-- The lines of the summary. -/
def lines (s : Snapshot) (skipped : Nat) (output : String) : List String :=
  let top := mostComplex s.classes
  ["UML generation complete", "Classes analyzed: " ++ Nat.repr s.classes.length,
    "Packages: " ++ Nat.repr s.packages.length] ++
    (if skipped = 0 then [] else ["Files skipped: " ++ Nat.repr skipped]) ++
    ["Output file: " ++ output] ++
    (if top.isEmpty then [] else "Most complex components:" :: top.map classLine)

end ClassAtlas.Summary
