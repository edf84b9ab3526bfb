import ClassAtlas.Analysis.Discovery
import ClassAtlas.Analysis.File
import ClassAtlas.Atlas.Document
import ClassAtlas.Project.Facts
import ClassAtlas.Settings.Load
/-!
# Generating an atlas

The source files of a project are found and analysed one after the other, and their records are put
together as a snapshot. A file that cannot be read, or is no text, is passed over with a warning;
any other failure ends the work. Written out, the snapshot goes to the place that the request names,
else to the one in the settings, else to the current directory.
-/
namespace ClassAtlas

open ClassAtlas.Action

/-- What is asked for. Patterns given here count instead of those in the settings. -/
structure Request where
  path : String
  included : Option (List String)
  excluded : Option (List String)
  projectName : Option String
deriving DecidableEq, Repr

/-- A snapshot, and the files that are in it and those that were passed over. -/
structure Generation where
  snapshot : Snapshot
  analyzed : List String
  skipped : List String
deriving Repr

/-- A snapshot that was written. -/
structure Written where
  snapshot : Snapshot
  output : Path
  skipped : List String
deriving Repr

namespace Generation

def orchestrator : String := "orchestrator"

/-- Failures that concern one file only. -/
def isPassedOver : Failure → Bool
  | .undecodable .. => true
  | f => f.isFileTrouble

/-- The results of the files so far, in order. -/
structure Progress where
  ids : Ids
  records : List ClassRecord
  analyzed : List String
  skipped : List String

namespace Progress

def start (ids : Ids) : Progress := ⟨ids, [], [], []⟩

def add (p : Progress) (ids : Ids) (r : ClassRecord) (file : String) : Progress :=
  ⟨ids, p.records ++ [r], p.analyzed ++ [file], p.skipped⟩

def passOver (p : Progress) (ids : Ids) (file : String) : Progress :=
  { p with ids, skipped := p.skipped ++ [file] }

end Progress

/-- Notes that a file is passed over. -/
def passOver (p : Progress) (ids : Ids) (file : String) (f : Failure) : Action Progress := do
  if !isPassedOver f then throw f
  warn orchestrator ("Error analyzing " ++ file ++ ": " ++ f.message)
  pure (p.passOver ids file)

/-- Analyses one file. A file that was read takes an identifier, even if it is passed over then. -/
def analyzeNext (history : Path → Path → Action FileHistory) (root : Path) (p : Progress)
    (path : Path) : Action (Bool × Progress) := do
  let file := ((path.relativeTo? root).getD path).toString
  match ← attempt (SourceFile.read path root) with
  | .error f => return (false, ← passOver p p.ids file f)
  | .ok source =>
    let (id, ids) := p.ids.fresh "component"
    match ← attempt (source.record id history root) with
    | .error f => return (false, ← passOver p ids file f)
    | .ok r => return (true, p.add ids r file)

/-- Analyses the files; `index` of `total` are done. -/
def analyzeAll (history : Path → Path → Action FileHistory) (root : Path) (total : Nat) :
    Nat → Progress → List Path → Action Progress
  | _, p, [] => pure p
  | index, p, path :: paths => do
    let (done, p) ← analyzeNext history root p path
    if done && (index + 1) % 10 == 0 then
      debug orchestrator ("Analyzed " ++ Nat.repr (index + 1) ++ "/" ++ Nat.repr total ++ " files")
    analyzeAll history root total (index + 1) p paths

/-- Notes the stubs that records call for. -/
def noteStubs (names : List String) : Action Unit := do
  if names.isEmpty then return
  info "aggregator" ("Creating " ++ Nat.repr names.length ++ " stub classes for external dependencies")
  names.forM fun n => debug "aggregator" ("Created stub for " ++ n)

/-- The root of a project, which has to exist. -/
def rootOf (path : Path) : Action Path := do
  let root ← resolve (← expandHome path)
  if !(← pathExists root) then throw (.missingRoot root.toString)
  pure root

def shownPatterns (patterns : List String) (none : String) : String :=
  let text := ", ".intercalate patterns
  if text = "" then none else text

/-- A name that is given and not empty, else that of the root. -/
def nameOf (given : Option String) (root : Path) : String := Project.prefer given root.name

/-- Generates the snapshot of the project at a root. -/
def ofSettings (ids : Ids) (root : Path) (q : Request) (s : Settings) : Action Generation := do
  let included := q.included.getD s.included
  let excluded := q.excluded.getD s.excluded
  info orchestrator ("Analyzing project: " ++ root.toString)
  info orchestrator ("Include patterns: " ++ shownPatterns included "(all)")
  info orchestrator ("Exclude patterns: " ++ shownPatterns excluded "(none)")
  let files ← Discovery.sourceFiles root.toString included excluded
  info orchestrator ("Found " ++ Nat.repr files.length ++ " source files")
  let done ← analyzeAll (History.source s.history) root files.length 0 (.start ids) files
  noteStubs (Assembly.undefinedNames done.records)
  let (gathering, _) := Assembly.gather (.start done.ids) done.records
  let project ← Project.load root (nameOf q.projectName root) s.project
  let snapshot ← Snapshot.build project gathering (← get).now
  return ⟨snapshot, done.analyzed, done.skipped⟩

/-- Generates the snapshot that a request asks for. -/
def generate (ids : Ids) (q : Request) : Action Generation := do
  let root ← rootOf (Path.ofString q.path)
  let settings ← Settings.load root
  ofSettings ids root q settings

/-- The file that a snapshot is written to. -/
def outputPath (root : Path) (q : Request) (output : Option String) (s : Settings) : Action Path := do
  match output, s.output with
  | some text, _ => expandHome (Path.ofString text)
  | none, some path => pure path
  | none, none => return (← cwd).join (Path.ofString (nameOf q.projectName root ++ "-uml.json"))

/-- Generates a snapshot and writes it. -/
def run (ids : Ids) (q : Request) (output : Option String) : Action Written := do
  let root ← rootOf (Path.ofString q.path)
  let settings ← Settings.load root
  let g ← ofSettings ids root q settings
  let written ← g.snapshot.write (← outputPath root q output settings)
  info orchestrator ("Output file: " ++ written.toString)
  return ⟨g.snapshot, written, g.skipped⟩

end Generation
end ClassAtlas
