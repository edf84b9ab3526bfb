import ClassAtlas.Files.Lookup
import ClassAtlas.Host.Failure
import ClassAtlas.Log.Basic
/-!
# The host of a run

What a run sees and changes: the file tree, the clock, the answers of version control, and what was
logged and printed. An action reads and changes the host and may fail; what it changed before it
failed stays changed.
-/
namespace ClassAtlas

/-- The answers of the version control program. -/
structure VersionControl where
  /-- The list of commits of a file, given by its place in the project. -/
  commits : String → Except CommandFault String
  /-- The last commit of a file. -/
  lastCommit : String → Except CommandFault String
  /-- What a copy of a remote repository holds. -/
  copy : Except CommandFault (List (List String × Node))

structure Host where
  files : FileTree
  cwd : Location
  home : String
  /-- The home directories of users known by name. -/
  users : List (String × String)
  now : Moment
  git : VersionControl
  commands : List Command
  logging : Logging
  journal : List LogRecord
  printed : String
  errors : String
  /-- Nanoseconds of the clock; reading it moves it on. -/
  nanos : Nat

abbrev Action := ExceptT Failure (StateM Host)

namespace Action

/-- Runs an action and gives its failure as a value. -/
def attempt {α : Type} (a : Action α) : Action (Except Failure α) :=
  ExceptT.mk do return .ok (← a.run)

/-- Runs `last` after `a`, whether `a` fails or not; a failure of `last` counts more. -/
def andFinally {α : Type} (a : Action α) (last : Action Unit) : Action α := do
  let r ← attempt a
  last
  match r with
  | .ok v => pure v
  | .error f => throw f

/-- A file fault of a path. -/
def failAt {α : Type} (p : Path) (errno : Errno) : Action α :=
  throw (.file (.system errno (.path p.toString)))

def ofErrno {α : Type} (p : Path) : Except Errno α → Action α
  | .ok v => pure v
  | .error errno => failAt p errno

def print (text : String) : Action Unit := modify fun h => { h with printed := h.printed ++ text }
def printError (text : String) : Action Unit := modify fun h => { h with errors := h.errors ++ text }

/-- Adds text to the end of the file at a place. -/
def appendTo (place : Location) (text : String) : Action Unit :=
  modify fun h =>
    match h.files.at? place with
    | some (.file bytes) => { h with files := h.files.put place (.file (bytes ++ Utf8.encode text.toList)) }
    | _ => h

/-- The clock as log files show it. -/
def clockStamp (m : Moment) : String :=
  match (Moment.stamp? m).map String.toList with
  | some cs => String.ofList (cs.take 10 ++ ' ' :: (cs.drop 11).take 8 ++ ',' :: (cs.drop 20).take 3)
  | none => ""

def deliver (r : LogRecord) : Sink → Action Unit
  | .console _ => printError ("[umlgen] " ++ LogRecord.levelName r.level ++ " " ++ r.message ++ "\n")
  | .file _ (some place) => do
    appendTo place (clockStamp (← get).now ++ " " ++ LogRecord.levelName r.level ++ " " ++ r.logger ++
      ": " ++ r.message ++ "\n")
  | .file _ none => pure ()

/-- Logs a record under a logger. Without any sink, warnings go to the error output. -/
def log (logger : Option String) (level : Int) (message : String) : Action Unit := do
  let r : LogRecord := ⟨level, LogRecord.loggerName logger, message⟩
  modify fun h => { h with journal := h.journal ++ [r] }
  let l := (← get).logging
  (l.sinksFor level).forM (deliver r)
  if l.sinks.isEmpty && l.propagate && level ≥ LogRecord.warning then printError (message ++ "\n")

def debug (logger message : String) : Action Unit := log (some logger) LogRecord.debug message
def info (logger message : String) : Action Unit := log (some logger) LogRecord.info message
def warn (logger message : String) : Action Unit := log (some logger) LogRecord.warning message

end Action
end ClassAtlas
