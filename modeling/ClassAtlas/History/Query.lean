import ClassAtlas.Atlas.Record
import ClassAtlas.Host.Files
import ClassAtlas.Text.Split
/-!
# The history of a file

Version control is asked for the list of commits of a file and for its last commit. When it cannot
answer, or its answer cannot be read, the file counts as not tracked.
-/
namespace ClassAtlas.History

open Text ClassAtlas.Action

/-- How the last commit is asked for: hash, author, address, date and subject with a separator
between them. -/
def commitFormat : String := "%H%x1f%an%x1f%ae%x1f%aI%x1f%s"
def separator : Char := Char.ofNat 0x1F

inductive Fault where
  | fewFields (line : String)
  | date (fault : Iso.Fault)
  /-- In universal time the date lies outside years 1 to 9999. -/
  | range
deriving DecidableEq, Repr

/-- Whole days from one instant to another, in microseconds. The seconds between them are rounded
to a floating point number first. -/
def daysBetween (earlier later : Int) : Int :=
  let micros := later - earlier
  (Binary64.ofRatio (micros < 0) micros.natAbs Moment.second).floorDiv 86400

/-- Reads the answer for the last commit; an empty answer is no commit. -/
def readCommit (now : Moment) (answer : String) : Except Fault (Option Commit) :=
  let line := trim answer.toList
  if line.isEmpty then .ok none
  else
    match (splitOn separator line).map String.ofList with
    | hash :: author :: email :: date :: message :: _ =>
      match Iso.read date with
      | .error fault => .error (.date fault)
      | .ok moment =>
        match moment.stamp? with
        | none => .error .range
        | some stamp =>
          .ok (some
            { hash := String.ofList (hash.toList.take 7), author, email, date := stamp, message,
              daysAgo := daysBetween moment.instant now.instant })
    | _ => .error (.fewFields (String.ofList line))

/-- The number of lines with something on them. -/
def countCommits (answer : String) : Nat :=
  ((lines answer.toList).filter fun l => !(trim l).isEmpty).length

def listCommand (root file : String) (limit : Option Seconds) : Command :=
  ⟨["git", "-C", root, "log", "--oneline", "--", file], limit⟩

def lastCommand (root file : String) (limit : Option Seconds) : Command :=
  ⟨["git", "-C", root, "log", "-1", "--format=" ++ commitFormat, "--", file], limit⟩

/-- What keeps the history of a file from being known, in words. -/
def notKnown (file : Path) (cause : String) : Action FileHistory := do
  debug "git" ("No git history for " ++ file.toString ++ ": " ++ cause)
  pure .empty

/-- Puts a command to version control and notes it. -/
def ask (c : Command) (answer : VersionControl → Except CommandFault String) :
    Action (Except CommandFault String) := do
  modify fun h => { h with commands := h.commands ++ [c] }
  return answer (← get).git

/-- The history of a file of the project at `root`, each command with a time limit. -/
def query (limit : Option Seconds) (file root : Path) : Action FileHistory := do
  match file.relativeTo? root with
  | none => notKnown file (Failure.message (.notWithin file.toString root.bare))
  | some relative =>
    let name := relative.toString
    let listing := listCommand root.toString name limit
    match ← ask listing (·.commits name) with
    | .error fault => refuse listing fault
    | .ok commits =>
      let last := lastCommand root.toString name limit
      match ← ask last (·.lastCommit name) with
      | .error fault => refuse last fault
      | .ok answer =>
        match readCommit (← get).now answer with
        | .ok none => pure .empty
        | .ok (some commit) => pure ⟨countCommits commits, some commit⟩
        | .error .range => throw .dateRange
        | .error (.date fault) => notKnown file fault.message
        | .error (.fewFields line) => notKnown file ("Unexpected git log output: " ++ quoted line)
where
  refuse (c : Command) (fault : CommandFault) : Action FileHistory :=
    if fault.isTolerated then notKnown file (fault.message c) else throw (.command c fault)

end ClassAtlas.History
