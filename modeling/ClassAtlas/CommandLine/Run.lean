import ClassAtlas.Checkout.Clone
import ClassAtlas.CommandLine.Arguments
import ClassAtlas.CommandLine.Summary
import ClassAtlas.Generation
import ClassAtlas.Log.Setup
/-!
# Running the program

The arguments say what is to be done. A run ends by itself, with an exit status, or by asking for
the service to be started. Misuse exits with status 2 and a failed run with status 1. A copy of a
remote repository is removed whatever comes of the run.
-/
namespace ClassAtlas.CommandLine

open ClassAtlas.Action

inductive Outcome where
  | done
  | exit (status : Nat)
  | serve (title host : String) (port : Int)
deriving DecidableEq, Repr

/-- Ends the reading of arguments. -/
def Stop.report : Stop → Action Outcome
  | .help l => do
    print l.help
    return .exit 0
  | .misuse l m => do
    printError (l.usage ++ l.title ++ ": error: " ++ m.message ++ "\n")
    return .exit 2

/-- Reports a failure that ends a run with a message; others are passed on. -/
def reportFailure (f : Failure) : Action Unit :=
  if f.isProjectTrouble then printError ("Error: " ++ f.message ++ "\n")
  else if f.isRunTrouble then
    printError ("umlgen generate failed: " ++ f.message ++ "\nRun with --verbose for more details.\n")
  else throw f

/-- The result of an action, unless it failed and the failure was reported. -/
def reporting {α : Type} (a : Action α) : Action (Option α) := do
  match ← attempt a with
  | .ok v => return some v
  | .error f =>
    reportFailure f
    return none

/-- Generates the atlas of a local or a remote project. -/
def generate (path : String) (output : Option String) (included excluded : Option (List String)) :
    Action (Option Written) := do
  let run (place : String) (name : Option String) : Action Written :=
    Generation.run .sequential ⟨place, included, excluded, name⟩ output
  if Checkout.isRemote path then
    match ← attempt (Checkout.clone path none) with
    | .error f => andFinally (reporting (throw f)) (Checkout.cleanup (Path.ofString path))
    | .ok copy =>
      andFinally (reporting (run copy.toString (some (Checkout.projectName path))))
        (Checkout.cleanup copy)
  else reporting (run path none)

/-- Shows what a run has done. -/
def summarize (w : Written) : Action Unit := do
  let shown := Summary.relativized w.output (← resolve w.output) (← cwd)
  (Summary.lines w.snapshot w.skipped.length shown).forM fun l => print (l ++ "\n")

def serviceTitle : String := "umlgen"

/-- Does what the arguments ask for. -/
def run (args : List String) : Action Outcome := do
  match Invocation.ofArguments args with
  | .error stop => stop.report
  | .ok i =>
    Logging.configure i.verbose (i.logFile.map Path.ofString)
    match i.task with
    | .serve host port => return .serve serviceTitle host port
    | .generate path output included excluded =>
      match ← generate path output included excluded with
      | none => return .exit 1
      | some w =>
        summarize w
        return .done

end ClassAtlas.CommandLine
