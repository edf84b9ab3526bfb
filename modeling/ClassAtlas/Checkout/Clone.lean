import ClassAtlas.Checkout.Reference
import ClassAtlas.Host.Files
/-!
# Copies of remote repositories

A remote repository is copied into a directory of its own, which is made for it and removed after
use. Nothing outside the directory for such copies is removed.
-/
namespace ClassAtlas.Checkout

open ClassAtlas.Action

def directoryName : String := ".umlgen-temp"

/-- Removes a copy. A path without the directory for copies is left alone, and one that is not there
needs no removal; what cannot be removed is left with a warning. -/
def cleanup (p : Path) : Action Unit := do
  if !p.parts.contains directoryName then return
  match ← attempt (removeTree p) with
  | .ok _ => debug "git" ("Cleaned up temp directory " ++ p.toString)
  | .error (.file (.system .noEntry _)) => pure ()
  | .error f =>
    if f.isFileTrouble then
      warn "git" ("Could not clean up temp directory " ++ p.toString ++ ": " ++ f.message)
    else throw f

/-- Reads the clock in nanoseconds. -/
def readNanos : Action Nat := do
  let h ← get
  set { h with nanos := h.nanos + 1 }
  pure h.nanos

def command (url : String) (target : Path) : Command :=
  ⟨["git", "clone", "--depth", "1", url, target.toString], none⟩

/-- Puts the files of a copy below its directory. -/
def plantCopy (target : Path) (entries : List (List String × Node)) : Action Unit := do
  match ← lookup target true with
  | .error _ => pure ()
  | .ok (place, _) =>
    modify fun h =>
      { h with files := entries.foldl (fun t (names, node) => t.plant (place ++ names) node) h.files }

/-- Copies a remote repository and gives the directory of the copy. A copy that could not be made is
removed again when the fault lies in running the command. -/
def clone (url : String) (workspace : Option Path) : Action Path := do
  let base ← match workspace with
    | some p => pure p
    | none => cwd
  let target := (base.child directoryName).child ("repo-" ++ Nat.repr (← readNanos))
  ensureDirectories target
  info "git" ("Cloning repository: " ++ url)
  let c := command url target
  modify fun h => { h with commands := h.commands ++ [c] }
  match (← get).git.copy with
  | .ok entries =>
    plantCopy target entries
    info "git" ("Cloned to: " ++ target.toString)
    pure target
  | .error fault =>
    if fault.isRunFault then
      cleanup target
      throw (.cloneFailed url (fault.message c))
    else throw (.command c fault)

end ClassAtlas.Checkout
