import ClassAtlas.Host.Files
/-!
# Setting up the log

Setting up replaces all sinks by a console, and by a file if one is asked for. A file that cannot be
opened leaves the console alone.
-/
namespace ClassAtlas.Logging

open ClassAtlas.Action

/-- The level from which records are taken. -/
def levelOf (verbose : Bool) : Int := if verbose then LogRecord.debug else LogRecord.info

/-- Only a console. -/
def console (verbose : Bool) : Logging := ⟨levelOf verbose, false, [.console (levelOf verbose)]⟩

/-- Opens a log file, with the directories that lead to it, and gives its place. -/
def openFile (p : Path) : Action Location := do
  let p ← expandHome p
  ensureDirectories p.parent
  openPlace (((← cwd).join p).withoutDots)

def configure (verbose : Bool) (file : Option Path) : Action Unit := do
  modify fun h => { h with logging := console verbose }
  match file with
  | none => pure ()
  | some p =>
    let place ← openFile p
    modify fun h =>
      { h with
        logging := { h.logging with sinks := h.logging.sinks ++ [.file (levelOf verbose) (some place)] } }

end ClassAtlas.Logging
