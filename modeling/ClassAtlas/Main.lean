import ClassAtlas.CommandLine.Run
import ClassAtlas.Host.Workspace
import ClassAtlas.Json.Printer
import ClassAtlas.Json.Reader
import ClassAtlas.Service.Answer
/-!
# The command line

The workspace is read as one line from the standard input. A run prints what it has to say, writes
the files it has made or changed, and ends with its exit status. A service takes its calls from the
lines that follow and gives each its answer in a line.
-/
namespace ClassAtlas

/-- How many levels deep a document may be. -/
def documentDepth : Nat := 1000

/-- The document in a line; what cannot be read is empty. -/
def documentIn (line : String) : Json :=
  match Json.readDeep documentDepth line.toList with
  | .ok v => v
  | .error _ => .null

def callIn (v : Json) : Service.Call :=
  ⟨Workspace.text v "method" "POST", Workspace.text v "target" "/generate",
    (Workspace.text v "body" "").toList⟩

def replyLine (r : Service.Reply) : String :=
  let body := match r.payload with
    | .json v => v
    | .text s => .str s
  String.ofList (Json.compact (.obj [("status", .nat r.status), ("type", .str r.mediaType.text),
    ("body", body)]))

/-- Writes what has changed between two trees to the disk. -/
def writeChanges (before after : FileTree) : IO Unit :=
  (Workspace.changes before after).forM fun (place, node) => do
    let path := (Action.pathOf place).toString
    match node with
    | .directory _ => IO.FS.createDirAll path
    | .file bytes => IO.FS.writeBinFile path ⟨bytes.toArray⟩
    | _ => pure ()

def showRun (before after : Host) : IO Unit := do
  (← IO.getStdout).putStr after.printed
  (← IO.getStderr).putStr after.errors
  writeChanges before.files after.files

/-- Answers the calls in the lines of the standard input until it ends. -/
partial def serveLines (h : Host) : IO Unit := do
  let line ← (← IO.getStdin).getLine
  if line.isEmpty then return
  let (result, after) := (Service.answer (callIn (documentIn line))).run.run h
  let reply := match result with
    | .ok r => r
    | .error _ => .unforeseen
  let out ← IO.getStdout
  out.putStrLn (replyLine reply)
  out.flush
  serveLines { after with printed := "", errors := "" }

end ClassAtlas

open ClassAtlas in
def main (args : List String) : IO UInt32 := do
  let h := Workspace.host (documentIn (← (← IO.getStdin).getLine))
  let (result, after) := (CommandLine.run args).run.run h
  showRun h after
  match result with
  | .ok .done => return 0
  | .ok (.exit status) => return UInt32.ofNat status
  | .ok (.serve ..) =>
    serveLines { after with printed := "", errors := "" }
    return 0
  | .error f =>
    (← IO.getStderr).putStr (f.message ++ "\n")
    return 1
