import ClassAtlas.Host.Basic
import ClassAtlas.Json.Value
/-!
# Workspaces as documents

A workspace can be given as a document with the members `files`, `cwd`, `home`, `now` and `history`.
The member `files` has the text of each file under its path, or an object that tells a directory or a
link; `history` has the two answers of version control for each file. What is not given is empty.
-/
namespace ClassAtlas.Workspace

/-- The node that an entry of `files` describes. -/
def node? : Json → Option Node
  | .str text => some (.file (Utf8.encode text.toList))
  | v =>
    match v.get? "link", v.get? "directory" with
    | some (.str target), _ => some (.link target)
    | _, some (.bool true) => some (.directory false)
    | _, _ => none

/-- Plants the described nodes, one after the other. -/
def plant (cwd : Location) (t : FileTree) (entries : List (String × Json)) : FileTree :=
  entries.foldl (fun t (name, v) =>
    let p := Path.ofString name
    match node? v with
    | some n => t.plant (if p.isAbsolute then p.parts else cwd ++ p.parts) n
    | none => t) t

/-- The answers of version control: a file that is not mentioned has none. -/
def versionControl (v : Json) : VersionControl where
  commits file := (answer file "commits").elim (.error (.exitStatus 128)) .ok
  lastCommit file := (answer file "last").elim (.error (.exitStatus 128)) .ok
  copy := .error (.exitStatus 128)
where
  answer (file kind : String) : Option String := ((v.get? file).bind (·.get? kind)).bind Json.str?

/-- The text of a member, or what stands for it. -/
def text (v : Json) (name other : String) : String := ((v.get? name).bind Json.str?).getD other

def moment (s : String) : Moment :=
  match Iso.read s with
  | .ok m => m
  | .error _ => ⟨0, none⟩

/-- The host that a document describes. -/
def host (v : Json) : Host :=
  let cwd := (Path.ofString (text v "cwd" "/")).parts
  { files := plant cwd (FileTree.empty.plant cwd (.directory false))
      (((v.get? "files").bind Json.obj?).getD [])
    cwd
    home := text v "home" "/root"
    users := []
    now := moment (text v "now" "")
    git := versionControl ((v.get? "history").getD .null)
    commands := []
    logging := .unset
    journal := []
    printed := ""
    errors := ""
    nanos := 0 }

/-- The directories and files of `after` that are not so in `before`, in order of their places. -/
def changes (before after : FileTree) : List (Location × Node) :=
  (after.nodes.filter fun (place, node) => before.at? place != some node).mergeSort fun a b =>
    decide ("/".intercalate a.1 ≤ "/".intercalate b.1)

end ClassAtlas.Workspace
