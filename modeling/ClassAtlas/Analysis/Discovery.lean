import ClassAtlas.Dialect
import ClassAtlas.Host.Files
/-!
# Finding the source files of a project

A directory is walked with its files before its subdirectories, both in order of their names. Links
to directories are not entered, and a directory that an exclude pattern matches is passed over with
all that is in it.
-/
namespace ClassAtlas.Discovery

open ClassAtlas.Action

/-- A non-empty pattern matches a path that contains it. -/
def isExcluded (relative : String) (excluded : List String) : Bool :=
  excluded.any fun p => p != "" && Text.contains p.toList relative.toList

/-- Without patterns everything is included, else what begins with one of them. -/
def isIncluded (relative : String) (included : List String) : Bool :=
  included.isEmpty || included.any fun p => p.toList.isPrefixOf relative.toList

/-- What a walk comes upon: a source file, or a directory that cannot be listed. -/
inductive Finding where
  | source (place : Location)
  | unlisted (place : Location)
deriving DecidableEq, Repr

/-- Whether an entry is a directory, or a link that leads to one. -/
def leadsToDirectory (t : FileTree) (place : Location) : Bool :=
  match t.walk true FileTree.maxLinks [] place with
  | .ok target => (t.at? target).any Node.isDirectory
  | .error _ => false

/-- The path of an entry seen from the root of the walk. -/
def relativeName (relative name : String) : String :=
  if relative = "" then name else relative ++ "/" ++ name

/-- Whether a file is one to be found. -/
def isWanted (t : FileTree) (included excluded : List String) (place : Location) (relative : String) :
    Bool :=
  !isExcluded relative excluded && Dialect.isSourceSuffix (Path.suffix ⟨.root, place⟩) &&
    !(t.at? place).any Node.isLink && isIncluded relative included

/-- The findings in a directory and below; the first argument bounds how deep they are looked for. -/
def walk (t : FileTree) (included excluded : List String) : Nat → Location → String → List Finding
  | 0, _, _ => []
  | depth + 1, here, relative =>
    if t.at? here = some (.directory true) then [.unlisted here]
    else
      let names := t.names here
      let files := names.filter fun n => !leadsToDirectory t (here ++ [n])
      let directories := names.filter fun n =>
        leadsToDirectory t (here ++ [n]) && !isExcluded (relativeName relative n) excluded &&
          !(t.at? (here ++ [n])).any Node.isLink
      (files.filter fun n => isWanted t included excluded (here ++ [n]) (relativeName relative n)).map
          (fun n => .source (here ++ [n])) ++
        directories.flatMap fun n => walk t included excluded depth (here ++ [n]) (relativeName relative n)

/-- Notes the directories that could not be listed and gives the files. -/
def collect : List Finding → Action (List Path)
  | [] => pure []
  | .source place :: rest => return pathOf place :: (← collect rest)
  | .unlisted place :: rest => do
    warn "scanner" ("Skipping unreadable directory " ++ (pathOf place).toString ++ ": " ++
      Errno.access.text)
    collect rest

/-- The source files under a directory, which messages show as it was given. -/
def sourceFiles (root : String) (included excluded : List String) : Action (List Path) := do
  let place ← resolve (← expandHome (Path.ofString root))
  if !(← pathExists place) then throw (.missingRoot root)
  if !(← isDirectory place) then throw (.rootNotDirectory root)
  let t := (← get).files
  let files ← collect (walk t included excluded (t.height + 1) place.parts "")
  debug "scanner" ("Discovered " ++ Nat.repr files.length ++ " source files under " ++ place.toString)
  pure files

end ClassAtlas.Discovery
