import ClassAtlas.Host.Basic
/-!
# Actions on files
-/
namespace ClassAtlas.Action

def hasNul (p : Path) : Bool := p.parts.any fun n => n.toList.contains (Char.ofNat 0)

/-- A path with a null character cannot be handed to the file system. -/
def refuseNul (p : Path) : Action Unit := if hasNul p then throw .nulInPath else pure ()

def locate (p : Path) (follow : Bool) : Action (Except Errno Location) := do
  refuseNul p
  let h ← get
  pure (h.files.locate h.cwd follow p)

def lookup (p : Path) (follow : Bool) : Action (Except Errno (Location × Node)) := do
  refuseNul p
  let h ← get
  pure (h.files.lookup h.cwd follow p)

/-- Whether a path leads to a node that satisfies `test`. A path that leads nowhere does not; one
that cannot be looked up is a failure. -/
def probe (follow : Bool) (test : Node → Bool) (p : Path) : Action Bool := do
  if hasNul p then return false
  match ← lookup p follow with
  | .ok (_, node) => pure (test node)
  | .error .noEntry | .error .notDirectory | .error .linkLoop => pure false
  | .error errno => failAt p errno

def pathExists (p : Path) : Action Bool := probe true (fun _ => true) p
def isDirectory (p : Path) : Action Bool := probe true Node.isDirectory p
def isFile (p : Path) : Action Bool := probe true Node.isFile p

/-- The path of a place. -/
def pathOf (place : Location) : Path := ⟨.root, place⟩

def cwd : Action Path := do return pathOf (← get).cwd

/-- The path without links and double dots. -/
def resolve (p : Path) : Action Path := do
  refuseNul p
  let h ← get
  let q := pathOf (h.files.resolve h.cwd p)
  match h.files.lookup h.cwd true q with
  | .error .linkLoop => throw (.linkLoop q.toString)
  | _ => pure q

/-- Replaces a tilde in front by a home directory. -/
def expandHome (p : Path) : Action Path := do
  match p.anchor, p.parts with
  | .here, first :: rest =>
    match first.toList with
    | '~' :: name =>
      if name.contains (Char.ofNat 0) then throw .nulInPath
      let h ← get
      let home := if name.isEmpty then some h.home else h.users.lookup (String.ofList name)
      match home with
      | none => throw .noHome
      | some home =>
        let base := Path.ofString home
        pure ⟨base.anchor, base.parts ++ rest⟩
    | _ => pure p
  | _, _ => pure p

def readBytes (p : Path) : Action (List UInt8) := do
  match ← lookup p true with
  | .ok (_, .file bytes) => pure bytes
  | .ok (_, .directory _) => failAt p .isDirectory
  | .ok _ => failAt p .noDevice
  | .error errno => failAt p errno

/-- Where a file that is opened for writing stands. It is made when there is none. -/
def openPlace (p : Path) : Action Location := do
  let place ← ofErrno p (← locate p true)
  match (← get).files.at? place with
  | some (.directory _) => failAt p .isDirectory
  | some (.file _) => pure place
  | some _ => failAt p .noDevice
  | none =>
    modify fun h => { h with files := h.files.put place (.file []) }
    pure place

def writeBytes (p : Path) (bytes : List UInt8) : Action Unit := do
  let place ← openPlace p
  modify fun h => { h with files := h.files.put place (.file bytes) }

def makeDirectory (p : Path) : Action Unit := do
  let place ← ofErrno p (← locate p false)
  if ((← get).files.at? place).isSome then failAt p .fileExists
  modify fun h => { h with files := h.files.put place (.directory false) }

/-- Makes a directory unless there is one. -/
def ensureDirectory (p : Path) : Action Unit := do
  match ← attempt (makeDirectory p) with
  | .ok _ => pure ()
  | .error (.file (.system .noEntry subject)) => throw (.file (.system .noEntry subject))
  | .error f =>
    if f.isFileTrouble then
      if ← isDirectory p then pure () else throw f
    else throw f

/-- Makes a directory and those above it, as far as they are missing. The names of the path bound
the steps. -/
def makeDirectories (p : Path) : Nat → Action Unit
  | 0 => ensureDirectory p
  | steps + 1 => do
    match ← attempt (ensureDirectory p) with
    | .ok _ => pure ()
    | .error (.file (.system .noEntry subject)) =>
      if p.parent = p then throw (.file (.system .noEntry subject))
      makeDirectories p.parent steps
      ensureDirectory p
    | .error f => throw f

def ensureDirectories (p : Path) : Action Unit := makeDirectories p (p.parts.length + 1)

/-- Moves a file to another place and replaces what is there, unless that is a directory. -/
def replaceFile (source target : Path) : Action Unit := do
  refuseNul source
  refuseNul target
  let fail {α : Type} (errno : Errno) : Action α :=
    throw (.file (.system errno (.move source.toString target.toString)))
  let h ← get
  match h.files.locate h.cwd false source, h.files.locate h.cwd false target with
  | .error errno, _ => fail errno
  | _, .error errno => fail errno
  | .ok src, .ok dst =>
    if target.name = ".." ∨ target.parts = [] ∨ source.name = ".." then fail .busy
    match h.files.at? src, h.files.at? dst with
    | none, _ => fail .noEntry
    | some node, there =>
      if node.isDirectory then
        match there with
        | some (.directory _) => fail .notEmpty
        | _ => fail .notDirectory
      else if there.any Node.isDirectory then fail .isDirectory
      else if src = dst then pure ()
      else
        set { h with
          files := (h.files.erase src).put dst node
          logging := h.logging.move src dst }

/-- Removes a file or link; nothing happens when there is none. -/
def removeFile (p : Path) : Action Unit := do
  match ← lookup p false with
  | .error .noEntry => pure ()
  | .error errno => failAt p errno
  | .ok (_, .directory _) => failAt p .isDirectory
  | .ok (place, _) =>
    modify fun h => { h with files := h.files.erase place, logging := h.logging.lose (· == place) }

/-- Removes what is below a place. -/
def clearBelow (place : Location) : Action Unit :=
  modify fun h =>
    { h with
      files := h.files.clear place
      logging := h.logging.lose fun q => place.isPrefixOf q }

/-- Removes an empty directory. A path that ends in double dots leads back from below. -/
def removeEmpty (p : Path) : Action Unit := do
  let place ← ofErrno p (← locate p false)
  if p.name = ".." then failAt p .notEmpty
  modify fun h => { h with files := h.files.erase place }

/-- Removes a directory with all that is in it. Links in it are removed and not followed; a link
to a directory is refused. When the path leads through what is in it, the directory itself stays. -/
def removeTree (p : Path) : Action Unit := do
  match ← lookup p false with
  | .error errno => failAt p errno
  | .ok (place, .directory _) =>
    if place = [] then failAt p .busy
    clearBelow place
    removeEmpty p
  | .ok (_, .file _) => throw (.file (.system .notDirectory (.tree p.toString)))
  | .ok (_, .socket) => failAt p .noDevice
  | .ok (_, .link _) =>
    match ← lookup p true with
    | .error errno => failAt p errno
    | .ok (_, .socket) => failAt p .noDevice
    | .ok _ => throw (.file .treeBehindLink)

end ClassAtlas.Action
