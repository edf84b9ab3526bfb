import ClassAtlas.Files.Fault
import ClassAtlas.Files.Path
import ClassAtlas.Files.Tree
/-!
# Finding files

A path is followed name by name, and links on the way lead on to their targets. At most forty links
are followed. Resolving a path gives the path that leads to the same node without links; it goes as
far as there are nodes and takes the names after that as they are.
-/
namespace ClassAtlas.FileTree

def maxLinks : Nat := 40
def maxNameBytes : Nat := 255
def maxPathBytes : Nat := 4095

/-- The place that the names `todo` lead to from `here`. The last name need not exist; if it is a
link, `follow` says whether to go on to its target. -/
def walk (t : FileTree) (follow : Bool) (links : Nat) (here : Location) (todo : List String) :
    Except Errno Location :=
  match todo with
  | [] => .ok here
  | name :: rest =>
    if name = ".." then walk t follow links here.dropLast rest
    else if name.utf8ByteSize > maxNameBytes then .error .nameTooLong
    else
      let next := here ++ [name]
      match t.at? next with
      | none => if rest = [] then .ok next else .error .noEntry
      | some (.directory _) => walk t follow links next rest
      | some (.link target) =>
        if rest = [] ∧ !follow then .ok next
        else
          match links with
          | 0 => .error .linkLoop
          | links + 1 =>
            let p := Path.ofString target
            walk t follow links (if p.isAbsolute then [] else here) (p.parts ++ rest)
      | some _ => if rest = [] then .ok next else .error .notDirectory
termination_by (links, todo.length)

/-- The place that a path leads to from a current directory. -/
def locate (t : FileTree) (cwd : Location) (follow : Bool) (p : Path) : Except Errno Location :=
  if p.toString.utf8ByteSize > maxPathBytes then .error .nameTooLong
  else t.walk follow maxLinks (if p.isAbsolute then [] else cwd) p.parts

/-- The place and node of a path that leads to a node. -/
def lookup (t : FileTree) (cwd : Location) (follow : Bool) (p : Path) :
    Except Errno (Location × Node) := do
  let place ← t.locate cwd follow p
  match t.at? place with
  | some node => .ok (place, node)
  | none => .error .noEntry

/-- Drops each pair of a name and the two dots after it. -/
def collapse (done : Location) : List String → Location
  | [] => done
  | name :: rest => if name = ".." then collapse done.dropLast rest else collapse (done ++ [name]) rest

/-- The place of a path by its names alone. -/
def placeOf (cwd : Location) (p : Path) : Location :=
  collapse [] ((if p.isAbsolute then [] else cwd) ++ p.parts)

/-- The path one step up. A path that is not absolute may leave its start by double dots in front. -/
def stepUp (p : Path) : Path :=
  if p.isAbsolute then p.parent
  else
    match p.parts.getLast? with
    | none | some ".." => p.child ".."
    | some _ => p.parent

/-- The state of resolving: the part that is done, the links that are passed with where they lead,
and whether all went well. -/
structure Resolved where
  done : Path
  known : List (Path × Option Path)
  whole : Bool

/-- Where the names of a text start when they are met after `done`. -/
def startOf (done p : Path) : Path := if p.isAbsolute then ⟨.root, []⟩ else done

/-- Resolves the names `todo` from a part that is done. A link that leads back to itself stops the
work: what is left is taken as it stands. -/
def resolveFrom (t : FileTree) (cwd : Location) :
    Nat → List (Path × Option Path) → Path → List String → Resolved
  | 0, known, done, todo => ⟨⟨done.anchor, done.parts ++ todo⟩, known, false⟩
  | _ + 1, known, done, [] => ⟨done, known, true⟩
  | fuel + 1, known, done, name :: rest =>
    if name = ".." then t.resolveFrom cwd fuel known (stepUp done) rest
    else
      let next := done.child name
      match t.at? (placeOf cwd next) with
      | some (.link target) =>
        match known.lookup next with
        | some (some place) => t.resolveFrom cwd fuel known place rest
        | some none => ⟨⟨next.anchor, next.parts ++ rest⟩, known, false⟩
        | none =>
          let p := Path.ofString target
          let inner := t.resolveFrom cwd fuel ((next, none) :: known) (startOf done p) p.parts
          if inner.whole then
            t.resolveFrom cwd fuel ((next, some inner.done) :: inner.known) inner.done rest
          else ⟨⟨inner.done.anchor, inner.done.parts ++ rest⟩, inner.known, false⟩
      | _ => t.resolveFrom cwd fuel known next rest

/-- The number of names in the targets of all links, with one for each link. -/
def linkWeight (t : FileTree) : Nat :=
  t.nodes.foldr (fun (_, n) total => match n with
    | .link target => (Path.ofString target).parts.length + 1 + total
    | _ => total) 0

/-- The place that a path leads to, by its names alone where there are no nodes. -/
def resolve (t : FileTree) (cwd : Location) (p : Path) : Location :=
  let steps := p.parts.length + t.linkWeight + 1
  placeOf cwd (t.resolveFrom cwd (steps * steps) [] (startOf ⟨.here, []⟩ p) p.parts).done

end ClassAtlas.FileTree
