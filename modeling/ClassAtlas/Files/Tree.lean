/-!
# File trees

A file tree gives a node to each place. A place is the list of names that lead to it from the root,
which is always a directory. Writing replaces the node at one place and leaves all others.
-/
namespace ClassAtlas

/-- The names that lead to a node from the root. -/
abbrev Location := List String

inductive Node where
  | file (bytes : List UInt8)
  /-- The names in a locked directory cannot be listed. -/
  | directory (locked : Bool)
  | link (target : String)
  | socket
deriving DecidableEq, Repr

namespace Node

def isDirectory : Node → Bool
  | directory _ => true
  | _ => false

def isFile : Node → Bool
  | file _ => true
  | _ => false

def isLink : Node → Bool
  | link _ => true
  | _ => false

end Node

structure FileTree where
  nodes : List (Location × Node)
deriving Repr

namespace FileTree

def empty : FileTree := ⟨[]⟩

def at? (t : FileTree) (place : Location) : Option Node :=
  if place = [] then some (.directory false) else t.nodes.lookup place

/-- Removes what is at one place. -/
def erase (t : FileTree) (place : Location) : FileTree :=
  ⟨t.nodes.filter fun (p, _) => p != place⟩

/-- Removes what is at a place and below it. -/
def prune (t : FileTree) (place : Location) : FileTree :=
  ⟨t.nodes.filter fun (p, _) => !place.isPrefixOf p⟩

/-- Removes what is below a place. -/
def clear (t : FileTree) (place : Location) : FileTree :=
  ⟨t.nodes.filter fun (p, _) => !(place.isPrefixOf p && p.length != place.length)⟩

def put (t : FileTree) (place : Location) (node : Node) : FileTree :=
  ⟨(place, node) :: (t.erase place).nodes⟩

/-- The last name of a place directly below `directory`. -/
def childName? (directory place : Location) : Option String :=
  if directory.isPrefixOf place then
    match place.drop directory.length with
    | [name] => some name
    | _ => none
  else none

/-- The names in a directory, in order of their characters. -/
def names (t : FileTree) (directory : Location) : List String :=
  (t.nodes.filterMap fun (p, _) => childName? directory p).mergeSort fun a b => decide (a ≤ b)

/-- A bound on how deep the tree goes. -/
def height (t : FileTree) : Nat := (t.nodes.map fun (p, _) => p.length).foldl max 0

/-- Makes the directories that lead to a place and stand for nothing yet. -/
def makeParents (t : FileTree) (here : Location) : List String → FileTree
  | [] => t
  | [_] => t
  | name :: rest =>
    let next := here ++ [name]
    let t := if (t.at? next).isSome then t else t.put next (.directory false)
    makeParents t next rest

/-- Plants a node, with the directories that lead to it. -/
def plant (t : FileTree) (place : Location) (node : Node) : FileTree :=
  (t.makeParents [] place).put place node

end FileTree
end ClassAtlas
