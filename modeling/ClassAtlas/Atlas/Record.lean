import ClassAtlas.Complexity
import ClassAtlas.Outline.Basic
/-!
# Records of an atlas

An atlas describes a project by one record per source file, the packages that hold them, and facts
about the project itself.
-/
namespace ClassAtlas

/-- The latest commit that touched a file. -/
structure Commit where
  hash : String
  author : String
  email : String
  date : String
  message : String
  daysAgo : Int
deriving DecidableEq, Repr

/-- What version control knows of a file. -/
structure FileHistory where
  commits : Int
  last : Option Commit
deriving DecidableEq, Repr

def FileHistory.empty : FileHistory := ⟨0, none⟩

structure ClassRecord where
  id : String
  name : String
  package : String
  file : String
  metrics : Metrics
  parents : List String
  interfaces : List String
  methods : List Method
  dependencies : List String
  reactLike : Bool
  history : FileHistory
  hasTest : Bool
  /-- Stands for a name that the project uses and does not define. -/
  external : Bool
deriving DecidableEq, Repr

inductive Subtype where
  | external
  | reactComponent
  | utility
deriving DecidableEq, Repr

def Subtype.name : Subtype → String
  | external => "external"
  | reactComponent => "react_component"
  | utility => "utility"

namespace ClassRecord

def subtype (r : ClassRecord) : Subtype :=
  if r.external then .external else if r.reactLike then .reactComponent else .utility

/-- The names that a record refers to, what it extends first. -/
def references (r : ClassRecord) : List String := r.parents ++ r.interfaces

end ClassRecord

/-- The records of one directory. -/
structure Package where
  id : String
  name : String
  path : String
  classIds : List String
deriving DecidableEq, Repr

structure Project where
  name : String
  description : String
  language : String
deriving DecidableEq, Repr

structure Snapshot where
  version : String
  generated : String
  project : Project
  packages : List Package
  classes : List ClassRecord
deriving DecidableEq, Repr

end ClassAtlas
