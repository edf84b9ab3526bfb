import ClassAtlas.Atlas.Ids
import ClassAtlas.Atlas.Record
import ClassAtlas.Text.Lowercase
import ClassAtlas.Text.Split
/-!
# Assembling packages

Records are gathered into packages by their package path, in order of first use. Names that are
extended or implemented and that no record defines get a stub record in the external package.
-/
namespace ClassAtlas

structure Assembly where
  ids : Ids
  packages : List Package
deriving Repr

/-- The packages and classes of one round of gathering. -/
structure Gathering where
  packages : List Package
  classes : List ClassRecord
deriving Repr

def Gathering.stubs (g : Gathering) : List ClassRecord := g.classes.filter (·.external)

namespace Assembly

def externalPath : String := "external"
def externalId : String := "package_external"
def externalName : String := "External Libraries"

def start (ids : Ids) : Assembly := ⟨ids, []⟩

/-- A package is named for the last segment of its path. -/
def packageName (path : String) : String :=
  let last := Text.afterLast '/' path.toList
  if last.isEmpty then "root" else String.ofList last

def find? (a : Assembly) (path : String) : Option Package := a.packages.find? (·.path == path)

/-- Adds an empty package at the end. -/
def create (a : Assembly) (ids : Ids) (id name path : String) : Package × Assembly :=
  let package : Package := ⟨id, name, path, []⟩
  (package, ⟨ids, a.packages ++ [package]⟩)

/-- The package at a path, made when there is none. -/
def package (a : Assembly) (path : String) : Package × Assembly :=
  match a.find? path with
  | some p => (p, a)
  | none =>
    let (id, ids) := a.ids.fresh "package"
    a.create ids id (packageName path) path

/-- The package of stubs; a directory of that name serves for it. -/
def externalPackage (a : Assembly) : Package × Assembly :=
  match a.find? externalPath with
  | some p => (p, a)
  | none =>
    let (id, ids) := a.ids.claimOrFresh externalId
    a.create ids id externalName externalPath

/-- Lists a class in the package at a path. -/
def enlist (a : Assembly) (path id : String) : Assembly :=
  { a with packages := a.packages.map fun p =>
      if p.path = path then { p with classIds := p.classIds ++ [id] } else p }

/-- Files a record under its package. -/
def add (a : Assembly) (r : ClassRecord) : Assembly :=
  (a.package r.package).2.enlist r.package r.id

/-- Appends the names that are not yet there. -/
def addNames (names : List String) : List String → List String
  | [] => names
  | n :: ns => addNames (if names.contains n then names else names ++ [n]) ns

/-- The names that are referred to and not defined, in order of first mention. -/
def undefinedNames (records : List ClassRecord) : List String :=
  let defined := records.map (·.name)
  addNames [] ((records.flatMap (·.references)).filter fun n => !defined.contains n)

def stubId (name : String) : String :=
  "external_" ++ String.ofList (Text.lower (name.toList.map fun c => if c = '.' then '_' else c))

def stub (id name package : String) : ClassRecord where
  id := id
  name := name
  package := package
  file := package ++ "/" ++ name
  metrics := .external
  parents := []
  interfaces := []
  methods := []
  dependencies := []
  reactLike := false
  history := .empty
  hasTest := false
  external := true

/-- Adds a stub for each name to the external package. -/
def addStubs (a : Assembly) : List String → List ClassRecord × Assembly
  | [] => ([], a)
  | name :: names =>
    let (id, ids) := a.ids.claimOrFresh (stubId name)
    let record := stub id name externalPath
    let (records, last) := addStubs (enlist { a with ids } externalPath id) names
    (record :: records, last)

/-- Files all records and adds the stubs that they call for. -/
def gather (a : Assembly) (records : List ClassRecord) : Gathering × Assembly :=
  let filed := records.foldl add a
  match undefinedNames records with
  | [] => (⟨filed.packages, records⟩, filed)
  | names =>
    let (stubs, done) := addStubs filed.externalPackage.2 names
    (⟨done.packages, records ++ stubs⟩, done)

end Assembly
end ClassAtlas
