import ClassAtlas.Text.Quoted
import ClassAtlas.Text.Split
/-!
# Paths

A path is an anchor and the names after it. Empty names and single dots are dropped when a path
is read; two dots stay, since they can lead elsewhere through a link. Two slashes in front are an
anchor of their own, three or more are one.
-/
namespace ClassAtlas

inductive Anchor where
  | here
  | root
  | doubleRoot
deriving DecidableEq, Repr

structure Path where
  anchor : Anchor
  parts : List String
deriving DecidableEq, Repr

namespace Path

def anchorOf : List Char → Anchor
  | '/' :: '/' :: '/' :: _ => .root
  | '/' :: '/' :: _ => .doubleRoot
  | '/' :: _ => .root
  | _ => .here

/-- The names in a text, without the empty ones and single dots. -/
def namesOf (cs : List Char) : List String :=
  ((Text.splitOn '/' cs).filter fun n => n != [] && n != ['.']).map String.ofList

def ofString (s : String) : Path := ⟨anchorOf s.toList, namesOf s.toList⟩

def anchorText : Anchor → String
  | .here => ""
  | .root => "/"
  | .doubleRoot => "//"

/-- The text without the dot that stands for an empty path. -/
def bare (p : Path) : String := anchorText p.anchor ++ "/".intercalate p.parts

def toString (p : Path) : String :=
  if p.anchor = .here ∧ p.parts = [] then "." else p.bare

def isAbsolute (p : Path) : Bool := p.anchor != .here

/-- `q` seen from `p`; an absolute `q` stands for itself. -/
def join (p q : Path) : Path :=
  if q.isAbsolute then q else ⟨p.anchor, p.parts ++ q.parts⟩

/-- `p` followed by one plain name. -/
def child (p : Path) (name : String) : Path := ⟨p.anchor, p.parts ++ [name]⟩

/-- Two dots and the name before them taken away, without regard to links; for absolute paths. -/
def withoutDots (p : Path) : Path :=
  ⟨p.anchor, p.parts.foldl (fun done n => if n = ".." then done.dropLast else done ++ [n]) []⟩

def parent (p : Path) : Path := ⟨p.anchor, p.parts.dropLast⟩

/-- The last name, empty for a path without names. -/
def name (p : Path) : String := p.parts.getLast?.getD ""

/-- Splits a file name before its last dot, unless the dot is its first or last character. -/
def splitSuffix (name : List Char) : List Char × List Char :=
  let ext := (name.reverse.takeWhile (· != '.')).reverse
  let base := name.take (name.length - ext.length - 1)
  if base.isEmpty || ext.isEmpty then (name, []) else (base, '.' :: ext)

def stem (p : Path) : String := String.ofList (splitSuffix p.name.toList).1
def suffix (p : Path) : String := String.ofList (splitSuffix p.name.toList).2

/-- The path with its last name replaced; none when there is no name to replace. -/
def withName? (p : Path) (name : String) : Option Path :=
  if p.name = "" then none else some ⟨p.anchor, p.parts.dropLast ++ [name]⟩

/-- Where the test of a source file stands: beside it, marked in front of the suffix. -/
def siblingTest? (p : Path) : Option Path := p.withName? (p.stem ++ ".test" ++ p.suffix)

/-- What leads from `root` to `p`, when `p` lies under it. -/
def relativeTo? (p root : Path) : Option Path :=
  if p.anchor = root.anchor ∧ root.parts.isPrefixOf p.parts then
    some ⟨.here, p.parts.drop root.parts.length⟩
  else none

end Path
end ClassAtlas
