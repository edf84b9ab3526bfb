import ClassAtlas.Outline.Scan
import ClassAtlas.Source.Reader
/-!
# The outline of a source file

The first class declaration with a name gives the outline of a file. Where there is none, or the
file is of no known dialect, the outline is read off the text by patterns.
-/
namespace ClassAtlas.Outline

open Text

/-- The name of a type without its arguments. -/
def typeName (text : List Char) : String := String.ofList (trim (upTo (· == '<') text))

/-- The names of types that have one. -/
def typeNames (texts : List (List Char)) : List String := (texts.map typeName).filter (· != "")

/-- Accessors and the constructor do not count as methods. -/
def methodsOf (members : List ClassMember) : List Method :=
  (members.filter fun m => m.kind == .method && m.name != [] && m.name != "constructor".toList).map
    fun m => { name := String.ofList m.name }

def ofShape (shape : ClassShape) : Outline where
  className := String.ofList (shape.name.getD [])
  parents := typeNames (shape.parents.take 1)
  interfaces := typeNames shape.interfaces
  methods := methodsOf shape.members

def ofTree (t : SyntaxTree) : Option Outline := t.firstClass?.map ofShape

/-- Ways to find an outline. -/
inductive Extractor where
  | tree
  | pattern
deriving DecidableEq, Repr

/-- Whether a way can be tried on a file. -/
def Extractor.supports (file : Path) : Extractor → Bool
  | tree => (Dialect.ofPath? file).isSome
  | pattern => true

/-- The outline that one way finds. -/
def Extractor.outline? (file : Path) (text : List Char) : Extractor → Option Outline
  | tree => (Dialect.ofPath? file).bind fun d => ofTree (Source.read d text)
  | pattern => some (Scan.outline text file.stem)

/-- The first outline with a class name that the ways find, or a bare one. -/
def choose (file : Path) (text : List Char) : List Extractor → Outline
  | [] => bare file.stem
  | e :: es =>
    match if e.supports file then e.outline? file text else none with
    | some o => if o.className = "" then choose file text es else o
    | none => choose file text es

/-- The usual order: syntax first, patterns last. -/
def defaultChain : List Extractor := [.tree, .pattern]

end ClassAtlas.Outline
