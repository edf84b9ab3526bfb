import ClassAtlas.Outline.Basic
import ClassAtlas.Text.Pattern
import ClassAtlas.Text.Split
/-!
# Outlines by text patterns

When no syntax tree gives a class, the outline is read off the text by patterns. The first exported
function, constant or class names it; every match of the method pattern gives one method.
-/
namespace ClassAtlas.Scan

open Text Pattern

def notAny (cs : List Char) (c : Char) : Bool := !cs.contains c

def exportPattern : Pattern :=
  word "export" ++ blanks1 ++ opt (word "default" ++ blanks1) ++
    oneOf [word "function", word "const"] (word "class") ++ blanks1 ++ capture wordRun

def extendsPattern : Pattern :=
  word "class" ++ blanks1 ++ wordRun ++ blanks1 ++ word "extends" ++ blanks1 ++ capture wordRun

def implementsPattern : Pattern :=
  word "class" ++ blanks1 ++ wordRun ++ blanks1 ++ word "implements" ++ blanks1 ++
    capture (many1 fun c => isWordChar c || c == ',' || isBlank c)

/-- A list in round brackets that ends at the first closing one. -/
def bracketed : Pattern := char '(' ++ many (notAny [')']) ++ char ')'

/-- A function, a constant bound to an arrow function, or a call form with a body at the start of
a line. -/
def methodPattern : Pattern :=
  oneOf
    [word "function" ++ blanks1 ++ wordRun,
      word "const" ++ blanks1 ++ wordRun ++ blanks ++ char '=' ++ blanks ++
        opt (word "async" ++ blanks1) ++ bracketed ++ blanks ++ word "=>"]
    (lineStart ++ blanks ++ wordRun ++ blanks ++ bracketed ++ blanks ++ char '{')

def declaredPattern : Pattern :=
  oneOf [word "function"] (word "const") ++ blanks1 ++ capture wordRun

def callPattern : Pattern := capture wordRun ++ blanks ++ char '('

/-- Words that open a block with a call form and name no method. -/
def controlWords : List String := ["if", "for", "while", "switch", "catch", "return", "function"]

def exportedName? (text : List Char) : Option String :=
  (exportPattern.find? text).map fun m => String.ofList m.captured

/-- The name of the method match number `index`. -/
def methodName (matched : List Char) (index : Nat) : String :=
  let body := trim matched
  match declaredPattern.matchAt none body with
  | some m => String.ofList m.captured
  | none =>
    match callPattern.matchAt none body with
    | some m =>
      let name := String.ofList m.captured
      if controlWords.contains name then s!"method_{index}" else name
    | none => s!"method_{index}"

def methodsFrom (index : Nat) : List Found → List Method
  | [] => []
  | m :: ms => { name := methodName m.text index } :: methodsFrom (index + 1) ms

/-- The outline of a text; `base` names it when nothing is exported. -/
def outline (text : List Char) (base : String) : Outline where
  className := (exportedName? text).getD base
  parents := ((extendsPattern.find? text).map fun m => String.ofList m.captured).toList
  interfaces := match implementsPattern.find? text with
    | some m => commaParts (String.ofList m.captured)
    | none => []
  methods := methodsFrom 0 (methodPattern.findAll text)

/-- Signs of the view library among the imports. -/
def reactMarkers : List String := ["import React", "from 'react'", "from \"react\""]

/-- Whether a text exports something and imports the view library. -/
def isReactLike (text : List Char) : Bool :=
  (exportPattern.find? text).isSome && reactMarkers.any fun m => contains m.toList text

end ClassAtlas.Scan
