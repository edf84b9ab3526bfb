import ClassAtlas.Generation
import ClassAtlas.Service.Problem
/-!
# The body of a request

A request to generate is an object with a path, and perhaps patterns and a name. All problems of a
body are found, in the order of the fields.
-/
namespace ClassAtlas.Service

def bodyStep : Step := .name "body"

/-- A value or the problems with it. -/
abbrev Checked (α : Type) := Except (List Problem) α

def problem {α : Type} (kind : ProblemKind) (place : List Step) (input : Json) : Checked α :=
  .error [⟨kind, place, input⟩]

/-- Joins two results and keeps the problems of both. -/
def both {α β : Type} : Checked α → Checked β → Checked (α × β)
  | .ok a, .ok b => .ok (a, b)
  | .error p, .error q => .error (p ++ q)
  | .error p, _ => .error p
  | _, .error q => .error q

def text (place : List Step) : Json → Checked String
  | .str s => .ok s
  | v => problem .notText place v

/-- The items of a list, each of which is a text; `n` items came before. -/
def texts (place : List Step) (n : Nat) : List Json → Checked (List String)
  | [] => .ok []
  | v :: vs =>
    (both (text (place ++ [.index n]) v) (texts place (n + 1) vs)).map fun (s, ss) => s :: ss

def textList (place : List Step) : Json → Checked (List String)
  | .arr vs => texts place 0 vs
  | v => problem .notList place v

/-- A field that may be missing or null. -/
def optional {α : Type} (read : List Step → Json → Checked α) (name : String) (body : Json) :
    Checked (Option α) :=
  match body.get? name with
  | none | some .null => .ok none
  | some v => (read [bodyStep, .name name] v).map some

/-- A field that has to be there. -/
def required {α : Type} (read : List Step → Json → Checked α) (name : String) (body : Json) :
    Checked α :=
  match body.get? name with
  | none => problem .missing [bodyStep, .name name] body
  | some v => read [bodyStep, .name name] v

/-- The request that a body makes. -/
def requestOf : Json → Checked Request
  | .null => problem .missing [bodyStep] .null
  | .obj members =>
    let body : Json := .obj members
    (both (required text "path" body) (both (optional textList "include" body)
      (both (optional textList "exclude" body) (optional text "project_name" body)))).map
      fun (path, included, excluded, name) => ⟨path, included, excluded, name⟩
  | v => problem .notObject [bodyStep] v

/-- How deep the values of a body may be nested. -/
def maxDepth : Nat := 980

/-- What the text of a body holds. -/
inductive BodyText where
  | value (v : Json)
  | problems (ps : List Problem)
  /-- It cannot be read for other reasons than its form. -/
  | unreadable

/-- The text without a byte order mark in front. -/
def dropOrderMark (text : List Char) : List Char :=
  if text.head? = some (Char.ofNat 0xFEFF) then text.drop 1 else text

/-- Reads a body; an empty one counts as null. -/
def BodyText.read (text : List Char) : BodyText :=
  if text.isEmpty then .value .null
  else
    let text := dropOrderMark text
    match Json.readValueText maxDepth text with
    | .ok v => .value v
    | .error (.malformed fault left) =>
      .problems [⟨.notJson fault.message, [bodyStep, .index (text.length - left)], .obj []⟩]
    | .error _ => .unreadable

end ClassAtlas.Service
