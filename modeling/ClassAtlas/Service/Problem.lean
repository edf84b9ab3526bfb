import ClassAtlas.Json.Reader
/-!
# Problems of a request

Each problem of a request's body is told by where it is and what is wrong there.
-/
namespace ClassAtlas.Service

inductive Step where
  | name (s : String)
  | index (n : Nat)
deriving DecidableEq, Repr

def Step.toJson : Step → Json
  | name s => .str s
  | index n => .nat n

inductive ProblemKind where
  | missing
  | notText
  | notList
  | notObject
  /-- The body is no document; the cause is told. -/
  | notJson (cause : String)
deriving DecidableEq, Repr

namespace ProblemKind

def code : ProblemKind → String
  | missing => "missing"
  | notText => "string_type"
  | notList => "list_type"
  | notObject => "model_attributes_type"
  | notJson _ => "json_invalid"

def message : ProblemKind → String
  | missing => "Field required"
  | notText => "Input should be a valid string"
  | notList => "Input should be a valid list"
  | notObject => "Input should be a valid dictionary or object to extract fields from"
  | notJson _ => "JSON decode error"

end ProblemKind

structure Problem where
  kind : ProblemKind
  place : List Step
  input : Json
deriving Repr

def Problem.toJson (p : Problem) : Json :=
  .obj ([("type", .str p.kind.code), ("loc", .arr (p.place.map Step.toJson)),
    ("msg", .str p.kind.message), ("input", p.input)] ++
    match p.kind with
    | .notJson cause => [("ctx", .obj [("error", .str cause)])]
    | _ => [])

end ClassAtlas.Service
