import ClassAtlas.Number.Binary64
/-!
# JSON values

Objects keep the order of their members. Whole numbers and floating point numbers are told apart.
-/
namespace ClassAtlas

inductive Json where
  | null
  | bool (b : Bool)
  | int (n : Int)
  | real (x : Binary64)
  | str (s : String)
  | arr (items : List Json)
  | obj (members : List (String × Json))
deriving Repr, Inhabited

namespace Json

/-- Sets a member: an existing name keeps its place. -/
def setMember (name : String) (v : Json) : List (String × Json) → List (String × Json)
  | [] => [(name, v)]
  | (k, w) :: rest => if k = name then (k, v) :: rest else (k, w) :: setMember name v rest

def get? (name : String) : Json → Option Json
  | obj members => members.lookup name
  | _ => none

def strs (items : List String) : Json := arr (items.map str)
def nat (n : Nat) : Json := int n

/-- The text of a string value. -/
def str? : Json → Option String
  | str s => some s
  | _ => none

def arr? : Json → Option (List Json)
  | arr items => some items
  | _ => none

def obj? : Json → Option (List (String × Json))
  | obj members => some members
  | _ => none

def int? : Json → Option Int
  | int n => some n
  | _ => none

def bool? : Json → Option Bool
  | bool b => some b
  | _ => none

/-- Everything but `null`. -/
def present? : Json → Option Json
  | null => none
  | v => some v

end Json
end ClassAtlas
