import ClassAtlas.Text.Quoted
/-!
# Identifiers

Identifiers are unique within one document. A fresh one is made of a stem and a token from a
counter; draws go on until one is found that was not issued before.
-/
namespace ClassAtlas

/-- How the counter is written. -/
inductive TokenForm where
  | decimal
  /-- Ten hexadecimal digits, and more only when the number does not fit into them. -/
  | hexadecimal
deriving DecidableEq, Repr

/-- How many hexadecimal digits a token has. -/
def tokenWidth (n : Nat) : Nat := max 10 (Nat.log2 n / 4 + 1)

def TokenForm.token : TokenForm → Nat → String
  | decimal, n => Nat.repr n
  | hexadecimal, n => String.ofList (Text.hexDigits (tokenWidth n) n)

structure Ids where
  form : TokenForm
  issued : List String
  counter : Nat
deriving Repr

namespace Ids

def sequential : Ids := ⟨.decimal, [], 0⟩

/-- Reserves a chosen identifier; false when it is taken. -/
def claim (ids : Ids) (id : String) : Bool × Ids :=
  if ids.issued.contains id then (false, ids) else (true, { ids with issued := id :: ids.issued })

def candidate (ids : Ids) (stem : String) : String :=
  stem ++ "_" ++ ids.form.token (ids.counter + 1)

def drawFrom (stem : String) : Nat → Ids → String × Ids
  | 0, ids => (ids.candidate stem, ids)
  | fuel + 1, ids =>
    let id := ids.candidate stem
    let next := { ids with counter := ids.counter + 1 }
    if ids.issued.contains id then drawFrom stem fuel next
    else (id, { next with issued := id :: ids.issued })

/-- A fresh identifier. One more draw than there are issued identifiers is enough, for the tokens
differ. -/
def fresh (ids : Ids) (stem : String) : String × Ids := drawFrom stem (ids.issued.length + 1) ids

/-- The chosen identifier if it is free, else a fresh one made from it. -/
def claimOrFresh (ids : Ids) (id : String) : String × Ids :=
  match ids.claim id with
  | (true, next) => (id, next)
  | (false, next) => next.fresh id

end Ids
end ClassAtlas
