/-!
# Syntax trees of source files

Of a source file only the class declarations matter. A node of the tree either declares a class,
and then carries its shape, or is any other node with the nodes inside it.
-/
namespace ClassAtlas

inductive MemberKind where
  | method
  | accessor
  | other
deriving DecidableEq, Repr

/-- A member of a class body, with its name as it is written. -/
structure ClassMember where
  kind : MemberKind
  name : List Char
deriving DecidableEq, Repr

/-- The parts of a class as they are written. -/
structure ClassShape where
  name : Option (List Char)
  parents : List (List Char)
  interfaces : List (List Char)
  members : List ClassMember
deriving DecidableEq, Repr

inductive SyntaxTree where
  | node (declares : Option ClassShape) (children : List SyntaxTree)
deriving Repr

namespace SyntaxTree

def declares : SyntaxTree → Option ClassShape
  | node d _ => d

def children : SyntaxTree → List SyntaxTree
  | node _ cs => cs

/-- The class with a name that a node declares. -/
def namedClass : SyntaxTree → List ClassShape
  | node (some shape) _ => if shape.name.isSome then [shape] else []
  | node none _ => []

mutual
/-- The named classes of a tree: a node comes before those inside it, and these from left to
right. -/
def classes : SyntaxTree → List ClassShape
  | node d cs => namedClass (node d cs) ++ classesOfAll cs
def classesOfAll : List SyntaxTree → List ClassShape
  | [] => []
  | t :: ts => classes t ++ classesOfAll ts
end

mutual
def size : SyntaxTree → Nat
  | node _ cs => sizeOfAll cs + 1
def sizeOfAll : List SyntaxTree → Nat
  | [] => 0
  | t :: ts => size t + sizeOfAll ts
end

theorem sizeOfAll_append (ss ts : List SyntaxTree) :
    sizeOfAll (ss ++ ts) = sizeOfAll ss + sizeOfAll ts := by
  induction ss with
  | nil => simp [sizeOfAll]
  | cons s ss ih => simp [sizeOfAll, ih, Nat.add_assoc]

/-- The named classes in a stack of trees, the node on top of the stack first. Its children take its
place. -/
def stackedClasses (stack : List SyntaxTree) : List ClassShape :=
  match stack with
  | [] => []
  | node d cs :: rest => namedClass (node d cs) ++ stackedClasses (cs ++ rest)
termination_by sizeOfAll stack
decreasing_by simp only [sizeOfAll_append, sizeOfAll, size]; omega

/-- The first named class of a tree. -/
def firstClass? (t : SyntaxTree) : Option ClassShape := (stackedClasses [t]).head?

end SyntaxTree
end ClassAtlas
