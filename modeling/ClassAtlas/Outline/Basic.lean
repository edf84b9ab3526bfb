/-!
# Class outlines

What is known of the class that stands for a file: its name, what it extends and implements, and
its methods.
-/
namespace ClassAtlas

structure Method where
  name : String
  visibility : String := "public"
  kind : String := "method"
deriving DecidableEq, Repr

structure Outline where
  className : String
  parents : List String
  interfaces : List String
  methods : List Method
deriving DecidableEq, Repr

namespace Outline

/-- The outline of a file in which no class is found. -/
def bare (className : String) : Outline := ⟨className, [], [], []⟩

end Outline
end ClassAtlas
