/-!
# Sets of code points as runs

A set of code points is written as the lengths of its runs, outside and inside by turns, which
keeps a table of a character property short.
-/
namespace ClassAtlas.Text

/-- Walks the runs; `inside` says whether the run at the front belongs to the set. -/
def memRunsFrom (inside : Bool) : List Nat → Nat → Bool
  | [], _ => false
  | k :: ks, n => if n < k then inside else memRunsFrom (!inside) ks (n - k)

/-- Membership of `n` in the set whose first run lies outside it. -/
def memRuns (runs : List Nat) (n : Nat) : Bool := memRunsFrom false runs n

end ClassAtlas.Text
