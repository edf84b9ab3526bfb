import ClassAtlas.Text.Pattern
import ClassAtlas.Text.Split
/-!
# Size and complexity of a file

The score of a text is the number of branching words in it, wherever they stand. The score puts
the file into a threat band.
-/
namespace ClassAtlas

inductive Threat where
  | low
  | moderate
  | high
  | critical
  /-- Marks names that the project uses and does not define. -/
  | external
deriving DecidableEq, Repr

namespace Threat

def name : Threat → String
  | low => "LOW"
  | moderate => "MODERATE"
  | high => "HIGH"
  | critical => "CRITICAL"
  | external => "EXTERNAL"

def color : Threat → String
  | low => "green"
  | moderate => "yellow"
  | high => "orange"
  | critical => "red"
  | external => "gray"

/-- The band of a score. -/
def ofScore (score : Int) : Threat :=
  if score > 15 then critical
  else if score > 10 then high
  else if score > 5 then moderate
  else low

end Threat

/-- The figures of one file. A band is kept by its name and colour. -/
structure Metrics where
  cyclomatic : Int
  cognitive : Int
  nesting : Int
  lines : Int
  methods : Int
  level : String
  color : String
  label : String
  suggestions : List String
deriving DecidableEq, Repr

namespace Complexity

open Text Pattern

def branchWords : List String := ["if", "else", "for", "while", "switch", "case", "catch"]

/-- A branching word that stands alone. -/
def branchPattern : Pattern :=
  wordEdge ++ oneOf ((branchWords.dropLast).map word) (word "catch") ++ wordEdge

/-- The number of branching words in a text. -/
def score (text : List Char) : Nat := (branchPattern.findAll text).length

/-- A line feed at the end begins one more line. -/
def countLines (text : List Char) : Nat := (splitOn '\n' text).length

end Complexity

namespace Metrics

def ofText (text : List Char) (methods : Int) : Metrics :=
  let score := Complexity.score text
  let threat := Threat.ofScore score
  { cyclomatic := score, cognitive := score, nesting := 0, lines := Complexity.countLines text,
    methods, level := threat.name, color := threat.color, label := threat.name, suggestions := [] }

/-- The figures given to a name that the project does not define. -/
def external : Metrics :=
  { cyclomatic := 0, cognitive := 0, nesting := 0, lines := 75, methods := 0,
    level := Threat.external.name, color := Threat.external.color, label := "External Library",
    suggestions := [] }

end Metrics
end ClassAtlas
