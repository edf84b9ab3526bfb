import ClassAtlas.Files.Tree
/-!
# Log records and sinks

Records are told by level and by the name of the logger they come from. A sink takes the records of
its level and above.
-/
namespace ClassAtlas

structure LogRecord where
  level : Int
  logger : String
  message : String
deriving DecidableEq, Repr

namespace LogRecord

def debug : Int := 10
def info : Int := 20
def warning : Int := 30

def levelName (n : Int) : String :=
  match [((0 : Int), "NOTSET"), (10, "DEBUG"), (20, "INFO"), (30, "WARNING"), (40, "ERROR"),
    (50, "CRITICAL")].lookup n with
  | some name => name
  | none => "Level " ++ Int.repr n

def rootName : String := "umlgen"

/-- The full name of a logger; without a name of its own it is the root. -/
def loggerName : Option String → String
  | some name => if name = "" then rootName else rootName ++ "." ++ name
  | none => rootName

end LogRecord

/-- Where records go. An open file is known by its place; it is lost when something else is put
there or it is removed. -/
inductive Sink where
  | console (level : Int)
  | file (level : Int) (place : Option Location)
deriving DecidableEq, Repr

def Sink.level : Sink → Int
  | console n => n
  | file n _ => n

/-- How records are passed on. Level 0 stands for a logger that is not set up. -/
structure Logging where
  level : Int
  propagate : Bool
  sinks : List Sink
deriving DecidableEq, Repr

namespace Logging

def unset : Logging := ⟨0, true, []⟩

/-- The level below which records go nowhere; a logger that is not set up passes warnings. -/
def threshold (l : Logging) : Int := if l.level = 0 then LogRecord.warning else l.level

/-- The sinks that take a record of a level. -/
def sinksFor (l : Logging) (level : Int) : List Sink :=
  if level < l.threshold then [] else l.sinks.filter fun s => s.level ≤ level

def mapPlaces (f : Location → Option Location) (l : Logging) : Logging :=
  { l with sinks := l.sinks.map fun
      | .console n => .console n
      | .file n place => .file n (place.bind f) }

/-- The files at places that satisfy `p` are gone. -/
def lose (l : Logging) (p : Location → Bool) : Logging :=
  l.mapPlaces fun place => if p place then none else some place

/-- The file at `source` has taken the place of what was at `target`. -/
def move (l : Logging) (source target : Location) : Logging :=
  l.mapPlaces fun place =>
    if place = source then some target else if place = target then none else some place

end Logging
end ClassAtlas
