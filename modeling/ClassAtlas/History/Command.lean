import ClassAtlas.Number.Shortest
import ClassAtlas.Text.Quoted
import ClassAtlas.Text.Utf8
/-!
# Version control commands

What is asked of the version control program, and the ways in which a command can fail.
-/
namespace ClassAtlas

/-- A time limit in seconds. -/
inductive Seconds where
  | whole (n : Int)
  | real (x : Binary64)
deriving DecidableEq, Repr

def Seconds.text : Seconds → String
  | whole n => Int.repr n
  | real x => x.render

structure Command where
  args : List String
  limit : Option Seconds
deriving DecidableEq, Repr

def Command.limitText (c : Command) : String := (c.limit.map Seconds.text).getD "None"

inductive CommandFault where
  | exitStatus (status : Nat)
  | timedOut
  | notText (fault : Utf8.Fault)
  | notFound
  | notPermitted
  | badValue (text : String)
  | broken (text : String)
deriving DecidableEq, Repr

namespace CommandFault

def message (command : Command) : CommandFault → String
  | exitStatus n =>
    "Command '" ++ Text.quotedList command.args ++ "' returned non-zero exit status " ++ Nat.repr n ++ "."
  | timedOut =>
    "Command '" ++ Text.quotedList command.args ++ "' timed out after " ++ command.limitText ++ " seconds"
  | notText fault => fault.message
  | notFound => "[Errno 2] No such file or directory: 'git'"
  | notPermitted => "[Errno 13] Permission denied: 'git'"
  | badValue text => text
  | broken text => text

/-- Whether the fault lies in starting the program or in how it ended. -/
def isRunFault : CommandFault → Bool
  | exitStatus _ | timedOut | notFound | notPermitted => true
  | _ => false

/-- Whether the fault is one that a query of history puts up with. -/
def isTolerated : CommandFault → Bool
  | broken _ => false
  | _ => true

end CommandFault
end ClassAtlas
