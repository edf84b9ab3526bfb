import ClassAtlas.CommandLine.Options
import ClassAtlas.Number.Numeral
import ClassAtlas.Text.Split
/-!
# Reading arguments

Options and other arguments may come in any order. A long option may be cut short as long as one
option only begins so, and its value may follow after an equals sign; short options may be joined,
with the value of the last one behind it. Everything after two hyphens is no option, and neither are
negative numbers. What is read takes effect in the order of the arguments, so that the first fault
or call for help counts.
-/
namespace ClassAtlas.CommandLine

/-- One thing that was given. -/
inductive Given where
  | verbose
  | logFile (path : String)
  | output (path : String)
  | included (patterns : List String)
  | excluded (patterns : List String)
  | host (name : String)
  | port (n : Int)
  | path (text : String)
  | command (l : Level)
deriving DecidableEq, Repr

inductive Misuse where
  | ambiguous (argument : String) (matching : List String)
  | valueMissing (o : Choice)
  | valueIgnored (o : Choice) (value : String)
  | notWhole (o : Choice) (value : String)
  | unknownCommand (name : String)
  | commandMissing
  | unrecognized (arguments : List String)
deriving DecidableEq, Repr

def Misuse.message : Misuse → String
  | ambiguous argument matching =>
    "ambiguous option: " ++ argument ++ " could match " ++ ", ".intercalate matching
  | valueMissing o => "argument " ++ o.shown ++ ": expected one argument"
  | valueIgnored o value =>
    "argument " ++ o.shown ++ ": ignored explicit argument " ++ Text.quoted value
  | notWhole o value => "argument " ++ o.shown ++ ": invalid int value: " ++ Text.quoted value
  | unknownCommand name =>
    "argument command: invalid choice: " ++ Text.quoted name ++ " (choose from 'generate', 'serve')"
  | commandMissing => "the following arguments are required: command"
  | unrecognized arguments => "unrecognized arguments: " ++ " ".intercalate arguments

/-- What ends the reading before its end. -/
inductive Stop where
  | help (l : Level)
  | misuse (l : Level) (m : Misuse)
deriving DecidableEq, Repr

abbrev Reading (α : Type) := Except Stop α

/-- A value that stands in the same argument as its option, and whether an equals sign is between. -/
structure Joined where
  equals : Bool
  value : String
deriving DecidableEq, Repr

/-- An argument by its kind. An option that is not known has no choice. -/
inductive Argument where
  | plain (text : String)
  | separator
  | option (text : String) (choice : Option (Choice × Bool × Option Joined))
deriving DecidableEq, Repr

namespace Argument

def text : Argument → String
  | plain s => s
  | separator => "--"
  | option s _ => s

def isOption : Argument → Bool
  | option .. => true
  | _ => false

def separatorText : List Char := ['-', '-']

/-- Whether a name is one of a single hyphen. -/
def isShort (name : String) : Bool := !separatorText.isPrefixOf name.toList

/-- What comes before the first equals sign and what comes after it. -/
def splitEquals (cs : List Char) : List Char × Option (List Char) :=
  match cs.dropWhile (· != '=') with
  | [] => (cs, none)
  | _ :: value => (cs.takeWhile (· != '='), some value)

/-- The options that a long argument may be cut short from. -/
def longMatches (l : Level) (cs : List Char) : List (String × Choice × Option Joined) :=
  let (name, value) := splitEquals cs
  (l.table.filter fun (n, _) => name.isPrefixOf n.toList).map fun (n, o) =>
    (n, o, value.map fun v => ⟨true, String.ofList v⟩)

/-- The options that a short argument may begin with. -/
def shortMatches (l : Level) (cs : List Char) : List (String × Choice × Option Joined) :=
  l.table.filterMap fun (n, o) =>
    if n.toList = cs.take 2 then some (n, o, some ⟨false, String.ofList (cs.drop 2)⟩)
    else if cs.isPrefixOf n.toList then some (n, o, none)
    else none

def matchesOf (l : Level) (cs : List Char) : List (String × Choice × Option Joined) :=
  if separatorText.isPrefixOf cs then longMatches l cs else shortMatches l cs

def isDigit (c : Char) : Bool := (Text.digitValue? c).isSome

/-- A hyphen and digits, perhaps with a point in front of the last of them. -/
def isNegativeNumber (cs : List Char) : Bool :=
  match cs with
  | '-' :: body =>
    let body := if body.getLast? = some '\n' then body.dropLast else body
    (!body.isEmpty && body.all isDigit) ||
      (match body.dropWhile isDigit with
        | '.' :: d :: ds => isDigit d && ds.all isDigit
        | _ => false)
  | _ => false

/-- The kind of an argument. -/
def ofString (l : Level) (s : String) : Reading Argument :=
  let cs := s.toList
  if cs.head? != some '-' then .ok (.plain s)
  else
    match l.table.lookup s with
    | some o => .ok (.option s (some (o, isShort s, none)))
    | none =>
      if cs.length = 1 then .ok (.plain s)
      else
        let (name, value) := splitEquals cs
        let name := String.ofList name
        match l.table.lookup name, value with
        | some o, some v => .ok (.option s (some (o, isShort name, some ⟨true, String.ofList v⟩)))
        | _, _ =>
          match matchesOf l cs with
          | [(n, o, joined)] => .ok (.option s (some (o, isShort n, joined)))
          | [] =>
            if isNegativeNumber cs || cs.contains ' ' then .ok (.plain s) else .ok (.option s none)
          | several => .error (.misuse l (.ambiguous s (several.map (·.1))))

/-- The kinds of all arguments. After two hyphens there are no options. -/
def ofStrings (l : Level) : List String → Reading (List Argument)
  | [] => .ok []
  | s :: rest =>
    if s = "--" then .ok (.separator :: rest.map .plain)
    else do return (← ofString l s) :: (← ofStrings l rest)

end Argument

/-- What was read so far, and what nothing was found for. -/
structure Progress where
  given : List Given
  extras : List String
  /-- Whether an argument that is no option is still awaited. -/
  open_ : Bool
deriving Repr

namespace Progress

def give (p : Progress) (g : Given) : Progress := { p with given := p.given ++ [g] }
def leave (p : Progress) (texts : List String) : Progress := { p with extras := p.extras ++ texts }

/-- An option without a value takes effect. -/
def flag (l : Level) (p : Progress) : Choice → Reading Progress
  | .help => .error (.help l)
  | _ => .ok (p.give .verbose)

/-- An option with a value takes effect. -/
def valued (l : Level) (p : Progress) (o : Choice) (value : String) : Reading Progress :=
  match o with
  | .help | .verbose => .ok p
  | .logFile => .ok (p.give (.logFile value))
  | .output => .ok (p.give (.output value))
  | .included => .ok (p.give (.included (Text.commaParts value)))
  | .excluded => .ok (p.give (.excluded (Text.commaParts value)))
  | .host => .ok (p.give (.host value))
  | .port =>
    match Numeral.whole 10 value.toList with
    | .ok n => .ok (p.give (.port n))
    | .error _ => .error (.misuse l (.notWhole o value))

end Progress

/-- What joined short options ask for: options without a value, and what ends them. -/
inductive Ending where
  | nothing
  /-- An option that takes its value from here. -/
  | value (o : Choice) (value : String)
  /-- An option that takes its value from the next argument. -/
  | pending (o : Choice)
  | unknown (text : String)

/-- Takes short options apart; `o` is the one in front and `joined` what is behind it. -/
def joinedFlags (l : Level) : Nat → Choice → Bool → Option Joined → Reading (List Choice × Ending)
  | 0, _, _, _ => .ok ([], .nothing)
  | fuel + 1, o, short, joined =>
    match joined with
    | none => if o.takesValue then .ok ([], .pending o) else .ok ([o], .nothing)
    | some j =>
      if o.takesValue then .ok ([], .value o j.value)
      else
        match j.value.toList with
        | [] => .error (.misuse l (.valueIgnored o j.value))
        | c :: rest =>
          if !short || j.equals || c = '-' then .error (.misuse l (.valueIgnored o j.value))
          else
            match l.table.lookup (String.ofList ['-', c]) with
            | none => .ok ([o], .unknown (String.ofList ('-' :: c :: rest)))
            | some next =>
              let more : Option Joined := match rest with
                | [] => none
                | '=' :: value => some ⟨true, String.ofList value⟩
                | _ => some ⟨false, String.ofList rest⟩
              (joinedFlags l fuel next true more).map fun (flags, ending) => (o :: flags, ending)

/-- Reads one option with its value; gives the arguments after it. -/
def readOption (l : Level) (p : Progress) (text : String)
    (choice : Option (Choice × Bool × Option Joined)) (rest : List Argument) :
    Reading (Progress × List Argument) :=
  match choice with
  | none => .ok (p.leave [text], rest)
  | some (o, short, joined) => do
    let (flags, ending) ← joinedFlags l (text.length + 1) o short joined
    match ending with
    | .nothing => return (← flags.foldlM (Progress.flag l) p, rest)
    | .unknown left =>
      let p := p.leave [left]
      return (← flags.foldlM (Progress.flag l) p, rest)
    | .value o value => return (← (← flags.foldlM (Progress.flag l) p).valued l o value, rest)
    | .pending o =>
      match rest with
      | .plain value :: rest => return (← (← flags.foldlM (Progress.flag l) p).valued l o value, rest)
      | _ => .error (.misuse l (.valueMissing o))

def skipSeparators (args : List Argument) : List Argument := args.dropWhile (· == .separator)

/-- Reads the path of a project, if there is one in front; separators around it are dropped. -/
def readPath (p : Progress) (args : List Argument) : Progress × List Argument :=
  match skipSeparators args with
  | .plain text :: rest => ({ p with open_ := false }.give (.path text), skipSeparators rest)
  | rest => ({ p with open_ := false }, rest)

/-- Reads the options and arguments behind a command. -/
def readRest (l : Level) : Nat → Progress → List Argument → Reading Progress
  | 0, p, _ => .ok p
  | fuel + 1, p, args =>
    match args with
    | .option text choice :: rest => do
      let (p, rest) ← readOption l p text choice rest
      readRest l fuel p rest
    | [] => .ok p
    | _ =>
      if p.open_ then
        let (p, rest) := readPath p args
        readRest l fuel p rest
      else
        let left := args.takeWhile fun a => !a.isOption
        readRest l fuel (p.leave (left.map Argument.text)) (args.drop left.length)

/-- Reads what comes behind a command. -/
def readCommand (l : Level) (args : List String) : Reading Progress := do
  let args ← Argument.ofStrings l args
  readRest l (args.length + 1) ⟨[], [], l == .generate⟩ args

/-- Reads the options in front of a command, and the command with all that follows it. -/
def readProgram : Nat → Progress → List Argument → Reading Progress
  | 0, p, _ => .ok p
  | fuel + 1, p, args =>
    match args with
    | .option text choice :: rest => do
      let (p, rest) ← readOption .program p text choice rest
      readProgram fuel p rest
    | .plain name :: rest =>
      match Level.command? name with
      | none => .error (.misuse .program (.unknownCommand name))
      | some l => do
        let behind ← readCommand l (rest.map Argument.text)
        return ⟨p.given ++ .command l :: behind.given, p.extras ++ behind.extras, false⟩
    | .separator :: _ :: _ => .error (.misuse .program (.unknownCommand "--"))
    | [.separator] => .ok (p.leave ["--"])
    | [] => .ok p

/-- All that the arguments give, in order. -/
def read (args : List String) : Reading (List Given) := do
  let args ← Argument.ofStrings .program args
  let p ← readProgram (args.length + 1) ⟨[], [], true⟩ args
  if p.open_ then .error (.misuse .program .commandMissing)
  else if !p.extras.isEmpty then .error (.misuse .program (.unrecognized p.extras))
  else return p.given

/-- What a command is to do. -/
inductive Task where
  | generate (path : String) (output : Option String) (included excluded : Option (List String))
  | serve (host : String) (port : Int)
deriving DecidableEq, Repr

structure Invocation where
  verbose : Bool
  logFile : Option String
  task : Task
deriving DecidableEq, Repr

/-- The last of the things given that `p` finds something in. -/
def last? {α : Type} (p : Given → Option α) (given : List Given) : Option α :=
  (given.filterMap p).getLast?

/-- Of several values of one option the last counts. -/
def Invocation.ofGiven (given : List Given) : Invocation where
  verbose := given.contains .verbose
  logFile := last? (fun | .logFile s => some s | _ => none) given
  task :=
    if given.contains (.command .serve) then
      .serve ((last? (fun | .host s => some s | _ => none) given).getD "127.0.0.1")
        ((last? (fun | .port n => some n | _ => none) given).getD 8000)
    else
      .generate ((last? (fun | .path s => some s | _ => none) given).getD ".")
        (last? (fun | .output s => some s | _ => none) given)
        (last? (fun | .included ps => some ps | _ => none) given)
        (last? (fun | .excluded ps => some ps | _ => none) given)

/-- The invocation that the arguments spell. -/
def Invocation.ofArguments (args : List String) : Reading Invocation :=
  (read args).map Invocation.ofGiven

end ClassAtlas.CommandLine
