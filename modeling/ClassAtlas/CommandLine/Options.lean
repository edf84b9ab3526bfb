/-!
# Options of the command line

The program has options of its own and two commands with more. An option has a long name, perhaps a
short one, and perhaps a value.
-/
namespace ClassAtlas.CommandLine

/-- Where options stand: in front of the command or behind it. -/
inductive Level where
  | program
  | generate
  | serve
deriving DecidableEq, Repr

inductive Choice where
  | help
  | verbose
  | logFile
  | output
  | included
  | excluded
  | host
  | port
deriving DecidableEq, Repr

namespace Choice

def long : Choice → String
  | help => "--help"
  | verbose => "--verbose"
  | logFile => "--log-file"
  | output => "--output"
  | included => "--include"
  | excluded => "--exclude"
  | host => "--host"
  | port => "--port"

def short? : Choice → Option String
  | help => some "-h"
  | verbose => some "-v"
  | output => some "-o"
  | _ => none

def takesValue : Choice → Bool
  | help | verbose => false
  | _ => true

/-- The names of an option, the short one first. -/
def names (o : Choice) : List String := o.short?.toList ++ [o.long]

/-- How messages call an option. -/
def shown (o : Choice) : String := "/".intercalate o.names

end Choice

namespace Level

def choices : Level → List Choice
  | program => [.help, .verbose, .logFile]
  | generate => [.help, .verbose, .logFile, .output, .included, .excluded]
  | serve => [.help, .verbose, .logFile, .host, .port]

/-- All names of options with the options they stand for. -/
def table (l : Level) : List (String × Choice) :=
  l.choices.flatMap fun o => o.names.map fun n => (n, o)

def command? : String → Option Level
  | "generate" => some .generate
  | "serve" => some .serve
  | _ => none

/-- The words that begin a command of a level. -/
def title : Level → String
  | program => "umlgen"
  | generate => "umlgen generate"
  | serve => "umlgen serve"

def usage : Level → String
  | program => "usage: umlgen [-h] [-v] [--log-file LOG_FILE] \x7bgenerate,serve\x7d ...\n"
  | generate =>
    "usage: umlgen generate [-h] [-v] [--log-file LOG_FILE] [-o OUTPUT]\n" ++
    "                       [--include INCLUDE] [--exclude EXCLUDE]\n" ++
    "                       [path]\n"
  | serve =>
    "usage: umlgen serve [-h] [-v] [--log-file LOG_FILE] [--host HOST]\n" ++
    "                    [--port PORT]\n"

def description : Level → String
  | program =>
    "\nGenerate UML JSON snapshots of JavaScript/TypeScript codebases for 3D\nvisualization.\n" ++
    "\npositional arguments:\n" ++
    "  \x7bgenerate,serve\x7d\n" ++
    "    generate           Analyze a local directory or Git URL and write the UML\n" ++
    "                       snapshot.\n" ++
    "    serve              Run the HTTP service exposing snapshot generation.\n"
  | generate =>
    "\npositional arguments:\n" ++
    "  path                  Project directory or repository URL (defaults to\n" ++
    "                        current directory).\n"
  | serve => ""

def sharedHelp : String :=
  "  -h, --help           show this help message and exit\n" ++
  "  -v, --verbose        Increase log verbosity for troubleshooting.\n" ++
  "  --log-file LOG_FILE  Also write log records to this file.\n"

def optionHelp : Level → String
  | program => sharedHelp
  | generate =>
    "  -h, --help            show this help message and exit\n" ++
    "  -v, --verbose         Increase log verbosity for troubleshooting.\n" ++
    "  --log-file LOG_FILE   Also write log records to this file.\n" ++
    "  -o OUTPUT, --output OUTPUT\n" ++
    "                        Output JSON file path (defaults to <project>-uml.json\n" ++
    "                        in the current directory).\n" ++
    "  --include INCLUDE     Comma-separated path prefixes to include.\n" ++
    "  --exclude EXCLUDE     Comma-separated substrings to exclude.\n"
  | serve =>
    sharedHelp ++
    "  --host HOST          Interface to bind.\n" ++
    "  --port PORT          Port to listen on.\n"

def help (l : Level) : String :=
  l.usage ++ l.description ++ "\noptions:\n" ++ l.optionHelp

end Level
end ClassAtlas.CommandLine
