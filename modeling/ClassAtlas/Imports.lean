import ClassAtlas.Text.Pattern
import ClassAtlas.Text.Split
/-!
# Dependencies of a file

The names of the project's own modules that a text imports: of each import from a relative or an
absolute place, the last segment without its extension, in order of first mention.
-/
namespace ClassAtlas.Imports

open Text Pattern

def isQuote (c : Char) : Bool := c == '\'' || c == '"'

/-- Names in braces, up to the first closing one. -/
def braced : Pattern := char '{' ++ many1 (· != '}') ++ char '}'

def importPattern : Pattern :=
  word "import" ++ blanks1 ++
    opt (oneOf [braced, wordRun] (char '*' ++ blanks1 ++ word "as" ++ blanks1 ++ wordRun)) ++
    blanks ++ opt (char ',' ++ blanks ++ braced) ++ blanks ++ word "from" ++ blanks1 ++
    one isQuote ++ capture (many1 fun c => !isQuote c) ++ one isQuote

/-- Drops the last extension; dots at the front of a name begin none. -/
def dropExtension (name : List Char) : List Char :=
  if name.contains '.' then
    let ext := (name.reverse.takeWhile (· != '.')).reverse
    let base := name.take (name.length - ext.length - 1)
    if base.all (· == '.') then name else base
  else name

/-- The name of the module at a specifier. -/
def moduleName (specifier : List Char) : List Char :=
  let base := afterLast '/' (dropEndWhile (· == '/') specifier)
  dropExtension (if base.isEmpty then specifier else base)

def isLocal (specifier : List Char) : Bool :=
  match specifier with
  | c :: _ => c == '.' || c == '/'
  | [] => false

/-- Appends what is not yet there and not empty. -/
def addNew (names : List (List Char)) (name : List Char) : List (List Char) :=
  if name.isEmpty || names.contains name then names else names ++ [name]

def dependencies (text : List Char) : List String :=
  let specifiers := ((importPattern.findAll text).map (·.captured)).filter isLocal
  ((specifiers.map moduleName).foldl addNew []).map String.ofList

end ClassAtlas.Imports
