import ClassAtlas.Source.TypeText
/-!
# Words and operators with a meaning of their own
-/
namespace ClassAtlas.Source

/-- Words that begin no operand. -/
def reserved : List String :=
  ["if", "for", "while", "do", "switch", "try", "return", "throw", "break", "continue", "var",
    "const", "case", "default", "else", "catch", "finally", "with", "debugger", "export", "extends",
    "in", "instanceof"]

/-- Words that are followed by an operand. -/
def operandLeads : List String := ["new", "typeof", "void", "delete", "await"]

/-- Words in front of the name of a class member. -/
def memberLeads (typed : Bool) : List String :=
  ["static", "async", "get", "set", "accessor"] ++
    if typed then ["public", "private", "protected", "override", "readonly", "abstract", "declare"]
    else []

/-- Operators between two operands, the longer ones first. -/
def binaryOperators : List (List Char) :=
  [">>>=", "===", "!==", "**=", "<<=", ">>=", ">>>", "&&=", "||=", "??=", "==", "!=", "<=", ">=",
    "&&", "||", "??", "**", "<<", ">>", "+=", "-=", "*=", "/=", "%=", "&=", "|=", "^=", "<", ">",
    "+", "-", "*", "/", "%", "&", "|", "^", "="].map String.toList

def afterBinaryOperator? (cs : List Char) : Option (List Char) :=
  (binaryOperators.find? fun op => op.isPrefixOf cs).map fun op => cs.drop op.length

/-- Whether a word, a literal, a bracket or an operator in front of an operand comes first. -/
def startsOperand (cs : List Char) : Bool :=
  match cs with
  | [] => false
  | '.' :: c :: _ => isDigit c || c == '.'
  | c :: _ =>
    startsWord c || isDigit c || c.toNat = 96 ||
      ['(', '[', '\x7b', '\'', '"', '/', '<', '+', '-', '!', '~', '#', '@', '\\'].contains c

def startsName (cs : List Char) : Bool :=
  match cs with
  | [] => false
  | '.' :: c :: _ => isDigit c
  | c :: _ => startsWord c || isDigit c || ['[', '\'', '"', '#', '*', '\\'].contains c

/-- Whether an expression goes on with what begins a new line. -/
def goesOn (cs : List Char) : Bool :=
  match cs with
  | [] => false
  | '.' :: rest => !(rest.head?.any isDigit)
  | '+' :: rest => rest.head? != some '+'
  | '-' :: rest => rest.head? != some '-'
  | '!' :: rest => rest.head? == some '='
  | c :: _ =>
    c.toNat = 96 || [',', ':', ';', '*', '%', '>', '<', '=', '[', '(', '?', '^', '|', '&', '/'].contains c ||
      ["in", "instanceof"].contains (String.ofList (word cs))

/-- How an expression may end. -/
structure Context where
  /-- A comma goes on with it. -/
  commas : Bool
  /-- The end of a line may end it. -/
  lines : Bool
  /-- A colon begins a type. -/
  types : Bool
  /-- It names what a class extends. -/
  heritage : Bool
deriving DecidableEq, Repr

namespace Context

def statement : Context := ⟨true, true, false, false⟩
def binding : Context := ⟨true, true, true, false⟩
def item : Context := ⟨false, false, false, false⟩
def parameter : Context := ⟨false, false, true, false⟩
def initializer : Context := ⟨false, true, false, false⟩
def parent : Context := ⟨false, false, false, true⟩

end Context

/-- What is left after the string at the front. -/
def afterString (cs : List Char) : List Char :=
  match cs with
  | q :: rest => afterQuote q rest
  | [] => []

/-- What is left after the bracket that comes next, if one does. -/
def afterNextBrackets (opening : Char) (cs : List Char) : List Char :=
  let next := skip cs
  if next.head? == some opening then (afterBrackets? next).getD cs else cs

/-- What is left after the names and the place of an import. -/
def afterImport : Nat → List Char → List Char
  | 0, cs => cs
  | fuel + 1, cs =>
    match skip cs with
    | [] => []
    | c :: rest =>
      if c = ',' ∨ c = '*' then afterImport fuel rest
      else if c = '\x7b' then
        match afterBrackets? (c :: rest) with
        | some more => afterImport fuel more
        | none => rest
      else if c = '\'' ∨ c = '"' then afterQuote c rest
      else
        let w := word (c :: rest)
        if w.isEmpty || reserved.contains (String.ofList w) || w == "class".toList then cs
        else afterImport fuel ((c :: rest).drop w.length)

/-- What is left after the place that names come from, if it is given. -/
def afterFrom (cs : List Char) : List Char :=
  let next := skip cs
  if word next == "from".toList then
    match skip (next.drop 4) with
    | q :: rest => if q = '\'' ∨ q = '"' then afterQuote q rest else cs
    | [] => cs
  else cs

/-- What is left after types with commas between them. -/
def afterTypes : Nat → List Char → List Char
  | 0, cs => cs
  | fuel + 1, cs =>
    match afterTypeText? cs with
    | none => cs
    | some rest =>
      match skip rest with
      | ',' :: more => afterTypes fuel more
      | _ => rest

/-- What is left after an interface, from its name on. -/
def afterInterface (cs : List Char) : List Char :=
  let next := skip cs
  let rest := afterNextBrackets '<' (next.drop (word next).length)
  let heir := skip rest
  let rest := if word heir == "extends".toList then afterTypes heir.length (heir.drop 7) else rest
  afterNextBrackets '\x7b' rest

/-- What is left after a dotted name. -/
def afterDotted : Nat → List Char → List Char
  | 0, cs => cs
  | fuel + 1, cs =>
    match skip cs with
    | '.' :: rest =>
      let next := skip rest
      afterDotted fuel (next.drop (word next).length)
    | _ => cs

/-- What is left after names, dots and commas that stand where an opening brace should, if the brace
comes then. -/
def afterStrayWords (cs : List Char) : Nat → List Char → List Char
  | 0, _ => cs
  | fuel + 1, rest =>
    let next := skip rest
    match next with
    | '\x7b' :: _ => next
    | '.' :: more | ',' :: more => afterStrayWords cs fuel more
    | _ =>
      let w := word next
      if w.isEmpty || reserved.contains (String.ofList w) then cs
      else afterStrayWords cs fuel (next.drop w.length)

/-- The text of a template up to its end or to the next value in it. -/
def templateText : List Char → List Char
  | [] => []
  | '\\' :: _ :: cs => templateText cs
  | '$' :: '\x7b' :: cs => '$' :: '\x7b' :: cs
  | c :: cs => if c.toNat = 96 then c :: cs else templateText cs

/-- Markup text up to the next element or value in it. -/
def markupText (cs : List Char) : List Char := cs.dropWhile fun c => c != '<' && c != '\x7b'

/-- The name of an element or attribute in markup. -/
def afterMarkupName (cs : List Char) : List Char :=
  cs.dropWhile fun c => inWord c || c == '-' || c == ':' || c == '.'

/-- Whether bracketed parameters come next, perhaps with a result type, and then an arrow. -/
def arrowFollows (cs : List Char) : Bool :=
  let next := skip cs
  if next.head? == some '(' then
    match (afterBrackets? next).map skip with
    | some ('=' :: '>' :: _) => true
    | some (':' :: rest) => ((afterTypeText? rest).map skip).any fun more => more.take 2 == ['=', '>']
    | _ => false
  else false

/-- Whether an angle bracket in front of an operand opens type parameters and not an element. -/
def opensTypeParameters (cs : List Char) : Bool :=
  let next := skip (cs.drop 1)
  let w := word next
  let rest := skip (next.drop w.length)
  if w.isEmpty then false
  else if w == "const".toList && !(word rest).isEmpty then true
  else
    rest.head? == some ',' ||
      (word rest == "extends".toList &&
        !((skip (rest.drop 7)).head?.any fun c => c == '=' || c == '>' || c == '/')) ||
      (rest.head? == some '>' && arrowFollows (rest.drop 1))

end ClassAtlas.Source
