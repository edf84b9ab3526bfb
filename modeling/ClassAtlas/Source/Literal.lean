import ClassAtlas.Source.Chars
/-!
# Literals and brackets of source texts
-/
namespace ClassAtlas.Source

/-- What is left after a quoted text. A line end that is not escaped breaks it off. -/
def afterQuote (quote : Char) : List Char → List Char
  | [] => []
  | '\\' :: '\r' :: '\n' :: cs => afterQuote quote cs
  | '\\' :: _ :: cs => afterQuote quote cs
  | c :: cs => if c = quote then cs else if c = '\n' then c :: cs else afterQuote quote cs

/-- What is left after a regular expression; `inClass` says whether a class of characters is open. -/
def afterPattern (inClass : Bool) : List Char → List Char
  | [] => []
  | '\\' :: '\n' :: cs => '\n' :: cs
  | '\\' :: _ :: cs => afterPattern inClass cs
  | c :: cs =>
    if c = '\n' then c :: cs
    else if inClass then afterPattern (c != ']') cs
    else if c = '[' then afterPattern true cs
    else if c = '/' then cs.dropWhile inWord
    else afterPattern false cs

/-- What is left after a number. -/
def afterNumber (cs : List Char) : List Char :=
  let exponent (cs : List Char) : List Char :=
    match cs with
    | e :: sign :: d :: rest =>
      if (e = 'e' ∨ e = 'E') ∧ (sign = '+' ∨ sign = '-') ∧ isDigit d then d :: rest else cs
    | _ => cs
  match cs with
  | '0' :: x :: rest =>
    if ['x', 'X', 'b', 'B', 'o', 'O'].contains x then rest.dropWhile inWord
    else decimal exponent cs
  | _ => decimal exponent cs
where
  inDecimal (c : Char) : Bool := isDigit c || c == '_'
  decimal (exponent : List Char → List Char) (cs : List Char) : List Char :=
    let rest := cs.dropWhile inDecimal
    let rest := match rest with
      | '.' :: more => more.dropWhile inDecimal
      | _ => rest
    (exponent rest).dropWhile inWord

/-- What is open while brackets are passed over. -/
inductive Open where
  | bracket (close : Char)
  | quote (close : Char)
  | lineComment
  | blockComment
deriving DecidableEq, Repr

def closing? : Char → Option Open
  | '(' => some (.bracket ')')
  | '[' => some (.bracket ']')
  | '\x7b' => some (.bracket '\x7d')
  | '<' => some (.bracket '>')
  | '\'' => some (.quote '\'')
  | '"' => some (.quote '"')
  | c => if c.toNat = 96 then some (.quote c) else none

/-- Passes over the text of types up to where everything that is open is closed. An arrow closes no
angle bracket, and a template text may hold types in braces. -/
def afterOpen : List Open → List Char → Option (List Char)
  | [], cs => some cs
  | _ :: _, [] => none
  | .lineComment :: stack, c :: cs =>
    afterOpen (if endsLine c || c == '\r' then stack else .lineComment :: stack) cs
  | .blockComment :: stack, '*' :: '/' :: cs => afterOpen stack cs
  | .blockComment :: stack, _ :: cs => afterOpen (.blockComment :: stack) cs
  | .quote close :: stack, '\\' :: _ :: cs => afterOpen (.quote close :: stack) cs
  | .quote close :: stack, '$' :: '\x7b' :: cs =>
    afterOpen (if close.toNat = 96 then .bracket '\x7d' :: .quote close :: stack
      else .quote close :: stack) cs
  | .quote close :: stack, c :: cs =>
    afterOpen (if c = close then stack else .quote close :: stack) cs
  | .bracket close :: stack, '/' :: '/' :: cs => afterOpen (.lineComment :: .bracket close :: stack) cs
  | .bracket close :: stack, '/' :: '*' :: cs => afterOpen (.blockComment :: .bracket close :: stack) cs
  | .bracket close :: stack, '=' :: '>' :: cs => afterOpen (.bracket close :: stack) cs
  | .bracket close :: stack, c :: cs =>
    if c = close then afterOpen stack cs
    else
      match closing? c with
      | some inner => afterOpen (inner :: .bracket close :: stack) cs
      | none =>
        if c = ')' ∨ c = ']' ∨ c = '\x7d' then none else afterOpen (.bracket close :: stack) cs

/-- What is left after the bracket or quote that the text begins with. -/
def afterBrackets? (cs : List Char) : Option (List Char) :=
  match cs with
  | [] => none
  | c :: rest => (closing? c).bind fun o => afterOpen [o] rest

end ClassAtlas.Source
