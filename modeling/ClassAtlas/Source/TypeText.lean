import ClassAtlas.Source.Literal
/-!
# Types in source texts

Types hold no class declarations, so a reader of types only finds where a type ends.
-/
namespace ClassAtlas.Source

/-- Words in front of a type that belong to it. -/
def typeLeads : List String :=
  ["keyof", "unique", "readonly", "infer", "typeof", "asserts", "abstract", "new"]

/-- Whether a type may begin here. -/
def startsType (cs : List Char) : Bool :=
  match cs with
  | [] => false
  | c :: _ =>
    startsWord c || isDigit c || ['(', '[', '\x7b', '<', '\'', '"', '-', '\\', '|', '&'].contains c ||
      c.toNat = 96

/-- Whether a bracketed text that begins here holds parameters: it is empty, it begins with dots, or
its first part is followed by a mark that only parameters have. -/
def holdsParameters (cs : List Char) : Bool :=
  match skip (cs.drop 1) with
  | ')' :: _ => true
  | '.' :: '.' :: '.' :: _ => true
  | inside =>
    let first :=
      match inside with
      | '\x7b' :: _ => afterBrackets? inside
      | '[' :: _ => afterBrackets? inside
      | _ => if (word inside).isEmpty then none else some (inside.drop (word inside).length)
    match first.map skip with
    | some (':' :: _) => true
    | some (',' :: _) => true
    | some ('?' :: _) => true
    | some ('=' :: _) => true
    | some (')' :: rest) => (skip rest).take 2 == ['=', '>']
    | _ => false

mutual
/-- What is left after a type. -/
def afterType? : Nat → List Char → Option (List Char)
  | 0, _ => none
  | fuel + 1, cs =>
    match skip cs with
    | '|' :: rest => afterType? fuel rest
    | '&' :: rest => afterType? fuel rest
    | cs =>
      match afterTypeOperand? fuel cs with
      | none => none
      | some rest => afterTypeMore? fuel rest
/-- What is left after an operand of a type, which begins at the front. -/
def afterTypeOperand? : Nat → List Char → Option (List Char)
  | 0, _ => none
  | fuel + 1, cs =>
    match cs with
    | [] => none
    | '(' :: _ =>
      match afterBrackets? cs with
      | none => none
      | some rest =>
        if holdsParameters cs then
          match skip rest with
          | '=' :: '>' :: result => afterType? fuel result
          | _ => some rest
        else some rest
    | '<' :: _ =>
      match afterBrackets? cs with
      | none => none
      | some rest => afterTypeOperand? fuel (skip rest)
    | '-' :: rest => afterTypeOperand? fuel (skip rest)
    | c :: _ =>
      if isDigit c then some (afterNumber cs)
      else if (closing? c).isSome then afterBrackets? cs
      else
        let w := word cs
        if w.isEmpty then none
        else
          let rest := cs.drop w.length
          let next := skip rest
          if typeLeads.contains (String.ofList w) && !lineEnds rest && startsType next then
            match afterTypeOperand? fuel next with
            | some done => some done
            | none => some rest
          else if w == "import".toList && next.head? == some '(' then afterBrackets? next
          else some rest
/-- What is left after the parts that go on with a type. -/
def afterTypeMore? : Nat → List Char → Option (List Char)
  | 0, cs => some cs
  | fuel + 1, cs =>
    let next := skip cs
    match next with
    | '.' :: rest =>
      let w := word (skip rest)
      if w.isEmpty then some cs else afterTypeMore? fuel ((skip rest).drop w.length)
    | '<' :: _ =>
      match afterBrackets? next with
      | some rest => afterTypeMore? fuel rest
      | none => some cs
    | '[' :: _ =>
      if lineEnds cs then some cs
      else match afterBrackets? next with
        | some rest => afterTypeMore? fuel rest
        | none => some cs
    | '|' :: rest => if rest.head? == some '|' then some cs else afterType? fuel rest
    | '&' :: rest => if rest.head? == some '&' then some cs else afterType? fuel rest
    | _ =>
      if lineEnds cs then some cs
      else
        let w := word next
        if w == "is".toList then afterType? fuel (next.drop 2)
        else if w == "extends".toList then
          match afterType? fuel (next.drop 7) with
          | none => some cs
          | some condition =>
            match skip condition with
            | '?' :: yes =>
              match afterType? fuel yes with
              | none => none
              | some rest =>
                match skip rest with
                | ':' :: no => afterType? fuel no
                | _ => none
            | _ => some cs
        else some cs
end

/-- What is left after the type at the front. -/
def afterTypeText? (cs : List Char) : Option (List Char) := afterType? (2 * cs.length + 4) cs

/-- What is left after a type, or all of the text when none begins here. -/
def afterTypeText (cs : List Char) : List Char := (afterTypeText? cs).getD cs

/-- What is left after types with commas between them, the last of which a bracket closes. -/
def afterTypeList? : Nat → List Char → Option (List Char)
  | 0, _ => none
  | fuel + 1, cs =>
    match skip cs with
    | '>' :: rest => some rest
    | cs =>
      match afterTypeText? cs with
      | none => none
      | some rest =>
        match skip rest with
        | ',' :: more => afterTypeList? fuel more
        | '>' :: more => some more
        | _ => none

/-- What is left after the type arguments that the text begins with. -/
def afterTypeArguments? (cs : List Char) : Option (List Char) :=
  match cs with
  | '<' :: rest => afterTypeList? (rest.length + 1) rest
  | _ => none

/-- Whether what follows type arguments shows that they were none of a comparison: a call, a
template, the end of the expression, or an operator that takes no operand after it. -/
def mayFollowTypeArguments (cs : List Char) : Bool :=
  match skip cs with
  | [] => true
  | c :: rest =>
    if c = '(' ∨ c.toNat = 96 then true
    else if lineEnds cs then true
    else if c = '+' ∨ c = '-' ∨ c = '<' ∨ c = '>' ∨ c = '!' then (c = '!' && rest.head? == some '=')
    else
      [')', ']', ':', ';', ',', '.', '?', '=', '\x7d', '*', '%', '^', '|', '&'].contains c ||
        (["in", "instanceof", "as", "satisfies"].contains (String.ofList (word (c :: rest))))

end ClassAtlas.Source
