import ClassAtlas.Source.Tree
import ClassAtlas.Source.Words
/-!
# Reading source texts

A source text is read as far as it takes to tell class declarations from class expressions and to
know the members of classes. An expression is a chain of operands with operators between them; their
binding does not matter. Where the text is not well formed the reader drops what it cannot use and
goes on.

Every reader takes a measure of the steps that are left and returns the nodes that it read with what
is left of the text.
-/
namespace ClassAtlas.Source

/-- What a reader returns. `closed` says that what was read ends with its closing bracket. -/
structure Read where
  trees : List SyntaxTree
  rest : List Char
  closed : Bool

/-- What a class extends and implements. -/
structure Heritage where
  parents : List (List Char)
  interfaces : List (List Char)
  trees : List SyntaxTree
  rest : List Char

/-- The members of a class body. -/
structure ClassBody where
  members : List ClassMember
  trees : List SyntaxTree
  rest : List Char
  closed : Bool

/-- What one step in a class body reads. -/
structure MemberRead where
  member : Option ClassMember
  trees : List SyntaxTree
  rest : List Char

/-- Prepends nodes to what was read. -/
def Read.after (trees : List SyntaxTree) (r : Read) : Read := { r with trees := trees ++ r.trees }

/-- The nodes inside a class that is a value and declares nothing. -/
def innerTrees : List SyntaxTree → List SyntaxTree
  | [.node _ inner] => inner
  | trees => trees

variable (d : Dialect)

mutual
/-- Statements up to a closing brace, which is left, or to the end. -/
def statements : Nat → List Char → Read
  | 0, cs => ⟨[], cs, false⟩
  | n + 1, cs =>
    match skipLead cs with
    | [] => ⟨[], [], false⟩
    | '\x7d' :: rest => ⟨[], '\x7d' :: rest, true⟩
    | cs =>
      let first := statement n cs
      (statements n first.rest).after first.trees

/-- A block in braces. -/
def block : Nat → List Char → Read
  | 0, cs => ⟨[], cs, false⟩
  | n + 1, cs =>
    match cs with
    | '\x7b' :: inside =>
      let r := statements n inside
      match r.rest with
      | '\x7d' :: rest => ⟨[.node none r.trees], rest, true⟩
      | rest => ⟨[.node none r.trees], rest, false⟩
    | _ => ⟨[], cs, false⟩

/-- One statement, or the words that begin one. -/
def statement : Nat → List Char → Read
  | 0, cs => ⟨[], cs, false⟩
  | n + 1, cs =>
    match cs with
    | '\x7b' :: _ => block n cs
    | ';' :: rest => ⟨[], rest, true⟩
    | '@' :: _ => decorated n [] cs
    | _ =>
      let w := word cs
      let rest := cs.drop w.length
      if w.isEmpty then expressionStatement n .statement cs
      else wordStatement n (String.ofList w) cs rest

/-- A statement that begins with a word; `rest` is what comes after it. -/
def wordStatement : Nat → String → List Char → List Char → Read
  | 0, _, cs, _ => ⟨[], cs, false⟩
  | n + 1, w, cs, rest =>
    let typed := d.isTyped
    let online := wordOnLine rest
    let next := skip rest
    match w with
    | "class" => classLike n [] rest
    | "abstract" =>
      if typed && online == "class".toList then classLike n [] (next.drop 5)
      else expressionStatement n .statement cs
    | "export" => exported n rest
    | "import" =>
      match next with
      | '(' :: _ => expressionStatement n .statement cs
      | '.' :: _ => expressionStatement n .statement cs
      | _ => ⟨[], afterImport rest.length rest, true⟩
    | "function" => function n rest
    | "async" =>
      if online == "function".toList then function n (next.drop 8)
      else expressionStatement n .statement cs
    | "if" | "for" | "while" | "with" | "switch" | "catch" =>
      let next := if word next == "await".toList then skip (next.drop 5) else next
      match next with
      | '(' :: inside => items n ')' inside
      | _ => ⟨[], rest, true⟩
    | "else" | "try" | "finally" | "do" => ⟨[], rest, true⟩
    | "default" =>
      match next with
      | ':' :: more => ⟨[], more, true⟩
      | _ => ⟨[], rest, true⟩
    | "case" =>
      match expression n .statement rest with
      | none => ⟨[], rest, true⟩
      | some r =>
        match skip r.rest with
        | ':' :: more => ⟨r.trees, more, true⟩
        | _ => r
    | "return" | "throw" =>
      if lineEnds rest then ⟨[], rest, true⟩
      else (expression n .statement rest).getD ⟨[], rest, true⟩
    | "break" | "continue" | "debugger" =>
      ⟨[], if online.isEmpty then rest else next.drop online.length, true⟩
    | "var" => (expression n .binding rest).getD ⟨[], rest, true⟩
    | "const" =>
      if typed && online == "enum".toList then ⟨[], rest, true⟩
      else (expression n .binding rest).getD ⟨[], rest, true⟩
    | "let" | "using" =>
      let binds := match next with
        | '[' :: _ => w == "let"
        | '\x7b' :: _ => w == "let"
        | _ => !(word next).isEmpty && !(["in", "instanceof", "of"].contains (String.ofList (word next))) &&
          (w == "let" || !online.isEmpty)
      if binds then (expression n .binding rest).getD ⟨[], rest, true⟩
      else expressionStatement n .statement cs
    | _ =>
      match next with
      | ':' :: more => ⟨[], more, true⟩
      | _ =>
        if typed && !online.isEmpty then typedStatement n w cs rest
        else if typed && w == "global" && next.head? == some '\x7b' then ⟨[], rest, true⟩
        else if typed && (w == "module" || w == "namespace") && !lineEnds rest &&
            (next.head? == some '"' || next.head? == some '\'') then ⟨[], afterString next, true⟩
        else expressionStatement n .statement cs

/-- A statement of a typed dialect that begins with two words on one line. -/
def typedStatement : Nat → String → List Char → List Char → Read
  | 0, _, cs, _ => ⟨[], cs, false⟩
  | n + 1, w, cs, rest =>
    let next := skip rest
    let name := word next
    let after := next.drop name.length
    match w with
    | "interface" => ⟨[], afterInterface rest, true⟩
    | "type" =>
      match skip after with
      | '=' :: _ | '<' :: _ =>
        match skip (afterNextBrackets '<' after) with
        | '=' :: more => ⟨[], afterTypeText more, true⟩
        | _ => ⟨[], after, true⟩
      | _ => expressionStatement n .statement cs
    | "enum" =>
      match skip after with
      | '\x7b' :: inside => object n inside
      | _ => ⟨[], after, true⟩
    | "namespace" | "module" => ⟨[], afterDotted after.length after, true⟩
    | "declare" => ⟨[], rest, true⟩
    | _ => expressionStatement n .statement cs

/-- What follows the word that exports. -/
def exported : Nat → List Char → Read
  | 0, cs => ⟨[], cs, false⟩
  | n + 1, cs =>
    let next := skip cs
    match next with
    | '\x7b' :: _ => ⟨[], afterFrom ((afterBrackets? next).getD (next.drop 1)), true⟩
    | '*' :: rest => ⟨[], afterImport rest.length rest, true⟩
    | '=' :: rest => (expression n .statement rest).getD ⟨[], rest, true⟩
    | _ =>
      let w := String.ofList (word next)
      let rest := next.drop w.length
      let more := skip rest
      if w == "default" then
        let v := String.ofList (word more)
        if more.head? == some '@' || ["class", "abstract", "function", "interface"].contains v then
          ⟨[], rest, true⟩
        else if v == "async" && wordOnLine (more.drop 5) == "function".toList then ⟨[], rest, true⟩
        else (expression n .statement rest).getD ⟨[], rest, true⟩
      else if w == "as" then
        let more := skip (more.drop (word more).length)
        ⟨[], more.drop (word more).length, true⟩
      else if w == "type" then
        match more with
        | '\x7b' :: _ => ⟨[], afterFrom ((afterBrackets? more).getD (more.drop 1)), true⟩
        | '*' :: rest => ⟨[], afterImport rest.length rest, true⟩
        | _ => ⟨[], cs, true⟩
      else ⟨[], cs, true⟩

/-- Decorators and the class that they stand before, if one follows. -/
def decorated : Nat → List SyntaxTree → List Char → Read
  | 0, trees, cs => ⟨trees, cs, false⟩
  | n + 1, trees, cs =>
    let next := skip cs
    match next with
    | '@' :: rest =>
      let r := decorator n rest
      decorated n (trees ++ r.trees) r.rest
    | _ =>
      let w := word next
      let rest := next.drop w.length
      if w == "class".toList then classLike n trees rest
      else if d.isTyped && w == "abstract".toList && wordOnLine rest == "class".toList then
        classLike n trees ((skip rest).drop 5)
      else ⟨trees, cs, true⟩

/-- A decorator after its mark: a dotted name with arguments, or an expression in brackets. -/
def decorator : Nat → List Char → Read
  | 0, cs => ⟨[], cs, false⟩
  | n + 1, cs =>
    match skip cs with
    | '(' :: inside => items n ')' inside
    | next =>
      let named := if word next == "class".toList then next else next.drop (word next).length
      let rest := afterDotted next.length named
      let rest := match skip rest with
        | '<' :: more =>
          match afterTypeArguments? ('<' :: more) with
          | some after => if d.isTyped && nextIs '(' after then after else rest
          | none => rest
        | _ => rest
      match skip rest with
      | '(' :: inside => items n ')' inside
      | _ => ⟨[], rest, true⟩

/-- An expression as a statement; what begins none is dropped. -/
def expressionStatement : Nat → Context → List Char → Read
  | 0, _, cs => ⟨[], cs, false⟩
  | n + 1, context, cs =>
    match expression n context cs with
    | some r => r
    | none => ⟨[], cs.drop (max 1 (word cs).length), true⟩

/-- A class after the word for it: name, heritage and body. Without a closing brace it counts as
a declaration only if a member of it is complete. -/
def classLike : Nat → List SyntaxTree → List Char → Read
  | 0, trees, cs => ⟨trees, cs, false⟩
  | n + 1, trees, cs =>
    let next := skip cs
    let w := word next
    let named := !w.isEmpty && w != "extends".toList &&
      !(d.isTyped && w == "implements".toList && startsName (skip (next.drop w.length)))
    let rest := if named then next.drop w.length else cs
    let rest := if d.isTyped then afterNextBrackets '<' rest else rest
    let h := heritage n rest
    match skip (afterStrayWords h.rest h.rest.length h.rest) with
    | '\x7b' :: inside =>
      let body := classBody n inside
      let shape : ClassShape :=
        ⟨if named then some w else none, h.parents, h.interfaces, body.members⟩
      let inner := trees ++ h.trees ++ body.trees
      if body.closed || !body.members.isEmpty then ⟨[.node (some shape) inner], body.rest, true⟩
      else ⟨inner, body.rest, true⟩
    | _ => ⟨trees ++ h.trees, h.rest, true⟩

/-- The clauses between the name and the body of a class. -/
def heritage : Nat → List Char → Heritage
  | 0, cs => ⟨[], [], [], cs⟩
  | n + 1, cs =>
    let next := skip cs
    let w := word next
    let rest := next.drop w.length
    if w == "extends".toList then
      let start := skip rest
      match expression n .parent start with
      | none => ⟨[], [], [], rest⟩
      | some r =>
        let others := otherParents n (if d.isTyped then afterNextBrackets '<' r.rest else r.rest)
        let h := heritage n others.rest
        { h with parents := readUpTo start r.rest :: h.parents
                 trees := r.trees ++ others.trees ++ h.trees }
    else if d.isTyped && w == "implements".toList then
      let (texts, rest) := interfaces n rest
      let h := heritage n rest
      { h with interfaces := texts ++ h.interfaces }
    else ⟨[], [], [], cs⟩

/-- Further values of a clause, each after a comma. -/
def otherParents : Nat → List Char → Read
  | 0, cs => ⟨[], cs, false⟩
  | n + 1, cs =>
    match skip cs with
    | ',' :: rest =>
      match expression n .parent rest with
      | none => ⟨[], rest, true⟩
      | some r => (otherParents n (if d.isTyped then afterNextBrackets '<' r.rest else r.rest)).after r.trees
    | _ => ⟨[], cs, true⟩

/-- The texts of the types that a class implements. -/
def interfaces : Nat → List Char → List (List Char) × List Char
  | 0, cs => ([], cs)
  | n + 1, cs =>
    let start := skip cs
    match afterTypeText? start with
    | none => ([], cs)
    | some rest =>
      match skip rest with
      | ',' :: more =>
        let (texts, last) := interfaces n more
        (readUpTo start rest :: texts, last)
      | _ => ([readUpTo start rest], rest)

/-- The members of a class after its opening brace. -/
def classBody : Nat → List Char → ClassBody
  | 0, cs => ⟨[], [], cs, false⟩
  | n + 1, cs =>
    match skipLead cs with
    | [] => ⟨[], [], [], false⟩
    | '\x7d' :: rest => ⟨[], [], rest, true⟩
    | ';' :: rest => classBody n rest
    | cs =>
      let m := classMember n false cs
      let more := classBody n m.rest
      { more with members := m.member.toList ++ more.members, trees := m.trees ++ more.trees }

/-- One member, or a decorator in front of one. `accessor` says that it gets or sets a value. -/
def classMember : Nat → Bool → List Char → MemberRead
  | 0, _, cs => ⟨none, [], cs⟩
  | n + 1, accessor, cs =>
    match cs with
    | '@' :: rest =>
      let r := decorator n rest
      ⟨none, r.trees, r.rest⟩
    | '*' :: rest => classMember n accessor (skip rest)
    | _ =>
      let w := word cs
      let rest := cs.drop w.length
      let next := skip rest
      if (memberLeads d.isTyped).contains (String.ofList w) && w == "static".toList &&
          next.head? == some '\x7b' then
        let r := block n next
        ⟨none, r.trees, r.rest⟩
      else if (memberLeads d.isTyped).contains (String.ofList w) && startsName next &&
          !(lineEnds rest && (d.isTyped || !goesOn next)) then
        classMember n (accessor || w == "get".toList || w == "set".toList) next
      else
        let (trees, afterName) := memberName n cs
        let name := readUpTo cs afterName
        if name.isEmpty then
          let r := block n cs
          ⟨none, trees ++ r.trees, if r.rest.length < cs.length then r.rest else cs.drop 1⟩
        else
          let tail := match skip afterName with
            | '?' :: more => if d.isTyped then more else afterName
            | '!' :: more => if d.isTyped then more else afterName
            | _ => afterName
          let tail := if d.isTyped then afterNextBrackets '<' tail else tail
          match skip tail with
          | '(' :: _ =>
            let r := functionTail n tail
            let kind := if accessor then MemberKind.accessor else MemberKind.method
            ⟨if r.closed then some ⟨kind, name⟩ else none, trees ++ r.trees, r.rest⟩
          | _ =>
            let tail := match skip tail with
              | ':' :: more => if d.isTyped then afterTypeText more else tail
              | _ => tail
            match skip tail with
            | '=' :: more =>
              match expression n .initializer more with
              | some r => ⟨some ⟨.other, name⟩, trees ++ r.trees, r.rest⟩
              | none => ⟨some ⟨.other, name⟩, trees, more⟩
            | _ => ⟨some ⟨.other, name⟩, trees, tail⟩

/-- The name of a member; what is left equals the text when there is none. -/
def memberName : Nat → List Char → List SyntaxTree × List Char
  | 0, cs => ([], cs)
  | n + 1, cs =>
    match cs with
    | [] => ([], cs)
    | '[' :: inside =>
      let r := items n ']' inside
      (r.trees, r.rest)
    | '#' :: rest => ([], rest.drop (word rest).length)
    | c :: rest =>
      if c = '\'' ∨ c = '"' then ([], afterQuote c rest)
      else if isDigit c || (c == '.' && rest.head?.any isDigit) then ([], afterNumber cs)
      else ([], cs.drop (word cs).length)

/-- A function after the word for it. -/
def function : Nat → List Char → Read
  | 0, cs => ⟨[], cs, false⟩
  | n + 1, cs =>
    let next := skip cs
    let next := match next with
      | '*' :: rest => skip rest
      | _ => next
    functionTail n (next.drop (word next).length)

/-- Parameters, result type and body of a function. A body may be missing. -/
def functionTail : Nat → List Char → Read
  | 0, cs => ⟨[], cs, false⟩
  | n + 1, cs =>
    let cs := if d.isTyped then afterNextBrackets '<' cs else cs
    match skip cs with
    | '(' :: inside =>
      let p := items n ')' inside
      if !p.closed then p
      else
        let rest := match skip p.rest with
          | ':' :: more => afterTypeText more
          | _ => p.rest
        match skip rest with
        | '\x7b' :: more => (block n ('\x7b' :: more)).after p.trees
        | _ => ⟨p.trees, if d.isTyped then rest else p.rest, d.isTyped⟩
    | _ => ⟨[], cs, false⟩

/-- Expressions up to a closing bracket, with or without commas between them. -/
def items : Nat → Char → List Char → Read
  | 0, _, cs => ⟨[], cs, false⟩
  | n + 1, close, cs =>
    match skipLead cs with
    | [] => ⟨[], [], false⟩
    | c :: rest =>
      if c = close then ⟨[], rest, true⟩
      else if c = ',' ∨ c = ';' then items n close rest
      else if c = ')' ∨ c = ']' ∨ c = '\x7d' then ⟨[], c :: rest, false⟩
      else
        let w := word (c :: rest)
        let afterWord := (c :: rest).drop w.length
        if ["const", "let", "var", "of"].contains (String.ofList w) && startsOperand (skip afterWord) then
          items n close afterWord
        else
          match expression n (if d.isTyped then .parameter else .item) (c :: rest) with
          | some r => (items n close r.rest).after r.trees
          | none => items n close ((c :: rest).drop (max 1 w.length))

/-- The members of an object after its opening brace. -/
def object : Nat → List Char → Read
  | 0, cs => ⟨[], cs, false⟩
  | n + 1, cs =>
    match skipLead cs with
    | [] => ⟨[], [], false⟩
    | '\x7d' :: rest => ⟨[], rest, true⟩
    | ',' :: rest => object n rest
    | '*' :: rest => object n rest
    | '.' :: '.' :: '.' :: rest =>
      match expression n .item rest with
      | some r => (object n r.rest).after r.trees
      | none => object n rest
    | cs =>
      let w := word cs
      let afterWord := cs.drop w.length
      if ["get", "set", "async", "static"].contains (String.ofList w) && startsName (skip afterWord) then
        object n afterWord
      else
        let (trees, rest) := memberName n cs
        if rest.length = cs.length then
          if cs.head? == some ')' || cs.head? == some ']' then ⟨trees, cs, false⟩
          else object n (cs.drop 1)
        else
          match skip rest with
          | '(' :: _ =>
            let r := functionTail n rest
            (object n r.rest).after (trees ++ r.trees)
          | '<' :: _ =>
            let r := functionTail n rest
            if r.closed then (object n r.rest).after (trees ++ r.trees)
            else (object n ((skip rest).drop 1)).after trees
          | ':' :: more | '=' :: more =>
            match expression n .item more with
            | some r => (object n r.rest).after (trees ++ r.trees)
            | none => (object n more).after trees
          | _ => (object n rest).after trees

/-- The text and the values of a template after its opening mark. -/
def template : Nat → List Char → Read
  | 0, cs => ⟨[], cs, false⟩
  | n + 1, cs =>
    match templateText cs with
    | '$' :: '\x7b' :: inside =>
      let r := items n '\x7d' inside
      (template n r.rest).after r.trees
    | _ :: rest => ⟨[], rest, false⟩
    | [] => ⟨[], [], false⟩

/-- A markup element after its opening bracket. -/
def element : Nat → List Char → Read
  | 0, cs => ⟨[], cs, false⟩
  | n + 1, cs =>
    match skip cs with
    | '>' :: rest => elementChildren n rest
    | next =>
      let rest := afterMarkupName next
      attributes n (if d.isTyped then afterNextBrackets '<' rest else rest)

/-- The attributes of an element and what comes after them. -/
def attributes : Nat → List Char → Read
  | 0, cs => ⟨[], cs, false⟩
  | n + 1, cs =>
    match skip cs with
    | [] => ⟨[], [], false⟩
    | '/' :: rest =>
      match skip rest with
      | '>' :: more => ⟨[], more, false⟩
      | _ => attributes n rest
    | '>' :: rest => elementChildren n rest
    | '\x7b' :: inside =>
      let r := items n '\x7d' inside
      (attributes n r.rest).after r.trees
    | '<' :: inside =>
      let r := element n inside
      (attributes n r.rest).after r.trees
    | '=' :: rest => attributes n rest
    | c :: rest =>
      if c = '\'' ∨ c = '"' then attributes n ((rest.dropWhile (· != c)).drop 1)
      else
        let after := afterMarkupName (c :: rest)
        attributes n (if after.length = rest.length + 1 then rest else after)

/-- The texts, values and elements inside an element, and its closing tag. -/
def elementChildren : Nat → List Char → Read
  | 0, cs => ⟨[], cs, false⟩
  | n + 1, cs =>
    match markupText cs with
    | '\x7b' :: inside =>
      let r := items n '\x7d' inside
      (elementChildren n r.rest).after r.trees
    | '<' :: rest =>
      match skip rest with
      | '/' :: more => ⟨[], (more.dropWhile (· != '>')).drop 1, false⟩
      | _ =>
        let r := element n rest
        (elementChildren n r.rest).after r.trees
    | _ => ⟨[], [], false⟩

/-- An expression; none when no operand begins the text. -/
def expression : Nat → Context → List Char → Option Read
  | 0, _, _ => none
  | n + 1, context, cs =>
    match operand n (skipLead cs) with
    | none => none
    | some r => some (operators n context 0 r)

/-- An operand with the operators in front of it. It counts as closed when it ends with a round
bracket. -/
def operand : Nat → List Char → Option Read
  | 0, _ => none
  | n + 1, cs =>
    match cs with
    | [] => none
    | '(' :: inside =>
      let r := items n ')' inside
      some ⟨r.trees, r.rest, true⟩
    | '[' :: inside =>
      let r := items n ']' inside
      some ⟨r.trees, r.rest, false⟩
    | '\x7b' :: inside =>
      let r := object n inside
      some ⟨[.node none r.trees], r.rest, false⟩
    | '/' :: rest => some ⟨[], afterPattern false rest, false⟩
    | '.' :: '.' :: '.' :: rest => operandAfter n rest
    | '.' :: c :: rest => if isDigit c then some ⟨[], afterNumber ('.' :: c :: rest), false⟩ else none
    | '!' :: rest => operandAfter n rest
    | '~' :: rest => operandAfter n rest
    | '+' :: rest => operandAfter n rest
    | '-' :: rest => operandAfter n rest
    | '@' :: _ =>
      let r := decorated n [] cs
      if r.rest.length < cs.length then some ⟨[.node none (innerTrees r.trees)], r.rest, false⟩ else none
    | '#' :: rest =>
      let w := word rest
      if w.isEmpty then none else some ⟨[], rest.drop w.length, false⟩
    | '<' :: rest =>
      if d.hasMarkup && !(d.isTyped && opensTypeParameters cs) then
        let r := element n rest
        some ⟨r.trees, r.rest, false⟩
      else if d.isTyped then
        match afterBrackets? cs with
        | some more => operandAfter n more
        | none => none
      else none
    | c :: rest =>
      if c = '\'' ∨ c = '"' then some ⟨[], afterQuote c rest, false⟩
      else if c.toNat = 96 then
        let r := template n rest
        some ⟨r.trees, r.rest, false⟩
      else if isDigit c then some ⟨[], afterNumber cs, false⟩
      else
        let w := word cs
        if w.isEmpty then none else wordOperand n (String.ofList w) (cs.drop w.length)

/-- The operand after an operator in front of it. It may be missing. -/
def operandAfter : Nat → List Char → Option Read
  | 0, cs => some ⟨[], cs, false⟩
  | n + 1, cs =>
    match operand n (skipLead cs) with
    | some r => some r
    | none => some ⟨[], cs, false⟩

/-- An operand that begins with a word; `rest` is what comes after it. -/
def wordOperand : Nat → String → List Char → Option Read
  | 0, _, rest => some ⟨[], rest, false⟩
  | n + 1, w, rest =>
    let next := skip rest
    let name : Option Read := some ⟨[], rest, false⟩
    if reserved.contains w then none
    else if w == "function" then
      let r := function n rest
      some ⟨r.trees, r.rest, false⟩
    else if w == "class" then
      let r := classLike n [] rest
      some ⟨[.node none (innerTrees r.trees)], r.rest, false⟩
    else if w == "async" then
      let online := wordOnLine rest
      if online == "function".toList then
        let r := function n (next.drop 8)
        some ⟨r.trees, r.rest, false⟩
      else if !online.isEmpty && !reserved.contains (String.ofList online) &&
          !(["of", "as", "satisfies"].contains (String.ofList online)) then operandAfter n rest
      else name
    else if w == "yield" then
      if lineEnds rest then name
      else
        match next with
        | '*' :: more => operandAfter n more
        | _ => if startsOperand next then operandAfter n rest else name
    else if operandLeads.contains w then
      if startsOperand next then operandAfter n rest else name
    else name

/-- The operators after an operand and the operands that they ask for. `choices` counts the
conditions whose second branch is still to come. -/
def operators : Nat → Context → Nat → Read → Read
  | 0, _, _, r => r
  | n + 1, context, choices, r =>
    let cs := r.rest
    let next := skip cs
    let broken := lineEnds cs
    if broken && context.lines && !goesOn next then r
    else
      match next with
      | [] => r
      | '=' :: '>' :: rest =>
        match skip rest with
        | '\x7b' :: more =>
          let b := block n ('\x7b' :: more)
          operators n context choices ⟨r.trees ++ b.trees, b.rest, false⟩
        | _ => operandThen n context choices r.trees rest
      | '?' :: '.' :: c :: rest =>
        if isDigit c then operandThen n context (choices + 1) r.trees ('.' :: c :: rest)
        else memberAccess n context choices r (c :: rest)
      | '?' :: '?' :: _ => binary n context choices r next
      | '?' :: rest =>
        let more := skip rest
        if d.isTyped && (more.head?.any fun c => c == ':' || c == ',' || c == ')' || c == '=') then
          operators n context choices ⟨r.trees, rest, false⟩
        else operandThen n context (choices + 1) r.trees rest
      | '.' :: rest => memberAccess n context choices r rest
      | '(' :: inside =>
        let a := items n ')' inside
        operators n context choices ⟨r.trees ++ a.trees, a.rest, true⟩
      | '[' :: inside =>
        let a := items n ']' inside
        operators n context choices ⟨r.trees ++ a.trees, a.rest, false⟩
      | '+' :: '+' :: rest => if broken then r else operators n context choices ⟨r.trees, rest, false⟩
      | '-' :: '-' :: rest => if broken then r else operators n context choices ⟨r.trees, rest, false⟩
      | ',' :: rest => if context.commas then operandThen n context choices r.trees rest else r
      | ':' :: rest =>
        match if d.isTyped && r.closed then afterTypeText? rest else none with
        | some more =>
          match skip more with
          | '=' :: '>' :: _ => operators n context choices ⟨r.trees, more, false⟩
          | _ => colon n context choices r rest
        | none => colon n context choices r rest
      | '!' :: rest =>
        if rest.head? == some '=' then binary n context choices r next
        else if d.isTyped then operators n context choices ⟨r.trees, rest, false⟩
        else r
      | '<' :: _ =>
        match if d.isTyped then afterTypeArguments? next else none with
        | some rest =>
          if context.heritage then
            if (skip rest).head?.any fun c => c == '(' || c == '.' || c == '[' || c == '!' || c.toNat = 96 then
              operators n context choices ⟨r.trees, rest, false⟩
            else r
          else if mayFollowTypeArguments rest then operators n context choices ⟨r.trees, rest, false⟩
          else binary n context choices r next
        | none => binary n context choices r next
      | c :: rest =>
        if c.toNat = 96 then
          let t := template n rest
          operators n context choices ⟨r.trees ++ t.trees, t.rest, false⟩
        else
          let w := String.ofList (word next)
          if w == "in" || w == "instanceof" then
            operandThen n context choices r.trees (next.drop w.length)
          else if d.isTyped && (w == "as" || w == "satisfies") && !(broken && context.lines) then
            match afterTypeText? (next.drop w.length) with
            | some more => operators n context choices ⟨r.trees, more, false⟩
            | none => r
          else binary n context choices r next

/-- An operand and the operators after it. -/
def operandThen : Nat → Context → Nat → List SyntaxTree → List Char → Read
  | 0, _, _, trees, cs => ⟨trees, cs, false⟩
  | n + 1, context, choices, trees, cs =>
    match operand n (skipLead cs) with
    | some r => operators n context choices (r.after trees)
    | none => ⟨trees, cs, false⟩

/-- An operator between two operands, if one comes next. -/
def binary : Nat → Context → Nat → Read → List Char → Read
  | 0, _, _, r, _ => r
  | n + 1, context, choices, r, next =>
    match afterBinaryOperator? next with
    | some rest => operandThen n context choices r.trees rest
    | none => r

/-- A colon: the second branch of a condition, a type, or the end. -/
def colon : Nat → Context → Nat → Read → List Char → Read
  | 0, _, _, r, _ => r
  | n + 1, context, choices, r, rest =>
    match choices with
    | k + 1 => operandThen n context k r.trees rest
    | 0 =>
      if d.isTyped && context.types then
        match afterTypeText? rest with
        | some more => operators n context 0 ⟨r.trees, more, false⟩
        | none => r
      else r

/-- The member after a dot. -/
def memberAccess : Nat → Context → Nat → Read → List Char → Read
  | 0, _, _, r, _ => r
  | n + 1, context, choices, r, rest =>
    let next := skip rest
    let named := match next with
      | '#' :: more => more.drop (word more).length
      | _ => next.drop (word next).length
    operators n context choices ⟨r.trees, named, false⟩
end

/-- Drops a first line that names an interpreter. -/
def afterInterpreter (cs : List Char) : List Char :=
  match cs with
  | '#' :: '!' :: rest => rest.dropWhile fun c => !endsLine c
  | _ => cs

/-- The nodes of a text. A closing brace without an opening one is dropped. -/
def program (steps : Nat) : Nat → List Char → List SyntaxTree
  | 0, _ => []
  | n + 1, cs =>
    let r := statements d steps cs
    match r.rest with
    | _ :: rest => r.trees ++ program steps n rest
    | [] => r.trees

/-- The tree of a source text. The steps are enough, since few readers in a row leave the text as it
is. -/
def read (text : List Char) : SyntaxTree :=
  let cs := afterInterpreter text
  .node none (program d (16 * cs.length + 64) (cs.length + 1) cs)

end ClassAtlas.Source
