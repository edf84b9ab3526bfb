import ClassAtlas.Outline.Basic
import ClassAtlas.Proofs.Source.Blanks
/-!
# Printed classes

A class declaration of a typed dialect with its heritage and its members, and the text it is printed
as. Names and literals carry what makes them well formed, so every declaration has a text that may
stand in a source file. Bodies are empty and the values of fields are literals.
-/
namespace ClassAtlas.Source

/-- The words that no name is spelled like: reserved words, words with a meaning in some places,
names of predefined types, and the word for constructors. -/
def keywords : List String :=
  -- reserved
  ["break", "case", "catch", "class", "const", "continue", "debugger", "default", "delete", "do",
    "else", "enum", "export", "extends", "false", "finally", "for", "function", "if", "import", "in",
    "instanceof", "new", "null", "return", "super", "switch", "this", "throw", "true", "try", "typeof",
    "var", "void", "while", "with", "implements", "interface", "let", "package", "private",
    "protected", "public", "static", "yield",
    -- contextual
    "abstract", "accessor", "as", "asserts", "async", "await", "declare", "from", "get", "global",
    "infer", "is", "keyof", "module", "namespace", "of", "out", "override", "readonly", "require",
    "satisfies", "set", "type", "unique", "using",
    -- predefined types
    "any", "bigint", "boolean", "never", "number", "object", "string", "symbol", "undefined", "unknown",
    "constructor"]

structure Identifier where
  first : Letter
  more : List Letter
  starts : first.starts = true
  free : String.ofList (Letter.spell (first :: more)) ∉ keywords

def Identifier.text (i : Identifier) : List Char := Letter.spell (i.first :: i.more)

namespace Identifier

theorem spelled (i : Identifier) : Spelled i.text := spelled_spell i.starts i.more

theorem text_ne (i : Identifier) {w : String} (hw : w ∈ keywords) : i.text ≠ w.toList := by
  intro h
  have hfree := i.free
  rw [← text, h, String.ofList_toList] at hfree
  exact hfree hw

theorem notMem (i : Identifier) (words : List String) (h : ∀ w ∈ words, w ∈ keywords) :
    String.ofList i.text ∉ words :=
  fun hw => i.free (h _ hw)

end Identifier

/-- Names with dots between them. -/
structure DottedName where
  head : Identifier
  more : List Identifier

/-- Names with a dot in front of each. -/
def dottedText : List Identifier → List Char
  | [] => []
  | i :: is => '.' :: (i.text ++ dottedText is)

def DottedName.text (n : DottedName) : List Char := n.head.text ++ dottedText n.more

/-- A dotted name with type arguments, or none. -/
inductive TypeRef where
  | mk (name : DottedName) (arguments : List TypeRef)

namespace TypeRef

def name : TypeRef → DottedName
  | mk name _ => name

def arguments : TypeRef → List TypeRef
  | mk _ arguments => arguments

mutual
def text : TypeRef → List Char
  | mk name arguments => name.text ++ argumentsText arguments
/-- Type arguments in angle brackets. -/
def argumentsText : List TypeRef → List Char
  | [] => []
  | t :: ts => '<' :: (t.text ++ othersText ts)
/-- Further type arguments, each after a comma, and the closing bracket. -/
def othersText : List TypeRef → List Char
  | [] => ['>']
  | t :: ts => ',' :: ' ' :: (t.text ++ othersText ts)
end

theorem text_eq (t : TypeRef) : t.text = t.name.text ++ argumentsText t.arguments := by
  cases t
  rfl

end TypeRef

/-- Further types of a list, each after a comma. -/
def moreTypesText : List TypeRef → List Char
  | [] => []
  | t :: ts => ',' :: ' ' :: (t.text ++ moreTypesText ts)

/-- Digits; any but the first may come after a separator. -/
structure Digits (p : Char → Bool) where
  first : { c : Char // p c = true }
  more : List (Bool × { c : Char // p c = true })

def Digits.text {p : Char → Bool} (ds : Digits p) : List Char :=
  ds.first.val :: ds.more.flatMap fun d => if d.1 then ['_', d.2.val] else [d.2.val]

structure Fraction where
  digits : Option (Digits isDigit)

def Fraction.text (f : Fraction) : List Char := '.' :: f.digits.elim [] Digits.text

structure Exponent where
  mark : { c : Char // c ∈ ['e', 'E'] }
  sign : Option { c : Char // c ∈ ['+', '-'] }
  digits : Digits isDigit

def Exponent.text (e : Exponent) : List Char :=
  e.mark.val :: ((e.sign.elim [] fun s => [s.val]) ++ e.digits.text)

/-- The marks of the numbers that are not decimal. -/
def radixMarks : List Char := ['x', 'X', 'b', 'B', 'o', 'O']

/-- The digits of the numbers with a mark. -/
def inRadix (mark c : Char) : Bool :=
  if mark = 'b' ∨ mark = 'B' then c == '0' || c == '1'
  else if mark = 'o' ∨ mark = 'O' then '0' ≤ c && c ≤ '7'
  else isHexDigit c

/-- A number. The big ones end with a letter. -/
inductive Numeral where
  | decimal (whole : Digits isDigit) (fraction : Option Fraction) (exponent : Option Exponent)
  | pointed (fraction : Digits isDigit) (exponent : Option Exponent)
  | big (whole : Digits isDigit)
  | radix (mark : { c : Char // c ∈ radixMarks }) (digits : Digits (inRadix mark.val)) (isBig : Bool)

namespace Numeral

def text : Numeral → List Char
  | decimal whole fraction exponent =>
    whole.text ++ fraction.elim [] Fraction.text ++ exponent.elim [] Exponent.text
  | pointed fraction exponent => '.' :: (fraction.text ++ exponent.elim [] Exponent.text)
  | big whole => whole.text ++ ['n']
  | radix mark digits isBig => '0' :: mark.val :: (digits.text ++ if isBig then ['n'] else [])

end Numeral

/-- A part of a string in quotes: a character that stands for itself, or an escaped one. -/
inductive StringPart (quote : Char) where
  | plain (c : Char) (inside : c ≠ quote ∧ c ≠ '\\' ∧ c ≠ '\n' ∧ c ≠ '\r')
  | escaped (c : Char) (inside : c ≠ '\r')

def StringPart.text {quote : Char} : StringPart quote → List Char
  | plain c _ => [c]
  | escaped c _ => ['\\', c]

inductive Literal where
  | null
  | boolean (b : Bool)
  | number (n : Numeral)
  | string (quote : { c : Char // c ∈ ['\'', '"'] }) (parts : List (StringPart quote.val))

def Literal.text : Literal → List Char
  | null => "null".toList
  | boolean b => (if b then "true" else "false").toList
  | number n => n.text
  | string quote parts => quote.val :: (parts.flatMap StringPart.text ++ [quote.val])

inductive Member where
  | builder
  | getter (name : Identifier)
  | setter (name parameter : Identifier)
  | method (isStatic isAsync : Bool) (name : Identifier)
  | field (name : Identifier) (value : Option Literal)

namespace Member

/-- A word in front of the name of a member. -/
def leadText (word : String) : List Char := word.toList ++ [' ']

/-- A parameter, if there is one, and an empty body. -/
def tailText (parameter : Option Identifier) : List Char :=
  '(' :: (parameter.elim [] Identifier.text ++ ") \x7b\x7d".toList)

def text : Member → List Char
  | builder => "constructor".toList ++ tailText none
  | getter name => leadText "get" ++ (name.text ++ tailText none)
  | setter name parameter => leadText "set" ++ (name.text ++ tailText (some parameter))
  | method isStatic isAsync name =>
    (if isStatic then leadText "static" else []) ++
      ((if isAsync then leadText "async" else []) ++ (name.text ++ tailText none))
  | field name value => name.text ++ ((value.elim [] fun l => " = ".toList ++ l.text) ++ [';'])

theorem leadText_append (w : String) (cs : List Char) : leadText w ++ cs = w.toList ++ ' ' :: cs := by
  simp [leadText]

theorem text_getter (name : Identifier) :
    (getter name).text = leadText "get" ++ (name.text ++ tailText none) := rfl

theorem text_setter (name parameter : Identifier) :
    (setter name parameter).text = leadText "set" ++ (name.text ++ tailText (some parameter)) := rfl

theorem text_method (isStatic isAsync : Bool) (name : Identifier) :
    (method isStatic isAsync name).text =
    (if isStatic then leadText "static" else []) ++
      ((if isAsync then leadText "async" else []) ++ (name.text ++ tailText none)) := rfl

theorem text_field_none (name : Identifier) : (field name none).text = name.text ++ [';'] := rfl

theorem text_field_some (name : Identifier) (l : Literal) :
    (field name (some l)).text = name.text ++ ' ' :: '=' :: ' ' :: (l.text ++ [';']) := rfl

/-- The name of a method that is no accessor and not the constructor. -/
def methodName? : Member → Option String
  | method _ _ name => some (String.ofList name.text)
  | _ => none

end Member

/-- Members, each on a line of its own. -/
def membersText : List Member → List Char
  | [] => []
  | m :: ms => ' ' :: ' ' :: (m.text ++ '\n' :: membersText ms)

/-- The clause for the type that a class extends. -/
def extendsText : Option TypeRef → List Char
  | none => []
  | some t => " extends ".toList ++ t.text

/-- The clause for the types that a class implements. -/
def implementsText : List TypeRef → List Char
  | [] => []
  | t :: ts => " implements ".toList ++ (t.text ++ moreTypesText ts)

theorem extendsText_some (t : TypeRef) :
    extendsText (some t) = ' ' :: ("extends".toList ++ ' ' :: t.text) := rfl

@[simp] theorem implementsText_nil : implementsText [] = [] := rfl

theorem implementsText_cons (t : TypeRef) (ts : List TypeRef) : implementsText (t :: ts) =
    ' ' :: ("implements".toList ++ ' ' :: (t.text ++ moreTypesText ts)) := rfl

theorem spelled_export : Spelled "export".toList := spelled_of_isPlainWord (by decide)

theorem spelled_class : Spelled "class".toList := spelled_of_isPlainWord (by decide)

theorem spelled_extends : Spelled "extends".toList := spelled_of_isPlainWord (by decide)

theorem spelled_implements : Spelled "implements".toList := spelled_of_isPlainWord (by decide)

structure ClassDeclaration where
  exported : Bool
  name : Identifier
  parent : Option TypeRef
  interfaces : List TypeRef
  members : List Member

namespace ClassDeclaration

/-- What comes after the opening brace. -/
def bodyText (c : ClassDeclaration) : List Char := '\n' :: (membersText c.members ++ "\x7d\n".toList)

/-- What comes after the name. -/
def clausesText (c : ClassDeclaration) : List Char :=
  extendsText c.parent ++ (implementsText c.interfaces ++ ' ' :: '\x7b' :: c.bodyText)

def text (c : ClassDeclaration) : List Char :=
  (if c.exported then "export ".toList else []) ++ ("class ".toList ++ (c.name.text ++ c.clausesText))

theorem text_of_exported (c : ClassDeclaration) (h : c.exported = true) :
    c.text = "export".toList ++ ' ' :: ("class".toList ++ ' ' :: (c.name.text ++ c.clausesText)) := by
  rw [text, h]
  rfl

theorem text_of_not_exported (c : ClassDeclaration) (h : c.exported = false) :
    c.text = "class".toList ++ ' ' :: (c.name.text ++ c.clausesText) := by
  rw [text, h]
  rfl

/-- What is to be found in the text of the declaration. -/
def outline (c : ClassDeclaration) : Outline where
  className := String.ofList c.name.text
  parents := c.parent.toList.map fun t => String.ofList t.name.text
  interfaces := c.interfaces.map fun t => String.ofList t.name.text
  methods := (c.members.filterMap Member.methodName?).map fun name => { name := name }

end ClassDeclaration

/-- A comment up to the end of its line. -/
structure LineComment where
  inside : List Char
  oneLine : ∀ c ∈ inside, endsLine c = false ∧ c ≠ '\r'

def LineComment.text (c : LineComment) : List Char := '/' :: '/' :: (c.inside ++ ['\n'])

end ClassAtlas.Source
