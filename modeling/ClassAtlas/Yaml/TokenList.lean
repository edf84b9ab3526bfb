import ClassAtlas.Yaml.Token
/-!
# From a text to its tokens

The tokens of a text in order. What stands in front of a colon is known to be a key only when the
colon is met, so the places where a key may have begun are kept: one for each level of brackets, on
the same line and at most 1024 characters back. In lines of indentation a new column opens a
collection and a smaller one closes those that are deeper.
-/
namespace ClassAtlas.Yaml

open Cursor

/-- A token with which a key may have begun. -/
structure KeyStart where
  /-- The number of tokens before it. -/
  number : Nat
  /-- Nothing but a key can stand in this column. -/
  required : Bool
  index : Nat
  line : Nat
  column : Nat
deriving Repr

structure Tokenizer where
  cursor : Cursor
  /-- The column of the innermost collection of lines, -1 outside all. -/
  indent : Int
  outer : List Int
  /-- How many brackets are open. -/
  flow : Nat
  keyAllowed : Bool
  /-- Where keys may have begun, by level of brackets. -/
  starts : List (Nat × KeyStart)
  /-- The tokens so far, backwards. -/
  tokens : List Token

namespace Tokenizer

def start (text : List Char) : Tokenizer :=
  let c := Cursor.start text
  ⟨if text.head? = some byteOrderMark then c.next else c, -1, [], 0, true, [], []⟩

def maxKeyLength : Nat := 1024

def inFlow (t : Tokenizer) : Bool := t.flow != 0
def push (token : Token) (t : Tokenizer) : Tokenizer := { t with tokens := token :: t.tokens }

/-- Adds a token where there were `number` tokens before it. -/
def insertAt (number : Nat) (token : Token) (t : Tokenizer) : Tokenizer :=
  let after := t.tokens.length - number
  { t with tokens := t.tokens.take after ++ token :: t.tokens.drop after }

def withoutStart (level : Nat) (starts : List (Nat × KeyStart)) : List (Nat × KeyStart) :=
  starts.filter fun (k, _) => k != level

/-- Forgets the starts that have come too far back. -/
def dropStale (t : Tokenizer) : Reading Tokenizer :=
  let isStale (k : KeyStart) : Bool :=
    k.line != t.cursor.line || t.cursor.index - k.index > maxKeyLength
  if t.starts.any fun (_, k) => isStale k && k.required then refuse .missingColon
  else .ok { t with starts := t.starts.filter fun (_, k) => !isStale k }

/-- Forgets the start on this level of brackets. -/
def dropStart (t : Tokenizer) : Reading Tokenizer :=
  if (t.starts.lookup t.flow).any (·.required) then refuse .missingColon
  else .ok { t with starts := withoutStart t.flow t.starts }

/-- Notes that a key may begin here. -/
def noteStart (t : Tokenizer) : Reading Tokenizer :=
  if t.keyAllowed then do
    let required := !t.inFlow && t.indent == (t.cursor.column : Int)
    let t ← t.dropStart
    let k : KeyStart :=
      ⟨t.tokens.length, required, t.cursor.index, t.cursor.line, t.cursor.column⟩
    return { t with starts := (t.flow, k) :: t.starts }
  else .ok t

/-- Closes the collections of lines that stand deeper than a column. -/
def unwind (column : Int) (t : Tokenizer) : Tokenizer :=
  if t.inFlow then t else close t.indent t.outer t.tokens
where
  close (indent : Int) (outer : List Int) (tokens : List Token) : Tokenizer :=
    match outer with
    | [] => { t with indent, outer := [], tokens }
    | next :: rest =>
      if indent > column then close next rest (.blockEnd :: tokens)
      else { t with indent, outer, tokens }

/-- Whether a column opens a collection of lines. -/
def opens (column : Nat) (t : Tokenizer) : Bool := t.indent < (column : Int)

def deepen (column : Nat) (t : Tokenizer) : Tokenizer :=
  { t with outer := t.indent :: t.outer, indent := column }

/-- Opens a collection of lines here if the column is a new one. -/
def openHere (token : Token) (t : Tokenizer) : Tokenizer :=
  if t.opens t.cursor.column then (t.deepen t.cursor.column).push token else t

/-- Passes a mark of `n` characters and adds its token. -/
def pass (n : Nat) (token : Token) (t : Tokenizer) : Tokenizer :=
  { t with cursor := t.cursor.skip n }.push token

/-- Skips spaces, comments and line ends; a new line may begin with a key. -/
def skipBlank : Nat → Tokenizer → Tokenizer
  | 0, t => t
  | fuel + 1, t =>
    let c := t.cursor.skipWhile (· == ' ')
    let c := if c.head? == some '#' then c.skipWhile (!isBreak ·) else c
    match c.lineBreak? with
    | some (_, c) => skipBlank fuel { t with cursor := c, keyAllowed := t.keyAllowed || !t.inFlow }
    | none => { t with cursor := c }

/-- The mark of a document or a directive, which closes all collections of lines. -/
def atTopLevel (t : Tokenizer) : Reading Tokenizer := do
  let t ← (t.unwind (-1)).dropStart
  return { t with keyAllowed := false }

def openBracket (token : Token) (t : Tokenizer) : Reading Tokenizer := do
  let t ← t.noteStart
  return { t with flow := t.flow + 1, keyAllowed := true }.pass 1 token

def closeBracket (token : Token) (t : Tokenizer) : Reading Tokenizer := do
  let t ← t.dropStart
  if t.flow = 0 then refuse .unopened
  return { t with flow := t.flow - 1, keyAllowed := false }.pass 1 token

def flowEntry (t : Tokenizer) : Reading Tokenizer := do
  let t ← t.dropStart
  return { t with keyAllowed := true }.pass 1 .flowEntry

def blockEntry (t : Tokenizer) : Reading Tokenizer := do
  if !t.inFlow && !t.keyAllowed then refuse .entryNotAllowed
  let t := if t.inFlow then t else t.openHere .blockSequenceStart
  let t ← { t with keyAllowed := true }.dropStart
  return t.pass 1 .blockEntry

def markedKey (t : Tokenizer) : Reading Tokenizer := do
  if !t.inFlow && !t.keyAllowed then refuse .keyNotAllowed
  let t := if t.inFlow then t else t.openHere .blockMappingStart
  let t ← { t with keyAllowed := !t.inFlow }.dropStart
  return t.pass 1 .key

/-- A colon: what began on this level is a key, or the value belongs to a marked key. -/
def value (t : Tokenizer) : Reading Tokenizer := do
  match t.starts.lookup t.flow with
  | some k =>
    let t := { t with starts := withoutStart t.flow t.starts, keyAllowed := false }.insertAt k.number .key
    let t := if !t.inFlow && t.opens k.column then
        (t.deepen k.column).insertAt k.number .blockMappingStart
      else t
    return t.pass 1 .value
  | none =>
    if !t.inFlow && !t.keyAllowed then refuse .valueNotAllowed
    let t := if t.inFlow then t else t.openHere .blockMappingStart
    let t ← { t with keyAllowed := !t.inFlow }.dropStart
    return t.pass 1 .value

/-- A token with which a key may begin. -/
def keyable (read : Cursor → Reading (Token × Cursor)) (t : Tokenizer) : Reading Tokenizer := do
  let t ← t.noteStart
  let (token, cursor) ← read t.cursor
  return { t with keyAllowed := false, cursor }.push token

def quoted (double : Bool) (t : Tokenizer) : Reading Tokenizer :=
  t.keyable fun c => do
    let (text, c) ← Quoted.read double c
    return (.scalar false text, c)

def plain (t : Tokenizer) : Reading Tokenizer := do
  let t ← t.noteStart
  let c := t.cursor
  let (text, cursor, broke) := Plain.read t.inFlow (t.indent + 1) (c.rest.length + 1) [] c
  return { t with keyAllowed := broke, cursor }.push (.scalar true text)

def block (folded : Bool) (t : Tokenizer) : Reading Tokenizer := do
  let t ← { t with keyAllowed := true }.dropStart
  let (text, cursor) ← Block.read folded (max (t.indent + 1) 1).toNat t.cursor.next
  return { t with cursor }.push (.scalar false text)

/-- The characters that no plain scalar begins with; some do when more text follows at once. -/
def indicators : List Char := "-?:,[]\x7b\x7d#&*!|>'\"%@`".toList

def beginsPlain (t : Tokenizer) : Bool :=
  match t.cursor.rest with
  | [] => false
  | c :: cs =>
    (!isGap (some c) && !indicators.contains c) ||
      (!isGap cs.head? && (c == '-' || (!t.inFlow && (c == '?' || c == ':'))))

/-- Reads the next tokens; `t` stands at something other than blanks and not at the end. -/
def token (c : Char) (t : Tokenizer) : Reading Tokenizer :=
  let gapFollows := isGap (t.cursor.peek 1)
  if c = '%' && t.cursor.column = 0 then do
    let t ← t.atTopLevel
    let (token, cursor) ← Token.readDirective t.cursor
    return { t with cursor }.push token
  else if c = '-' && t.cursor.column = 0 && t.cursor.sees '-' then
    return (← t.atTopLevel).pass 3 .documentStart
  else if c = '.' && t.cursor.column = 0 && t.cursor.sees '.' then
    return (← t.atTopLevel).pass 3 .documentEnd
  else if c = '[' then t.openBracket .flowSequenceStart
  else if c = '\x7b' then t.openBracket .flowMappingStart
  else if c = ']' then t.closeBracket .flowSequenceEnd
  else if c = '\x7d' then t.closeBracket .flowMappingEnd
  else if c = ',' then t.flowEntry
  else if c = '-' && gapFollows then t.blockEntry
  else if c = '?' && (t.inFlow || gapFollows) then t.markedKey
  else if c = ':' && (t.inFlow || gapFollows) then t.value
  else if c = '*' then t.keyable (Token.readName .alias)
  else if c = '&' then t.keyable (Token.readName .anchor)
  else if c = '!' then t.keyable Token.readTag
  else if c = '|' && !t.inFlow then t.block false
  else if c = '>' && !t.inFlow then t.block true
  else if c = '\'' then t.quoted false
  else if c = '"' then t.quoted true
  else if t.beginsPlain then t.plain
  else refuse .strayCharacter

/-- The tokens that can be told although the text cannot be read further: a token with which a key
may have begun cannot, nor those after it. -/
def settled (t : Tokenizer) : List Token :=
  let tokens := t.tokens.reverse
  tokens.take ((t.starts.map fun (_, k) => k.number).foldl min tokens.length)

/-- Reads on to the end. Gives the tokens, and what stopped the reading if something did. -/
def run : Nat → Tokenizer → List Token × Option Fault
  | 0, t => (t.settled, some (.malformed .unexpectedToken))
  | fuel + 1, t =>
    match (t.skipBlank (t.cursor.rest.length + 1)).dropStale with
    | .error fault => (t.settled, some fault)
    | .ok next =>
      let here := next.unwind next.cursor.column
      match here.cursor.rest with
      | [] =>
        match here.atTopLevel with
        | .error fault => (t.settled, some fault)
        | .ok last => ((last.push .streamEnd).tokens.reverse, none)
      | c :: _ =>
        match here.token c with
        | .error fault => (next.settled, some fault)
        | .ok after => run fuel after

end Tokenizer

/-- The tokens of a text. -/
def Token.ofText (text : List Char) : List Token × Option Fault :=
  if text.all isPrintable then (Tokenizer.start text).run (text.length + 2)
  else ([], some (.malformed .unprintable))

end ClassAtlas.Yaml
