import ClassAtlas.Text.Lowercase
import ClassAtlas.Yaml.Binary
import ClassAtlas.Yaml.Node
/-!
# Values of nodes

A node stands for a value by its tag. The value of a collection holds nodes again; a document is
valid when the values of all its nodes exist.
-/
namespace ClassAtlas.Yaml

inductive Value where
  | null
  | truth (b : Bool)
  | whole (n : Int)
  | real (x : Binary64)
  | text (s : String)
  | bytes (bs : List UInt8)
  | items (nodes : List Node)
  | entries (pairs : List (Node × Node))
  /-- Times, sets and lists of pairs. -/
  | other
deriving Repr

namespace Scalar

def dropScores (cs : List Char) : List Char := cs.filter (· != '_')

/-- Splits off the sign; a text without a character has none to look at. -/
def signed (cs : List Char) : Reading (Bool × List Char) :=
  match cs with
  | [] => .error .emptyNumber
  | c :: rest => .ok (c = '-', if c = '-' ∨ c = '+' then rest else cs)

def wholeIn (base : Nat) (cs : List Char) : Reading Int :=
  match Numeral.whole base cs with
  | .ok n => .ok n
  | .error fault => .error (.numeral fault)

def realOf (cs : List Char) : Reading Binary64 :=
  match Numeral.real cs with
  | .ok x => .ok x
  | .error fault => .error (.numeral fault)

def wholeBody (cs : List Char) : Reading Int :=
  match cs with
  | [] => .error .emptyNumber
  | ['0'] => .ok 0
  | '0' :: 'b' :: digits => wholeIn 2 digits
  | '0' :: 'x' :: digits => wholeIn 16 digits
  | '0' :: _ => wholeIn 8 cs
  | _ =>
    if cs.contains ':' then do
      let parts ← (Text.splitOn ':' cs).mapM (wholeIn 10)
      return parts.foldl (fun n d => n * 60 + d) 0
    else wholeIn 10 cs

/-- A whole number: decimal, with a mark for another base, or in parts of base sixty. -/
def whole (cs : List Char) : Reading Int := do
  let (negative, body) ← signed (dropScores cs)
  let n ← wholeBody body
  return if negative then -n else n

/-- Adds up parts of base sixty, the last one first; `unit` is what the next part counts for. -/
def sixties (unit : Nat) (sum : Binary64) : List Binary64 → Reading Binary64
  | [] => .ok sum
  | x :: xs =>
    match Numeral.realOfWhole? unit with
    | some u => sixties (unit * 60) (sum.add (x.mul u)) xs
    | none => .error .numberTooLarge

def real (cs : List Char) : Reading Binary64 := do
  let (negative, body) ← signed (Text.lower (dropScores cs))
  let x ←
    if body = ".inf".toList then pure (Binary64.infinite false)
    else if body = ".nan".toList then pure Binary64.nan
    else if body.contains ':' then do
      let parts ← (Text.splitOn ':' body).mapM realOf
      sixties 1 Binary64.zero parts.reverse
    else realOf body
  return if negative then x.neg else x

def truths : List (String × Bool) :=
  [("yes", true), ("no", false), ("true", true), ("false", false), ("on", true), ("off", false)]

def truth (cs : List Char) : Reading Bool :=
  let low := String.ofList (Text.lower cs)
  match truths.lookup low with
  | some b => .ok b
  | none => .error (.notTruth low)

end Scalar

namespace Document

/-- The node itself where only its name stands. -/
def resolve (d : Document) (n : Node) : Node :=
  match n with
  | .shared name => (d.shared.lookup name).getD Node.emptyScalar
  | n => n

def tagOf (d : Document) (n : Node) : String :=
  match d.resolve n with
  | .scalar tag _ | .sequence tag _ | .mapping tag _ => tag
  | .shared _ => Tag.null

mutual
/-- How many nodes stand in the tree of a node. -/
def size : Node → Nat
  | .scalar _ _ | .shared _ => 1
  | .sequence _ items => 1 + sizeItems items
  | .mapping _ entries => 1 + sizeEntries entries
def sizeItems : List Node → Nat
  | [] => 0
  | n :: ns => size n + sizeItems ns
def sizeEntries : List (Node × Node) → Nat
  | [] => 0
  | (k, v) :: es => size k + size v + sizeEntries es
end

/-- How many nodes a document has. -/
def weight (d : Document) : Nat := size d.root + d.shared.foldr (fun (_, n) total => size n + total) 0

/-- The text of a scalar. A mapping with a value key stands for the value there. -/
def scalarText (d : Document) : Nat → Node → Reading (List Char)
  | 0, _ => .error .tooDeep
  | fuel + 1, n =>
    match d.resolve n with
    | .scalar _ text => .ok text
    | .mapping _ entries =>
      match entries.find? fun (k, _) => d.tagOf k == Tag.value with
      | some (_, v) => scalarText d fuel v
      | none => refuse .scalarExpected
    | _ => refuse .scalarExpected

def isMerge (d : Document) (n : Node) : Bool := d.tagOf n == Tag.merge

/-- The entries of a mapping. What is merged into it comes first, so that its own entries count;
`within` holds the names of nodes that are being merged. -/
def entries (d : Document) : Nat → List String → Node → Reading (List (Node × Node))
  | 0, _, _ => .error .tooDeep
  | fuel + 1, within, n => do
    let inside := match n with
      | .shared name => name :: within
      | _ => within
    match d.resolve n with
    | .mapping _ es =>
      let own := es.filter fun (k, _) => !d.isMerge k
      if inside.length > within.length && within.contains (inside.headD "") then return own
      let merged ← (es.filter fun (k, _) => d.isMerge k).mapM fun (_, v) =>
        match d.resolve v with
        | .mapping _ _ => entries d fuel inside v
        | .sequence _ items => do
          let parts ← items.mapM fun item =>
            match d.resolve item with
            | .mapping _ _ => entries d fuel inside item
            | _ => refuse .mappingExpected
          return parts.reverse.flatten
        | _ => refuse .mappingExpected
      return merged.flatten ++ own
    | _ => refuse .mappingExpected

def isCollectionTag (tag : String) : Bool :=
  [Tag.sequence, Tag.mapping, Tag.orderedMap, Tag.pairs, Tag.set].contains tag

/-- The value of a node. A value key stands for its text. -/
def value (d : Document) (n : Node) : Reading Value := do
  let fuel := d.weight + 1
  let tag := d.tagOf n
  if tag = Tag.sequence then
    match d.resolve n with
    | .sequence _ items => return .items items
    | _ => refuse .sequenceExpected
  else if tag = Tag.mapping then return .entries (← d.entries fuel [] n)
  else if isCollectionTag tag then return .other
  else
    let kinds : List (String × (List Char → Reading Value)) :=
      [(Tag.null, fun _ => pure .null), (Tag.truth, fun cs => .truth <$> Scalar.truth cs),
        (Tag.whole, fun cs => .whole <$> Scalar.whole cs),
        (Tag.real, fun cs => .real <$> Scalar.real cs),
        (Tag.bytes, fun cs => .bytes <$> Binary.decode cs),
        (Tag.time, fun cs => (fun _ => .other) <$> TimeText.read cs),
        (Tag.text, fun cs => pure (.text (String.ofList cs))),
        (Tag.value, fun cs => pure (.text (String.ofList cs)))]
    match kinds.lookup tag with
    | some make => make (← d.scalarText fuel n)
    | none => refuse .unknownTag

/-- What was looked at so far: the names of shared nodes, and the collections of which the contents
have still to be looked at. -/
structure Survey where
  seen : List String
  later : List Node

/-- Looks at one node. Contents of collections wait. A value key has a value only once it has been a key. -/
def survey (d : Document) (s : Survey) (n : Node) : Reading Survey := do
  let known := match n with
    | .shared name => s.seen.contains name
    | _ => false
  if known then return s
  let seen := match n with
    | .shared name => name :: s.seen
    | _ => s.seen
  if isCollectionTag (d.tagOf n) then return ⟨seen, s.later ++ [n]⟩
  else if d.tagOf n = Tag.value then refuse .unknownTag
  else do
    let _ ← d.value n
    return ⟨seen, s.later⟩

/-- A key has to be no collection. -/
def surveyKey (d : Document) (s : Survey) (k : Node) : Reading Survey := do
  if d.tagOf k = Tag.value then
    let _ ← d.value k
    match k with
    | .shared name => return { s with seen := name :: s.seen }
    | _ => return s
  let s ← d.survey s k
  if isCollectionTag (d.tagOf k) then refuse .collectionAsKey
  return s

/-- The single entry of an item in a list of pairs. -/
def pair? (d : Document) (n : Node) : Reading (Node × Node) :=
  match d.resolve n with
  | .mapping _ [e] => .ok e
  | .mapping _ _ => refuse .singlePairExpected
  | _ => refuse .mappingExpected

/-- Looks at the contents of a collection. -/
def surveyContents (d : Document) (s : Survey) (n : Node) : Reading Survey := do
  let tag := d.tagOf n
  if tag = Tag.mapping || tag = Tag.set then
    (← d.entries (d.weight + 1) [] n).foldlM (fun s (k, v) => do d.survey (← d.surveyKey s k) v) s
  else
    match d.resolve n with
    | .sequence _ items =>
      if tag = Tag.sequence then items.foldlM d.survey s
      else items.foldlM (fun s item => do
        let (k, v) ← d.pair? item
        d.survey (← d.survey s k) v) s
    | _ => refuse .sequenceExpected

/-- Looks at the collections of one level after those of the levels above. -/
def surveyLevels (d : Document) : Nat → Survey → Reading Unit
  | 0, _ => .error .tooDeep
  | fuel + 1, s => do
    if s.later.isEmpty then return ()
    surveyLevels d fuel (← s.later.foldlM d.surveyContents ⟨s.seen, []⟩)

/-- Checks that every node has a value. -/
def check (d : Document) : Reading Unit := do
  surveyLevels d (d.weight + 2) (← d.survey ⟨[], []⟩ d.root)

/-- The node under a key that is a text; of several the last counts. -/
def find? (d : Document) (name : String) (pairs : List (Node × Node)) : Option Node :=
  let isNamed (k : Node) : Bool :=
    match d.resolve k with
    | .scalar tag text => (tag == Tag.text || tag == Tag.value) && text == name.toList
    | _ => false
  ((pairs.filter fun (k, _) => isNamed k).getLast?).map (·.2)

/-- The document of a text with a value for every node, if there is one. -/
def read (text : List Char) : Reading (Option Document) := do
  match ← Document.ofText? text with
  | none => return none
  | some d =>
    d.check
    return some d

end Document
end ClassAtlas.Yaml
