import ClassAtlas.Outline.Choice
import Mathlib.Data.List.Basic
import Mathlib.Logic.Function.Iterate
/-!
# Walking a syntax tree

The walk for classes keeps a stack of nodes. In each round it takes the node on top and puts the nodes inside it
on the stack. It meets every node once, an outer node before those inside it and these from left to right, and
ends after as many rounds as there are nodes.
-/
namespace ClassAtlas.SyntaxTree

variable {t : SyntaxTree} {cs stack : List SyntaxTree} {p : List Nat} {i n : Nat}

/-! ## Rounds -/

/-- One round of the walk. Of the nodes inside the one on top the last is put on the stack first. -/
def advance : List SyntaxTree → List SyntaxTree
  | [] => []
  | t :: rest => t.children.reverse.foldl (fun stack c => c :: stack) rest

/-- The class that a round finds. -/
def found : List SyntaxTree → List ClassShape
  | [] => []
  | t :: _ => t.namedClass

/-- So the first of them comes to lie on top. -/
theorem advance_cons (t : SyntaxTree) (rest : List SyntaxTree) : advance (t :: rest) = t.children ++ rest := by
  simp [advance]

theorem sizeOfAll_advance (stack : List SyntaxTree) : sizeOfAll (advance stack) = sizeOfAll stack - 1 := by
  cases stack with
  | nil => rfl
  | cons t rest =>
    cases t with
    | node d cs =>
      rw [advance_cons, sizeOfAll_append, sizeOfAll, size, children]
      omega

theorem sizeOfAll_eq_zero_iff : sizeOfAll stack = 0 ↔ stack = [] := by
  cases stack with
  | nil => simp [sizeOfAll]
  | cons t rest =>
    cases t
    simp [sizeOfAll, size]

theorem sizeOfAll_iterate_advance (n : Nat) (stack : List SyntaxTree) :
    sizeOfAll (advance^[n] stack) = sizeOfAll stack - n := by
  induction n generalizing stack with
  | zero => rfl
  | succ n ih =>
    rw [Function.iterate_succ_apply, ih, sizeOfAll_advance]
    omega

/-- The stack is empty after as many rounds as there are nodes on it and inside them, and not before. -/
theorem iterate_advance_eq_nil_iff : advance^[n] stack = [] ↔ sizeOfAll stack ≤ n := by
  rw [← sizeOfAll_eq_zero_iff, sizeOfAll_iterate_advance, Nat.sub_eq_zero_iff_le]

theorem stackedClasses_nil : stackedClasses [] = [] := by rw [stackedClasses]

theorem stackedClasses_eq_found (stack : List SyntaxTree) :
    stackedClasses stack = found stack ++ stackedClasses (advance stack) := by
  cases stack with
  | nil => simp [advance, found, stackedClasses_nil]
  | cons t rest =>
    cases t with
    | node d cs => rw [stackedClasses, advance_cons, found, children]

/-- What the walk finds is what its rounds find, one after the other. -/
theorem stackedClasses_eq_rounds (hn : sizeOfAll stack ≤ n) :
    stackedClasses stack = (List.range n).flatMap fun k => found (advance^[k] stack) := by
  induction n generalizing stack with
  | zero =>
    rw [sizeOfAll_eq_zero_iff.mp (Nat.le_zero.mp hn), stackedClasses_nil]
    rfl
  | succ n ih =>
    have hrest : sizeOfAll (advance stack) ≤ n := by
      rw [sizeOfAll_advance]
      omega
    rw [stackedClasses_eq_found, ih hrest, List.range_succ_eq_map, List.flatMap_cons, List.flatMap_map]
    rfl

/-! ## The walk and the recursion -/

theorem classes_eq (t : SyntaxTree) : t.classes = t.namedClass ++ classesOfAll t.children := by
  cases t
  rw [classes, children]

theorem classesOfAll_append (ss ts : List SyntaxTree) :
    classesOfAll (ss ++ ts) = classesOfAll ss ++ classesOfAll ts := by
  induction ss with
  | nil => simp [classesOfAll]
  | cons s ss ih => simp [classesOfAll, ih]

/-- A round finds what the recursion over the stack comes to first, and leaves what it comes to after that. -/
theorem classesOfAll_eq_found (stack : List SyntaxTree) :
    classesOfAll stack = found stack ++ classesOfAll (advance stack) := by
  cases stack with
  | nil => simp [advance, found, classesOfAll]
  | cons t rest => rw [advance_cons, classesOfAll_append, classesOfAll, classes_eq, found, List.append_assoc]

theorem stackedClasses_eq_classesOfAll (stack : List SyntaxTree) : stackedClasses stack = classesOfAll stack := by
  induction hn : sizeOfAll stack generalizing stack with
  | zero =>
    rw [sizeOfAll_eq_zero_iff.mp hn, stackedClasses_nil, classesOfAll]
  | succ n ih =>
    have hrest : sizeOfAll (advance stack) = n := by
      rw [sizeOfAll_advance]
      omega
    rw [stackedClasses_eq_found, classesOfAll_eq_found, ih (advance stack) hrest]

/-! ## Addresses -/

/-- The node at an address: the numbers of the nodes to go down to, the outermost first. -/
def at? (t : SyntaxTree) : List Nat → Option SyntaxTree
  | [] => some t
  | i :: p => t.children[i]?.bind fun c => c.at? p

/-- The class with a name that is declared at an address. -/
def classAt? (t : SyntaxTree) (p : List Nat) : Option ClassShape :=
  ((t.at? p).bind declares).filter fun shape => shape.name.isSome

mutual
/-- All addresses in a tree. -/
def addresses : SyntaxTree → List (List Nat)
  | node _ cs => [] :: addressesOfAll 0 cs
/-- The addresses in trees that are numbered from `i` on. -/
def addressesOfAll (i : Nat) : List SyntaxTree → List (List Nat)
  | [] => []
  | t :: ts => (addresses t).map (i :: ·) ++ addressesOfAll (i + 1) ts
end

theorem namedClass_eq (t : SyntaxTree) : t.namedClass = (t.classAt? []).toList := by
  cases t with
  | node d cs =>
    cases d with
    | none => rfl
    | some shape =>
      rw [namedClass, classAt?, at?, Option.bind_some, declares]
      cases h : shape.name.isSome <;> simp [Option.filter, h]

theorem classAt?_cons (d : Option ClassShape) (before after : List SyntaxTree) (t : SyntaxTree) (p : List Nat) :
    (node d (before ++ t :: after)).classAt? (before.length :: p) = t.classAt? p := by
  rw [classAt?, at?, children, List.getElem?_append_right (Nat.le_refl _), Nat.sub_self]
  rfl

theorem mem_addressesOfAll : p ∈ addressesOfAll i cs ↔
    ∃ j q t, p = (i + j) :: q ∧ cs[j]? = some t ∧ q ∈ t.addresses := by
  induction cs generalizing i with
  | nil => simp [addressesOfAll]
  | cons c cs ih =>
    rw [addressesOfAll, List.mem_append, List.mem_map, ih]
    constructor
    · rintro (⟨q, hq, rfl⟩ | ⟨j, q, t, rfl, ht, hq⟩)
      · exact ⟨0, q, c, rfl, rfl, hq⟩
      · exact ⟨j + 1, q, t, by rw [Nat.add_right_comm, Nat.add_assoc], ht, hq⟩
    · rintro ⟨_ | j, q, t, rfl, ht, hq⟩
      · cases ht
        exact .inl ⟨q, hq, rfl⟩
      · exact .inr ⟨j, q, t, by rw [Nat.add_right_comm, Nat.add_assoc], ht, hq⟩

/-- The addresses in a tree are those that lead to a node. -/
theorem mem_addresses_iff : p ∈ t.addresses ↔ (t.at? p).isSome := by
  induction p generalizing t with
  | nil =>
    cases t
    simp [addresses, at?]
  | cons i p ih =>
    cases t with
    | node d cs =>
      simp only [addresses, List.mem_cons, reduceCtorEq, false_or, mem_addressesOfAll, Nat.zero_add, List.cons.injEq,
        at?, children]
      cases hc : cs[i]? with
      | none =>
        simp only [Option.bind_none, Option.isSome_none, Bool.false_eq_true, iff_false]
        rintro ⟨j, q, c, ⟨rfl, rfl⟩, hj, _⟩
        cases hc.symm.trans hj
      | some c =>
        rw [Option.bind_some, ← ih]
        constructor
        · rintro ⟨j, q, c', ⟨rfl, rfl⟩, hj, hq⟩
          cases hc.symm.trans hj
          exact hq
        · exact fun hp => ⟨i, p, c, ⟨rfl, rfl⟩, hc, hp⟩

mutual
/-- The addresses come in order: a node before those inside it, and these from left to right. -/
theorem pairwise_addresses : ∀ t : SyntaxTree, t.addresses.Pairwise (· < ·)
  | node _ cs => by
    rw [addresses, List.pairwise_cons]
    refine ⟨fun p hp => ?_, pairwise_addressesOfAll 0 cs⟩
    obtain ⟨j, q, _, rfl, _⟩ := mem_addressesOfAll.mp hp
    exact List.nil_lt_cons _ _
theorem pairwise_addressesOfAll (i : Nat) : ∀ cs : List SyntaxTree, (addressesOfAll i cs).Pairwise (· < ·)
  | [] => by
    rw [addressesOfAll]
    exact .nil
  | t :: ts => by
    rw [addressesOfAll, List.pairwise_append]
    refine ⟨?_, pairwise_addressesOfAll (i + 1) ts, fun p hp q hq => ?_⟩
    · refine List.pairwise_map.mpr ((pairwise_addresses t).imp fun hlt => ?_)
      exact List.cons_lt_cons_iff.mpr (.inr ⟨rfl, hlt⟩)
    · obtain ⟨p, _, rfl⟩ := List.mem_map.mp hp
      obtain ⟨j, q, _, rfl, _⟩ := mem_addressesOfAll.mp hq
      exact List.cons_lt_cons_iff.mpr (.inl (by omega))
end

mutual
/-- The recursion finds what is declared at the addresses, in their order. -/
theorem classes_eq_filterMap : ∀ t : SyntaxTree, t.classes = t.addresses.filterMap t.classAt?
  | node d cs => by
    have hinner := classesOfAll_eq_filterMap d [] cs
    rw [List.length_nil, List.nil_append] at hinner
    rw [classes, namedClass_eq, addresses, List.filterMap_cons, hinner]
    cases (node d cs).classAt? [] <;> rfl
theorem classesOfAll_eq_filterMap (d : Option ClassShape) (before : List SyntaxTree) : ∀ cs : List SyntaxTree,
    classesOfAll cs = (addressesOfAll before.length cs).filterMap (node d (before ++ cs)).classAt?
  | [] => by rw [classesOfAll, addressesOfAll, List.filterMap_nil]
  | t :: ts => by
    have hlater := classesOfAll_eq_filterMap d (before ++ [t]) ts
    rw [List.append_assoc, List.singleton_append, List.length_append, List.length_singleton] at hlater
    rw [classesOfAll, addressesOfAll, List.filterMap_append, List.filterMap_map, ← hlater, classes_eq_filterMap t]
    congr 1
    exact List.filterMap_congr fun p _ => (classAt?_cons d before ts t p).symm
end

theorem classAt?_eq_none_of_notMem (hp : p ∉ t.addresses) : t.classAt? p = none := by
  rw [mem_addresses_iff, Option.not_isSome_iff_eq_none] at hp
  rw [classAt?, hp]
  rfl

/-! ## The first class -/

variable {shape : ClassShape}

theorem firstClass?_eq (t : SyntaxTree) : t.firstClass? = t.addresses.findSome? t.classAt? := by
  rw [firstClass?, stackedClasses_eq_classesOfAll, classesOfAll, classesOfAll, List.append_nil, classes_eq_filterMap,
    List.head?_filterMap]

/-- The first class is the one at the least address. -/
theorem firstClass?_eq_some_iff :
    t.firstClass? = some shape ↔ ∃ p, t.classAt? p = some shape ∧ ∀ q < p, t.classAt? q = none := by
  rw [firstClass?_eq, List.findSome?_eq_some_iff]
  have hsorted := pairwise_addresses t
  constructor
  · rintro ⟨before, p, after, hsplit, hshape, hnone⟩
    refine ⟨p, hshape, fun q hq => ?_⟩
    rw [hsplit, List.pairwise_append, List.pairwise_cons] at hsorted
    by_cases hmem : q ∈ t.addresses
    · rw [hsplit, List.mem_append, List.mem_cons] at hmem
      rcases hmem with hbefore | rfl | hafter
      · exact hnone q hbefore
      · exact absurd hq (List.lt_irrefl _)
      · exact absurd (List.lt_trans hq (hsorted.2.1.1 q hafter)) (List.lt_irrefl _)
    · exact classAt?_eq_none_of_notMem hmem
  · rintro ⟨p, hshape, hnone⟩
    have hmem : p ∈ t.addresses := by
      by_contra hout
      rw [classAt?_eq_none_of_notMem hout] at hshape
      cases hshape
    obtain ⟨before, after, hsplit⟩ := List.append_of_mem hmem
    rw [hsplit, List.pairwise_append] at hsorted
    exact ⟨before, p, after, hsplit, hshape, fun q hq => hnone q (hsorted.2.2 q hq p List.mem_cons_self)⟩

theorem firstClass?_eq_none_iff : t.firstClass? = none ↔ ∀ p, t.classAt? p = none := by
  rw [firstClass?_eq, List.findSome?_eq_none_iff]
  refine ⟨fun hnone p => ?_, fun hnone p _ => hnone p⟩
  by_cases hmem : p ∈ t.addresses
  · exact hnone p hmem
  · exact classAt?_eq_none_of_notMem hmem

/-! ## The whole walk -/

/-- The addresses of the classes with a name. -/
def classPlaces (t : SyntaxTree) : List (List Nat) := t.addresses.filter fun p => (t.classAt? p).isSome

theorem mem_classPlaces_iff : p ∈ t.classPlaces ↔ (t.classAt? p).isSome := by
  rw [classPlaces, List.mem_filter, and_iff_right_iff_imp]
  intro hsome
  by_contra hout
  rw [classAt?_eq_none_of_notMem hout] at hsome
  cases hsome

theorem map_some_classes (t : SyntaxTree) : t.classes.map some = t.classPlaces.map t.classAt? := by
  rw [classes_eq_filterMap, classPlaces]
  induction t.addresses with
  | nil => rfl
  | cons p ps ih =>
    cases hp : t.classAt? p with
    | none => simp [hp, ih]
    | some shape => simp [hp, ih]

end ClassAtlas.SyntaxTree

namespace ClassAtlas.Outline

open SyntaxTree

/-- The walk ends after as many rounds as there are nodes. What its rounds find is what the recursion finds: the class
at each address that has one, once, in the order of the addresses. The outline is that of the class at the least address,
and there is none when there is no class. -/
theorem walk_in_order (t : SyntaxTree) :
    (∀ n, advance^[n] [t] = [] ↔ t.size ≤ n) ∧
      stackedClasses [t] = ((List.range t.size).flatMap fun k => found (advance^[k] [t])) ∧
      stackedClasses [t] = t.classes ∧
      (∃ places : List (List Nat), places.Pairwise (· < ·) ∧ (∀ p, p ∈ places ↔ (t.classAt? p).isSome) ∧
        (stackedClasses [t]).map some = places.map t.classAt?) ∧
      (∀ o, ofTree t = some o ↔
        ∃ p shape, t.classAt? p = some shape ∧ (∀ q < p, t.classAt? q = none) ∧ o = ofShape shape) ∧
      (ofTree t = none ↔ ∀ p, t.classAt? p = none) := by
  have hsize : sizeOfAll [t] = t.size := by rw [sizeOfAll, sizeOfAll, Nat.add_zero]
  have hclasses : stackedClasses [t] = t.classes := by
    rw [stackedClasses_eq_classesOfAll, classesOfAll, classesOfAll, List.append_nil]
  refine ⟨fun n => ?_, stackedClasses_eq_rounds (Nat.le_of_eq hsize), hclasses,
    ⟨t.classPlaces, (pairwise_addresses t).filter _, fun p => mem_classPlaces_iff, ?_⟩, fun o => ?_, ?_⟩
  · rw [iterate_advance_eq_nil_iff, hsize]
  · rw [hclasses, map_some_classes]
  · rw [ofTree, Option.map_eq_some_iff]
    constructor
    · rintro ⟨shape, hfirst, rfl⟩
      obtain ⟨p, hshape, hnone⟩ := firstClass?_eq_some_iff.mp hfirst
      exact ⟨p, shape, hshape, hnone, rfl⟩
    · rintro ⟨p, shape, hshape, hnone, rfl⟩
      exact ⟨shape, firstClass?_eq_some_iff.mpr ⟨p, hshape, hnone⟩, rfl⟩
  · rw [ofTree, Option.map_eq_none_iff, firstClass?_eq_none_iff]

end ClassAtlas.Outline
