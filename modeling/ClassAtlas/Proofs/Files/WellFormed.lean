import ClassAtlas.Proofs.Files.Trail
import Mathlib.Data.List.Induction
import Mathlib.Data.List.Nodup
/-!
# Well-formed file trees

In a well-formed tree each place has one node, below a directory, under a name that a file can have.
A path of plain names that leads to a directory is followed to the place of the same names.
-/
namespace ClassAtlas.FileTree

variable {t : FileTree} {here place p : Location} {name : String} {node old : Node}

/-- A name that a file can have. -/
structure IsName (name : String) : Prop where
  notEmpty : name ≠ ""
  notDot : name ≠ "."
  notDots : name ≠ ".."
  oneName : '/' ∉ name.toList
  noNul : Char.ofNat 0 ∉ name.toList
  short : name.utf8ByteSize ≤ maxNameBytes

theorem ne_dots_of_long {name : String} (hlong : 2 < name.toList.length) : name ≠ "" ∧ name ≠ "." ∧ name ≠ ".." := by
  refine ⟨?_, ?_, ?_⟩ <;> rintro rfl <;> simp at hlong

/-- A long name is none of those with a meaning of their own. -/
theorem IsName.of_long {name : String} (hlong : 2 < name.toList.length) (hslash : '/' ∉ name.toList)
    (hnul : Char.ofNat 0 ∉ name.toList) (hshort : name.utf8ByteSize ≤ maxNameBytes) : IsName name := by
  obtain ⟨hempty, hdot, hdots⟩ := ne_dots_of_long hlong
  exact ⟨hempty, hdot, hdots, hslash, hnul, hshort⟩

instance (name : String) : Decidable (IsName name) :=
  decidable_of_iff (name ≠ "" ∧ name ≠ "." ∧ name ≠ ".." ∧ '/' ∉ name.toList ∧
    Char.ofNat 0 ∉ name.toList ∧ name.utf8ByteSize ≤ maxNameBytes)
    ⟨fun ⟨h₁, h₂, h₃, h₄, h₅, h₆⟩ => ⟨h₁, h₂, h₃, h₄, h₅, h₆⟩,
      fun ⟨h₁, h₂, h₃, h₄, h₅, h₆⟩ => ⟨h₁, h₂, h₃, h₄, h₅, h₆⟩⟩

/-- Each place has one node, with a proper name and below a directory. -/
structure WellFormed (t : FileTree) : Prop where
  distinct : (t.nodes.map Prod.fst).Nodup
  named : ∀ entry ∈ t.nodes, ∃ name ∈ entry.1.getLast?, IsName name
  housed : ∀ entry ∈ t.nodes, (t.at? entry.1.dropLast).any Node.isDirectory = true

instance (t : FileTree) : Decidable t.WellFormed :=
  decidable_of_iff ((t.nodes.map Prod.fst).Nodup ∧
    (∀ entry ∈ t.nodes, ∃ name ∈ entry.1.getLast?, IsName name) ∧
    ∀ entry ∈ t.nodes, (t.at? entry.1.dropLast).any Node.isDirectory = true)
    ⟨fun ⟨h₁, h₂, h₃⟩ => ⟨h₁, h₂, h₃⟩, fun ⟨h₁, h₂, h₃⟩ => ⟨h₁, h₂, h₃⟩⟩

@[simp] theorem at?_nil (t : FileTree) : t.at? [] = some (.directory false) := rfl

theorem at?_of_ne_nil (h : place ≠ []) : t.at? place = t.nodes.lookup place := if_neg h

theorem mem_nodes_of_at? (h : t.at? place = some node) (hne : place ≠ []) : (place, node) ∈ t.nodes := by
  rw [at?_of_ne_nil hne, List.lookup_eq_some_iff] at h
  obtain ⟨before, after, hnodes, _⟩ := h
  rw [hnodes]
  exact List.mem_append_right _ List.mem_cons_self

theorem WellFormed.ne_nil (ht : t.WellFormed) (h : (place, node) ∈ t.nodes) : place ≠ [] := by
  rintro rfl
  obtain ⟨name, hname, _⟩ := ht.named _ h
  cases hname

theorem WellFormed.at?_of_mem (ht : t.WellFormed) (h : (place, node) ∈ t.nodes) : t.at? place = some node := by
  rw [at?_of_ne_nil (ht.ne_nil h), List.lookup_eq_some_iff]
  obtain ⟨before, after, hnodes⟩ := List.append_of_mem h
  refine ⟨before, after, hnodes, fun entry hentry => ?_⟩
  have hdistinct := ht.distinct
  rw [hnodes, List.map_append, List.map_cons] at hdistinct
  have hne := (List.nodup_append.mp hdistinct).2.2 entry.1 (List.mem_map_of_mem hentry) place
    List.mem_cons_self
  exact bne_iff_ne.mpr (Ne.symm hne)

/-! ## Names in a directory -/

theorem childName?_eq_some_iff : childName? here place = some name ↔ place = here ++ [name] := by
  unfold childName?
  constructor
  · intro h
    split at h
    case isTrue hlead =>
      obtain ⟨rest, rfl⟩ := List.isPrefixOf_iff_prefix.mp hlead
      rw [List.drop_left] at h
      split at h
      · cases h
        rfl
      · cases h
    case isFalse => cases h
  · rintro rfl
    have hlead : here.isPrefixOf (here ++ [name]) = true :=
      List.isPrefixOf_iff_prefix.mpr (List.prefix_append _ _)
    rw [if_pos hlead, List.drop_left]

theorem mem_names_iff : name ∈ t.names here ↔ ∃ node, (here ++ [name], node) ∈ t.nodes := by
  simp only [names, List.mem_mergeSort, List.mem_filterMap, childName?_eq_some_iff, Prod.exists]
  constructor
  · rintro ⟨_, node, hmem, rfl⟩
    exact ⟨node, hmem⟩
  · rintro ⟨node, hmem⟩
    exact ⟨_, node, hmem, rfl⟩

/-- Names that stand in order in the tree are listed as they stand. -/
theorem names_of_sorted {names : List String} (hnames : t.nodes.filterMap (fun (p, _) => childName? here p) = names)
    (hsorted : names.Pairwise fun a b => decide (a ≤ b) = true) : t.names here = names := by
  rw [FileTree.names, hnames, List.mergeSort_of_pairwise hsorted]

theorem WellFormed.nodup_names (ht : t.WellFormed) (here : Location) : (t.names here).Nodup := by
  have hsplit : t.nodes.filterMap (fun (p, _) => childName? here p) =
      (t.nodes.map Prod.fst).filterMap (childName? here) := by
    rw [List.filterMap_map]
    rfl
  rw [names, (List.mergeSort_perm _ _).nodup_iff, hsplit]
  refine ht.distinct.filterMap fun p q n hp hq => ?_
  rw [childName?_eq_some_iff.mp hp, childName?_eq_some_iff.mp hq]

theorem WellFormed.isName_of_mem_names (ht : t.WellFormed) (h : name ∈ t.names here) : IsName name := by
  obtain ⟨node, hmem⟩ := mem_names_iff.mp h
  obtain ⟨last, hlast, hname⟩ := ht.named _ hmem
  rw [List.getLast?_concat] at hlast
  cases hlast
  exact hname

theorem WellFormed.at?_of_mem_names (ht : t.WellFormed) (h : name ∈ t.names here) :
    ∃ node, t.at? (here ++ [name]) = some node := by
  obtain ⟨node, hmem⟩ := mem_names_iff.mp h
  exact ⟨node, ht.at?_of_mem hmem⟩

theorem WellFormed.mem_names_iff_isSome (ht : t.WellFormed) :
    name ∈ t.names here ↔ (t.at? (here ++ [name])).isSome = true := by
  rw [Option.isSome_iff_exists]
  constructor
  · exact ht.at?_of_mem_names
  · rintro ⟨node, hnode⟩
    exact mem_names_iff.mpr ⟨node, mem_nodes_of_at? hnode (by simp)⟩

theorem pairwise_names (t : FileTree) (here : Location) : (t.names here).Pairwise fun a b => decide (a ≤ b) = true := by
  refine List.pairwise_mergeSort (fun a b c hab hbc => ?_) (fun a b => ?_) _
  · exact decide_eq_true (String.le_trans (of_decide_eq_true hab) (of_decide_eq_true hbc))
  · rw [Bool.or_eq_true, decide_eq_true_iff, decide_eq_true_iff]
    exact String.le_total a b

/-- Where two directories have the same of the names that are kept, these are in the same order. -/
theorem filter_names_congr {t' : FileTree} {keep : String → Bool} (ht : t.WellFormed) (ht' : t'.WellFormed)
    (hsame : ∀ name, keep name = true → (name ∈ t'.names here ↔ name ∈ t.names here)) :
    (t'.names here).filter keep = (t.names here).filter keep := by
  refine List.Perm.eq_of_pairwise (fun a b _ _ hab hba => ?_) ((pairwise_names t' here).filter keep)
    ((pairwise_names t here).filter keep) ?_
  · exact String.le_antisymm (of_decide_eq_true hab) (of_decide_eq_true hba)
  · rw [List.perm_ext_iff_of_nodup ((ht'.nodup_names here).filter keep) ((ht.nodup_names here).filter keep)]
    intro name
    rw [List.mem_filter, List.mem_filter]
    exact and_congr_left (hsame name)

theorem length_le_height (h : (place, node) ∈ t.nodes) : place.length ≤ t.height := by
  have hmax : ∀ (lengths : List Nat) (bound : Nat), bound ≤ lengths.foldl max bound ∧
      ∀ n ∈ lengths, n ≤ lengths.foldl max bound := by
    intro lengths
    induction lengths with
    | nil => exact fun bound => ⟨Nat.le_refl _, fun _ hn => absurd hn List.not_mem_nil⟩
    | cons length lengths ih =>
      intro bound
      obtain ⟨hbound, hall⟩ := ih (max bound length)
      refine ⟨Nat.le_trans (Nat.le_max_left _ _) hbound, fun n hn => ?_⟩
      rcases List.mem_cons.mp hn with rfl | hn
      · exact Nat.le_trans (Nat.le_max_right _ _) hbound
      · exact hall n hn
  exact (hmax _ 0).2 _ (List.mem_map_of_mem (f := fun (p, _) => p.length) h)

/-! ## Exchanging nodes -/

theorem at?_put_self (hne : place ≠ []) : (t.put place node).at? place = some node := by
  rw [at?_of_ne_nil hne, put, List.lookup_cons_self]

theorem lookup_filter {nodes : List (Location × Node)} {keep : Location → Bool} (h : keep p = true) :
    (nodes.filter fun e => keep e.1).lookup p = nodes.lookup p := by
  induction nodes with
  | nil => rfl
  | cons entry nodes ih =>
    obtain ⟨q, n⟩ := entry
    cases hq : keep q with
    | false =>
      have hpq : (p == q) = false := by
        rw [beq_eq_false_iff_ne]
        rintro rfl
        rw [h] at hq
        cases hq
      rw [List.filter_cons_of_neg (by simp [hq]), ih, List.lookup_cons, hpq]
    | true => rw [List.filter_cons_of_pos (by simpa using hq), List.lookup_cons, List.lookup_cons, ih]

/-- What a filter of places keeps stays as it is. -/
theorem at?_filter {keep : Location → Bool} (h : keep p = true) :
    FileTree.at? ⟨t.nodes.filter fun e => keep e.1⟩ p = t.at? p := by
  by_cases hnil : p = []
  · rw [hnil]
    rfl
  · rw [at?_of_ne_nil hnil, at?_of_ne_nil hnil]
    exact lookup_filter h

/-- What it does not keep is gone. -/
theorem at?_filter_none {keep : Location → Bool} (h : keep p = false) (hne : p ≠ []) :
    FileTree.at? ⟨t.nodes.filter fun e => keep e.1⟩ p = none := by
  rw [at?_of_ne_nil hne, List.lookup_eq_none_iff]
  intro entry hentry
  have hkept := (List.mem_filter.mp hentry).2
  rw [bne_iff_ne]
  rintro rfl
  cases hkept.symm.trans h

theorem at?_erase_of_ne (h : p ≠ place) : (t.erase place).at? p = t.at? p :=
  @at?_filter t p (fun q => q != place) (by simpa using h)

theorem at?_erase_self (hne : place ≠ []) : (t.erase place).at? place = none :=
  @at?_filter_none t place (fun q => q != place) (by simp) hne

/-- Clearing changes nothing outside of a place. -/
theorem at?_clear_of_not_below (h : ¬ (place <+: p ∧ p ≠ place)) : (t.clear place).at? p = t.at? p := by
  refine @at?_filter t p (fun q => !(place.isPrefixOf q && q.length != place.length)) ?_
  rw [Bool.not_eq_true', ← Bool.not_eq_true, Bool.and_eq_true, List.isPrefixOf_iff_prefix, bne_iff_ne]
  rintro ⟨hbelow, hlength⟩
  exact h ⟨hbelow, fun hsame => hlength (congrArg List.length hsame)⟩

/-- Clearing leaves nothing below a place. -/
theorem at?_clear_below (hbelow : place <+: p) (hne : p ≠ place) : (t.clear place).at? p = none := by
  refine @at?_filter_none t p (fun q => !(place.isPrefixOf q && q.length != place.length)) ?_ ?_
  · rw [Bool.not_eq_false', Bool.and_eq_true, List.isPrefixOf_iff_prefix, bne_iff_ne]
    exact ⟨hbelow, fun hlength => hne (hbelow.eq_of_length hlength.symm).symm⟩
  · rintro rfl
    exact hne (List.prefix_nil.mp hbelow).symm

theorem at?_put_of_ne (h : p ≠ place) : (t.put place node).at? p = t.at? p := by
  by_cases hnil : p = []
  · rw [hnil]
    rfl
  · have hp : (p == place) = false := by simpa using h
    have herase := @at?_erase_of_ne t place p h
    rw [at?_of_ne_nil hnil] at herase ⊢
    rw [put, List.lookup_cons, hp]
    exact herase

theorem put_put (t : FileTree) (place : Location) (old node : Node) : (t.put place old).put place node = t.put place node := by
  simp [put, erase, List.filter_filter]

theorem erase_put (t : FileTree) (place : Location) (node : Node) : (t.put place node).erase place = t.erase place := by
  simp [put, erase, List.filter_filter]

theorem WellFormed.erase (ht : t.WellFormed) (hplain : (t.at? place).any Node.isDirectory = false) :
    (t.erase place).WellFormed := by
  have hkept : ∀ entry ∈ (t.erase place).nodes, entry ∈ t.nodes := fun entry hentry => List.mem_of_mem_filter hentry
  constructor
  · exact ht.distinct.sublist (List.filter_sublist.map _)
  · intro entry hentry
    exact ht.named entry (hkept entry hentry)
  · intro entry hentry
    have hhoused := ht.housed entry (hkept entry hentry)
    rwa [at?_erase_of_ne]
    intro hsame
    rw [hsame, hplain] at hhoused
    cases hhoused

/-- In a directory a node may be put under a proper name, unless that is the name of a directory. -/
theorem WellFormed.put_child (ht : t.WellFormed) {locked : Bool} (hhere : t.at? here = some (.directory locked))
    (hname : IsName name) (hplain : (t.at? (here ++ [name])).any Node.isDirectory = false) (node : Node) :
    (t.put (here ++ [name]) node).WellFormed := by
  have hrest := ht.erase hplain
  have hhoused : ∀ {q : Location}, (t.at? q).any Node.isDirectory = true →
      ((t.put (here ++ [name]) node).at? q).any Node.isDirectory = true := by
    intro q hq
    rwa [at?_put_of_ne]
    rintro rfl
    rw [hplain] at hq
    cases hq
  have hkept : ∀ entry ∈ (t.erase (here ++ [name])).nodes, entry ∈ t.nodes ∧ entry.1 ≠ here ++ [name] := by
    intro entry hentry
    obtain ⟨hin, hother⟩ := List.mem_filter.mp hentry
    exact ⟨hin, by simpa using hother⟩
  constructor
  · show ((here ++ [name]) :: (t.erase (here ++ [name])).nodes.map Prod.fst).Nodup
    rw [List.nodup_cons]
    refine ⟨fun hplace => ?_, hrest.distinct⟩
    obtain ⟨entry, hentry, heq⟩ := List.mem_map.mp hplace
    exact (hkept entry hentry).2 heq
  · intro entry hentry
    rcases List.mem_cons.mp hentry with rfl | hentry
    · exact ⟨name, by simp, hname⟩
    · exact ht.named entry (hkept entry hentry).1
  · intro entry hentry
    rcases List.mem_cons.mp hentry with rfl | hentry
    · apply hhoused
      simp [hhere, Node.isDirectory]
    · exact hhoused (ht.housed entry (hkept entry hentry).1)

/-! ## Following plain names -/

/-- What stands at a place stands below a directory, under a proper name. -/
theorem WellFormed.parent (ht : t.WellFormed) (h : t.at? (here ++ [name]) = some node) :
    IsName name ∧ ∃ locked, t.at? here = some (.directory locked) := by
  have hmem := mem_nodes_of_at? h (by simp)
  have hhoused := ht.housed _ hmem
  rw [List.dropLast_concat] at hhoused
  refine ⟨ht.isName_of_mem_names (mem_names_iff.mpr ⟨node, hmem⟩), ?_⟩
  cases hnode : t.at? here with
  | none => rw [hnode] at hhoused; cases hhoused
  | some parent =>
    rw [hnode] at hhoused
    cases parent with
    | directory locked => exact ⟨locked, rfl⟩
    | file _ => cases hhoused
    | link _ => cases hhoused
    | socket => cases hhoused

/-- A node that is no directory may be exchanged for another. -/
theorem WellFormed.put (ht : t.WellFormed) (hold : t.at? place = some old) (hdirectory : old.isDirectory = false) :
    (t.put place node).WellFormed := by
  rcases List.eq_nil_or_concat' place with rfl | ⟨here, name, rfl⟩
  · cases hold
    cases hdirectory
  · obtain ⟨hname, locked, hhere⟩ := ht.parent hold
    exact ht.put_child hhere hname (by rw [hold]; exact hdirectory) node

theorem WellFormed.isName_of_mem (ht : t.WellFormed) (h : t.at? place = some node) : ∀ name ∈ place, IsName name := by
  induction place using List.reverseRecOn generalizing node with
  | nil => exact fun _ hname => absurd hname List.not_mem_nil
  | append_singleton here last ih =>
    obtain ⟨hlast, locked, hhere⟩ := ht.parent h
    intro name hname
    rcases List.mem_append.mp hname with hname | hname
    · exact ih hhere name hname
    · rw [List.mem_singleton.mp hname]
      exact hlast

/-- The names of a directory lead to it. -/
theorem WellFormed.walk_append (ht : t.WellFormed) {locked : Bool} (h : t.at? place = some (.directory locked))
    (follow : Bool) (links : Nat) (rest : List String) :
    t.walk follow links [] (place ++ rest) = t.walk follow links place rest := by
  induction place using List.reverseRecOn generalizing locked rest with
  | nil => rfl
  | append_singleton here name ih =>
    obtain ⟨hname, _, hhere⟩ := ht.parent h
    have hlong := Nat.not_lt.mpr hname.short
    rw [List.append_assoc, ih hhere, List.singleton_append, walk_step hname.notDots hlong, view, h]
    rfl

theorem WellFormed.walk_name_of_not_link (ht : t.WellFormed) (h : t.at? (here ++ [name]) = some node)
    (hlink : node.isLink = false) (follow : Bool) (links : Nat) :
    t.walk follow links [] (here ++ [name]) = .ok (here ++ [name]) := by
  obtain ⟨hname, locked, hhere⟩ := ht.parent h
  rw [ht.walk_append hhere, walk_step hname.notDots (Nat.not_lt.mpr hname.short), view, h]
  cases node with
  | directory _ => exact walk_nil ..
  | file _ => rfl
  | socket => rfl
  | link _ => cases hlink

end ClassAtlas.FileTree
