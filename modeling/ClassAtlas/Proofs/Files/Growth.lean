import ClassAtlas.Proofs.Files.Listing
import ClassAtlas.Proofs.Text.Utf8
/-!
# Trees in which files have grown

A tree grows when text is added to the end of some of its files. What paths lead to, what directories
hold and which files are text stays the same.
-/
namespace ClassAtlas

theorem Utf8.encode_append (as bs : List Char) : encode (as ++ bs) = encode as ++ encode bs :=
  List.flatMap_append

/-- The node is the same, or a file with text added to its end. -/
inductive Node.Grown : Node → Node → Prop where
  | same (n : Node) : Grown n n
  | added (bs : List UInt8) (cs : List Char) : Grown (.file bs) (.file (bs ++ Utf8.encode cs))

namespace Node.Grown

variable {m n k : Node}

theorem trans (hmn : Grown m n) (hnk : Grown n k) : Grown m k := by
  cases hmn with
  | same => exact hnk
  | added bs cs =>
    cases hnk with
    | same => exact .added bs cs
    | added _ ds =>
      rw [List.append_assoc, ← Utf8.encode_append]
      exact .added bs (cs ++ ds)

theorem outside_eq (h : Grown m n) : n.outside = m.outside := by cases h <;> rfl

end Node.Grown

namespace FileTree

variable {t t' t'' : FileTree} {here place : Location} {m n : Node}

/-- At each place there is the same node as before, or a file that has grown. -/
structure Grown (t t' : FileTree) : Prop where
  forth : ∀ {place m}, t.at? place = some m → ∃ n, t'.at? place = some n ∧ m.Grown n
  back : ∀ {place n}, t'.at? place = some n → ∃ m, t.at? place = some m ∧ m.Grown n

namespace Grown

theorem refl (t : FileTree) : t.Grown t := ⟨fun h => ⟨_, h, .same _⟩, fun h => ⟨_, h, .same _⟩⟩

theorem trans (h : t.Grown t') (h' : t'.Grown t'') : t.Grown t'' where
  forth hm := by
    obtain ⟨n, hn, hmn⟩ := h.forth hm
    obtain ⟨k, hk, hnk⟩ := h'.forth hn
    exact ⟨k, hk, hmn.trans hnk⟩
  back hk := by
    obtain ⟨n, hn, hnk⟩ := h'.back hk
    obtain ⟨m, hm, hmn⟩ := h.back hn
    exact ⟨m, hm, hmn.trans hnk⟩

theorem view_eq (h : t.Grown t') (place : Location) : t'.view place = t.view place := by
  rw [view, view]
  cases hold : t.at? place with
  | none =>
    cases hnew : t'.at? place with
    | none => rfl
    | some n =>
      obtain ⟨m, hm, _⟩ := h.back hnew
      rw [hold] at hm
      cases hm
  | some m =>
    obtain ⟨n, hn, hgrown⟩ := h.forth hold
    rw [hn]
    exact congrArg some hgrown.outside_eq

theorem isSome_eq (h : t.Grown t') (place : Location) : (t'.at? place).isSome = (t.at? place).isSome := by
  have hview := congrArg Option.isSome (h.view_eq place)
  simpa only [view, Option.isSome_map] using hview

theorem at?_eq_none_iff (h : t.Grown t') : t'.at? place = none ↔ t.at? place = none := by
  rw [← view_eq_none_iff, ← view_eq_none_iff, h.view_eq]

theorem free_iff (h : t.Grown t') : t'.Free place ↔ t.Free place := by
  rw [FileTree.free_iff, FileTree.free_iff, h.view_eq]

/-! ## Paths -/

theorem walk_eq (h : t.Grown t') (follow : Bool) (links : Nat) (here : Location) (todo : List String) :
    t'.walk follow links here todo = t.walk follow links here todo :=
  walk_congr links here todo fun place _ => h.view_eq place

theorem locate_eq (h : t.Grown t') (cwd : Location) (follow : Bool) (p : Path) :
    t'.locate cwd follow p = t.locate cwd follow p := by
  rw [locate, locate, h.walk_eq]

/-- Looking a path up gives the same fault, or the same place and a node that has grown. -/
theorem lookup_cases (h : t.Grown t') (cwd : Location) (follow : Bool) (p : Path) :
    (∃ errno, t.lookup cwd follow p = .error errno ∧ t'.lookup cwd follow p = .error errno) ∨
      ∃ place m n, t.lookup cwd follow p = .ok (place, m) ∧ t'.lookup cwd follow p = .ok (place, n) ∧ m.Grown n := by
  cases hplace : t.locate cwd follow p with
  | error errno => exact .inl ⟨errno, lookup_of_error hplace, lookup_of_error (by rw [h.locate_eq, hplace])⟩
  | ok place =>
    have hplace' : t'.locate cwd follow p = .ok place := by rw [h.locate_eq, hplace]
    cases hold : t.at? place with
    | none =>
      exact .inl ⟨.noEntry, lookup_of_nothing hplace hold, lookup_of_nothing hplace' (h.at?_eq_none_iff.mpr hold)⟩
    | some m =>
      obtain ⟨n, hn, hgrown⟩ := h.forth hold
      exact .inr ⟨place, m, n, lookup_of_node hplace hold, lookup_of_node hplace' hn, hgrown⟩

/-- What is no file is the same in both trees. -/
theorem at?_iff (h : t.Grown t') (hn : n.isFile = false) : t'.at? place = some n ↔ t.at? place = some n := by
  rw [← view_eq_some_iff hn, ← view_eq_some_iff hn, h.view_eq]

/-! ## Well-formed trees -/

theorem places_perm (h : t.Grown t') (ht : t.WellFormed) (ht' : t'.WellFormed) :
    (t'.nodes.map Prod.fst).Perm (t.nodes.map Prod.fst) := by
  have hmem : ∀ {t : FileTree}, t.WellFormed → ∀ place, place ∈ t.nodes.map Prod.fst ↔
      place ≠ [] ∧ (t.at? place).isSome = true := by
    intro t ht place
    rw [List.mem_map]
    constructor
    · rintro ⟨⟨_, node⟩, hmem, rfl⟩
      exact ⟨ht.ne_nil hmem, by rw [ht.at?_of_mem hmem]; rfl⟩
    · rintro ⟨hne, hsome⟩
      obtain ⟨node, hnode⟩ := Option.isSome_iff_exists.mp hsome
      exact ⟨(place, node), mem_nodes_of_at? hnode hne, rfl⟩
  rw [List.perm_ext_iff_of_nodup ht'.distinct ht.distinct]
  intro place
  rw [hmem ht', hmem ht, h.isSome_eq]

end Grown

theorem isDirectoryAt_eq_view (t : FileTree) (place : Location) :
    t.isDirectoryAt place = (t.view place).any Node.isDirectory := by
  rw [isDirectoryAt, view]
  cases t.at? place with
  | none => rfl
  | some n => cases n <;> rfl

/-- The share of a place in the weight of links. -/
def weightAt (t : FileTree) (place : Location) : Nat :=
  match t.view place with
  | some (.link target) => (Path.ofString target).parts.length + 1
  | _ => 0

theorem linkWeight_eq_foldr (ht : t.WellFormed) :
    t.linkWeight = (t.nodes.map Prod.fst).foldr (fun place total => t.weightAt place + total) 0 := by
  have hnodes : ∀ entry ∈ t.nodes, t.at? entry.1 = some entry.2 := fun _ hentry => ht.at?_of_mem hentry
  rw [linkWeight]
  generalize t.nodes = nodes at hnodes
  induction nodes with
  | nil => rfl
  | cons entry nodes ih =>
    obtain ⟨place, node⟩ := entry
    have hrest := ih fun e he => hnodes e (List.mem_cons_of_mem _ he)
    have hnode : t.view place = some node.outside := congrArg (Option.map _) (hnodes _ List.mem_cons_self)
    rw [List.foldr_cons, hrest, List.map_cons, List.foldr_cons, weightAt, hnode]
    cases node <;> simp [Node.outside]

namespace Grown

theorem resolve_eq (h : t.Grown t') (ht : t.WellFormed) (ht' : t'.WellFormed) (cwd : Location) (p : Path) :
    t'.resolve cwd p = t.resolve cwd p := by
  have hweights : t'.weightAt = t.weightAt := by
    funext place
    rw [weightAt, weightAt, h.view_eq]
  have hweight : t'.linkWeight = t.linkWeight := by
    rw [linkWeight_eq_foldr ht, linkWeight_eq_foldr ht', hweights]
    refine (h.places_perm ht ht').foldr_eq' ?_ 0
    intro place _ other _ total
    exact Nat.add_left_comm ..
  rw [resolve, resolve, hweight]
  simp only [resolveFrom_congr fun _ _ => h.at?_iff rfl]

theorem names_eq (h : t.Grown t') (ht : t.WellFormed) (ht' : t'.WellFormed) (here : Location) :
    t'.names here = t.names here := by
  have hsame : (t'.names here).filter (fun _ => true) = (t.names here).filter fun _ => true := by
    refine filter_names_congr ht ht' fun name _ => ?_
    rw [ht'.mem_names_iff_isSome, ht.mem_names_iff_isSome, h.isSome_eq]
  simpa using hsame

theorem isDirectoryAt_eq (h : t.Grown t') (place : Location) : t'.isDirectoryAt place = t.isDirectoryAt place := by
  rw [isDirectoryAt_eq_view, isDirectoryAt_eq_view, h.view_eq]

theorem listing_eq (h : t.Grown t') (ht : t.WellFormed) (ht' : t'.WellFormed) (here : Location) :
    t'.listing here = t.listing here := by
  induction here using listing.induct t with
  | case1 here hlocked =>
    rw [listing_of_locked hlocked, listing_of_locked ((h.at?_iff rfl).mpr hlocked)]
  | case2 here hopen ih =>
    have hopen' : t'.at? here ≠ some (.directory true) := fun h' => hopen ((h.at?_iff rfl).mp h')
    have hleaves : t'.leaves here = t.leaves here := by
      simp only [leaves, h.names_eq ht ht', h.isDirectoryAt_eq]
    have hdirectories : t'.subdirectories here = t.subdirectories here := by
      simp only [subdirectories, h.names_eq ht ht', h.isDirectoryAt_eq]
    rw [listing_of_not_locked hopen, listing_of_not_locked hopen', hleaves, hdirectories]
    congr 1
    exact List.flatMap_congr fun name hname => ih ⟨name, hname⟩

end Grown
end FileTree
end ClassAtlas
