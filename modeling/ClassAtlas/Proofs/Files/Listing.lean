import ClassAtlas.Proofs.Files.WellFormed
import Mathlib.Data.List.Flatten
/-!
# Listings of directories

The listing of a directory has every place in it and below it that is no directory itself, once and
in a fixed order: first what the directory holds itself, then what its subdirectories hold, both in
order of their names. Links are not followed, and a locked directory shows nothing.
-/
namespace ClassAtlas.FileTree

variable {t : FileTree} {here place : Location} {name : String} {node : Node}

def isDirectoryAt (t : FileTree) (place : Location) : Bool := (t.at? place).any Node.isDirectory

/-- The names of the directories in a directory. -/
def subdirectories (t : FileTree) (here : Location) : List String :=
  (t.names here).filter fun name => t.isDirectoryAt (here ++ [name])

/-- The names in a directory of what is no directory. -/
def leaves (t : FileTree) (here : Location) : List String :=
  (t.names here).filter fun name => !t.isDirectoryAt (here ++ [name])

/-- What is no directory in a directory and below it. -/
def listing (t : FileTree) (here : Location) : List Location :=
  if t.at? here = some (.directory true) then []
  else (t.leaves here).map (fun name => here ++ [name]) ++
    (t.subdirectories here).attach.flatMap fun name => t.listing (here ++ [name.1])
termination_by t.height - here.length
decreasing_by
  obtain ⟨node, hmem⟩ := mem_names_iff.mp (List.mem_of_mem_filter name.2)
  have hheight := length_le_height hmem
  simp only [List.length_append, List.length_cons, List.length_nil] at hheight ⊢
  omega

theorem listing_of_locked (h : t.at? here = some (.directory true)) : t.listing here = [] := by
  rw [listing, if_pos h]

theorem listing_of_not_locked (h : t.at? here ≠ some (.directory true)) :
    t.listing here = (t.leaves here).map (fun name => here ++ [name]) ++
      (t.subdirectories here).flatMap fun name => t.listing (here ++ [name]) := by
  have hattach : (t.subdirectories here).flatMap (fun name => t.listing (here ++ [name])) =
      (t.subdirectories here).attach.flatMap fun name => t.listing (here ++ [name.1]) := by
    conv => lhs; rw [← List.attach_map_subtype_val (t.subdirectories here)]
    rw [List.flatMap_map]
  rw [listing, if_neg h, hattach]

theorem WellFormed.mem_subdirectories_iff (ht : t.WellFormed) :
    name ∈ t.subdirectories here ↔ ∃ locked, t.at? (here ++ [name]) = some (.directory locked) := by
  rw [subdirectories, List.mem_filter, isDirectoryAt]
  constructor
  · rintro ⟨hname, hdirectory⟩
    obtain ⟨node, hnode⟩ := ht.at?_of_mem_names hname
    rw [hnode] at hdirectory ⊢
    cases node with
    | directory locked => exact ⟨locked, rfl⟩
    | file _ => cases hdirectory
    | link _ => cases hdirectory
    | socket => cases hdirectory
  · rintro ⟨locked, hnode⟩
    exact ⟨mem_names_iff.mpr ⟨_, mem_nodes_of_at? hnode (by simp)⟩, by rw [hnode]; rfl⟩

theorem WellFormed.mem_leaves_iff (ht : t.WellFormed) :
    name ∈ t.leaves here ↔ ∃ node, t.at? (here ++ [name]) = some node ∧ node.isDirectory = false := by
  rw [leaves, List.mem_filter, isDirectoryAt]
  constructor
  · rintro ⟨hname, hdirectory⟩
    obtain ⟨node, hnode⟩ := ht.at?_of_mem_names hname
    rw [hnode] at hdirectory
    exact ⟨node, hnode, by simpa using hdirectory⟩
  · rintro ⟨node, hnode, hdirectory⟩
    exact ⟨mem_names_iff.mpr ⟨_, mem_nodes_of_at? hnode (by simp)⟩, by simp [hnode, hdirectory]⟩

theorem mem_listing_of_not_locked (h : t.at? here ≠ some (.directory true)) :
    place ∈ t.listing here ↔
      (∃ name ∈ t.leaves here, here ++ [name] = place) ∨
        ∃ name ∈ t.subdirectories here, place ∈ t.listing (here ++ [name]) := by
  rw [listing_of_not_locked h, List.mem_append, List.mem_map, List.mem_flatMap]

theorem WellFormed.names_eq_nil (ht : t.WellFormed) (h : ∀ locked, t.at? here ≠ some (.directory locked)) :
    t.names here = [] := by
  rw [List.eq_nil_iff_forall_not_mem]
  intro name hname
  obtain ⟨node, hnode⟩ := ht.at?_of_mem_names hname
  obtain ⟨_, locked, hhere⟩ := ht.parent hnode
  exact h locked hhere

theorem listing_of_childless (hnames : t.names here = []) : t.listing here = [] := by
  by_cases hlocked : t.at? here = some (.directory true)
  · exact listing_of_locked hlocked
  · rw [listing_of_not_locked hlocked, leaves, subdirectories, hnames]
    rfl

theorem WellFormed.listing_eq_nil (ht : t.WellFormed) (h : ∀ locked, t.at? here ≠ some (.directory locked)) :
    t.listing here = [] := listing_of_childless (ht.names_eq_nil h)

/-- The way down from a place leads through directories that can be listed. -/
def OpenWay (t : FileTree) (here : Location) (rest : List String) : Prop :=
  ∀ above, above <+: rest → above ≠ rest → t.at? (here ++ above) = some (.directory false)

theorem openWay_cons_iff {rest : List String} : t.OpenWay here (name :: rest) ↔
    t.at? here = some (.directory false) ∧ t.OpenWay (here ++ [name]) rest := by
  constructor
  · intro h
    refine ⟨by simpa using h [] List.nil_prefix (by simp), fun above habove hne => ?_⟩
    have hdirectory := h (name :: above) (List.cons_prefix_cons.mpr ⟨rfl, habove⟩) (by simpa using hne)
    rwa [List.append_cons] at hdirectory
  · rintro ⟨hhere, hway⟩ above habove hne
    cases above with
    | nil => rwa [List.append_nil]
    | cons first above =>
      obtain ⟨rfl, hrest⟩ := List.cons_prefix_cons.mp habove
      rw [List.append_cons]
      exact hway above hrest (by simpa using hne)

/-- The listing has exactly what is no directory and can be reached through directories that can be
listed. -/
theorem WellFormed.mem_listing_iff (ht : t.WellFormed) : place ∈ t.listing here ↔
    ∃ rest, rest ≠ [] ∧ place = here ++ rest ∧
      (∃ node, t.at? place = some node ∧ node.isDirectory = false) ∧ t.OpenWay here rest := by
  constructor
  · intro hplace
    induction here using listing.induct t with
    | case1 here hlocked =>
      rw [listing_of_locked hlocked] at hplace
      cases hplace
    | case2 here hopen ih =>
      have hlisted : ∀ {name node}, t.at? (here ++ [name]) = some node → t.at? here = some (.directory false) := by
        intro name node hnode
        obtain ⟨_, locked, hhere⟩ := ht.parent hnode
        cases locked with
        | true => exact absurd hhere hopen
        | false => exact hhere
      rcases (mem_listing_of_not_locked hopen).mp hplace with ⟨name, hname, rfl⟩ | ⟨name, hname, hbelow⟩
      · obtain ⟨node, hnode, hleaf⟩ := ht.mem_leaves_iff.mp hname
        refine ⟨[name], by simp, rfl, ⟨node, hnode, hleaf⟩, openWay_cons_iff.mpr ⟨hlisted hnode, ?_⟩⟩
        intro above habove hne
        exact absurd (List.prefix_nil.mp habove) hne
      · obtain ⟨rest, _, rfl, hnode, hway⟩ := ih ⟨name, hname⟩ hbelow
        obtain ⟨locked, hdirectory⟩ := ht.mem_subdirectories_iff.mp hname
        exact ⟨name :: rest, by simp, by rw [← List.append_cons], hnode,
          openWay_cons_iff.mpr ⟨hlisted hdirectory, hway⟩⟩
  · rintro ⟨rest, hne, rfl, ⟨node, hnode, hleaf⟩, hway⟩
    induction rest generalizing here with
    | nil => exact absurd rfl hne
    | cons name rest ih =>
      obtain ⟨hhere, hrest⟩ := openWay_cons_iff.mp hway
      rw [mem_listing_of_not_locked (by rw [hhere]; decide)]
      cases rest with
      | nil => exact .inl ⟨name, ht.mem_leaves_iff.mpr ⟨node, hnode, hleaf⟩, rfl⟩
      | cons next rest =>
        have hdirectory := (openWay_cons_iff.mp hrest).1
        rw [List.append_cons] at hnode ⊢
        exact .inr ⟨name, ht.mem_subdirectories_iff.mpr ⟨_, hdirectory⟩, ih (by simp) hrest hnode⟩

theorem WellFormed.prefix_of_mem_listing (ht : t.WellFormed) (h : place ∈ t.listing here) : here <+: place := by
  obtain ⟨rest, _, rfl, _⟩ := ht.mem_listing_iff.mp h
  exact List.prefix_append _ _

theorem WellFormed.node_of_mem_listing (ht : t.WellFormed) (h : place ∈ t.listing here) :
    ∃ node, t.at? place = some node ∧ node.isDirectory = false := by
  obtain ⟨_, _, _, hnode, _⟩ := ht.mem_listing_iff.mp h
  exact hnode

theorem append_singleton_injective (here : Location) : Function.Injective fun name => here ++ [name] := by
  intro a b h
  simpa using h

/-- Two names that lead on to one place are one name. -/
theorem eq_of_common_extension {a b : String} (ha : here ++ [a] <+: place) (hb : here ++ [b] <+: place) : a = b := by
  have hab : here ++ [a] <+: here ++ [b] := List.prefix_of_prefix_length_le ha hb (by simp)
  simpa using hab

theorem WellFormed.nodup_listing (ht : t.WellFormed) (here : Location) : (t.listing here).Nodup := by
  induction here using listing.induct t with
  | case1 here hlocked =>
    rw [listing_of_locked hlocked]
    exact List.nodup_nil
  | case2 here hopen ih =>
    have hleaves : (t.leaves here).Nodup := (ht.nodup_names here).filter _
    have hdirectories : (t.subdirectories here).Nodup := (ht.nodup_names here).filter _
    rw [listing_of_not_locked hopen, List.nodup_append, List.nodup_flatMap]
    refine ⟨hleaves.map (append_singleton_injective here), ⟨fun name hname => ih ⟨name, hname⟩, ?_⟩, ?_⟩
    · refine hdirectories.pairwise_of_forall_ne fun a _ b _ hne => ?_
      intro place ha hb
      exact hne (eq_of_common_extension (ht.prefix_of_mem_listing ha) (ht.prefix_of_mem_listing hb))
    · intro place hleaf other hbelow heq
      obtain ⟨name, hname, rfl⟩ := List.mem_map.mp hleaf
      obtain ⟨directory, hdirectory, hother⟩ := List.mem_flatMap.mp hbelow
      rw [← heq] at hother
      obtain rfl : directory = name :=
        eq_of_common_extension (ht.prefix_of_mem_listing hother) List.prefix_rfl
      have hyes := (List.mem_filter.mp hdirectory).2
      have hno := (List.mem_filter.mp hname).2
      rw [hyes] at hno
      cases hno

end ClassAtlas.FileTree
