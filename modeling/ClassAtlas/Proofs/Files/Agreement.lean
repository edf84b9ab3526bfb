import ClassAtlas.Proofs.Files.Housed
/-!
# Trees that agree

Two trees without links may differ in files that nobody reads. As long as they have the same directories, all
other places are found, read and listed in both of them alike.
-/
namespace ClassAtlas.FileTree

variable {o t t' : FileTree} {cwd here place : Location} {name : String} {read : Location → Prop}

def Linkless (t : FileTree) : Prop := ∀ place target, t.at? place ≠ some (.link target)

namespace Linkless

theorem of_nodes (hnodes : ∀ entry ∈ t.nodes, entry.2.isLink = false) : t.Linkless := by
  intro place target hlink
  by_cases hnil : place = []
  · rw [hnil] at hlink
    cases hlink
  · cases hnodes _ (mem_nodes_of_at? hlink hnil)

theorem grown (hl : t.Linkless) (h : t.Grown t') : t'.Linkless := by
  intro place target hlink
  exact hl place target ((h.at?_iff rfl).mp hlink)

theorem walk_ne_linkLoop (hl : t.Linkless) {follow : Bool} {links : Nat} {todo : List String} :
    t.walk follow links here todo ≠ .error .linkLoop := by
  induction todo generalizing here with
  | nil => simp
  | cons name rest ih =>
    by_cases hdots : name = ".."
    · rw [hdots, walk_dots]
      exact ih
    by_cases hlong : name.utf8ByteSize > maxNameBytes
    · simp [walk_tooLong hdots hlong]
    rw [walk_step hdots hlong]
    split
    case h_1 => split <;> simp
    case h_2 => exact ih
    case h_3 target hview => exact absurd ((view_eq_some_iff rfl).mp hview) (hl _ target)
    case h_4 => split <;> simp

/-- Without links the names of a path lead to a place of these names. -/
theorem eq_of_walk (hl : t.Linkless) {follow : Bool} {links : Nat} {todo : List String} (hdots : ".." ∉ todo)
    (hwalk : t.walk follow links here todo = .ok place) : place = here ++ todo := by
  induction todo generalizing here with
  | nil =>
    rw [walk_nil] at hwalk
    rw [List.append_nil]
    exact (Except.ok.inj hwalk).symm
  | cons name rest ih =>
    rw [List.mem_cons, not_or] at hdots
    by_cases hlong : name.utf8ByteSize > maxNameBytes
    · rw [walk_tooLong (Ne.symm hdots.1) hlong] at hwalk
      cases hwalk
    rw [walk_step (Ne.symm hdots.1) hlong] at hwalk
    split at hwalk
    case h_1 =>
      split at hwalk
      case isTrue hlast =>
        rw [hlast]
        exact (Except.ok.inj hwalk).symm
      case isFalse => cases hwalk
    case h_2 =>
      rw [ih hdots.2 hwalk, List.append_assoc, List.singleton_append]
    case h_3 target hview => exact absurd ((view_eq_some_iff rfl).mp hview) (hl _ target)
    case h_4 =>
      split at hwalk
      case isTrue hlast =>
        rw [hlast]
        exact (Except.ok.inj hwalk).symm
      case isFalse => cases hwalk

theorem eq_of_locate (hl : t.Linkless) {follow : Bool} {names : List String} (hdots : ".." ∉ names)
    (h : t.locate cwd follow ⟨.root, names⟩ = .ok place) : place = names := by
  unfold locate at h
  split at h
  case isTrue => cases h
  case isFalse => exact hl.eq_of_walk hdots h

theorem lookup_ne_linkLoop (hl : t.Linkless) {follow : Bool} {p : Path} :
    t.lookup cwd follow p ≠ .error .linkLoop := by
  intro hloop
  cases hplace : t.locate cwd follow p with
  | ok place =>
    cases hnode : t.at? place with
    | none => cases (lookup_of_nothing hplace hnode).symm.trans hloop
    | some node => cases (lookup_of_node hplace hnode).symm.trans hloop
  | error errno =>
    cases (lookup_of_error hplace).symm.trans hloop
    unfold locate at hplace
    split at hplace
    case isTrue => cases hplace
    case isFalse => exact hl.walk_ne_linkLoop hplace

theorem linkWeight_eq_zero (hl : t.Linkless) (ht : t.WellFormed) : t.linkWeight = 0 := by
  have hnone : ∀ place, t.weightAt place = 0 := by
    intro place
    unfold weightAt
    split
    case h_1 target hview => exact absurd ((view_eq_some_iff rfl).mp hview) (hl place target)
    case h_2 => rfl
  simp [linkWeight_eq_foldr ht, hnone]

theorem put (hl : t.Linkless) {node : Node} (hnode : node.isLink = false) : (t.put here node).Linkless := by
  intro place target hlink
  by_cases hplace : place = here
  · by_cases hnil : here = []
    · rw [hplace, hnil] at hlink
      cases hlink
    · rw [hplace, at?_put_self hnil] at hlink
      cases hlink
      cases hnode
  · rw [at?_put_of_ne hplace] at hlink
    exact hl place target hlink

theorem erase (hl : t.Linkless) : (t.erase here).Linkless := by
  intro place target hlink
  by_cases hplace : place = here
  · by_cases hnil : here = []
    · rw [hplace, hnil] at hlink
      cases hlink
    · rw [hplace, at?_erase_self hnil] at hlink
      cases hlink
  · rw [at?_erase_of_ne hplace] at hlink
    exact hl place target hlink

theorem locate_child (hl : t.Linkless) (ht : t.WellFormed) (hhere : t.DirectoryAt here) (hname : IsName name)
    (hshort : (Path.toString ⟨.root, here ++ [name]⟩).utf8ByteSize ≤ maxPathBytes) (cwd : Location) (follow : Bool) :
    t.locate cwd follow ⟨.root, here ++ [name]⟩ = .ok (here ++ [name]) := by
  obtain ⟨locked, hdirectory⟩ := hhere
  exact (ht.lastIn hdirectory hname hshort).locate_eq fun _ => hl _

/-- Without links a path is resolved by its names alone. -/
theorem resolve_eq (hl : t.Linkless) (hl' : t'.Linkless) (ht : t.WellFormed) (ht' : t'.WellFormed) (cwd : Location)
    (p : Path) : t'.resolve cwd p = t.resolve cwd p := by
  have hlinks : ∀ place target, t'.at? place = some (.link target) ↔ t.at? place = some (.link target) := by
    intro place target
    exact iff_of_false (hl' place target) (hl place target)
  rw [resolve, resolve, hl.linkWeight_eq_zero ht, hl'.linkWeight_eq_zero ht']
  simp only [resolveFrom_congr hlinks]

end Linkless

/-- A tree without links that has the directories of the first one and the same nodes wherever it is read. -/
structure Agrees (read : Location → Prop) (o t : FileTree) : Prop where
  wellFormed : t.WellFormed
  linkless : t.Linkless
  directories : ∀ {place locked}, t.at? place = some (.directory locked) ↔ o.at? place = some (.directory locked)
  read : ∀ {place}, read place → t.at? place = o.at? place

/-- A place that all trees which agree with this one show alike. -/
inductive Certain (read : Location → Prop) (o : FileTree) : Location → Prop where
  | directory {place : Location} (hplace : o.DirectoryAt place) : Certain read o place
  | below {above : Location} {name : String} (habove : o.DirectoryAt above) (hdots : name ≠ "..")
    (hread : read (above ++ [name])) : Certain read o (above ++ [name])

namespace Agrees

theorem directoryAt_iff (h : o.Agrees read t) : t.DirectoryAt place ↔ o.DirectoryAt place :=
  exists_congr fun _ => h.directories

theorem isDirectoryAt_iff (h : o.Agrees read t) : t.isDirectoryAt place = true ↔ o.DirectoryAt place := by
  rw [← h.directoryAt_iff, isDirectoryAt, DirectoryAt]
  cases t.at? place with
  | none => simp
  | some node => cases node <;> simp [Node.isDirectory]

theorem lookup_eq (h : o.Agrees read t) (h' : o.Agrees read t') (hplace : Certain read o place) (cwd : Location)
    (follow : Bool) : t'.lookup cwd follow ⟨.root, place⟩ = t.lookup cwd follow ⟨.root, place⟩ := by
  -- Paths and names that are too long fail alike, whatever the trees hold.
  by_cases hpath : (Path.toString ⟨.root, place⟩).utf8ByteSize > maxPathBytes
  · have hlong : ∀ t : FileTree, t.locate cwd follow ⟨.root, place⟩ = .error .nameTooLong := by
      intro t
      rw [locate, if_pos hpath]
    rw [lookup_of_error (hlong t), lookup_of_error (hlong t')]
  cases hplace with
  | directory hdirectory =>
    obtain ⟨locked, hfound⟩ := (h.wellFormed.paved (h.directoryAt_iff.mpr hdirectory)).lookup hpath cwd follow
    obtain ⟨locked', hfound'⟩ := (h'.wellFormed.paved (h'.directoryAt_iff.mpr hdirectory)).lookup hpath cwd follow
    have hnode := h.directories.mp (locate_of_lookup hfound).2
    have hnode' := h'.directories.mp (locate_of_lookup hfound').2
    cases hnode.symm.trans hnode'
    rw [hfound, hfound']
  | @below above name habove hdots hread =>
    have hwalk : ∀ {t : FileTree}, o.Agrees read t →
        t.locate cwd follow ⟨.root, above ++ [name]⟩ = t.walk follow maxLinks above [name] := by
      intro t h
      rw [locate, if_neg hpath]
      exact (h.wellFormed.paved (h.directoryAt_iff.mpr habove)).walk_append follow maxLinks [name]
    by_cases hlong : name.utf8ByteSize > maxNameBytes
    · have hfault : ∀ {t : FileTree}, o.Agrees read t →
          t.lookup cwd follow ⟨.root, above ++ [name]⟩ = .error .nameTooLong := by
        intro t h
        apply lookup_of_error
        rw [hwalk h, walk_tooLong hdots hlong]
      rw [hfault h, hfault h']
    · have hplace : ∀ {t : FileTree}, o.Agrees read t →
          t.locate cwd follow ⟨.root, above ++ [name]⟩ = .ok (above ++ [name]) := by
        intro t h
        rw [hwalk h, walk_last hdots hlong fun _ => h.linkless _]
      have hsame : t'.at? (above ++ [name]) = t.at? (above ++ [name]) := (h'.read hread).trans (h.read hread).symm
      cases hnode : t.at? (above ++ [name]) with
      | none => rw [lookup_of_nothing (hplace h) hnode, lookup_of_nothing (hplace h') (hsame.trans hnode)]
      | some node => rw [lookup_of_node (hplace h) hnode, lookup_of_node (hplace h') (hsame.trans hnode)]

/-- What is listed below a directory and read is listed alike. -/
theorem filter_listing_eq (h : o.Agrees read t) (h' : o.Agrees read t') {keep : Location → Bool} (here : Location)
    (hkeep : ∀ place, here <+: place → keep place = true → read place) :
    (t'.listing here).filter keep = (t.listing here).filter keep := by
  have hdirectory : ∀ place, t'.isDirectoryAt place = t.isDirectoryAt place := by
    intro place
    rw [Bool.eq_iff_iff, h.isDirectoryAt_iff, h'.isDirectoryAt_iff]
  -- The trees have the same directories, so one recursion goes through both of them.
  induction here using listing.induct t with
  | case1 here hlocked =>
    rw [listing_of_locked hlocked, listing_of_locked (h'.directories.mpr (h.directories.mp hlocked))]
  | case2 here hopen ih =>
    have hopen' : t'.at? here ≠ some (.directory true) := fun hlocked =>
      hopen (h.directories.mpr (h'.directories.mp hlocked))
    have hleaves : (t'.leaves here).filter (keep ∘ fun name => here ++ [name]) =
        (t.leaves here).filter (keep ∘ fun name => here ++ [name]) := by
      simp only [leaves, hdirectory, List.filter_filter]
      apply filter_names_congr h.wellFormed h'.wellFormed
      intro name hname
      have hread : read (here ++ [name]) := by
        apply hkeep _ (List.prefix_append _ _)
        simp only [Bool.and_eq_true] at hname
        exact hname.1
      rw [h'.wellFormed.mem_names_iff_isSome, h.wellFormed.mem_names_iff_isSome, h'.read hread, h.read hread]
    have hsubdirectories : t'.subdirectories here = t.subdirectories here := by
      simp only [subdirectories, hdirectory]
      apply filter_names_congr h.wellFormed h'.wellFormed
      intro name hname
      obtain ⟨locked, hnode⟩ := h.isDirectoryAt_iff.mp hname
      rw [h'.wellFormed.mem_names_iff_isSome, h.wellFormed.mem_names_iff_isSome, h'.directories.mpr hnode,
        h.directories.mpr hnode]
    rw [listing_of_not_locked hopen, listing_of_not_locked hopen', hsubdirectories, List.filter_append,
      List.filter_append, List.filter_map, List.filter_map, hleaves, List.filter_flatMap, List.filter_flatMap]
    congr 1
    apply List.flatMap_congr
    intro name hname
    apply ih ⟨name, hname⟩
    intro place hbelow
    exact hkeep place ((List.prefix_append _ _).trans hbelow)

end Agrees

end ClassAtlas.FileTree
