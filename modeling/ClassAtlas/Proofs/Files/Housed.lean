import ClassAtlas.Proofs.Files.Growth
import ClassAtlas.Proofs.Files.Rooted
/-!
# Trees in which everything has its directory

Where everything stands in a directory, names that lead on lead to directories. A path that leads to something
comes from a directory, and so does a path that leads nowhere yet when its last name is free.
-/
namespace ClassAtlas.FileTree

variable {t t' : FileTree} {cwd here there place : Location} {name : String} {links k : Nat} {todo : List String}
  {p : Path} {node : Node} {follow : Bool}

/-- A directory stands at the place. -/
def DirectoryAt (t : FileTree) (place : Location) : Prop := ∃ locked, t.at? place = some (.directory locked)

/-- Everything stands in a directory, and the current directory is one. -/
structure Housed (t : FileTree) (cwd : Location) : Prop where
  parent : ∀ {here name node}, t.at? (here ++ [name]) = some node → t.DirectoryAt here
  cwd : t.DirectoryAt cwd

theorem Housed.of_wellFormed (ht : t.WellFormed) (hcwd : t.DirectoryAt cwd) : t.Housed cwd :=
  ⟨fun hnode => (ht.parent hnode).2, hcwd⟩

theorem directoryAt_root (t : FileTree) : t.DirectoryAt [] := ⟨false, rfl⟩

theorem Grown.directoryAt_iff (h : t.Grown t') : t'.DirectoryAt place ↔ t.DirectoryAt place :=
  exists_congr fun _ => h.at?_iff rfl

theorem Grown.housed (h : t.Grown t') (ht : t.Housed cwd) : t'.Housed cwd where
  parent hnode := by
    obtain ⟨_, hold, _⟩ := h.back hnode
    exact h.directoryAt_iff.mpr (ht.parent hold)
  cwd := h.directoryAt_iff.mpr ht.cwd

namespace Housed

theorem dropLast (ht : t.Housed cwd) (h : t.DirectoryAt here) : t.DirectoryAt here.dropLast := by
  rcases List.eq_nil_or_concat' here with rfl | ⟨above, name, rfl⟩
  · exact h
  · obtain ⟨locked, hnode⟩ := h
    rw [List.dropLast_concat]
    exact ht.parent hnode

theorem followed (ht : t.Housed cwd) : t.Followed cwd t.DirectoryAt where
  root := directoryAt_root t
  cwd := ht.cwd
  up hhere := ht.dropLast hhere
  down hdirectory := ⟨_, hdirectory⟩

theorem rooted (ht : t.Housed cwd) : t.Rooted cwd where
  parent := by
    rintro here name ⟨node, hnode⟩
    obtain ⟨locked, hhere⟩ := ht.parent hnode
    exact ⟨_, hhere⟩
  cwd := by
    obtain ⟨locked, hcwd⟩ := ht.cwd
    exact ⟨_, hcwd⟩

end Housed

/-- Names that others may come after lead to the same place when none do. -/
theorem walk_of_reach : ∀ (links : Nat) (here : Location) (todo : List String) {k : Nat} {there : Location},
    t.reach links here todo = .ok (k, there) → t.walk true links here todo = .ok there
  | links, here, [], k, there, hreach => by
    rw [reach_nil] at hreach
    cases hreach
    exact walk_nil ..
  | links, here, name :: rest, k, there, hreach => by
    by_cases hdots : name = ".."
    · rw [hdots, reach_dots] at hreach
      rw [hdots, walk_dots]
      exact walk_of_reach links here.dropLast rest hreach
    by_cases hlong : name.utf8ByteSize > maxNameBytes
    · rw [reach_tooLong hdots hlong] at hreach
      cases hreach
    rw [reach_step hdots hlong] at hreach
    rw [walk_step hdots hlong]
    cases hview : t.view (here ++ [name]) with
    | none =>
      rw [hview] at hreach
      cases hreach
    | some node =>
      rw [hview] at hreach
      cases node with
      | directory locked => exact walk_of_reach links (here ++ [name]) rest hreach
      | link target =>
        simp only [Bool.not_true, Bool.false_eq_true, and_false, if_false]
        cases links with
        | zero => cases hreach
        | succ links => exact walk_of_reach links _ _ hreach
      | file bytes => cases hreach
      | socket => cases hreach
termination_by links _ todo => (links, todo.length)

/-- A path that can be followed to its end can be followed up to its last name. -/
theorem locate_without_following (h : t.locate cwd true p = .ok place) : ∃ there, t.locate cwd false p = .ok there := by
  rcases List.eq_nil_or_concat' p.parts with hnil | ⟨names, last, hparts⟩
  · rw [locate] at h ⊢
    split at h
    case isTrue => cases h
    case isFalse hshort =>
      rw [if_neg hshort, hnil, walk_nil]
      exact ⟨_, rfl⟩
  · have hparent : p.parts = p.parent.parts ++ [last] := by rw [Path.parent, hparts, List.dropLast_concat]
    by_cases hdots : last = ".."
    · rw [locate] at h ⊢
      split at h
      case isTrue => cases h
      case isFalse hshort =>
        rw [if_neg hshort]
        rw [hparent, walk_concat] at h ⊢
        cases hreach : t.reach maxLinks (if p.isAbsolute then [] else cwd) p.parent.parts with
        | error errno =>
          rw [hreach] at h
          cases h
        | ok r => exact ⟨r.2.dropLast, by dsimp only; rw [hdots, walk_dots, walk_nil]⟩
    · obtain ⟨k, here, hlast⟩ := LastIn.of_locate hparent hdots h
      exact ⟨_, hlast.locate_self⟩

/-- A path that is followed to its end does not end at a link. -/
theorem Housed.not_link_of_walk (ht : t.Housed cwd) : ∀ (links : Nat) (here : Location) (todo : List String),
    t.DirectoryAt here → t.walk true links here todo = .ok place → ∀ target, t.at? place ≠ some (.link target)
  | links, here, [], hhere, h, target, hlink => by
    rw [walk_nil] at h
    cases h
    obtain ⟨locked, hdirectory⟩ := hhere
    cases hdirectory.symm.trans hlink
  | links, here, name :: rest, hhere, h, target, hlink => by
    by_cases hdots : name = ".."
    · rw [hdots, walk_dots] at h
      exact ht.not_link_of_walk links here.dropLast rest (ht.dropLast hhere) h target hlink
    by_cases hlong : name.utf8ByteSize > maxNameBytes
    · rw [walk_tooLong hdots hlong] at h
      cases h
    rw [walk_step hdots hlong] at h
    split at h
    case h_1 hview =>
      split at h <;> cases h
      rw [view_eq_none_iff.mp hview] at hlink
      cases hlink
    case h_2 locked hview =>
      exact ht.not_link_of_walk links _ rest ⟨locked, (view_eq_some_iff rfl).mp hview⟩ h target hlink
    case h_3 other hview =>
      rw [if_neg (fun hend => by cases hend.2)] at h
      cases links with
      | zero => cases h
      | succ links =>
        refine ht.not_link_of_walk links _ _ ?_ h target hlink
        split
        · exact directoryAt_root t
        · exact hhere
    case h_4 node _ hother hview =>
      split at h <;> cases h
      have hseen := (view_eq_some_iff rfl).mpr hlink
      exact hother target (Option.some.inj (hview.symm.trans hseen))
termination_by links _ todo => (links, todo.length)

/-! ## The directory above -/

theorem utf8ByteSize_bare_parent (p : Path) : p.parent.bare.utf8ByteSize ≤ p.bare.utf8ByteSize := by
  rw [Path.bare, Path.bare, Path.parent, String.utf8ByteSize_append, String.utf8ByteSize_append]
  refine Nat.add_le_add_left ?_ _
  rcases List.eq_nil_or_concat' p.parts with hnil | ⟨names, last, hparts⟩
  · rw [hnil]
    exact Nat.le_refl _
  · rw [hparts, List.dropLast_concat]
    by_cases hnames : names = []
    · rw [hnames]
      exact Nat.zero_le _
    · rw [String.intercalate_append_of_ne_nil hnames (by simp), String.utf8ByteSize_append, String.utf8ByteSize_append]
      dsimp only
      omega

theorem toString_parent_short (h : ¬ p.toString.utf8ByteSize > maxPathBytes) :
    ¬ p.parent.toString.utf8ByteSize > maxPathBytes := by
  have hdot : ".".utf8ByteSize ≤ maxPathBytes := by decide
  have hbare := utf8ByteSize_bare_parent p
  rw [Path.toString]
  split
  case isTrue => omega
  case isFalse hnot =>
    rw [Path.toString] at h
    split at h
    case isTrue hempty =>
      have hparent : p.parent = p := by
        obtain ⟨hanchor, hparts⟩ := hempty
        rw [Path.parent, hparts, List.dropLast_nil, ← hparts]
      rw [hparent] at hnot
      exact absurd hempty hnot
    case isFalse => omega

theorem short_of_lookup {found : Location × Node} (h : t.lookup cwd follow p = .ok found) :
    ¬ p.toString.utf8ByteSize > maxPathBytes := by
  intro hlong
  have hplace := (locate_of_lookup h).1
  rw [locate, if_pos hlong] at hplace
  cases hplace

/-- What a path leads to, it leads to from a directory. -/
theorem Housed.lookup_parent (ht : t.Housed cwd) (h : t.lookup cwd follow p = .ok (place, node)) (hne : p.parts ≠ []) :
    ∃ there locked, t.lookup cwd true p.parent = .ok (there, .directory locked) := by
  obtain ⟨hlocated, _⟩ := locate_of_lookup h
  obtain ⟨names, last, hparts⟩ := (List.eq_nil_or_concat' p.parts).resolve_left hne
  have hparent : p.parts = p.parent.parts ++ [last] := by rw [Path.parent, hparts, List.dropLast_concat]
  rw [locate] at hlocated
  split at hlocated
  case isTrue => cases hlocated
  case isFalse hshort =>
    rw [hparent, walk_concat] at hlocated
    cases hreach : t.reach maxLinks (if p.isAbsolute then [] else cwd) p.parent.parts with
    | error errno =>
      rw [hreach] at hlocated
      cases hlocated
    | ok r =>
      obtain ⟨k, there⟩ := r
      obtain ⟨locked, hthere⟩ := ht.followed.reach _ _ _ (ht.followed.origin p) hreach
      refine ⟨there, locked, lookup_of_node ?_ hthere⟩
      rw [locate, if_neg (toString_parent_short hshort)]
      exact walk_of_reach _ _ _ hreach

/-- A path that leads to a free place leads to it by its last name, from a directory. -/
theorem Housed.lastIn_of_missing (ht : t.Housed cwd) (h : t.locate cwd false p = .ok place)
    (hmissing : t.at? place = none) : ∃ name k here, t.LastIn cwd p name k here ∧ t.DirectoryAt here ∧
      place = here ++ [name] := by
  refine ht.followed.lastIn_of_missing ?_ h hmissing
  rintro here ⟨locked, hhere⟩ hnone
  cases hnone.symm.trans hhere

/-! ## A new node -/

/-- A node is put where nothing stands, in a directory. -/
theorem Housed.put (ht : t.Housed cwd) (hhere : t.DirectoryAt here) (hmissing : t.at? (here ++ [name]) = none)
    (node : Node) : (t.put (here ++ [name]) node).Housed cwd := by
  have hkept : ∀ {q : Location}, t.DirectoryAt q → (t.put (here ++ [name]) node).DirectoryAt q := by
    rintro q ⟨old, hold⟩
    refine ⟨old, (at?_put_of_ne ?_).trans hold⟩
    rintro rfl
    rw [hmissing] at hold
    cases hold
  refine ⟨fun {above last node} hnode => ?_, hkept ht.cwd⟩
  by_cases hsame : above ++ [last] = here ++ [name]
  · rw [(List.append_inj' hsame rfl).1]
    exact hkept hhere
  · exact hkept (ht.parent ((at?_put_of_ne hsame).symm.trans hnode))

/-- A path that led to a free place leads to the directory that is put there. -/
theorem LastIn.lookup_put {k : Nat} (h : t.LastIn cwd p name k here) (hmissing : t.at? (here ++ [name]) = none)
    (locked follow : Bool) : (t.put (here ++ [name]) (.directory locked)).lookup cwd follow p =
      .ok (here ++ [name], .directory locked) := by
  have hnode : (t.put (here ++ [name]) (.directory locked)).at? (here ++ [name]) = some (.directory locked) :=
    at?_put_self (by simp)
  have hlast : (t.put (here ++ [name]) (.directory locked)).LastIn cwd p name k here := by
    refine h.congr fun q hq => congrArg (Option.map _) (at?_put_of_ne ?_)
    rintro rfl
    exact h.not_mem_trail (.inl hmissing) hq
  refine lookup_of_node (hlast.locate_eq fun _ target hlink => ?_) hnode
  rw [hnode] at hlink
  cases hlink

theorem Grown.put (h : t.Grown t') (place : Location) (node : Node) : (t.put place node).Grown (t'.put place node) where
  forth {q m} hm := by
    by_cases hne : q = []
    · rw [hne] at hm ⊢
      exact ⟨m, hm, .same m⟩
    by_cases hq : q = place
    · rw [← hq, at?_put_self hne] at hm
      cases hm
      exact ⟨_, by rw [← hq]; exact at?_put_self hne, .same _⟩
    · rw [at?_put_of_ne hq] at hm ⊢
      exact h.forth hm
  back {q n} hn := by
    by_cases hne : q = []
    · rw [hne] at hn ⊢
      exact ⟨n, hn, .same n⟩
    by_cases hq : q = place
    · rw [← hq, at?_put_self hne] at hn
      cases hn
      exact ⟨_, by rw [← hq]; exact at?_put_self hne, .same _⟩
    · rw [at?_put_of_ne hq] at hn ⊢
      exact h.back hn

/-! ## Places below directories only -/

/-- Directories lead to a place, by names that can be followed. -/
structure Paved (t : FileTree) (place : Location) : Prop where
  named : ∀ name ∈ place, name ≠ ".." ∧ ¬ name.utf8ByteSize > maxNameBytes
  directories : ∀ {here}, here <+: place → t.DirectoryAt here

theorem WellFormed.paved (ht : t.WellFormed) (h : t.DirectoryAt place) : t.Paved place where
  named name hname := by
    obtain ⟨locked, hnode⟩ := h
    have hproper := ht.isName_of_mem hnode name hname
    exact ⟨hproper.notDots, Nat.not_lt.mpr hproper.short⟩
  directories {here} hbelow := by
    induction place using List.reverseRecOn with
    | nil =>
      rw [List.prefix_nil.mp hbelow]
      exact h
    | append_singleton above name ih =>
      rcases List.prefix_concat_iff.mp hbelow with hsame | hbelow
      · rw [hsame]
        exact h
      · obtain ⟨locked, hnode⟩ := h
        exact ih (ht.parent hnode).2 hbelow

namespace Paved

theorem directory (h : t.Paved place) : t.DirectoryAt place := h.directories List.prefix_rfl

theorem mono (h : t.Paved place) (hkept : ∀ {q}, t.DirectoryAt q → t'.DirectoryAt q) : t'.Paved place :=
  ⟨h.named, fun hbelow => hkept (h.directories hbelow)⟩

theorem of_prefix (h : t.Paved place) (hbelow : here <+: place) : t.Paved here :=
  ⟨fun name hname => h.named name (hbelow.subset hname), fun habove => h.directories (habove.trans hbelow)⟩

theorem concat (h : t.Paved here) (hname : name ≠ ".." ∧ ¬ name.utf8ByteSize > maxNameBytes)
    (hdirectory : t.DirectoryAt (here ++ [name])) : t.Paved (here ++ [name]) where
  named other hother := by
    rcases List.mem_append.mp hother with hother | hother
    · exact h.named other hother
    · rw [List.mem_singleton.mp hother]
      exact hname
  directories hbelow := by
    rcases List.prefix_concat_iff.mp hbelow with hsame | hbelow
    · rw [hsame]
      exact hdirectory
    · exact h.directories hbelow

theorem walk_append (h : t.Paved place) (follow : Bool) (links : Nat) (rest : List String) :
    t.walk follow links [] (place ++ rest) = t.walk follow links place rest := by
  induction place using List.reverseRecOn generalizing rest with
  | nil => rfl
  | append_singleton here name ih =>
    obtain ⟨hdots, hshort⟩ := h.named name (List.mem_append_right _ List.mem_cons_self)
    obtain ⟨locked, hnode⟩ := h.directory
    rw [List.append_assoc, ih (h.of_prefix (List.prefix_append _ _)), List.singleton_append, walk_step hdots hshort,
      view, hnode]
    rfl

theorem lookup (h : t.Paved place) (hshort : ¬ (Path.toString ⟨.root, place⟩).utf8ByteSize > maxPathBytes)
    (cwd : Location) (follow : Bool) :
    ∃ locked, t.lookup cwd follow ⟨.root, place⟩ = .ok (place, .directory locked) := by
  obtain ⟨locked, hnode⟩ := h.directory
  refine ⟨locked, lookup_of_node ?_ hnode⟩
  have hwalk := h.walk_append follow maxLinks []
  rw [List.append_nil, walk_nil] at hwalk
  rw [locate, if_neg hshort]
  exact hwalk

end Paved

/-- On the way to a directory a name that is no link leads to a directory. -/
theorem directoryAt_of_walk (hdots : name ≠ "..") (hlink : ∀ target, t.at? (here ++ [name]) ≠ some (.link target))
    (hwalk : t.walk true links here (name :: todo) = .ok place) (hplace : t.DirectoryAt place) :
    ¬ name.utf8ByteSize > maxNameBytes ∧ t.DirectoryAt (here ++ [name]) ∧
      t.walk true links (here ++ [name]) todo = .ok place := by
  by_cases hlong : name.utf8ByteSize > maxNameBytes
  · rw [walk_tooLong hdots hlong] at hwalk
    cases hwalk
  rw [walk_step hdots hlong] at hwalk
  have hnot : ∀ {errno : Errno}, (t.at? (here ++ [name])).any Node.isDirectory = false →
      (if todo = [] then Except.ok (here ++ [name]) else .error errno) ≠ .ok place := by
    intro errno hplain hlast
    split at hlast
    · cases hlast
      obtain ⟨locked, hdirectory⟩ := hplace
      rw [hdirectory] at hplain
      cases hplain
    · cases hlast
  split at hwalk
  case h_1 hview => exact absurd hwalk (hnot (by rw [view_eq_none_iff.mp hview]; rfl))
  case h_2 locked hview => exact ⟨hlong, ⟨locked, (view_eq_some_iff rfl).mp hview⟩, hwalk⟩
  case h_3 target hview => exact absurd ((view_eq_some_iff rfl).mp hview) (hlink target)
  case h_4 node hdirectory _ hview =>
    refine absurd hwalk (hnot ?_)
    cases hnode : t.at? (here ++ [name]) with
    | none => rfl
    | some old =>
      cases old with
      | directory locked =>
        have hseen := (view_eq_some_iff rfl).mpr hnode
        exact absurd (Option.some.inj (hview.symm.trans hseen)) (hdirectory locked)
      | _ => rfl

end ClassAtlas.FileTree
