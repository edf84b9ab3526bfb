import ClassAtlas.Proofs.Files.WellFormed
/-!
# The way to a last name

A path with a last name is followed in two parts: all names before the last have to lead on, and the last
name is looked at where they lead. What stands on the way is directories and links.
-/
namespace ClassAtlas.FileTree

variable {t t' : FileTree} {follow : Bool} {links k : Nat} {here there place : Location} {name : String}
  {rest todo : List String}

/-- The links that are left and the place that names lead to which others come after. -/
def reach (t : FileTree) (links : Nat) (here : Location) (todo : List String) : Except Errno (Nat × Location) :=
  match todo with
  | [] => .ok (links, here)
  | name :: rest =>
    if name = ".." then reach t links here.dropLast rest
    else if name.utf8ByteSize > maxNameBytes then .error .nameTooLong
    else
      match t.at? (here ++ [name]) with
      | none => .error .noEntry
      | some (.directory _) => reach t links (here ++ [name]) rest
      | some (.link target) =>
        match links with
        | 0 => .error .linkLoop
        | links + 1 =>
          reach t links (if (Path.ofString target).isAbsolute then [] else here) ((Path.ofString target).parts ++ rest)
      | some _ => .error .notDirectory
termination_by (links, todo.length)

theorem reach_nil (t : FileTree) (links : Nat) (here : Location) : t.reach links here [] = .ok (links, here) := by
  rw [reach]

theorem reach_dots (t : FileTree) (links : Nat) (here : Location) (rest : List String) :
    t.reach links here (".." :: rest) = t.reach links here.dropLast rest := by
  rw [reach, if_pos rfl]

theorem reach_tooLong (hdots : name ≠ "..") (hlong : name.utf8ByteSize > maxNameBytes) :
    t.reach links here (name :: rest) = .error .nameTooLong := by
  rw [reach, if_neg hdots, if_pos hlong]

theorem reach_step (hdots : name ≠ "..") (hshort : ¬ name.utf8ByteSize > maxNameBytes) :
    t.reach links here (name :: rest) = match t.view (here ++ [name]) with
      | none => .error .noEntry
      | some (.directory _) => t.reach links (here ++ [name]) rest
      | some (.link target) =>
        match links with
        | 0 => .error .linkLoop
        | links + 1 => t.reach links (if (Path.ofString target).isAbsolute then [] else here)
            ((Path.ofString target).parts ++ rest)
      | some _ => .error .notDirectory := by
  rw [reach, if_neg hdots, if_neg hshort, view]
  cases t.at? (here ++ [name]) with
  | none => rfl
  | some n => cases n <;> rfl

/-- A path with a last name is followed up to it, and then the last name is. -/
theorem walk_concat : ∀ (links : Nat) (here : Location) (todo : List String),
    t.walk follow links here (todo ++ [name]) = match t.reach links here todo with
      | .error errno => .error errno
      | .ok (k, there) => t.walk follow k there [name]
  | links, here, [] => by
    rw [reach_nil]
    rfl
  | links, here, first :: rest => by
    rw [List.cons_append]
    by_cases hdots : first = ".."
    · rw [hdots, walk_dots, reach_dots]
      exact walk_concat links here.dropLast rest
    by_cases hlong : first.utf8ByteSize > maxNameBytes
    · rw [walk_tooLong hdots hlong, reach_tooLong hdots hlong]
    have hmore : rest ++ [name] ≠ [] := by simp
    rw [walk_step hdots hlong, reach_step hdots hlong]
    cases hview : t.view (here ++ [first]) with
    | none => exact if_neg hmore
    | some node =>
      cases node with
      | directory locked => exact walk_concat links (here ++ [first]) rest
      | link target =>
        have hgo : ¬ (rest ++ [name] = [] ∧ (!follow) = true) := fun h => hmore h.1
        simp only [if_neg hgo]
        cases links with
        | zero => rfl
        | succ links =>
          dsimp only
          rw [← List.append_assoc]
          exact walk_concat links _ _
      | file bytes => exact if_neg hmore
      | socket => exact if_neg hmore
termination_by links _ todo => (links, todo.length)

/-- Trees in which the same is seen along the trail have names lead to the same place. -/
theorem reach_congr : ∀ (links : Nat) (here : Location) (todo : List String),
    (∀ place ∈ t.trail true links here todo, t'.view place = t.view place) →
      t'.reach links here todo = t.reach links here todo
  | links, here, [], _ => by rw [reach_nil, reach_nil]
  | links, here, name :: rest, hviews => by
    by_cases hdots : name = ".."
    · rw [hdots, trail_dots] at hviews
      rw [hdots, reach_dots, reach_dots]
      exact reach_congr links here.dropLast rest hviews
    by_cases hlong : name.utf8ByteSize > maxNameBytes
    · rw [reach_tooLong hdots hlong, reach_tooLong hdots hlong]
    rw [trail_step hdots hlong] at hviews
    have hview := hviews _ List.mem_cons_self
    have hlater := fun place hplace => hviews place (List.mem_cons_of_mem _ hplace)
    rw [reach_step hdots hlong, reach_step hdots hlong, hview]
    cases hnode : t.view (here ++ [name]) with
    | none => rfl
    | some node =>
      rw [hnode] at hlater
      cases node with
      | directory locked => exact reach_congr links (here ++ [name]) rest hlater
      | link target =>
        cases links with
        | zero => rfl
        | succ links =>
          refine reach_congr links _ _ ?_
          simpa using hlater
      | file bytes => rfl
      | socket => rfl
termination_by links _ todo => (links, todo.length)

/-- Where names lead on, what stands along their trail is directories and links. -/
theorem node_of_mem_trail : ∀ (links : Nat) (here : Location) (todo : List String) {r : Nat × Location},
    t.reach links here todo = .ok r → ∀ place ∈ t.trail true links here todo,
      ∃ node, t.at? place = some node ∧ (node.isDirectory = true ∨ node.isLink = true)
  | links, here, [], _, _, place, hplace => by
    rw [trail] at hplace
    cases hplace
  | links, here, name :: rest, r, hreach, place, hplace => by
    by_cases hdots : name = ".."
    · rw [hdots, trail_dots] at hplace
      rw [hdots, reach_dots] at hreach
      exact node_of_mem_trail links here.dropLast rest hreach place hplace
    by_cases hlong : name.utf8ByteSize > maxNameBytes
    · rw [reach_tooLong hdots hlong] at hreach
      cases hreach
    rw [trail_step hdots hlong] at hplace
    rw [reach_step hdots hlong] at hreach
    cases hview : t.view (here ++ [name]) with
    | none =>
      rw [hview] at hreach
      cases hreach
    | some node =>
      rw [hview] at hreach hplace
      cases node with
      | directory locked =>
        rcases List.mem_cons.mp hplace with rfl | hlater
        · exact ⟨_, (view_eq_some_iff rfl).mp hview, .inl rfl⟩
        · exact node_of_mem_trail links (here ++ [name]) rest hreach place hlater
      | link target =>
        rcases List.mem_cons.mp hplace with rfl | hlater
        · exact ⟨_, (view_eq_some_iff rfl).mp hview, .inr rfl⟩
        · cases links with
          | zero => cases hreach
          | succ links => exact node_of_mem_trail links _ _ hreach place (by simpa using hlater)
      | file bytes => cases hreach
      | socket => cases hreach
termination_by links _ todo => (links, todo.length)

/-- A place stays on a trail when nothing else along it changes. -/
theorem mem_trail_of_views : ∀ (links : Nat) (here : Location) (todo : List String),
    place ∈ t.trail follow links here todo →
    (∀ q ∈ t.trail follow links here todo, q ≠ place → t'.view q = t.view q) →
      place ∈ t'.trail follow links here todo
  | links, here, [], hplace, _ => by
    rw [trail] at hplace
    cases hplace
  | links, here, name :: rest, hplace, hviews => by
    by_cases hdots : name = ".."
    · rw [hdots, trail_dots] at hplace hviews
      rw [hdots, trail_dots]
      exact mem_trail_of_views links here.dropLast rest hplace hviews
    by_cases hlong : name.utf8ByteSize > maxNameBytes
    · rw [trail, if_neg hdots, if_pos hlong] at hplace
      cases hplace
    rw [trail_step hdots hlong] at hplace hviews
    rw [trail_step hdots hlong]
    by_cases hhere : here ++ [name] = place
    · exact hhere ▸ List.mem_cons_self
    have hview := hviews _ List.mem_cons_self hhere
    have hlater := fun q hq => hviews q (List.mem_cons_of_mem _ hq)
    rw [hview]
    refine List.mem_cons_of_mem _ ?_
    have hplace := (List.mem_cons.mp hplace).resolve_left (Ne.symm hhere)
    cases hnode : t.view (here ++ [name]) with
    | none =>
      rw [hnode] at hplace
      cases hplace
    | some node =>
      rw [hnode] at hplace hlater
      cases node with
      | directory locked => exact mem_trail_of_views links (here ++ [name]) rest hplace hlater
      | link target =>
        dsimp only at hplace hlater ⊢
        split at hplace
        case isTrue => cases hplace
        case isFalse hgo =>
          simp only [if_neg hgo] at hlater ⊢
          cases links with
          | zero => cases hplace
          | succ links => exact mem_trail_of_views links _ _ hplace hlater
      | file bytes => cases hplace
      | socket => cases hplace
termination_by links _ todo => (links, todo.length)

/-- The trail of more names goes on where those before them lead. -/
theorem trail_append (more : List String) : ∀ (links : Nat) (here : Location) (todo : List String) {k : Nat}
    {there : Location}, t.reach links here todo = .ok (k, there) →
      t.trail true links here (todo ++ more) = t.trail true links here todo ++ t.trail true k there more
  | links, here, [], k, there, hreach => by
    rw [reach_nil] at hreach
    cases hreach
    rw [List.nil_append, trail, List.nil_append]
  | links, here, name :: rest, k, there, hreach => by
    rw [List.cons_append]
    by_cases hdots : name = ".."
    · rw [hdots, reach_dots] at hreach
      rw [hdots, trail_dots, trail_dots]
      exact trail_append more links here.dropLast rest hreach
    by_cases hlong : name.utf8ByteSize > maxNameBytes
    · rw [reach_tooLong hdots hlong] at hreach
      cases hreach
    rw [reach_step hdots hlong] at hreach
    rw [trail_step hdots hlong, trail_step hdots hlong]
    cases hview : t.view (here ++ [name]) with
    | none =>
      rw [hview] at hreach
      cases hreach
    | some node =>
      rw [hview] at hreach
      cases node with
      | directory locked => exact congrArg _ (trail_append more links (here ++ [name]) rest hreach)
      | link target =>
        cases links with
        | zero => cases hreach
        | succ links =>
          have hrest := trail_append more links _ _ hreach
          rw [List.append_assoc] at hrest
          simpa using hrest
      | file bytes => cases hreach
      | socket => cases hreach
termination_by links _ todo => (links, todo.length)

/-! ## Links that lead to themselves -/

theorem walk_link {target : String} (hdots : name ≠ "..") (hshort : ¬ name.utf8ByteSize > maxNameBytes)
    (hlink : t.at? (here ++ [name]) = some (.link target)) (m : Nat) (more : List String) :
    t.walk true (m + 1) here (name :: more) =
      t.walk true m (if (Path.ofString target).isAbsolute then [] else here) ((Path.ofString target).parts ++ more) := by
  rw [walk_step hdots hshort, (view_eq_some_iff rfl).mpr hlink]
  simp

theorem trail_link {target : String} (hdots : name ≠ "..") (hshort : ¬ name.utf8ByteSize > maxNameBytes)
    (hlink : t.at? (here ++ [name]) = some (.link target)) (m : Nat) (more : List String) :
    t.trail true (m + 1) here (name :: more) = (here ++ [name]) ::
      t.trail true m (if (Path.ofString target).isAbsolute then [] else here) ((Path.ofString target).parts ++ more) := by
  rw [trail_step hdots hshort, (view_eq_some_iff rfl).mpr hlink]
  simp

/-- A link that is followed takes one of the links that are left. -/
theorem walk_of_link {target : String} {more : List String} (hdots : name ≠ "..")
    (hshort : ¬ name.utf8ByteSize > maxNameBytes) (hlink : t.at? (here ++ [name]) = some (.link target))
    (hwalk : t.walk true links here (name :: more) = .ok place) : ∃ m, links = m + 1 ∧
      t.walk true m (if (Path.ofString target).isAbsolute then [] else here) ((Path.ofString target).parts ++ more) =
        .ok place := by
  cases links with
  | zero =>
    rw [walk_step hdots hshort, (view_eq_some_iff rfl).mpr hlink] at hwalk
    simp at hwalk
  | succ m =>
    rw [walk_link hdots hshort hlink] at hwalk
    exact ⟨m, rfl, hwalk⟩

/-- A walk passes what is on its trail, with the names after that still to be followed. -/
theorem walk_of_mem_trail : ∀ (links : Nat) (here : Location) (todo : List String),
    there ++ [name] ∈ t.trail true links here todo → ∃ rest, ∀ (m : Nat) (more : List String) (place : Location),
      t.walk true m here (todo ++ more) = .ok place →
        ∃ n ≤ m, t.walk true n there (name :: (rest ++ more)) = .ok place
  | links, here, [], hmem => by
    rw [trail] at hmem
    cases hmem
  | links, here, first :: todo, hmem => by
    by_cases hdots : first = ".."
    · rw [hdots, trail_dots] at hmem
      obtain ⟨rest, hpass⟩ := walk_of_mem_trail links here.dropLast todo hmem
      refine ⟨rest, fun m more place hwalk => hpass m more place ?_⟩
      rwa [hdots, List.cons_append, walk_dots] at hwalk
    by_cases hlong : first.utf8ByteSize > maxNameBytes
    · rw [trail, if_neg hdots, if_pos hlong] at hmem
      cases hmem
    rw [trail_step hdots hlong] at hmem
    rcases List.mem_cons.mp hmem with hsame | hlater
    · obtain ⟨rfl, hname⟩ := List.append_inj' hsame rfl
      rw [List.singleton_inj.mp hname]
      exact ⟨todo, fun m more place hwalk => ⟨m, Nat.le_refl m, hwalk⟩⟩
    · cases hview : t.view (here ++ [first]) with
      | none =>
        rw [hview] at hlater
        cases hlater
      | some node =>
        rw [hview] at hlater
        cases node with
        | directory locked =>
          obtain ⟨rest, hpass⟩ := walk_of_mem_trail links (here ++ [first]) todo hlater
          refine ⟨rest, fun m more place hwalk => hpass m more place ?_⟩
          rwa [List.cons_append, walk_step hdots hlong, hview] at hwalk
        | link target =>
          cases links with
          | zero => simp at hlater
          | succ links =>
            obtain ⟨rest, hpass⟩ := walk_of_mem_trail links _ _ (by simpa using hlater)
            refine ⟨rest, fun m more place hwalk => ?_⟩
            obtain ⟨l, rfl, hround⟩ := walk_of_link hdots hlong ((view_eq_some_iff rfl).mp hview) hwalk
            obtain ⟨n, hn, hrest⟩ := hpass l more place (by rw [List.append_assoc]; exact hround)
            exact ⟨n, Nat.le_succ_of_le hn, hrest⟩
        | file bytes => cases hlater
        | socket => cases hlater
termination_by links _ todo => (links, todo.length)

/-- A link that leads somewhere is not on its own trail, since each time round takes one of the links that are left. -/
theorem not_mem_trail_of_link {target : String} (hdots : name ≠ "..") (hshort : ¬ name.utf8ByteSize > maxNameBytes)
    (hlink : t.at? (here ++ [name]) = some (.link target))
    (hwalk : t.walk true links (if (Path.ofString target).isAbsolute then [] else here) (Path.ofString target).parts =
      .ok place) :
    here ++ [name] ∉
      t.trail true links (if (Path.ofString target).isAbsolute then [] else here) (Path.ofString target).parts := by
  intro hmem
  obtain ⟨rest, hpass⟩ := walk_of_mem_trail _ _ _ hmem
  have hnever : ∀ (m : Nat) (more : List String), t.walk true m
      (if (Path.ofString target).isAbsolute then [] else here) ((Path.ofString target).parts ++ more) ≠ .ok place := by
    intro m
    induction m using Nat.strongRecOn with
    | ind m ih =>
      intro more hmore
      obtain ⟨n, hn, hagain⟩ := hpass m more place hmore
      obtain ⟨l, rfl, hround⟩ := walk_of_link hdots hshort hlink hagain
      exact ih l hn (rest ++ more) hround
  exact hnever links [] (by rw [List.append_nil]; exact hwalk)

/-! ## The last name -/

/-- A last name that is no link, or is not followed, leads to its own place. -/
theorem walk_last (hdots : name ≠ "..") (hshort : ¬ name.utf8ByteSize > maxNameBytes)
    (hlink : follow = true → ∀ target, t.at? (here ++ [name]) ≠ some (.link target)) :
    t.walk follow links here [name] = .ok (here ++ [name]) := by
  rw [walk_step hdots hshort]
  cases hview : t.view (here ++ [name]) with
  | none => rfl
  | some node =>
    cases node with
    | directory locked => exact walk_nil ..
    | link target =>
      cases follow with
      | true => exact absurd ((view_eq_some_iff rfl).mp hview) (hlink rfl target)
      | false => rfl
    | file bytes => rfl
    | socket => rfl

/-- Names lead to a file where they led to it before it was written, or led to nothing. -/
theorem walk_of_written {bytes : List UInt8} (hfree : t.Free place)
    (hfile : t'.at? place = some (.file bytes)) : ∀ (links : Nat) (here : Location) (todo : List String),
      t.walk true links here todo = .ok place →
      (∀ q ∈ t.trail true links here todo, q ≠ place → t'.view q = t.view q) →
        t'.walk true links here todo = .ok place
  | links, here, [], hwalk, _ => by
    rw [walk_nil] at hwalk ⊢
    exact hwalk
  | links, here, name :: rest, hwalk, hviews => by
    by_cases hdots : name = ".."
    · rw [hdots, trail_dots] at hviews
      rw [hdots, walk_dots] at hwalk ⊢
      exact walk_of_written hfree hfile links here.dropLast rest hwalk hviews
    by_cases hlong : name.utf8ByteSize > maxNameBytes
    · rw [walk_tooLong hdots hlong] at hwalk
      cases hwalk
    rw [trail_step hdots hlong] at hviews
    rw [walk_step hdots hlong] at hwalk ⊢
    have hlater := fun q hq => hviews q (List.mem_cons_of_mem _ hq)
    by_cases hend : here ++ [name] = place
    · -- Here the walk has come to its end.
      have hview : t'.view (here ++ [name]) = some (.file []) := by rw [hend, view, hfile]; rfl
      rw [hview]
      rcases hfree with hnone | ⟨old, hold⟩
      · have hview : t.view (here ++ [name]) = none := by rw [hend, view, hnone]; rfl
        rw [hview] at hwalk
        dsimp only at hwalk ⊢
        split at hwalk
        case isTrue hlast => rw [if_pos hlast, hend]
        case isFalse => cases hwalk
      · have hview : t.view (here ++ [name]) = some (.file []) := by rw [hend, view, hold]; rfl
        rw [hview] at hwalk
        exact hwalk
    · rw [hviews _ List.mem_cons_self hend]
      cases hview : t.view (here ++ [name]) with
      | none =>
        rw [hview] at hwalk
        exact hwalk
      | some node =>
        rw [hview] at hwalk hlater
        cases node with
        | directory locked => exact walk_of_written hfree hfile links (here ++ [name]) rest hwalk hlater
        | link target =>
          simp only [Bool.not_true, Bool.false_eq_true, and_false, if_false] at hwalk hlater ⊢
          cases links with
          | zero => cases hwalk
          | succ links => exact walk_of_written hfree hfile links _ _ hwalk hlater
        | file bytes => exact hwalk
        | socket => exact hwalk
termination_by links _ todo => (links, todo.length)

/-- Where names lead among fewer nodes they led before, as long as something is there or the last name is not
followed. -/
theorem walk_of_more (hfewer : ∀ q, t'.at? q = t.at? q ∨ t'.at? q = none)
    (hend : follow = true → t'.at? place ≠ none) : ∀ (links : Nat) (here : Location) (todo : List String),
      t'.walk follow links here todo = .ok place → t.walk follow links here todo = .ok place
  | links, here, [], hwalk => by
    rw [walk_nil] at hwalk ⊢
    exact hwalk
  | links, here, name :: rest, hwalk => by
    by_cases hdots : name = ".."
    · rw [hdots, walk_dots] at hwalk ⊢
      exact walk_of_more hfewer hend links here.dropLast rest hwalk
    by_cases hlong : name.utf8ByteSize > maxNameBytes
    · rw [walk_tooLong hdots hlong] at hwalk
      cases hwalk
    rw [walk_step hdots hlong] at hwalk
    rcases hfewer (here ++ [name]) with hsame | hgone
    · have hview : t'.view (here ++ [name]) = t.view (here ++ [name]) := congrArg (Option.map _) hsame
      rw [hview] at hwalk
      rw [walk_step hdots hlong]
      cases hnext : t.view (here ++ [name]) with
      | none =>
        rw [hnext] at hwalk
        exact hwalk
      | some next =>
        rw [hnext] at hwalk
        cases next with
        | directory locked => exact walk_of_more hfewer hend links (here ++ [name]) rest hwalk
        | link target =>
          dsimp only at hwalk ⊢
          split at hwalk
          case isTrue hlast => rw [if_pos hlast, hwalk]
          case isFalse hgo =>
            rw [if_neg hgo]
            cases links with
            | zero => cases hwalk
            | succ links => exact walk_of_more hfewer hend links _ _ hwalk
        | file bytes => exact hwalk
        | socket => exact hwalk
    · -- Where nothing is left, the last name has its own place, whatever stood there.
      have hview : t'.view (here ++ [name]) = none := congrArg (Option.map _) hgone
      rw [hview] at hwalk
      dsimp only at hwalk
      split at hwalk
      case isFalse => cases hwalk
      case isTrue hlast =>
        cases hwalk
        rw [hlast]
        exact walk_last hdots hlong fun hfollow => absurd hgone (hend hfollow)
termination_by links _ todo => (links, todo.length)

section
variable {cwd : Location} {p : Path}

/-- Where the names of a path start. -/
def origin (cwd : Location) (p : Path) : Location := if p.isAbsolute then [] else cwd

/-- The places that are looked at when a path is followed, with the one where it ends. -/
def way (t : FileTree) (cwd : Location) (p : Path) : List Location :=
  t.trail true maxLinks (origin cwd p) p.parts ++ (t.locate cwd true p).toOption.toList

theorem mem_way_of_mem_trail (h : place ∈ t.trail true maxLinks (origin cwd p) p.parts) : place ∈ t.way cwd p :=
  List.mem_append_left _ h

theorem mem_way_of_locate (h : t.locate cwd true p = .ok place) : place ∈ t.way cwd p := by
  rw [way, h]
  exact List.mem_append_right _ List.mem_cons_self

theorem locate_of_fewer {a b : Location} (hfewer : ∀ q, t'.at? q = t.at? q ∨ t'.at? q = none)
    (ha : t.locate cwd false p = .ok a) (hb : t'.locate cwd false p = .ok b) : b = a := by
  rw [locate] at ha hb
  split at ha
  case isTrue => cases ha
  case isFalse hshort =>
    rw [if_neg hshort] at hb
    have hbefore := walk_of_more hfewer (fun hfollow => by cases hfollow) _ _ _ hb
    exact Except.ok.inj (hbefore.symm.trans ha)

theorem lookup_of_more {node : Node} (hfewer : ∀ q, t'.at? q = t.at? q ∨ t'.at? q = none)
    (hfound : t'.lookup cwd follow p = .ok (place, node)) : t.lookup cwd follow p = .ok (place, node) := by
  obtain ⟨hplace, hnode⟩ := locate_of_lookup hfound
  have hold : t.at? place = some node := by
    rcases hfewer place with hsame | hgone
    · rw [← hsame, hnode]
    · rw [hgone] at hnode
      cases hnode
  refine lookup_of_node ?_ hold
  rw [locate] at hplace ⊢
  split at hplace
  case isTrue => cases hplace
  case isFalse hshort =>
    rw [if_neg hshort]
    exact walk_of_more hfewer (fun _ => by simp [hnode]) _ _ _ hplace

theorem locate_congr (hviews : ∀ place ∈ t.way cwd p, t'.view place = t.view place) :
    t'.locate cwd true p = t.locate cwd true p := by
  rw [locate, locate]
  split
  · rfl
  · exact walk_congr maxLinks _ p.parts fun place hplace => hviews place (mem_way_of_mem_trail hplace)

/-- The last name of a path, and the place where the names before it lead. -/
structure LastIn (t : FileTree) (cwd : Location) (p : Path) (name : String) (k : Nat) (here : Location) : Prop where
  parts : p.parts = p.parent.parts ++ [name]
  noDots : name ≠ ".."
  short : ¬ name.utf8ByteSize > maxNameBytes
  pathShort : ¬ p.toString.utf8ByteSize > maxPathBytes
  reach : t.reach maxLinks (origin cwd p) p.parent.parts = .ok (k, here)

namespace LastIn

theorem locate_eq_walk (h : t.LastIn cwd p name k here) (follow : Bool) :
    t.locate cwd follow p = t.walk follow k here [name] := by
  have hreach := h.reach
  rw [origin] at hreach
  rw [locate, if_neg h.pathShort, h.parts, walk_concat, hreach]

theorem locate_eq (h : t.LastIn cwd p name k here)
    (hlink : follow = true → ∀ target, t.at? (here ++ [name]) ≠ some (.link target)) :
    t.locate cwd follow p = .ok (here ++ [name]) := by
  rw [h.locate_eq_walk, walk_last h.noDots h.short hlink]

theorem trail_eq (h : t.LastIn cwd p name k here) : t.trail true maxLinks (origin cwd p) p.parts =
    t.trail true maxLinks (origin cwd p) p.parent.parts ++ t.trail true k here [name] := by
  rw [h.parts, trail_append _ _ _ _ h.reach]

/-- A last name that is not followed has its own place. -/
theorem locate_self (h : t.LastIn cwd p name k here) : t.locate cwd false p = .ok (here ++ [name]) :=
  h.locate_eq fun hfollow => absurd hfollow (by decide)

theorem of_locate (hparts : p.parts = p.parent.parts ++ [name]) (hdots : name ≠ "..")
    (h : t.locate cwd follow p = .ok place) : ∃ k here, t.LastIn cwd p name k here := by
  rw [locate] at h
  split at h
  case isTrue => cases h
  case isFalse hpath =>
    rw [hparts, walk_concat] at h
    cases hreach : t.reach maxLinks (if p.isAbsolute then [] else cwd) p.parent.parts with
    | error errno =>
      rw [hreach] at h
      cases h
    | ok r =>
      obtain ⟨k, here⟩ := r
      rw [hreach] at h
      refine ⟨k, here, hparts, hdots, fun hlong => ?_, hpath, hreach⟩
      simp only [walk_tooLong hdots hlong] at h
      cases h

/-- Where the same is seen on the way to the last name, it stands in the same place. -/
theorem congr (h : t.LastIn cwd p name k here)
    (hviews : ∀ q ∈ t.trail true maxLinks (origin cwd p) p.parent.parts, t'.view q = t.view q) :
    t'.LastIn cwd p name k here :=
  { h with reach := by rw [reach_congr _ _ _ hviews, h.reach] }

/-- Paths that differ in their last names lead to the same directory. -/
theorem sibling {q : Path} {other : String} (h : t.LastIn cwd p name k here) (hparent : q.parent = p.parent)
    (hparts : q.parts = q.parent.parts ++ [other]) (hdots : other ≠ "..") (hshort : ¬ other.utf8ByteSize > maxNameBytes)
    (hpath : ¬ q.toString.utf8ByteSize > maxPathBytes) : t.LastIn cwd q other k here where
  parts := hparts
  noDots := hdots
  short := hshort
  pathShort := hpath
  reach := by
    have hanchor : q.parent.anchor = p.parent.anchor := by rw [hparent]
    have hanchor : q.anchor = p.anchor := hanchor
    have horigin : origin cwd q = origin cwd p := by rw [origin, origin, Path.isAbsolute, Path.isAbsolute, hanchor]
    rw [horigin, hparent]
    exact h.reach

/-- What is missing or a file does not stand on the way. -/
theorem not_mem_trail (h : t.LastIn cwd p name k here) (hfree : t.Free place) :
    place ∉ t.trail true maxLinks (origin cwd p) p.parent.parts := by
  intro hplace
  obtain ⟨node, hnode, hkind⟩ := node_of_mem_trail _ _ _ h.reach _ hplace
  rcases hfree with hnone | ⟨bytes, hfile⟩
  · rw [hnone] at hnode
    cases hnode
  · rw [hfile] at hnode
    cases hnode
    rcases hkind with hkind | hkind <;> cases hkind

end LastIn

/-- The names of a directory lead to it. -/
theorem WellFormed.reach_directory (ht : t.WellFormed) {locked : Bool} (hplace : t.at? place = some (.directory locked))
    (links : Nat) (rest : List String) : t.reach links [] (place ++ rest) = t.reach links place rest := by
  induction place using List.reverseRecOn generalizing locked rest with
  | nil => rfl
  | append_singleton here name ih =>
    obtain ⟨hname, _, hhere⟩ := ht.parent hplace
    rw [List.append_assoc, ih hhere, List.singleton_append, reach_step hname.notDots (Nat.not_lt.mpr hname.short), view,
      hplace]
    rfl

/-- A path that is followed to its end is short, and so is its last name. -/
theorem short_of_locate (hdots : name ≠ "..") (h : t.locate cwd follow ⟨.root, here ++ [name]⟩ = .ok place) :
    name.utf8ByteSize ≤ maxNameBytes ∧ (Path.toString ⟨.root, here ++ [name]⟩).utf8ByteSize ≤ maxPathBytes := by
  obtain ⟨_, _, hlast⟩ := LastIn.of_locate (by rw [Path.parent, List.dropLast_concat]) hdots h
  exact ⟨Nat.not_lt.mp hlast.short, Nat.not_lt.mp hlast.pathShort⟩

/-- A name in a directory, under a path without links. -/
theorem WellFormed.lastIn (ht : t.WellFormed) {locked : Bool} (hhere : t.at? here = some (.directory locked))
    (hname : IsName name) (hshort : (Path.toString ⟨.root, here ++ [name]⟩).utf8ByteSize ≤ maxPathBytes) :
    t.LastIn cwd ⟨.root, here ++ [name]⟩ name maxLinks here where
  parts := by rw [Path.parent, List.dropLast_concat]
  noDots := hname.notDots
  short := Nat.not_lt.mpr hname.short
  pathShort := Nat.not_lt.mpr hshort
  reach := by
    have hdirectory := ht.reach_directory hhere maxLinks []
    rw [List.append_nil, reach_nil] at hdirectory
    rw [Path.parent, List.dropLast_concat]
    exact hdirectory

end

end ClassAtlas.FileTree
