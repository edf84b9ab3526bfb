import ClassAtlas.Proofs.Files.Reach
/-!
# Trees in which everything has its root

What holds where paths start, above such places and at every directory holds where names lead. In a rooted tree
something stands above everything, so a path to a free place ends with a name of its own. Planting keeps trees rooted.
-/
namespace ClassAtlas.FileTree

variable {t t' : FileTree} {cwd here there place q : Location} {name : String} {names todo : List String}
  {p : Path} {node : Node} {follow : Bool} {P : Location → Prop}

/-- Following names keeps to places with the property. -/
structure Followed (t : FileTree) (cwd : Location) (P : Location → Prop) : Prop where
  root : P []
  cwd : P cwd
  up : ∀ {here}, P here → P here.dropLast
  down : ∀ {here name locked}, t.at? (here ++ [name]) = some (.directory locked) → P (here ++ [name])

namespace Followed

theorem origin (hf : t.Followed cwd P) (p : Path) : P (FileTree.origin cwd p) := by
  rw [FileTree.origin]
  split
  · exact hf.root
  · exact hf.cwd

/-- Names that others come after lead to such a place. -/
theorem reach (hf : t.Followed cwd P) : ∀ (links : Nat) (here : Location) (todo : List String) {k : Nat}
    {there : Location}, P here → t.reach links here todo = .ok (k, there) → P there
  | links, here, [], k, there, hhere, hreach => by
    rw [reach_nil] at hreach
    cases hreach
    exact hhere
  | links, here, name :: rest, k, there, hhere, hreach => by
    by_cases hdots : name = ".."
    · rw [hdots, reach_dots] at hreach
      exact reach hf links here.dropLast rest (hf.up hhere) hreach
    by_cases hlong : name.utf8ByteSize > maxNameBytes
    · rw [reach_tooLong hdots hlong] at hreach
      cases hreach
    rw [reach_step hdots hlong] at hreach
    cases hview : t.view (here ++ [name]) with
    | none =>
      rw [hview] at hreach
      cases hreach
    | some node =>
      rw [hview] at hreach
      cases node with
      | directory locked =>
        exact reach hf links (here ++ [name]) rest (hf.down ((view_eq_some_iff rfl).mp hview)) hreach
      | link target =>
        cases links with
        | zero => cases hreach
        | succ links =>
          refine reach hf links _ _ ?_ hreach
          split
          · exact hf.root
          · exact hhere
      | file bytes => cases hreach
      | socket => cases hreach
termination_by links _ todo => (links, todo.length)

/-- All names together lead to such a place, or to one directly below. -/
theorem walk (hf : t.Followed cwd P) : ∀ (links : Nat) (here : Location) (todo : List String) {place : Location},
    P here → t.walk follow links here todo = .ok place → P place ∨ ∃ above name, place = above ++ [name] ∧ P above
  | links, here, [], place, hhere, hwalk => by
    rw [walk_nil] at hwalk
    cases hwalk
    exact .inl hhere
  | links, here, name :: rest, place, hhere, hwalk => by
    by_cases hdots : name = ".."
    · rw [hdots, walk_dots] at hwalk
      exact walk hf links here.dropLast rest (hf.up hhere) hwalk
    by_cases hlong : name.utf8ByteSize > maxNameBytes
    · rw [walk_tooLong hdots hlong] at hwalk
      cases hwalk
    rw [walk_step hdots hlong] at hwalk
    have hlast : ∀ {errno : Errno}, (if rest = [] then Except.ok (here ++ [name]) else .error errno) = .ok place →
        P place ∨ ∃ above name, place = above ++ [name] ∧ P above := by
      intro errno hlast
      split at hlast
      · cases hlast
        exact .inr ⟨here, name, rfl, hhere⟩
      · cases hlast
    split at hwalk
    case h_1 => exact hlast hwalk
    case h_2 hview => exact walk hf links (here ++ [name]) rest (hf.down ((view_eq_some_iff rfl).mp hview)) hwalk
    case h_3 target _ =>
      split at hwalk
      case isTrue =>
        cases hwalk
        exact .inr ⟨here, name, rfl, hhere⟩
      case isFalse =>
        cases links with
        | zero => cases hwalk
        | succ links =>
          refine walk hf links _ _ ?_ hwalk
          split
          · exact hf.root
          · exact hhere
    case h_4 => exact hlast hwalk
termination_by links _ todo => (links, todo.length)

/-- A path that leads to a free place leads there by its last name. -/
theorem lastIn_of_missing (hf : t.Followed cwd P) (hstands : ∀ place, P place → t.at? place ≠ none)
    (h : t.locate cwd false p = .ok place) (hmissing : t.at? place = none) :
    ∃ name k here, t.LastIn cwd p name k here ∧ P here ∧ place = here ++ [name] := by
  have hnot : ¬ P place := fun hplace => hstands place hplace hmissing
  rcases List.eq_nil_or_concat' p.parts with hnil | ⟨names, last, hparts⟩
  · rw [locate] at h
    split at h
    case isTrue => cases h
    case isFalse =>
      rw [hnil, walk_nil] at h
      cases h
      exact absurd (hf.origin p) hnot
  · have hparent : p.parts = p.parent.parts ++ [last] := by rw [Path.parent, hparts, List.dropLast_concat]
    by_cases hdots : last = ".."
    · rw [locate] at h
      split at h
      case isTrue => cases h
      case isFalse =>
        rw [hparent, walk_concat] at h
        cases hreach : t.reach maxLinks (if p.isAbsolute then [] else cwd) p.parent.parts with
        | error errno =>
          rw [hreach] at h
          cases h
        | ok r =>
          obtain ⟨k, there⟩ := r
          rw [hreach, hdots] at h
          dsimp only at h
          rw [walk_dots, walk_nil] at h
          cases h
          exact absurd (hf.up (hf.reach _ _ _ (hf.origin p) hreach)) hnot
    · obtain ⟨k, here, hlast⟩ := LastIn.of_locate hparent hdots h
      have hplace := hlast.locate_self
      rw [h] at hplace
      cases hplace
      exact ⟨last, k, here, hlast, hf.reach _ _ _ (hf.origin p) hlast.reach, rfl⟩

end Followed

/-! ## Rooted trees -/

/-- Something stands at the place. -/
def Stands (t : FileTree) (place : Location) : Prop := ∃ node, t.at? place = some node

/-- Something stands above everything, and the current directory is there. -/
structure Rooted (t : FileTree) (cwd : Location) : Prop where
  parent : ∀ {here name}, t.Stands (here ++ [name]) → t.Stands here
  cwd : t.Stands cwd

theorem stands_root (t : FileTree) : t.Stands [] := ⟨_, rfl⟩

theorem Stands.put (h : t.Stands q) (place : Location) (node : Node) : (t.put place node).Stands q := by
  by_cases hroot : q = []
  · rw [hroot]
    exact stands_root _
  by_cases hq : q = place
  · rw [hq] at hroot ⊢
    exact ⟨node, at?_put_self hroot⟩
  · obtain ⟨old, hold⟩ := h
    exact ⟨old, (at?_put_of_ne hq).trans hold⟩

namespace Rooted

theorem followed (ht : t.Rooted cwd) : t.Followed cwd t.Stands where
  root := stands_root t
  cwd := ht.cwd
  up {here} hhere := by
    rcases List.eq_nil_or_concat' here with rfl | ⟨above, name, rfl⟩
    · exact hhere
    · rw [List.dropLast_concat]
      exact ht.parent hhere
  down hdirectory := ⟨_, hdirectory⟩

theorem lastIn_of_missing (ht : t.Rooted cwd) (h : t.locate cwd false p = .ok place) (hmissing : t.at? place = none) :
    ∃ name k here, t.LastIn cwd p name k here ∧ place = here ++ [name] := by
  have hstands : ∀ place, t.Stands place → t.at? place ≠ none := by
    rintro place ⟨node, hnode⟩ hnone
    cases hnone.symm.trans hnode
  obtain ⟨name, k, here, hlast, _, hplace⟩ := ht.followed.lastIn_of_missing hstands h hmissing
  exact ⟨name, k, here, hlast, hplace⟩

theorem stands_of_prefix (ht : t.Rooted cwd) (hplace : t.Stands place) (hbelow : here <+: place) : t.Stands here := by
  induction place using List.reverseRecOn with
  | nil =>
    rw [List.prefix_nil.mp hbelow]
    exact hplace
  | append_singleton above name ih =>
    rcases List.prefix_concat_iff.mp hbelow with hsame | hbelow
    · rw [hsame]
      exact hplace
    · exact ih (ht.parent hplace) hbelow

theorem put (ht : t.Rooted cwd) (hhere : t.Stands here) (name : String) (node : Node) :
    (t.put (here ++ [name]) node).Rooted cwd := by
  refine ⟨fun {above last} habove => ?_, ht.cwd.put _ _⟩
  by_cases hsame : above ++ [last] = here ++ [name]
  · rw [(List.append_inj' hsame rfl).1]
    exact hhere.put _ _
  · obtain ⟨old, hold⟩ := habove
    rw [at?_put_of_ne hsame] at hold
    exact (ht.parent ⟨old, hold⟩).put _ _

end Rooted

/-! ## Planting -/

theorem makeParents_cons (t : FileTree) (here : Location) (name : String) (hne : todo ≠ []) :
    t.makeParents here (name :: todo) = (if (t.at? (here ++ [name])).isSome then t
      else t.put (here ++ [name]) (.directory false)).makeParents (here ++ [name]) todo := by
  cases todo with
  | nil => exact absurd rfl hne
  | cons next rest => rfl

/-- Nothing changes where something stands already, or off the way. -/
theorem at?_makeParents (hq : t.Stands q ∨ ¬ q <+: here ++ todo) : (t.makeParents here todo).at? q = t.at? q := by
  induction todo generalizing t here with
  | nil => rfl
  | cons name rest ih =>
    by_cases hrest : rest = []
    · rw [hrest]
      rfl
    rw [makeParents_cons _ _ _ hrest]
    have hway : here ++ name :: rest = here ++ [name] ++ rest := by simp
    rw [hway] at hq
    cases hnext : (t.at? (here ++ [name])).isSome with
    | true => exact ih hq
    | false =>
      have hne : q ≠ here ++ [name] := by
        rintro rfl
        rcases hq with ⟨node, hnode⟩ | hoff
        · rw [hnode] at hnext
          cases hnext
        · exact hoff (List.prefix_append _ _)
      simp only [Bool.false_eq_true, if_false]
      rw [ih (hq.imp_left fun hstands => hstands.put _ _)]
      exact at?_put_of_ne hne

/-- The place above the last name stands then. -/
theorem Rooted.makeParents (ht : t.Rooted cwd) (hhere : t.Stands here) (name : String) (names : List String) :
    (t.makeParents here (names ++ [name])).Rooted cwd ∧ (t.makeParents here (names ++ [name])).Stands (here ++ names) := by
  induction names generalizing t here with
  | nil =>
    rw [List.append_nil]
    exact ⟨ht, hhere⟩
  | cons first names ih =>
    rw [List.cons_append, makeParents_cons _ _ _ (by simp), List.append_cons here first names]
    cases hnext : (t.at? (here ++ [first])).isSome with
    | true => exact ih ht (Option.isSome_iff_exists.mp hnext)
    | false => exact ih (ht.put hhere first _) ⟨_, at?_put_self (by simp)⟩

theorem at?_put_root (t : FileTree) (node : Node) (q : Location) : (t.put [] node).at? q = t.at? q := by
  by_cases hq : q = []
  · rw [hq]
    rfl
  · exact at?_put_of_ne hq

theorem Rooted.plant (ht : t.Rooted cwd) (place : Location) (node : Node) : (t.plant place node).Rooted cwd := by
  rcases List.eq_nil_or_concat' place with rfl | ⟨names, name, rfl⟩
  · have hsame : ∀ q, (t.plant [] node).Stands q ↔ t.Stands q := fun q =>
      exists_congr fun _ => by rw [FileTree.plant, at?_put_root]; rfl
    exact ⟨fun habove => (hsame _).mpr (ht.parent ((hsame _).mp habove)), (hsame _).mpr ht.cwd⟩
  · obtain ⟨hrooted, hstands⟩ := ht.makeParents (stands_root t) name names
    exact hrooted.put hstands name node

/-- What is planted at and below a place changes nothing elsewhere. -/
theorem Rooted.at?_plant (ht : t.Rooted cwd) (hplace : t.Stands place) (hq : ¬ place <+: q) (names : List String)
    (node : Node) : (t.plant (place ++ names) node).at? q = t.at? q := by
  have hne : q ≠ place ++ names := by
    rintro rfl
    exact hq (List.prefix_append _ _)
  rw [FileTree.plant, at?_put_of_ne hne]
  refine at?_makeParents ?_
  rw [List.nil_append]
  by_cases hway : q <+: place ++ names
  · have habove := (List.prefix_or_prefix_of_prefix hway (List.prefix_append place names)).resolve_right hq
    exact .inl (ht.stands_of_prefix hplace habove)
  · exact .inr hway

theorem Stands.plant (h : t.Stands q) (place : Location) (node : Node) : (t.plant place node).Stands q := by
  refine Stands.put ?_ _ _
  obtain ⟨old, hold⟩ := h
  exact ⟨old, (at?_makeParents (.inl ⟨old, hold⟩)).trans hold⟩

theorem Rooted.plantAll (ht : t.Rooted cwd) (hplace : t.Stands place) (entries : List (List String × Node)) :
    (entries.foldl (fun t (names, node) => t.plant (place ++ names) node) t).Rooted cwd ∧
      ∀ q, ¬ place <+: q → (entries.foldl (fun t (names, node) => t.plant (place ++ names) node) t).at? q = t.at? q := by
  induction entries generalizing t with
  | nil => exact ⟨ht, fun _ _ => rfl⟩
  | cons entry entries ih =>
    obtain ⟨names, node⟩ := entry
    obtain ⟨hrooted, hothers⟩ := ih (ht.plant (place ++ names) node) (hplace.plant _ _)
    exact ⟨hrooted, fun q hq => (hothers q hq).trans (ht.at?_plant hplace hq names node)⟩

end ClassAtlas.FileTree
