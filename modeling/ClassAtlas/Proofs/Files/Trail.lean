import ClassAtlas.Files.Lookup
import Mathlib.Data.List.Basic
/-!
# The trail of a path

Following a path depends on the places on its trail only, and of a file there only on its being one.
-/
namespace ClassAtlas

/-- What following a path sees of a node. -/
def Node.outside : Node → Node
  | .file _ => .file []
  | n => n

namespace FileTree

variable {t t' : FileTree} {follow : Bool} {links : Nat} {here place : Location} {name : String} {rest : List String}

/-- What following a path sees at a place. -/
def view (t : FileTree) (place : Location) : Option Node := (t.at? place).map Node.outside

/-- The places that are looked at when names are followed. -/
def trail (t : FileTree) (follow : Bool) (links : Nat) (here : Location) (todo : List String) : List Location :=
  match todo with
  | [] => []
  | name :: rest =>
    if name = ".." then trail t follow links here.dropLast rest
    else if name.utf8ByteSize > maxNameBytes then []
    else
      (here ++ [name]) :: match t.at? (here ++ [name]) with
        | some (.directory _) => trail t follow links (here ++ [name]) rest
        | some (.link target) =>
          if rest = [] ∧ !follow then []
          else
            match links with
            | 0 => []
            | links + 1 =>
              trail t follow links (if (Path.ofString target).isAbsolute then [] else here)
                ((Path.ofString target).parts ++ rest)
        | _ => []
termination_by (links, todo.length)

theorem view_eq_none_iff : t.view place = none ↔ t.at? place = none := Option.map_eq_none_iff

@[simp] theorem walk_nil (t : FileTree) (follow : Bool) (links : Nat) (here : Location) :
    t.walk follow links here [] = .ok here := by rw [walk]

theorem walk_dots (t : FileTree) (follow : Bool) (links : Nat) (here : Location) (rest : List String) :
    t.walk follow links here (".." :: rest) = t.walk follow links here.dropLast rest := by
  rw [walk, if_pos rfl]

theorem view_eq_some_iff {n : Node} (hn : n.isFile = false) : t.view place = some n ↔ t.at? place = some n := by
  rw [view]
  cases t.at? place with
  | none => simp
  | some m => cases m <;> cases n <;> simp_all [Node.outside, Node.isFile]

/-- Nothing stands at the place, or a file. -/
def Free (t : FileTree) (place : Location) : Prop := t.at? place = none ∨ ∃ bytes, t.at? place = some (.file bytes)

theorem free_iff : t.Free place ↔ t.view place = none ∨ t.view place = some (.file []) := by
  rw [Free, view]
  cases t.at? place with
  | none => simp
  | some node => cases node <;> simp [Node.outside]

theorem Free.not_directory (h : t.Free place) : (t.at? place).any Node.isDirectory = false := by
  rcases h with hnone | ⟨bytes, hfile⟩
  · rw [hnone]
    rfl
  · rw [hfile]
    rfl

theorem walk_tooLong (hdots : name ≠ "..") (hlong : name.utf8ByteSize > maxNameBytes) :
    t.walk follow links here (name :: rest) = .error .nameTooLong := by
  rw [walk, if_neg hdots, if_pos hlong]

/-- One name is followed by what is seen at the next place. -/
theorem walk_step (hdots : name ≠ "..") (hshort : ¬ name.utf8ByteSize > maxNameBytes) :
    t.walk follow links here (name :: rest) = match t.view (here ++ [name]) with
      | none => if rest = [] then .ok (here ++ [name]) else .error .noEntry
      | some (.directory _) => t.walk follow links (here ++ [name]) rest
      | some (.link target) =>
        if rest = [] ∧ !follow then .ok (here ++ [name])
        else match links with
          | 0 => .error .linkLoop
          | links + 1 => t.walk follow links (if (Path.ofString target).isAbsolute then [] else here)
              ((Path.ofString target).parts ++ rest)
      | some _ => if rest = [] then .ok (here ++ [name]) else .error .notDirectory := by
  rw [walk, if_neg hdots, if_neg hshort, view]
  dsimp only
  cases t.at? (here ++ [name]) with
  | none => rfl
  | some n => cases n <;> rfl

theorem trail_dots (t : FileTree) (follow : Bool) (links : Nat) (here : Location) (rest : List String) :
    t.trail follow links here (".." :: rest) = t.trail follow links here.dropLast rest := by
  rw [trail, if_pos rfl]

theorem trail_step (hdots : name ≠ "..") (hshort : ¬ name.utf8ByteSize > maxNameBytes) :
    t.trail follow links here (name :: rest) = (here ++ [name]) :: match t.view (here ++ [name]) with
      | some (.directory _) => t.trail follow links (here ++ [name]) rest
      | some (.link target) =>
        if rest = [] ∧ !follow then []
        else match links with
          | 0 => []
          | links + 1 => t.trail follow links (if (Path.ofString target).isAbsolute then [] else here)
              ((Path.ofString target).parts ++ rest)
      | _ => [] := by
  rw [trail, if_neg hdots, if_neg hshort, view]
  cases t.at? (here ++ [name]) with
  | none => rfl
  | some n => cases n <;> rfl

theorem resolveFrom_nil (t : FileTree) (cwd : Location) (fuel : ℕ) (known : List (Path × Option Path)) (done : Path) :
    t.resolveFrom cwd (fuel + 1) known done [] = ⟨done, known, true⟩ := rfl

theorem resolveFrom_dots (t : FileTree) (cwd : Location) (fuel : ℕ) (known : List (Path × Option Path)) (done : Path)
    (rest : List String) :
    t.resolveFrom cwd (fuel + 1) known done (".." :: rest) = t.resolveFrom cwd fuel known (stepUp done) rest :=
  if_pos rfl

/-- One name is resolved by what is seen at the next place. -/
theorem resolveFrom_step (cwd : Location) (fuel : Nat) (known : List (Path × Option Path)) (done : Path)
    (hdots : name ≠ "..") : t.resolveFrom cwd (fuel + 1) known done (name :: rest) =
      match t.view (placeOf cwd (done.child name)) with
      | some (.link target) =>
        match known.lookup (done.child name) with
        | some (some place) => t.resolveFrom cwd fuel known place rest
        | some none => ⟨⟨(done.child name).anchor, (done.child name).parts ++ rest⟩, known, false⟩
        | none =>
          let inner := t.resolveFrom cwd fuel ((done.child name, none) :: known)
            (startOf done (Path.ofString target)) (Path.ofString target).parts
          if inner.whole then
            t.resolveFrom cwd fuel ((done.child name, some inner.done) :: inner.known) inner.done rest
          else ⟨⟨inner.done.anchor, inner.done.parts ++ rest⟩, inner.known, false⟩
      | _ => t.resolveFrom cwd fuel known (done.child name) rest := by
  rw [resolveFrom, if_neg hdots, view]
  dsimp only
  cases t.at? (placeOf cwd (done.child name)) with
  | none => rfl
  | some n => cases n <;> rfl

/-- Trees with the same links resolve alike. -/
theorem resolveFrom_congr
    (hlinks : ∀ place target, t'.at? place = some (.link target) ↔ t.at? place = some (.link target)) (cwd : Location)
    (fuel : Nat) (known : List (Path × Option Path)) (done : Path) (todo : List String) :
    t'.resolveFrom cwd fuel known done todo = t.resolveFrom cwd fuel known done todo := by
  induction fuel generalizing known done todo with
  | zero => rfl
  | succ fuel ih =>
    cases todo with
    | nil => rfl
    | cons name rest =>
      by_cases hdots : name = ".."
      · rw [hdots, resolveFrom_dots, resolveFrom_dots, ih]
      · rw [resolveFrom_step _ _ _ _ hdots, resolveFrom_step _ _ _ _ hdots]
        have hview : ∀ target, t'.view (placeOf cwd (done.child name)) = some (.link target) ↔
            t.view (placeOf cwd (done.child name)) = some (.link target) := by
          intro target
          rw [view_eq_some_iff rfl, view_eq_some_iff rfl, hlinks]
        generalize t'.view (placeOf cwd (done.child name)) = seen' at hview ⊢
        generalize t.view (placeOf cwd (done.child name)) = seen at hview ⊢
        split
        case h_1 target =>
          rw [(hview target).mp rfl]
          simp only [ih]
        case h_2 hnone =>
          split
          case h_1 target => exact absurd ((hview target).mpr rfl) (hnone target)
          case h_2 => exact ih ..

theorem collapse_cons (done : Location) (name : String) (rest : List String) :
    collapse done (name :: rest) =
      if name = ".." then collapse done.dropLast rest else collapse (done ++ [name]) rest := rfl

theorem dots_notMem_collapse (names : List String) {done : Location} (hdone : ".." ∉ done) :
    ".." ∉ collapse done names := by
  induction names generalizing done with
  | nil => exact hdone
  | cons name rest ih =>
    rw [collapse_cons]
    split
    case isTrue => exact ih fun hmem => hdone (List.dropLast_subset _ hmem)
    case isFalse hname =>
      apply ih
      rw [List.mem_append, List.mem_singleton, not_or]
      exact ⟨hdone, Ne.symm hname⟩

/-- The place that a path is resolved to has no double dots. -/
theorem dots_notMem_resolve (t : FileTree) (cwd : Location) (p : Path) : ".." ∉ t.resolve cwd p :=
  dots_notMem_collapse _ List.not_mem_nil

theorem collapse_of_noDots {names : List String} (hdots : ".." ∉ names) (done : Location) :
    collapse done names = done ++ names := by
  induction names generalizing done with
  | nil => exact (List.append_nil done).symm
  | cons name names ih =>
    rw [List.mem_cons, not_or] at hdots
    rw [collapse_cons, if_neg (Ne.symm hdots.1), ih hdots.2, List.append_assoc, List.singleton_append]

/-- Names without links and double dots among them are resolved to themselves. -/
theorem resolveFrom_of_noLinks (cwd : Location) {fuel : Nat} (known : List (Path × Option Path)) {done names : Location}
    (hfuel : names.length < fuel) (hdots : ".." ∉ done ++ names)
    (hlinks : ∀ place, place <+: done ++ names → ∀ target, t.at? place ≠ some (.link target)) :
    (t.resolveFrom cwd fuel known ⟨.root, done⟩ names).done = ⟨.root, done ++ names⟩ := by
  induction names generalizing fuel done with
  | nil =>
    obtain ⟨fuel, rfl⟩ := Nat.exists_eq_add_one.mpr hfuel
    rw [resolveFrom_nil, List.append_nil]
  | cons name names ih =>
    obtain ⟨fuel, rfl⟩ := Nat.exists_eq_add_one.mpr (Nat.lt_of_le_of_lt (Nat.zero_le _) hfuel)
    have hsplit : done ++ name :: names = (done ++ [name]) ++ names := by simp
    rw [hsplit] at hdots hlinks ⊢
    have hname : name ≠ ".." := by
      rintro rfl
      simp at hdots
    have hplace : placeOf cwd (Path.child ⟨.root, done⟩ name) = done ++ [name] :=
      collapse_of_noDots (fun hmem => hdots (List.mem_append_left _ hmem)) []
    have hrest := ih (Nat.lt_of_succ_lt_succ hfuel) hdots hlinks
    have hlink := hlinks _ (List.prefix_append _ _)
    rw [resolveFrom_step cwd fuel known _ hname, hplace]
    split
    case h_1 target hview => exact absurd ((view_eq_some_iff rfl).mp hview) (hlink target)
    case h_2 => exact hrest

theorem resolve_of_noLinks (cwd : Location) {names : Location} (hdots : ".." ∉ names)
    (hlinks : ∀ place, place <+: names → ∀ target, t.at? place ≠ some (.link target)) :
    t.resolve cwd ⟨.root, names⟩ = names := by
  have hfuel : names.length < (names.length + t.linkWeight + 1) * (names.length + t.linkWeight + 1) :=
    Nat.lt_of_lt_of_le (by omega) (Nat.le_mul_self _)
  have hdone : (t.resolveFrom cwd _ [] ⟨.root, []⟩ names).done = ⟨.root, [] ++ names⟩ :=
    resolveFrom_of_noLinks cwd [] hfuel hdots hlinks
  show placeOf cwd (t.resolveFrom cwd _ [] ⟨.root, []⟩ names).done = names
  rw [hdone]
  exact collapse_of_noDots hdots []

/-! ## Looking up -/

section
variable {cwd : Location} {p : Path} {errno : Errno} {node : Node}

theorem lookup_of_error (h : t.locate cwd follow p = .error errno) : t.lookup cwd follow p = .error errno := by
  rw [lookup, h]
  rfl

theorem lookup_of_node (h : t.locate cwd follow p = .ok place) (hnode : t.at? place = some node) :
    t.lookup cwd follow p = .ok (place, node) := by
  rw [lookup, h]
  simp only [bind, Except.bind, hnode]

theorem lookup_of_nothing (h : t.locate cwd follow p = .ok place) (hnode : t.at? place = none) :
    t.lookup cwd follow p = .error .noEntry := by
  rw [lookup, h]
  simp only [bind, Except.bind, hnode]

theorem locate_of_lookup (h : t.lookup cwd follow p = .ok (place, node)) :
    t.locate cwd follow p = .ok place ∧ t.at? place = some node := by
  cases hplace : t.locate cwd follow p with
  | error errno =>
    rw [lookup_of_error hplace] at h
    cases h
  | ok found =>
    cases hnode : t.at? found with
    | none =>
      rw [lookup_of_nothing hplace hnode] at h
      cases h
    | some there =>
      rw [lookup_of_node hplace hnode] at h
      cases h
      exact ⟨rfl, hnode⟩

end

/-! ## Following along a trail -/

/-- The ways in which following a path can fail. -/
theorem errno_of_walk {errno : Errno} : ∀ (links : Nat) (here : Location) (todo : List String),
    t.walk follow links here todo = .error errno → errno ∈ [.nameTooLong, .noEntry, .notDirectory, .linkLoop]
  | links, here, [], h => by
    rw [walk_nil] at h
    cases h
  | links, here, name :: rest, h => by
    by_cases hdots : name = ".."
    · rw [hdots, walk_dots] at h
      exact errno_of_walk links here.dropLast rest h
    by_cases hlong : name.utf8ByteSize > maxNameBytes
    · rw [walk_tooLong hdots hlong] at h
      cases h
      decide
    rw [walk_step hdots hlong] at h
    split at h
    case h_1 =>
      split at h <;> cases h
      decide
    case h_2 => exact errno_of_walk links (here ++ [name]) rest h
    case h_3 =>
      split at h
      case isTrue => cases h
      case isFalse =>
        cases links with
        | zero =>
          cases h
          decide
        | succ links => exact errno_of_walk links _ _ h
    case h_4 =>
      split at h <;> cases h
      decide
termination_by links _ todo => (links, todo.length)

theorem errno_of_lookup {cwd : Location} {p : Path} {errno : Errno} (h : t.lookup cwd follow p = .error errno) :
    errno ∈ [.nameTooLong, .noEntry, .notDirectory, .linkLoop] := by
  cases hplace : t.locate cwd follow p with
  | error found =>
    rw [lookup_of_error hplace] at h
    cases h
    rw [locate] at hplace
    split at hplace
    case isTrue =>
      cases hplace
      decide
    case isFalse => exact errno_of_walk _ _ _ hplace
  | ok place =>
    cases hnode : t.at? place with
    | none =>
      rw [lookup_of_nothing hplace hnode] at h
      cases h
      decide
    | some node =>
      rw [lookup_of_node hplace hnode] at h
      cases h

/-- Trees in which the same is seen along the trail of a path have it lead to the same place. -/
theorem walk_congr : ∀ (links : Nat) (here : Location) (todo : List String),
    (∀ place ∈ t.trail follow links here todo, t'.view place = t.view place) →
      t'.walk follow links here todo = t.walk follow links here todo
  | links, here, [], _ => by rw [walk_nil, walk_nil]
  | links, here, name :: rest, hviews => by
    by_cases hdots : name = ".."
    · rw [hdots, trail_dots] at hviews
      rw [hdots, walk_dots, walk_dots]
      exact walk_congr links here.dropLast rest hviews
    by_cases hlong : name.utf8ByteSize > maxNameBytes
    · rw [walk_tooLong hdots hlong, walk_tooLong hdots hlong]
    rw [trail_step hdots hlong] at hviews
    have hview := hviews _ List.mem_cons_self
    rw [walk_step hdots hlong, walk_step hdots hlong, hview]
    have hlater := fun place hplace => hviews place (List.mem_cons_of_mem _ hplace)
    split
    case h_1 => rfl
    case h_2 hdirectory =>
      rw [hdirectory] at hlater
      exact walk_congr links (here ++ [name]) rest hlater
    case h_3 target hlink =>
      rw [hlink] at hlater
      split
      case isTrue => rfl
      case isFalse hgo =>
        simp only [if_neg hgo] at hlater
        cases links with
        | zero => rfl
        | succ links => exact walk_congr links _ _ hlater
    case h_4 => rfl
termination_by links _ todo => (links, todo.length)

end FileTree
end ClassAtlas
