import ClassAtlas.Host.Files
import ClassAtlas.Proofs.Files.WellFormed
import ClassAtlas.Proofs.Host.Action
/-!
# Running actions on files

Looking a path up leaves the host as it is, and so does everything that only asks about files.
-/
namespace ClassAtlas

/-- The failures of looking for something: the path cannot be looked up. -/
inductive Failure.OfLookup : Failure → Prop where
  | nul : OfLookup .nulInPath
  | home : OfLookup .noHome
  | loop (path : String) : OfLookup (.linkLoop path)
  | long (subject : FaultSubject) : OfLookup (.file (.system .nameTooLong subject))

/-- The failures of changing something at a path: it has a null character in it, or the file system refuses. -/
def Failure.OfPath (p : Path) (f : Failure) : Prop := f = .nulInPath ∧ Action.hasNul p = true ∨ f.isFileTrouble = true

theorem Failure.OfPath.of_hasNul {p q : Path} {f : Failure} (hf : f.OfPath p)
    (hnul : Action.hasNul p = true → Action.hasNul q = true) : f.OfPath q := hf.imp_left fun ⟨hsame, hp⟩ => ⟨hsame, hnul hp⟩

/-- A host with files in its root directory, and nothing else. -/
def Host.holding (t : FileTree) : Host where
  files := t
  cwd := []
  home := "/root"
  users := []
  now := ⟨0, none⟩
  git := ⟨fun _ => .error .notFound, fun _ => .error .notFound, .error .notFound⟩
  commands := []
  logging := .unset
  journal := []
  printed := ""
  errors := ""
  nanos := 0

namespace Action

variable {h : Host} {p : Path} {place : Location} {node : Node}

@[simp] theorem name_child (place : Location) (name : String) : (pathOf (place ++ [name])).name = name := by
  simp [pathOf, Path.name]

@[simp] theorem parent_child (place : Location) (name : String) : (pathOf (place ++ [name])).parent = pathOf place := by
  simp [pathOf, Path.parent]

theorem suffix_child (place : Location) (name : String) :
    (pathOf (place ++ [name])).suffix = String.ofList (Path.splitSuffix name.toList).2 := by
  rw [Path.suffix, name_child]

theorem hasNul_eq_false_iff : hasNul p = false ↔ ∀ name ∈ p.parts, Char.ofNat 0 ∉ name.toList := by
  simp [hasNul, List.any_eq_false]

theorem hasNul_pathOf (ht : h.files.WellFormed) (hnode : h.files.at? place = some node) :
    hasNul (pathOf place) = false :=
  hasNul_eq_false_iff.mpr fun name hname => (ht.isName_of_mem hnode name hname).noNul

theorem hasNul_path_child {name : String} (hnul : hasNul p = false) (hname : Char.ofNat 0 ∉ name.toList) :
    hasNul (p.child name) = false := by
  rw [hasNul_eq_false_iff] at hnul ⊢
  intro other hother
  rcases List.mem_append.mp hother with hother | hother
  · exact hnul other hother
  · rwa [List.mem_singleton.mp hother]

theorem hasNul_child {name : String} {locked : Bool} (ht : h.files.WellFormed)
    (hplace : h.files.at? place = some (.directory locked)) (hname : FileTree.IsName name) :
    hasNul (pathOf (place ++ [name])) = false :=
  hasNul_path_child (p := pathOf place) (hasNul_pathOf ht hplace) hname.noNul

/-- The path of a place that is no link leads to what stands there. -/
theorem lookup_pathOf {t : FileTree} (ht : t.WellFormed) (hnode : t.at? place = some node)
    (hlink : node.isLink = false) (hshort : (pathOf place).toString.utf8ByteSize ≤ FileTree.maxPathBytes)
    (cwd : Location) (follow : Bool) : t.lookup cwd follow (pathOf place) = .ok (place, node) := by
  have hwalk : t.walk follow FileTree.maxLinks [] place = .ok place := by
    rcases List.eq_nil_or_concat place with rfl | ⟨here, name, rfl⟩
    · exact FileTree.walk_nil ..
    · rw [List.concat_eq_append] at hnode ⊢
      exact ht.walk_name_of_not_link hnode hlink follow FileTree.maxLinks
  have hlocate : t.locate cwd follow (pathOf place) = .ok place := by
    rw [FileTree.locate, if_neg (Nat.not_lt.mpr hshort)]
    exact hwalk
  exact FileTree.lookup_of_node hlocate hnode

/-- Where a name is missing in a directory, nothing is found. -/
theorem lookup_pathOf_missing {t : FileTree} (ht : t.WellFormed) {here : Location} {name : String} {locked : Bool}
    (hhere : t.at? here = some (.directory locked)) (hname : FileTree.IsName name)
    (hmissing : t.at? (here ++ [name]) = none)
    (hshort : (pathOf (here ++ [name])).toString.utf8ByteSize ≤ FileTree.maxPathBytes) (cwd : Location) (follow : Bool) :
    t.lookup cwd follow (pathOf (here ++ [name])) = .error .noEntry := by
  have hwalk : t.walk follow FileTree.maxLinks [] (here ++ [name]) = .ok (here ++ [name]) := by
    rw [ht.walk_append hhere, FileTree.walk_step hname.notDots (Nat.not_lt.mpr hname.short), FileTree.view, hmissing]
    rfl
  have hlocate : t.locate cwd follow (pathOf (here ++ [name])) = .ok (here ++ [name]) := by
    rw [FileTree.locate, if_neg (Nat.not_lt.mpr hshort)]
    exact hwalk
  exact FileTree.lookup_of_nothing hlocate hmissing

theorem on_refuseNul (hnul : hasNul p = false) (h : Host) : (refuseNul p).on h = (.ok (), h) := by
  rw [refuseNul, hnul]
  rfl

theorem on_lookup (hnul : hasNul p = false) (follow : Bool) (h : Host) :
    (lookup p follow).on h = (.ok (h.files.lookup h.cwd follow p), h) := by
  rw [lookup, on_bind_of_ok (on_refuseNul hnul h)]
  rfl

theorem found_of_lookup {follow : Bool} {found : Except Errno (Location × Node)} {next : Host}
    (hrun : (lookup p follow).on h = (.ok found, next)) :
    hasNul p = false ∧ h.files.lookup h.cwd follow p = found := by
  cases hnul : hasNul p with
  | true =>
    rw [lookup, refuseNul, hnul] at hrun
    cases hrun
  | false =>
    rw [on_lookup hnul follow h] at hrun
    exact ⟨rfl, Except.ok.inj (Prod.mk.inj hrun).1⟩

/-- A probe answers for the node that is found. Where none is found the answer is no, unless a name is
too long to be looked for. -/
theorem on_probe (hnul : hasNul p = false) (follow : Bool) (test : Node → Bool) (h : Host) :
    (probe follow test p).on h = (match h.files.lookup h.cwd follow p with
      | .ok (_, node) => .ok (test node)
      | .error .nameTooLong => .error (.file (.system .nameTooLong (.path p.toString)))
      | .error _ => .ok false, h) := by
  rw [probe, hnul]
  show (lookup p follow >>= _).on h = _
  rw [on_bind_of_ok (on_lookup hnul follow h)]
  cases hlookup : h.files.lookup h.cwd follow p with
  | ok found => rfl
  | error errno =>
    have hcauses := FileTree.errno_of_lookup hlookup
    simp only [List.mem_cons, List.not_mem_nil, or_false] at hcauses
    rcases hcauses with rfl | rfl | rfl | rfl <;> rfl

theorem on_probe_of_found (hnul : hasNul p = false) {follow : Bool}
    (hfound : h.files.lookup h.cwd follow p = .ok (place, node)) (test : Node → Bool) :
    (probe follow test p).on h = (.ok (test node), h) := by
  rw [on_probe hnul, hfound]

/-- What a probe finds satisfies the test. -/
theorem found_of_probe {follow : Bool} {test : Node → Bool} {next : Host}
    (hrun : (probe follow test p).on h = (.ok true, next)) :
    hasNul p = false ∧ ∃ place node, h.files.lookup h.cwd follow p = .ok (place, node) ∧ test node = true := by
  cases hnul : hasNul p with
  | true =>
    rw [probe, hnul] at hrun
    cases hrun
  | false =>
    rw [on_probe hnul] at hrun
    cases hlookup : h.files.lookup h.cwd follow p with
    | ok found =>
      rw [hlookup] at hrun
      exact ⟨rfl, found.1, found.2, rfl, Except.ok.inj (Prod.mk.inj hrun).1⟩
    | error errno =>
      rw [hlookup] at hrun
      cases errno <;> cases hrun

theorem on_resolve_eq (hnul : hasNul p = false) (h : Host) :
    (resolve p).on h = (match h.files.lookup h.cwd true (pathOf (h.files.resolve h.cwd p)) with
      | .error .linkLoop => .error (.linkLoop (pathOf (h.files.resolve h.cwd p)).toString)
      | _ => .ok (pathOf (h.files.resolve h.cwd p)), h) := by
  rw [resolve, on_bind_of_ok (on_refuseNul hnul h), on_bind_of_ok (on_get h)]
  dsimp only
  cases h.files.lookup h.cwd true (pathOf (h.files.resolve h.cwd p)) with
  | ok found => rfl
  | error errno => cases errno <;> rfl

theorem on_resolve (hnul : hasNul p = false) (hplace : h.files.resolve h.cwd p = place)
    (hend : h.files.lookup h.cwd true (pathOf place) ≠ .error .linkLoop) :
    (resolve p).on h = (.ok (pathOf place), h) := by
  rw [on_resolve_eq hnul, hplace]
  split
  case h_1 hloop => exact absurd hloop hend
  case h_2 => rfl

theorem eq_pathOf_of_resolve {q : Path} {next : Host} (hrun : (resolve p).on h = (.ok q, next)) :
    q = pathOf (h.files.resolve h.cwd p) := by
  rw [resolve] at hrun
  obtain ⟨_, middle, hnul, hrun⟩ := bind_eq_ok hrun
  have hsame : middle = h := by
    unfold refuseNul at hnul
    split at hnul
    · cases hnul
    · cases hnul
      rfl
  rw [hsame, on_bind_of_ok (on_get h)] at hrun
  dsimp only at hrun
  split at hrun
  · cases hrun
  · cases hrun
    rfl

/-! ## Asking about files -/

theorem asks_refuseNul (p : Path) : Asks (refuseNul p) := by
  unfold refuseNul
  split
  · exact asks_throw _
  · exact asks_pure _

theorem asks_lookup (p : Path) (follow : Bool) : Asks (lookup p follow) :=
  (asks_refuseNul p).bind fun _ => asks_get.bind fun _ => asks_pure _

theorem asks_failAt {α : Type} (p : Path) (errno : Errno) : Asks (failAt p errno : Action α) := asks_throw _

theorem asks_probe (follow : Bool) (test : Node → Bool) (p : Path) : Asks (probe follow test p) := by
  unfold probe
  split
  · exact asks_pure _
  · refine (asks_lookup p follow).bind fun found => ?_
    split
    · exact asks_pure _
    · exact asks_pure _
    · exact asks_pure _
    · exact asks_pure _
    · exact asks_failAt _ _

theorem asks_resolve (p : Path) : Asks (resolve p) := by
  refine (asks_refuseNul p).bind fun _ => asks_get.bind fun _ => ?_
  dsimp only
  split
  · exact asks_throw _
  · exact asks_pure _

theorem asks_expandHome (p : Path) : Asks (expandHome p) := by
  intro h
  unfold expandHome
  split
  case h_1 first rest _ _ =>
    split
    case h_1 name _ =>
      cases hnul : name.contains (Char.ofNat 0) with
      | true => rfl
      | false =>
        simp only [Bool.false_eq_true, if_false]
        rw [on_bind_of_ok (on_get h)]
        cases (if name.isEmpty = true then some h.home else h.users.lookup (String.ofList name)) <;> rfl
    case h_2 => rfl
  case h_2 => rfl

theorem asks_readBytes (p : Path) : Asks (readBytes p) := by
  refine (asks_lookup p true).bind fun found => ?_
  split
  · exact asks_pure _
  · exact asks_failAt _ _
  · exact asks_failAt _ _
  · exact asks_failAt _ _

/-! ## Failing to look -/

theorem failsBy_refuseNul (p : Path) : FailsBy Failure.OfLookup (refuseNul p) := by
  unfold refuseNul
  split
  · exact failsBy_throw .nul
  · exact failsBy_pure _

theorem failsBy_get {p : Failure → Prop} : FailsBy p (get : Action Host) := fun _ _ _ hrun => by cases hrun

/-- What a path is expanded to. -/
inductive Expands (h : Host) (p : Path) : Except Failure Path → Prop
  | same : Expands h p (.ok p)
  | nul (character : hasNul p = true) : Expands h p (.error .nulInPath)
  | homeless : Expands h p (.error .noHome)
  | home {first home : String} {name : List Char} {rest : List String} (parts : p.parts = first :: rest)
      (tilde : first.toList = '~' :: name) (noNul : name.contains (Char.ofNat 0) = false)
      (known : (if name.isEmpty = true then some h.home else h.users.lookup (String.ofList name)) = some home) :
      Expands h p (.ok ⟨(Path.ofString home).anchor, (Path.ofString home).parts ++ rest⟩)

theorem expands (p : Path) (h : Host) : Expands h p ((expandHome p).on h).1 := by
  unfold expandHome
  split
  case h_2 => exact .same
  case h_1 first rest _ hparts =>
    split
    case h_2 => exact .same
    case h_1 name htilde =>
      cases hnul : name.contains (Char.ofNat 0) with
      | true =>
        refine .nul ?_
        rw [hasNul, hparts, List.any_cons, htilde, List.contains_cons, hnul, Bool.or_true, Bool.true_or]
      | false =>
        simp only [Bool.false_eq_true, if_false]
        rw [on_bind_of_ok (on_get h)]
        cases hknown : (if name.isEmpty = true then some h.home else h.users.lookup (String.ofList name)) with
        | none => exact .homeless
        | some home => exact .home hparts htilde hnul hknown

theorem expandHome_failed {f : Failure} {next : Host} (hrun : (expandHome p).on h = (.error f, next)) :
    f = .nulInPath ∧ hasNul p = true ∨ f = .noHome := by
  have hexpands := expands p h
  rw [hrun] at hexpands
  cases hexpands with
  | nul character => exact .inl ⟨rfl, character⟩
  | homeless => exact .inr rfl

theorem failsBy_expandHome (p : Path) : FailsBy Failure.OfLookup (expandHome p) := by
  intro h f next hrun
  rcases expandHome_failed hrun with ⟨rfl, _⟩ | rfl
  · exact .nul
  · exact .home

theorem failsBy_resolve (p : Path) : FailsBy Failure.OfLookup (resolve p) := by
  refine (failsBy_refuseNul p).bind fun _ => failsBy_get.bind fun h => ?_
  dsimp only
  split
  · exact failsBy_throw (.loop _)
  · exact failsBy_pure _

/-- A probe fails only when a name on the way is too long. -/
theorem probe_failed {follow : Bool} {test : Node → Bool} {f : Failure} {next : Host}
    (hrun : (probe follow test p).on h = (.error f, next)) :
    f = .file (.system .nameTooLong (.path p.toString)) := by
  cases hnul : hasNul p with
  | true =>
    rw [probe, hnul] at hrun
    cases hrun
  | false =>
    rw [on_probe hnul] at hrun
    cases hlookup : h.files.lookup h.cwd follow p with
    | ok found =>
      rw [hlookup] at hrun
      cases hrun
    | error errno =>
      rw [hlookup] at hrun
      cases errno <;> cases hrun
      rfl

theorem failsBy_probe (follow : Bool) (test : Node → Bool) (p : Path) :
    FailsBy Failure.OfLookup (probe follow test p) := by
  intro h f next hrun
  rw [probe_failed hrun]
  exact .long _

/-- Without a null character in the path links alone keep it from being resolved. -/
theorem resolve_failed {f : Failure} {next : Host} (hnul : hasNul p = false)
    (hrun : (resolve p).on h = (.error f, next)) :
    f = .linkLoop (pathOf (h.files.resolve h.cwd p)).toString ∧
      h.files.lookup h.cwd true (pathOf (h.files.resolve h.cwd p)) = .error .linkLoop := by
  rw [on_resolve_eq hnul] at hrun
  split at hrun
  case h_1 hloop =>
    cases hrun
    exact ⟨rfl, hloop⟩
  case h_2 => cases hrun

theorem failsBy_lookup (p : Path) (follow : Bool) : FailsBy (Failure.OfPath p) (lookup p follow) := by
  intro h f next hrun
  cases hnul : hasNul p with
  | true =>
    rw [lookup, refuseNul, hnul] at hrun
    cases hrun
    exact .inl ⟨rfl, hnul⟩
  | false =>
    rw [on_lookup hnul] at hrun
    cases hrun

end Action
end ClassAtlas
