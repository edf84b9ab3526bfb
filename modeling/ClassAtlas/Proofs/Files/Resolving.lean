import ClassAtlas.Proofs.Files.Reach
import Mathlib.Algebra.Order.BigOperators.Group.List
import Mathlib.Algebra.Order.Ring.Nat
/-!
# Resolving what can be followed

Following names and resolving a path are two ways to the same place. Where names can be followed to their end, no link
on the way leads back to itself. So a link that is met while it is resolved is never met again within its own target,
what is remembered of the links that are passed is right, and the steps last.
-/
namespace ClassAtlas.FileTree

variable {t : FileTree} {cwd here middle place x : Location} {name target : String} {rest todo names : List String}
  {m n : Nat} {done p : Path} {known : List (Path × Option Path)} {opened : List Location}

/-! ## Where names lead -/

/-- The place that names lead to, and the number of links on the way. What is not there is passed like a directory. -/
inductive Leads (t : FileTree) : Location → List String → Nat → Location → Prop where
  | here (here : Location) : Leads t here [] 0 here
  | up {here place : Location} {rest : List String} {n : Nat} (onward : Leads t here.dropLast rest n place) :
      Leads t here (".." :: rest) n place
  | name {here place : Location} {name : String} {rest : List String} {n : Nat} (proper : name ≠ "..")
      (noLink : ∀ target, t.at? (here ++ [name]) ≠ some (.link target))
      (onward : Leads t (here ++ [name]) rest n place) : Leads t here (name :: rest) n place
  | link {here middle place : Location} {name target : String} {rest : List String} {m n : Nat} (proper : name ≠ "..")
      (linked : t.at? (here ++ [name]) = some (.link target))
      (inner : Leads t (origin here (Path.ofString target)) (Path.ofString target).parts m middle)
      (onward : Leads t middle rest n place) : Leads t here (name :: rest) (m + n + 1) place

/-- The place that a link leads to, and the number of links on the way after it. -/
def LinkLeads (t : FileTree) (x : Location) (m : Nat) (middle : Location) : Prop :=
  ∃ target, t.at? x = some (.link target) ∧
    Leads t (origin x.dropLast (Path.ofString target)) (Path.ofString target).parts m middle

theorem Leads.unique {n' : Nat} {place' : Location} (h : Leads t here todo n place) (h' : Leads t here todo n' place') :
    n = n' ∧ place = place' := by
  induction h generalizing n' place' with
  | here here =>
    cases h'
    exact ⟨rfl, rfl⟩
  | up onward ih =>
    cases h' with
    | up onward' => exact ih onward'
    | name proper => exact absurd rfl proper
    | link proper => exact absurd rfl proper
  | name proper noLink onward ih =>
    cases h' with
    | up => exact absurd rfl proper
    | name _ _ onward' => exact ih onward'
    | link _ linked => exact absurd linked (noLink _)
  | link proper linked inner onward ihInner ihOnward =>
    cases h' with
    | up => exact absurd rfl proper
    | name _ noLink => exact absurd linked (noLink _)
    | link _ linked' inner' onward' =>
      cases linked.symm.trans linked'
      obtain ⟨rfl, rfl⟩ := ihInner inner'
      obtain ⟨rfl, rfl⟩ := ihOnward onward'
      exact ⟨rfl, rfl⟩

theorem LinkLeads.unique {m' : Nat} {middle' : Location} (h : LinkLeads t x m middle) (h' : LinkLeads t x m' middle') :
    m = m' ∧ middle = middle' := by
  obtain ⟨target, hlink, hleads⟩ := h
  obtain ⟨target', hlink', hleads'⟩ := h'
  cases hlink.symm.trans hlink'
  exact hleads.unique hleads'

theorem Leads.append (h : Leads t here names m middle) (h' : Leads t middle rest n place) :
    Leads t here (names ++ rest) (m + n) place := by
  induction h with
  | here here => rwa [List.nil_append, Nat.zero_add]
  | up onward ih => exact .up (ih h')
  | name proper noLink onward ih => exact .name proper noLink (ih h')
  | link proper linked inner onward ihInner ihOnward =>
    have hboth := Leads.link proper linked inner (ihOnward h')
    rwa [← Nat.add_assoc, Nat.add_right_comm] at hboth

theorem Leads.split (h : Leads t here (names ++ rest) n place) :
    ∃ k l middle, n = k + l ∧ Leads t here names k middle ∧ Leads t middle rest l place := by
  induction names generalizing here n with
  | nil => exact ⟨0, n, here, (Nat.zero_add n).symm, .here here, h⟩
  | cons name names ih =>
    cases h with
    | up onward =>
      obtain ⟨k, l, middle, rfl, hfirst, hrest⟩ := ih onward
      exact ⟨k, l, middle, rfl, .up hfirst, hrest⟩
    | name proper noLink onward =>
      obtain ⟨k, l, middle, rfl, hfirst, hrest⟩ := ih onward
      exact ⟨k, l, middle, rfl, .name proper noLink hfirst, hrest⟩
    | @link _ _ _ _ _ _ m _ proper linked inner onward =>
      obtain ⟨k, l, middle, rfl, hfirst, hrest⟩ := ih onward
      exact ⟨m + k + 1, l, middle, by omega, .link proper linked inner hfirst, hrest⟩

/-- What can be followed leads somewhere. -/
theorem exists_leads_of_walk : ∀ (links : Nat) (here : Location) (todo : List String),
    t.walk true links here todo = .ok place → ∃ n, Leads t here todo n place
  | links, here, [], hwalk => by
    rw [walk_nil] at hwalk
    cases hwalk
    exact ⟨0, .here _⟩
  | links, here, name :: rest, hwalk => by
    by_cases hdots : name = ".."
    · subst hdots
      rw [walk_dots] at hwalk
      obtain ⟨n, honward⟩ := exists_leads_of_walk links here.dropLast rest hwalk
      exact ⟨n, .up honward⟩
    by_cases hlong : name.utf8ByteSize > maxNameBytes
    · rw [walk_tooLong hdots hlong] at hwalk
      cases hwalk
    rw [walk_step hdots hlong] at hwalk
    have hlast : ∀ {errno : Errno}, (∀ target, t.at? (here ++ [name]) ≠ some (.link target)) →
        (if rest = [] then Except.ok (here ++ [name]) else .error errno) = .ok place →
          ∃ n, Leads t here (name :: rest) n place := by
      intro errno hnoLink hlast
      split at hlast
      case isTrue hnil =>
        cases hlast
        rw [hnil]
        exact ⟨0, .name hdots hnoLink (.here _)⟩
      case isFalse => cases hlast
    split at hwalk
    case h_1 hview =>
      refine hlast (fun target hlink => ?_) hwalk
      rw [view_eq_none_iff.mp hview] at hlink
      cases hlink
    case h_2 hview =>
      obtain ⟨n, honward⟩ := exists_leads_of_walk links (here ++ [name]) rest hwalk
      refine ⟨n, .name hdots (fun target hlink => ?_) honward⟩
      rw [(view_eq_some_iff rfl).mp hview] at hlink
      cases hlink
    case h_3 target hview =>
      simp only [Bool.not_true, Bool.false_eq_true, and_false, if_false] at hwalk
      cases links with
      | zero => cases hwalk
      | succ links =>
        obtain ⟨n, hboth⟩ := exists_leads_of_walk links _ _ hwalk
        obtain ⟨k, l, middle, rfl, hinner, honward⟩ := hboth.split
        exact ⟨k + l + 1, .link hdots ((view_eq_some_iff rfl).mp hview) hinner honward⟩
    case h_4 node _ hnot hview =>
      refine hlast (fun target hlink => ?_) hwalk
      exact hnot target (hview.symm.trans ((view_eq_some_iff rfl).mpr hlink) |> Option.some.inj)
termination_by links _ todo => (links, todo.length)

theorem exists_leads_of_lookup {node : Node} (h : t.lookup cwd true p = .ok (place, node)) :
    ∃ n, t.Leads (origin cwd p) p.parts n place := by
  have hlocated := (locate_of_lookup h).1
  rw [locate] at hlocated
  split at hlocated
  case isTrue => cases hlocated
  case isFalse => exact exists_leads_of_walk _ _ _ hlocated

/-! ## The parts that are done -/

/-- The part can be taken one step up by its names. -/
def Tidy (done : Path) : Prop := done.isAbsolute = true → ".." ∉ done.parts

theorem Tidy.child (h : Tidy done) (hname : name ≠ "..") : Tidy (done.child name) := by
  intro habsolute hmem
  rcases List.mem_append.mp hmem with hmem | hmem
  · exact h habsolute hmem
  · exact hname (List.mem_singleton.mp hmem).symm

theorem Tidy.stepUp (h : Tidy done) : Tidy (stepUp done) := by
  unfold FileTree.stepUp
  split
  case isTrue habsolute => exact fun _ hmem => h habsolute (List.dropLast_subset _ hmem)
  case isFalse hrelative => split <;> exact fun habsolute => absurd habsolute hrelative

theorem Tidy.startOf (h : Tidy done) (p : Path) : Tidy (startOf done p) := by
  unfold FileTree.startOf
  split
  · exact fun _ => List.not_mem_nil
  · exact h

theorem collapse_append (done : Location) (names more : List String) :
    collapse done (names ++ more) = collapse (collapse done names) more := by
  induction names generalizing done with
  | nil => rfl
  | cons name names ih =>
    rw [List.cons_append, collapse_cons, collapse_cons]
    split <;> exact ih _

theorem placeOf_child (cwd : Location) (done : Path) (name : String) : placeOf cwd (done.child name) =
    if name = ".." then (placeOf cwd done).dropLast else placeOf cwd done ++ [name] := by
  show collapse [] ((if done.isAbsolute then [] else cwd) ++ (done.parts ++ [name])) = _
  rw [← List.append_assoc, collapse_append, collapse_cons]
  split <;> rfl

theorem placeOf_stepUp (cwd : Location) (h : Tidy done) : placeOf cwd (stepUp done) = (placeOf cwd done).dropLast := by
  have hdots : placeOf cwd (done.child "..") = (placeOf cwd done).dropLast := placeOf_child cwd done ".."
  have hparent : ∀ last, done.parts.getLast? = some last → last ≠ ".." →
      placeOf cwd done.parent = (placeOf cwd done).dropLast := by
    intro last hlast hne
    obtain ⟨names, hparts⟩ := List.getLast?_eq_some_iff.mp hlast
    have hchild : done = done.parent.child last := by
      obtain ⟨anchor, parts⟩ := done
      cases hparts
      simp [Path.parent, Path.child]
    have hplace := placeOf_child cwd done.parent last
    rw [← hchild, if_neg hne] at hplace
    rw [hplace, List.dropLast_concat]
  unfold stepUp
  split
  case isTrue habsolute =>
    cases hlast : done.parts.getLast? with
    | none =>
      obtain ⟨anchor, parts⟩ := done
      cases List.getLast?_eq_none_iff.mp hlast
      simp [placeOf, Path.parent, Path.isAbsolute] at habsolute ⊢
      simp [habsolute, collapse]
    | some last =>
      refine hparent last hlast ?_
      rintro rfl
      exact h habsolute (List.mem_of_getLast? hlast)
  case isFalse =>
    split
    case h_1 => exact hdots
    case h_2 => exact hdots
    case h_3 last hne hlast => exact hparent last hlast hne

theorem placeOf_startOf (cwd : Location) (done p : Path) :
    placeOf cwd (startOf done p) = origin (placeOf cwd done) p := by
  unfold startOf origin
  split
  · rfl
  · rfl

/-! ## The weight of links -/

/-- What an entry of the tree weighs: a link that is not open has the names of its target, and one for itself. -/
def weightOf (opened : List Location) (entry : Location × Node) : Nat :=
  match entry.2 with
  | .link target => if entry.1 ∈ opened then 0 else (Path.ofString target).parts.length + 1
  | _ => 0

/-- The weight of the links that are not open. -/
def weightBeyond (t : FileTree) (opened : List Location) : Nat := (t.nodes.map (weightOf opened)).sum

theorem weightBeyond_nil (t : FileTree) : t.weightBeyond [] = t.linkWeight := by
  rw [weightBeyond, linkWeight]
  induction t.nodes with
  | nil => rfl
  | cons entry nodes ih =>
    obtain ⟨x, node⟩ := entry
    rw [List.map_cons, List.sum_cons, List.foldr_cons, ih]
    cases node <;> simp [weightOf]

theorem weightOf_cons_le (x : Location) (opened : List Location) (entry : Location × Node) :
    weightOf (x :: opened) entry ≤ weightOf opened entry := by
  obtain ⟨y, node⟩ := entry
  cases node with
  | link target =>
    by_cases hmem : y ∈ opened <;> simp [weightOf, hmem]
    split <;> omega
  | _ => exact Nat.le_refl _

/-- A link that is opened weighs no more. -/
theorem weightBeyond_cons (hlink : t.at? x = some (.link target)) (hclosed : x ∉ opened) :
    t.weightBeyond (x :: opened) + ((Path.ofString target).parts.length + 1) ≤ t.weightBeyond opened := by
  have hroot : x ≠ [] := by
    rintro rfl
    cases hlink
  obtain ⟨front, back, hnodes⟩ := List.append_of_mem (mem_nodes_of_at? hlink hroot)
  have hmore : ∀ entries : List (Location × Node),
      (entries.map (weightOf (x :: opened))).sum ≤ (entries.map (weightOf opened)).sum :=
    fun entries => List.sum_le_sum fun entry _ => weightOf_cons_le x opened entry
  have hfront := hmore front
  have hback := hmore back
  have hopened : weightOf (x :: opened) (x, .link target) = 0 := by simp [weightOf]
  have hunopened : weightOf opened (x, .link target) = (Path.ofString target).parts.length + 1 := by
    simp [weightOf, hclosed]
  simp only [weightBeyond, hnodes, List.map_append, List.map_cons, List.sum_append, List.sum_cons, hopened, hunopened]
  omega

/-! ## Resolving -/

/-- What is remembered of the links that are passed is right, and the others are open. -/
structure Remembers (t : FileTree) (cwd : Location) (opened : List Location) (known : List (Path × Option Path)) :
    Prop where
  passed : ∀ q r, known.lookup q = some (some r) →
    Tidy r ∧ ∀ m middle, t.LinkLeads (placeOf cwd q) m middle → placeOf cwd r = middle
  open_ : ∀ q, known.lookup q = some none → placeOf cwd q ∈ opened

theorem lookup_cons_of_ne {q r : Path} {entry : Option Path} (hne : q ≠ r) :
    ((r, entry) :: known).lookup q = known.lookup q := by
  rw [List.lookup_cons, beq_false_of_ne hne]

namespace Remembers

variable {q : Path} {r : Path}

theorem nil (t : FileTree) (cwd : Location) : t.Remembers cwd [] [] where
  passed _ _ hlookup := by cases hlookup
  open_ _ hlookup := by cases hlookup

theorem cons_open (h : t.Remembers cwd opened known) : t.Remembers cwd (placeOf cwd q :: opened) ((q, none) :: known) where
  passed q' r hlookup := by
    by_cases hq : q' = q
    · rw [hq, List.lookup_cons_self] at hlookup
      cases hlookup
    · exact h.passed q' r ((lookup_cons_of_ne hq).symm.trans hlookup)
  open_ q' hlookup := by
    by_cases hq : q' = q
    · rw [hq]
      exact List.mem_cons_self
    · exact List.mem_cons_of_mem _ (h.open_ q' ((lookup_cons_of_ne hq).symm.trans hlookup))

/-- A link that has been resolved is passed. -/
theorem cons_passed {later : List (Path × Option Path)} (h : t.Remembers cwd opened known)
    (hlater : t.Remembers cwd (placeOf cwd q :: opened) later)
    (hkept : ∀ q', later.lookup q' = some none → ((q, none) :: known).lookup q' = some none) (htidy : Tidy r)
    (hleads : t.LinkLeads (placeOf cwd q) m (placeOf cwd r)) : t.Remembers cwd opened ((q, some r) :: later) where
  passed q' r' hlookup := by
    by_cases hq : q' = q
    · rw [hq, List.lookup_cons_self] at hlookup
      cases hlookup
      exact ⟨htidy, fun _ _ hother => (hleads.unique (hq ▸ hother)).2⟩
    · exact hlater.passed q' r' ((lookup_cons_of_ne hq).symm.trans hlookup)
  open_ q' hlookup := by
    by_cases hq : q' = q
    · rw [hq, List.lookup_cons_self] at hlookup
      cases hlookup
    · have hopen := hkept q' ((lookup_cons_of_ne hq).symm.trans hlookup)
      exact h.open_ q' ((lookup_cons_of_ne hq).symm.trans hopen)

end Remembers

/-- Names that lead somewhere are resolved to a part that leads there. -/
theorem resolveFrom_of_leads {fuel : Nat} (h : t.Leads here todo n place) (htidy : Tidy done)
    (hdone : placeOf cwd done = here) (hknown : t.Remembers cwd opened known)
    (hopened : ∀ x ∈ opened, ∀ m middle, t.LinkLeads x m middle → n ≤ m)
    (hfuel : todo.length + t.weightBeyond opened < fuel) : ∃ last later,
      t.resolveFrom cwd fuel known done todo = ⟨last, later, true⟩ ∧ Tidy last ∧ placeOf cwd last = place ∧
        t.Remembers cwd opened later ∧ ∀ q, later.lookup q = some none → known.lookup q = some none := by
  induction h generalizing fuel done known opened with
  | here here =>
    obtain ⟨fuel, rfl⟩ := Nat.exists_eq_add_one.mpr (Nat.zero_lt_of_lt hfuel)
    exact ⟨done, known, resolveFrom_nil t cwd fuel known done, htidy, hdone, hknown, fun _ => id⟩
  | @up here place rest n onward ih =>
    obtain ⟨fuel, rfl⟩ := Nat.exists_eq_add_one.mpr (Nat.zero_lt_of_lt hfuel)
    rw [resolveFrom_dots]
    refine ih htidy.stepUp (by rw [placeOf_stepUp cwd htidy, hdone]) hknown hopened ?_
    rw [List.length_cons] at hfuel
    omega
  | @name here place name rest n proper noLink onward ih =>
    obtain ⟨fuel, rfl⟩ := Nat.exists_eq_add_one.mpr (Nat.zero_lt_of_lt hfuel)
    have hplace : placeOf cwd (done.child name) = here ++ [name] := by rw [placeOf_child, if_neg proper, hdone]
    rw [resolveFrom_step cwd fuel known done proper, hplace]
    split
    case h_1 target hview => exact absurd ((view_eq_some_iff rfl).mp hview) (noLink target)
    case h_2 =>
      refine ih (htidy.child proper) hplace hknown hopened ?_
      rw [List.length_cons] at hfuel
      omega
  | @link here middle place name target rest m n proper linked inner onward ihInner ihOnward =>
    obtain ⟨fuel, rfl⟩ := Nat.exists_eq_add_one.mpr (Nat.zero_lt_of_lt hfuel)
    have hplace : placeOf cwd (done.child name) = here ++ [name] := by rw [placeOf_child, if_neg proper, hdone]
    have hleads : t.LinkLeads (here ++ [name]) m middle := ⟨target, linked, by rwa [List.dropLast_concat]⟩
    rw [List.length_cons] at hfuel
    have hlater : ∀ x ∈ opened, ∀ k middle, t.LinkLeads x k middle → n ≤ k := by
      intro x hx k there hthere
      have := hopened x hx k there hthere
      omega
    -- The link would be met again within its own target, on fewer links than it takes.
    have hclosed : here ++ [name] ∉ opened := by
      intro hmem
      have := hopened _ hmem m middle hleads
      omega
    rw [resolveFrom_step cwd fuel known done proper, hplace, (view_eq_some_iff rfl).mpr linked]
    dsimp only
    cases hlookup : known.lookup (done.child name) with
    | some entry =>
      cases entry with
      | none => exact absurd (hplace ▸ hknown.open_ _ hlookup) hclosed
      | some r =>
        obtain ⟨htidy', hr⟩ := hknown.passed _ _ hlookup
        exact ihOnward htidy' (hr m middle (hplace ▸ hleads)) hknown hlater (by omega)
    | none =>
      have hweight := weightBeyond_cons linked hclosed
      have hinner : ∀ x ∈ (here ++ [name]) :: opened, ∀ k there, t.LinkLeads x k there → m ≤ k := by
        intro x hx k there hthere
        rcases List.mem_cons.mp hx with rfl | hx
        · exact (hleads.unique hthere).1.le
        · have := hopened x hx k there hthere
          omega
      have hopen := hknown.cons_open (q := done.child name)
      rw [hplace] at hopen
      have hstart : placeOf cwd (startOf done (Path.ofString target)) = origin here (Path.ofString target) := by
        rw [placeOf_startOf, hdone]
      have hroom : (Path.ofString target).parts.length + t.weightBeyond ((here ++ [name]) :: opened) < fuel := by omega
      have hroom' : rest.length + t.weightBeyond opened < fuel := by omega
      obtain ⟨r, later, hresolved, htidy', hr, hlater', hkept⟩ :=
        ihInner (htidy.startOf (Path.ofString target)) hstart hopen hinner hroom
      have hpassed : t.Remembers cwd opened ((done.child name, some r) :: later) := by
        rw [← hplace] at hlater' hleads
        rw [← hr] at hleads
        exact hknown.cons_passed hlater' hkept htidy' hleads
      obtain ⟨last, final, hlast, htidyLast, hend, hfinal, hkept'⟩ := ihOnward htidy' hr hpassed hlater hroom'
      rw [hresolved]
      refine ⟨last, final, hlast, htidyLast, hend, hfinal, fun q hq => ?_⟩
      have hbefore := hkept' q hq
      by_cases hsame : q = done.child name
      · rw [hsame, List.lookup_cons_self] at hbefore
        cases hbefore
      · rw [lookup_cons_of_ne hsame] at hbefore
        exact (lookup_cons_of_ne hsame).symm.trans (hkept q hbefore)

/-- A path that can be followed to its end is resolved to the place where it ends. -/
theorem resolve_of_leads (hcwd : ".." ∉ cwd) (h : t.Leads (origin cwd p) p.parts n place) : t.resolve cwd p = place := by
  have hstart : placeOf cwd (startOf ⟨.here, []⟩ p) = origin cwd p := by
    have hhere : placeOf cwd ⟨.here, []⟩ = cwd := by
      show collapse [] (cwd ++ []) = cwd
      rw [List.append_nil, collapse_of_noDots hcwd, List.nil_append]
    rw [placeOf_startOf, hhere]
  have htidy : Tidy (startOf ⟨.here, []⟩ p) := Tidy.startOf (fun habsolute => by cases habsolute) p
  have hfuel : p.parts.length + t.weightBeyond [] <
      (p.parts.length + t.linkWeight + 1) * (p.parts.length + t.linkWeight + 1) := by
    rw [weightBeyond_nil]
    exact Nat.lt_of_lt_of_le (Nat.lt_succ_self _) (Nat.le_mul_self _)
  obtain ⟨last, later, hresolved, -, hlast, -⟩ :=
    resolveFrom_of_leads h htidy hstart (.nil t cwd) (fun x hx => by cases hx) hfuel
  rw [resolve, hresolved]
  exact hlast

end ClassAtlas.FileTree
