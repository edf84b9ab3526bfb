import ClassAtlas.Proofs.Files.Housed
import ClassAtlas.Proofs.Host.Files
/-!
# Where the names of a path come from

A path that is resolved has the names of the path, of the current directory and of the targets of links. No
file system has a null character in these, so one in a path comes from the text of the path.
-/
namespace ClassAtlas

namespace FileTree

variable {t : FileTree} {cwd : Location} {P : String → Prop}

/-- What holds of all names in the targets of links. -/
def LinkNames (t : FileTree) (P : String → Prop) : Prop :=
  ∀ place target, t.at? place = some (.link target) → ∀ name ∈ (Path.ofString target).parts, P name

/-- What holds of all names in the part that is done and in the links that are passed. -/
structure Resolved.Names (P : String → Prop) (r : Resolved) : Prop where
  done : ∀ name ∈ r.done.parts, P name
  known : ∀ entry ∈ r.known, ∀ place ∈ entry.2, ∀ name ∈ place.parts, P name

theorem names_stepUp (hdots : P "..") {p : Path} (hp : ∀ name ∈ p.parts, P name) : ∀ name ∈ (stepUp p).parts, P name := by
  have hparent : ∀ name ∈ p.parent.parts, P name := fun name hname => hp name (List.dropLast_subset _ hname)
  have hchild : ∀ name ∈ (p.child "..").parts, P name := by
    intro name hname
    rcases List.mem_append.mp hname with hname | hname
    · exact hp name hname
    · rwa [List.mem_singleton.mp hname]
  unfold stepUp
  split
  · exact hparent
  · split
    · exact hchild
    · exact hchild
    · exact hparent

theorem names_startOf {done p : Path} (hdone : ∀ name ∈ done.parts, P name) : ∀ name ∈ (startOf done p).parts, P name := by
  unfold startOf
  split
  · exact List.forall_mem_nil _
  · exact hdone

theorem names_resolveFrom (hlinks : t.LinkNames P) (hdots : P "..") (fuel : Nat) {known : List (Path × Option Path)}
    {done : Path} {todo : List String} (hstart : Resolved.Names P ⟨done, known, true⟩) (htodo : ∀ name ∈ todo, P name) :
    (t.resolveFrom cwd fuel known done todo).Names P := by
  induction fuel generalizing known done todo with
  | zero =>
    refine ⟨fun name hname => ?_, hstart.known⟩
    exact (List.mem_append.mp hname).elim (hstart.done name) (htodo name)
  | succ fuel ih =>
    cases todo with
    | nil => exact ⟨hstart.done, hstart.known⟩
    | cons name rest =>
      obtain ⟨hname, hrest⟩ := List.forall_mem_cons.mp htodo
      by_cases hup : name = ".."
      · rw [hup, resolveFrom_dots]
        exact ih ⟨names_stepUp hdots hstart.done, hstart.known⟩ hrest
      have hnext : ∀ n ∈ (done.child name).parts, P n := by
        intro n hn
        rcases List.mem_append.mp hn with hn | hn
        · exact hstart.done n hn
        · rwa [List.mem_singleton.mp hn]
      rw [resolveFrom_step cwd fuel known done hup]
      split
      case h_2 => exact ih ⟨hnext, hstart.known⟩ hrest
      case h_1 target hview =>
        have htarget := hlinks _ target ((view_eq_some_iff rfl).mp hview)
        split
        case h_1 place hplace =>
          obtain ⟨before, after, hknown, _⟩ := List.lookup_eq_some_iff.mp hplace
          have hmem : (done.child name, some place) ∈ known := hknown ▸ List.mem_append_right _ List.mem_cons_self
          exact ih ⟨hstart.known _ hmem place rfl, hstart.known⟩ hrest
        case h_2 =>
          refine ⟨fun n hn => ?_, hstart.known⟩
          exact (List.mem_append.mp hn).elim (hnext n) (hrest n)
        case h_3 =>
          -- The target is resolved with its own place marked open, and after it what is left of the path.
          have hopen : Resolved.Names P ⟨startOf done (Path.ofString target), (done.child name, none) :: known, true⟩ := by
            refine ⟨names_startOf hstart.done, List.forall_mem_cons.mpr ⟨fun place hplace => ?_, hstart.known⟩⟩
            cases hplace
          have hinner := ih hopen htarget
          dsimp only
          split
          case isTrue =>
            refine ih ⟨hinner.done, List.forall_mem_cons.mpr ⟨fun place hplace => ?_, hinner.known⟩⟩ hrest
            cases hplace
            exact hinner.done
          case isFalse =>
            refine ⟨fun n hn => ?_, hinner.known⟩
            exact (List.mem_append.mp hn).elim (hinner.done n) (hrest n)

theorem names_collapse {names : List String} (hnames : ∀ name ∈ names, P name) {done : Location}
    (hdone : ∀ name ∈ done, P name) : ∀ name ∈ collapse done names, P name := by
  induction names generalizing done with
  | nil => exact hdone
  | cons first rest ih =>
    obtain ⟨hfirst, hrest⟩ := List.forall_mem_cons.mp hnames
    rw [collapse_cons]
    split
    · exact ih hrest fun name hname => hdone name (List.dropLast_subset _ hname)
    · exact ih hrest fun name hname => (List.mem_append.mp hname).elim (hdone name) fun hlast =>
        (List.mem_singleton.mp hlast) ▸ hfirst

/-- A place that a path is resolved to has names of the path, the current directory and links. -/
theorem names_resolve (hlinks : t.LinkNames P) (hdots : P "..") (hcwd : ∀ name ∈ cwd, P name) {p : Path}
    (hp : ∀ name ∈ p.parts, P name) : ∀ name ∈ t.resolve cwd p, P name := by
  refine names_collapse (fun name hname => ?_) (List.forall_mem_nil _)
  have hempty : ∀ name ∈ (startOf ⟨.here, []⟩ p).parts, P name := names_startOf (List.forall_mem_nil _)
  have hdone := (@names_resolveFrom t cwd P hlinks hdots
    ((p.parts.length + t.linkWeight + 1) * (p.parts.length + t.linkWeight + 1)) [] _ _
    ⟨hempty, List.forall_mem_nil _⟩ hp).done
  rcases List.mem_append.mp hname with hname | hname
  · split at hname
    · cases hname
    · exact hcwd name hname
  · exact hdone name hname

end FileTree

/-! ## Null characters -/

namespace Action

variable {h : Host} {p q : Path} {place : Location}

/-- The host is one that can be: the current directory is there, and no link and no home directory has a null
character in its path. -/
structure Clean (h : Host) : Prop where
  cwd : h.files.DirectoryAt h.cwd
  links : h.files.LinkNames fun name => Char.ofNat 0 ∉ name.toList
  home : hasNul (Path.ofString h.home) = false
  users : ∀ entry ∈ h.users, hasNul (Path.ofString entry.2) = false

theorem clean_holding {t : FileTree}
    (hlinks : ∀ place target, (place, Node.link target) ∈ t.nodes → hasNul (Path.ofString target) = false) :
    Clean (.holding t) where
  cwd := ⟨false, rfl⟩
  links := by
    intro place target hlink
    have hne : place ≠ [] := by
      rintro rfl
      cases hlink
    exact hasNul_eq_false_iff.mp (hlinks place target (FileTree.mem_nodes_of_at? hlink hne))
  home := by
    show hasNul (Path.ofString "/root") = false
    decide
  users := List.forall_mem_nil _

theorem hasNul_of_resolve (ht : h.files.WellFormed) (hclean : Clean h) (hnul : hasNul p = false) :
    hasNul (pathOf (h.files.resolve h.cwd p)) = false := by
  obtain ⟨locked, hcwd⟩ := hclean.cwd
  exact hasNul_eq_false_iff.mpr (FileTree.names_resolve hclean.links (by decide)
    (fun name hname => (ht.isName_of_mem hcwd name hname).noNul) (hasNul_eq_false_iff.mp hnul))

/-- What takes the place of a tilde has no null character in it, and the tilde with its name has none. -/
theorem hasNul_of_expandHome (hclean : Clean h) (hrun : (expandHome p).on h = (.ok q, h)) : hasNul q = hasNul p := by
  have hexpands := expands p h
  rw [hrun] at hexpands
  cases hexpands with
  | same => rfl
  | @home first home name rest hparts htilde hname hknown =>
    have hbase : hasNul (Path.ofString home) = false := by
      split at hknown
      · cases hknown
        exact hclean.home
      · obtain ⟨before, after, husers, _⟩ := List.lookup_eq_some_iff.mp hknown
        have hmem : (String.ofList name, home) ∈ h.users := husers ▸ List.mem_append_right _ List.mem_cons_self
        exact hclean.users _ hmem
    have hfirst : first.toList.contains (Char.ofNat 0) = false := by
      rw [htilde, List.contains_cons, hname]
      decide
    rw [hasNul] at hbase
    rw [hasNul, hasNul, hparts, List.any_append, hbase, List.any_cons, hfirst]

end Action
end ClassAtlas
