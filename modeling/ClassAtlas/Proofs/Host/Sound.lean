import ClassAtlas.Log.Setup
import ClassAtlas.Proofs.Files.Path
import ClassAtlas.Proofs.Host.Making
import ClassAtlas.Proofs.Host.Names
/-!
# Hosts stay sound

The tree of a sound host is well-formed, its current directory is there, and no link and no home directory has a null
character in its path. Notes, new directories and the log keep it so, since what is made gets a name that comes from
the text of a path.
-/
namespace ClassAtlas

open ClassAtlas.Action

namespace FileTree

variable {t : FileTree} {follow : Bool}

/-- The places that names lead to have names that files can have. -/
theorem isName_of_walk (hlinks : t.LinkNames fun name => Char.ofNat 0 ∉ name.toList) :
    ∀ (links : Nat) (here : Location) (todo : List String) {place : Location}, (∀ name ∈ here, IsName name) →
      Path.Plain ⟨.here, todo⟩ → (∀ name ∈ todo, Char.ofNat 0 ∉ name.toList) →
      t.walk follow links here todo = .ok place → ∀ name ∈ place, IsName name
  | links, here, [], place, hhere, _, _, hwalk => by
    rw [walk_nil] at hwalk
    cases hwalk
    exact hhere
  | links, here, name :: rest, place, hhere, hplain, hnul, hwalk => by
    obtain ⟨⟨hempty, hdot, hslash⟩, hplain⟩ := List.forall_mem_cons.mp hplain
    obtain ⟨hnone, hnul⟩ := List.forall_mem_cons.mp hnul
    by_cases hdots : name = ".."
    · rw [hdots, walk_dots] at hwalk
      exact isName_of_walk hlinks links here.dropLast rest (fun n hn => hhere n (List.dropLast_subset _ hn)) hplain hnul hwalk
    by_cases hlong : name.utf8ByteSize > maxNameBytes
    · rw [walk_tooLong hdots hlong] at hwalk
      cases hwalk
    have hnext : ∀ n ∈ here ++ [name], IsName n := fun n hn => (List.mem_append.mp hn).elim (hhere n) fun hlast => by
      rw [List.mem_singleton.mp hlast]
      exact ⟨hempty, hdot, hdots, hslash, hnone, Nat.le_of_not_lt hlong⟩
    have hlast : ∀ {errno : Errno}, (if rest = [] then Except.ok (here ++ [name]) else .error errno) = .ok place →
        ∀ n ∈ place, IsName n := by
      intro errno hlast
      split at hlast
      · cases hlast
        exact hnext
      · cases hlast
    rw [walk_step hdots hlong] at hwalk
    split at hwalk
    case h_1 => exact hlast hwalk
    case h_2 => exact isName_of_walk hlinks links (here ++ [name]) rest hnext hplain hnul hwalk
    case h_3 target hview =>
      split at hwalk
      case isTrue =>
        cases hwalk
        exact hnext
      case isFalse =>
        cases links with
        | zero => cases hwalk
        | succ links =>
          -- The names of the target come first, so the rest grows and the links left are what goes down.
          have htarget := hlinks _ target ((view_eq_some_iff rfl).mp hview)
          refine isName_of_walk hlinks links _ _ ?_ ((Path.plain_ofString target).append (q := ⟨.here, rest⟩) hplain)
            (fun n hn => (List.mem_append.mp hn).elim (htarget n) (hnul n)) hwalk
          split
          · exact List.forall_mem_nil _
          · exact hhere
    case h_4 => exact hlast hwalk
termination_by links _ todo => (links, todo.length)

end FileTree

/-- The host is clean and its tree is well-formed. -/
structure Host.Sound (h : Host) : Prop where
  wellFormed : h.files.WellFormed
  clean : Clean h

variable {h h' : Host} {p q : Path} {place : Location} {node : Node}

namespace Host.Sound

theorem housed (hs : h.Sound) : h.files.Housed h.cwd := .of_wellFormed hs.wellFormed hs.clean.cwd

theorem isName_of_mem_cwd (hs : h.Sound) : ∀ name ∈ h.cwd, FileTree.IsName name := by
  obtain ⟨locked, hcwd⟩ := hs.clean.cwd
  exact hs.wellFormed.isName_of_mem hcwd

theorem dots_notMem_cwd (hs : h.Sound) : ".." ∉ h.cwd := fun hmem => (hs.isName_of_mem_cwd _ hmem).notDots rfl

/-- Nothing but files, the current directory and the home directories matters. -/
theorem congr (hs : h.Sound) (files : h'.files = h.files) (cwd : h'.cwd = h.cwd) (home : h'.home = h.home)
    (users : h'.users = h.users) : h'.Sound where
  wellFormed := by rw [files]; exact hs.wellFormed
  clean := {
    cwd := by rw [files, cwd]; exact hs.clean.cwd
    links := by rw [files]; exact hs.clean.links
    home := by rw [home]; exact hs.clean.home
    users := by rw [users]; exact hs.clean.users }

theorem noted (hs : h.Sound) (hnoted : h.Noted h') : h'.Sound where
  wellFormed := hnoted.wellFormed hs.wellFormed
  clean := {
    cwd := by rw [hnoted.cwd]; exact hnoted.files.directoryAt_iff.mpr hs.clean.cwd
    links := fun place target hlink => hs.clean.links place target ((hnoted.files.at?_iff rfl).mp hlink)
    home := by rw [hnoted.home]; exact hs.clean.home
    users := by rw [hnoted.users]; exact hs.clean.users }

/-- What is put where a path leads stands in a directory, under a name that it can have. -/
theorem put {follow : Bool} (hs : h.Sound) (hplain : p.Plain) (hnul : hasNul p = false)
    (hplace : h.files.locate h.cwd follow p = .ok place) (hmissing : h.files.at? place = none)
    (hlink : node.isLink = false) : Host.Sound { h with files := h.files.put place node } := by
  rw [FileTree.locate] at hplace
  split at hplace
  case isTrue => cases hplace
  have hstart : ∀ name ∈ FileTree.origin h.cwd p, FileTree.IsName name := by
    rw [FileTree.origin]
    split
    · exact List.forall_mem_nil _
    · exact hs.isName_of_mem_cwd
  have hnames := FileTree.isName_of_walk hs.clean.links _ _ _ hstart hplain (hasNul_eq_false_iff.mp hnul) hplace
  rcases hs.housed.followed.walk _ _ _ (hs.housed.followed.origin p) hplace with ⟨locked, hdirectory⟩ | ⟨above, name, rfl, locked, habove⟩
  · cases hmissing.symm.trans hdirectory
  have hkept : ∀ {q old}, h.files.at? q = some old → (h.files.put (above ++ [name]) node).at? q = some old := by
    intro q old hold
    refine (FileTree.at?_put_of_ne ?_).trans hold
    rintro rfl
    cases hmissing.symm.trans hold
  obtain ⟨_, hcwd⟩ := hs.clean.cwd
  refine ⟨hs.wellFormed.put_child habove (hnames name (by simp)) (by rw [hmissing]; rfl) node, ⟨_, hkept hcwd⟩,
    fun q target hnode => ?_, hs.clean.home, hs.clean.users⟩
  by_cases hq : q = above ++ [name]
  · rw [hq, FileTree.at?_put_self (by simp)] at hnode
    cases hnode
    cases hlink
  · rw [FileTree.at?_put_of_ne hq] at hnode
    exact hs.clean.links q target hnode

end Host.Sound

namespace Action

/-! ## Making directories and files -/

theorem sound_makeDirectory (hplain : p.Plain) : Keeps Host.Sound (makeDirectory p) :=
  keeps_makeDirectory fun hs hnul hplace hnone => hs.put hplain hnul hplace hnone rfl

theorem sound_ensureDirectories (hplain : p.Plain) : Keeps Host.Sound (ensureDirectories p) :=
  keeps_makeDirectories (Q := Path.Plain) Path.Plain.parent sound_makeDirectory hplain _

theorem sound_openPlace (hplain : p.Plain) : Keeps Host.Sound (openPlace p) :=
  keeps_openPlace fun hs hnul hplace hnone => hs.put hplain hnul hplace hnone rfl

theorem plain_of_expandHome {next : Host} (hplain : p.Plain) (hrun : (expandHome p).on h = (.ok q, next)) : q.Plain := by
  have hexpands := expands p h
  rw [hrun] at hexpands
  cases hexpands with
  | same => exact hplain
  | @home first home name rest hparts =>
    have hrest : Path.Plain ⟨.here, rest⟩ := fun n hn => hplain n (by rw [hparts]; exact List.mem_cons_of_mem _ hn)
    exact (Path.plain_ofString home).append hrest

end Action

namespace Logging

theorem sound_openFile (hplain : p.Plain) : Keeps Host.Sound (openFile p) := by
  intro h hs
  rcases hrun : (openFile p).on h with ⟨r, opened⟩
  rcases (asks_expandHome p).bind_cases hrun with rfl | ⟨q, hexpanded, hrun⟩
  · exact hs
  have hq := plain_of_expandHome hplain hexpanded
  refine Keeps.of_eq ((sound_ensureDirectories hq.parent).bind fun _ ready hready => ?_) hs hrun
  have hcwd : cwd.on ready = (.ok (pathOf ready.cwd), ready) := rfl
  rw [on_bind_of_ok hcwd]
  have hhere : Path.Plain (pathOf ready.cwd) := Path.plain_of_isName hready.isName_of_mem_cwd _
  exact sound_openPlace (hhere.join hq).withoutDots ready hready

/-- Setting up the log makes its file and the directories above it. -/
theorem sound_configure (verbose : Bool) (text : Option String) :
    Keeps Host.Sound (configure verbose (text.map Path.ofString)) := by
  refine Keeps.bind (keeps_modify fun h hs => hs.congr rfl rfl rfl rfl) fun _ => ?_
  cases text with
  | none => exact (asks_pure _).keeps
  | some text =>
    exact (sound_openFile (Path.plain_ofString text)).bind fun place =>
      keeps_modify fun h hs => hs.congr rfl rfl rfl rfl

end Logging
end ClassAtlas
