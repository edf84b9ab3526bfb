import ClassAtlas.Proofs.Host.Making
/-!
# What becomes of directories

Writing, replacing and removing files leaves every directory where it is and makes none. Only making directories
adds some, and those have names of the path that is asked for.
-/
namespace ClassAtlas

open ClassAtlas.Action

namespace FileTree

variable {t t' : FileTree} {cwd place q : Location} {node : Node}

theorem directoryAt_put_iff (hold : (t.at? place).any Node.isDirectory = false) (hnew : node.isDirectory = false) :
    (t.put place node).DirectoryAt q ↔ t.DirectoryAt q := by
  have hne : place ≠ [] := by
    rintro rfl
    cases hold
  by_cases hq : q = place
  · rw [hq]
    constructor
    · rintro ⟨locked, hnode⟩
      rw [at?_put_self hne] at hnode
      cases hnode
      cases hnew
    · rintro ⟨locked, hnode⟩
      rw [hnode] at hold
      cases hold
  · rw [DirectoryAt, DirectoryAt, at?_put_of_ne hq]

theorem directoryAt_erase_iff (hold : (t.at? place).any Node.isDirectory = false) :
    (t.erase place).DirectoryAt q ↔ t.DirectoryAt q := by
  have hne : place ≠ [] := by
    rintro rfl
    cases hold
  by_cases hq : q = place
  · rw [hq]
    constructor
    · rintro ⟨locked, hnode⟩
      rw [at?_erase_self hne] at hnode
      cases hnode
    · rintro ⟨locked, hnode⟩
      rw [hnode] at hold
      cases hold
  · rw [DirectoryAt, DirectoryAt, at?_erase_of_ne hq]

theorem Grown.stands_iff (h : t.Grown t') : t'.Stands q ↔ t.Stands q := by
  rw [Stands, Stands, ← Option.isSome_iff_exists, ← Option.isSome_iff_exists, h.isSome_eq]

theorem Grown.rooted (h : t.Grown t') (ht : t.Rooted cwd) : t'.Rooted cwd where
  parent hnode := h.stands_iff.mpr (ht.parent (h.stands_iff.mp hnode))
  cwd := h.stands_iff.mpr ht.cwd

end FileTree

/-- The second host has the directories of the first, and new ones have one of the names. -/
structure Host.Spreads (names : List String) (h h' : Host) : Prop where
  kept : ∀ {q}, h.files.DirectoryAt q → h'.files.DirectoryAt q
  only : ∀ {q}, h'.files.DirectoryAt q → h.files.DirectoryAt q ∨ ∃ name ∈ names, q.getLast? = some name
  cwd : h'.cwd = h.cwd

namespace Host.Spreads

variable {names more : List String} {h h' h'' : Host} {q : Location}

theorem of_iff (hiff : ∀ q, h'.files.DirectoryAt q ↔ h.files.DirectoryAt q) (hcwd : h'.cwd = h.cwd) :
    h.Spreads names h' where
  kept hq := (hiff _).mpr hq
  only hq := .inl ((hiff _).mp hq)
  cwd := hcwd

theorem refl (h : Host) : h.Spreads names h := of_iff (fun _ => Iff.rfl) rfl

theorem trans (hh : h.Spreads names h') (hh' : h'.Spreads names h'') : h.Spreads names h'' where
  kept hq := hh'.kept (hh.kept hq)
  only hq := by
    rcases hh'.only hq with hq | hnew
    · exact hh.only hq
    · exact .inr hnew
  cwd := hh'.cwd.trans hh.cwd

theorem mono (hh : h.Spreads names h') (hmore : names ⊆ more) : h.Spreads more h' where
  kept := hh.kept
  only hq := by
    rcases hh.only hq with hq | ⟨name, hname, hlast⟩
    · exact .inl hq
    · exact .inr ⟨name, hmore hname, hlast⟩
  cwd := hh.cwd

theorem of_noted (hnoted : h.Noted h') : h.Spreads names h' :=
  of_iff (fun _ => hnoted.files.directoryAt_iff) hnoted.cwd

/-- Without names there are no new directories. -/
theorem directoryAt (hh : h.Spreads [] h') (hq : h'.files.DirectoryAt q) : h.files.DirectoryAt q := by
  rcases hh.only hq with hq | ⟨name, hname, _⟩
  · exact hq
  · cases hname

end Host.Spreads

namespace Action

variable {α β : Type} {h h' next : Host} {p source target : Path}

/-- The action leaves all directories as they are. -/
def KeepsDirectories (a : Action α) : Prop := ∀ h : Host, h.Spreads [] (a.on h).2

theorem Notes.keepsDirectories {a : Action α} (ha : a.Notes) : a.KeepsDirectories := fun h => .of_noted (ha h)

theorem keepsDirectories_throw (f : Failure) : KeepsDirectories (throw f : Action α) := (notes_throw f).keepsDirectories
theorem keepsDirectories_pure (v : α) : KeepsDirectories (pure v) := (notes_pure v).keepsDirectories

theorem KeepsDirectories.bind {a : Action α} {f : α → Action β} (ha : a.KeepsDirectories)
    (hf : ∀ v, (f v).KeepsDirectories) : KeepsDirectories (a >>= f) := by
  intro h
  have hfirst := ha h
  rw [on_bind]
  rcases hrun : a.on h with ⟨r, next⟩
  rw [hrun] at hfirst
  cases r with
  | ok v => exact hfirst.trans (hf v next)
  | error e => exact hfirst

theorem KeepsDirectories.attempt {a : Action α} (ha : a.KeepsDirectories) : KeepsDirectories (attempt a) := ha

/-! ## Files -/

/-- A file that is opened is there already, or it is put where nothing stands. -/
theorem openPlace_cases {r : Except Failure Location} (hrun : (openPlace p).on h = (r, next)) : next = h ∨
    ∃ place, h.files.locate h.cwd true p = .ok place ∧ h.files.at? place = none ∧
      next = { h with files := h.files.put place (.file []) } := by
  rw [openPlace, on_place] at hrun
  split at hrun
  case isTrue =>
    cases hrun
    exact .inl rfl
  case isFalse =>
    cases hplace : h.files.locate h.cwd true p with
    | error errno =>
      rw [hplace] at hrun
      cases hrun
      exact .inl rfl
    | ok place =>
      rw [hplace] at hrun
      dsimp only at hrun
      rw [on_bind_of_ok (on_get h)] at hrun
      split at hrun
      case h_4 hnone =>
        cases hrun
        exact .inr ⟨place, rfl, hnone, rfl⟩
      all_goals
        cases hrun
        exact .inl rfl

theorem keepsDirectories_writeBytes (p : Path) (bytes : List UInt8) : KeepsDirectories (writeBytes p bytes) := by
  intro h
  rcases hrun : (writeBytes p bytes).on h with ⟨r, next⟩
  cases r with
  | ok u =>
    obtain ⟨place, _, hwrote⟩ := writeBytes_of_ok hrun
    refine .of_iff (fun q => ?_) hwrote.cwd
    have hplain := hwrote.free.not_directory
    have hput := @FileTree.directoryAt_put_iff h.files place q (.file bytes) hplain rfl
    have hsame : next.files.at? q = (h.files.put place (.file bytes)).at? q := by
      by_cases hq : q = place
      · have hne : place ≠ [] := by
          rintro rfl
          cases hplain
        rw [hq, hwrote.written, FileTree.at?_put_self hne]
      · rw [hwrote.others q hq, FileTree.at?_put_of_ne hq]
    rw [← hput]
    show (∃ locked, next.files.at? q = _) ↔ _
    rw [hsame]
    rfl
  | error f =>
    rcases bind_eq_error hrun with hopen | ⟨place, opened, _, hput⟩
    · rcases openPlace_cases hopen with rfl | ⟨place, _, hnone, rfl⟩
      · exact .refl _
      · exact .of_iff (fun q => FileTree.directoryAt_put_iff (by rw [hnone]; rfl) rfl) rfl
    · cases hput

theorem keepsDirectories_replaceFile (source target : Path) : KeepsDirectories (replaceFile source target) := by
  refine (asks_refuseNul source).notes.keepsDirectories.bind fun _ =>
    (asks_refuseNul target).notes.keepsDirectories.bind fun _ h => ?_
  rw [on_bind_of_ok (on_get h)]
  dsimp only
  split
  case h_1 => exact .refl h
  case h_2 => exact .refl h
  case h_3 src dst _ _ =>
    split
    case isTrue => exact .refl h
    case isFalse =>
      split
      case h_1 => exact .refl h
      case h_2 _ there node hsrc =>
        split
        case isTrue =>
          split
          · exact .refl h
          · exact .refl h
        case isFalse hplain =>
          split
          case isTrue => exact .refl h
          case isFalse hover =>
            split
            case isTrue => exact .refl h
            case isFalse hapart =>
              have hplain : node.isDirectory = false := Bool.eq_false_iff.mpr hplain
              have herased : (h.files.erase src).at? dst = h.files.at? dst := FileTree.at?_erase_of_ne fun hsame =>
                hapart hsame.symm
              refine .of_iff (fun q => ?_) rfl
              exact (FileTree.directoryAt_put_iff (by rw [herased]; exact Bool.eq_false_iff.mpr hover) hplain).trans
                (FileTree.directoryAt_erase_iff (by rw [hsrc]; exact hplain))

theorem keepsDirectories_removeFile (p : Path) : KeepsDirectories (removeFile p) := by
  intro h
  cases hnul : hasNul p with
  | true =>
    rw [removeFile, lookup, refuseNul, hnul]
    exact .refl h
  | false =>
    rw [removeFile, on_bind_of_ok (on_lookup hnul false h)]
    cases hfound : h.files.lookup h.cwd false p with
    | error errno => cases errno <;> exact .refl h
    | ok found =>
      obtain ⟨place, node⟩ := found
      have hnode := (FileTree.locate_of_lookup hfound).2
      have hgone : node.isDirectory = false → h.Spreads []
          { h with files := h.files.erase place, logging := h.logging.lose (· == place) } := fun hplain =>
        .of_iff (fun q => FileTree.directoryAt_erase_iff (by rw [hnode]; exact hplain)) rfl
      cases node with
      | directory locked => exact .refl h
      | file bytes => exact hgone rfl
      | link other => exact hgone rfl
      | socket => exact hgone rfl

/-! ## New directories -/

theorem Ensured.spreads {r : Except Failure Unit} (hensured : Ensured h p (r, next)) (hh : h.files.Rooted h.cwd) :
    h.Spreads p.parts next ∧ next.files.Rooted next.cwd := by
  cases hensured with
  | found _ => exact ⟨.refl h, hh⟩
  | refused _ => exact ⟨.refl h, hh⟩
  | made hplace hmissing =>
    obtain ⟨name, k, here, hlast, rfl⟩ := hh.lastIn_of_missing hplace hmissing
    have hhere : h.files.Stands here := hh.followed.reach _ _ _ (hh.followed.origin p) hlast.reach
    refine ⟨⟨?_, ?_, rfl⟩, hh.put hhere name _⟩
    · rintro q ⟨locked, hq⟩
      refine ⟨locked, (FileTree.at?_put_of_ne ?_).trans hq⟩
      rintro rfl
      cases hmissing.symm.trans hq
    · rintro q ⟨locked, hq⟩
      by_cases hsame : q = here ++ [name]
      · refine .inr ⟨name, ?_, by rw [hsame]; exact List.getLast?_concat⟩
        rw [hlast.parts]
        exact List.mem_append_right _ List.mem_cons_self
      · exact .inl ⟨locked, (FileTree.at?_put_of_ne hsame).symm.trans hq⟩

/-- New directories have names of the path. -/
theorem makeDirectories_spreads {steps : Nat} {r : Except Failure Unit} (hh : h.files.Rooted h.cwd)
    (hrun : (makeDirectories p steps).on h = (r, next)) : h.Spreads p.parts next ∧ next.files.Rooted next.cwd := by
  induction steps generalizing p h r next with
  | zero =>
    have hensured := ensured p h
    rw [makeDirectories] at hrun
    rw [hrun] at hensured
    exact hensured.spreads hh
  | succ steps ih =>
    have hensured := ensured p h
    rw [makeDirectories, on_bind_of_ok (on_attempt _ h)] at hrun
    rcases hfirst : (ensureDirectory p).on h with ⟨first, middle⟩
    rw [hfirst] at hensured hrun
    obtain ⟨hspreads, hrooted⟩ := hensured.spreads hh
    dsimp only at hrun
    split at hrun
    case h_1 =>
      cases hrun
      exact ⟨hspreads, hrooted⟩
    case h_3 =>
      cases hrun
      exact ⟨hspreads, hrooted⟩
    case h_2 =>
      split at hrun
      case isTrue =>
        cases hrun
        exact ⟨hspreads, hrooted⟩
      case isFalse =>
        rcases bind_cases hrun with ⟨e, habove, _⟩ | ⟨_, made, habove, hlast⟩
        · obtain ⟨hadded, hmade⟩ := ih hrooted habove
          exact ⟨hspreads.trans (hadded.mono (List.dropLast_subset _)), hmade⟩
        · obtain ⟨hadded, hmade⟩ := ih hrooted habove
          have hensured := ensured p made
          rw [hlast] at hensured
          obtain ⟨hadded', hdone⟩ := hensured.spreads hmade
          exact ⟨(hspreads.trans (hadded.mono (List.dropLast_subset _))).trans hadded', hdone⟩

end Action
end ClassAtlas
