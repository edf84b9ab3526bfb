import ClassAtlas.Proofs.Files.Housed
import ClassAtlas.Proofs.Host.Noted
import ClassAtlas.Proofs.Host.Writing
/-!
# Making directories

Making a directory and those above it changes nothing that is there. New directories stand where the path leads,
and when the last of them cannot be made the path leads to no directory.
-/
namespace ClassAtlas.Action

variable {h h' next : Host} {p : Path} {place : Location}

/-! ## One directory -/

theorem on_makeDirectory (p : Path) (h : Host) : (makeDirectory p).on h =
    if hasNul p then (.error .nulInPath, h)
    else match h.files.locate h.cwd false p with
      | .error errno => (.error (.file (.system errno (.path p.toString))), h)
      | .ok place =>
        if (h.files.at? place).isSome then (.error (.file (.system .fileExists (.path p.toString))), h)
        else (.ok (), { h with files := h.files.put place (.directory false) }) := by
  rw [makeDirectory, on_place]
  split
  case isTrue => rfl
  case isFalse =>
    cases h.files.locate h.cwd false p with
    | error errno => rfl
    | ok place =>
      dsimp only
      rw [on_bind_of_ok (on_get h)]
      cases hsome : (h.files.at? place).isSome <;> rfl

theorem on_ensureDirectory_of_missing (hnul : hasNul p = false) (hplace : h.files.locate h.cwd false p = .ok place)
    (hmissing : h.files.at? place = none) :
    (ensureDirectory p).on h = (.ok (), { h with files := h.files.put place (.directory false) }) := by
  rw [ensureDirectory, on_bind_of_ok (on_attempt _ h), on_makeDirectory, hnul, hplace]
  simp only [Bool.false_eq_true, if_false, hmissing]
  rfl

theorem on_ensureDirectory_of_noEntry (hnul : hasNul p = false)
    (hplace : h.files.locate h.cwd false p = .error .noEntry) :
    (ensureDirectory p).on h = (.error (.file (.system .noEntry (.path p.toString))), h) := by
  rw [ensureDirectory, on_bind_of_ok (on_attempt _ h), on_makeDirectory, hnul, hplace]
  rfl

/-- Where the directory above is missing too, it is made first. -/
theorem on_makeDirectories_of_noEntry (hnul : hasNul p = false)
    (hplace : h.files.locate h.cwd false p = .error .noEntry) (hne : p.parent ≠ p) (steps : Nat) :
    (makeDirectories p (steps + 1)).on h =
      (makeDirectories p.parent steps >>= fun _ => ensureDirectory p).on h := by
  rw [makeDirectories, on_bind_of_ok (on_attempt _ h), on_ensureDirectory_of_noEntry hnul hplace]
  dsimp only
  rw [if_neg hne]

/-- The path leads to a directory. -/
def LeadsToDirectory (h : Host) (p : Path) : Prop :=
  ∃ place locked, h.files.lookup h.cwd true p = .ok (place, .directory locked)

/-- The ways in which a directory is ensured: it is there, it is made, or there is none in the end. -/
inductive Ensured (h : Host) (p : Path) : Except Failure Unit × Host → Prop where
  | found (leads : LeadsToDirectory h p) : Ensured h p (.ok (), h)
  | made {place : Location} (located : h.files.locate h.cwd false p = .ok place) (missing : h.files.at? place = none) :
      Ensured h p (.ok (), { h with files := h.files.put place (.directory false) })
  | refused {f : Failure} (nowhere : hasNul p = false → ¬ LeadsToDirectory h p) : Ensured h p (.error f, h)

/-- Where something stands in the way, the directory has to be there. -/
theorem ensured_of_probe (hnul : hasNul p = false) (f : Failure) :
    Ensured h p ((isDirectory p >>= fun found => if found = true then pure () else throw f).on h) := by
  rw [on_bind, isDirectory, on_probe hnul]
  cases hlookup : h.files.lookup h.cwd true p with
  | error errno =>
    have hnowhere : hasNul p = false → ¬ LeadsToDirectory h p := by
      rintro _ ⟨place, locked, hplace⟩
      rw [hlookup] at hplace
      cases hplace
    cases errno <;> exact .refused hnowhere
  | ok found =>
    obtain ⟨place, node⟩ := found
    cases node with
    | directory locked => exact .found ⟨place, locked, hlookup⟩
    | _ =>
      refine .refused ?_
      rintro _ ⟨other, locked, hother⟩
      rw [hlookup] at hother
      cases hother

theorem ensured (p : Path) (h : Host) : Ensured h p ((ensureDirectory p).on h) := by
  rw [ensureDirectory, on_bind_of_ok (on_attempt _ h), on_makeDirectory]
  cases hnul : hasNul p with
  | true => exact .refused fun hfalse => by cases hnul.symm.trans hfalse
  | false =>
    simp only [Bool.false_eq_true, if_false]
    cases hplace : h.files.locate h.cwd false p with
    | error errno =>
      by_cases hmissing : errno = .noEntry
      · rw [hmissing]
        refine .refused ?_
        rintro _ ⟨place, locked, hfound⟩
        obtain ⟨there, hthere⟩ := FileTree.locate_without_following (FileTree.locate_of_lookup hfound).1
        rw [hplace] at hthere
        cases hthere
      · cases errno <;> first | exact absurd rfl hmissing | exact ensured_of_probe hnul _
    | ok place =>
      dsimp only
      cases hnode : h.files.at? place with
      | none => exact .made hplace hnode
      | some node => exact ensured_of_probe hnul _

/-! ## A directory and those above it -/

/-- The second host has all files of the first, and new directories where names of the path lead. -/
structure Extends (h h' : Host) (p : Path) : Prop where
  same : h' = { h with files := h'.files }
  kept : ∀ {place node}, h.files.at? place = some node → h'.files.at? place = some node
  made : ∀ {place node}, h.files.at? place = none → h'.files.at? place = some node → node = .directory false ∧
    ∃ names name, names ++ [name] <+: p.parts ∧ place.getLast? = some name ∧
      h'.files.lookup h'.cwd true ⟨p.anchor, names ++ [name]⟩ = .ok (place, node)
  housed : h'.files.Housed h'.cwd

namespace Extends

variable {a b c : Host}

theorem refl (hh : h.files.Housed h.cwd) (p : Path) : Extends h h p where
  same := rfl
  kept hnode := hnode
  made hnone hnode := by
    rw [hnone] at hnode
    cases hnode
  housed := hh

theorem cwd (hab : Extends a b p) : b.cwd = a.cwd := by rw [hab.same]
theorem logging (hab : Extends a b p) : b.logging = a.logging := by rw [hab.same]

theorem fewer (hab : Extends a b p) (q : Location) : a.files.at? q = b.files.at? q ∨ a.files.at? q = none := by
  cases hq : a.files.at? q with
  | none => exact .inr rfl
  | some node => exact .inl (hab.kept hq).symm

/-- What a path leads to it leads to with more directories. -/
theorem lookup (hab : Extends a b p) {q : Path} {follow : Bool} {found : Location × Node}
    (hfound : a.files.lookup a.cwd follow q = .ok found) : b.files.lookup b.cwd follow q = .ok found := by
  rw [hab.cwd]
  exact FileTree.lookup_of_more hab.fewer hfound

theorem trans (hab : Extends a b p) (hbc : Extends b c p) : Extends a c p where
  same := by rw [hbc.same, hab.same]
  kept hnode := hbc.kept (hab.kept hnode)
  made {place node} hnone hnode := by
    cases hmiddle : b.files.at? place with
    | none => exact hbc.made hmiddle hnode
    | some old =>
      obtain ⟨hold, names, name, hprefix, hlast, hfound⟩ := hab.made hnone hmiddle
      have hsame := (hbc.kept hmiddle).symm.trans hnode
      cases hsame
      exact ⟨hold, names, name, hprefix, hlast, hbc.lookup hfound⟩
  housed := hbc.housed

/-- A directory above a path is on the way to it. -/
theorem of_parent (hab : Extends a b p.parent) : Extends a b p where
  same := hab.same
  kept := hab.kept
  made hnone hnode := by
    obtain ⟨hkind, names, name, hprefix, hlast, hfound⟩ := hab.made hnone hnode
    exact ⟨hkind, names, name, hprefix.trans (List.dropLast_prefix _), hlast, hfound⟩
  housed := hab.housed

end Extends

theorem extends_of_made (hh : h.files.Housed h.cwd) (hplace : h.files.locate h.cwd false p = .ok place)
    (hmissing : h.files.at? place = none) :
    Extends h { h with files := h.files.put place (.directory false) } p := by
  obtain ⟨name, k, here, hlast, hhere, rfl⟩ := hh.lastIn_of_missing hplace hmissing
  refine ⟨rfl, fun {q node} hnode => ?_, fun {q node} hnone hnode => ?_, hh.put hhere hmissing _⟩
  · refine (FileTree.at?_put_of_ne ?_).trans hnode
    rintro rfl
    rw [hmissing] at hnode
    cases hnode
  · by_cases hq : q = here ++ [name]
    · rw [hq] at hnode ⊢
      have hput := hlast.lookup_put hmissing false true
      obtain rfl : node = .directory false :=
        Option.some.inj (hnode.symm.trans (FileTree.locate_of_lookup hput).2)
      refine ⟨rfl, p.parent.parts, name, ?_, List.getLast?_concat, ?_⟩
      · have hsame : p.parent.parts ++ [name] = p.parts := hlast.parts.symm
        exact hsame ▸ List.prefix_rfl
      · rw [← hlast.parts]
        exact hput
    · have hsame : h.files.at? q = some node := (FileTree.at?_put_of_ne hq).symm.trans hnode
      rw [hnone] at hsame
      cases hsame

theorem Ensured.extends {r : Except Failure Unit} (hensured : Ensured h p (r, next)) (hh : h.files.Housed h.cwd) :
    Extends h next p := by
  cases hensured with
  | found _ => exact .refl hh p
  | made hplace hmissing => exact extends_of_made hh hplace hmissing
  | refused _ => exact .refl hh p

theorem Ensured.leads {r : Except Failure Unit} (hensured : Ensured h p (r, next)) (hh : h.files.Housed h.cwd)
    (hnul : hasNul p = false) : r.isOk = true ↔ LeadsToDirectory next p := by
  cases hensured with
  | found hleads => exact iff_of_true rfl hleads
  | made hplace hmissing =>
    obtain ⟨name, k, here, hlast, _, rfl⟩ := hh.lastIn_of_missing hplace hmissing
    exact iff_of_true rfl ⟨_, false, hlast.lookup_put hmissing false true⟩
  | refused hnowhere => exact iff_of_false (by intro hfalse; cases hfalse) (hnowhere hnul)

theorem hasNul_parent (hnul : hasNul p = false) : hasNul p.parent = false := by
  rw [hasNul, List.any_eq_false] at hnul ⊢
  exact fun n hn => hnul n (List.dropLast_subset _ hn)

theorem leadsToDirectory_parent (hh : h.files.Housed h.cwd) (hleads : LeadsToDirectory h p) (hne : p.parent ≠ p) :
    LeadsToDirectory h p.parent := by
  obtain ⟨place, locked, hfound⟩ := hleads
  refine hh.lookup_parent hfound ?_
  rintro hnil
  refine hne ?_
  rw [Path.parent, hnil, List.dropLast_nil, ← hnil]

/-- What making a directory and those above it does, whether it succeeds or not. -/
theorem makeDirectories_spec {steps : Nat} {r : Except Failure Unit} (hh : h.files.Housed h.cwd)
    (hrun : (makeDirectories p steps).on h = (r, next)) :
    Extends h next p ∧ (hasNul p = false → (r.isOk = true ↔ LeadsToDirectory next p)) := by
  induction steps generalizing p h r next with
  | zero =>
    have hensured := ensured p h
    rw [makeDirectories] at hrun
    rw [hrun] at hensured
    exact ⟨hensured.extends hh, hensured.leads hh⟩
  | succ steps ih =>
    have hensured := ensured p h
    rw [makeDirectories, on_bind_of_ok (on_attempt _ h)] at hrun
    rcases hfirst : (ensureDirectory p).on h with ⟨first, middle⟩
    rw [hfirst] at hensured hrun
    have hdone : ∀ {r'}, (first, middle) = (r', next) → r.isOk = r'.isOk →
        Extends h next p ∧ (hasNul p = false → (r.isOk = true ↔ LeadsToDirectory next p)) := by
      rintro r' hsame hok
      cases hsame
      rw [hok]
      exact ⟨hensured.extends hh, hensured.leads hh⟩
    cases first with
    | ok u =>
      cases hrun
      exact hdone rfl rfl
    | error f =>
      dsimp only at hrun
      split at hrun
      case h_1 heq => cases heq
      case h_3 heq =>
        cases heq
        cases hrun
        exact hdone rfl rfl
      case h_2 subject heq =>
        cases heq
        split at hrun
        case isTrue =>
          cases hrun
          exact hdone rfl rfl
        case isFalse hne =>
          have hsame : middle = h := by cases hensured; rfl
          rw [hsame] at hrun
          rcases habove : (makeDirectories p.parent steps).on h with ⟨above, made⟩
          obtain ⟨hextends, hleads⟩ := ih hh habove
          rw [on_bind, habove] at hrun
          cases above with
          | error f =>
            cases hrun
            refine ⟨hextends.of_parent, fun hnul => iff_of_false (by intro hfalse; cases hfalse) fun hfound => ?_⟩
            have hparent := leadsToDirectory_parent hextends.housed hfound hne
            cases (hleads (hasNul_parent hnul)).mpr hparent
          | ok u =>
            have hlast := ensured p made
            have hrun : (ensureDirectory p).on made = (r, next) := hrun
            rw [hrun] at hlast
            exact ⟨hextends.of_parent.trans (hlast.extends hextends.housed), hlast.leads hextends.housed⟩

theorem makeDirectories_of_nul (hnul : hasNul p = true) (steps : Nat) :
    (makeDirectories p steps).on h = (.error .nulInPath, h) := by
  have hensured : (ensureDirectory p).on h = (.error .nulInPath, h) := by
    rw [ensureDirectory, on_bind_of_ok (on_attempt _ h), on_makeDirectory, hnul]
    rfl
  cases steps with
  | zero => exact hensured
  | succ steps =>
    rw [makeDirectories, on_bind_of_ok (on_attempt _ h), hensured]
    rfl

/-! ## Keeping -/

section
variable {P : Host → Prop}

/-- What holds with one more directory where nothing stood, making one keeps. -/
theorem keeps_makeDirectory (hput : ∀ {h place}, P h → hasNul p = false → h.files.locate h.cwd false p = .ok place →
      h.files.at? place = none → P { h with files := h.files.put place (.directory false) }) :
    Keeps P (makeDirectory p) := by
  intro h hh
  rw [on_makeDirectory]
  cases hnul : hasNul p with
  | true => exact hh
  | false =>
    simp only [Bool.false_eq_true, if_false]
    cases hplace : h.files.locate h.cwd false p with
    | error errno => exact hh
    | ok place =>
      dsimp only
      cases hnode : h.files.at? place with
      | some node => exact hh
      | none => exact hput hh hnul hplace hnode

theorem keeps_ensureDirectory (hmake : Keeps P (makeDirectory p)) : Keeps P (ensureDirectory p) := by
  refine hmake.attempt.bind fun made => ?_
  split
  · exact (asks_pure _).keeps
  · exact (asks_throw _).keeps
  · split
    · refine (asks_probe true Node.isDirectory p).keeps.bind fun found => ?_
      split
      · exact (asks_pure _).keeps
      · exact (asks_throw _).keeps
    · exact (asks_throw _).keeps

theorem keeps_makeDirectories {Q : Path → Prop} (hparent : ∀ {p}, Q p → Q p.parent)
    (hmake : ∀ {p}, Q p → Keeps P (makeDirectory p)) (hp : Q p) (steps : Nat) : Keeps P (makeDirectories p steps) := by
  induction steps generalizing p with
  | zero => exact keeps_ensureDirectory (hmake hp)
  | succ steps ih =>
    refine (keeps_ensureDirectory (hmake hp)).attempt.bind fun ensured => ?_
    split
    · exact (asks_pure _).keeps
    · split
      · exact (asks_throw _).keeps
      · exact (ih (hparent hp)).bind fun _ => keeps_ensureDirectory (hmake hp)
    · exact (asks_throw _).keeps

end

/-! ## Failing -/

theorem failsBy_makeDirectory (p : Path) : FailsBy (Failure.OfPath p) (makeDirectory p) := by
  intro h f next hrun
  rw [on_makeDirectory] at hrun
  split at hrun
  case isTrue hnul =>
    cases hrun
    exact .inl ⟨rfl, hnul⟩
  case isFalse =>
    cases hplace : h.files.locate h.cwd false p with
    | error errno =>
      rw [hplace] at hrun
      cases hrun
      exact .inr rfl
    | ok place =>
      rw [hplace] at hrun
      dsimp only at hrun
      split at hrun <;> cases hrun
      exact .inr rfl

theorem failsBy_ensureDirectory (p : Path) : FailsBy (Failure.OfPath p) (ensureDirectory p) := by
  refine (failsBy_makeDirectory p).attempt_bind (fun _ => failsBy_pure _) fun e he => ?_
  split
  case h_1 heq => cases heq
  case h_2 heq =>
    cases heq
    exact failsBy_throw he
  case h_3 heq =>
    cases heq
    have hprobe : FailsBy (Failure.OfPath p) (isDirectory p) := by
      intro h f next hrun
      rw [probe_failed hrun]
      exact .inr rfl
    split
    · refine hprobe.bind fun found => ?_
      split
      · exact failsBy_pure _
      · exact failsBy_throw he
    · exact failsBy_throw he

theorem hasNul_of_parent (hnul : hasNul p.parent = true) : hasNul p = true := by
  by_contra hclean
  cases hnul.symm.trans (hasNul_parent (Bool.eq_false_iff.mpr hclean))

theorem failsBy_makeDirectories (p : Path) (steps : Nat) : FailsBy (Failure.OfPath p) (makeDirectories p steps) := by
  induction steps generalizing p with
  | zero => exact failsBy_ensureDirectory p
  | succ steps ih =>
    refine (failsBy_ensureDirectory p).attempt_bind (fun _ => failsBy_pure _) fun e he => ?_
    split
    case h_1 heq => cases heq
    case h_2 heq =>
      cases heq
      have habove : FailsBy (Failure.OfPath p) (makeDirectories p.parent steps) :=
        (ih p.parent).mono fun f hf => hf.of_hasNul hasNul_of_parent
      split
      · exact failsBy_throw he
      · exact habove.bind fun _ => failsBy_ensureDirectory p
    case h_3 heq =>
      cases heq
      exact failsBy_throw he

theorem failsBy_ensureDirectories (p : Path) : FailsBy (Failure.OfPath p) (ensureDirectories p) :=
  failsBy_makeDirectories p _

/-! ## With notes taken -/

/-- The hosts have the same files, but for those that have grown. -/
structure Alike (h h' : Host) : Prop where
  files : h.files.Grown h'.files
  cwd : h'.cwd = h.cwd

/-- The action does the same on hosts that are alike. -/
def Follows {α : Type} (a : Action α) : Prop :=
  ∀ ⦃h h' : Host⦄, Alike h h' → (a.on h').1 = (a.on h).1 ∧ Alike (a.on h).2 (a.on h').2

theorem follows_pure {α : Type} (v : α) : Follows (pure v) := fun _ _ halike => ⟨rfl, halike⟩
theorem follows_throw {α : Type} (f : Failure) : Follows (throw f : Action α) := fun _ _ halike => ⟨rfl, halike⟩

theorem Follows.attempt {α : Type} {a : Action α} (ha : a.Follows) : Follows (attempt a) := by
  intro h h' halike
  obtain ⟨hsame, hleft⟩ := ha halike
  exact ⟨congrArg Except.ok hsame, hleft⟩

theorem Follows.bind {α β : Type} {a : Action α} {f : α → Action β} (ha : a.Follows) (hf : ∀ v, (f v).Follows) :
    Follows (a >>= f) := by
  intro h h' halike
  obtain ⟨hsame, hleft⟩ := ha halike
  rw [on_bind, on_bind]
  rcases hrun : a.on h with ⟨r, left⟩
  rcases hrun' : a.on h' with ⟨r', left'⟩
  rw [hrun, hrun'] at hsame hleft
  obtain rfl : r' = r := hsame
  cases r' with
  | ok v => exact hf v hleft
  | error e => exact ⟨rfl, hleft⟩

theorem follows_makeDirectory (p : Path) : Follows (makeDirectory p) := by
  intro h h' halike
  rw [on_makeDirectory, on_makeDirectory, halike.cwd, halike.files.locate_eq]
  split
  case isTrue => exact ⟨rfl, halike⟩
  case isFalse =>
    cases h.files.locate h.cwd false p with
    | error errno => exact ⟨rfl, halike⟩
    | ok place =>
      dsimp only
      rw [halike.files.isSome_eq]
      split
      · exact ⟨rfl, halike⟩
      · exact ⟨rfl, halike.files.put _ _, rfl⟩

theorem follows_isDirectory (p : Path) : Follows (isDirectory p) := by
  intro h h' halike
  cases hnul : hasNul p with
  | true =>
    rw [isDirectory, probe, hnul]
    exact ⟨rfl, halike⟩
  | false =>
    rw [isDirectory, on_probe hnul, on_probe hnul, halike.cwd]
    refine ⟨?_, halike⟩
    rcases halike.files.lookup_cases h.cwd true p with ⟨errno, hold, hnew⟩ | ⟨place, m, n, hold, hnew, hgrown⟩
    · rw [hold, hnew]
    · rw [hold, hnew]
      cases hgrown <;> rfl

theorem follows_ensureDirectory (p : Path) : Follows (ensureDirectory p) := by
  refine (follows_makeDirectory p).attempt.bind fun made => ?_
  split
  · exact follows_pure _
  · exact follows_throw _
  · split
    · refine (follows_isDirectory p).bind fun found => ?_
      split
      · exact follows_pure _
      · exact follows_throw _
    · exact follows_throw _

theorem follows_makeDirectories (p : Path) (steps : Nat) : Follows (makeDirectories p steps) := by
  induction steps generalizing p with
  | zero => exact follows_ensureDirectory p
  | succ steps ih =>
    refine (follows_ensureDirectory p).attempt.bind fun ensured => ?_
    split
    · exact follows_pure _
    · split
      · exact follows_throw _
      · exact (ih p.parent).bind fun _ => follows_ensureDirectory p
    · exact follows_throw _

end ClassAtlas.Action
