import ClassAtlas.Proofs.Checkout.Cleanup
import ClassAtlas.Proofs.Host.Directories
/-!
# Making a copy

A copy stands in the directory for copies, under a name that the clock gives. When it cannot be made, nothing new is
left there, unless the version control program breaks off in a way that is not a fault of running it. A copy that was
made is removed with all that is in it.
-/
namespace ClassAtlas.Checkout

open ClassAtlas.Action

/-- How the names of copies begin. -/
def namePrefix : String := "repo-"

def copyName (nanos : Nat) : String := namePrefix ++ Nat.repr nanos

/-- The place of copies of a name. -/
def copyPlace (h : Host) (name : String) : Location := h.cwd ++ [directoryName] ++ [name]

variable {h made told after : Host} {p : Path} {place q : Location} {name url : String}

theorem namePrefix_copyName (nanos : Nat) : namePrefix.toList <+: (copyName nanos).toList := by
  rw [copyName, String.toList_append]
  exact List.prefix_append _ _

theorem ne_of_namePrefix (hname : namePrefix.toList <+: name.toList) : name ≠ ".." ∧ name ≠ directoryName := by
  constructor
  · rintro rfl
    revert hname
    decide
  · rintro rfl
    revert hname
    decide

/-! ## The course of making a copy -/

/-- The host when the clock was read. -/
def clocked (h : Host) : Host := { h with nanos := h.nanos + 1 }

/-- The ways in which making a copy ends: its directory cannot be made, running the program fails and the directory is
removed again, the program breaks off, or the copy is there. -/
inductive Cloned (h : Host) : Except Failure Path × Host → Prop where
  | refused {made : Host} {f : Failure}
      (ensured : (ensureDirectories (pathOf (copyPlace h (copyName h.nanos)))).on (clocked h) = (.error f, made)) :
      Cloned h (.error f, made)
  | failed {made noted : Host} {fault : CommandFault} {f : Failure} {after : Host}
      (ensured : (ensureDirectories (pathOf (copyPlace h (copyName h.nanos)))).on (clocked h) = (.ok (), made))
      (notes : made.Noted noted) (answer : noted.git.copy = .error fault) (run : fault.isRunFault = true)
      (cleaned : ((cleanup (pathOf (copyPlace h (copyName h.nanos)))).on noted).2 = after)
      (told : (∃ url cause, f = .cloneFailed url cause) ∨
        ((cleanup (pathOf (copyPlace h (copyName h.nanos)))).on noted).1 = .error f) : Cloned h (.error f, after)
  | broken {made noted : Host} {fault : CommandFault} {f : Failure}
      (ensured : (ensureDirectories (pathOf (copyPlace h (copyName h.nanos)))).on (clocked h) = (.ok (), made))
      (notes : made.Noted noted) (answer : noted.git.copy = .error fault) (run : fault.isRunFault = false) :
      Cloned h (.error f, noted)
  | copied {made noted after : Host} {entries : List (List String × Node)}
      (ensured : (ensureDirectories (pathOf (copyPlace h (copyName h.nanos)))).on (clocked h) = (.ok (), made))
      (notes : made.Noted noted) (answer : noted.git.copy = .ok entries)
      (planted : ((plantCopy (pathOf (copyPlace h (copyName h.nanos))) entries).on noted).2.Noted after) :
      Cloned h (.ok (pathOf (copyPlace h (copyName h.nanos))), after)

theorem plantCopy_succeeds (hnul : hasNul p = false) (entries : List (List String × Node)) (h : Host) :
    ∃ next, (plantCopy p entries).on h = (.ok (), next) := by
  rw [plantCopy, on_bind_of_ok (on_lookup hnul true h)]
  cases h.files.lookup h.cwd true p with
  | error errno => exact ⟨_, rfl⟩
  | ok found => exact ⟨_, rfl⟩

theorem cloned (url : String) (h : Host) : Cloned h ((clone url none).on h) := by
  have htarget : (pathOf h.cwd |>.child directoryName).child ("repo-" ++ Nat.repr h.nanos) =
      pathOf (copyPlace h (copyName h.nanos)) := rfl
  have hcwd : (cwd : Action Path).on h = (.ok (pathOf h.cwd), h) := rfl
  have hclock : readNanos.on h = (.ok h.nanos, clocked h) := rfl
  unfold clone
  dsimp only
  rw [on_bind_of_ok hcwd, on_bind_of_ok hclock, htarget]
  rcases hensured : (ensureDirectories (pathOf (copyPlace h (copyName h.nanos)))).on (clocked h) with ⟨_ | _, made⟩
  · rw [on_bind, hensured]
    exact .refused hensured
  rw [on_bind_of_ok hensured]
  obtain ⟨told, htold⟩ := succeeds_log (some "git") LogRecord.info ("Cloning repository: " ++ url) made
  have hinfo : (info "git" ("Cloning repository: " ++ url)).on made = (.ok (), told) := htold
  let noted : Host := { told with
    commands := told.commands ++ [command url (pathOf (copyPlace h (copyName h.nanos)))] }
  have hcommand : on (modify fun h' => { h' with
      commands := h'.commands ++ [command url (pathOf (copyPlace h (copyName h.nanos)))] }) told = (.ok ⟨⟩, noted) := rfl
  have hnoted : made.Noted noted := ((notes_info _ _).of_eq hinfo).trans (.of_files rfl rfl rfl rfl rfl rfl rfl)
  rw [on_bind_of_ok hinfo, on_bind_of_ok hcommand, on_bind_of_ok (on_get noted)]
  split
  case h_1 entries hanswer =>
    obtain ⟨planted, hplanted⟩ := plantCopy_succeeds (noNul_of_ensureDirectories hensured) entries noted
    obtain ⟨after, hafter⟩ := succeeds_log (some "git") LogRecord.info
      ("Cloned to: " ++ (pathOf (copyPlace h (copyName h.nanos))).toString) planted
    have hinfo : (info "git" ("Cloned to: " ++ (pathOf (copyPlace h (copyName h.nanos))).toString)).on planted =
        (.ok (), after) := hafter
    rw [on_bind_of_ok hplanted, on_bind_of_ok hinfo]
    refine .copied hensured hnoted hanswer ?_
    rw [hplanted]
    exact (notes_info _ _).of_eq hinfo
  case h_2 fault hanswer =>
    cases hrun : fault.isRunFault with
    | true =>
      simp only [if_true]
      rw [on_bind]
      rcases hcleaned : (cleanup (pathOf (copyPlace h (copyName h.nanos)))).on noted with ⟨_ | _, after⟩
      · exact .failed hensured hnoted hanswer hrun (by rw [hcleaned]) (.inr (by rw [hcleaned]))
      · exact .failed hensured hnoted hanswer hrun (by rw [hcleaned]) (.inl ⟨_, _, rfl⟩)
    | false => exact .broken hensured hnoted hanswer hrun

/-! ## The directory of a copy -/

/-- New directories among the copies are the copy itself, and its path leads there. -/
theorem name_of_extends {own : String} (hextends : Extends h made (pathOf (copyPlace h own)))
    (hname : namePrefix.toList <+: name.toList) (hbefore : ¬ h.files.DirectoryAt (copyPlace h name))
    (hthere : made.files.DirectoryAt (copyPlace h name)) (hpaved : h.files.Paved h.cwd) :
    name = own ∧ LeadsToDirectory made (pathOf (copyPlace h own)) := by
  obtain ⟨locked, hnode⟩ := hthere
  have hnone : h.files.at? (copyPlace h name) = none := by
    by_contra hsome
    obtain ⟨node, hold⟩ := Option.ne_none_iff_exists'.mp hsome
    cases (hextends.kept hold).symm.trans hnode
    exact hbefore ⟨locked, hold⟩
  obtain ⟨_, names, last, hprefix, hlast, hfound⟩ := hextends.made hnone hnode
  obtain rfl : name = last := by
    rw [copyPlace, List.getLast?_concat] at hlast
    exact Option.some.inj hlast
  rcases List.prefix_concat_iff.mp hprefix with hsame | hprefix
  · obtain rfl : name = own := List.singleton_inj.mp (List.append_inj' hsame rfl).2
    rw [hsame] at hfound
    exact ⟨rfl, _, _, hfound⟩
  rcases List.prefix_concat_iff.mp hprefix with hsame | hprefix
  · obtain rfl : name = directoryName := List.singleton_inj.mp (List.append_inj' hsame rfl).2
    exact absurd rfl (ne_of_namePrefix hname).2
  · -- The names above the directory for copies led to their own place before.
    obtain ⟨_, hown⟩ := (hpaved.of_prefix hprefix).lookup (FileTree.short_of_lookup hfound) h.cwd true
    have hplace : copyPlace h name = names ++ [name] := by
      have hboth := (hextends.lookup hown).symm.trans hfound
      exact (congrArg Prod.fst (Except.ok.inj hboth)).symm
    have hlength := hprefix.length_le
    rw [← hplace, copyPlace, List.length_append, List.length_append, List.length_singleton] at hlength
    omega

/-- When the path of a copy leads to a directory and no link is there, directories lead to its own place. -/
theorem paved_of_leads {own : String} (hpaved : made.files.Paved h.cwd) (hdots : own ≠ "..")
    (hlink : ∀ place ∈ [h.cwd ++ [directoryName], copyPlace h own], ∀ target, made.files.at? place ≠ some (.link target))
    (hleads : LeadsToDirectory made (pathOf (copyPlace h own))) : made.files.Paved (copyPlace h own) ∧
      ¬ (pathOf (copyPlace h own)).toString.utf8ByteSize > FileTree.maxPathBytes := by
  obtain ⟨place, locked, hfound⟩ := hleads
  have hshort := FileTree.short_of_lookup hfound
  refine ⟨?_, hshort⟩
  obtain ⟨hwalk, hplace⟩ := FileTree.locate_of_lookup hfound
  rw [FileTree.locate, if_neg hshort] at hwalk
  have hwalk : made.files.walk true FileTree.maxLinks [] (h.cwd ++ [directoryName, own]) = .ok place := by
    rw [← hwalk]
    simp [copyPlace, pathOf, Path.isAbsolute]
  rw [hpaved.walk_append] at hwalk
  obtain ⟨hshort', hcopies, hwalk⟩ := FileTree.directoryAt_of_walk (by decide)
    (hlink _ List.mem_cons_self) hwalk ⟨locked, hplace⟩
  obtain ⟨hshort'', hown, _⟩ := FileTree.directoryAt_of_walk hdots
    (hlink _ (List.mem_cons_of_mem _ List.mem_cons_self)) hwalk ⟨locked, hplace⟩
  exact (hpaved.concat ⟨by decide, hshort'⟩ hcopies).concat ⟨hdots, hshort''⟩ hown

/-! ## Removing the copy again -/

theorem directoryAt_of_cleanup (hq : ((cleanup p).on h).2.files.DirectoryAt q) : h.files.DirectoryAt q := by
  rcases cleanup_cases p h with hnoted | ⟨place, node, cleared, _, hcleared, hnoted⟩
  · exact hnoted.files.directoryAt_iff.mp hq
  · obtain ⟨locked, hnode⟩ := hnoted.files.directoryAt_iff.mp hq
    rcases hcleared.fewer q with hsame | hgone
    · exact ⟨locked, hsame.symm.trans hnode⟩
    · cases hgone.symm.trans hnode

/-- A place that directories lead to is removed by its path. -/
theorem cleanup_of_paved (hpaved : h.files.Paved place) (hne : place ≠ [])
    (hshort : ¬ (pathOf place).toString.utf8ByteSize > FileTree.maxPathBytes) (hnul : hasNul (pathOf place) = false)
    (hown : (pathOf place).parts.contains directoryName = true) :
    ¬ ((cleanup (pathOf place)).on h).2.files.DirectoryAt place := by
  intro hleft
  have hdirectory := (noted_of_cleanup hown h).files.directoryAt_iff.mp hleft
  obtain ⟨locked, hfound⟩ := hpaved.lookup hshort h.cwd false
  let cleared : Host := ((clearBelow place).on h).2
  have hclear : (clearBelow place).on h = (.ok ⟨⟩, cleared) := rfl
  -- Clearing leaves the way to the place as it is.
  have hpaved' : cleared.files.Paved place := by
    refine ⟨hpaved.named, fun {here} hbelow => ?_⟩
    obtain ⟨locked, hnode⟩ := hpaved.directories hbelow
    refine ⟨locked, (FileTree.at?_clear_of_not_below ?_).trans hnode⟩
    rintro ⟨habove, hapart⟩
    exact hapart (hbelow.eq_of_length (Nat.le_antisymm hbelow.length_le habove.length_le))
  obtain ⟨_, hfound'⟩ := hpaved'.lookup hshort cleared.cwd false
  have hlast : (pathOf place).name ≠ ".." := by
    obtain ⟨above, name, rfl⟩ := (List.eq_nil_or_concat' place).resolve_left hne
    rw [Path.name, pathOf, List.getLast?_concat]
    exact (hpaved.named name (List.mem_append_right _ List.mem_cons_self)).1
  have hremoved : (removeTree (pathOf place)).on h = (.ok (), { cleared with files := cleared.files.erase place }) := by
    rw [removeTree, on_bind_of_ok (on_lookup hnul false h)]
    have hfound : h.files.lookup h.cwd false (pathOf place) = .ok (place, .directory locked) := hfound
    rw [hfound]
    simp only [if_neg hne]
    rw [on_bind_of_ok hclear, removeEmpty, on_place, hnul]
    have hplace : cleared.files.locate cleared.cwd false (pathOf place) = .ok place :=
      (FileTree.locate_of_lookup hfound').1
    rw [hplace]
    simp only [Bool.false_eq_true, if_false, if_neg hlast]
    rfl
  rw [hremoved] at hdirectory
  obtain ⟨_, hnode⟩ := hdirectory
  cases (FileTree.at?_erase_self hne).symm.trans hnode

/-! ## What a copy leaves -/

/-- No directory for a copy is there that was not there before, apart from those with certain names. -/
def NoMore (names : List String) (h after : Host) : Prop :=
  ∀ name, namePrefix.toList <+: name.toList → name ∉ names → after.files.DirectoryAt (copyPlace h name) →
    h.files.DirectoryAt (copyPlace h name)

/-- A copy has been made. -/
structure Copied (h after : Host) : Prop where
  rooted : after.files.Rooted after.cwd
  cwd : after.cwd = h.cwd
  above : after.files.Paved (h.cwd ++ [directoryName])
  noDots : copyName h.nanos ≠ ".." ∧ ¬ (copyName h.nanos).utf8ByteSize > FileTree.maxNameBytes
  short : ¬ (pathOf (copyPlace h (copyName h.nanos))).toString.utf8ByteSize > FileTree.maxPathBytes
  noNul : hasNul (pathOf (copyPlace h (copyName h.nanos))) = false
  others : NoMore [copyName h.nanos] h after

/-- The copy can be removed by its path, as long as no directory has gone. -/
theorem Copied.removed {left : Host} {names : List String} (hcopied : Copied h after) (hspreads : after.Spreads names left) :
    ¬ ((cleanup (pathOf (copyPlace h (copyName h.nanos)))).on left).2.files.DirectoryAt
      (copyPlace h (copyName h.nanos)) := by
  intro hleft
  have hpaved := (hcopied.above.mono hspreads.kept).concat hcopied.noDots (directoryAt_of_cleanup hleft)
  exact cleanup_of_paved hpaved (by simp) hcopied.short hcopied.noNul (by simp [pathOf]) hleft

/-- The directory for the copy is there, directories lead to it, and it is the only new one among the copies. -/
theorem ready_of_ensured (hh : h.files.Housed h.cwd) (hpaved : h.files.Paved h.cwd)
    (hlink : ∀ place ∈ [h.cwd ++ [directoryName], copyPlace h (copyName h.nanos)], ∀ target,
      h.files.at? place ≠ some (.link target))
    (hensured : (ensureDirectories (pathOf (copyPlace h (copyName h.nanos)))).on (clocked h) = (.ok (), made)) :
    made.git = h.git ∧ made.files.Housed made.cwd ∧ Copied h made ∧ made.files.Paved (copyPlace h (copyName h.nanos)) := by
  have hnul := noNul_of_ensureDirectories hensured
  have hname := namePrefix_copyName h.nanos
  obtain ⟨hextends, hleads⟩ := makeDirectories_spec (h := clocked h) hh hensured
  have hkept : ∀ {q}, h.files.DirectoryAt q → made.files.DirectoryAt q := fun ⟨locked, hnode⟩ =>
    ⟨locked, hextends.kept hnode⟩
  have hlinks : ∀ place ∈ [h.cwd ++ [directoryName], copyPlace h (copyName h.nanos)], ∀ target,
      made.files.at? place ≠ some (.link target) := by
    intro place hplace target hnode
    cases hold : h.files.at? place with
    | none => cases (hextends.made hold hnode).1
    | some node =>
      cases (hextends.kept hold).symm.trans hnode
      exact hlink place hplace target hold
  obtain ⟨hcopy, hshort⟩ := paved_of_leads (hpaved.mono hkept) (ne_of_namePrefix hname).1 hlinks
    ((hleads hnul).mp rfl)
  refine ⟨by rw [hextends.same]; rfl, hextends.housed, ?_, hcopy⟩
  exact {
    rooted := hextends.housed.rooted
    cwd := hextends.cwd
    above := hcopy.of_prefix (List.prefix_append _ _)
    noDots := hcopy.named _ (List.mem_append_right _ List.mem_cons_self)
    short := hshort
    noNul := hnul
    others := fun name hprefix hother hthere => by
      by_contra hbefore
      exact hother (List.mem_singleton.mpr (name_of_extends hextends hprefix hbefore hthere hpaved).1) }

theorem Copied.noted {later : Host} (hcopied : Copied h after) (hnoted : after.Noted later) : Copied h later where
  rooted := by
    rw [hnoted.cwd]
    exact hnoted.files.rooted hcopied.rooted
  cwd := hnoted.cwd.trans hcopied.cwd
  above := hcopied.above.mono hnoted.files.directoryAt_iff.mpr
  noDots := hcopied.noDots
  short := hcopied.short
  noNul := hcopied.noNul
  others name hprefix hother hthere := hcopied.others name hprefix hother (hnoted.files.directoryAt_iff.mp hthere)

/-- Files that are put below the copy's directory are nowhere else. -/
theorem Copied.planted (hcopied : Copied h told) (hcopy : told.files.Paved (copyPlace h (copyName h.nanos)))
    (entries : List (List String × Node)) :
    Copied h ((plantCopy (pathOf (copyPlace h (copyName h.nanos))) entries).on told).2 := by
  obtain ⟨locked, hfound⟩ := hcopy.lookup hcopied.short told.cwd true
  have hfound : told.files.lookup told.cwd true (pathOf (copyPlace h (copyName h.nanos))) =
      .ok (copyPlace h (copyName h.nanos), .directory locked) := hfound
  obtain ⟨hrooted, hothers⟩ := hcopied.rooted.plantAll ⟨_, (FileTree.locate_of_lookup hfound).2⟩ entries
  generalize hlater : ((plantCopy (pathOf (copyPlace h (copyName h.nanos))) entries).on told).2 = later
  rw [plantCopy, on_bind_of_ok (on_lookup hcopied.noNul true told), hfound] at hlater
  have hcwd : later.cwd = told.cwd := by rw [← hlater]; rfl
  have hsame : ∀ {q}, ¬ copyPlace h (copyName h.nanos) <+: q →
      (later.files.DirectoryAt q ↔ told.files.DirectoryAt q) := by
    intro q hoff
    have hnode : later.files.at? q = told.files.at? q := by
      rw [← hlater]
      exact hothers q hoff
    rw [FileTree.DirectoryAt, FileTree.DirectoryAt, hnode]
  exact {
    rooted := by
      rw [hcwd, ← hlater]
      exact hrooted
    cwd := hcwd.trans hcopied.cwd
    above := ⟨hcopied.above.named, fun {here} hbelow => by
      refine (hsame ?_).mpr (hcopied.above.directories hbelow)
      intro hover
      have hlength := (hover.trans hbelow).length_le
      simp [copyPlace] at hlength⟩
    noDots := hcopied.noDots
    short := hcopied.short
    noNul := hcopied.noNul
    others := fun name hprefix hother hthere => by
      refine hcopied.others name hprefix hother ((hsame ?_).mp hthere)
      intro hover
      have hplace := hover.eq_of_length (by simp [copyPlace])
      exact hother (List.mem_singleton.mpr (List.singleton_inj.mp (List.append_inj' hplace rfl).2).symm) }

/-- A copy that could not be made leaves no directory, as long as the program does not break off. -/
theorem clone_spec {r : Except Failure Path} (hh : h.files.Housed h.cwd) (hpaved : h.files.Paved h.cwd)
    (hlink : ∀ place ∈ [h.cwd ++ [directoryName], copyPlace h (copyName h.nanos)], ∀ target,
      h.files.at? place ≠ some (.link target))
    (hfault : ∀ fault, h.git.copy = .error fault → fault.isRunFault = true)
    (hrun : (clone url none).on h = (r, after)) :
    (∃ f, r = .error f ∧ NoMore [] h after) ∨ (r = .ok (pathOf (copyPlace h (copyName h.nanos))) ∧ Copied h after) := by
  have hcloned := cloned url h
  rw [hrun] at hcloned
  cases hcloned with
  | refused hensured =>
    refine .inl ⟨_, rfl, fun name hprefix _ hthere => ?_⟩
    by_contra hbefore
    cases hnul : hasNul (pathOf (copyPlace h (copyName h.nanos))) with
    | true =>
      have hstopped : (ensureDirectories (pathOf (copyPlace h (copyName h.nanos)))).on (clocked h) =
          (.error .nulInPath, clocked h) := makeDirectories_of_nul hnul _
      cases hstopped.symm.trans hensured
      exact hbefore hthere
    | false =>
      obtain ⟨hextends, hleads⟩ := makeDirectories_spec (h := clocked h) hh hensured
      cases (hleads hnul).mpr (name_of_extends hextends hprefix hbefore hthere hpaved).2
  | @failed _ _ _ f _ hensured hnotes hanswer hrunFault hcleaned =>
    obtain ⟨_, _, hcopied, _⟩ := ready_of_ensured hh hpaved hlink hensured
    refine .inl ⟨f, rfl, fun name hprefix _ hthere => ?_⟩
    have hremoved := @Copied.removed h _ _ [] hcopied (.of_noted hnotes)
    rw [hcleaned] at hremoved
    by_cases hname : name = copyName h.nanos
    · rw [hname] at hthere
      exact absurd hthere hremoved
    · rw [← hcleaned] at hthere
      exact (hcopied.noted hnotes).others name hprefix (fun hmem => hname (List.mem_singleton.mp hmem))
        (directoryAt_of_cleanup hthere)
  | broken hensured hnotes hanswer hrunFault =>
    obtain ⟨hgit, _⟩ := ready_of_ensured hh hpaved hlink hensured
    rw [hnotes.git, hgit] at hanswer
    cases hrunFault.symm.trans (hfault _ hanswer)
  | copied hensured hnotes hanswer hplanted =>
    obtain ⟨_, _, hcopied, hcopy⟩ := ready_of_ensured hh hpaved hlink hensured
    exact .inr ⟨rfl, ((hcopied.noted hnotes).planted (hcopy.mono hnotes.files.directoryAt_iff.mpr) _).noted hplanted⟩

end ClassAtlas.Checkout
