import ClassAtlas.Proofs.Files.Reach
import ClassAtlas.Proofs.Host.Files
/-!
# Writing and replacing files

A file that is written is where its path leads, and nothing else in the tree changes. A file that replaces
another one is moved to where the other's path leads; the last names of both paths are not followed.
-/
namespace ClassAtlas.Action

variable {h h' : Host} {p source target : Path} {place : Location}

theorem on_place {α : Type} (p : Path) (follow : Bool) (f : Location → Action α) (h : Host) :
    (locate p follow >>= fun found => ofErrno p found >>= f).on h =
      if hasNul p then (.error .nulInPath, h)
      else match h.files.locate h.cwd follow p with
        | .error errno => (.error (.file (.system errno (.path p.toString))), h)
        | .ok place => (f place).on h := by
  cases hnul : hasNul p with
  | true =>
    rw [locate, refuseNul, hnul]
    rfl
  | false =>
    have hlocate : (locate p follow).on h = (.ok (h.files.locate h.cwd follow p), h) := by
      rw [locate, on_bind_of_ok (on_refuseNul hnul h)]
      rfl
    rw [on_bind_of_ok hlocate]
    cases h.files.locate h.cwd follow p with
    | error errno => rfl
    | ok place => rfl

theorem place_of_ok {α : Type} {follow : Bool} {f : Location → Action α} {v : α}
    (hrun : (locate p follow >>= fun found => ofErrno p found >>= f).on h = (.ok v, h')) :
    ∃ place, h.files.locate h.cwd follow p = .ok place ∧ (f place).on h = (.ok v, h') := by
  rw [on_place] at hrun
  split at hrun
  case isTrue => cases hrun
  case isFalse =>
    cases hplace : h.files.locate h.cwd follow p with
    | error errno =>
      rw [hplace] at hrun
      cases hrun
    | ok place =>
      rw [hplace] at hrun
      exact ⟨place, rfl, hrun⟩

/-- What holds with one more empty file where nothing stood, opening one keeps. -/
theorem keeps_openPlace {P : Host → Prop} (hput : ∀ {h place}, P h → hasNul p = false →
      h.files.locate h.cwd true p = .ok place → h.files.at? place = none →
      P { h with files := h.files.put place (.file []) }) : Keeps P (openPlace p) := by
  intro h hh
  rw [openPlace, on_place]
  cases hnul : hasNul p with
  | true => exact hh
  | false =>
    simp only [Bool.false_eq_true, if_false]
    cases hplace : h.files.locate h.cwd true p with
    | error errno => exact hh
    | ok place =>
      dsimp only
      rw [on_bind_of_ok (on_get h)]
      split
      case h_4 hnone => exact hput hh hnul hplace hnone
      all_goals exact hh

/-- Where a file was opened there is one. -/
theorem file_of_openPlace (hrun : (openPlace p).on h = (.ok place, h')) :
    ∃ bytes, h'.files.at? place = some (.file bytes) := by
  obtain ⟨found, hfound, hrun⟩ := place_of_ok hrun
  rw [on_bind_of_ok (on_get h)] at hrun
  split at hrun
  case h_2 bytes hfile =>
    cases hrun
    exact ⟨bytes, hfile⟩
  case h_4 hnone =>
    cases hrun
    have hne : place ≠ [] := by
      rintro rfl
      cases hnone
    exact ⟨[], FileTree.at?_put_self hne⟩
  all_goals cases hrun

/-- A directory that is there is not made again. -/
theorem on_ensureDirectory {there : Location} {node : Node} {locked : Bool} (hnul : hasNul p = false)
    (hself : h.files.lookup h.cwd false p = .ok (there, node))
    (hfound : h.files.lookup h.cwd true p = .ok (place, .directory locked)) :
    (ensureDirectory p).on h = (.ok (), h) := by
  obtain ⟨hthere, hnode⟩ := FileTree.locate_of_lookup hself
  let refused : Failure := .file (.system .fileExists (.path p.toString))
  have hrefused : (makeDirectory p).on h = (.error refused, h) := by
    rw [makeDirectory, on_place, hnul, hthere]
    simp only [Bool.false_eq_true, if_false]
    rw [on_bind_of_ok (on_get h), hnode]
    rfl
  have hattempt : (attempt (makeDirectory p)).on h = (.ok (.error refused), h) := by rw [on_attempt, hrefused]
  have hdirectory : (isDirectory p).on h = (.ok true, h) := on_probe_of_found hnul hfound Node.isDirectory
  rw [ensureDirectory, on_bind_of_ok hattempt]
  show (isDirectory p >>= fun found => if found = true then pure () else throw refused).on h = _
  rw [on_bind_of_ok hdirectory]
  rfl

theorem on_ensureDirectories {there : Location} {node : Node} {locked : Bool} (hnul : hasNul p = false)
    (hself : h.files.lookup h.cwd false p = .ok (there, node))
    (hfound : h.files.lookup h.cwd true p = .ok (place, .directory locked)) :
    (ensureDirectories p).on h = (.ok (), h) := by
  have hattempt : (attempt (ensureDirectory p)).on h = (.ok (.ok ()), h) := by
    rw [on_attempt, on_ensureDirectory hnul hself hfound]
  rw [ensureDirectories, makeDirectories, on_bind_of_ok hattempt]
  rfl

/-- The path of a file in the root directory is resolved already. -/
theorem on_resolve_file {name : String} {bytes : List UInt8} (hname : FileTree.IsName name)
    (hshort : (pathOf [name]).toString.utf8ByteSize ≤ FileTree.maxPathBytes)
    (hfile : h.files.at? [name] = some (.file bytes)) : (resolve (pathOf [name])).on h = (.ok (pathOf [name]), h) := by
  have hnul : hasNul (pathOf [name]) = false := by
    simpa [hasNul, pathOf] using hname.noNul
  have hlinks : ∀ place, place <+: [name] → ∀ target, h.files.at? place ≠ some (.link target) := by
    intro place hplace target hlink
    rcases List.prefix_cons_iff.mp hplace with rfl | ⟨rest, rfl, hrest⟩
    · cases hlink
    · rw [List.prefix_nil.mp hrest, hfile] at hlink
      cases hlink
  have hlocate : h.files.locate h.cwd true (pathOf [name]) = .ok [name] := by
    rw [FileTree.locate, if_neg (Nat.not_lt.mpr hshort)]
    exact FileTree.walk_last hname.notDots (Nat.not_lt.mpr hname.short) fun _ => hlinks [name] List.prefix_rfl
  refine on_resolve hnul (FileTree.resolve_of_noLinks h.cwd ?_ hlinks) ?_
  · simpa using hname.notDots.symm
  · rw [FileTree.lookup_of_node hlocate hfile]
    exact fun hloop => by cases hloop

/-- The file at the place has the bytes, and all else is as before. -/
structure Wrote (h h' : Host) (place : Location) (bytes : List UInt8) : Prop where
  free : h.files.Free place
  written : h'.files.at? place = some (.file bytes)
  others : ∀ q, q ≠ place → h'.files.at? q = h.files.at? q
  cwd : h'.cwd = h.cwd
  logging : h'.logging = h.logging

/-- What stands on the way to a last name is no file, so that writing a file leaves the way as it was. -/
theorem Wrote.lastIn {bytes : List UInt8} {name : String} {k : Nat} {here : Location} (hwrote : Wrote h h' place bytes)
    (hlast : h.files.LastIn h.cwd p name k here) : h'.files.LastIn h'.cwd p name k here := by
  rw [hwrote.cwd]
  refine hlast.congr fun q hq => congrArg (Option.map _) (hwrote.others q ?_)
  rintro rfl
  exact hlast.not_mem_trail hwrote.free hq

theorem writeBytes_eq {bytes : List UInt8} (hrun : (writeBytes p bytes).on h = (.ok (), h')) :
    ∃ place, h.files.locate h.cwd true p = .ok place ∧ h.files.Free place ∧
      h' = { h with files := h.files.put place (.file bytes) } := by
  obtain ⟨place, opened, hopen, hrun⟩ := bind_eq_ok hrun
  obtain ⟨there, hplace, hopen⟩ := place_of_ok hopen
  rw [on_bind_of_ok (on_get h)] at hopen
  cases hrun
  cases hnode : h.files.at? there with
  | none =>
    rw [hnode] at hopen
    cases hopen
    refine ⟨place, hplace, .inl hnode, ?_⟩
    simp only [FileTree.put_put]
  | some node =>
    rw [hnode] at hopen
    cases node with
    | file old =>
      cases hopen
      exact ⟨place, hplace, .inr ⟨old, hnode⟩, rfl⟩
    | directory locked => cases hopen
    | link other => cases hopen
    | socket => cases hopen

theorem writeBytes_of_ok {bytes : List UInt8} (hrun : (writeBytes p bytes).on h = (.ok (), h')) :
    ∃ place, h.files.locate h.cwd true p = .ok place ∧ Wrote h h' place bytes := by
  obtain ⟨place, hplace, hfree, rfl⟩ := writeBytes_eq hrun
  have hne : place ≠ [] := by
    rintro rfl
    rcases hfree with hnone | ⟨old, hfile⟩
    · cases hnone
    · cases hfile
  exact ⟨place, hplace, hfree, FileTree.at?_put_self hne, fun q hq => FileTree.at?_put_of_ne hq, rfl, rfl⟩

theorem writeBytes_returns {bytes : List UInt8} (hnul : hasNul p = false)
    (hplace : h.files.locate h.cwd true p = .ok place)
    (hfree : h.files.Free place) : (writeBytes p bytes).Returns h := by
  refine Returns.bind ?_ fun _ next _ => ⟨_, _, rfl⟩
  rw [Returns, openPlace, on_place, hnul, hplace]
  simp only [Bool.false_eq_true, if_false]
  rw [on_bind_of_ok (on_get h)]
  rcases hfree with hnone | ⟨old, hfile⟩
  · rw [hnone]
    exact ⟨_, _, rfl⟩
  · rw [hfile]
    exact ⟨_, _, rfl⟩

/-- A node has been moved from one place to another. What is logged to there was logged to it before. -/
structure Moved (h h' : Host) (src dst : Location) (node : Node) : Prop where
  node : h'.files.at? dst = some node
  others : ∀ q, q ≠ src → q ≠ dst → h'.files.at? q = h.files.at? q
  cwd : h'.cwd = h.cwd
  logging : ∀ level q, Sink.file level (some q) ∈ h'.logging.sinks →
    Sink.file level (some (if q = dst then src else q)) ∈ h.logging.sinks

theorem sink_of_move {l : Logging} {src dst q : Location} {level : Int}
    (hsink : Sink.file level (some q) ∈ (l.move src dst).sinks) :
    Sink.file level (some (if q = dst then src else q)) ∈ l.sinks := by
  obtain ⟨sink, hmem, hmoved⟩ := List.mem_map.mp hsink
  cases sink with
  | console n => cases hmoved
  | file n place =>
    cases place with
    | none => cases hmoved
    | some place =>
      by_cases hsrc : place = src
      · simp only [Option.bind_some, if_pos hsrc] at hmoved
        cases hmoved
        rw [if_pos rfl, ← hsrc]
        exact hmem
      · by_cases hdst : place = dst
        · simp only [Option.bind_some, if_neg hsrc, if_pos hdst] at hmoved
          cases hmoved
        · simp only [Option.bind_some, if_neg hsrc, if_neg hdst] at hmoved
          cases hmoved
          rw [if_neg hdst]
          exact hmem

/-- A log file that is neither moved nor replaced goes on to take what it took. -/
theorem sinksFor_move {l : Logging} {src dst : Location} {level n : Int}
    (htaken : l.sinksFor level = [.file n (some place)]) (hsrc : place ≠ src) (hdst : place ≠ dst) :
    (l.move src dst).sinksFor level = [.file n (some place)] := by
  unfold Logging.sinksFor at htaken ⊢
  split at htaken
  case isTrue => cases htaken
  case isFalse hlevel =>
    have hthreshold : (l.move src dst).threshold = l.threshold := rfl
    rw [hthreshold, if_neg hlevel, Logging.move, Logging.mapPlaces, List.filter_map]
    refine (congrArg (List.map _) ((List.filter_congr fun s _ => ?_).trans htaken)).trans ?_
    · cases s <;> rfl
    · simp [hsrc, hdst]

theorem replaceFile_eq (hrun : (replaceFile source target).on h = (.ok (), h')) :
    ∃ src dst node, h.files.locate h.cwd false source = .ok src ∧ h.files.locate h.cwd false target = .ok dst ∧
      target.name ≠ ".." ∧ h.files.at? src = some node ∧ (h.files.at? dst).any Node.isDirectory = false ∧
      h' = if src = dst then h
        else { h with files := (h.files.erase src).put dst node, logging := h.logging.move src dst } := by
  obtain ⟨_, _, hrun⟩ := (asks_refuseNul source).bind_eq_ok hrun
  obtain ⟨_, _, hrun⟩ := (asks_refuseNul target).bind_eq_ok hrun
  rw [on_bind_of_ok (on_get h)] at hrun
  cases hsrc : h.files.locate h.cwd false source with
  | error errno =>
    rw [hsrc] at hrun
    cases hrun
  | ok src =>
    cases hdst : h.files.locate h.cwd false target with
    | error errno =>
      rw [hsrc, hdst] at hrun
      cases hrun
    | ok dst =>
      rw [hsrc, hdst] at hrun
      dsimp only at hrun
      split at hrun
      case isTrue => cases hrun
      case isFalse hnames =>
        have hname : target.name ≠ ".." := fun hdots => hnames (.inl hdots)
        cases hnode : h.files.at? src with
        | none =>
          rw [hnode] at hrun
          cases hrun
        | some node =>
          rw [hnode] at hrun
          dsimp only at hrun
          split at hrun
          case isTrue =>
            split at hrun <;> cases hrun
          case isFalse =>
            split at hrun
            case isTrue => cases hrun
            case isFalse hplain =>
              refine ⟨src, dst, node, rfl, rfl, hname, hnode, by simpa using hplain, ?_⟩
              split at hrun
              case isTrue hsame =>
                cases hrun
                rw [if_pos hsame]
              case isFalse hapart =>
                cases hrun
                rw [if_neg hapart]

theorem replaceFile_of_ok (hrun : (replaceFile source target).on h = (.ok (), h')) :
    ∃ src dst node, h.files.locate h.cwd false source = .ok src ∧ h.files.locate h.cwd false target = .ok dst ∧
      target.name ≠ ".." ∧ h.files.at? src = some node ∧ (src ≠ dst → Moved h h' src dst node) := by
  obtain ⟨src, dst, node, hsrc, hdst, hname, hnode, hplain, rfl⟩ := replaceFile_eq hrun
  have hne : dst ≠ [] := by
    rintro rfl
    cases hplain
  refine ⟨src, dst, node, hsrc, hdst, hname, hnode, fun hapart => ?_⟩
  rw [if_neg hapart]
  refine ⟨FileTree.at?_put_self hne, fun q hsrc hdst => ?_, rfl, fun level q hsink => sink_of_move hsink⟩
  exact (FileTree.at?_put_of_ne hdst).trans (FileTree.at?_erase_of_ne hsrc)

/-- Nothing is left where a file was moved from. -/
theorem gone_of_replaceFile {src dst : Location} (hrun : (replaceFile source target).on h = (.ok (), h'))
    (hsrc : h.files.locate h.cwd false source = .ok src) (hdst : h.files.locate h.cwd false target = .ok dst)
    (hapart : src ≠ dst) (hne : src ≠ []) : h'.files.at? src = none := by
  obtain ⟨src', dst', node, hsrc', hdst', _, _, _, rfl⟩ := replaceFile_eq hrun
  obtain rfl := Except.ok.inj (hsrc.symm.trans hsrc')
  obtain rfl := Except.ok.inj (hdst.symm.trans hdst')
  rw [if_neg hapart]
  exact (FileTree.at?_put_of_ne hapart).trans (FileTree.at?_erase_self hne)

theorem replaceFile_returns {src dst : Location} {node : Node} (hnul : hasNul source = false)
    (hnul' : hasNul target = false) (hsrc : h.files.locate h.cwd false source = .ok src)
    (hdst : h.files.locate h.cwd false target = .ok dst)
    (hnames : ¬ (target.name = ".." ∨ target.parts = [] ∨ source.name = ".."))
    (hnode : h.files.at? src = some node) (hkind : node.isDirectory = false)
    (hplain : (h.files.at? dst).any Node.isDirectory = false) : (replaceFile source target).Returns h := by
  rw [Returns, replaceFile, on_bind_of_ok (on_refuseNul hnul h), on_bind_of_ok (on_refuseNul hnul' h),
    on_bind_of_ok (on_get h), hsrc, hdst]
  simp only [if_neg hnames, hnode, hkind, hplain, Bool.false_eq_true, if_false]
  by_cases hsame : src = dst
  · rw [if_pos hsame]
    exact ⟨_, _, rfl⟩
  · rw [if_neg hsame]
    exact ⟨_, _, rfl⟩

end ClassAtlas.Action
