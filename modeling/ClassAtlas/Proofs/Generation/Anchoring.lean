import ClassAtlas.Proofs.Files.Resolving
import ClassAtlas.Proofs.Generation.Precedence
import ClassAtlas.Proofs.Settings.Loading
/-!
# Where settings are anchored

The root of settings is the directory that their file really stands in. That is the directory that was asked for when
there is a file in it or none. A link takes the root, and a relative output with it, to where the link leads.
-/
namespace ClassAtlas

open ClassAtlas.Action
open Settings (nonEmpty Layer)

variable {h next : Host} {p q : Path} {d f place : Location} {locked : Bool} {l : Layer} {s : Settings}

/-! ## Directories -/

namespace FileTree

variable {t : FileTree} {cwd : Location}

/-- The path of a directory is resolved to itself. -/
theorem Paved.resolve_eq (h : t.Paved place) (cwd : Location) : t.resolve cwd (pathOf place) = place := by
  refine resolve_of_noLinks cwd (fun hdots => (h.named _ hdots).1 rfl) fun above habove target hlink => ?_
  obtain ⟨locked, hdirectory⟩ := h.directories habove
  cases hdirectory.symm.trans hlink

theorem Paved.lookup_ne_linkLoop (h : t.Paved place) (cwd : Location) :
    t.lookup cwd true (pathOf place) ≠ .error .linkLoop := by
  intro hloop
  by_cases hshort : (Path.toString ⟨.root, place⟩).utf8ByteSize > maxPathBytes
  · have hlong : t.locate cwd true (pathOf place) = .error .nameTooLong := if_pos hshort
    cases (lookup_of_error hlong).symm.trans hloop
  · obtain ⟨locked, hfound⟩ := h.lookup hshort cwd true
    cases hfound.symm.trans hloop

end FileTree

/-! ## Settings of a directory -/

namespace Settings

/-- Where the settings of a directory stand, or would stand: there is no file for them, or one in the directory, or a
link there leads to one. -/
inductive SettledAt (t : FileTree) (d : Location) : Location → Prop
  | absent (nothing : t.at? (d ++ [settingsFile]) = none) : SettledAt t d (d ++ [settingsFile])
  | file {bytes : List UInt8} (stands : t.at? (d ++ [settingsFile]) = some (.file bytes)) :
      SettledAt t d (d ++ [settingsFile])
  | link {target : String} {f : Location} {bytes : List UInt8}
      (linked : t.at? (d ++ [settingsFile]) = some (.link target))
      (leads : t.walk true FileTree.maxLinks d [settingsFile] = .ok f) (stands : t.at? f = some (.file bytes)) :
      SettledAt t d f

/-- The settings are those of the directory: it is their root, and a relative output lies below it. -/
structure Anchored (s : Settings) (l : Layer) (d : Location) : Prop where
  root : s.root = pathOf d
  output : ∀ o, nonEmpty l.output = some o → (Path.ofString o).isAbsolute = false →
    s.output = some ⟨.root, d ++ (Path.ofString o).parts⟩

theorem SettledAt.exists_leads {t : FileTree} (h : SettledAt t d f) : ∃ n, t.Leads d [settingsFile] n f := by
  cases h with
  | absent nothing => exact ⟨0, .name (by decide) (fun target hlink => by cases nothing.symm.trans hlink) (.here _)⟩
  | file stands => exact ⟨0, .name (by decide) (fun target hlink => by cases stands.symm.trans hlink) (.here _)⟩
  | link _ leads _ => exact FileTree.exists_leads_of_walk _ _ _ leads

theorem SettledAt.directoryAt {t : FileTree} (h : SettledAt t d f) (ht : t.WellFormed) (hd : t.DirectoryAt d) :
    t.DirectoryAt f.dropLast := by
  cases h with
  | absent _ => rwa [List.dropLast_concat]
  | file _ => rwa [List.dropLast_concat]
  | link _ _ stands =>
    rcases List.eq_nil_or_concat' f with rfl | ⟨above, name, rfl⟩
    · cases stands
    · rw [List.dropLast_concat]
      exact (ht.parent stands).2

/-- The settings file of a directory is resolved to where it really stands. -/
theorem resolve_settingsFile (hs : h.Sound) (hfound : h.files.lookup h.cwd true q = .ok (d, .directory locked))
    (hsettled : SettledAt h.files d f) : h.files.resolve h.cwd (q.child settingsFile) = f := by
  obtain ⟨n, hleads⟩ := FileTree.exists_leads_of_lookup hfound
  obtain ⟨m, hmore⟩ := hsettled.exists_leads
  exact FileTree.resolve_of_leads hs.dots_notMem_cwd (hleads.append hmore)

/-- The root of settings is the directory that their file really stands in. -/
theorem root_of_load (hs : h.Sound) (hexpanded : (expandHome p).on h = (.ok q, h))
    (hfound : (lookup q true).on h = (.ok (.ok (d, .directory locked)), h)) (hsettled : SettledAt h.files d f)
    (hload : (load p).on h = (.ok s, next)) : ∃ l, Says h p l ∧ s.Follows l ∧ s.root = pathOf f.dropLast := by
  obtain ⟨hnul, hfound⟩ := found_of_lookup hfound
  obtain ⟨l, file, hsays, hfollows, hfile, hroot⟩ := load_of_ok hload
  obtain ⟨_, hplaced⟩ := on_filePath_of_directory hexpanded (on_probe_of_found hnul hfound Node.isDirectory)
  have hfile : file = pathOf f := by
    rw [eq_pathOf_of_resolve (hplaced.symm.trans hfile), resolve_settingsFile hs hfound hsettled]
  have habove := hsettled.directoryAt hs.wellFormed ⟨locked, (FileTree.locate_of_lookup hfound).2⟩
  refine ⟨l, hsays, hfollows, ?_⟩
  have hresolved : h.files.resolve h.cwd file.parent = f.dropLast := by
    rw [hfile]
    exact (hs.wellFormed.paved habove).resolve_eq h.cwd
  rw [eq_pathOf_of_resolve hroot, hresolved]

/-- The settings that a file gives, by the directory that it really stands in. -/
theorem on_load_of_file {bytes : List UInt8} {text : List Char} (hs : h.Sound)
    (hexpanded : (expandHome p).on h = (.ok q, h))
    (hfound : (lookup q true).on h = (.ok (.ok (d, .directory locked)), h)) (hsettled : SettledAt h.files d f)
    (hfile : h.files.lookup h.cwd true (pathOf f) = .ok (f, .file bytes)) (htext : Utf8.decode bytes = .ok text) :
    (load p).on h = (ofText (pathOf f).name (pathOf f.dropLast) (Text.unifyLineEnds text), h) := by
  obtain ⟨hnul, hfound⟩ := found_of_lookup hfound
  obtain ⟨hchild, hplaced⟩ := on_filePath_of_directory hexpanded (on_probe_of_found hnul hfound Node.isDirectory)
  have habove := hs.wellFormed.paved
    (hsettled.directoryAt hs.wellFormed ⟨locked, (FileTree.locate_of_lookup hfound).2⟩)
  have hend : h.files.lookup h.cwd true (pathOf f) ≠ .error .linkLoop := by
    rw [hfile]
    exact fun hloop => by cases hloop
  have hplaced := hplaced.trans (on_resolve hchild (resolve_settingsFile hs hfound hsettled) hend)
  have hnul' : hasNul (pathOf f) = false := Action.hasNul_pathOf hs.wellFormed (FileTree.locate_of_lookup hfile).2
  have hroot := on_resolve (hasNul_parent hnul') (habove.resolve_eq h.cwd) (habove.lookup_ne_linkLoop h.cwd)
  have hexists := on_probe_of_found hnul' hfile fun _ => true
  have hbytes : (readBytes (pathOf f)).on h = (.ok bytes, h) := by rw [Generation.on_readBytes hnul', hfile]
  have hread : (readText (pathOf f)).on h = (.ok (Text.unifyLineEnds text), h) := by
    rw [readText, on_bind_of_ok (on_attempt _ h), hbytes]
    simp only [htext]
    rfl
  rw [load, on_bind_of_ok hplaced, on_bind_of_ok hroot, pathExists, on_bind_of_ok hexists]
  show (readText _ >>= _).on h = _
  rw [on_bind_of_ok hread]
  rfl

theorem output_of_relative {o : String} (hfollows : s.Follows l) (hroot : s.root = pathOf place)
    (ho : nonEmpty l.output = some o) (hrelative : (Path.ofString o).isAbsolute = false) :
    s.output = some ⟨.root, place ++ (Path.ofString o).parts⟩ := by
  rw [hfollows.output, ho, hroot, Option.map_some, Path.join, hrelative]
  rfl

theorem anchored_iff_of_root (hfollows : s.Follows l) (hroot : s.root = pathOf f.dropLast) :
    Anchored s l d ↔ f.dropLast = d := by
  constructor
  · intro hanchored
    exact congrArg Path.parts (hroot.symm.trans hanchored.root)
  · rintro rfl
    exact ⟨hroot, fun o ho hrelative => output_of_relative hfollows hroot ho hrelative⟩

end Settings

/-! ## A run in a directory -/

namespace Generation

/-- The run has written its snapshot at the path, and nothing else but notes has been written. -/
def WritesAt (h after : Host) (w : Written) (target : Path) : Prop :=
  w.output = target ∧ ∃ composed left, h.Noted composed ∧ (w.snapshot.write target).on composed = (.ok target, left) ∧
    left.Noted after

/-- The root of a run is the place that its path really leads to, and it is found there. -/
theorem found_of_rootOf {root : Path} (hexpanded : (expandHome p).on h = (.ok q, h))
    (hresolved : (resolve q).on h = (.ok (pathOf d), h)) (hd : h.files.Paved d)
    (hrun : (rootOf p).on h = (.ok root, next)) : root = pathOf d ∧
      ∃ locked, (lookup (pathOf d) true).on h = (.ok (.ok (d, .directory locked)), h) := by
  rw [rootOf, on_bind_of_ok hexpanded, on_bind_of_ok hresolved] at hrun
  obtain ⟨found, hexists, hrun⟩ := (asks_probe _ _ _).bind_eq_ok hrun
  cases found with
  | false => cases hrun
  | true =>
    obtain ⟨hnul, _, _, hfound, _⟩ := found_of_probe hexists
    obtain ⟨locked, hdirectory⟩ := hd.lookup (FileTree.short_of_lookup hfound) h.cwd true
    cases hrun
    exact ⟨rfl, locked, by rw [on_lookup hnul true h, ← hdirectory]; rfl⟩

/-- The settings of a directory are anchored in it exactly when their file really stands in it, or would stand there.
Then, and only then, a run writes below the directory where the settings give a relative output. -/
theorem anchored_iff (hs : h.Sound) (hexpanded : (expandHome p).on h = (.ok q, h))
    (hfound : (lookup q true).on h = (.ok (.ok (d, .directory locked)), h))
    (hsettled : Settings.SettledAt h.files d f) :
    (resolve q).on h = (.ok (pathOf d), h) ∧
    (∀ s next, (Settings.load p).on h = (.ok s, next) →
      ∃ l, Settings.Says h p l ∧ (Settings.Anchored s l d ↔ f.dropLast = d)) ∧
    ∀ ids r w after, Path.ofString r.path = p → (run ids r none).on h = (.ok w, after) →
      ∃ l, Settings.Says h (pathOf d) l ∧ ∀ o, nonEmpty l.output = some o → (Path.ofString o).isAbsolute = false →
        (WritesAt h after w ⟨.root, d ++ (Path.ofString o).parts⟩ ↔ f.dropLast = d) := by
  obtain ⟨hnul, hnode⟩ := found_of_lookup hfound
  have hpaved := hs.wellFormed.paved ⟨locked, (FileTree.locate_of_lookup hnode).2⟩
  have hresolved : (resolve q).on h = (.ok (pathOf d), h) := by
    obtain ⟨n, hleads⟩ := FileTree.exists_leads_of_lookup hnode
    exact on_resolve hnul (FileTree.resolve_of_leads hs.dots_notMem_cwd hleads) (hpaved.lookup_ne_linkLoop h.cwd)
  refine ⟨hresolved, fun s next hload => ?_, fun ids r w after hpath hrun => ?_⟩
  · obtain ⟨l, hsays, hfollows, hroot⟩ := Settings.root_of_load hs hexpanded hfound hsettled hload
    exact ⟨l, hsays, Settings.anchored_iff_of_root hfollows hroot⟩
  · obtain ⟨root, s, g, composed, left, hroot, hload, hgenerated, hplaced, hw, hwrite, hlast⟩ := steps_of_run hrun
    rw [hpath] at hroot
    obtain ⟨rfl, _, hfound'⟩ := found_of_rootOf hexpanded hresolved hpaved hroot
    obtain ⟨l, hsays, hfollows, hbase⟩ := Settings.root_of_load hs rfl hfound' hsettled hload
    refine ⟨l, hsays, fun o ho hrelative => ?_⟩
    have houtput : w.output = ⟨.root, f.dropLast ++ (Path.ofString o).parts⟩ := by
      unfold outputPath at hplaced
      rw [Settings.output_of_relative hfollows hbase ho hrelative] at hplaced
      exact (Except.ok.inj (Prod.mk.inj hplaced).1).symm
    constructor
    · rintro ⟨htarget, -⟩
      exact List.append_cancel_right (congrArg Path.parts (houtput.symm.trans htarget))
    · rintro rfl
      rw [houtput] at hwrite
      exact ⟨houtput, composed, left, (notes_ofSettings _ _ _ _).of_eq hgenerated, hwrite, hlast⟩

/-! ## Settings in the directory and behind a link -/

open Settings (settingsTree wellFormed_settingsTree sound_settingsTree)

/-- Settings that say where the output goes. -/
def outputText : List Char := "output: out.json\n".toList

theorem on_lookup_repo {t : FileTree} (ht : t.WellFormed) (hrepo : t.at? ["repo"] = some (.directory false)) :
    (lookup (pathOf ["repo"]) true).on (.holding t) = (.ok (.ok (["repo"], .directory false)), .holding t) := by
  have hfound : t.lookup [] true (pathOf ["repo"]) = .ok (["repo"], .directory false) :=
    lookup_pathOf ht hrepo rfl (by decide) [] true
  rw [on_lookup (by decide), ← hfound]
  rfl

theorem anchored_iff_settingsTree : ∃ s next l,
    (Settings.load (pathOf ["repo"])).on (.holding (settingsTree outputText)) = (.ok s, next) ∧
      Settings.Says (.holding (settingsTree outputText)) (pathOf ["repo"]) l ∧ Settings.Anchored s l ["repo"] ∧
        s.output = some (pathOf ["repo", "out.json"]) := by
  have hs := sound_settingsTree outputText
  have hfound := on_lookup_repo (wellFormed_settingsTree outputText) rfl
  have hsettled : Settings.SettledAt (settingsTree outputText) ["repo"] ["repo", settingsFile] := .file rfl
  have hfile : (settingsTree outputText).lookup [] true (pathOf ["repo", settingsFile]) =
      .ok (["repo", settingsFile], .file (Utf8.encode outputText)) :=
    lookup_pathOf (wellFormed_settingsTree outputText) rfl rfl (by decide) [] true
  have hload := Settings.on_load_of_file (p := pathOf ["repo"]) hs rfl hfound hsettled hfile
    (Utf8.decode_encode outputText)
  have hgiven : (Settings.ofText settingsFile (pathOf ["repo"]) (Text.unifyLineEnds outputText)).toOption.map (·.output) =
      some (some (pathOf ["repo", "out.json"])) := by decide +kernel
  obtain ⟨s, hs', houtput⟩ := map_toOption_eq_some_iff.mp hgiven
  have hloaded := hload.trans (congrArg (Prod.mk · _) hs')
  obtain ⟨l, hsays, hanchored⟩ := (anchored_iff (p := pathOf ["repo"]) hs rfl hfound hsettled).2.1 s _ hloaded
  exact ⟨s, _, l, hloaded, hsays, hanchored.mpr rfl, houtput⟩

/-- The settings of the project are a link to those that it shares with others. -/
def sharedTree : FileTree where
  nodes := [(["repo"], .directory false), (["repo", settingsFile], .link "../shared/umlgen.yml"),
    (["shared"], .directory false), (["shared", "umlgen.yml"], .file (Utf8.encode outputText))]

theorem wellFormed_sharedTree : sharedTree.WellFormed := by decide +kernel

theorem sound_sharedTree : (Host.holding sharedTree).Sound where
  wellFormed := wellFormed_sharedTree
  clean := by
    refine clean_holding fun place target hlink => ?_
    obtain ⟨-, rfl⟩ : place = ["repo", settingsFile] ∧ target = "../shared/umlgen.yml" := by
      simpa [sharedTree] using hlink
    decide

theorem settledAt_sharedTree : Settings.SettledAt sharedTree ["repo"] ["shared", "umlgen.yml"] := by
  have hlink : sharedTree.at? ["repo", settingsFile] = some (.link "../shared/umlgen.yml") := rfl
  refine .link hlink ?_ rfl
  have htarget : Path.ofString "../shared/umlgen.yml" = ⟨.here, ["..", "shared", "umlgen.yml"]⟩ := by decide
  rw [FileTree.walk_step (by decide) (by decide)]
  show sharedTree.walk true 39 (if (Path.ofString "../shared/umlgen.yml").isAbsolute then [] else ["repo"])
    ((Path.ofString "../shared/umlgen.yml").parts ++ []) = _
  rw [htarget]
  show sharedTree.walk true 39 ["repo"] ["..", "shared", "umlgen.yml"] = _
  rw [FileTree.walk_dots, FileTree.walk_step (by decide) (by decide)]
  show sharedTree.walk true 39 ["shared"] ["umlgen.yml"] = _
  rw [FileTree.walk_step (by decide) (by decide)]
  rfl

/-- The settings are anchored in the shared directory, and so is the output. -/
theorem anchored_behind_link : ∃ s next,
    (Settings.load (pathOf ["repo"])).on (.holding sharedTree) = (.ok s, next) ∧
      (resolve (pathOf ["repo"])).on (.holding sharedTree) = (.ok (pathOf ["repo"]), .holding sharedTree) ∧
        s.root = pathOf ["shared"] ∧ s.output = some (pathOf ["shared", "out.json"]) := by
  have hfound := on_lookup_repo wellFormed_sharedTree rfl
  have hfile : sharedTree.lookup [] true (pathOf ["shared", "umlgen.yml"]) =
      .ok (["shared", "umlgen.yml"], .file (Utf8.encode outputText)) :=
    lookup_pathOf wellFormed_sharedTree rfl rfl (by decide) [] true
  have hload := Settings.on_load_of_file (p := pathOf ["repo"]) sound_sharedTree rfl hfound settledAt_sharedTree hfile
    (Utf8.decode_encode outputText)
  have hgiven : (Settings.ofText "umlgen.yml" (pathOf ["shared"]) (Text.unifyLineEnds outputText)).toOption.map
      (fun s => (s.root, s.output)) = some (pathOf ["shared"], some (pathOf ["shared", "out.json"])) := by
    decide +kernel
  obtain ⟨s, hs, hboth⟩ := map_toOption_eq_some_iff.mp hgiven
  obtain ⟨hroot, houtput⟩ := Prod.mk.inj hboth
  have hpaved : sharedTree.Paved ["repo"] := wellFormed_sharedTree.paved ⟨false, rfl⟩
  have hresolved : (resolve (pathOf ["repo"])).on (.holding sharedTree) = (.ok (pathOf ["repo"]), .holding sharedTree) :=
    on_resolve (by decide) (hpaved.resolve_eq []) (hpaved.lookup_ne_linkLoop [])
  exact ⟨s, _, hload.trans (congrArg (Prod.mk · _) hs), hresolved, hroot, houtput⟩

end Generation
end ClassAtlas
