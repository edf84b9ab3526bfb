import ClassAtlas.Proofs.Generation.Failing
import ClassAtlas.Proofs.Generation.Roots
import ClassAtlas.Proofs.Host.Sound
/-!
# What a run does not report

Most failures of a run are ones that it reports: the project is not there, its settings are no good, or the file
system refuses. The others have a cause in the request, in a value of the settings, in the project or in version
control.
-/
namespace ClassAtlas

open ClassAtlas.Action

variable {h h' next after : Host} {p root : Path} {f : Failure}

/-! ## Failures that are reported -/

namespace Failure

/-- A run that fails so ends with a message. -/
def isReported (f : Failure) : Bool := f.isProjectTrouble || f.isRunTrouble

theorem isReported_of_isFileTrouble (hf : f.isFileTrouble = true) : f.isReported = true := by
  rw [isReported, Bool.or_eq_true]
  refine .inr ?_
  cases f with
  | command c fault => cases fault <;> first | rfl | cases hf
  | _ => first | rfl | cases hf

theorem OfPath.nul_or_isReported (hf : f.OfPath p) : f = .nulInPath ∧ hasNul p = true ∨ f.isReported = true :=
  hf.imp_right isReported_of_isFileTrouble

end Failure

namespace Action

theorem reported_of_expandHome (hnul : hasNul p = false) (hrun : (expandHome p).on h = (.error f, next)) :
    f.isReported = true := by
  rcases expandHome_failed hrun with ⟨_, hother⟩ | rfl
  · cases hnul.symm.trans hother
  · rfl

theorem reported_of_resolve (hnul : hasNul p = false) (hrun : (resolve p).on h = (.error f, next)) :
    f.isReported = true := by
  rw [(resolve_failed hnul hrun).1]
  rfl

theorem reported_of_probe {follow : Bool} {test : Node → Bool} (hrun : (probe follow test p).on h = (.error f, next)) :
    f.isReported = true := by
  rw [probe_failed hrun]
  rfl

end Action

/-! ## Finding the project -/

theorem hasNul_ofString {text : String} (hnul : Char.ofNat 0 ∉ text.toList) : hasNul (Path.ofString text) = false :=
  hasNul_eq_false_iff.mpr fun _ hname hmem => hnul ((Path.of_mem_namesOf hname).2.2 _ hmem).1

theorem nul_not_mem_intercalate {names : List String} (hnames : ∀ name ∈ names, Char.ofNat 0 ∉ name.toList) :
    Char.ofNat 0 ∉ ("/".intercalate names).toList := by
  induction names with
  | nil => decide
  | cons first names ih =>
    obtain ⟨hfirst, hrest⟩ := List.forall_mem_cons.mp hnames
    cases names with
    | nil => simpa using hfirst
    | cons second names =>
      have hslash : Char.ofNat 0 ∉ "/".toList := by decide
      rw [String.intercalate_cons_cons, String.toList_append, String.toList_append, List.mem_append, List.mem_append]
      exact fun hmem => hmem.elim (fun hmem => hmem.elim hfirst hslash) (ih hrest)

/-- The text of a path without a null character has none either. -/
theorem hasNul_ofString_toString (hnul : hasNul p = false) : hasNul (Path.ofString p.toString) = false := by
  refine hasNul_ofString ?_
  have hanchor : Char.ofNat 0 ∉ (Path.anchorText p.anchor).toList := by cases p.anchor <;> decide
  rw [Path.toString]
  split
  · decide
  · rw [Path.bare, String.toList_append, List.mem_append]
    exact fun hmem => hmem.elim hanchor (nul_not_mem_intercalate (hasNul_eq_false_iff.mp hnul))

namespace Generation

theorem rootOf_failed {text : String} (hclean : Clean h) (hrun : (rootOf (Path.ofString text)).on h = (.error f, next)) :
    f = .nulInPath ∧ hasNul (Path.ofString text) = true ∨ f.isReported = true := by
  rcases (asks_expandHome _).bind_eq_error hrun with ⟨hexpanded, _⟩ | ⟨p, hexpanded, hrun⟩
  · exact (expandHome_failed hexpanded).imp_right fun hhome => by rw [hhome]; rfl
  have hsame := hasNul_of_expandHome hclean hexpanded
  rcases (asks_resolve p).bind_eq_error hrun with ⟨hresolved, _⟩ | ⟨root, hresolved, hrun⟩
  · cases hnul : hasNul p with
    | true =>
      rw [resolve, refuseNul, hnul] at hresolved
      cases hresolved
      exact .inl ⟨rfl, hsame.symm.trans hnul⟩
    | false => exact .inr (reported_of_resolve hnul hresolved)
  · rcases (asks_probe _ _ root).bind_eq_error hrun with ⟨hprobe, _⟩ | ⟨found, _, hrun⟩
    · exact .inr (reported_of_probe hprobe)
    · cases found <;> cases hrun
      exact .inr rfl

/-- The root of a project has no null character in it. -/
theorem hasNul_of_rootOf (hrun : (rootOf p).on h = (.ok root, next)) : hasNul root = false := by
  obtain ⟨_, _, hrun⟩ := (asks_expandHome _).bind_eq_ok hrun
  obtain ⟨place, _, hrun⟩ := (asks_resolve _).bind_eq_ok hrun
  obtain ⟨found, hfound, hrun⟩ := (asks_probe _ _ place).bind_eq_ok hrun
  cases found with
  | false => cases hrun
  | true =>
    cases hrun
    exact (found_of_probe hfound).1

end Generation

/-! ## Loading the settings -/

namespace Settings

/-- The file of the settings of a root is resolved, unless that is reported. -/
theorem filePath_cases (hclean : Clean h) (hnul : hasNul root = false) :
    (∃ f, (filePath root).on h = (.error f, h) ∧ f.isReported = true) ∨
      ∃ p, hasNul p = false ∧ (filePath root).on h = (resolve p).on h := by
  rcases hexpanded : (expandHome root).on h with ⟨f | p, next⟩
  all_goals
    have hsame := asks_expandHome root h
    rw [hexpanded] at hsame
    obtain rfl : next = h := hsame
  · exact .inl ⟨_, on_bind_of_error hexpanded _, reported_of_expandHome hnul hexpanded⟩
  have hp : hasNul p = false := (hasNul_of_expandHome hclean hexpanded).trans hnul
  have hfile : Char.ofNat 0 ∉ settingsFile.toList := by decide
  rcases hprobe : (isDirectory p).on next with ⟨f | directory, last⟩
  all_goals
    have hsame := asks_probe true Node.isDirectory p next
    rw [isDirectory] at hprobe
    rw [hprobe] at hsame
    obtain rfl : last = next := hsame
  · refine .inl ⟨f, ?_, reported_of_probe hprobe⟩
    rw [filePath, on_bind_of_ok hexpanded]
    exact on_bind_of_error hprobe _
  · refine .inr ?_
    rw [filePath, on_bind_of_ok hexpanded, isDirectory, on_bind_of_ok hprobe]
    split
    · exact ⟨_, hasNul_path_child hp hfile, rfl⟩
    · split
      · exact ⟨_, hasNul_path_child (hasNul_parent hp) hfile, rfl⟩
      · exact ⟨_, hp, rfl⟩

/-- What is untold of settings is reported, unless a value in them stands for nothing. -/
theorem Untold.isReported_or_isOfValue (hs : h.Sound) (hnul : hasNul root = false) (hu : Untold h root f) :
    f.isReported = true ∨ isOfValue f = true := by
  have hparent : ∀ {file}, (filePath root).on h = (.ok file, h) → hasNul file.parent = false := by
    intro file hfile
    rcases filePath_cases hs.clean hnul with ⟨_, hfailed, _⟩ | ⟨p, hp, hresolves⟩
    · cases hfile.symm.trans hfailed
    · obtain rfl := eq_pathOf_of_resolve (hresolves.symm.trans hfile)
      exact hasNul_parent (hasNul_of_resolve hs.wellFormed hs.clean hp)
  cases hu with
  | unplaced fails =>
    rcases filePath_cases hs.clean hnul with ⟨_, hfailed, hreported⟩ | ⟨p, hp, hresolves⟩
    · cases fails.symm.trans hfailed
      exact .inl hreported
    · exact .inl (reported_of_resolve hp (hresolves.symm.trans fails))
  | unhoused at_ fails => exact .inl (reported_of_resolve (hparent at_) fails)
  | unseen _ _ fails => exact .inl (reported_of_probe fails)
  | unvalued _ _ _ _ value => exact .inr value

end Settings

/-! ## Working on the project -/

/-- The search for files fails in ways that are reported. -/
theorem Discovery.sourceFiles_failed (hs : h.Sound) {text : String} (hnul : hasNul (Path.ofString text) = false)
    {included excluded : List String} (hrun : (sourceFiles text included excluded).on h = (.error f, next)) :
    f.isReported = true := by
  by_cases hleads : ∃ place, LeadsTo h text place
  · obtain ⟨place, hleads⟩ := hleads
    obtain ⟨last, hfound⟩ := on_sourceFiles included excluded hleads
    cases hfound.symm.trans hrun
  rcases (asks_expandHome _).bind_eq_error hrun with ⟨hexpanded, _⟩ | ⟨p, hexpanded, hrun⟩
  · exact reported_of_expandHome hnul hexpanded
  have hp : hasNul p = false := (hasNul_of_expandHome hs.clean hexpanded).trans hnul
  rcases (asks_resolve p).bind_eq_error hrun with ⟨hresolved, _⟩ | ⟨place, hresolved, hrun⟩
  · exact reported_of_resolve hp hresolved
  rcases (asks_probe _ _ place).bind_eq_error hrun with ⟨hprobe, _⟩ | ⟨found, _, hrun⟩
  · exact reported_of_probe hprobe
  cases found with
  | false =>
    cases hrun
    rfl
  | true =>
    rcases (asks_probe _ _ place).bind_eq_error hrun with ⟨hprobe, _⟩ | ⟨directory, hdirectory, hrun⟩
    · exact reported_of_probe hprobe
    cases directory with
    | false =>
      cases hrun
      rfl
    | true =>
      obtain rfl := eq_pathOf_of_resolve hresolved
      exact absurd ⟨_, ⟨p, hexpanded, hresolved⟩, hdirectory⟩ hleads

namespace Generation

variable {q : Request} {s : Settings} {ids : Ids} {output : Option String}

/-- The work on a project fails in a way that is reported, or because something stops it. -/
theorem ofSettings_failed (hs : h.Sound) (hgit : History.Tolerable h.git) (hnul : hasNul root = false)
    (hrun : (ofSettings ids root q s).on h = (.error f, next)) :
    f.isReported = true ∨ ∃ place noted, Discovery.LeadsTo h root.toString place ∧ h.Noted noted ∧
      Stops noted root place q s f := by
  obtain ⟨noted, rest, hnoted, hsearch⟩ := ofSettings_eq_search ids root q s h
  rw [hsearch] at hrun
  rcases bind_eq_error hrun with hrefused | ⟨files, last, hfiles, _⟩
  · exact .inl (Discovery.sourceFiles_failed (hs.noted hnoted) (hasNul_ofString_toString hnul) hrefused)
  obtain ⟨place, hleads⟩ := Discovery.leadsTo_of_sourceFiles _ _ hfiles
  have hleads := Discovery.LeadsTo.of_noted hnoted hs.wellFormed hleads
  have hmanifest : hasNul (root.child Manifest.fileName) = false := hasNul_path_child hnul (by decide)
  obtain ⟨noted, hnoted, hhinges⟩ := exists_hingesOn_ofSettings hs.wellFormed hleads hgit hmanifest ids q s
  exact .inr ⟨place, noted, hleads, hnoted, hhinges.failed (hsearch.trans hrun)⟩

theorem outputPath_failed (hrun : (outputPath root q output s).on h = (.error f, next)) :
    f.isReported = true ∨ f = .nulInPath ∧ ∃ text, output = some text ∧ hasNul (Path.ofString text) = true := by
  unfold outputPath at hrun
  split at hrun
  case h_1 text =>
    rcases expandHome_failed hrun with ⟨rfl, hnul⟩ | rfl
    · exact .inr ⟨rfl, text, rfl, hnul⟩
    · exact .inl rfl
  case h_2 => cases hrun
  case h_3 => cases hrun

/-! ## All of a run -/

/-- What keeps a run from ending with its output or with a message. -/
inductive Breaks (h : Host) (q : Request) (output : Option String) : Failure → Prop
  /-- The path of the project has a null character in it. -/
  | path (character : hasNul (Path.ofString q.path) = true) : Breaks h q output .nulInPath
  /-- A value in the settings stands for nothing. -/
  | value {root : Path} {f : Failure} (found : (rootOf (Path.ofString q.path)).on h = (.ok root, h))
      (untold : Settings.Untold h root f) (value : Settings.isOfValue f = true) : Breaks h q output f
  /-- A file, the manifest or the clock stops the work. -/
  | work {root : Path} {settings : Settings} {place : Location} {noted : Host} {f : Failure}
      (found : (rootOf (Path.ofString q.path)).on h = (.ok root, h))
      (loads : (Settings.load root).on h = (.ok settings, h)) (leads : Discovery.LeadsTo h root.toString place)
      (notes : h.Noted noted) (stops : Stops noted root place q settings f) : Breaks h q output f
  /-- The path of the output has a null character in it, as it is given or as the settings have it. -/
  | given {text : String} (asked : output = some text) (character : hasNul (Path.ofString text) = true) :
      Breaks h q output .nulInPath
  | target {target : Path} (targets : Targets q output h target) (character : hasNul target = true) :
      Breaks h q output .nulInPath
  /-- The path of the output has no name in it. -/
  | unnamed {target : Path} (targets : Targets q output h target) (nameless : target.name = "") :
      Breaks h q output (.noName target.toString)
  /-- A number in the snapshot has too many digits. -/
  | number {root : Path} {settings : Settings} {g : Generation} {composed : Host}
      (found : (rootOf (Path.ofString q.path)).on h = (.ok root, h))
      (loads : (Settings.load root).on h = (.ok settings, h))
      (generated : (ofSettings .sequential root q settings).on h = (.ok g, composed))
      (long : g.snapshot.toJson.hasLongNumber = true) : Breaks h q output (.value (.numeral .manyDigitsWritten))

/-- A run that fails is reported, or there is a cause for it to break off. -/
theorem run_failed (hs : h.Sound) (hgit : History.Tolerable h.git)
    (hrun : (run .sequential q output).on h = (.error f, after)) : f.isReported = true ∨ Breaks h q output f := by
  rcases (asks_rootOf _).bind_eq_error hrun with ⟨hroot, _⟩ | ⟨root, hroot, hrun⟩
  · rcases rootOf_failed hs.clean hroot with ⟨rfl, hnul⟩ | hreported
    · exact .inr (.path hnul)
    · exact .inl hreported
  have hnul := hasNul_of_rootOf hroot
  rcases (Settings.asks_load root).bind_eq_error hrun with ⟨hload, _⟩ | ⟨settings, hload, hrun⟩
  · rcases Settings.load_cases h root with ⟨_, hloaded⟩ | ⟨fault, htold⟩ | ⟨_, hfailed, huntold⟩
    · cases hload.symm.trans hloaded
    · cases hload.symm.trans htold
      exact .inl rfl
    · cases hload.symm.trans hfailed
      exact (huntold.isReported_or_isOfValue hs hnul).imp_right (.value hroot huntold)
  rcases bind_eq_error hrun with hgenerated | ⟨g, composed, hgenerated, hrun⟩
  · refine (ofSettings_failed hs hgit hnul hgenerated).imp_right ?_
    rintro ⟨place, noted, hleads, hnoted, hstops⟩
    exact .work hroot hload hleads hnoted hstops
  have hnoted := (notes_ofSettings _ _ _ _).of_eq hgenerated
  rcases (asks_outputPath _ _ _ _).bind_eq_error hrun with ⟨hplaced, _⟩ | ⟨target, hplaced, hrun⟩
  · refine (outputPath_failed hplaced).imp_right ?_
    rintro ⟨rfl, text, hgiven, htext⟩
    exact .given hgiven htext
  have htarget : Targets q output h target :=
    ⟨root, settings, hroot, hload, (steady_outputPath _ _ _ _).on_eq (asks_outputPath _ _ _ _) hnoted hs.wellFormed hplaced⟩
  rcases bind_eq_error hrun with hwrite | ⟨written, left, _, hrun⟩
  · rcases Snapshot.write_failed_cases hwrite with hpath | ⟨rfl, hnameless⟩ | ⟨rfl, hlong⟩
    · rcases hpath.nul_or_isReported with ⟨rfl, htext⟩ | hreported
      · exact .inr (.target htarget htext)
      · exact .inl hreported
    · exact .inr (.unnamed htarget hnameless)
    · exact .inr (.number hroot hload hgenerated hlong)
  · obtain ⟨noted, hinfo⟩ := succeeds_log (some orchestrator) LogRecord.info ("Output file: " ++ written.toString) left
    have hinfo : (info orchestrator ("Output file: " ++ written.toString)).on left = (.ok (), noted) := hinfo
    rw [on_bind_of_ok hinfo] at hrun
    cases hrun

end Generation
end ClassAtlas
