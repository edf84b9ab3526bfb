import ClassAtlas.Proofs.Generation.Failing
import ClassAtlas.Proofs.Settings.Layers
/-!
# Which settings count

A setting that a call gives counts before the settings file, and that before the default. The name of the
project is the exception: there the settings file and the manifest count before the call.
-/
namespace ClassAtlas.Generation

open ClassAtlas.Action
open Settings (nonEmpty Layer)

variable {h after : Host} {q : Request} {root : Path} {l : Layer} {s : Settings} {ids : Ids}

/-- What a call searches for and how it names the project, by what it gives itself, what the settings file says
and what the manifest says. -/
structure Settles (h : Host) (q : Request) (root : Path) (l : Layer) (snapshot : Snapshot) (skipped : List String) :
    Prop where
  found : (rootOf (Path.ofString q.path)).on h = (.ok root, h)
  layered : Settings.Says h root l
  searches : ∃ files searching searched, h.Noted searching ∧
    (Discovery.sourceFiles root.toString ((q.included.or l.included).getD Settings.defaultIncluded)
      ((q.excluded.or l.excluded).getD Settings.defaultExcluded)).on searching = (.ok files, searched) ∧
    ((snapshot.classes.filter fun c => !c.external).map (·.file) ++ skipped).Perm (files.map (shownName root))
  named : ∃ members reading read, h.Noted reading ∧ (Manifest.read root).on reading = (.ok members, read) ∧
    snapshot.project.name = (((nonEmpty l.projectName).or (nonEmpty (Project.manifestText members "name"))).or
      (nonEmpty q.projectName)).getD root.name ∧
    -- Only where neither file gives another name does that of the call count.
    (snapshot.project.name = ((nonEmpty q.projectName).or ((nonEmpty l.projectName).or
      (nonEmpty (Project.manifestText members "name")))).getD root.name ↔
      ∀ given ∈ nonEmpty q.projectName,
        ∀ told ∈ (nonEmpty l.projectName).or (nonEmpty (Project.manifestText members "name")), told = given)

/-- Where the output goes: where the call says, else where the settings file says, else into the current
directory under the name of the call or of the root. -/
inductive Placed (h : Host) (q : Request) (root : Path) (l : Layer) : Option String → Path → Prop where
  | given {text : String} {place : Path} (expands : (expandHome (Path.ofString text)).on h = (.ok place, h)) :
      Placed h q root l (some text) place
  | told {text : String} {file above : Path} (wanted : nonEmpty l.output = some text)
      (at_ : (Settings.filePath root).on h = (.ok file, h)) (stands : (resolve file.parent).on h = (.ok above, h)) :
      Placed h q root l none (above.join (Path.ofString text))
  | byName (silent : nonEmpty l.output = none) : Placed h q root l none
      ((pathOf h.cwd).join (Path.ofString ((nonEmpty q.projectName).getD root.name ++ "-uml.json")))

theorem getD_or_swap {given told : Option String} {last : String} :
    (told.or given).getD last = (given.or told).getD last ↔ ∀ g ∈ given, ∀ t ∈ told, t = g := by
  cases given with
  | none => simp
  | some g => cases told <;> simp

theorem name_ofManifest (members : List (String × Json)) (given : Option String) (root : Path)
    (wanted : ProjectOverrides) : (Project.ofManifest members (nameOf given root) wanted).name =
      (((nonEmpty wanted.name).or (nonEmpty (Project.manifestText members "name"))).or (nonEmpty given)).getD
        root.name := by
  simp only [Project.ofManifest, nameOf, Settings.prefer_eq]
  cases nonEmpty wanted.name with
  | some name => rfl
  | none => cases nonEmpty (Project.manifestText members "name") <;> rfl

theorem settles_of_ofSettings {g : Generation} (hfound : (rootOf (Path.ofString q.path)).on h = (.ok root, h))
    (hlayered : Settings.Says h root l) (hfollows : s.Follows l)
    (hrun : (ofSettings ids root q s).on h = (.ok g, after)) : Settles h q root l g.snapshot g.skipped := by
  obtain ⟨files, done, searching, searched, analyzing, _, reading, _, hsearching, hfiles, hanalyzing, hdone, _,
    hskipped, hclasses, _, hreading, hproject⟩ := ofSettings_of_ok hrun
  have haccounts := accounts_analyzeAll hanalyzing (.start ids _ root) hdone
  rw [List.nil_append] at haccounts
  have hgetD : ∀ (given told : Option (List String)) (last : List String),
      given.getD (told.getD last) = (given.or told).getD last := by
    intro given told last
    cases given <;> rfl
  constructor
  case found => exact hfound
  case layered => exact hlayered
  case searches =>
    refine ⟨files, searching, searched, hsearching, ?_, ?_⟩
    · rw [← hgetD, ← hgetD, ← hfollows.included, ← hfollows.excluded]
      exact hfiles
    · rw [hclasses, own_classes_gather _ haccounts.own, haccounts.records, haccounts.analyzed, hskipped,
        haccounts.skipped, ← List.map_append]
      exact (List.filter_append_perm _ _).map _
  case named =>
    obtain ⟨members, read, hmembers, hproject⟩ := Action.bind_eq_ok hproject
    have hname := name_ofManifest members q.projectName root s.project
    rw [Except.ok.inj (Prod.mk.inj hproject).1, hfollows.projectName] at hname
    refine ⟨members, reading, read, hreading, hmembers, hname, ?_⟩
    rw [hname]
    exact getD_or_swap

theorem placed_of_outputPath {output : Option String} {place file : Path}
    (hfollows : s.Follows l) (hfile : (Settings.filePath root).on h = (.ok file, h))
    (hroot : (resolve file.parent).on h = (.ok s.root, h))
    (hplaced : (outputPath root q output s).on h = (.ok place, h)) : Placed h q root l output place := by
  unfold outputPath at hplaced
  rw [hfollows.output] at hplaced
  cases output with
  | some text => exact .given hplaced
  | none =>
    cases htold : nonEmpty l.output with
    | some text =>
      rw [htold] at hplaced
      obtain rfl := Except.ok.inj (Prod.mk.inj hplaced).1
      exact .told htold hfile hroot
    | none =>
      rw [htold] at hplaced
      obtain rfl := Except.ok.inj (Prod.mk.inj hplaced).1
      rw [nameOf, Settings.prefer_eq]
      exact .byName htold

/-- A run that gives a result has put a snapshot together, and has written it where the output was placed before. -/
theorem steps_of_run {output : Option String} {w : Written} (hrun : (run ids q output).on h = (.ok w, after)) :
    ∃ root s g composed left, (rootOf (Path.ofString q.path)).on h = (.ok root, h) ∧
      (Settings.load root).on h = (.ok s, h) ∧ (ofSettings ids root q s).on h = (.ok g, composed) ∧
      (outputPath root q output s).on h = (.ok w.output, h) ∧ w = ⟨g.snapshot, w.output, g.skipped⟩ ∧
      (w.snapshot.write w.output).on composed = (.ok w.output, left) ∧ left.Noted after := by
  obtain ⟨root, hroot, hrun⟩ := (asks_rootOf _).bind_eq_ok hrun
  obtain ⟨s, hload, hrun⟩ := (Settings.asks_load root).bind_eq_ok hrun
  obtain ⟨g, composed, hgenerated, hrun⟩ := Action.bind_eq_ok hrun
  have hnoted := (notes_ofSettings _ _ _ _).of_eq hgenerated
  obtain ⟨place, hplaced, hrun⟩ := (asks_outputPath _ _ _ _).bind_eq_ok hrun
  obtain ⟨written, left, hwrite, hrun⟩ := Action.bind_eq_ok hrun
  obtain ⟨_, last, _, hlast, hrun⟩ := (notes_info _ _).bind_eq_ok hrun
  obtain ⟨hsame, _⟩ := Snapshot.write_of_ok hwrite
  cases hrun
  have hplaced : (outputPath root q output s).on h = (.ok place, h) :=
    Prod.ext ((outputPath_noted hnoted root q output s).symm.trans (by rw [hplaced])) (asks_outputPath _ _ _ _ h)
  rw [← hsame] at hplaced hwrite
  exact ⟨root, s, g, composed, left, hroot, hload, hgenerated, hplaced, rfl, hwrite, hlast⟩

/-- A call that gives a result has searched, named the project and placed its output by the first layer that says
something, and the layers come in the order of `Settles` and `Placed`. -/
theorem calls_follow_layers (ids : Ids) (q : Request) (output : Option String) (h : Host) :
    (∀ g after, (generate ids q).on h = (.ok g, after) → ∃ root l, Settles h q root l g.snapshot g.skipped) ∧
    (∀ w after, (run ids q output).on h = (.ok w, after) →
      ∃ root l, Settles h q root l w.snapshot w.skipped ∧ Placed h q root l output w.output) := by
  constructor
  · intro g after hrun
    obtain ⟨root, hroot, hrun⟩ := (asks_rootOf _).bind_eq_ok hrun
    obtain ⟨s, hload, hrun⟩ := (Settings.asks_load root).bind_eq_ok hrun
    obtain ⟨l, file, hlayered, hfollows, _, _⟩ := Settings.load_of_ok hload
    exact ⟨root, l, settles_of_ofSettings hroot hlayered hfollows hrun⟩
  · intro w after hrun
    obtain ⟨root, s, g, _, _, hroot, hload, hgenerated, hplaced, hw, _⟩ := steps_of_run hrun
    obtain ⟨l, file, hlayered, hfollows, hfile, hstands⟩ := Settings.load_of_ok hload
    refine ⟨root, l, ?_, placed_of_outputPath hfollows hfile hstands hplaced⟩
    rw [hw]
    exact settles_of_ofSettings hroot hlayered hfollows hgenerated

/-- A directory with nothing but settings has no file to read classes from. -/
theorem unwanted_of_names {t : FileTree} {place : Location} (hnames : t.names place = [settingsFile])
    (hopen : t.at? place ≠ some (.directory true)) (hleaf : t.isDirectoryAt (place ++ [settingsFile]) = false)
    (included excluded : List String) : ∀ p ∈ t.listing place, ¬ Discovery.Wanted t included excluded place p := by
  intro p hp hwanted
  have hlisting : t.listing place = [place ++ [settingsFile]] := by
    rw [FileTree.listing_of_not_locked hopen, FileTree.leaves, FileTree.subdirectories, hnames]
    simp [hleaf]
  rw [hlisting] at hp
  obtain rfl := List.mem_singleton.mp hp
  have hname : Path.name ⟨.root, place ++ [settingsFile]⟩ = settingsFile := name_child place settingsFile
  have hsuffix := hwanted.suffix
  rw [Path.suffix, hname] at hsuffix
  exact absurd hsuffix (by decide)

/-! ## A call and a settings file that name the project -/

def toldText : String := "include: lib\nproject:\n  name: web\n"

/-- A project that has nothing but settings. -/
def toldTree : FileTree where
  nodes := [(["repo"], .directory false), (["repo", settingsFile], .file (Utf8.encode toldText.toList))]

/-- A call that gives patterns for files to leave out, and a name for the project. -/
def cityRequest : Request := ⟨"/repo", none, some [], some "city"⟩

theorem wellFormed_toldTree : toldTree.WellFormed := by decide

theorem plain_toldTree : Plain (.holding toldTree) ["repo"] where
  directory := ⟨false, by decide⟩
  noManifest := by decide
  resolved := by decide
  settingsResolved := by decide
  short := by decide

theorem ofText_toldText : ∃ s, Settings.ofText settingsFile (pathOf ["repo"])
    (Text.unifyLineEnds toldText.toList) = .ok s ∧ s.included = ["lib"] ∧ s.project.name = some "web" ∧
      s.output = none := by
  have hread : (Settings.ofText settingsFile (pathOf ["repo"]) (Text.unifyLineEnds toldText.toList)).toOption.map
      (fun s => (s.included, s.project.name, s.output)) = some (["lib"], some "web", none) := by decide +kernel
  obtain ⟨s, hs, hall⟩ := map_toOption_eq_some_iff.mp hread
  exact ⟨s, hs, congrArg Prod.fst hall, congrArg (·.2.1) hall, congrArg (·.2.2) hall⟩

theorem load_toldTree : ∃ s, (Settings.load (pathOf ["repo"])).on (.holding toldTree) = (.ok s, .holding toldTree) ∧
    s.included = ["lib"] ∧ s.project.name = some "web" ∧ s.output = none := by
  obtain ⟨s, hgiven, hfacts⟩ := ofText_toldText
  have hfile : (Host.holding toldTree).files.at? (["repo"] ++ [settingsFile]) =
      some (.file (Utf8.encode toldText.toList)) := by decide
  exact ⟨s, plain_toldTree.on_load wellFormed_toldTree hfile (by decide) hgiven, hfacts⟩

theorem unwanted_toldTree (included excluded : List String) :
    ∀ p ∈ toldTree.listing ["repo"], ¬ Discovery.Wanted toldTree included excluded ["repo"] p :=
  unwanted_of_names (FileTree.names_of_sorted (by decide) (by decide)) (by decide) (by decide) included excluded

theorem generate_toldTree : ∃ g after, (generate .sequential cityRequest).on (.holding toldTree) = (.ok g, after) := by
  obtain ⟨s, hload, _⟩ := load_toldTree
  exact plain_toldTree.generate_returns wellFormed_toldTree hload rfl (fun _ => ⟨.notFound, rfl, rfl⟩) rfl _

theorem room_toldTree : Snapshot.Room (.holding toldTree) [] "city-uml.json" where
  wellFormed := wellFormed_toldTree
  directory := ⟨false, rfl⟩
  named := by decide
  besideNamed := by decide
  free := .inl (by decide)
  besideFree := by decide
  short := by decide

theorem run_toldTree : ∃ w after, (run .sequential cityRequest none).on (.holding toldTree) = (.ok w, after) := by
  obtain ⟨s, hload, _, _, houtput⟩ := load_toldTree
  obtain ⟨g, composed, hgenerated, hnumbers⟩ := plain_toldTree.generated wellFormed_toldTree
    (unwanted_toldTree _ _) (fun _ => ⟨.notFound, rfl, rfl⟩) rfl .sequential
  have hnoted := (notes_ofSettings _ _ _ _).of_eq hgenerated
  have hplaced : (outputPath (pathOf ["repo"]) cityRequest none s).on composed =
      (.ok (pathOf ([] ++ ["city-uml.json"])), composed) := by
    have hcwd : composed.cwd = [] := hnoted.cwd
    unfold outputPath
    rw [houtput]
    show (Except.ok ((pathOf composed.cwd).join _), composed) = _
    rw [hcwd]
    rfl
  obtain ⟨last, hrun, _⟩ := on_run_of_room (q := cityRequest) (plain_toldTree.on_rootOf wellFormed_toldTree) hload
    hgenerated hplaced (room_toldTree.noted hnoted) hnumbers
  exact ⟨_, last, hrun⟩

/-- The file gives the directories to search, the call those to leave out, and the name of the output. -/
theorem calls_follow_layers_toldTree :
    (∃ g after root l, (generate .sequential cityRequest).on (.holding toldTree) = (.ok g, after) ∧
      Settles (.holding toldTree) cityRequest root l g.snapshot g.skipped) ∧
    ∃ w after root l, (run .sequential cityRequest none).on (.holding toldTree) = (.ok w, after) ∧
      Settles (.holding toldTree) cityRequest root l w.snapshot w.skipped ∧
      Placed (.holding toldTree) cityRequest root l none w.output := by
  obtain ⟨hgenerate, hrun⟩ := calls_follow_layers .sequential cityRequest none (.holding toldTree)
  obtain ⟨g, after, hg⟩ := generate_toldTree
  obtain ⟨w, last, hw⟩ := run_toldTree
  obtain ⟨root, l, hsettles⟩ := hgenerate g after hg
  obtain ⟨root', l', hsettles', hplaced⟩ := hrun w last hw
  exact ⟨⟨g, after, root, l, hg, hsettles⟩, w, last, root', l', hw, hsettles', hplaced⟩

/-- The project is named as its settings file has it, although the call gives a name. -/
theorem generate_ignores_given_name : ∃ g after,
    (generate .sequential cityRequest).on (.holding toldTree) = (.ok g, after) ∧
      cityRequest.projectName = some "city" ∧ g.snapshot.project.name = "web" := by
  obtain ⟨g, after, hrun⟩ := generate_toldTree
  refine ⟨g, after, hrun, rfl, ?_⟩
  obtain ⟨s, hload, _, hname, _⟩ := load_toldTree
  have hroot : (rootOf (Path.ofString cityRequest.path)).on (.holding toldTree) =
      (.ok (pathOf ["repo"]), .holding toldTree) := plain_toldTree.on_rootOf wellFormed_toldTree
  rw [generate, on_bind_of_ok hroot, on_bind_of_ok hload] at hrun
  obtain ⟨_, _, _, _, _, _, reading, _, _, _, _, _, _, _, _, _, _, hproject⟩ := ofSettings_of_ok hrun
  obtain ⟨members, _, _, hproject⟩ := Action.bind_eq_ok hproject
  rw [← Except.ok.inj (Prod.mk.inj hproject).1, Project.ofManifest, hname]
  rfl

end ClassAtlas.Generation
