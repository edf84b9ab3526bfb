import ClassAtlas.Proofs.Generation.Packages
import ClassAtlas.Proofs.Outline.Sound
/-!
# Records are well formed

Every record of a snapshot that stands for a file of the project is well formed, whatever the file holds, and
it knows of the test beside the file.
-/
namespace ClassAtlas

open ClassAtlas.Action

/-- What stands in a document under names, one inside the other. -/
def Json.at? (j : Json) : List String → Option Json
  | [] => some j
  | name :: names => (j.get? name).bind (·.at? names)

structure ClassRecord.Sound (r : ClassRecord) : Prop where
  name : r.name ≠ ""
  parents : r.parents.length ≤ 1
  types : ∀ n ∈ r.parents ++ r.interfaces, IsTypeName n
  methods : ∀ m ∈ r.methods, m.name ≠ ""
  methodCount : r.toJson.at? ["metrics", "methodCount"] = some (.int r.methods.length)
  dependencies : (∀ n ∈ r.dependencies, n ≠ "") ∧ r.dependencies.Nodup
  /-- The directory of the file, and a stand-in where there is none. -/
  package : (r.package = "root" ∧ '/' ∉ r.file.toList) ∨
    ∃ name, '/' ∉ name.toList ∧ r.package ≠ "" ∧ r.file = r.package ++ "/" ++ name
  score : ∃ score : Int, ∀ way ∈ [["complexity"], ["complexityMetrics", "cyclomaticComplexity"],
    ["complexityMetrics", "cognitiveComplexity"], ["metrics", "complexity"]], r.toJson.at? way = some (.int score)
  tested : r.toJson.at? ["testMetrics", "exists"] = some (.bool r.hasTest)

namespace Path

theorem stem_ne_empty {p : Path} (hname : p.name ≠ "") : p.stem ≠ "" := by
  rw [stem, ofList_ne_empty_iff, splitSuffix]
  split
  case isTrue =>
    intro hnil
    exact hname (String.toList_inj.mp hnil)
  case isFalse hsplit =>
    intro hnil
    dsimp only at hnil
    rw [hnil] at hsplit
    simp at hsplit

end Path

namespace SourceFile

variable {f : SourceFile} {below : List String}

/-- The package is what stands in front of the last slash. -/
theorem package_spec (hnames : ∀ n ∈ below, FileTree.IsName n) (hrelative : f.relative = Path.toString ⟨.here, below⟩) :
    (f.package = "root" ∧ '/' ∉ f.relative.toList) ∨
      ∃ name, '/' ∉ name.toList ∧ f.package ≠ "" ∧ f.relative = f.package ++ "/" ++ name := by
  rcases List.eq_nil_or_concat' below with rfl | ⟨above, name, rfl⟩
  · have hdot : f.relative = "." := hrelative
    left
    rw [package, hdot]
    decide
  · have htext : f.relative = "/".intercalate (above ++ [name]) := by
      rw [hrelative, Path.toString, if_neg (by simp), Path.bare]
      exact String.empty_append
    have hname := (hnames name (by simp)).oneName
    rw [package_eq hnames hrelative, packageOf]
    by_cases hnil : above = []
    · rw [if_pos hnil, htext, hnil]
      left
      simpa using hname
    · have habove : ∀ n ∈ above, FileTree.IsName n := fun n hn => hnames n (List.mem_append_left _ hn)
      obtain ⟨cs, c, hcs, -⟩ := exists_last_of_intercalate hnil habove
      rw [if_neg hnil]
      refine .inr ⟨name, hname, ?_, ?_⟩
      · intro hempty
        rw [hempty] at hcs
        simp at hcs
      · rw [htext, String.intercalate_append_of_ne_nil hnil (by simp), String.intercalate_singleton]

/-- A record is well formed, whatever the file holds and whatever is known of its history. -/
theorem record_sound {h h' : Host} {id : String} {history : Path → Path → Action FileHistory} {root : Path}
    {r : ClassRecord} (hname : f.path.name ≠ "") (hnames : ∀ n ∈ below, FileTree.IsName n)
    (hrelative : f.relative = Path.toString ⟨.here, below⟩) (hrun : (f.record id history root).on h = (.ok r, h')) :
    r.Sound := by
  obtain ⟨known, _, _, hrun⟩ := Action.bind_eq_ok hrun
  obtain ⟨tested, _, _, hrun⟩ := Action.bind_eq_ok hrun
  have houtline := Outline.sound_choose f.path f.text Outline.defaultChain
  generalize Outline.choose f.path f.text Outline.defaultChain = outline at hrun houtline
  cases hrun
  constructor
  case name =>
    dsimp only
    split
    · exact Path.stem_ne_empty hname
    case isFalse hne => exact hne
  case parents => exact List.length_take_le _ _
  case types =>
    intro n hn
    rcases List.mem_append.mp hn with hparent | hinterface
    · exact houtline.parents n (List.mem_of_mem_take hparent)
    · exact houtline.interfaces n hinterface
  case methods => exact houtline.methods
  case methodCount => rfl
  case dependencies => exact Imports.dependencies_sound f.text
  case package => exact package_spec hnames hrelative
  case score =>
    refine ⟨Complexity.score f.text, ?_⟩
    intro way hway
    simp only [List.mem_cons, List.not_mem_nil, or_false] at hway
    rcases hway with rfl | rfl | rfl | rfl <;> rfl
  case tested => rfl

end SourceFile

namespace Generation

variable {h h' : Host} {above : Location} {name : String}

/-! ## The test beside a file -/

/-- A file is at the place, or a link that leads to one. -/
def HasFile (h : Host) (place : Location) : Prop :=
  (∃ bytes, h.files.at? place = some (.file bytes)) ∨
    ∃ target found bytes, h.files.at? place = some (.link target) ∧
      h.files.lookup h.cwd true (pathOf place) = .ok (found, .file bytes)

/-- Where a name can be looked for in a directory, what the search ends at is a file if and only if one is
there. -/
theorem hasFile_iff (ht : h.files.WellFormed) {locked : Bool} (habove : h.files.at? above = some (.directory locked))
    (hdots : name ≠ "..") (hfits : h.files.lookup h.cwd true (pathOf (above ++ [name])) ≠ .error .nameTooLong) :
    HasFile h (above ++ [name]) ↔
      ∃ found bytes, h.files.lookup h.cwd true (pathOf (above ++ [name])) = .ok (found, .file bytes) := by
  have hpath : ¬ (pathOf (above ++ [name])).toString.utf8ByteSize > FileTree.maxPathBytes := by
    intro hlong
    refine hfits (FileTree.lookup_of_error ?_)
    rw [FileTree.locate, if_pos hlong]
  have hlocate : h.files.locate h.cwd true (pathOf (above ++ [name])) =
      h.files.walk true FileTree.maxLinks above [name] := by
    rw [FileTree.locate, if_neg hpath]
    exact ht.walk_append habove true FileTree.maxLinks [name]
  have hname : ¬ name.utf8ByteSize > FileTree.maxNameBytes := by
    intro hlong
    refine hfits (FileTree.lookup_of_error ?_)
    rw [hlocate, FileTree.walk_tooLong hdots hlong]
  rw [FileTree.walk_step hdots hname, FileTree.view] at hlocate
  cases hnode : h.files.at? (above ++ [name]) with
  | none =>
    rw [hnode] at hlocate
    have hlookup := FileTree.lookup_of_nothing hlocate hnode
    simp [HasFile, hnode, hlookup]
  | some node =>
    rw [hnode] at hlocate
    cases node with
    | link target => simp [HasFile, hnode]
    | file bytes =>
      have hlookup := FileTree.lookup_of_node hlocate hnode
      simp [HasFile, hnode, hlookup]
    | socket =>
      have hlookup := FileTree.lookup_of_node hlocate hnode
      simp [HasFile, hnode, hlookup]
    | directory locked =>
      have hlookup := FileTree.lookup_of_node (hlocate.trans (FileTree.walk_nil ..)) hnode
      simp [HasFile, hnode, hlookup]

theorem hasTest_iff {f : SourceFile} {found : Bool} (ht : h.files.WellFormed)
    (hleaf : IsLeaf h (above ++ [name])) (hpath : f.path = pathOf (above ++ [name]))
    (hrun : f.hasTest.on h = (.ok found, h')) : found = true ↔ HasFile h (above ++ [testName name]) := by
  obtain ⟨node, hnode, -⟩ := hleaf
  obtain ⟨hname, locked, habove⟩ := ht.parent hnode
  have hnul : hasNul f.path = false := by rw [hpath, hasNul_pathOf ht hnode]
  have htest : f.path.siblingTest? = some (pathOf (above ++ [testName name])) := by rw [hpath, siblingTest_eq hname]
  rw [on_hasTest hnul htest] at hrun
  have hanswer := (Prod.mk.inj hrun).1
  rw [hasFile_iff ht habove (testName_ne_dots name)]
  · cases hlookup : h.files.lookup h.cwd true (pathOf (above ++ [testName name])) with
    | error errno =>
      rw [hlookup] at hanswer
      cases errno <;> simp at hanswer <;> simp [← hanswer]
    | ok place =>
      rw [hlookup] at hanswer
      obtain rfl := Except.ok.inj hanswer
      obtain ⟨place, node⟩ := place
      cases node <;> simp [Node.isFile]
  · intro hlong
    rw [hlong] at hanswer
    cases hanswer

theorem IsLeaf.noted (hnoted : h.Noted h') {place : Location} (hleaf : IsLeaf h place) : IsLeaf h' place := by
  obtain ⟨node, hnode, hdirectory⟩ := hleaf
  obtain ⟨other, hother, hgrown⟩ := hnoted.files.forth hnode
  refine ⟨other, hother, ?_⟩
  cases hgrown with
  | same => exact hdirectory
  | added => rfl

theorem hasFile_noted (hnoted : h.Noted h') (place : Location) : HasFile h' place ↔ HasFile h place := by
  have hfile : (∃ bytes, h'.files.at? place = some (.file bytes)) ↔ ∃ bytes, h.files.at? place = some (.file bytes) := by
    constructor
    · rintro ⟨bytes, hnew⟩
      obtain ⟨node, hold, hgrown⟩ := hnoted.files.back hnew
      cases hgrown <;> exact ⟨_, hold⟩
    · rintro ⟨bytes, hold⟩
      obtain ⟨node, hnew, hgrown⟩ := hnoted.files.forth hold
      cases hgrown <;> exact ⟨_, hnew⟩
  have hfound : (∃ found bytes, h'.files.lookup h.cwd true (pathOf place) = .ok (found, .file bytes)) ↔
      ∃ found bytes, h.files.lookup h.cwd true (pathOf place) = .ok (found, .file bytes) := by
    rcases hnoted.files.lookup_cases h.cwd true (pathOf place) with ⟨errno, hold, hnew⟩ | ⟨found, m, n, hold, hnew, hgrown⟩
    · rw [hold, hnew]
    · rw [hold, hnew]
      cases hgrown with
      | same => rfl
      | added => simp
  have hlink : ∀ target, h'.files.at? place = some (.link target) ↔ h.files.at? place = some (.link target) :=
    fun target => hnoted.files.at?_iff rfl
  unfold HasFile
  rw [hnoted.cwd, hfile]
  simp only [hlink, exists_and_left, hfound]

/-! ## Records -/

theorem Recorded.sound {s : HistorySettings} {root : Path} {r : ClassRecord} (ht : h.files.WellFormed)
    (hleaf : IsLeaf h (above ++ [name])) (hof : Recorded h s root (pathOf (above ++ [name])) r) :
    r.Sound ∧ (r.hasTest = true ↔ HasFile h (above ++ [testName name])) := by
  obtain ⟨f, id, middle, last, hmiddle, hread, hrecord⟩ := hof
  obtain ⟨_, _, hpath, seen, hseen, hrelative⟩ := read_of_ok hread
  obtain ⟨below, -, hbelow, rfl⟩ := below_of_relativeTo hseen
  have hnames : ∀ n ∈ above ++ [name], FileTree.IsName n := by
    obtain ⟨node, hnode, -⟩ := hleaf
    exact ht.isName_of_mem hnode
  constructor
  · have hname : f.path.name ≠ "" := by
      rw [hpath, name_child]
      exact (hnames name (by simp)).notEmpty
    refine SourceFile.record_sound hname (fun n hn => hnames n ?_) hrelative hrecord
    rw [hbelow]
    exact List.mem_append_right _ hn
  · obtain ⟨known, noted, _, hnoted, hrecord⟩ := (History.notes_source s _ _).bind_eq_ok hrecord
    obtain ⟨tested, htested, hrecord⟩ := f.asks_hasTest.bind_eq_ok hrecord
    cases hrecord
    have hnoted := hmiddle.trans hnoted
    rw [← hasFile_noted hnoted]
    exact hasTest_iff (hnoted.wellFormed ht) (hleaf.noted hnoted) hpath htested

/-- Every class of a snapshot that is no stub is that of a file of the project, its record is well formed, and it
is tested if and only if the test of that file stands beside it. -/
theorem generate_records_sound (ht : h.files.WellFormed) {ids : Ids} {q : Request} {g : Generation}
    (hrun : (generate ids q).on h = (.ok g, h')) :
    ∃ root, (rootOf (Path.ofString q.path)).on h = (.ok root, h) ∧
      ∀ c ∈ g.snapshot.classes, c.external = false → c.Sound ∧
        ∃ above name, IsLeaf h (above ++ [name]) ∧ c.file = shownName root (pathOf (above ++ [name])) ∧
          (c.hasTest = true ↔ HasFile h (above ++ [testName name])) := by
  obtain ⟨root, settings, files, searched, done, hroot, _, hsearched, _, hrecorded, hclasses, _⟩ :=
    filed_of_generate ht hrun
  refine ⟨root, hroot, ?_⟩
  intro c hc hown
  rw [hclasses] at hc
  obtain ⟨path, hpath, hof⟩ := hrecorded c (mem_records_of_own hc hown)
  obtain ⟨place, rfl, hleaf⟩ := isLeaf_of_sourceFiles ht hsearched path hpath
  rcases List.eq_nil_or_concat' place with rfl | ⟨above, name, rfl⟩
  · obtain ⟨node, hnode, hdirectory⟩ := hleaf
    cases hnode
    cases hdirectory
  · obtain ⟨hsound, htest⟩ := hof.sound ht hleaf
    obtain ⟨f, seen, hseen, hrelative, hfile, _⟩ := hof.recordOf
    refine ⟨hsound, above, name, hleaf, ?_, htest⟩
    rw [hfile, hrelative, shownName, hseen, Option.getD_some]

theorem generate_records_rootedTree : ∃ g after,
    (generate .sequential borderRequest).on (.holding rootedTree) = (.ok g, after) ∧
      ∃ c ∈ g.snapshot.classes, c.file = "b.ts" ∧ c.Sound ∧ c.hasTest = false := by
  obtain ⟨g, after, hrun⟩ := generate_rootedTree
  obtain ⟨c, hc, hown, hfile⟩ := classes_rootedTree hrun "b.ts" (by decide)
  obtain ⟨root, hroot, hall⟩ := generate_records_sound wellFormed_rootedTree hrun
  obtain ⟨hsound, above, name, hleaf, hshown, htest⟩ := hall c hc hown
  obtain rfl : root = pathOf ["repo"] := by
    have hgiven : Path.ofString borderRequest.path = pathOf ["repo"] := rfl
    rw [hgiven, bare_rootedTree.on_rootOf wellFormed_rootedTree] at hroot
    cases hroot
    rfl
  -- The file is known by what it is called in the snapshot.
  have hplace : above ++ [name] = ["repo"] ++ ["b.ts"] := by
    have hsame : shownName (pathOf ["repo"]) (pathOf (above ++ [name])) =
        shownName (pathOf ["repo"]) (pathOf ["repo", "b.ts"]) := by
      rw [← hshown, hfile]
      decide
    obtain ⟨node, hnode, -⟩ := hleaf
    rw [shownName_eq_iff (wellFormed_rootedTree.isName_of_mem hnode) (by decide)] at hsame
    exact hsame
  obtain ⟨rfl, hname⟩ := List.append_inj' hplace rfl
  obtain rfl := List.singleton_inj.mp hname
  refine ⟨g, after, hrun, c, hc, hfile, hsound, ?_⟩
  rw [← Bool.not_eq_true, htest]
  rintro (⟨bytes, hthere⟩ | ⟨target, _, _, hthere, _⟩)
  · cases hthere
  · cases hthere

end Generation
end ClassAtlas
