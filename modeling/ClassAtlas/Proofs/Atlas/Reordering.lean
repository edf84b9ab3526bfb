import ClassAtlas.Proofs.Atlas.Closure
import ClassAtlas.Proofs.Atlas.Partition
import Mathlib.Data.List.Perm.Lattice
/-!
# Gathering in another order

Files may be met in any order. Then records bear other identifiers and come in another order, and so
do packages and stubs. What is gathered is the same but for that.
-/
namespace ClassAtlas

/-- A record without its identifier. -/
def ClassRecord.anonymous (r : ClassRecord) : ClassRecord := { r with id := "" }

namespace ClassRecord
variable (r : ClassRecord)

@[simp] theorem anonymous_name : r.anonymous.name = r.name := rfl
@[simp] theorem anonymous_package : r.anonymous.package = r.package := rfl
@[simp] theorem anonymous_file : r.anonymous.file = r.file := rfl
@[simp] theorem anonymous_external : r.anonymous.external = r.external := rfl
@[simp] theorem anonymous_references : r.anonymous.references = r.references := rfl

end ClassRecord

/-- The classes that belong to a package path. -/
def Gathering.members (g : Gathering) (path : String) : List ClassRecord :=
  g.classes.filter (·.package == path)

/-- The files that a package lists by the identifiers of its classes. -/
def Gathering.ListsFile (g : Gathering) (path file : String) : Prop :=
  ∃ p ∈ g.packages, p.path = path ∧ ∃ c ∈ g.classes, c.id ∈ p.classIds ∧ c.file = file

/-- Two gatherings that differ in identifiers and order only. -/
structure Gathering.SameContent (g g' : Gathering) : Prop where
  packages : (g.packages.map fun p => (p.path, p.name)).Perm (g'.packages.map fun p => (p.path, p.name))
  /-- Packages list just their members. -/
  lists : ∀ p ∈ g.packages, p.classIds = (g.members p.path).map (·.id)
  lists' : ∀ p ∈ g'.packages, p.classIds = (g'.members p.path).map (·.id)
  members : ∀ path, ((g.members path).map (·.anonymous)).Perm ((g'.members path).map (·.anonymous))
  files : ∀ path, ((g.members path).map (·.file)).Perm ((g'.members path).map (·.file))
  /-- Where identifiers tell classes apart, what packages list can be read off them. -/
  listedFiles : (g.classes.map (·.id)).Nodup → (g'.classes.map (·.id)).Nodup →
    ∀ path file, g.ListsFile path file ↔ g'.ListsFile path file
  stubs : (g.stubs.map (·.anonymous)).Perm (g'.stubs.map (·.anonymous))

namespace Assembly

variable {a : Assembly} {path id : String} {rs rs' : List ClassRecord} {rule : String → String}

/-! ## How packages are named -/

def Named (a : Assembly) (rule : String → String) : Prop := ∀ p ∈ a.packages, p.name = rule p.path

theorem Named.enlist (h : a.Named rule) : (a.enlist path id).Named rule := by
  intro p hp
  obtain ⟨q, hq, rfl⟩ := List.mem_map.mp hp
  have hname := h q hq
  by_cases hpath : q.path = path
  · simpa [hpath] using hname
  · simpa [hpath] using hname

theorem Named.concat {ids : Ids} {name : String} (h : a.Named rule) (hname : name = rule path) :
    Named ⟨ids, a.packages ++ [⟨id, name, path, []⟩]⟩ rule := by
  intro p hp
  rcases List.mem_append.mp hp with hp | hp
  · exact h p hp
  · obtain rfl := List.mem_singleton.mp hp
    exact hname

theorem Named.add {r : ClassRecord} (h : a.Named packageName) : (a.add r).Named packageName := by
  apply Named.enlist
  cases hfind : a.find? r.package with
  | some p => simpa only [package, hfind] using h
  | none =>
    simp only [package, hfind]
    exact h.concat rfl

theorem Named.addAll (h : a.Named packageName) : (rs.foldl Assembly.add a).Named packageName := by
  induction rs generalizing a with
  | nil => exact h
  | cons r rs ih => exact ih h.add

theorem Named.addStubs {names : List String} (h : a.Named rule) : (a.addStubs names).2.Named rule := by
  induction names generalizing a with
  | nil => exact h
  | cons name names ih =>
    apply ih
    apply Named.enlist
    exact h

/-- The package of stubs has a name of its own unless a directory serves for it. -/
def nameAmong (rs : List ClassRecord) (path : String) : String :=
  if path = externalPath ∧ ∀ r ∈ rs, r.package ≠ externalPath then externalName else packageName path

theorem mem_paths_filed (ids : Ids) (q : String) :
    q ∈ (rs.foldl add (start ids)).paths ↔ ∃ r ∈ rs, r.package = q := by
  rw [mem_paths_addAll]
  simp [paths, start]

theorem named_filed (ids : Ids) (rs : List ClassRecord) :
    (rs.foldl add (start ids)).Named (nameAmong rs) := by
  have hnamed : (rs.foldl add (start ids)).Named packageName := by
    apply Named.addAll
    intro p hp
    cases hp
  intro p hp
  obtain ⟨r, hr, hpath⟩ := (mem_paths_filed ids p.path).mp (List.mem_map_of_mem hp)
  rw [nameAmong, if_neg]
  · exact hnamed p hp
  · rintro ⟨hext, hnone⟩
    exact hnone r hr (hpath.trans hext)

theorem named_externalPackage (ids : Ids) (rs : List ClassRecord) :
    (rs.foldl add (start ids)).externalPackage.2.Named (nameAmong rs) := by
  have hfiled := named_filed ids rs
  cases hfind : (rs.foldl add (start ids)).find? externalPath with
  | some p => simpa only [externalPackage, hfind] using hfiled
  | none =>
    have hnone : ∀ r ∈ rs, r.package ≠ externalPath := by
      intro r hr hpath
      exact find?_eq_none_iff.mp hfind ((mem_paths_filed ids _).mpr ⟨r, hr, hpath⟩)
    simp only [externalPackage, hfind]
    apply hfiled.concat
    simp only [nameAmong, true_and]
    exact (if_pos hnone).symm

theorem named_gather (ids : Ids) (rs : List ClassRecord) :
    ((start ids).gather rs).2.Named (nameAmong rs) := by
  by_cases hnames : undefinedNames rs = []
  · rw [gather_eq_of_nil hnames]
    exact named_filed ids rs
  · rw [gather_eq_of_ne_nil hnames]
    exact (named_externalPackage ids rs).addStubs

theorem map_path_name_gather (ids : Ids) (rs : List ClassRecord) :
    ((start ids).gather rs).1.packages.map (fun p => (p.path, p.name)) =
      ((start ids).gather rs).2.paths.map fun q => (q, nameAmong rs q) := by
  rw [packages_gather, paths, List.map_map]
  apply List.map_congr_left
  intro p hp
  simp [named_gather ids rs p hp]

/-! ## What does not depend on the order -/

section Reordered
variable (h : (rs.map (·.anonymous)).Perm (rs'.map (·.anonymous)))
include h

/-- What is read off a record without its identifier is there in both orders. -/
theorem exists_mem_iff_of_perm {P : ClassRecord → Prop} (hP : ∀ r, P r.anonymous ↔ P r) :
    (∃ r ∈ rs, P r) ↔ ∃ r ∈ rs', P r := by
  have hmem : (∃ r ∈ rs.map (·.anonymous), P r) ↔ ∃ r ∈ rs'.map (·.anonymous), P r :=
    exists_congr fun r => and_congr_left fun _ => h.mem_iff
  simpa [hP] using hmem

theorem nameAmong_congr : nameAmong rs = nameAmong rs' := by
  funext path
  have hdir := exists_mem_iff_of_perm h (P := fun r => r.package = externalPath) fun _ => Iff.rfl
  have hnone : (∀ r ∈ rs, r.package ≠ externalPath) ↔ ∀ r ∈ rs', r.package ≠ externalPath := by
    simpa using not_congr hdir
  simp only [nameAmong, hnone]

theorem undefinedNames_perm : (undefinedNames rs).Perm (undefinedNames rs') := by
  refine (List.perm_ext_iff_of_nodup (undefinedNames_inOrder rs).nodup
    (undefinedNames_inOrder rs').nodup).mpr ?_
  intro n
  have hreferred := exists_mem_iff_of_perm h (P := fun r => n ∈ r.references) fun _ => Iff.rfl
  have hdefined := exists_mem_iff_of_perm h (P := fun r => r.name = n) fun _ => Iff.rfl
  have hfree : (∀ r ∈ rs, r.name ≠ n) ↔ ∀ r ∈ rs', r.name ≠ n := by simpa using not_congr hdefined
  rw [mem_undefinedNames, mem_undefinedNames, hreferred, hfree]

theorem newStubs_perm (a b : Assembly) :
    ((a.newStubs rs).map (·.anonymous)).Perm ((b.newStubs rs').map (·.anonymous)) := by
  have hnamed : ∀ (a : Assembly) (rs : List ClassRecord), (a.newStubs rs).map (·.anonymous) =
      (undefinedNames rs).map fun n => (stub "" n externalPath).anonymous := by
    intro a rs
    rw [← names_newStubs a rs, List.map_map]
    apply List.map_congr_left
    intro c hc
    rw [eq_stub_of_mem_newStubs hc]
    rfl
  rw [hnamed, hnamed]
  exact (undefinedNames_perm h).map _

theorem classes_perm (a b : Assembly) :
    ((a.gather rs).1.classes.map (·.anonymous)).Perm ((b.gather rs').1.classes.map (·.anonymous)) := by
  rw [classes_gather, classes_gather, List.map_append, List.map_append]
  exact h.append (newStubs_perm h a b)

theorem paths_perm (ids ids' : Ids) :
    ((start ids).gather rs).2.paths.Perm ((start ids').gather rs').2.paths := by
  have hclasses := classes_perm h (start ids) (start ids')
  refine (List.perm_ext_iff_of_nodup (holds_start ids).gather.paths_nodup
    (holds_start ids').gather.paths_nodup).mpr ?_
  intro q
  rw [mem_paths_gather, mem_paths_gather,
    exists_mem_iff_of_perm hclasses (P := fun c => c.package = q) fun _ => Iff.rfl]
  simp [paths, start]

end Reordered

theorem filter_perm {cs ds : List ClassRecord} {p : ClassRecord → Bool}
    (h : (cs.map (·.anonymous)).Perm (ds.map (·.anonymous))) (hp : ∀ c, p c.anonymous = p c) :
    ((cs.filter p).map (·.anonymous)).Perm ((ds.filter p).map (·.anonymous)) := by
  have hfilter := h.filter p
  rw [List.filter_map, List.filter_map] at hfilter
  simpa only [Function.comp_def, hp] using hfilter

theorem classIds_gather {ids : Ids} {p : Package} (hp : p ∈ ((start ids).gather rs).1.packages) :
    p.classIds = (((start ids).gather rs).1.members p.path).map (·.id) := by
  rw [packages_gather] at hp
  exact (holds_start ids).gather.classIds_eq p hp

theorem listsFile_iff {ids : Ids} (hids : (((start ids).gather rs).1.classes.map (·.id)).Nodup)
    {file : String} : ((start ids).gather rs).1.ListsFile path file ↔
      ∃ c ∈ ((start ids).gather rs).1.members path, c.file = file := by
  have hholds := @Holds.gather _ _ rs (holds_start ids)
  constructor
  · rintro ⟨p, hp, rfl, c, hc, hlisted, hfile⟩
    rw [classIds_gather hp] at hlisted
    obtain ⟨d, hd, hid⟩ := List.mem_map.mp hlisted
    obtain rfl := List.inj_on_of_nodup_map hids (List.mem_of_mem_filter hd) hc hid
    exact ⟨d, hd, hfile⟩
  · rintro ⟨c, hc, hfile⟩
    obtain ⟨hc, hpath⟩ := List.mem_filter.mp hc
    obtain ⟨p, hp, hpp⟩ := List.mem_map.mp (hholds.package_mem c hc)
    rw [← packages_gather] at hp
    refine ⟨p, hp, hpp.trans (beq_iff_eq.mp hpath), c, hc, ?_, hfile⟩
    rw [classIds_gather hp]
    exact List.mem_map_of_mem (List.mem_filter.mpr ⟨hc, by simp [hpp]⟩)

/-- Two rounds over the same records, in any order and under any identifiers, gather the same. -/
theorem gather_reordered (ids ids' : Ids)
    (h : (rs.map (·.anonymous)).Perm (rs'.map (·.anonymous))) :
    ((start ids).gather rs).1.SameContent ((start ids').gather rs').1 := by
  have hclasses := classes_perm h (start ids) (start ids')
  have hmembers : ∀ path, ((((start ids).gather rs).1.members path).map (·.anonymous)).Perm
      ((((start ids').gather rs').1.members path).map (·.anonymous)) :=
    fun path => filter_perm hclasses fun _ => rfl
  have hfiles : ∀ path, ((((start ids).gather rs).1.members path).map (·.file)).Perm
      ((((start ids').gather rs').1.members path).map (·.file)) := by
    intro path
    simpa [Function.comp_def] using (hmembers path).map (·.file)
  constructor
  case packages =>
    rw [map_path_name_gather, map_path_name_gather, nameAmong_congr h]
    exact (paths_perm h ids ids').map _
  case lists => exact fun _ => classIds_gather
  case lists' => exact fun _ => classIds_gather
  case members => exact hmembers
  case files => exact hfiles
  case listedFiles =>
    intro hids hids' path file
    rw [listsFile_iff hids, listsFile_iff hids']
    simpa using (hfiles path).mem_iff (a := file)
  case stubs => exact filter_perm hclasses fun _ => rfl

/-- Names whose stubs compete for one identifier, and a directory that is called like the package of
stubs. -/
theorem gather_reordered_three_files :
    let rs := [extending "component_1" "Server" "src" ["net.Base", "Node"],
      extending "component_2" "Client" "external" ["net_Base"], extending "component_3" "Proxy" "src" []]
    let rs' := [extending "component_1" "Client" "external" ["net_Base"],
      extending "component_2" "Proxy" "src" [], extending "component_3" "Server" "src" ["net.Base", "Node"]]
    (rs.map (·.anonymous)).Perm (rs'.map (·.anonymous)) ∧
    ((start .sequential).gather rs).1.stubs.map (fun c => (c.id, c.name)) =
      [("external_net_base", "net.Base"), ("external_node", "Node"), ("external_net_base_3", "net_Base")] ∧
    ((start .sequential).gather rs').1.stubs.map (fun c => (c.id, c.name)) =
      [("external_net_base", "net_Base"), ("external_net_base_3", "net.Base"), ("external_node", "Node")] ∧
    ((start .sequential).gather rs).1.SameContent ((start .sequential).gather rs').1 := by
  intro rs rs'
  have hperm : (rs.map (·.anonymous)).Perm (rs'.map (·.anonymous)) := by decide +kernel
  exact ⟨hperm, by decide +kernel, by decide +kernel, gather_reordered _ _ hperm⟩

end Assembly
end ClassAtlas
