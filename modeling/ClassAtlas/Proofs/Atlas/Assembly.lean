import ClassAtlas.Atlas.Assembly
import ClassAtlas.Proofs.Atlas.Ids
import Mathlib.Data.List.Perm.Basic
/-!
# The steps of an assembly

A step finds a package, makes an empty one under an identifier that was free, or lists a class.
Two invariants are carried through all steps: what the packages hold, and which identifiers are in
use.
-/
namespace ClassAtlas.Assembly

def paths (a : Assembly) : List String := a.packages.map (·.path)
def packageIds (a : Assembly) : List String := a.packages.map (·.id)

/-- The identifiers of the classes of one package path, in order. -/
def idsAt (path : String) (cs : List ClassRecord) : List String :=
  (cs.filter (·.package == path)).map (·.id)

variable {a b : Assembly} {path id : String} {cs rs : List ClassRecord} {others : List String}

@[simp] theorem idsAt_append (path : String) (cs ds : List ClassRecord) :
    idsAt path (cs ++ ds) = idsAt path cs ++ idsAt path ds := by simp [idsAt]

theorem idsAt_eq_nil_iff : idsAt path cs = [] ↔ ∀ c ∈ cs, c.package ≠ path := by simp [idsAt]

theorem mem_idsAt : id ∈ idsAt path cs ↔ ∃ c ∈ cs, c.package = path ∧ c.id = id := by
  simp [idsAt, and_assoc]

theorem find?_eq_none_iff : a.find? path = none ↔ path ∉ a.paths := by simp [find?, paths]

theorem mem_paths_of_find?_eq_some {p : Package} (h : a.find? path = some p) : path ∈ a.paths := by
  have hpath : p.path = path := by simpa using List.find?_some h
  exact List.mem_map.mpr ⟨p, List.mem_of_find?_eq_some h, hpath⟩

/-- `b` is `a` when that has a package at the path; else it has an empty one there besides. -/
inductive Ensures (a : Assembly) (path : String) : Assembly → Prop where
  | found (present : path ∈ a.paths) : Ensures a path a
  | made {ids : Ids} {id name : String} (absent : path ∉ a.paths) (issues : a.ids.Issues id ids) :
      Ensures a path ⟨ids, a.packages ++ [⟨id, name, path, []⟩]⟩

theorem ensures_package (a : Assembly) (path : String) : a.Ensures path (a.package path).2 := by
  cases h : a.find? path with
  | some p =>
    simp only [package, h]
    exact .found (mem_paths_of_find?_eq_some h)
  | none =>
    simp only [package, h]
    exact .made (find?_eq_none_iff.mp h) (a.ids.issues_fresh _)

theorem ensures_externalPackage (a : Assembly) : a.Ensures externalPath a.externalPackage.2 := by
  cases h : a.find? externalPath with
  | some p =>
    simp only [externalPackage, h]
    exact .found (mem_paths_of_find?_eq_some h)
  | none =>
    simp only [externalPackage, h]
    exact .made (find?_eq_none_iff.mp h) (a.ids.issues_claimOrFresh _)

theorem Ensures.mem_paths_iff (h : a.Ensures path b) (q : String) :
    q ∈ b.paths ↔ q ∈ a.paths ∨ q = path := by
  cases h with
  | found present =>
    refine ⟨Or.inl, ?_⟩
    rintro (hq | rfl)
    · exact hq
    · exact present
  | made absent issues => simp [paths]

theorem Ensures.mem_paths (h : a.Ensures path b) : path ∈ b.paths := (h.mem_paths_iff path).mpr (Or.inr rfl)

@[simp] theorem paths_enlist : (a.enlist path id).paths = a.paths := by
  simp only [enlist, paths, List.map_map]
  exact List.map_congr_left fun p _ => by dsimp only [Function.comp]; split <;> rfl

@[simp] theorem packageIds_enlist : (a.enlist path id).packageIds = a.packageIds := by
  simp only [enlist, packageIds, List.map_map]
  exact List.map_congr_left fun p _ => by dsimp only [Function.comp]; split <;> rfl

@[simp] theorem ids_enlist : (a.enlist path id).ids = a.ids := rfl

section Stub
variable (id name path : String)

@[simp] theorem stub_package : (stub id name path).package = path := rfl
@[simp] theorem stub_external : (stub id name path).external = true := rfl
@[simp] theorem stub_references : (stub id name path).references = [] := rfl

end Stub

/-! ## What the packages hold -/

/-- The packages lie at different paths and hold exactly the classes `cs`, each one where it
belongs and in their order. -/
structure Holds (a : Assembly) (cs : List ClassRecord) : Prop where
  paths_nodup : a.paths.Nodup
  classIds_eq : ∀ p ∈ a.packages, p.classIds = idsAt p.path cs
  package_mem : ∀ c ∈ cs, c.package ∈ a.paths

theorem holds_start (ids : Ids) : (start ids).Holds [] := by
  constructor <;> simp [start, paths]

/-- Identifiers play no part in what packages hold. -/
theorem Holds.withIds (h : a.Holds cs) (ids : Ids) : Holds { a with ids } cs :=
  ⟨h.paths_nodup, h.classIds_eq, h.package_mem⟩

theorem Holds.ensures (h : a.Holds cs) (he : a.Ensures path b) : b.Holds cs := by
  cases he with
  | found _ => exact h
  | made absent issues =>
    constructor
    · simpa [paths] using List.nodup_append_comm.mp (List.nodup_cons.mpr ⟨absent, h.paths_nodup⟩)
    · intro p hp
      rcases List.mem_append.mp hp with hp | hp
      · exact h.classIds_eq p hp
      · obtain rfl := List.mem_singleton.mp hp
        -- No class belongs to the new package, for each has its package already.
        refine (idsAt_eq_nil_iff.mpr fun c hc hpath => absent ?_).symm
        have hmem := h.package_mem c hc
        rwa [hpath] at hmem
    · intro c hc
      have hmem := h.package_mem c hc
      simp only [paths, List.map_append, List.mem_append]
      exact Or.inl hmem

theorem Holds.enlist {c : ClassRecord} (h : a.Holds cs) (hc : c.package ∈ a.paths) :
    (a.enlist c.package c.id).Holds (cs ++ [c]) := by
  constructor
  · simpa using h.paths_nodup
  · intro p hp
    obtain ⟨q, hq, rfl⟩ := List.mem_map.mp hp
    by_cases hpath : q.path = c.package
    · simp [hpath, h.classIds_eq q hq, idsAt]
    · simp [hpath, h.classIds_eq q hq, idsAt, Ne.symm hpath]
  · intro d hd
    rw [paths_enlist]
    rcases List.mem_append.mp hd with hd | hd
    · exact h.package_mem d hd
    · exact List.mem_singleton.mp hd ▸ hc

theorem Holds.add {r : ClassRecord} (h : a.Holds cs) : (a.add r).Holds (cs ++ [r]) :=
  (h.ensures (a.ensures_package r.package)).enlist (a.ensures_package r.package).mem_paths

theorem Holds.addAll (h : a.Holds cs) : (rs.foldl Assembly.add a).Holds (cs ++ rs) := by
  induction rs generalizing a cs with
  | nil => simpa using h
  | cons r rs ih => simpa using ih h.add

theorem mem_paths_addAll (q : String) :
    q ∈ (rs.foldl add a).paths ↔ q ∈ a.paths ∨ ∃ r ∈ rs, r.package = q := by
  induction rs generalizing a with
  | nil => simp
  | cons r rs ih =>
    have hstep : q ∈ (a.add r).paths ↔ q ∈ a.paths ∨ q = r.package := by
      simpa [add] using (a.ensures_package r.package).mem_paths_iff q
    rw [List.foldl_cons, ih, hstep]
    simp [or_assoc, eq_comm]

theorem Holds.addStubs {names : List String} (h : a.Holds cs) (hext : externalPath ∈ a.paths) :
    (a.addStubs names).2.Holds (cs ++ (a.addStubs names).1) := by
  induction names generalizing a cs with
  | nil =>
    show a.Holds (cs ++ [])
    rwa [List.append_nil]
  | cons name names ih =>
    let record := stub (a.ids.claimOrFresh (stubId name)).1 name externalPath
    have hnext : (Assembly.enlist { a with ids := (a.ids.claimOrFresh (stubId name)).2 }
        externalPath record.id).Holds (cs ++ [record]) :=
      (h.withIds _).enlist (c := record) hext
    have hrest := ih hnext (by rw [paths_enlist]; exact hext)
    rw [List.append_assoc] at hrest
    exact hrest

theorem paths_addStubs (names : List String) : (a.addStubs names).2.paths = a.paths := by
  induction names generalizing a with
  | nil => rfl
  | cons name names ih => exact ih.trans paths_enlist

theorem names_addStubs (a : Assembly) (names : List String) : (a.addStubs names).1.map (·.name) = names := by
  induction names generalizing a with
  | nil => rfl
  | cons name names ih => exact congrArg (List.cons name) (ih _)

theorem eq_stub_of_mem_addStubs {names : List String} {c : ClassRecord} (h : c ∈ (a.addStubs names).1) :
    c = stub c.id c.name externalPath := by
  induction names generalizing a with
  | nil => cases h
  | cons name names ih =>
    rcases List.mem_cons.mp h with rfl | h
    · rfl
    · exact ih h

/-! ## Which identifiers are in use -/

/-- No identifier is in use twice, and those in use are those of the packages and `others`. -/
structure Accounts (a : Assembly) (others : List String) : Prop where
  nodup : a.ids.issued.Nodup
  perm : a.ids.issued.Perm (a.packageIds ++ others)

theorem accounts_start {ids : Ids} (unused : ids.issued = []) : (start ids).Accounts [] := by
  constructor <;> simp [start, unused, packageIds]

theorem Accounts.congr {more : List String} (h : a.Accounts others) (hp : others.Perm more) :
    a.Accounts more :=
  ⟨h.nodup, h.perm.trans (hp.append_left _)⟩

theorem Accounts.issue {ids : Ids} (h : a.Accounts others) (hi : a.ids.Issues id ids) :
    Accounts { a with ids } (id :: others) := by
  refine ⟨hi.nodup h.nodup, ?_⟩
  show ids.issued.Perm (a.packageIds ++ id :: others)
  rw [hi.issued_eq]
  exact (h.perm.cons id).trans List.perm_middle.symm

theorem Accounts.ensures (h : a.Accounts others) (he : a.Ensures path b) : b.Accounts others := by
  cases he with
  | found _ => exact h
  | made absent issues =>
    refine ⟨issues.nodup h.nodup, ?_⟩
    simp only [packageIds, List.map_append, List.map_cons, List.map_nil, issues.issued_eq]
    simpa [packageIds] using (h.perm.cons _).trans List.perm_middle.symm

theorem Accounts.enlist (h : a.Accounts others) : (a.enlist path id).Accounts others :=
  ⟨h.nodup, by simpa using h.perm⟩

theorem Accounts.add {r : ClassRecord} (h : a.Accounts others) : (a.add r).Accounts others :=
  (h.ensures (a.ensures_package r.package)).enlist

theorem Accounts.addAll (h : a.Accounts others) : (rs.foldl Assembly.add a).Accounts others := by
  induction rs generalizing a with
  | nil => exact h
  | cons r rs ih => exact ih h.add

theorem Accounts.addStubs {names : List String} (h : a.Accounts others) :
    (a.addStubs names).2.Accounts ((a.addStubs names).1.map (·.id) ++ others) := by
  induction names generalizing a others with
  | nil => exact h
  | cons name names ih =>
    have hissue := h.issue (a.ids.issues_claimOrFresh (stubId name))
    have hnext : (Assembly.enlist { a with ids := (a.ids.claimOrFresh (stubId name)).2 } externalPath
        (a.ids.claimOrFresh (stubId name)).1).Accounts _ := hissue.enlist
    exact (ih hnext).congr List.perm_middle

/-! ## A round of gathering -/

/-- The stubs that a round adds, and the assembly after it. -/
def stubbed (a : Assembly) (rs : List ClassRecord) : List ClassRecord × Assembly :=
  (rs.foldl add a).externalPackage.2.addStubs (undefinedNames rs)

theorem gather_eq_of_nil (h : undefinedNames rs = []) :
    a.gather rs = (⟨(rs.foldl add a).packages, rs⟩, rs.foldl add a) := by
  simp [gather, h]

theorem gather_eq_of_ne_nil (h : undefinedNames rs ≠ []) :
    a.gather rs = (⟨(a.stubbed rs).2.packages, rs ++ (a.stubbed rs).1⟩, (a.stubbed rs).2) := by
  unfold gather stubbed
  split
  · contradiction
  · rfl

theorem packages_gather (a : Assembly) (rs : List ClassRecord) :
    (a.gather rs).1.packages = (a.gather rs).2.packages := by
  by_cases h : undefinedNames rs = []
  · rw [gather_eq_of_nil h]
  · rw [gather_eq_of_ne_nil h]

/-- The stubs of a round come after its records. -/
def newStubs (a : Assembly) (rs : List ClassRecord) : List ClassRecord :=
  (a.gather rs).1.classes.drop rs.length

theorem newStubs_eq_of_nil (h : undefinedNames rs = []) : a.newStubs rs = [] := by
  simp [newStubs, gather_eq_of_nil h]

theorem newStubs_eq_of_ne_nil (h : undefinedNames rs ≠ []) : a.newStubs rs = (a.stubbed rs).1 := by
  simp [newStubs, gather_eq_of_ne_nil h]

theorem classes_gather (a : Assembly) (rs : List ClassRecord) :
    (a.gather rs).1.classes = rs ++ a.newStubs rs := by
  by_cases h : undefinedNames rs = []
  · simp [newStubs, gather_eq_of_nil h]
  · simp [newStubs, gather_eq_of_ne_nil h]

theorem names_newStubs (a : Assembly) (rs : List ClassRecord) :
    (a.newStubs rs).map (·.name) = undefinedNames rs := by
  by_cases h : undefinedNames rs = []
  · simp [newStubs_eq_of_nil h, h]
  · rw [newStubs_eq_of_ne_nil h]
    exact names_addStubs _ _

theorem eq_stub_of_mem_newStubs {c : ClassRecord} (h : c ∈ a.newStubs rs) :
    c = stub c.id c.name externalPath := by
  by_cases hnames : undefinedNames rs = []
  · simp [newStubs_eq_of_nil hnames] at h
  · rw [newStubs_eq_of_ne_nil hnames] at h
    exact eq_stub_of_mem_addStubs h

/-- The external package is used only when there is a stub for it. -/
theorem mem_paths_gather (a : Assembly) (rs : List ClassRecord) (q : String) :
    q ∈ (a.gather rs).2.paths ↔ q ∈ a.paths ∨ ∃ c ∈ (a.gather rs).1.classes, c.package = q := by
  rw [classes_gather]
  by_cases h : undefinedNames rs = []
  · simp [newStubs_eq_of_nil h, gather_eq_of_nil h, mem_paths_addAll]
  · have hstub : (∃ c ∈ a.newStubs rs, c.package = q) ↔ q = externalPath := by
      constructor
      · rintro ⟨c, hc, rfl⟩
        rw [eq_stub_of_mem_newStubs hc, stub_package]
      · rintro rfl
        have hne : a.newStubs rs ≠ [] := by
          intro hnil
          exact h (by rw [← names_newStubs a rs, hnil, List.map_nil])
        obtain ⟨c, hc⟩ := List.exists_mem_of_ne_nil _ hne
        exact ⟨c, hc, by rw [eq_stub_of_mem_newStubs hc, stub_package]⟩
    simp only [List.mem_append, or_and_right, exists_or, hstub, gather_eq_of_ne_nil h, stubbed,
      paths_addStubs, (ensures_externalPackage _).mem_paths_iff, mem_paths_addAll, or_assoc]

theorem Holds.gather (h : a.Holds cs) :
    (a.gather rs).2.Holds (cs ++ (a.gather rs).1.classes) := by
  by_cases hnames : undefinedNames rs = []
  · simpa [gather_eq_of_nil hnames] using h.addAll
  · have hext := ensures_externalPackage (rs.foldl Assembly.add a)
    simpa [gather_eq_of_ne_nil hnames, stubbed] using
      (h.addAll.ensures hext).addStubs hext.mem_paths

theorem Accounts.gather (h : a.Accounts others) :
    (a.gather rs).2.Accounts ((a.newStubs rs).map (·.id) ++ others) := by
  by_cases hnames : undefinedNames rs = []
  · rw [newStubs_eq_of_nil hnames, gather_eq_of_nil hnames]
    exact h.addAll
  · rw [newStubs_eq_of_ne_nil hnames, gather_eq_of_ne_nil hnames]
    exact (h.addAll.ensures (ensures_externalPackage _)).addStubs

/-! ## Whatever was issued before -/

theorem Ensures.issued_subset (h : a.Ensures path b) : a.ids.issued ⊆ b.ids.issued := by
  cases h with
  | found _ => exact List.Subset.refl _
  | made _ issues =>
    rw [issues.issued_eq]
    exact List.subset_cons_self _ _

theorem issued_subset_addAll : a.ids.issued ⊆ (rs.foldl add a).ids.issued := by
  induction rs generalizing a with
  | nil => exact List.Subset.refl _
  | cons r rs ih =>
    have hstep : a.ids.issued ⊆ (a.add r).ids.issued := (a.ensures_package r.package).issued_subset
    exact List.Subset.trans hstep ih

theorem addStubs_ids (a : Assembly) (names : List String) :
    ((a.addStubs names).1.map (·.id)).Nodup ∧ ∀ c ∈ (a.addStubs names).1, c.id ∉ a.ids.issued := by
  induction names generalizing a with
  | nil => exact ⟨List.nodup_nil, fun c hc => by cases hc⟩
  | cons name names ih =>
    have hissues := a.ids.issues_claimOrFresh (stubId name)
    obtain ⟨hnodup, hfree⟩ := ih (enlist { a with ids := (a.ids.claimOrFresh (stubId name)).2 } externalPath
      (a.ids.claimOrFresh (stubId name)).1)
    rw [ids_enlist, hissues.issued_eq] at hfree
    constructor
    · refine List.nodup_cons.mpr ⟨fun hmem => ?_, hnodup⟩
      obtain ⟨c, hc, hid⟩ := List.mem_map.mp hmem
      exact hfree c hc (by rw [hid]; exact List.mem_cons_self)
    · intro c hc
      rcases List.mem_cons.mp hc with rfl | hc
      · exact hissues.free
      · exact fun hissued => hfree c hc (List.mem_cons_of_mem _ hissued)

/-- Identifiers tell the classes of a round apart when those of its records were issued for them. -/
theorem ids_gather_nodup (hissued : ∀ r ∈ rs, r.id ∈ a.ids.issued) (hnodup : (rs.map (·.id)).Nodup) :
    ((a.gather rs).1.classes.map (·.id)).Nodup := by
  by_cases hnames : undefinedNames rs = []
  · rw [gather_eq_of_nil hnames]
    exact hnodup
  · rw [gather_eq_of_ne_nil hnames, List.map_append]
    obtain ⟨hstubs, hfree⟩ := addStubs_ids (rs.foldl add a).externalPackage.2 (undefinedNames rs)
    refine List.Nodup.append hnodup hstubs ?_
    rw [List.disjoint_iff_ne]
    rintro _ hid id' hid' rfl
    obtain ⟨r, hr, rfl⟩ := List.mem_map.mp hid
    obtain ⟨c, hc, hsame⟩ := List.mem_map.mp hid'
    have hgrown : a.ids.issued ⊆ (rs.foldl add a).externalPackage.2.ids.issued :=
      List.Subset.trans issued_subset_addAll (ensures_externalPackage _).issued_subset
    have htaken := hgrown (hissued r hr)
    rw [← hsame] at htaken
    exact hfree c hc htaken

end ClassAtlas.Assembly
