import ClassAtlas.Proofs.Atlas.Assembly
/-!
# Packages partition the classes

Rounds of gathering share one assembly. Each record brings an identifier that was drawn for it, and
between the rounds identifiers are drawn and claimed at will. However package paths alternate,
every class ends up in one package, once.
-/
namespace ClassAtlas.Assembly

/-- The rounds `gs` led to an assembly; `spare` are the drawn identifiers that no record bears. -/
inductive Rounds : Assembly → List String → List Gathering → Prop where
  | start {ids : Ids} (unused : ids.issued = []) : Rounds (start ids) [] []
  | fresh {a spare gs} (before : Rounds a spare gs) (stem : String) :
      Rounds { a with ids := (a.ids.fresh stem).2 } ((a.ids.fresh stem).1 :: spare) gs
  | claim {a spare gs} (before : Rounds a spare gs) (id : String) :
      Rounds { a with ids := (a.ids.claim id).2 } spare gs
  /-- Each record takes an identifier of its own. -/
  | gather {a spare gs rs left} (before : Rounds a spare gs)
      (takes : spare.Perm (rs.map (·.id) ++ left)) :
      Rounds (a.gather rs).2 left (gs ++ [(a.gather rs).1])

/-- Each class of each round is in one package, once, and packages list theirs in order. -/
structure Partitioned (packages : List Package) (gs : List Gathering) : Prop where
  paths_nodup : (packages.map (·.path)).Nodup
  classIds_ne_nil : ∀ p ∈ packages, p.classIds ≠ []
  classIds_eq : ∀ p ∈ packages, p.classIds =
    gs.flatMap fun g => (g.classes.filter (·.package == p.path)).map (·.id)
  unique : ∀ g ∈ gs, ∀ c ∈ g.classes, ∃ p ∈ packages, p.path = c.package ∧
    p.classIds.count c.id = 1 ∧ ∀ q ∈ packages, c.id ∈ q.classIds → q = p

variable {a : Assembly} {spare : List String} {gs : List Gathering}

theorem Rounds.holds (h : Rounds a spare gs) : a.Holds (gs.flatMap (·.classes)) := by
  induction h with
  | start unused => exact holds_start _
  | fresh _ stem ih => exact ih.withIds _
  | claim _ id ih => exact ih.withIds _
  | gather _ takes ih => simpa using ih.gather

/-- A package is made only for a class. -/
theorem Rounds.mem_paths_iff (h : Rounds a spare gs) (q : String) :
    q ∈ a.paths ↔ ∃ g ∈ gs, ∃ c ∈ g.classes, c.package = q := by
  induction h with
  | start unused => simp [Assembly.start, paths]
  | fresh _ stem ih => exact ih
  | claim _ id ih => exact ih
  | gather _ takes ih => simp [mem_paths_gather, ih, or_and_right, exists_or]

/-- What is in use besides the packages: the classes, the spare identifiers, and those claimed. -/
theorem Rounds.accounts (h : Rounds a spare gs) : ∃ claimed,
    a.Accounts ((gs.flatMap (·.classes)).map (·.id) ++ spare ++ claimed) := by
  induction h with
  | start unused => exact ⟨[], accounts_start unused⟩
  | @fresh a spare gs _ stem ih =>
    obtain ⟨claimed, ih⟩ := ih
    refine ⟨claimed, (ih.issue (a.ids.issues_fresh stem)).congr ?_⟩
    simpa using List.perm_middle.symm
  | @claim a spare gs _ id ih =>
    obtain ⟨claimed, ih⟩ := ih
    rcases a.ids.claim_cases id with ⟨next, heq, hissues⟩ | ⟨heq, _⟩
    · refine ⟨id :: claimed, ?_⟩
      rw [heq]
      exact (ih.issue hissues).congr List.perm_middle.symm
    · exact ⟨claimed, by rwa [heq]⟩
  | @gather a spare gs rs left _ takes ih =>
    obtain ⟨claimed, ih⟩ := ih
    refine ⟨claimed, ih.gather.congr (List.perm_iff_count.mpr fun x => ?_)⟩
    have hspare := takes.count_eq x
    simp only [List.flatMap_append, List.flatMap_singleton, classes_gather, List.map_append,
      List.count_append] at hspare ⊢
    omega

theorem Rounds.ids_nodup (h : Rounds a spare gs) :
    ((gs.flatMap (·.classes)).map (·.id)).Nodup := by
  obtain ⟨claimed, haccounts⟩ := h.accounts
  have hall := haccounts.perm.nodup_iff.mp haccounts.nodup
  exact (List.nodup_append.mp (List.nodup_append.mp (List.nodup_append.mp hall).2.1).1).1

theorem Rounds.packages_getLast (h : Rounds a spare gs) : ∀ g ∈ gs.getLast?, g.packages = a.packages := by
  induction h with
  | start unused => simp
  | fresh _ stem ih => exact ih
  | claim _ id ih => exact ih
  | gather _ takes ih => simp [packages_gather]

/-- After any rounds the packages partition the classes, and they are those of the last round. -/
theorem packages_partition_classes (h : Rounds a spare gs) :
    Partitioned a.packages gs ∧ ∀ g ∈ gs.getLast?, g.packages = a.packages := by
  have hholds := h.holds
  have hnodup := h.ids_nodup
  have hflat : ∀ path, idsAt path (gs.flatMap (·.classes)) =
      gs.flatMap fun g => (g.classes.filter (·.package == path)).map (·.id) := by
    intro path
    simp [idsAt, List.filter_flatMap, List.map_flatMap]
  refine ⟨⟨hholds.paths_nodup, ?_, ?_, ?_⟩, h.packages_getLast⟩
  · intro p hp hnil
    obtain ⟨g, hg, c, hc, hpath⟩ := (h.mem_paths_iff p.path).mp (List.mem_map_of_mem hp)
    have hempty := idsAt_eq_nil_iff.mp ((hholds.classIds_eq p hp).symm.trans hnil)
    exact hempty c (List.mem_flatMap.mpr ⟨g, hg, hc⟩) hpath
  · intro p hp
    exact (hholds.classIds_eq p hp).trans (hflat p.path)
  · intro g hg c hc
    have hmem : c ∈ gs.flatMap (·.classes) := List.mem_flatMap.mpr ⟨g, hg, hc⟩
    obtain ⟨p, hp, hpath⟩ := List.mem_map.mp (hholds.package_mem c hmem)
    have hin : c.id ∈ p.classIds := by
      rw [hholds.classIds_eq p hp]
      exact mem_idsAt.mpr ⟨c, hmem, hpath.symm, rfl⟩
    have hsub : p.classIds.Sublist ((gs.flatMap (·.classes)).map (·.id)) := by
      rw [hholds.classIds_eq p hp]
      exact List.filter_sublist.map _
    refine ⟨p, hp, hpath, List.count_eq_one_of_mem (hnodup.sublist hsub) hin, ?_⟩
    intro q hq hqin
    rw [hholds.classIds_eq q hq] at hqin
    obtain ⟨d, hd, hdpath, hdid⟩ := mem_idsAt.mp hqin
    -- Identifiers tell classes apart, and paths tell packages apart.
    obtain rfl := List.inj_on_of_nodup_map hnodup hd hmem hdid
    exact List.inj_on_of_nodup_map hholds.paths_nodup hq hp (hdpath.symm.trans hpath.symm)

/-- A record that extends some names and has nothing else to it. -/
def extending (id name package : String) (parents : List String) : ClassRecord :=
  { stub id name package with parents, external := false }

/-- A directory that is called like the package of stubs, a stub's name that is taken, and records
that come in another order than their identifiers. -/
theorem packages_partition_two_rounds : ∃ a gs, Rounds a [] gs ∧
    a.packages.map (fun p => (p.path, p.classIds)) =
      [("external", ["component_2", "external_base_6", "external_base_7"]),
        ("src", ["component_1", "component_3"])] ∧
    Partitioned a.packages gs ∧ ∀ g ∈ gs.getLast?, g.packages = a.packages := by
  have hstart : Rounds (.start .sequential) [] [] := .start rfl
  have hdrawn := ((hstart.fresh "component").fresh "component").fresh "component"
  have hfirst := @Rounds.gather _ _ _ [extending "component_2" "Client" "external" ["Base"],
    extending "component_1" "Server" "src" ["Base"]] ["component_3"] (hdrawn.claim "external_base")
    (by decide +kernel)
  have hlast := @Rounds.gather _ _ _ [extending "component_3" "Proxy" "src" ["Base"]] [] hfirst
    (by decide +kernel)
  exact ⟨_, _, hlast, by decide +kernel, packages_partition_classes hlast⟩

end ClassAtlas.Assembly
