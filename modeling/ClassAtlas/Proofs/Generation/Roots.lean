import ClassAtlas.Proofs.Generation.Stopping
import ClassAtlas.Proofs.Host.Names
import ClassAtlas.Proofs.Settings.Failing
/-!
# What becomes of a request

The path of a request leads to a place, unless it has a null character in it or names a user without a home. What
stands at the place, the settings there and what can stop the work decide what becomes of the request.
-/
namespace ClassAtlas.Generation

open ClassAtlas.Action

variable {h : Host} {text : String} {place : Location} {node : Node} {q : Request} {s : Settings} {f : Failure}

/-! ## Where a path leads -/

/-- The text is that of a path, and the path is resolved to the place. -/
structure Comes (h : Host) (text : String) (place : Location) : Prop where
  noNul : hasNul (Path.ofString text) = false
  resolved : ∃ p, (expandHome (Path.ofString text)).on h = (.ok p, h) ∧ h.files.resolve h.cwd p = place

theorem Comes.unique {other : Location} (hcomes : Comes h text place) (hother : Comes h text other) : place = other := by
  obtain ⟨p, hexpanded, rfl⟩ := hcomes.resolved
  obtain ⟨p', hexpanded', rfl⟩ := hother.resolved
  cases hexpanded.symm.trans hexpanded'
  rfl

theorem Comes.hasNul_pathOf (hcomes : Comes h text place) (ht : h.files.WellFormed) (hclean : Clean h) :
    hasNul (pathOf place) = false := by
  obtain ⟨p, hexpanded, rfl⟩ := hcomes.resolved
  have hnul : hasNul p = false := (hasNul_of_expandHome hclean hexpanded).trans hcomes.noNul
  exact hasNul_of_resolve ht hclean hnul

/-- A path with a null character is refused, and so is one that begins with a user who has no home. -/
theorem rootOf_cases (text : String) (hclean : Clean h) :
    (∃ place, Comes h text place) ∨
      ∃ f, (rootOf (Path.ofString text)).on h = (.error f, h) ∧ (f = .nulInPath ∨ f = .noHome) ∧
        (hasNul (Path.ofString text) = true ∨ (expandHome (Path.ofString text)).on h = (.error .noHome, h)) := by
  rcases hexpanded : (expandHome (Path.ofString text)).on h with ⟨result, next⟩
  have hsame := asks_expandHome (Path.ofString text) h
  rw [hexpanded] at hsame
  obtain rfl : next = h := hsame
  cases result with
  | error f =>
    refine .inr ⟨f, on_bind_of_error hexpanded _, ?_⟩
    rcases expandHome_failed hexpanded with ⟨rfl, hnul⟩ | rfl
    · exact ⟨.inl rfl, .inl hnul⟩
    · exact ⟨.inr rfl, .inr rfl⟩
  | ok p =>
    have hsame := hasNul_of_expandHome hclean hexpanded
    cases hnul : hasNul p with
    | false => exact .inl ⟨_, hsame.symm.trans hnul, p, hexpanded, rfl⟩
    | true =>
      refine .inr ⟨.nulInPath, ?_, .inl rfl, .inl (hsame.symm.trans hnul)⟩
      rw [rootOf, on_bind_of_ok hexpanded, resolve, refuseNul, hnul]
      rfl

/-- The root of a project is the place that its path leads to, if something is found there. -/
theorem on_rootOf_of_comes (hcomes : Comes h text place) (ht : h.files.WellFormed) (hclean : Clean h) :
    (rootOf (Path.ofString text)).on h = (match h.files.lookup h.cwd true (pathOf place) with
      | .ok _ => .ok (pathOf place)
      | .error .linkLoop => .error (.linkLoop (pathOf place).toString)
      | .error .nameTooLong => .error (.file (.system .nameTooLong (.path (pathOf place).toString)))
      | .error _ => .error (.missingRoot (pathOf place).toString), h) := by
  have hnul := hcomes.hasNul_pathOf ht hclean
  obtain ⟨p, hexpanded, rfl⟩ := hcomes.resolved
  have hp : hasNul p = false := (hasNul_of_expandHome hclean hexpanded).trans hcomes.noNul
  have hresolved := on_resolve_eq hp h
  have hexists := on_probe hnul true (fun _ => true) h
  rw [rootOf, on_bind_of_ok hexpanded]
  cases hlookup : h.files.lookup h.cwd true (pathOf (h.files.resolve h.cwd p)) with
  | ok found =>
    rw [hlookup] at hresolved hexists
    rw [on_bind_of_ok hresolved, pathExists, on_bind_of_ok hexists]
    rfl
  | error errno =>
    rw [hlookup] at hresolved hexists
    cases errno <;> first
      | exact on_bind_of_error hresolved _
      | (rw [on_bind_of_ok hresolved]; exact on_bind_of_error hexists _)
      | (rw [on_bind_of_ok hresolved, pathExists, on_bind_of_ok hexists]; rfl)

/-! ## What is found there -/

/-- The path leads to a place, and the node stands there. -/
structure Found (h : Host) (text : String) (place : Location) (node : Node) : Prop where
  comes : Comes h text place
  seen : h.files.lookup h.cwd true (pathOf place) = .ok (place, node)

/-- Nothing but what stands at the place is found there. This is so unless the path passes through a loop of links
and leaves it by double dots. -/
def Straight (h : Host) (text : String) : Prop :=
  ∀ place found, Comes h text place → h.files.lookup h.cwd true (pathOf place) = .ok found → found.1 = place

namespace Found

theorem unique {other : Location} {node' : Node} (hfound : Found h text place node) (hother : Found h text other node') :
    place = other ∧ node = node' := by
  obtain rfl := hfound.comes.unique hother.comes
  cases hfound.seen.symm.trans hother.seen
  exact ⟨rfl, rfl⟩

theorem on_rootOf (hfound : Found h text place node) (ht : h.files.WellFormed) (hclean : Clean h) :
    (rootOf (Path.ofString text)).on h = (.ok (pathOf place), h) := by
  rw [on_rootOf_of_comes hfound.comes ht hclean, hfound.seen]

theorem at? (hfound : Found h text place node) : h.files.at? place = some node :=
  (FileTree.locate_of_lookup hfound.seen).2

/-- There is no link on the way to the place. -/
theorem noLinks (hfound : Found h text place node) (ht : h.files.WellFormed) (hclean : Clean h) :
    ∀ above, above <+: place → ∀ target, h.files.at? above ≠ some (.link target) := by
  have hhoused := FileTree.Housed.of_wellFormed ht hclean.cwd
  have hlocated := (FileTree.locate_of_lookup hfound.seen).1
  intro above habove target hlink
  rcases List.eq_nil_or_concat place with rfl | ⟨here, name, rfl⟩
  · rw [List.prefix_nil.mp habove] at hlink
    cases hlink
  · rw [List.concat_eq_append] at hlocated habove hfound
    rcases List.prefix_concat_iff.mp habove with rfl | habove
    · rw [FileTree.locate] at hlocated
      split at hlocated
      · cases hlocated
      · exact hhoused.not_link_of_walk _ _ _ (FileTree.directoryAt_root _) hlocated target hlink
    · obtain ⟨locked, hdirectory⟩ := (ht.paved (ht.parent hfound.at?).2).directories habove
      cases hdirectory.symm.trans hlink

theorem on_resolve (hfound : Found h text place node) (ht : h.files.WellFormed) (hclean : Clean h) :
    (resolve (pathOf place)).on h = (.ok (pathOf place), h) := by
  have hdots : ".." ∉ place := fun hmem => (ht.isName_of_mem hfound.at? _ hmem).notDots rfl
  refine Action.on_resolve (Action.hasNul_pathOf ht hfound.at?)
    (FileTree.resolve_of_noLinks h.cwd hdots (hfound.noLinks ht hclean)) ?_
  rw [hfound.seen]
  exact fun hloop => by cases hloop

/-- The text of the place is that of a path to it. -/
theorem on_expandHome (hfound : Found h text place node) (ht : h.files.WellFormed) :
    (expandHome (Path.ofString (pathOf place).toString)).on h = (.ok (pathOf place), h) := by
  have hback : Path.ofString (pathOf place).toString = pathOf place :=
    Path.ofString_toString_root (ht.isName_of_mem hfound.at?)
  rw [hback]
  rfl

theorem leadsTo {locked : Bool} (hfound : Found h text place (.directory locked)) (ht : h.files.WellFormed)
    (hclean : Clean h) : Discovery.LeadsTo h (pathOf place).toString place :=
  ⟨⟨pathOf place, hfound.on_expandHome ht, hfound.on_resolve ht hclean⟩,
    on_probe_of_found (Action.hasNul_pathOf ht hfound.at?) hfound.seen Node.isDirectory⟩

/-- The search refuses a root that is no directory, also with notes taken. -/
theorem on_sourceFiles_of_no_directory {noted : Host} (hfound : Found h text place node) (ht : h.files.WellFormed)
    (hclean : Clean h) (hnode : node.isDirectory = false) (hnoted : h.Noted noted) (included excluded : List String) :
    (Discovery.sourceFiles (pathOf place).toString included excluded).on noted =
      (.error (.rootNotDirectory (pathOf place).toString), noted) := by
  have hnul := Action.hasNul_pathOf ht hfound.at?
  have hexpanded := (steady_expandHome _).on_noted (asks_expandHome _) hnoted ht (hfound.on_expandHome ht)
  have hresolved := (steady_resolve _).on_noted (asks_resolve _) hnoted ht (hfound.on_resolve ht hclean)
  have hexists := (steady_pathExists _).on_noted (asks_probe _ _ _) hnoted ht
    (on_probe_of_found hnul hfound.seen fun _ => true)
  have hdirectory := (steady_isDirectory _).on_noted (asks_probe _ _ _) hnoted ht
    (on_probe_of_found hnul hfound.seen Node.isDirectory)
  rw [hnode] at hdirectory
  rw [Discovery.sourceFiles, on_bind_of_ok hexpanded, on_bind_of_ok hresolved, on_bind_of_ok hexists]
  simp only [Bool.not_true, Bool.false_eq_true, if_false]
  rw [on_bind_of_ok hdirectory]
  rfl

theorem ofSettings_of_no_directory (hfound : Found h text place node) (ht : h.files.WellFormed) (hclean : Clean h)
    (hnode : node.isDirectory = false) (ids : Ids) (q : Request) (s : Settings) : ∃ next,
      (ofSettings ids (pathOf place) q s).on h = (.error (.rootNotDirectory (pathOf place).toString), next) := by
  obtain ⟨noted, rest, hnoted, hsearch⟩ := ofSettings_eq_search ids (pathOf place) q s h
  refine ⟨noted, ?_⟩
  rw [hsearch]
  exact on_bind_of_error (hfound.on_sourceFiles_of_no_directory ht hclean hnode hnoted _ _) _

end Found

/-! ## What becomes of a request -/

/-- The path of the request leads to a place where nothing is. -/
def Nowhere (h : Host) (q : Request) : Prop :=
  ∃ place, Comes h q.path place ∧ (h.files.lookup h.cwd true (pathOf place) = .error .noEntry ∨
    h.files.lookup h.cwd true (pathOf place) = .error .notDirectory)

/-- Something is there, and it is no directory or has settings that are no good. -/
inductive Refused (h : Host) (q : Request) : Prop where
  | settings {place : Location} {node : Node} {fault : SettingsFault} (found : Found h q.path place node)
      (refuses : (Settings.load (pathOf place)).on h = (.error (.settings fault), h)) : Refused h q
  | noDirectory {place : Location} {node : Node} {s : Settings} (found : Found h q.path place node)
      (loads : (Settings.load (pathOf place)).on h = (.ok s, h)) (plain : node.isDirectory = false) : Refused h q

/-- What nobody who answers a request reckons with. -/
inductive Unforeseen (h : Host) (q : Request) : Prop where
  | nul (character : hasNul (Path.ofString q.path) = true) : Unforeseen h q
  | homeless (user : (expandHome (Path.ofString q.path)).on h = (.error .noHome, h)) : Unforeseen h q
  | loop {place : Location} (comes : Comes h q.path place)
      (links : h.files.lookup h.cwd true (pathOf place) = .error .linkLoop) : Unforeseen h q
  | long {place : Location} (comes : Comes h q.path place)
      (name : h.files.lookup h.cwd true (pathOf place) = .error .nameTooLong) : Unforeseen h q
  | settings {place : Location} {node : Node} {f : Failure} (found : Found h q.path place node)
      (untold : Settings.Untold h (pathOf place) f) : Unforeseen h q
  | stops {place : Location} {locked : Bool} {s : Settings} {f : Failure}
      (found : Found h q.path place (.directory locked)) (loads : (Settings.load (pathOf place)).on h = (.ok s, h))
      (stops : Stops h (pathOf place) place q s f) : Unforeseen h q

theorem Stops.not_projectTrouble {root : Path} (hstops : Stops h root place q s f) : f.isProjectTrouble = false := by
  cases hstops with
  | file listed wanted stalls => cases stalls <;> rfl
  | manifest untold => cases untold <;> rfl
  | clock unstamped => rfl

theorem not_projectTrouble_of_untold {root : Path} (hu : Settings.Untold h root f) : f.isProjectTrouble = false := by
  rcases hu.kind with hlookup | hvalue
  · cases hlookup <;> rfl
  · cases f <;> first | rfl | cases hvalue

theorem not_comes_of_unplaced (hnone : hasNul (Path.ofString q.path) = true ∨
    (expandHome (Path.ofString q.path)).on h = (.error .noHome, h)) : ¬ Comes h q.path place := by
  rintro ⟨hnul, p, hexpanded, _⟩
  rcases hnone with hnone | hnone
  · cases hnul.symm.trans hnone
  · cases hexpanded.symm.trans hnone

variable {ids : Ids}

theorem generate_of_nowhere (ht : h.files.WellFormed) (hclean : Clean h) (hnowhere : Nowhere h q) (ids : Ids) :
    ∃ f, (generate ids q).on h = (.error f, h) ∧ f.isMissing = true := by
  obtain ⟨place, hcomes, hnothing⟩ := hnowhere
  have hroot := on_rootOf_of_comes hcomes ht hclean
  rcases hnothing with hnothing | hnothing
  · rw [hnothing] at hroot
    exact ⟨_, on_bind_of_error hroot _, rfl⟩
  · rw [hnothing] at hroot
    exact ⟨_, on_bind_of_error hroot _, rfl⟩

theorem generate_of_refused (ht : h.files.WellFormed) (hclean : Clean h) (hrefused : Refused h q) (ids : Ids) :
    ∃ f next, (generate ids q).on h = (.error f, next) ∧ f.isMissing = false ∧
      (f.isNoDirectory || f.isSettings) = true := by
  cases hrefused with
  | @settings place node fault found refuses =>
    refine ⟨.settings fault, h, ?_, rfl, rfl⟩
    rw [generate, on_bind_of_ok (found.on_rootOf ht hclean)]
    exact on_bind_of_error refuses _
  | @noDirectory place node s found loads plain =>
    obtain ⟨next, hrun⟩ := found.ofSettings_of_no_directory ht hclean plain ids q s
    refine ⟨.rootNotDirectory (pathOf place).toString, next, ?_, rfl, rfl⟩
    rw [generate, on_bind_of_ok (found.on_rootOf ht hclean), on_bind_of_ok loads]
    exact hrun

/-- A request that is as usual: its path is straight, and the log is not written to a manifest that is read. -/
structure Regular (h : Host) (q : Request) : Prop where
  straight : Straight h q.path
  unlogged : ∀ {place node}, Found h q.path place node → Manifest.Unlogged h (pathOf place)

/-- Of a project that is found with its settings a snapshot is put together unless there is cause to stop. -/
theorem hingesOn_generate {locked : Bool} (hregular : Regular h q) (ht : h.files.WellFormed) (hclean : Clean h)
    (hgit : History.Tolerable h.git) (hfound : Found h q.path place (.directory locked))
    (hload : (Settings.load (pathOf place)).on h = (.ok s, h)) (ids : Ids) :
    HingesOn (Stops h (pathOf place) place q s) (generate ids q) h := by
  have hnul : hasNul ((pathOf place).child Manifest.fileName) = false :=
    hasNul_path_child (Action.hasNul_pathOf ht hfound.at?) (by decide)
  exact .after (hfound.on_rootOf ht hclean) (.after hload
    (hingesOn_ofSettings ht (hfound.leadsTo ht hclean) hgit hnul (hregular.unlogged hfound) ids))

theorem generate_of_unforeseen (hregular : Regular h q) (ht : h.files.WellFormed) (hclean : Clean h)
    (hgit : History.Tolerable h.git) (hunforeseen : Unforeseen h q) (ids : Ids) :
    ∃ f next, (generate ids q).on h = (.error f, next) ∧ f.isProjectTrouble = false := by
  have hunplaced : (hasNul (Path.ofString q.path) = true ∨
      (expandHome (Path.ofString q.path)).on h = (.error .noHome, h)) →
      ∃ f next, (generate ids q).on h = (.error f, next) ∧ f.isProjectTrouble = false := by
    intro hnone
    rcases rootOf_cases q.path hclean with ⟨place, hcomes⟩ | ⟨f, hroot, hkind, _⟩
    · exact absurd hcomes (not_comes_of_unplaced hnone)
    · refine ⟨f, h, on_bind_of_error hroot _, ?_⟩
      rcases hkind with rfl | rfl <;> rfl
  cases hunforeseen with
  | nul character => exact hunplaced (.inl character)
  | homeless user => exact hunplaced (.inr user)
  | loop comes links =>
    have hroot := on_rootOf_of_comes comes ht hclean
    rw [links] at hroot
    exact ⟨_, h, on_bind_of_error hroot _, rfl⟩
  | long comes name =>
    have hroot := on_rootOf_of_comes comes ht hclean
    rw [name] at hroot
    exact ⟨_, h, on_bind_of_error hroot _, rfl⟩
  | settings found untold =>
    refine ⟨_, h, ?_, not_projectTrouble_of_untold untold⟩
    rw [generate, on_bind_of_ok (found.on_rootOf ht hclean)]
    exact on_bind_of_error untold.on_load _
  | stops found loads stops =>
    rcases hingesOn_generate hregular ht hclean hgit found loads ids with ⟨_, hnone⟩ | ⟨f, next, hrun, hstops⟩
    · exact absurd stops (hnone _)
    · exact ⟨f, next, hrun, hstops.not_projectTrouble⟩

/-- Every other request gives a snapshot. -/
theorem generate_of_regular (hregular : Regular h q) (ht : h.files.WellFormed) (hclean : Clean h)
    (hgit : History.Tolerable h.git) (hsomewhere : ¬ Nowhere h q) (haccepted : ¬ Refused h q)
    (hforeseen : ¬ Unforeseen h q) (ids : Ids) : (generate ids q).Returns h := by
  rcases rootOf_cases q.path hclean with ⟨place, hcomes⟩ | ⟨_, _, _, hnul | huser⟩
  case inr.inl => exact absurd (.nul hnul) hforeseen
  case inr.inr => exact absurd (.homeless huser) hforeseen
  cases hseen : h.files.lookup h.cwd true (pathOf place) with
  | error errno =>
    have hcauses := FileTree.errno_of_lookup hseen
    simp only [List.mem_cons, List.not_mem_nil, or_false] at hcauses
    rcases hcauses with rfl | rfl | rfl | rfl
    · exact absurd (.long hcomes hseen) hforeseen
    · exact absurd ⟨place, hcomes, .inl hseen⟩ hsomewhere
    · exact absurd ⟨place, hcomes, .inr hseen⟩ hsomewhere
    · exact absurd (.loop hcomes hseen) hforeseen
  | ok found =>
    obtain ⟨there, node⟩ := found
    obtain rfl : there = place := hregular.straight place _ hcomes hseen
    have hfound : Found h q.path there node := ⟨hcomes, hseen⟩
    rcases Settings.load_cases h (pathOf there) with ⟨s, hload⟩ | ⟨fault, hload⟩ | ⟨f, _, huntold⟩
    case inr.inl => exact absurd (.settings hfound hload) haccepted
    case inr.inr => exact absurd (.settings hfound huntold) hforeseen
    cases node with
    | directory locked =>
      rcases hingesOn_generate hregular ht hclean hgit hfound hload ids with ⟨hreturns, _⟩ | ⟨f, _, _, hstops⟩
      · exact hreturns
      · exact absurd (.stops hfound hload hstops) hforeseen
    | file bytes => exact absurd (.noDirectory hfound hload rfl) haccepted
    | link target => exact absurd (.noDirectory hfound hload rfl) haccepted
    | socket => exact absurd (.noDirectory hfound hload rfl) haccepted

end ClassAtlas.Generation
