import ClassAtlas.Analysis.Discovery
import ClassAtlas.Proofs.Files.Listing
import ClassAtlas.Proofs.Host.Files
import ClassAtlas.Proofs.Text.Split
/-!
# Discovery as filtering

Passing over a directory that an exclude pattern matches loses nothing, since the pattern matches all
paths below it too. So the discovered files are those of the whole listing that are wanted for their
own path.
-/
namespace ClassAtlas.Discovery

open ClassAtlas.Action

variable {t : FileTree} {included excluded : List String} {root here place : Location} {name : String}

/-! ## Paths seen from the root -/

/-- The path of a place seen from a directory above it. -/
def relativeText (root place : Location) : String := "/".intercalate (place.drop root.length)

theorem relativeText_self (root : Location) : relativeText root root = "" := by
  rw [relativeText, List.drop_length, String.intercalate_nil]

/-- Proper names joined give no empty text. -/
theorem intercalate_ne_empty {names : List String} (hne : names ≠ []) (hnames : ∀ n ∈ names, n ≠ "") :
    "/".intercalate names ≠ "" := by
  cases names with
  | nil => exact absurd rfl hne
  | cons first rest =>
    have hfirst : first ≠ "" := hnames first List.mem_cons_self
    cases rest with
    | nil => rwa [String.intercalate_singleton]
    | cons next rest =>
      rw [String.intercalate_cons_cons]
      intro hempty
      have hlist := congrArg String.toList hempty
      simp at hlist

/-- The names of a place below `root` are proper. -/
def ProperBelow (root place : Location) : Prop := root <+: place ∧ ∀ n ∈ place, n ≠ ""

theorem relativeText_child (h : ProperBelow root here) (name : String) :
    relativeText root (here ++ [name]) = relativeName (relativeText root here) name := by
  obtain ⟨⟨names, rfl⟩, hnames⟩ := h
  rw [relativeText, relativeText, List.append_assoc, List.drop_left, List.drop_left, relativeName]
  by_cases hnil : names = []
  · rw [hnil, List.nil_append, String.intercalate_nil, if_pos rfl, String.intercalate_singleton]
  · have hne := intercalate_ne_empty hnil fun n hn => hnames n (List.mem_append_right _ hn)
    rw [if_neg hne, String.intercalate_append_of_ne_nil hnil (by simp), String.intercalate_singleton]

theorem prefix_relativeName (relative name : String) : relative.toList <+: (relativeName relative name).toList := by
  rw [relativeName]
  split
  case isTrue hempty =>
    rw [hempty]
    exact List.nil_prefix
  case isFalse =>
    rw [String.toList_append, String.toList_append, List.append_assoc]
    exact List.prefix_append _ _

/-- The path of a directory begins the paths of all that is below it. -/
theorem relativeText_begins (h : ProperBelow root place) (hhere : here <+: place) (hroot : root <+: here) :
    (relativeText root here).toList <+: (relativeText root place).toList := by
  obtain ⟨rest, rfl⟩ := hhere
  induction rest using List.reverseRecOn with
  | nil => simp
  | append_singleton rest last ih =>
    have hproper : ProperBelow root (here ++ rest) :=
      ⟨hroot.trans (List.prefix_append _ _), fun n hn => h.2 n (by
        rw [← List.append_assoc]
        exact List.mem_append_left _ hn)⟩
    rw [← List.append_assoc, relativeText_child hproper]
    exact (ih hproper).trans (prefix_relativeName _ _)

/-! ## Patterns -/

theorem isExcluded_iff {relative : String} :
    isExcluded relative excluded = true ↔ ∃ p ∈ excluded, p ≠ "" ∧ p.toList <:+: relative.toList := by
  simp only [isExcluded, List.any_eq_true, Bool.and_eq_true, bne_iff_ne, Text.contains_iff_infix]

theorem isIncluded_iff {relative : String} :
    isIncluded relative included = true ↔ included = [] ∨ ∃ p ∈ included, p.toList <+: relative.toList := by
  simp only [isIncluded, Bool.or_eq_true, List.isEmpty_iff, List.any_eq_true, List.isPrefixOf_iff_prefix]

theorem isSourceSuffix_iff {suffix : String} :
    Dialect.isSourceSuffix suffix = true ↔ suffix ∈ [".js", ".jsx", ".mjs", ".ts", ".tsx"] := by
  simp [Dialect.isSourceSuffix, List.lookup_isSome_iff, Dialect.bySuffix]

/-- A file that is wanted for its own path. -/
structure Wanted (t : FileTree) (included excluded : List String) (root place : Location) : Prop where
  notLink : ∀ target, t.at? place ≠ some (.link target)
  suffix : Path.suffix ⟨.root, place⟩ ∈ [".js", ".jsx", ".mjs", ".ts", ".tsx"]
  notExcluded : ∀ p ∈ excluded, p ≠ "" → ¬ p.toList <:+: (relativeText root place).toList
  isIncluded : included = [] ∨ ∃ p ∈ included, p.toList <+: (relativeText root place).toList

theorem isWanted_iff :
    isWanted t included excluded place (relativeText root place) = true ↔
      Wanted t included excluded root place := by
  have hlink : (t.at? place).any Node.isLink = false ↔ ∀ target, t.at? place ≠ some (.link target) := by
    cases t.at? place with
    | none => simp
    | some node => cases node <;> simp [Node.isLink]
  have hexcluded : isExcluded (relativeText root place) excluded = false ↔
      ∀ p ∈ excluded, p ≠ "" → ¬ p.toList <:+: (relativeText root place).toList := by
    rw [← Bool.not_eq_true, isExcluded_iff]
    push Not
    rfl
  simp only [isWanted, Bool.and_eq_true, Bool.not_eq_true', hlink, hexcluded, isSourceSuffix_iff, isIncluded_iff]
  constructor
  · rintro ⟨⟨⟨hnot, hsuffix⟩, hnolink⟩, hin⟩
    exact ⟨hnolink, hsuffix, hnot, hin⟩
  · rintro ⟨hnolink, hsuffix, hnot, hin⟩
    exact ⟨⟨⟨hnot, hsuffix⟩, hnolink⟩, hin⟩

instance : Decidable (Wanted t included excluded root place) := decidable_of_iff _ isWanted_iff

/-- Nothing below a directory that a pattern matches is wanted. -/
theorem not_wanted_of_isExcluded (hplace : ProperBelow root place) (hhere : here <+: place) (hroot : root <+: here)
    (h : isExcluded (relativeText root here) excluded = true) : ¬ Wanted t included excluded root place := by
  obtain ⟨p, hp, hne, hoccurs⟩ := isExcluded_iff.mp h
  intro hwanted
  exact hwanted.notExcluded p hp hne (hoccurs.trans (relativeText_begins hplace hhere hroot).isInfix)

/-! ## The pruned walk -/

/-- The places of the source files among the findings. -/
def sources (findings : List Finding) : List Location :=
  findings.filterMap fun
    | .source place => some place
    | .unlisted _ => none

theorem sources_append (xs ys : List Finding) : sources (xs ++ ys) = sources xs ++ sources ys :=
  List.filterMap_append

theorem sources_map_source {α : Type} (f : α → Location) (xs : List α) :
    sources (xs.map fun x => .source (f x)) = xs.map f := by
  rw [sources, List.filterMap_map, ← List.filterMap_eq_map]
  rfl

theorem sources_flatMap {α : Type} (f : α → List Finding) (xs : List α) :
    sources (xs.flatMap f) = xs.flatMap fun x => sources (f x) := by
  rw [sources, List.filterMap_flatMap]
  rfl

/-- What contributes nothing can be left out. -/
theorem flatMap_filter_of_eq_nil {α β : Type} {f : α → List β} {keep : α → Bool} {xs : List α}
    (h : ∀ x ∈ xs, keep x = false → f x = []) : (xs.filter keep).flatMap f = xs.flatMap f := by
  induction xs with
  | nil => rfl
  | cons x xs ih =>
    have hrest := ih fun y hy => h y (List.mem_cons_of_mem _ hy)
    cases hx : keep x with
    | true => rw [List.filter_cons_of_pos hx, List.flatMap_cons, List.flatMap_cons, hrest]
    | false =>
      rw [List.filter_cons_of_neg (by simp [hx]), List.flatMap_cons, hrest, h x List.mem_cons_self hx,
        List.nil_append]

/-- An entry that is no link leads to a directory only by being one. -/
theorem leadsToDirectory_of_not_link (ht : t.WellFormed) (hname : name ∈ t.names here)
    (hlink : (t.at? (here ++ [name])).any Node.isLink = false) :
    leadsToDirectory t (here ++ [name]) = t.isDirectoryAt (here ++ [name]) := by
  obtain ⟨node, hnode⟩ := ht.at?_of_mem_names hname
  rw [hnode] at hlink
  have hwalk := ht.walk_name_of_not_link hnode hlink true FileTree.maxLinks
  rw [leadsToDirectory, hwalk]
  rfl

variable (included excluded)

theorem filter_files_eq (ht : t.WellFormed) (hproper : ProperBelow root here) :
    ((t.names here).filter fun n => !leadsToDirectory t (here ++ [n])).filter
        (fun n => isWanted t included excluded (here ++ [n]) (relativeName (relativeText root here) n)) =
      (t.leaves here).filter fun n => decide (Wanted t included excluded root (here ++ [n])) := by
  rw [FileTree.leaves, List.filter_filter, List.filter_filter]
  refine List.filter_congr fun name hname => ?_
  rw [← relativeText_child hproper name]
  by_cases hwanted : Wanted t included excluded root (here ++ [name])
  · have hlink : (t.at? (here ++ [name])).any Node.isLink = false := by
      have hnone := hwanted.notLink
      cases hnode : t.at? (here ++ [name]) with
      | none => rfl
      | some node => cases node with
        | link target => exact absurd hnode (hnone target)
        | _ => rfl
    rw [leadsToDirectory_of_not_link ht hname hlink, isWanted_iff.mpr hwanted, decide_eq_true hwanted]
  · have hnot : isWanted t included excluded (here ++ [name]) (relativeText root (here ++ [name])) = false := by
      rw [← Bool.not_eq_true, isWanted_iff]
      exact hwanted
    rw [hnot, decide_eq_false hwanted, Bool.false_and, Bool.false_and]

theorem filter_directories_eq (ht : t.WellFormed) (hproper : ProperBelow root here) :
    ((t.names here).filter fun n => leadsToDirectory t (here ++ [n]) &&
        !isExcluded (relativeName (relativeText root here) n) excluded && !(t.at? (here ++ [n])).any Node.isLink) =
      (t.subdirectories here).filter fun n => !isExcluded (relativeText root (here ++ [n])) excluded := by
  rw [FileTree.subdirectories, List.filter_filter]
  refine List.filter_congr fun name hname => ?_
  rw [← relativeText_child hproper name]
  cases hlink : (t.at? (here ++ [name])).any Node.isLink with
  | false =>
    rw [leadsToDirectory_of_not_link ht hname hlink, Bool.not_false, Bool.and_true, Bool.and_comm]
  | true =>
    have hdirectory : t.isDirectoryAt (here ++ [name]) = false := by
      rw [FileTree.isDirectoryAt]
      cases hnode : t.at? (here ++ [name]) with
      | none => rfl
      | some node =>
        rw [hnode] at hlink
        cases node with
        | link target => rfl
        | _ => cases hlink
    rw [hdirectory, Bool.not_true, Bool.and_false, Bool.and_false]

/-- The walk finds what is wanted in the whole listing, as long as it may go as deep as the tree. -/
theorem sources_walk (ht : t.WellFormed) {locked : Bool} (hhere : t.at? here = some (.directory locked))
    (hroot : root <+: here) {depth : Nat} (hdepth : t.height < depth + here.length) :
    sources (walk t included excluded depth here (relativeText root here)) =
      (t.listing here).filter fun place => decide (Wanted t included excluded root place) := by
  induction depth generalizing here locked with
  | zero =>
    by_cases hnil : here = []
    · rw [hnil, List.length_nil] at hdepth
      exact absurd hdepth (Nat.not_lt_zero _)
    · have hheight := FileTree.length_le_height (FileTree.mem_nodes_of_at? hhere hnil)
      omega
  | succ depth ih =>
    have hproper : ProperBelow root here := ⟨hroot, fun n hn => (ht.isName_of_mem hhere n hn).notEmpty⟩
    rw [walk]
    split
    case isTrue hlocked =>
      rw [FileTree.listing_of_locked hlocked]
      rfl
    case isFalse hopen =>
      simp only []
      rw [sources_append, sources_map_source, sources_flatMap, filter_files_eq included excluded ht hproper,
        filter_directories_eq excluded ht hproper, FileTree.listing_of_not_locked hopen, List.filter_append,
        List.filter_map, List.filter_flatMap]
      congr 1
      calc ((t.subdirectories here).filter fun n => !isExcluded (relativeText root (here ++ [n])) excluded).flatMap
            (fun n => sources (walk t included excluded depth (here ++ [n])
              (relativeName (relativeText root here) n)))
          = ((t.subdirectories here).filter fun n =>
              !isExcluded (relativeText root (here ++ [n])) excluded).flatMap fun n =>
                (t.listing (here ++ [n])).filter fun place => decide (Wanted t included excluded root place) := by
            refine List.flatMap_congr fun name hname => ?_
            obtain ⟨_, hdirectory⟩ := ht.mem_subdirectories_iff.mp (List.mem_of_mem_filter hname)
            have hdeeper : t.height < depth + (here ++ [name]).length := by
              rw [List.length_append, List.length_singleton]
              omega
            rw [← relativeText_child hproper name]
            exact ih hdirectory (hroot.trans (List.prefix_append _ _)) hdeeper
        _ = (t.subdirectories here).flatMap fun n =>
              (t.listing (here ++ [n])).filter fun place => decide (Wanted t included excluded root place) := by
            refine flatMap_filter_of_eq_nil fun name _ hexcluded => ?_
            rw [List.filter_eq_nil_iff]
            intro place hplace hwanted
            obtain ⟨node, hnode, _⟩ := ht.node_of_mem_listing hplace
            have hbelow := ht.prefix_of_mem_listing hplace
            have hbelowRoot : root <+: here ++ [name] := hroot.trans (List.prefix_append _ _)
            exact not_wanted_of_isExcluded
              ⟨hbelowRoot.trans hbelow, fun n hn => (ht.isName_of_mem hnode n hn).notEmpty⟩ hbelow hbelowRoot
              (by simpa using hexcluded) (by simpa using hwanted)

/-- From the root of a walk on: a root that is no directory has nothing below it. -/
theorem sources_walk_root (ht : t.WellFormed) (root : Location) :
    sources (walk t included excluded (t.height + 1) root "") =
      (t.listing root).filter fun place => decide (Wanted t included excluded root place) := by
  by_cases hdirectory : ∃ locked, t.at? root = some (.directory locked)
  · obtain ⟨locked, hroot⟩ := hdirectory
    have hwalk := sources_walk included excluded ht hroot List.prefix_rfl
      (by omega : t.height < t.height + 1 + root.length)
    rwa [relativeText_self] at hwalk
  · have hnone := not_exists.mp hdirectory
    rw [walk, if_neg (hnone true), ht.names_eq_nil hnone, ht.listing_eq_nil hnone]
    rfl

/-! ## Running the search -/

theorem on_collect (findings : List Finding) (h : Host) :
    ∃ next, (collect findings).on h = (.ok ((sources findings).map pathOf), next) := by
  induction findings generalizing h with
  | nil => exact ⟨h, rfl⟩
  | cons finding rest ih =>
    cases finding with
    | source place =>
      obtain ⟨next, hnext⟩ := ih h
      refine ⟨next, ?_⟩
      rw [collect, on_bind_of_ok hnext]
      rfl
    | unlisted place =>
      obtain ⟨noted, hnoted⟩ := succeeds_log (some "scanner") LogRecord.warning
        ("Skipping unreadable directory " ++ (pathOf place).toString ++ ": " ++ Errno.access.text) h
      obtain ⟨next, hnext⟩ := ih noted
      refine ⟨next, ?_⟩
      rw [collect, warn, on_bind_of_ok hnoted, hnext]
      rfl

/-- The text of a path is resolved to a place, and a directory is found there. -/
structure LeadsTo (h : Host) (root : String) (place : Location) : Prop where
  resolved : ∃ p, (expandHome (Path.ofString root)).on h = (.ok p, h) ∧ (resolve p).on h = (.ok (pathOf place), h)
  directory : (isDirectory (pathOf place)).on h = (.ok true, h)

theorem on_sourceFiles {h : Host} {root : String} {place : Location} (hroot : LeadsTo h root place) :
    ∃ after, (sourceFiles root included excluded).on h =
      (.ok ((sources (walk h.files included excluded (h.files.height + 1) place "")).map pathOf), after) := by
  obtain ⟨p, hexpanded, hresolved⟩ := hroot.resolved
  have hdirectory := hroot.directory
  obtain ⟨hnul, found, node, hfound, _⟩ := found_of_probe hdirectory
  have hexists := on_probe_of_found hnul hfound fun _ => true
  obtain ⟨noted, hcollected⟩ := on_collect (walk h.files included excluded (h.files.height + 1) place "") h
  obtain ⟨after, hafter⟩ := succeeds_debug "scanner" ("Discovered " ++
    Nat.repr ((sources (walk h.files included excluded (h.files.height + 1) place "")).map pathOf).length ++
      " source files under " ++ (pathOf place).toString) noted
  refine ⟨after, ?_⟩
  simp only [sourceFiles, pathExists, isDirectory]
  rw [on_bind_of_ok hexpanded, on_bind_of_ok hresolved, on_bind_of_ok hexists]
  simp only [Bool.not_true, Bool.false_eq_true, if_false]
  rw [isDirectory] at hdirectory
  rw [on_bind_of_ok hdirectory]
  simp only [Bool.not_true, Bool.false_eq_true, if_false]
  have hparts : (pathOf place).parts = place := rfl
  rw [on_bind_of_ok (on_get h), hparts, on_bind_of_ok hcollected, on_bind_of_ok hafter]
  rfl

theorem leadsTo_of_sourceFiles {h after : Host} {root : String} {files : List Path}
    (hrun : (sourceFiles root included excluded).on h = (.ok files, after)) : ∃ place, LeadsTo h root place := by
  rw [sourceFiles] at hrun
  obtain ⟨p, hexpanded, hrun⟩ := (asks_expandHome _).bind_eq_ok hrun
  obtain ⟨q, hresolved, hrun⟩ := (asks_resolve p).bind_eq_ok hrun
  obtain rfl := eq_pathOf_of_resolve hresolved
  obtain ⟨something, _, hrun⟩ := (asks_probe _ _ _).bind_eq_ok hrun
  cases something with
  | false => cases hrun
  | true =>
    obtain ⟨directory, hdirectory, hrun⟩ := (asks_probe _ _ _).bind_eq_ok hrun
    cases directory with
    | false => cases hrun
    | true => exact ⟨_, ⟨p, hexpanded, hresolved⟩, hdirectory⟩

/-- The search in terms of the whole listing. -/
theorem on_sourceFiles_of_wellFormed {h : Host} (ht : h.files.WellFormed) {root : String} {place : Location}
    (hroot : LeadsTo h root place) : ∃ after, (sourceFiles root included excluded).on h =
      (.ok (((h.files.listing place).filter fun p => decide (Wanted h.files included excluded place p)).map pathOf),
        after) := by
  obtain ⟨after, hrun⟩ := on_sourceFiles included excluded hroot
  rw [sources_walk_root included excluded ht place] at hrun
  exact ⟨after, hrun⟩

/-- A tree with files, directories, a locked directory, a socket, and links to a file, to a directory, to
nothing and to themselves. -/
def mixedTree : FileTree where
  nodes := [(["repo"], .directory false), (["repo", "a.ts"], .link "src/b.ts"), (["repo", "gen"], .directory false),
    (["repo", "gen", "c.ts"], .file []), (["repo", "gone.ts"], .link "nowhere"), (["repo", "lib"], .link "src"),
    (["repo", "loop.ts"], .link "loop.ts"), (["repo", "main.js"], .file []), (["repo", "private"], .directory true),
    (["repo", "private", "d.ts"], .file []), (["repo", "src"], .directory false), (["repo", "src", "b.ts"], .file []),
    (["repo", "z.ts"], .socket)]

theorem wellFormed_mixedTree : mixedTree.WellFormed := by decide

theorem listing_mixedTree : mixedTree.listing ["repo"] =
    [["repo", "a.ts"], ["repo", "gone.ts"], ["repo", "lib"], ["repo", "loop.ts"], ["repo", "main.js"],
      ["repo", "z.ts"], ["repo", "gen", "c.ts"], ["repo", "src", "b.ts"]] := by
  have hrepo : mixedTree.names ["repo"] =
      ["a.ts", "gen", "gone.ts", "lib", "loop.ts", "main.js", "private", "src", "z.ts"] :=
    FileTree.names_of_sorted (by decide) (by decide)
  have hgen : mixedTree.listing ["repo", "gen"] = [["repo", "gen", "c.ts"]] := by
    have hnames : mixedTree.names ["repo", "gen"] = ["c.ts"] := FileTree.names_of_sorted (by decide) (by decide)
    rw [FileTree.listing_of_not_locked (by decide), FileTree.leaves, FileTree.subdirectories, hnames]
    rfl
  have hsrc : mixedTree.listing ["repo", "src"] = [["repo", "src", "b.ts"]] := by
    have hnames : mixedTree.names ["repo", "src"] = ["b.ts"] := FileTree.names_of_sorted (by decide) (by decide)
    rw [FileTree.listing_of_not_locked (by decide), FileTree.leaves, FileTree.subdirectories, hnames]
    rfl
  have hprivate : mixedTree.listing ["repo", "private"] = [] := FileTree.listing_of_locked (by decide)
  have hleaves : mixedTree.leaves ["repo"] = ["a.ts", "gone.ts", "lib", "loop.ts", "main.js", "z.ts"] := by
    rw [FileTree.leaves, hrepo]
    decide
  have hdirectories : mixedTree.subdirectories ["repo"] = ["gen", "private", "src"] := by
    rw [FileTree.subdirectories, hrepo]
    decide
  rw [FileTree.listing_of_not_locked (by decide), hleaves, hdirectories]
  simp [hgen, hsrc, hprivate]

theorem leadsTo_mixedTree : LeadsTo (.holding mixedTree) "/repo" ["repo"] := by
  have hfound : mixedTree.lookup [] true (pathOf ["repo"]) = .ok (["repo"], .directory false) :=
    lookup_pathOf wellFormed_mixedTree (by decide) rfl (by decide) [] true
  have hresolved : (Host.holding mixedTree).files.resolve [] ⟨.root, ["repo"]⟩ = ["repo"] := by decide
  have hnul : hasNul (pathOf ["repo"]) = false := by decide
  have hdirectory := @on_probe_of_found (.holding mixedTree) _ _ _ hnul true hfound Node.isDirectory
  have hend : mixedTree.lookup [] true (pathOf ["repo"]) ≠ .error .linkLoop := by
    rw [hfound]
    exact fun hloop => by cases hloop
  exact ⟨⟨⟨.root, ["repo"]⟩, rfl, on_resolve hnul hresolved hend⟩, hdirectory⟩

end ClassAtlas.Discovery
