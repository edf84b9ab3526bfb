import ClassAtlas.Proofs.Atlas.Assembly
import ClassAtlas.Proofs.Files.Path
import ClassAtlas.Proofs.Generation.Returning
import Mathlib.Algebra.BigOperators.Group.List.Defs
/-!
# Accounting for files

Each file that is found is either taken or passed over, under a path that tells it apart from all
others, and the records of the files that are taken come in the order in which these were found.
-/
namespace ClassAtlas.Generation

open ClassAtlas.Action

variable {h h' : Host} {path root : Path} {files : List Path} {s : HistorySettings}

/-- The path of a file as the results of a run show it. -/
def shownName (root path : Path) : String := ((path.relativeTo? root).getD path).toString

/-- The file is read as text, and whether a test stands beside it can be found out. -/
def isTaken (h : Host) (p : Path) : Bool := holdsText h p && !testTooLong h p

theorem isTaken_noted (hnoted : h.Noted h') : isTaken h' = isTaken h := by
  funext p
  rw [isTaken, isTaken, holdsText_noted hnoted, testTooLong_noted hnoted]

/-- The results so far account for all files so far. -/
structure Progress.Accounts (p : Progress) (taken : Path → Bool) (root : Path) (files : List Path) : Prop where
  analyzed : p.analyzed = (files.filter taken).map (shownName root)
  skipped : p.skipped = (files.filter fun file => !taken file).map (shownName root)
  records : p.records.map (·.file) = p.analyzed
  own : ∀ r ∈ p.records, r.external = false

namespace Progress.Accounts

variable {p : Progress} {taken : Path → Bool}

theorem start (ids : Ids) (taken : Path → Bool) (root : Path) : (Progress.start ids).Accounts taken root [] where
  analyzed := rfl
  skipped := rfl
  records := rfl
  own _ hr := by cases hr

theorem add (hp : p.Accounts taken root files) (htaken : taken path = true) {r : ClassRecord}
    (hfile : r.file = shownName root path) (hown : r.external = false) (ids : Ids) :
    (p.add ids r (shownName root path)).Accounts taken root (files ++ [path]) where
  analyzed := by
    have hlast : [path].filter taken = [path] := List.filter_cons_of_pos htaken
    rw [List.filter_append, hlast, List.map_append, ← hp.analyzed]
    rfl
  skipped := by
    have hlast : ([path].filter fun file => !taken file) = [] := List.filter_cons_of_neg (by rw [htaken]; decide)
    rw [List.filter_append, hlast, List.append_nil, ← hp.skipped]
    rfl
  records := by
    show (p.records ++ [r]).map (·.file) = p.analyzed ++ [shownName root path]
    rw [List.map_append, hp.records, List.map_singleton, hfile]
  own other hother := by
    rcases List.mem_append.mp hother with hold | hnew
    · exact hp.own other hold
    · rw [List.mem_singleton.mp hnew]
      exact hown

theorem passOver (hp : p.Accounts taken root files) (htaken : taken path = false) (ids : Ids) :
    (p.passOver ids (shownName root path)).Accounts taken root (files ++ [path]) where
  analyzed := by
    have hlast : [path].filter taken = [] := List.filter_cons_of_neg (by rw [htaken]; decide)
    rw [List.filter_append, hlast, List.append_nil, ← hp.analyzed]
    rfl
  skipped := by
    have hlast : ([path].filter fun file => !taken file) = [path] := List.filter_cons_of_pos (by rw [htaken]; rfl)
    rw [List.filter_append, hlast, List.map_append, ← hp.skipped]
    rfl
  records := hp.records
  own := hp.own

end Progress.Accounts

/-- Passing a file over goes well only for the failures that concern one file. -/
theorem passOver_of_ok {p p' : Progress} {ids : Ids} {file : String} {f : Failure}
    (hrun : (passOver p ids file f).on h = (.ok p', h')) : isPassedOver f = true ∧ p' = p.passOver ids file := by
  unfold passOver at hrun
  cases hover : isPassedOver f with
  | false =>
    rw [hover] at hrun
    cases hrun
  | true =>
    rw [hover] at hrun
    obtain ⟨_, _, _, hrun⟩ := Action.bind_eq_ok hrun
    cases hrun
    exact ⟨rfl, rfl⟩

/-- One file: the results that accounted for the files before it account for it too. -/
theorem accounts_analyzeNext {p p' : Progress} {done : Bool} (hp : p.Accounts (isTaken h) root files)
    (hrun : (analyzeNext (History.source s) root p path).on h = (.ok (done, p'), h')) :
    p'.Accounts (isTaken h) root (files ++ [path]) := by
  rcases attempt_bind_eq_ok hrun with ⟨source, middle, hread, hrun⟩ | ⟨f, middle, hread, hrun⟩
  · obtain ⟨hnul, htext, hpath, relative, hrelative, hfile⟩ := read_of_ok hread
    have hsame := (SourceFile.asks_read path root).eq_of_ok hread
    have hshown : source.relative = shownName root path := by rw [hfile, shownName, hrelative, Option.getD_some]
    rw [← hpath] at hnul
    rcases hfresh : p.ids.fresh "component" with ⟨id, ids⟩
    rw [hsame] at hrun
    simp only [hfresh] at hrun
    rcases attempt_bind_eq_ok hrun with ⟨r, last, hrecord, hrun⟩ | ⟨f, last, hrecord, hrun⟩
    · cases hrun
      obtain ⟨hrfile, hown, hlong⟩ := record_of_ok hnul hrecord
      rw [hpath] at hlong
      exact hp.add (by rw [isTaken, htext, hlong]; rfl) (hrfile.trans hshown) hown _
    · obtain ⟨p'', _, hover, hrun⟩ := Action.bind_eq_ok hrun
      obtain ⟨hf, rfl⟩ := passOver_of_ok hover
      cases hrun
      have hlong := testTooLong_of_record_failed hnul hrecord hf
      rw [hpath] at hlong
      exact hp.passOver (by rw [isTaken, hlong, Bool.not_true, Bool.and_false]) _
  · obtain ⟨p'', _, hover, hrun⟩ := Action.bind_eq_ok hrun
    obtain ⟨hf, rfl⟩ := passOver_of_ok hover
    cases hrun
    have htext := holdsText_of_read_failed hread hf
    exact hp.passOver (by rw [isTaken, htext, Bool.false_and]) p.ids

/-- All files: what the host holds is looked up as of the start, which notes do not change. -/
theorem accounts_analyzeAll {total index : Nat} {paths : List Path} {p p' : Progress} {middle : Host}
    (hnoted : h.Noted middle) (hp : p.Accounts (isTaken h) root files)
    (hrun : (analyzeAll (History.source s) root total index p paths).on middle = (.ok p', h')) :
    p'.Accounts (isTaken h) root (files ++ paths) := by
  induction paths generalizing index files p middle with
  | nil =>
    cases hrun
    rw [List.append_nil]
    exact hp
  | cons path paths ih =>
    obtain ⟨⟨done, next⟩, after, hnext, hafter, hrun⟩ := (notes_analyzeNext s root p path).bind_eq_ok hrun
    rw [← isTaken_noted hnoted] at hp
    have hstep := accounts_analyzeNext hp hnext
    rw [isTaken_noted hnoted] at hstep
    have hsteps := hnoted.trans hafter
    dsimp only at hrun
    split at hrun
    case isTrue =>
      obtain ⟨_, last, _, hlast, hrun⟩ := (notes_debug _ _).bind_eq_ok hrun
      have hrest := ih (hsteps.trans hlast) hstep hrun
      rwa [List.append_assoc] at hrest
    case isFalse =>
      have hrest := ih hsteps hstep hrun
      rwa [List.append_assoc] at hrest

/-! ## Shown names -/

theorem shownName_eq_iff {a b : Location} (ha : ∀ n ∈ a, FileTree.IsName n) (hb : ∀ n ∈ b, FileTree.IsName n) :
    shownName root (pathOf a) = shownName root (pathOf b) ↔ a = b := by
  -- The text is read back as the path seen from the root, or as the whole path outside of it.
  have hback : ∀ place : Location, (∀ n ∈ place, FileTree.IsName n) →
      Path.ofString (shownName root (pathOf place)) = ((pathOf place).relativeTo? root).getD (pathOf place) := by
    intro place hplace
    rw [shownName, Path.relativeTo?]
    split
    · exact Path.ofString_toString_here fun n hn => hplace n (List.mem_of_mem_drop hn)
    · exact Path.ofString_toString_root hplace
  constructor
  · intro hsame
    have hseen := congrArg Path.ofString hsame
    rw [hback a ha, hback b hb, Path.relativeTo?, Path.relativeTo?] at hseen
    split at hseen
    case isTrue hunder =>
      split at hseen
      case isTrue hunder' =>
        obtain ⟨below, rfl⟩ := List.isPrefixOf_iff_prefix.mp hunder.2
        obtain ⟨below', rfl⟩ := List.isPrefixOf_iff_prefix.mp hunder'.2
        have hdrop : (root.parts ++ below).drop root.parts.length = (root.parts ++ below').drop root.parts.length :=
          congrArg Path.parts hseen
        rw [List.drop_left, List.drop_left] at hdrop
        rw [hdrop]
      case isFalse => cases congrArg Path.anchor hseen
    case isFalse =>
      split at hseen
      case isTrue => cases congrArg Path.anchor hseen
      case isFalse => exact congrArg Path.parts hseen
  · rintro rfl
    rfl

/-! ## A whole run -/

/-- The project's own classes of a round of gathering are its records. -/
theorem own_classes_gather (a : Assembly) {records : List ClassRecord} (hown : ∀ r ∈ records, r.external = false) :
    (a.gather records).1.classes.filter (fun c => !c.external) = records := by
  have hrecords : records.filter (fun c => !c.external) = records :=
    List.filter_eq_self.mpr fun r hr => by rw [hown r hr]; rfl
  have hstubs : (a.newStubs records).filter (fun c => !c.external) = [] := by
    rw [List.filter_eq_nil_iff]
    intro c hc
    rw [Assembly.eq_stub_of_mem_newStubs hc, Assembly.stub_external]
    decide
  rw [Assembly.classes_gather, List.filter_append, hrecords, hstubs, List.append_nil]

theorem build_of_ok {project : Project} {g : Gathering} {at_ : Moment} {snapshot : Snapshot}
    (hrun : (Snapshot.build project g at_).on h = (.ok snapshot, h')) :
    snapshot.classes = g.classes ∧ snapshot.packages = g.packages ∧ snapshot.project = project := by
  unfold Snapshot.build at hrun
  split at hrun
  · cases hrun
    exact ⟨rfl, rfl, rfl⟩
  · cases hrun

/-- Before the search, between it and the analysis, and before the facts about the project are read notes are
taken. The snapshot has what was gathered of the records that the analysis gave. -/
theorem ofSettings_of_ok {ids : Ids} {q : Request} {settings : Settings} {g : Generation}
    (hrun : (ofSettings ids root q settings).on h = (.ok g, h')) :
    ∃ files done searching searched analyzing last reading read,
      h.Noted searching ∧ (Discovery.sourceFiles root.toString (q.included.getD settings.included)
        (q.excluded.getD settings.excluded)).on searching = (.ok files, searched) ∧
      h.Noted analyzing ∧ (analyzeAll (History.source settings.history) root files.length 0 (.start ids) files).on
        analyzing = (.ok done, last) ∧
      g.analyzed = done.analyzed ∧ g.skipped = done.skipped ∧
      g.snapshot.classes = ((Assembly.start done.ids).gather done.records).1.classes ∧
      g.snapshot.packages = ((Assembly.start done.ids).gather done.records).1.packages ∧
      h.Noted reading ∧ (Project.load root (nameOf q.projectName root) settings.project).on reading =
        (.ok g.snapshot.project, read) := by
  obtain ⟨_, h₁, _, hn₁, hrun⟩ := (notes_info _ _).bind_eq_ok hrun
  obtain ⟨_, h₂, _, hn₂, hrun⟩ := (notes_info _ _).bind_eq_ok hrun
  obtain ⟨_, h₃, _, hn₃, hrun⟩ := (notes_info _ _).bind_eq_ok hrun
  have hsearching := (hn₁.trans hn₂).trans hn₃
  obtain ⟨files, h₄, hfiles, hn₄, hrun⟩ := (Discovery.notes_sourceFiles _ _ _).bind_eq_ok hrun
  obtain ⟨_, h₅, _, hn₅, hrun⟩ := (notes_info _ _).bind_eq_ok hrun
  obtain ⟨done, h₆, hdone, hn₆, hrun⟩ := (notes_analyzeAll _ _ _ _ _ _).bind_eq_ok hrun
  obtain ⟨_, h₇, _, hn₇, hrun⟩ := (notes_noteStubs _).bind_eq_ok hrun
  rcases hgather : (Assembly.start done.ids).gather done.records with ⟨gathering, assembly⟩
  simp only [hgather] at hrun
  obtain ⟨project, h₈, hproject, hrun⟩ := Action.bind_eq_ok hrun
  obtain ⟨now, h₉, _, hrun⟩ := Action.bind_eq_ok hrun
  obtain ⟨snapshot, h₁₀, hsnapshot, hrun⟩ := Action.bind_eq_ok hrun
  cases hrun
  obtain ⟨hclasses, hpackages, hnamed⟩ := build_of_ok hsnapshot
  have hanalyzing := (hsearching.trans hn₄).trans hn₅
  refine ⟨files, done, h₃, h₄, h₅, h₆, h₇, h₈, hsearching, hfiles, hanalyzing, hdone, rfl, rfl, ?_, ?_,
    (hanalyzing.trans hn₆).trans hn₇, ?_⟩
  · rw [hgather, ← hclasses]
  · rw [hgather, ← hpackages]
  · rw [hnamed]
    exact hproject

/-- A project in which no file is found has neither classes nor packages. -/
theorem empty_of_ofSettings (ht : h.files.WellFormed) {ids : Ids} {q : Request} {settings : Settings}
    {g : Generation} {searched : Host} (hnone : (Discovery.sourceFiles root.toString
      (q.included.getD settings.included) (q.excluded.getD settings.excluded)).on h = (.ok [], searched))
    (hrun : (ofSettings ids root q settings).on h = (.ok g, h')) :
    g.snapshot.classes = [] ∧ g.snapshot.packages = [] := by
  obtain ⟨files, done, searching, _, analyzing, _, _, _, hsearching, hfiles, _, hdone, _, _, hclasses, hpackages,
    _⟩ := ofSettings_of_ok hrun
  obtain ⟨_, _, _, _, _, hsearched⟩ := Discovery.places_of_sourceFiles hsearching ht hfiles
  rw [hnone] at hsearched
  cases hsearched
  cases hdone
  exact ⟨hclasses, hpackages⟩

/-- Of a plain project in which no file is wanted a snapshot is put together, and no number in it is too long. -/
theorem Plain.generated {place : Location} {q : Request} {s : Settings} (hplain : Plain h place)
    (ht : h.files.WellFormed) (hnone : ∀ p ∈ h.files.listing place, ¬ Discovery.Wanted h.files
      (q.included.getD s.included) (q.excluded.getD s.excluded) place p)
    (hgit : h.git.KnowsNothing) (hclock : h.now.stamp?.isSome) (ids : Ids) : ∃ g composed,
      (ofSettings ids (pathOf place) q s).on h = (.ok g, composed) ∧ g.snapshot.toJson.hasLongNumber = false := by
  have hleads := hplain.leadsTo ht
  have hmanifest := hplain.pathExists_missing ht (by simp) hplain.noManifest
  obtain ⟨g, composed, hgenerated⟩ : (ofSettings ids (pathOf place) q s).Returns h :=
    ofSettings_returns ht hleads hgit hmanifest hclock ids
  refine ⟨g, composed, hgenerated, ?_⟩
  obtain ⟨searched, hfound⟩ := Discovery.on_sourceFiles_of_wellFormed (q.included.getD s.included)
    (q.excluded.getD s.excluded) ht hleads
  have hempty : (h.files.listing place).filter (fun p => decide (Discovery.Wanted h.files
      (q.included.getD s.included) (q.excluded.getD s.excluded) place p)) = [] := by
    apply List.filter_eq_nil_iff.mpr
    intro p hp hwanted
    exact hnone p hp (of_decide_eq_true hwanted)
  rw [hempty] at hfound
  obtain ⟨hclasses, hpackages⟩ := empty_of_ofSettings ht hfound hgenerated
  rw [Snapshot.toJson, hclasses, hpackages]
  rfl

theorem Bare.generated {place : Location} (hbare : Bare h place) (ht : h.files.WellFormed)
    (hempty : h.files.names place = []) (hgit : h.git.KnowsNothing) (hclock : h.now.stamp?.isSome) (ids : Ids)
    (q : Request) : ∃ g composed, (ofSettings ids (pathOf place) q (.default (pathOf place))).on h = (.ok g, composed) ∧
      g.snapshot.toJson.hasLongNumber = false := by
  refine hbare.toPlain.generated ht (fun p hp => ?_) hgit hclock ids
  rw [FileTree.listing_of_childless hempty] at hp
  cases hp

/-- The results account for the files that the search finds on the host as it is before the work. -/
theorem generate_of_ok {after : Host} (ht : h.files.WellFormed) {ids : Ids} {q : Request} {g : Generation}
    (hrun : (generate ids q).on h = (.ok g, after)) :
    ∃ (root : Path) (settings : Settings) (files : List Path) (searched : Host) (done : Progress),
      (rootOf (Path.ofString q.path)).on h = (.ok root, h) ∧ (Settings.load root).on h = (.ok settings, h) ∧
      (Discovery.sourceFiles root.toString (q.included.getD settings.included)
        (q.excluded.getD settings.excluded)).on h = (.ok files, searched) ∧
      done.Accounts (isTaken h) root files ∧ g.analyzed = done.analyzed ∧ g.skipped = done.skipped ∧
      g.snapshot.classes.filter (fun c => !c.external) = done.records := by
  obtain ⟨root, hroot, hrun⟩ := (asks_rootOf _).bind_eq_ok hrun
  obtain ⟨settings, hsettings, hrun⟩ := (Settings.asks_load root).bind_eq_ok hrun
  obtain ⟨files, done, searching, _, analyzing, _, _, _, hsearching, hfiles, hanalyzing, hdone, hanalyzed, hskipped,
    hclasses, _⟩ := ofSettings_of_ok hrun
  obtain ⟨_, searched, _, _, _, hsearched⟩ := Discovery.places_of_sourceFiles hsearching ht hfiles
  have haccounts := accounts_analyzeAll hanalyzing (.start ids _ root) hdone
  rw [List.nil_append] at haccounts
  refine ⟨root, settings, files, searched, done, hroot, hsettings, hsearched, haccounts, hanalyzed, hskipped, ?_⟩
  rw [hclasses, own_classes_gather _ haccounts.own]

/-- Of the files that the search finds, each is under a name of its own among those that are analyzed or among
those that are passed over, in the order of the search. -/
theorem generate_splits_sourceFiles {after : Host} (ht : h.files.WellFormed) {ids : Ids} {q : Request}
    {g : Generation} (hrun : (generate ids q).on h = (.ok g, after)) :
    ∃ root settings files searched,
      (rootOf (Path.ofString q.path)).on h = (.ok root, h) ∧ (Settings.load root).on h = (.ok settings, h) ∧
      (Discovery.sourceFiles root.toString (q.included.getD settings.included)
        (q.excluded.getD settings.excluded)).on h = (.ok files, searched) ∧
      (files.map (shownName root)).Nodup ∧
      g.analyzed = (files.filter fun p => holdsText h p && !testTooLong h p).map (shownName root) ∧
      g.skipped = (files.filter fun p => !(holdsText h p && !testTooLong h p)).map (shownName root) ∧
      (g.snapshot.classes.filter fun c => !c.external).map (·.file) = g.analyzed := by
  obtain ⟨root, settings, files, searched, done, hroot, hsettings, hsearched, haccounts, hanalyzed, hskipped,
    hclasses⟩ := generate_of_ok ht hrun
  obtain ⟨places, _, hplaces, hdistinct, hnodes, _⟩ := Discovery.places_of_sourceFiles (.refl h) ht hsearched
  rw [hanalyzed, hskipped, hclasses]
  refine ⟨root, settings, files, searched, hroot, hsettings, hsearched, ?_, haccounts.analyzed, haccounts.skipped,
    haccounts.records⟩
  rw [hplaces, List.map_map]
  refine List.Nodup.map_on (fun a ha b hb hsame => ?_) hdistinct
  obtain ⟨node, hnode⟩ := hnodes a ha
  obtain ⟨node', hnode'⟩ := hnodes b hb
  exact (shownName_eq_iff (ht.isName_of_mem hnode) (ht.isName_of_mem hnode')).mp hsame

theorem utf8ByteSize_ofList (cs : List Char) : (String.ofList cs).utf8ByteSize = (cs.map Char.utf8Size).sum := by
  induction cs with
  | nil => rfl
  | cons c cs ih =>
    rw [String.ofList_cons, String.utf8ByteSize_append, String.utf8ByteSize_singleton, ih, List.map_cons, List.sum_cons]

def longChars : List Char := List.replicate 251 'a' ++ ".ts".toList

/-- A name that a file can have, while the name of its test is too long. -/
def longName : String := String.ofList longChars

/-- A tree with a file of text, a file that is no text, and a file of text with a long name. -/
def borderTree : FileTree where
  nodes := [(["repo"], .directory false), (["repo", "a.ts"], .file (Utf8.encode "class A {}".toList)),
    (["repo", "b.ts"], .file [0xFF]), (["repo", "deep"], .directory false),
    (["repo", "deep", longName], .file (Utf8.encode "class B {}".toList))]

theorem utf8ByteSize_longName : longName.utf8ByteSize = 254 := by
  rw [longName, utf8ByteSize_ofList, longChars, List.map_append, List.map_replicate, List.sum_append, List.sum_replicate]
  decide

theorem longName_ne {name : String} (hsize : name.utf8ByteSize ≠ 254) : longName ≠ name := by
  rintro rfl
  exact hsize utf8ByteSize_longName

theorem isName_longName : FileTree.IsName longName := by
  have hchars : ∀ c ∈ longName.toList, c = 'a' ∨ c ∈ ".ts".toList := by
    intro c hc
    rw [longName, String.toList_ofList] at hc
    rcases List.mem_append.mp hc with hlead | hend
    · exact .inl (List.eq_of_mem_replicate hlead)
    · exact .inr hend
  refine ⟨longName_ne (by decide), longName_ne (by decide), longName_ne (by decide), fun hslash => ?_, fun hnul => ?_, ?_⟩
  · exact absurd (hchars _ hslash) (by decide)
  · exact absurd (hchars _ hnul) (by decide)
  · rw [utf8ByteSize_longName]
    decide

theorem wellFormed_borderTree : borderTree.WellFormed where
  distinct := by decide
  named := by
    intro entry hentry
    simp only [borderTree, List.mem_cons, List.not_mem_nil, or_false] at hentry
    rcases hentry with rfl | rfl | rfl | rfl | rfl
    · exact ⟨"repo", rfl, by decide⟩
    · exact ⟨"a.ts", rfl, by decide⟩
    · exact ⟨"b.ts", rfl, by decide⟩
    · exact ⟨"deep", rfl, by decide⟩
    · exact ⟨longName, rfl, isName_longName⟩
  housed := by decide

theorem at?_borderTree :
    borderTree.at? ["repo", "a.ts"] = some (.file (Utf8.encode "class A {}".toList)) ∧
      borderTree.at? ["repo", "b.ts"] = some (.file [0xFF]) ∧
      borderTree.at? ["repo", "deep", longName] = some (.file (Utf8.encode "class B {}".toList)) :=
  ⟨by decide, by decide, wellFormed_borderTree.at?_of_mem (by simp [borderTree])⟩

theorem listing_borderTree :
    borderTree.listing ["repo"] = [["repo", "a.ts"], ["repo", "b.ts"], ["repo", "deep", longName]] := by
  have hrepo : borderTree.names ["repo"] = ["a.ts", "b.ts", "deep"] :=
    FileTree.names_of_sorted (by decide) (by decide)
  have hleaves : borderTree.leaves ["repo"] = ["a.ts", "b.ts"] := by
    rw [FileTree.leaves, hrepo]
    decide
  have hdirectories : borderTree.subdirectories ["repo"] = ["deep"] := by
    rw [FileTree.subdirectories, hrepo]
    decide
  have hdeep : borderTree.listing ["repo", "deep"] = [["repo", "deep", longName]] := by
    have hnames : borderTree.names ["repo", "deep"] = [longName] := FileTree.names_of_sorted rfl (by simp)
    have hfile : borderTree.isDirectoryAt (["repo", "deep"] ++ [longName]) = false :=
      congrArg (Option.any Node.isDirectory) at?_borderTree.2.2
    have hleaves : borderTree.leaves ["repo", "deep"] = [longName] := by
      rw [FileTree.leaves, hnames, List.filter_cons_of_pos (by rw [hfile]; rfl), List.filter_nil]
    have hdirectories : borderTree.subdirectories ["repo", "deep"] = [] := by
      rw [FileTree.subdirectories, hnames, List.filter_cons_of_neg (by rw [hfile]; decide), List.filter_nil]
    rw [FileTree.listing_of_not_locked (by decide), hleaves, hdirectories]
    rfl
  rw [FileTree.listing_of_not_locked (by decide), hleaves, hdirectories, List.flatMap_singleton, List.singleton_append]
  exact congrArg ([["repo", "a.ts"], ["repo", "b.ts"]] ++ ·) hdeep

theorem bare_borderTree : Bare (.holding borderTree) ["repo"] where
  directory := ⟨false, by decide⟩
  noSettings := by decide
  noManifest := by decide
  resolved := by decide
  settingsResolved := by decide
  short := by decide

/-- All files of the project in the tree. -/
def borderRequest : Request := ⟨"/repo", some [], some [], none⟩

theorem generate_borderTree : (generate .sequential borderRequest).Returns (.holding borderTree) :=
  bare_borderTree.generate_returns wellFormed_borderTree (bare_borderTree.on_load wellFormed_borderTree) rfl (fun _ => ⟨.notFound, rfl, rfl⟩) rfl _

theorem holdsText_of_file (ht : h.files.WellFormed) {place : Location} {bytes : List UInt8}
    (hfile : h.files.at? place = some (.file bytes))
    (hshort : (pathOf place).toString.utf8ByteSize ≤ FileTree.maxPathBytes) :
    holdsText h (pathOf place) = (Utf8.decode bytes).isOk := by
  rw [holdsText, lookup_pathOf ht hfile rfl hshort]

theorem toString_deep (name : String) : (pathOf ["repo", "deep", name]).toString = "/repo/deep/" ++ name := by
  simp [pathOf, Path.toString, Path.bare, Path.anchorText, String.intercalate_cons_cons, ← String.append_assoc]

theorem holdsText_borderTree :
    holdsText (.holding borderTree) (pathOf ["repo", "a.ts"]) = true ∧
      holdsText (.holding borderTree) (pathOf ["repo", "b.ts"]) = false ∧
      holdsText (.holding borderTree) (pathOf ["repo", "deep", longName]) = true := by
  obtain ⟨hfirst, hsecond, hthird⟩ := at?_borderTree
  have htext := @holdsText_of_file (.holding borderTree) wellFormed_borderTree
  refine ⟨?_, ?_, ?_⟩
  · rw [htext hfirst (by decide)]
    decide
  · rw [htext hsecond (by decide)]
    decide
  · have hshort : (pathOf ["repo", "deep", longName]).toString.utf8ByteSize ≤ FileTree.maxPathBytes := by
      rw [toString_deep, String.utf8ByteSize_append, utf8ByteSize_longName]
      decide
    rw [htext hthird hshort]
    decide

theorem splitSuffix_longName : Path.splitSuffix longName.toList = (List.replicate 251 'a', ".ts".toList) := by
  rw [longName, String.toList_ofList]
  exact Path.splitSuffix_append (by decide) (by decide) (by decide)

theorem testTooLong_borderTree :
    testTooLong (.holding borderTree) (pathOf ["repo", "a.ts"]) = false ∧
      testTooLong (.holding borderTree) (pathOf ["repo", "deep", longName]) = true := by
  have hrepo : borderTree.at? ["repo"] = some (.directory false) := by decide
  have hdeep : borderTree.at? ["repo", "deep"] = some (.directory false) := by decide
  constructor
  · have htest : (pathOf ["repo", "a.ts"]).siblingTest? = some (pathOf ["repo", "a.test.ts"]) := by decide
    have hmissing : borderTree.lookup [] true (pathOf ["repo", "a.test.ts"]) = .error .noEntry :=
      lookup_pathOf_missing wellFormed_borderTree hrepo (by decide) (by decide) (by decide) [] true
    rw [← Bool.not_eq_true, testTooLong_iff]
    rintro ⟨test, htest', hlong⟩
    rw [htest] at htest'
    cases htest'
    cases hmissing.symm.trans hlong
  · obtain ⟨test, hname⟩ : ∃ test, String.ofList (List.replicate 251 'a') ++ ".test" ++ String.ofList ".ts".toList =
      test := ⟨_, rfl⟩
    have htest : (pathOf ["repo", "deep", longName]).siblingTest? = some (pathOf ["repo", "deep", test]) := by
      have hlast : (pathOf ["repo", "deep", longName]).name = longName := rfl
      have hne : longName ≠ "" := isName_longName.notEmpty
      rw [Path.siblingTest?, Path.withName?, hlast, if_neg hne, Path.stem, Path.suffix, hlast, splitSuffix_longName,
        hname]
      rfl
    have hsize : test.utf8ByteSize = 259 := by
      rw [← hname, String.utf8ByteSize_append, String.utf8ByteSize_append, utf8ByteSize_ofList, List.map_replicate,
        List.sum_replicate]
      decide
    have hdots : test ≠ ".." := by
      rintro rfl
      exact absurd hsize (by decide)
    have hlong : test.utf8ByteSize > FileTree.maxNameBytes := by
      rw [hsize]
      decide
    have hshort : ¬ (pathOf ["repo", "deep", test]).toString.utf8ByteSize > FileTree.maxPathBytes := by
      rw [toString_deep, String.utf8ByteSize_append, hsize]
      decide
    refine testTooLong_iff.mpr ⟨_, htest, FileTree.lookup_of_error ?_⟩
    refine (if_neg hshort).trans ?_
    exact (wellFormed_borderTree.walk_append hdeep true FileTree.maxLinks [test]).trans (FileTree.walk_tooLong hdots hlong)

theorem files_borderTree {root : Path} {settings : Settings} {files : List Path} {searched : Host}
    (hroot : (rootOf (Path.ofString borderRequest.path)).on (.holding borderTree) = (.ok root, .holding borderTree))
    (hfiles : (Discovery.sourceFiles root.toString (borderRequest.included.getD settings.included)
      (borderRequest.excluded.getD settings.excluded)).on (.holding borderTree) = (.ok files, searched)) :
    root = pathOf ["repo"] ∧
      files = [pathOf ["repo", "a.ts"], pathOf ["repo", "b.ts"], pathOf ["repo", "deep", longName]] := by
  have hgiven : Path.ofString borderRequest.path = pathOf ["repo"] := rfl
  rw [hgiven, bare_borderTree.on_rootOf wellFormed_borderTree] at hroot
  cases hroot
  refine ⟨rfl, ?_⟩
  have hlisting : (Host.holding borderTree).files.listing ["repo"] = _ := listing_borderTree
  obtain ⟨after, hfound⟩ := Discovery.on_sourceFiles_of_wellFormed [] [] wellFormed_borderTree
    (bare_borderTree.leadsTo wellFormed_borderTree)
  have hsame : (Except.ok files, searched) = (_, after) := hfiles.symm.trans hfound
  obtain ⟨hfirst, hsecond, hthird⟩ := at?_borderTree
  have hnoPattern : ∀ {p : Location} {node : Node}, borderTree.at? p = some node → node.isLink = false →
      Path.suffix ⟨.root, p⟩ ∈ [".js", ".jsx", ".mjs", ".ts", ".tsx"] →
      Discovery.Wanted borderTree [] [] ["repo"] p := by
    intro p node hnode hlink hsuffix
    refine ⟨fun target htarget => ?_, hsuffix, fun _ hnone => absurd hnone List.not_mem_nil, .inl rfl⟩
    rw [hnode] at htarget
    cases htarget
    cases hlink
  have hwanted : ∀ p ∈ (Host.holding borderTree).files.listing ["repo"],
      decide (Discovery.Wanted (Host.holding borderTree).files [] [] ["repo"] p) = true := by
    have hsuffix : Path.suffix ⟨.root, ["repo", "deep", longName]⟩ = ".ts" := by
      have hname : Path.name ⟨.root, ["repo", "deep", longName]⟩ = longName := rfl
      rw [Path.suffix, hname, splitSuffix_longName]
      decide
    intro p hp
    rw [hlisting] at hp
    simp only [List.mem_cons, List.not_mem_nil, or_false] at hp
    rw [decide_eq_true_iff]
    rcases hp with rfl | rfl | rfl
    · exact hnoPattern hfirst rfl (by decide)
    · exact hnoPattern hsecond rfl (by decide)
    · exact hnoPattern hthird rfl (by rw [hsuffix]; decide)
  cases hsame
  rw [List.filter_eq_self.mpr hwanted, hlisting]
  rfl

theorem shownName_borderTree :
    shownName (pathOf ["repo"]) (pathOf ["repo", "a.ts"]) = "a.ts" ∧
      shownName (pathOf ["repo"]) (pathOf ["repo", "b.ts"]) = "b.ts" ∧
      shownName (pathOf ["repo"]) (pathOf ["repo", "deep", longName]) = "deep/" ++ longName := by
  have hseen : (pathOf ["repo", "deep", longName]).relativeTo? (pathOf ["repo"]) = some ⟨.here, ["deep", longName]⟩ := rfl
  refine ⟨by decide, by decide, ?_⟩
  rw [shownName, hseen]
  simp [Path.toString, Path.bare, Path.anchorText, String.intercalate_cons_cons, ← String.append_assoc]

theorem generate_splits_borderTree : ∃ g after,
    (generate .sequential borderRequest).on (.holding borderTree) = (.ok g, after) ∧
      g.analyzed = ["a.ts"] ∧ g.skipped = ["b.ts", "deep/" ++ longName] := by
  obtain ⟨g, after, hrun⟩ := generate_borderTree
  obtain ⟨root, settings, files, searched, hroot, _, hfiles, _, hanalyzed, hskipped, _⟩ :=
    generate_splits_sourceFiles wellFormed_borderTree hrun
  obtain ⟨rfl, rfl⟩ := files_borderTree hroot hfiles
  obtain ⟨hfirst, hsecond, hthird⟩ := holdsText_borderTree
  obtain ⟨hshort, hlong⟩ := testTooLong_borderTree
  obtain ⟨ha, hb, hdeep⟩ := shownName_borderTree
  refine ⟨g, after, hrun, ?_, ?_⟩
  · rw [hanalyzed]
    simp [hfirst, hsecond, hshort, hlong, ha]
  · rw [hskipped]
    simp [hfirst, hsecond, hshort, hlong, hb, hdeep]

/-- A file of text whose test would have too long a name is passed over. -/
theorem generate_skips_text : ∃ g after,
    (generate .sequential borderRequest).on (.holding borderTree) = (.ok g, after) ∧
      holdsText (.holding borderTree) (pathOf ["repo", "deep", longName]) = true ∧
      "deep/" ++ longName ∈ g.skipped := by
  obtain ⟨g, after, hrun⟩ := generate_borderTree
  obtain ⟨root, settings, files, searched, done, hroot, _, hfiles, haccounts, _, hskipped, _⟩ :=
    generate_of_ok wellFormed_borderTree hrun
  obtain ⟨rfl, rfl⟩ := files_borderTree hroot hfiles
  obtain ⟨_, _, hthird⟩ := holdsText_borderTree
  obtain ⟨_, _, hdeep⟩ := shownName_borderTree
  refine ⟨g, after, hrun, hthird, ?_⟩
  rw [hskipped, haccounts.skipped, ← hdeep]
  refine List.mem_map_of_mem (List.mem_filter.mpr ⟨by simp, ?_⟩)
  rw [isTaken, testTooLong_borderTree.2, Bool.not_true, Bool.and_false, Bool.not_false]

end ClassAtlas.Generation
