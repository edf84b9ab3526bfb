import ClassAtlas.Proofs.Generation.Accounting
/-!
# Packages are directories

A class is filed under the directory of its file. The directories of a project have different packages, with
one exception: a directory called `root` at the top of the project shares the package of the project root.
-/
namespace ClassAtlas

open ClassAtlas.Action

/-! ## The package of a file -/

namespace SourceFile

open FileTree (IsName)

variable {above above' : List String} {name : String}

/-- The package of the files in the directory that these names lead to from the project root. -/
def packageOf (above : List String) : String := if above = [] then "root" else "/".intercalate above

theorem packageOf_eq_iff (ha : ∀ n ∈ above, IsName n) (hb : ∀ n ∈ above', IsName n) :
    packageOf above = packageOf above' ↔
      above = above' ∨ (above = [] ∧ above' = ["root"]) ∨ (above = ["root"] ∧ above' = []) := by
  have hroot : ∀ {names : List String}, (∀ n ∈ names, IsName n) → "/".intercalate names = "root" → names = ["root"] := by
    intro names hnames htext
    rw [← Path.namesOf_intercalate hnames, htext]
    decide
  by_cases hnil : above = []
  · by_cases hnil' : above' = []
    · simp [hnil, hnil']
    · rw [packageOf, packageOf, if_pos hnil, if_neg hnil']
      constructor
      · intro htext
        exact .inr (.inl ⟨hnil, hroot hb htext.symm⟩)
      · rintro (rfl | ⟨_, rfl⟩ | ⟨rfl, _⟩)
        · exact absurd hnil hnil'
        · rfl
        · cases hnil
  · by_cases hnil' : above' = []
    · rw [packageOf, packageOf, if_neg hnil, if_pos hnil']
      constructor
      · intro htext
        exact .inr (.inr ⟨hroot ha htext, hnil'⟩)
      · rintro (rfl | ⟨rfl, _⟩ | ⟨rfl, _⟩)
        · exact absurd hnil' hnil
        · exact absurd rfl hnil
        · rfl
    · rw [packageOf, packageOf, if_neg hnil, if_neg hnil']
      constructor
      · intro htext
        refine .inl ?_
        rw [← Path.namesOf_intercalate ha, htext, Path.namesOf_intercalate hb]
      · rintro (rfl | ⟨h, _⟩ | ⟨_, h⟩)
        · rfl
        · exact absurd h hnil
        · exact absurd h hnil'

theorem dropEndWhile_append_singleton {p : Char → Bool} {c : Char} (hc : p c = false) {cs tail : List Char}
    (htail : ∀ d ∈ tail, p d = true) : Text.dropEndWhile p (cs ++ c :: tail) = cs ++ [c] := by
  have hreverse : (cs ++ c :: tail).reverse = tail.reverse ++ c :: cs.reverse := by simp
  have hdropped : (tail.reverse ++ c :: cs.reverse).dropWhile p = c :: cs.reverse := by
    rw [List.dropWhile_append_of_pos fun d hd => htail d (List.mem_reverse.mp hd), List.dropWhile_cons_of_neg]
    simp [hc]
  rw [Text.dropEndWhile, hreverse, hdropped]
  simp

/-- The text of a path of proper names ends in no slash. -/
theorem exists_last_of_intercalate (hne : above ≠ []) (hnames : ∀ n ∈ above, IsName n) :
    ∃ cs c, ("/".intercalate above).toList = cs ++ [c] ∧ c ≠ '/' := by
  obtain ⟨lead, last, rfl⟩ := List.eq_nil_or_concat above |>.resolve_left hne
  have hlast := hnames last (by simp)
  have hchars : last.toList ≠ [] := fun h => hlast.notEmpty (String.toList_inj.mp h)
  obtain ⟨cs, c, hcs⟩ := (List.eq_nil_or_concat last.toList).resolve_left hchars
  rw [List.concat_eq_append] at hcs
  have hc : c ≠ '/' := by
    rintro rfl
    exact hlast.oneName (by rw [hcs]; simp)
  by_cases hlead : lead = []
  · exact ⟨cs, c, by simp [hlead, hcs], hc⟩
  · refine ⟨("/".intercalate lead).toList ++ '/' :: cs, c, ?_, hc⟩
    rw [List.concat_eq_append, String.intercalate_append_of_ne_nil hlead (by simp), String.intercalate_singleton,
      String.toList_append, String.toList_append, hcs]
    simp

theorem package_eq {f : SourceFile} (hnames : ∀ n ∈ above ++ [name], IsName n)
    (hrelative : f.relative = Path.toString ⟨.here, above ++ [name]⟩) : f.package = packageOf above := by
  have htext : f.relative = "/".intercalate (above ++ [name]) := by
    rw [hrelative, Path.toString, if_neg (by simp), Path.bare]
    exact String.empty_append
  have hname : ∀ c ∈ name.toList, (c != '/') = true := by
    intro c hc
    rw [bne_iff_ne]
    rintro rfl
    exact (hnames name (by simp)).oneName hc
  by_cases hnil : above = []
  · have hdirectory : Text.dropEndWhile (· != '/') f.relative.toList = [] := by
      rw [htext, hnil, List.nil_append, String.intercalate_singleton, Text.dropEndWhile,
        List.dropWhile_eq_nil_iff.mpr fun c hc => hname c (List.mem_reverse.mp hc), List.reverse_nil]
    rw [package, hdirectory, packageOf, if_pos hnil]
    rfl
  · obtain ⟨cs, c, hcs, hc⟩ := exists_last_of_intercalate hnil fun n hn => hnames n (List.mem_append_left _ hn)
    have hdirectory : Text.dropEndWhile (· != '/') f.relative.toList = ("/".intercalate above).toList ++ ['/'] := by
      rw [htext, String.intercalate_append_of_ne_nil hnil (by simp), String.intercalate_singleton,
        String.toList_append, String.toList_append, List.append_assoc]
      exact dropEndWhile_append_singleton (by decide) hname
    have htrimmed : Text.dropEndWhile (· == '/') (("/".intercalate above).toList ++ ['/']) =
        ("/".intercalate above).toList := by
      rw [hcs, List.append_assoc]
      exact dropEndWhile_append_singleton (by simpa using hc) (by simp)
    rw [package, hdirectory, htrimmed, packageOf, if_neg hnil, if_neg (by simp), if_neg (by simp [hcs]),
      String.ofList_toList]

end SourceFile

namespace Generation

variable {h h' : Host} {path root : Path} {files : List Path} {s : HistorySettings}

/-! ## The records of a run -/

/-- The record was made of the file, after no more than notes were taken on the host. -/
def Recorded (h : Host) (s : HistorySettings) (root path : Path) (r : ClassRecord) : Prop :=
  ∃ f id middle last, h.Noted middle ∧ (SourceFile.read path root).on middle = (.ok f, middle) ∧
    (f.record id (History.source s) root).on middle = (.ok r, last)

/-- One file adds its own record at most. -/
theorem recorded_analyzeNext {p p' : Progress} {done : Bool} {middle : Host} (hnoted : h.Noted middle)
    (hrun : (analyzeNext (History.source s) root p path).on middle = (.ok (done, p'), h')) :
    ∀ r ∈ p'.records, r ∈ p.records ∨ Recorded h s root path r := by
  intro r hr
  rcases attempt_bind_eq_ok hrun with ⟨source, after, hread, hrun⟩ | ⟨f, after, _, hrun⟩
  · have hsame := (SourceFile.asks_read path root).eq_of_ok hread
    rw [hsame] at hrun hread
    rcases hfresh : p.ids.fresh "component" with ⟨id, ids⟩
    simp only [hfresh] at hrun
    rcases attempt_bind_eq_ok hrun with ⟨made, last, hrecord, hrun⟩ | ⟨f, last, _, hrun⟩
    · cases hrun
      rcases List.mem_append.mp hr with hold | hnew
      · exact .inl hold
      · obtain rfl := List.mem_singleton.mp hnew
        exact .inr ⟨source, id, middle, _, hnoted, hread, hrecord⟩
    · obtain ⟨p'', _, hover, hrun⟩ := Action.bind_eq_ok hrun
      obtain ⟨_, rfl⟩ := passOver_of_ok hover
      cases hrun
      exact .inl hr
  · obtain ⟨p'', _, hover, hrun⟩ := Action.bind_eq_ok hrun
    obtain ⟨_, rfl⟩ := passOver_of_ok hover
    cases hrun
    exact .inl hr

/-- All files: each record is that of one of them. -/
theorem recorded_analyzeAll {total index : Nat} {paths : List Path} {p p' : Progress} {middle : Host}
    (hnoted : h.Noted middle)
    (hrun : (analyzeAll (History.source s) root total index p paths).on middle = (.ok p', h')) :
    ∀ r ∈ p'.records, r ∈ p.records ∨ ∃ path ∈ paths, Recorded h s root path r := by
  induction paths generalizing index p middle with
  | nil =>
    cases hrun
    exact fun r hr => .inl hr
  | cons path paths ih =>
    obtain ⟨⟨done, next⟩, after, hnext, hafter, hrun⟩ := (notes_analyzeNext s root p path).bind_eq_ok hrun
    have hsteps := hnoted.trans hafter
    have hrest : ∃ last, h.Noted last ∧
        (analyzeAll (History.source s) root total (index + 1) next paths).on last = (.ok p', h') := by
      dsimp only at hrun
      split at hrun
      case isTrue =>
        obtain ⟨_, last, _, hlast, hrun⟩ := (notes_debug _ _).bind_eq_ok hrun
        exact ⟨last, hsteps.trans hlast, hrun⟩
      case isFalse => exact ⟨after, hsteps, hrun⟩
    obtain ⟨last, hlast, hrest⟩ := hrest
    intro r hr
    rcases ih hlast hrest r hr with hold | ⟨other, hother, hof⟩
    · rcases recorded_analyzeNext hnoted hnext r hold with hold | hof
      · exact .inl hold
      · exact .inr ⟨path, List.mem_cons_self, hof⟩
    · exact .inr ⟨other, List.mem_cons_of_mem _ hother, hof⟩

/-- The record names the file as it is seen from the root, and the package of it. -/
def RecordOf (root path : Path) (r : ClassRecord) : Prop :=
  ∃ (f : SourceFile) (below : Path), path.relativeTo? root = some below ∧ f.relative = below.toString ∧
    r.file = f.relative ∧ r.package = f.package

theorem Recorded.recordOf {r : ClassRecord} (hof : Recorded h s root path r) : RecordOf root path r := by
  obtain ⟨f, id, middle, last, _, hread, hrecord⟩ := hof
  obtain ⟨_, _, _, below, hbelow, hfile⟩ := read_of_ok hread
  obtain ⟨known, _, _, hrecord⟩ := Action.bind_eq_ok hrecord
  obtain ⟨tested, _, _, hrecord⟩ := Action.bind_eq_ok hrecord
  cases hrecord
  exact ⟨f, below, hbelow, hfile, rfl, rfl⟩

/-- Records have identifiers of their own, which were issued for them. -/
structure Progress.Filed (p : Progress) : Prop where
  issued : ∀ r ∈ p.records, r.id ∈ p.ids.issued
  ids_nodup : (p.records.map (·.id)).Nodup

namespace Progress.Filed

variable {p : Progress}

theorem start (ids : Ids) : (Progress.start ids).Filed where
  issued _ hr := by cases hr
  ids_nodup := List.nodup_nil

theorem passOver (hp : p.Filed) {ids : Ids} (hgrown : p.ids.issued ⊆ ids.issued) (file : String) :
    (p.passOver ids file).Filed where
  issued r hr := hgrown (hp.issued r hr)
  ids_nodup := hp.ids_nodup

theorem add (hp : p.Filed) {ids : Ids} {r : ClassRecord} (hissues : p.ids.Issues r.id ids) (file : String) :
    (p.add ids r file).Filed where
  issued other hother := by
    show other.id ∈ ids.issued
    rw [hissues.issued_eq]
    rcases List.mem_append.mp hother with hold | hnew
    · exact List.mem_cons_of_mem _ (hp.issued other hold)
    · rw [List.mem_singleton.mp hnew]
      exact List.mem_cons_self
  ids_nodup := by
    show ((p.records ++ [r]).map (·.id)).Nodup
    rw [List.map_append, List.map_singleton]
    refine List.Nodup.append hp.ids_nodup (List.nodup_singleton _) ?_
    rw [List.disjoint_singleton]
    intro hold
    obtain ⟨other, hother, hid⟩ := List.mem_map.mp hold
    exact hissues.free (hid ▸ hp.issued other hother)

end Progress.Filed

theorem id_of_record {f : SourceFile} {id : String} {r : ClassRecord}
    (hrun : (f.record id (History.source s) root).on h = (.ok r, h')) : r.id = id := by
  obtain ⟨known, noted, _, hrun⟩ := Action.bind_eq_ok hrun
  obtain ⟨tested, _, _, hrun⟩ := Action.bind_eq_ok hrun
  cases hrun
  rfl

/-- One file. -/
theorem filed_analyzeNext {p p' : Progress} {done : Bool} (hp : p.Filed)
    (hrun : (analyzeNext (History.source s) root p path).on h = (.ok (done, p'), h')) : p'.Filed := by
  rcases attempt_bind_eq_ok hrun with ⟨source, middle, _, hrun⟩ | ⟨f, middle, _, hrun⟩
  · have hissues := p.ids.issues_fresh "component"
    rcases hfresh : p.ids.fresh "component" with ⟨id, ids⟩
    rw [hfresh] at hissues
    simp only [hfresh] at hrun
    rcases attempt_bind_eq_ok hrun with ⟨r, last, hrecord, hrun⟩ | ⟨f, last, _, hrun⟩
    · cases hrun
      obtain rfl := id_of_record hrecord
      exact hp.add hissues _
    · obtain ⟨p'', _, hover, hrun⟩ := Action.bind_eq_ok hrun
      obtain ⟨_, rfl⟩ := passOver_of_ok hover
      cases hrun
      refine hp.passOver ?_ _
      rw [hissues.issued_eq]
      exact List.subset_cons_self _ _
  · obtain ⟨p'', _, hover, hrun⟩ := Action.bind_eq_ok hrun
    obtain ⟨_, rfl⟩ := passOver_of_ok hover
    cases hrun
    exact hp.passOver (List.Subset.refl _) _

/-- All files. -/
theorem filed_analyzeAll {total index : Nat} {paths : List Path} {p p' : Progress} (hp : p.Filed)
    (hrun : (analyzeAll (History.source s) root total index p paths).on h = (.ok p', h')) : p'.Filed := by
  induction paths generalizing index p h with
  | nil =>
    cases hrun
    exact hp
  | cons path paths ih =>
    obtain ⟨⟨done, next⟩, after, hnext, hrun⟩ := Action.bind_eq_ok hrun
    have hstep := filed_analyzeNext hp hnext
    dsimp only at hrun
    split at hrun
    case isTrue =>
      obtain ⟨_, last, _, hrun⟩ := Action.bind_eq_ok hrun
      exact ih hstep hrun
    case isFalse => exact ih hstep hrun

/-! ## Classes and directories -/

/-- Only a directory has something below it. -/
theorem directory_above {t : FileTree} (ht : t.WellFormed) {place : Location} {rest : List String} {node : Node}
    (hne : rest ≠ []) (hbelow : t.at? (place ++ rest) = some node) :
    ∃ locked, t.at? place = some (.directory locked) := by
  induction rest using List.reverseRecOn generalizing node with
  | nil => exact absurd rfl hne
  | append_singleton lead last ih =>
    rw [← List.append_assoc] at hbelow
    obtain ⟨_, locked, hparent⟩ := ht.parent hbelow
    by_cases hlead : lead = []
    · rw [hlead, List.append_nil] at hparent
      exact ⟨locked, hparent⟩
    · exact ih hlead hparent

/-- What is at the place is no directory. -/
def IsLeaf (h : Host) (place : Location) : Prop := ∃ node, h.files.at? place = some node ∧ node.isDirectory = false

theorem eq_nil_of_isLeaf (ht : h.files.WellFormed) {place : Location} {rest : List String} (hleaf : IsLeaf h place)
    (hbelow : IsLeaf h (place ++ rest)) : rest = [] := by
  obtain ⟨node, hnode, hdirectory⟩ := hleaf
  obtain ⟨other, hother, _⟩ := hbelow
  by_contra hne
  obtain ⟨locked, hlocked⟩ := directory_above ht hne hother
  rw [hnode] at hlocked
  cases hlocked
  cases hdirectory

theorem below_of_relativeTo {place : Location} {seen : Path} (hseen : (pathOf place).relativeTo? root = some seen) :
    ∃ below, root = pathOf root.parts ∧ place = root.parts ++ below ∧ seen = ⟨.here, below⟩ := by
  unfold Path.relativeTo? at hseen
  split at hseen
  case isTrue hunder =>
    cases hseen
    obtain ⟨hanchor, hprefix⟩ := hunder
    obtain ⟨below, hbelow⟩ := List.isPrefixOf_iff_prefix.mp hprefix
    refine ⟨below, ?_, hbelow.symm, ?_⟩
    · exact congrArg (fun anchor => (⟨anchor, root.parts⟩ : Path)) hanchor.symm
    · rw [← hbelow, List.drop_left]
  case isFalse => cases hseen

/-- Of two files under the root, one may only be the root itself if they are the same. -/
theorem package_eq_iff_parent_eq (ht : h.files.WellFormed) {a b : Location} {c d : ClassRecord}
    (ha : IsLeaf h a) (hb : IsLeaf h b) (hc : RecordOf root (pathOf a) c) (hd : RecordOf root (pathOf b) d) :
    c.package = d.package ↔ (pathOf a).parent = (pathOf b).parent ∨
      ((pathOf a).parent = root ∧ (pathOf b).parent = root.child "root") ∨
      ((pathOf a).parent = root.child "root" ∧ (pathOf b).parent = root) := by
  obtain ⟨f, seen, hseen, hf, _, hcpackage⟩ := hc
  obtain ⟨f', seen', hseen', hf', _, hdpackage⟩ := hd
  obtain ⟨below, hroot, rfl, rfl⟩ := below_of_relativeTo hseen
  obtain ⟨below', _, rfl, rfl⟩ := below_of_relativeTo hseen'
  have hnames : ∀ n ∈ below, FileTree.IsName n := fun n hn =>
    ht.isName_of_mem ha.choose_spec.1 n (List.mem_append_right _ hn)
  have hnames' : ∀ n ∈ below', FileTree.IsName n := fun n hn =>
    ht.isName_of_mem hb.choose_spec.1 n (List.mem_append_right _ hn)
  rcases List.eq_nil_or_concat' below with rfl | ⟨above, name, rfl⟩
  · rw [List.append_nil] at ha
    obtain rfl := eq_nil_of_isLeaf ht ha hb
    have hsame : f.package = f'.package := by simp only [SourceFile.package, hf, hf']
    rw [hcpackage, hdpackage, hsame]
    exact iff_of_true rfl (.inl rfl)
  · rcases List.eq_nil_or_concat' below' with rfl | ⟨above', name', rfl⟩
    · rw [List.append_nil] at hb
      exact absurd (eq_nil_of_isLeaf ht hb ha) (by simp)
    · have hparent : ∀ above name, (pathOf (root.parts ++ (above ++ [name]))).parent = pathOf (root.parts ++ above) := by
        intro above name
        rw [← List.append_assoc, Path.parent, pathOf, List.dropLast_concat]
        rfl
      have hplace : ∀ above, pathOf (root.parts ++ above) = root ↔ above = [] := by
        intro above
        rw [hroot]
        simp [pathOf]
      have hchild : ∀ above, pathOf (root.parts ++ above) = root.child "root" ↔ above = ["root"] := by
        intro above
        rw [hroot]
        simp [pathOf, Path.child]
      have hinj : pathOf (root.parts ++ above) = pathOf (root.parts ++ above') ↔ above = above' := by simp [pathOf]
      rw [hcpackage, hdpackage, SourceFile.package_eq hnames hf, SourceFile.package_eq hnames' hf',
        hparent, hparent, hinj, hplace, hplace, hchild, hchild]
      exact SourceFile.packageOf_eq_iff (fun n hn => hnames n (List.mem_append_left _ hn))
        fun n hn => hnames' n (List.mem_append_left _ hn)

theorem isLeaf_of_sourceFiles (ht : h.files.WellFormed) {start : String} {included excluded : List String}
    {searched : Host} (hrun : (Discovery.sourceFiles start included excluded).on h = (.ok files, searched)) :
    ∀ p ∈ files, ∃ place, p = pathOf place ∧ IsLeaf h place := by
  obtain ⟨top, hleads⟩ := Discovery.leadsTo_of_sourceFiles included excluded hrun
  obtain ⟨after, hall⟩ := Discovery.on_sourceFiles_of_wellFormed included excluded ht hleads
  rw [hrun] at hall
  obtain rfl := Except.ok.inj (Prod.mk.inj hall).1
  intro p hp
  obtain ⟨place, hplace, rfl⟩ := List.mem_map.mp hp
  exact ⟨place, rfl, ht.node_of_mem_listing (List.mem_of_mem_filter hplace)⟩

/-- Each record is that of a file which the search finds. -/
theorem filed_of_generate {after : Host} (ht : h.files.WellFormed) {ids : Ids} {q : Request} {g : Generation}
    (hrun : (generate ids q).on h = (.ok g, after)) :
    ∃ (root : Path) (settings : Settings) (files : List Path) (searched : Host) (done : Progress),
      (rootOf (Path.ofString q.path)).on h = (.ok root, h) ∧ (Settings.load root).on h = (.ok settings, h) ∧
      (Discovery.sourceFiles root.toString (q.included.getD settings.included)
        (q.excluded.getD settings.excluded)).on h = (.ok files, searched) ∧ done.Filed ∧
      (∀ r ∈ done.records, ∃ path ∈ files, Recorded h settings.history root path r) ∧
      g.snapshot.classes = ((Assembly.start done.ids).gather done.records).1.classes ∧
      g.snapshot.packages = ((Assembly.start done.ids).gather done.records).1.packages := by
  obtain ⟨root, hroot, hrun⟩ := (asks_rootOf _).bind_eq_ok hrun
  obtain ⟨settings, hsettings, hrun⟩ := (Settings.asks_load root).bind_eq_ok hrun
  obtain ⟨files, done, searching, _, analyzing, _, _, _, hsearching, hfiles, hanalyzing, hdone, _, _, hclasses,
    hpackages, _⟩ := ofSettings_of_ok hrun
  obtain ⟨_, searched, _, _, _, hsearched⟩ := Discovery.places_of_sourceFiles hsearching ht hfiles
  have hfiled := filed_analyzeAll (.start ids) hdone
  have hrecorded : ∀ r ∈ done.records, ∃ path ∈ files, Recorded h settings.history root path r := by
    intro r hr
    rcases recorded_analyzeAll hanalyzing hdone r hr with hstart | hof
    · cases hstart
    · exact hof
  exact ⟨root, settings, files, searched, done, hroot, hsettings, hsearched, hfiled, hrecorded, hclasses, hpackages⟩

theorem mem_records_of_own {a : Assembly} {records : List ClassRecord} {c : ClassRecord}
    (hc : c ∈ (a.gather records).1.classes) (hown : c.external = false) : c ∈ records := by
  rw [Assembly.classes_gather] at hc
  rcases List.mem_append.mp hc with hrecord | hstub
  · exact hrecord
  · rw [Assembly.eq_stub_of_mem_newStubs hstub, Assembly.stub_external] at hown
    cases hown

/-- Two classes of a round are in one package entry if and only if they name the same package. -/
theorem package_entry_iff {ids : Ids} {records : List ClassRecord} {c d : ClassRecord}
    (hissued : ∀ r ∈ records, r.id ∈ ids.issued) (hnodup : (records.map (·.id)).Nodup)
    (hc : c ∈ ((Assembly.start ids).gather records).1.classes)
    (hd : d ∈ ((Assembly.start ids).gather records).1.classes) :
    (∃ e ∈ ((Assembly.start ids).gather records).1.packages, c.id ∈ e.classIds ∧ d.id ∈ e.classIds) ↔
      c.package = d.package := by
  have hholds := @Assembly.Holds.gather _ _ records (Assembly.holds_start ids)
  rw [List.nil_append] at hholds
  rw [Assembly.packages_gather]
  have hdistinct := Assembly.ids_gather_nodup (a := Assembly.start ids) hissued hnodup
  -- An identifier is listed under the package of the one class that bears it.
  have hlisted : ∀ r ∈ ((Assembly.start ids).gather records).1.classes,
      ∀ e ∈ ((Assembly.start ids).gather records).2.packages, r.id ∈ e.classIds ↔ r.package = e.path := by
    intro r hr e he
    rw [hholds.classIds_eq e he, Assembly.mem_idsAt]
    constructor
    · rintro ⟨other, hother, hpath, hid⟩
      rwa [← List.inj_on_of_nodup_map hdistinct hother hr hid]
    · intro hpath
      exact ⟨r, hr, hpath, rfl⟩
  constructor
  · rintro ⟨e, he, hce, hde⟩
    exact ((hlisted c hc e he).mp hce).trans ((hlisted d hd e he).mp hde).symm
  · intro hsame
    obtain ⟨e, he, hpath⟩ := List.mem_map.mp (hholds.package_mem c hc)
    refine ⟨e, he, (hlisted c hc e he).mpr hpath.symm, (hlisted d hd e he).mpr ?_⟩
    rw [← hsame, hpath]

/-- Each of the project's own classes is that of a file found, and two of them share a package, as a value and
as an entry, if and only if their files share a directory, or one of these is the project root and the other
the directory `root` in it. -/
theorem generate_groups_by_directory {after : Host} (ht : h.files.WellFormed) {ids : Ids} {q : Request}
    {g : Generation} (hrun : (generate ids q).on h = (.ok g, after)) :
    ∃ root settings files searched,
      (rootOf (Path.ofString q.path)).on h = (.ok root, h) ∧ (Settings.load root).on h = (.ok settings, h) ∧
      (Discovery.sourceFiles root.toString (q.included.getD settings.included)
        (q.excluded.getD settings.excluded)).on h = (.ok files, searched) ∧
      (∀ c ∈ g.snapshot.classes, c.external = false → ∃ p ∈ files, c.file = shownName root p) ∧
      ∀ c ∈ g.snapshot.classes, ∀ d ∈ g.snapshot.classes, c.external = false → d.external = false →
        ∀ p ∈ files, ∀ p' ∈ files, c.file = shownName root p → d.file = shownName root p' →
          (c.package = d.package ↔ p.parent = p'.parent ∨
            (p.parent = root ∧ p'.parent = root.child "root") ∨ (p.parent = root.child "root" ∧ p'.parent = root)) ∧
          ((∃ e ∈ g.snapshot.packages, c.id ∈ e.classIds ∧ d.id ∈ e.classIds) ↔ c.package = d.package) := by
  obtain ⟨root, settings, files, searched, done, hroot, hsettings, hsearched, hfiled, hrecorded, hclasses,
    hpackages⟩ := filed_of_generate ht hrun
  rw [hclasses, hpackages]
  have hleaves := isLeaf_of_sourceFiles ht hsearched
  have hshown : ∀ {path : Path} {c : ClassRecord}, RecordOf root path c → c.file = shownName root path := by
    rintro path c ⟨f, seen, hseen, hrelative, hfile, _⟩
    rw [hfile, hrelative, shownName, hseen, Option.getD_some]
  have hsource : ∀ c ∈ done.records, ∀ p ∈ files, c.file = shownName root p → RecordOf root p c := by
    intro c hc p hp hfile
    obtain ⟨path, hpath, hof⟩ := hrecorded c hc
    have hof := hof.recordOf
    obtain ⟨place, rfl, node, hnode, _⟩ := hleaves p hp
    obtain ⟨other, rfl, node', hnode', _⟩ := hleaves path hpath
    rw [hshown hof, shownName_eq_iff (ht.isName_of_mem hnode') (ht.isName_of_mem hnode)] at hfile
    rwa [← hfile]
  refine ⟨root, settings, files, searched, hroot, hsettings, hsearched, ?_, ?_⟩
  · intro c hc hown
    obtain ⟨path, hpath, hof⟩ := hrecorded c (mem_records_of_own hc hown)
    exact ⟨path, hpath, hshown hof.recordOf⟩
  · intro c hc d hd hcown hdown p hp p' hp' hcfile hdfile
    have hcof := hsource c (mem_records_of_own hc hcown) p hp hcfile
    have hdof := hsource d (mem_records_of_own hd hdown) p' hp' hdfile
    obtain ⟨place, rfl, hleaf⟩ := hleaves p hp
    obtain ⟨place', rfl, hleaf'⟩ := hleaves p' hp'
    exact ⟨package_eq_iff_parent_eq ht hleaf hleaf' hcof hdof,
      package_entry_iff hfiled.issued hfiled.ids_nodup hc hd⟩

/-! ## A project with a directory called `root` -/

def rootedTree : FileTree where
  nodes := [(["repo"], .directory false), (["repo", "b.ts"], .file (Utf8.encode "class B {}".toList)),
    (["repo", "lib"], .directory false), (["repo", "lib", "c.ts"], .file (Utf8.encode "class C {}".toList)),
    (["repo", "root"], .directory false), (["repo", "root", "a.ts"], .file (Utf8.encode "class A {}".toList))]

theorem wellFormed_rootedTree : rootedTree.WellFormed := by decide

def rootedPlaces : List Location := [["repo", "b.ts"], ["repo", "lib", "c.ts"], ["repo", "root", "a.ts"]]

theorem listing_rootedTree : rootedTree.listing ["repo"] = rootedPlaces := by
  have hrepo : rootedTree.names ["repo"] = ["b.ts", "lib", "root"] := FileTree.names_of_sorted (by decide) (by decide)
  have hlib : rootedTree.listing ["repo", "lib"] = [["repo", "lib", "c.ts"]] := by
    have hnames : rootedTree.names ["repo", "lib"] = ["c.ts"] := FileTree.names_of_sorted (by decide) (by decide)
    rw [FileTree.listing_of_not_locked (by decide), FileTree.leaves, FileTree.subdirectories, hnames]
    rfl
  have hroot : rootedTree.listing ["repo", "root"] = [["repo", "root", "a.ts"]] := by
    have hnames : rootedTree.names ["repo", "root"] = ["a.ts"] := FileTree.names_of_sorted (by decide) (by decide)
    rw [FileTree.listing_of_not_locked (by decide), FileTree.leaves, FileTree.subdirectories, hnames]
    rfl
  have hleaves : rootedTree.leaves ["repo"] = ["b.ts"] := by
    rw [FileTree.leaves, hrepo]
    decide
  have hdirectories : rootedTree.subdirectories ["repo"] = ["lib", "root"] := by
    rw [FileTree.subdirectories, hrepo]
    decide
  rw [FileTree.listing_of_not_locked (by decide), hleaves, hdirectories]
  simp [hlib, hroot, rootedPlaces]

theorem bare_rootedTree : Bare (.holding rootedTree) ["repo"] where
  directory := ⟨false, by decide⟩
  noSettings := by decide
  noManifest := by decide
  resolved := by decide
  settingsResolved := by decide
  short := by decide

theorem generate_rootedTree : (generate .sequential borderRequest).Returns (.holding rootedTree) :=
  bare_rootedTree.generate_returns wellFormed_rootedTree (bare_rootedTree.on_load wellFormed_rootedTree) rfl (fun _ => ⟨.notFound, rfl, rfl⟩) rfl _

theorem files_rootedTree {root : Path} {settings : Settings} {files : List Path} {searched : Host}
    (hroot : (rootOf (Path.ofString borderRequest.path)).on (.holding rootedTree) = (.ok root, .holding rootedTree))
    (hfiles : (Discovery.sourceFiles root.toString (borderRequest.included.getD settings.included)
      (borderRequest.excluded.getD settings.excluded)).on (.holding rootedTree) = (.ok files, searched)) :
    root = pathOf ["repo"] ∧ files = rootedPlaces.map pathOf := by
  have hgiven : Path.ofString borderRequest.path = pathOf ["repo"] := rfl
  rw [hgiven, bare_rootedTree.on_rootOf wellFormed_rootedTree] at hroot
  cases hroot
  obtain ⟨after, hfound⟩ := Discovery.on_sourceFiles_of_wellFormed [] [] wellFormed_rootedTree
    (bare_rootedTree.leadsTo wellFormed_rootedTree)
  have hsame : (Except.ok files, searched) = (_, after) := hfiles.symm.trans hfound
  cases hsame
  refine ⟨rfl, ?_⟩
  show ((rootedTree.listing ["repo"]).filter _).map pathOf = _
  rw [listing_rootedTree]
  decide

theorem isTaken_rootedTree : ∀ place ∈ rootedPlaces, isTaken (.holding rootedTree) (pathOf place) = true := by
  have htaken : ∀ {above : Location} {name test : String} {bytes : List UInt8},
      rootedTree.at? (above ++ [name]) = some (.file bytes) → (Utf8.decode bytes).isOk = true →
      (pathOf (above ++ [name])).siblingTest? = some (pathOf (above ++ [test])) →
      (∃ locked, rootedTree.at? above = some (.directory locked)) → FileTree.IsName test →
      rootedTree.at? (above ++ [test]) = none →
      (pathOf (above ++ [name])).toString.utf8ByteSize ≤ FileTree.maxPathBytes →
      (pathOf (above ++ [test])).toString.utf8ByteSize ≤ FileTree.maxPathBytes →
      isTaken (.holding rootedTree) (pathOf (above ++ [name])) = true := by
    intro above name test bytes hfile hdecoded htest habove hname hnone hshort hshort'
    obtain ⟨locked, habove⟩ := habove
    have htext := holdsText_of_file (h := .holding rootedTree) wellFormed_rootedTree hfile hshort
    have hmissing := lookup_pathOf_missing wellFormed_rootedTree habove hname hnone hshort' [] true
    have hfits : testTooLong (.holding rootedTree) (pathOf (above ++ [name])) = false := by
      rw [← Bool.not_eq_true, testTooLong_iff]
      rintro ⟨other, hother, hlong⟩
      rw [htest] at hother
      cases hother
      cases hmissing.symm.trans hlong
    rw [isTaken, htext, hdecoded, hfits]
    rfl
  intro place hplace
  simp only [rootedPlaces, List.mem_cons, List.not_mem_nil, or_false] at hplace
  rcases hplace with rfl | rfl | rfl
  · exact @htaken ["repo"] "b.ts" "b.test.ts" (Utf8.encode "class B {}".toList) (by decide) (by decide) (by decide)
      ⟨false, by decide⟩ (by decide) (by decide) (by decide) (by decide)
  · exact @htaken ["repo", "lib"] "c.ts" "c.test.ts" (Utf8.encode "class C {}".toList) (by decide) (by decide)
      (by decide) ⟨false, by decide⟩ (by decide) (by decide) (by decide) (by decide)
  · exact @htaken ["repo", "root"] "a.ts" "a.test.ts" (Utf8.encode "class A {}".toList) (by decide) (by decide)
      (by decide) ⟨false, by decide⟩ (by decide) (by decide) (by decide) (by decide)

theorem classes_rootedTree {g : Generation} {after : Host}
    (hrun : (generate .sequential borderRequest).on (.holding rootedTree) = (.ok g, after)) :
    ∀ file ∈ ["b.ts", "lib/c.ts", "root/a.ts"], ∃ c ∈ g.snapshot.classes, c.external = false ∧ c.file = file := by
  obtain ⟨root, settings, files, searched, done, hroot, _, hfiles, haccounts, _, _, hclasses⟩ :=
    generate_of_ok wellFormed_rootedTree hrun
  obtain ⟨rfl, rfl⟩ := files_rootedTree hroot hfiles
  have hall : (rootedPlaces.map pathOf).filter (isTaken (.holding rootedTree)) = rootedPlaces.map pathOf := by
    rw [List.filter_eq_self]
    intro p hp
    obtain ⟨place, hplace, rfl⟩ := List.mem_map.mp hp
    exact isTaken_rootedTree place hplace
  have hnames : done.records.map (·.file) = ["b.ts", "lib/c.ts", "root/a.ts"] := by
    rw [haccounts.records, haccounts.analyzed, hall]
    decide
  intro file hfile
  rw [← hnames] at hfile
  obtain ⟨c, hc, rfl⟩ := List.mem_map.mp hfile
  rw [← hclasses] at hc
  obtain ⟨hc, hown⟩ := List.mem_filter.mp hc
  exact ⟨c, hc, by simpa using hown, rfl⟩

theorem generate_groups_rootedTree : ∃ g after,
    (generate .sequential borderRequest).on (.holding rootedTree) = (.ok g, after) ∧
      ∃ c ∈ g.snapshot.classes, ∃ d ∈ g.snapshot.classes, c.file = "b.ts" ∧ d.file = "lib/c.ts" ∧
        c.package ≠ d.package := by
  obtain ⟨g, after, hrun⟩ := generate_rootedTree
  obtain ⟨c, hc, hcown, hcfile⟩ := classes_rootedTree hrun "b.ts" (by decide)
  obtain ⟨d, hd, hdown, hdfile⟩ := classes_rootedTree hrun "lib/c.ts" (by decide)
  obtain ⟨root, settings, files, searched, hroot, _, hfiles, _, hgroups⟩ :=
    generate_groups_by_directory wellFormed_rootedTree hrun
  obtain ⟨rfl, rfl⟩ := files_rootedTree hroot hfiles
  refine ⟨g, after, hrun, c, hc, d, hd, hcfile, hdfile, ?_⟩
  have hiff := (hgroups c hc d hd hcown hdown (pathOf ["repo", "b.ts"]) (by decide) (pathOf ["repo", "lib", "c.ts"])
    (by decide) (hcfile.trans (by decide)) (hdfile.trans (by decide))).1
  rw [ne_eq, hiff]
  decide

/-- The project root and the directory `root` in it share a package. -/
theorem generate_merges_directories : ∃ g after,
    (generate .sequential borderRequest).on (.holding rootedTree) = (.ok g, after) ∧
      ∃ c ∈ g.snapshot.classes, ∃ d ∈ g.snapshot.classes, c.external = false ∧ d.external = false ∧
        c.file = "b.ts" ∧ d.file = "root/a.ts" ∧ c.package = d.package := by
  obtain ⟨g, after, hrun⟩ := generate_rootedTree
  obtain ⟨c, hc, hcown, hcfile⟩ := classes_rootedTree hrun "b.ts" (by decide)
  obtain ⟨d, hd, hdown, hdfile⟩ := classes_rootedTree hrun "root/a.ts" (by decide)
  obtain ⟨root, settings, files, searched, done, _, _, _, _, hrecorded, hclasses, _⟩ :=
    filed_of_generate wellFormed_rootedTree hrun
  have hpackage : ∀ r ∈ g.snapshot.classes, r.external = false → ∃ f : SourceFile, r.file = f.relative ∧
      r.package = f.package := by
    intro r hr hown
    rw [hclasses] at hr
    obtain ⟨_, _, hof⟩ := hrecorded r (mem_records_of_own hr hown)
    obtain ⟨f, _, _, _, hfile, hpackage⟩ := hof.recordOf
    exact ⟨f, hfile, hpackage⟩
  refine ⟨g, after, hrun, c, hc, d, hd, hcown, hdown, hcfile, hdfile, ?_⟩
  obtain ⟨f, hf, hcpackage⟩ := hpackage c hc hcown
  obtain ⟨f', hf', hdpackage⟩ := hpackage d hd hdown
  have htop : ∀ n ∈ ([] : List String) ++ ["b.ts"], FileTree.IsName n := by decide
  have hbelow : ∀ n ∈ ["root"] ++ ["a.ts"], FileTree.IsName n := by decide
  rw [hcpackage, hdpackage, SourceFile.package_eq htop (hf.symm.trans (hcfile.trans (by decide))),
    SourceFile.package_eq hbelow (hf'.symm.trans (hdfile.trans (by decide)))]
  rfl

end Generation
end ClassAtlas
