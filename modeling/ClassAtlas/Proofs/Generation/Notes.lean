import ClassAtlas.Generation
import ClassAtlas.Proofs.Analysis.Discovery
import ClassAtlas.Proofs.Host.Noted
/-!
# What generating changes

Finding the root and the settings of a project changes nothing. The search for source files, the
questions to version control and the analysis of files take notes and change nothing else.
-/
namespace ClassAtlas

open ClassAtlas.Action

/-! ## Root and settings -/

theorem Settings.asks_filePath (p : Path) : Asks (filePath p) := by
  refine (asks_expandHome p).bind fun p => (asks_probe _ _ p).bind fun directory => ?_
  split
  · exact asks_resolve _
  · split
    · exact asks_resolve _
    · exact asks_resolve _

theorem Settings.asks_readText (file : Path) : Asks (readText file) := by
  refine (asks_readBytes file).attempt.bind fun result => ?_
  cases result with
  | error f =>
    dsimp only
    split
    · exact asks_throw _
    · exact asks_throw _
  | ok bytes =>
    dsimp only
    split
    · exact asks_throw _
    · exact asks_pure _

theorem Settings.asks_load (p : Path) : Asks (load p) := by
  refine (asks_filePath p).bind fun file => (asks_resolve _).bind fun root => (asks_probe _ _ file).bind fun found => ?_
  cases found with
  | false => exact asks_pure _
  | true => exact (asks_readText file).bind fun text h => rfl

theorem Generation.asks_rootOf (p : Path) : Asks (rootOf p) := by
  refine (asks_expandHome p).bind fun q => (asks_resolve q).bind fun root => (asks_probe _ _ root).bind fun found => ?_
  cases found with
  | false => exact asks_throw _
  | true => exact asks_pure _

/-! ## The search -/

theorem Discovery.notes_collect (findings : List Finding) : Notes (collect findings) := by
  induction findings with
  | nil => exact notes_pure _
  | cons finding rest ih =>
    cases finding with
    | source place => exact ih.bind fun _ => notes_pure _
    | unlisted place => exact (notes_warn _ _).bind fun _ => ih

theorem Discovery.notes_sourceFiles (root : String) (included excluded : List String) :
    Notes (sourceFiles root included excluded) := by
  refine (asks_expandHome _).notes.bind fun p => (asks_resolve p).notes.bind fun place =>
    (asks_probe _ _ place).notes.bind fun found => ?_
  cases found with
  | false => exact notes_throw _
  | true =>
    refine (asks_probe _ _ place).notes.bind fun directory => ?_
    cases directory with
    | false => exact notes_throw _
    | true =>
      exact notes_get.bind fun _ => (notes_collect _).bind fun _ => (notes_debug _ _).bind fun _ => notes_pure _

theorem Discovery.LeadsTo.of_noted {h h' : Host} (hnoted : h.Noted h') (ht : h.files.WellFormed) {root : String}
    {place : Location} (hroot : LeadsTo h' root place) : LeadsTo h root place := by
  obtain ⟨⟨p, hexpanded, hresolved⟩, hdirectory⟩ := hroot
  refine ⟨⟨p, ?_, ?_⟩, ?_⟩
  · exact (steady_expandHome _).on_eq (asks_expandHome _) hnoted ht hexpanded
  · exact (steady_resolve p).on_eq (asks_resolve p) hnoted ht hresolved
  · exact (steady_isDirectory _).on_eq (asks_probe _ _ _) hnoted ht hdirectory

theorem Discovery.LeadsTo.noted {h h' : Host} {root : String} {place : Location} (hroot : LeadsTo h root place)
    (hnoted : h.Noted h') (ht : h.files.WellFormed) : LeadsTo h' root place := by
  obtain ⟨⟨p, hexpanded, hresolved⟩, hdirectory⟩ := hroot
  refine ⟨⟨p, ?_, ?_⟩, ?_⟩
  · exact (steady_expandHome _).on_noted (asks_expandHome _) hnoted ht hexpanded
  · exact (steady_resolve p).on_noted (asks_resolve p) hnoted ht hresolved
  · exact (steady_isDirectory _).on_noted (asks_probe _ _ _) hnoted ht hdirectory

theorem Discovery.wanted_noted {h h' : Host} (hnoted : h.Noted h') {included excluded : List String}
    {root place : Location} :
    Wanted h'.files included excluded root place ↔ Wanted h.files included excluded root place := by
  have hlink : (∀ target, h'.files.at? place ≠ some (.link target)) ↔
      ∀ target, h.files.at? place ≠ some (.link target) :=
    forall_congr' fun target => not_congr (hnoted.files.at?_iff rfl)
  constructor
  · exact fun hw => ⟨hlink.mp hw.notLink, hw.suffix, hw.notExcluded, hw.isIncluded⟩
  · exact fun hw => ⟨hlink.mpr hw.notLink, hw.suffix, hw.notExcluded, hw.isIncluded⟩

/-- What the search finds is found at a place of the tree, and it was found before notes were taken. -/
theorem Discovery.places_of_sourceFiles {h h' next : Host} (hnoted : h.Noted h') (ht : h.files.WellFormed)
    {root : String} {included excluded : List String} {files : List Path}
    (hrun : (sourceFiles root included excluded).on h' = (.ok files, next)) :
    ∃ (places : List Location) (after : Host), files = places.map pathOf ∧ places.Nodup ∧ (∀ p ∈ places, ∃ node, h.files.at? p = some node) ∧
      (sourceFiles root included excluded).on h = (.ok files, after) := by
  obtain ⟨place, hroot'⟩ := leadsTo_of_sourceFiles included excluded hrun
  have hroot := hroot'.of_noted hnoted ht
  obtain ⟨after, hon⟩ := on_sourceFiles_of_wellFormed included excluded ht hroot
  obtain ⟨after', hon'⟩ := on_sourceFiles_of_wellFormed included excluded (hnoted.wellFormed ht) hroot'
  have hsame : ((h'.files.listing place).filter fun p => decide (Wanted h'.files included excluded place p)) =
      (h.files.listing place).filter fun p => decide (Wanted h.files included excluded place p) := by
    rw [hnoted.files.listing_eq ht (hnoted.wellFormed ht)]
    exact List.filter_congr fun p _ => decide_eq_decide.mpr (wanted_noted hnoted)
  rw [hsame, hrun] at hon'
  obtain rfl := Except.ok.inj (Prod.mk.inj hon').1
  refine ⟨_, after, rfl, (ht.nodup_listing place).filter _, fun p hp => ?_, hon⟩
  obtain ⟨node, hnode, _⟩ := ht.node_of_mem_listing (List.mem_of_mem_filter hp)
  exact ⟨node, hnode⟩

/-! ## The history of files -/

theorem History.notes_notKnown (file : Path) (cause : String) : Notes (notKnown file cause) :=
  (notes_debug _ _).bind fun _ => notes_pure _

theorem History.notes_ask (c : Command) (answer : VersionControl → Except CommandFault String) :
    Notes (ask c answer) := fun _ => .of_files rfl rfl rfl rfl rfl rfl rfl

theorem History.notes_refuse (file : Path) (c : Command) (fault : CommandFault) :
    Notes (query.refuse file c fault) := by
  unfold query.refuse
  split
  · exact notes_notKnown _ _
  · exact notes_throw _

theorem History.notes_query (limit : Option Seconds) (file root : Path) : Notes (query limit file root) := by
  unfold query
  split
  case h_1 => exact notes_notKnown _ _
  case h_2 relative _ =>
    refine (notes_ask _ _).bind fun commits => ?_
    cases commits with
    | error fault => exact notes_refuse _ _ _
    | ok commits =>
      refine (notes_ask _ _).bind fun answer => ?_
      cases answer with
      | error fault => exact notes_refuse _ _ _
      | ok answer =>
        refine notes_get.bind fun h => ?_
        split
        · exact notes_pure _
        · exact notes_pure _
        · exact notes_throw _
        · exact notes_notKnown _ _
        · exact notes_notKnown _ _

theorem History.notes_source (s : HistorySettings) (file root : Path) : Notes (source s file root) := by
  unfold source
  split
  · exact notes_query _ _ _
  · exact notes_pure _

/-! ## The analysis of files -/

theorem SourceFile.asks_read (path root : Path) : Asks (read path root) := by
  refine (asks_readBytes path).bind fun bytes => ?_
  split
  · exact asks_throw _
  · split
    · exact asks_throw _
    · exact asks_pure _

theorem SourceFile.asks_hasTest (f : SourceFile) : Asks f.hasTest := by
  unfold hasTest
  split
  · exact asks_probe _ _ _
  · exact asks_throw _

theorem SourceFile.notes_record (f : SourceFile) (id : String) (s : HistorySettings) (root : Path) :
    Notes (f.record id (History.source s) root) :=
  (History.notes_source s _ _).bind fun _ => f.asks_hasTest.notes.bind fun _ => notes_pure _

namespace Generation

theorem notes_passOver (p : Progress) (ids : Ids) (file : String) (f : Failure) : Notes (passOver p ids file f) := by
  unfold passOver
  split
  · exact notes_throw _
  · exact (notes_warn _ _).bind fun _ => notes_pure _

theorem notes_analyzeNext (s : HistorySettings) (root : Path) (p : Progress) (path : Path) :
    Notes (analyzeNext (History.source s) root p path) := by
  refine (SourceFile.asks_read path root).attempt.notes.bind fun result => ?_
  cases result with
  | error f => exact (notes_passOver _ _ _ f).bind fun _ => notes_pure _
  | ok source =>
    refine (source.notes_record _ s root).attempt.bind fun result => ?_
    cases result with
    | error f => exact (notes_passOver _ _ _ f).bind fun _ => notes_pure _
    | ok r => exact notes_pure _

theorem notes_analyzeAll (s : HistorySettings) (root : Path) (total index : Nat) (p : Progress)
    (paths : List Path) : Notes (analyzeAll (History.source s) root total index p paths) := by
  induction paths generalizing index p with
  | nil => exact notes_pure _
  | cons path paths ih =>
    refine (notes_analyzeNext s root p path).bind fun result => ?_
    obtain ⟨done, p'⟩ := result
    dsimp only
    split
    · exact (notes_debug _ _).bind fun _ => ih _ _
    · exact ih _ _

/-! ## The snapshot -/

theorem notes_noteStubs (names : List String) : Notes (noteStubs names) := by
  have hall : ∀ names : List String, Notes (names.forM fun n => debug "aggregator" ("Created stub for " ++ n)) := by
    intro names
    induction names with
    | nil => exact notes_pure _
    | cons name names ih => exact (notes_debug _ _).bind fun _ => ih
  unfold noteStubs
  split
  · exact notes_pure _
  · exact (notes_info _ _).bind fun _ => hall names

theorem notes_readManifest (root : Path) : Notes (Manifest.read root) := by
  have hpassOver : ∀ file cause, Notes (Manifest.passOver file cause) := fun _ _ =>
    (notes_debug _ _).bind fun _ => notes_pure _
  refine (asks_probe _ _ _).notes.bind fun found => ?_
  cases found with
  | false => exact notes_pure _
  | true =>
    refine (asks_readBytes _).attempt.notes.bind fun result => ?_
    cases result with
    | error f =>
      dsimp only
      split
      · exact hpassOver _ _
      · exact notes_throw _
    | ok bytes =>
      dsimp only
      split
      · exact hpassOver _ _
      · split
        · exact hpassOver _ _
        · exact notes_throw _
        · exact notes_throw _
        · exact notes_pure _
        · exact notes_pure _

theorem notes_load (root : Path) (given : String) (wanted : ProjectOverrides) :
    Notes (Project.load root given wanted) := (notes_readManifest root).bind fun _ => notes_pure _

theorem asks_build (project : Project) (g : Gathering) (at_ : Moment) : Asks (Snapshot.build project g at_) := by
  unfold Snapshot.build
  split
  · exact asks_pure _
  · exact asks_throw _

theorem notes_ofSettings (ids : Ids) (root : Path) (q : Request) (s : Settings) : Notes (ofSettings ids root q s) := by
  refine (notes_info _ _).bind fun _ => (notes_info _ _).bind fun _ => (notes_info _ _).bind fun _ =>
    (Discovery.notes_sourceFiles _ _ _).bind fun files => (notes_info _ _).bind fun _ =>
      (notes_analyzeAll _ _ _ _ _ _).bind fun done => (notes_noteStubs _).bind fun _ => ?_
  rcases (Assembly.start done.ids).gather done.records with ⟨gathering, assembly⟩
  exact (notes_load _ _ _).bind fun project => notes_get.bind fun h =>
    (asks_build _ _ _).notes.bind fun _ => notes_pure _

end Generation
end ClassAtlas
