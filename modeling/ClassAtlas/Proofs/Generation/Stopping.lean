import ClassAtlas.Proofs.Generation.Reading
import ClassAtlas.Proofs.History.Answers
/-!
# What stops the work on a project

Once the root of a project and its settings are found, three things alone can stop the work: a file that is
read and that has a last commit without a stamp or is not under the root, a manifest that cannot be read to its
end, and a clock without a stamp.
-/
namespace ClassAtlas

open ClassAtlas.Action

variable {h h' noted : Host} {path root : Path} {s : HistorySettings} {f : Failure}

/-! ## The manifest -/

namespace Manifest

/-- What ends the reading of a manifest that is not passed over. -/
inductive Untold (h : Host) (root : Path) : Failure → Prop where
  | long (unseen : h.files.lookup h.cwd true (root.child fileName) = .error .nameTooLong) :
      Untold h root (.file (.system .nameTooLong (.path (root.child fileName).toString)))
  | deep {place : Location} {bytes : List UInt8} {chars : List Char} {inArray : Bool}
      (found : h.files.lookup h.cwd true (root.child fileName) = .ok (place, .file bytes))
      (text : Utf8.decode bytes = .ok chars)
      (nested : Json.readDeep maxDepth (Text.unifyLineEnds chars) = .error (.tooDeep inArray)) :
      Untold h root (.tooDeep (" while decoding a JSON " ++ (if inArray then "array" else "object") ++
        " from a unicode string"))
  | digits {place : Location} {bytes : List UInt8} {chars : List Char} {count : Nat}
      (found : h.files.lookup h.cwd true (root.child fileName) = .ok (place, .file bytes))
      (text : Utf8.decode bytes = .ok chars)
      (numeral : Json.readDeep maxDepth (Text.unifyLineEnds chars) = .error (.tooManyDigits count)) :
      Untold h root (.value (.numeral (.manyDigitsRead count)))

/-- The log is not written to the manifest. -/
def Unlogged (h : Host) (root : Path) : Prop :=
  ∀ place node, h.files.lookup h.cwd true (root.child fileName) = .ok (place, node) →
    ∀ level, Sink.file level (some place) ∉ h.logging.sinks

theorem lookup_eq_of_unlogged (hnoted : h.Noted h') (hlog : Unlogged h root) :
    h'.files.lookup h'.cwd true (root.child fileName) = h.files.lookup h.cwd true (root.child fileName) := by
  rw [hnoted.cwd]
  rcases hnoted.files.lookup_cases h.cwd true (root.child fileName) with
    ⟨errno, hold, hnew⟩ | ⟨place, m, n, hold, hnew, _⟩
  · rw [hold, hnew]
  · have hsame := hnoted.apart place (hlog place m hold)
    rw [(FileTree.locate_of_lookup hold).2, (FileTree.locate_of_lookup hnew).2] at hsame
    rw [hold, hnew, Option.some.inj hsame]

theorem Untold.congr (hsame : h'.files.lookup h'.cwd true (root.child fileName) =
    h.files.lookup h.cwd true (root.child fileName)) (hu : Untold h root f) : Untold h' root f := by
  cases hu with
  | long unseen => exact .long (hsame.trans unseen)
  | deep found text nested => exact .deep (hsame.trans found) text nested
  | digits found text numeral => exact .digits (hsame.trans found) text numeral

theorem untold_noted_iff (hnoted : h.Noted h') (hlog : Unlogged h root) : Untold h' root f ↔ Untold h root f :=
  ⟨.congr (lookup_eq_of_unlogged hnoted hlog).symm, .congr (lookup_eq_of_unlogged hnoted hlog)⟩

/-- In a manifest that is a file, text that cannot be read to its end is the cause. -/
theorem Untold.text_of_file {place : Location} {bytes : List UInt8} (hu : Untold h root f)
    (hfound : h.files.lookup h.cwd true (root.child fileName) = .ok (place, .file bytes)) :
    ∃ chars fault, Utf8.decode bytes = .ok chars ∧ Json.readDeep maxDepth (Text.unifyLineEnds chars) = .error fault ∧
      ∀ cause left, fault ≠ .malformed cause left := by
  cases hu with
  | long unseen => cases hfound.symm.trans unseen
  | deep found text nested =>
    cases hfound.symm.trans found
    exact ⟨_, _, text, nested, fun _ _ => Json.ReadError.noConfusion⟩
  | digits found text numeral =>
    cases hfound.symm.trans found
    exact ⟨_, _, text, numeral, fun _ _ => Json.ReadError.noConfusion⟩

theorem passOver_returns (file : Path) (cause : String) (h : Host) : (passOver file cause).Returns h :=
  ((succeeds_debug _ _).returns h).bind fun _ next _ => returns_pure _ next

/-- A manifest that is a file is read as far as its text allows. -/
theorem hingesOn_read_of_file {place : Location} {bytes : List UInt8} (hnul : hasNul (root.child fileName) = false)
    (hfound : h.files.lookup h.cwd true (root.child fileName) = .ok (place, .file bytes)) :
    HingesOn (Untold h root) (read root) h := by
  have hexists := on_probe_of_found hnul hfound fun _ => true
  have hbytes : (attempt (readBytes (root.child fileName))).on h = (.ok (.ok bytes), h) := by
    rw [on_attempt, Generation.on_readBytes hnul, hfound]
  refine .after hexists (.after hbytes ?_)
  cases htext : Utf8.decode bytes with
  | error fault =>
    simp only [htext]
    refine .inl ⟨passOver_returns _ _ h, fun f hf => ?_⟩
    obtain ⟨_, _, htext', _⟩ := hf.text_of_file hfound
    cases htext.symm.trans htext'
  | ok chars =>
    simp only [htext]
    cases hread : Json.readDeep maxDepth (Text.unifyLineEnds chars) with
    | error fault =>
      cases fault with
      | malformed cause left =>
        refine .inl ⟨passOver_returns _ _ h, fun f hf => ?_⟩
        obtain ⟨_, _, htext', hread', hother⟩ := hf.text_of_file hfound
        cases htext.symm.trans htext'
        exact hother cause left (Except.error.inj (hread'.symm.trans hread))
      | tooDeep inArray => exact .inr ⟨_, h, rfl, .deep hfound htext hread⟩
      | tooManyDigits count => exact .inr ⟨_, h, rfl, .digits hfound htext hread⟩
    | ok v =>
      refine .inl ⟨?_, fun f hf => ?_⟩
      · cases v <;> exact returns_pure _ h
      · obtain ⟨_, _, htext', hread', _⟩ := hf.text_of_file hfound
        cases htext.symm.trans htext'
        cases hread.symm.trans hread'

/-- A manifest that is no file has no bytes. -/
theorem attempt_readBytes_of_no_file {place : Location} {node : Node} (hnul : hasNul (root.child fileName) = false)
    (hfound : h.files.lookup h.cwd true (root.child fileName) = .ok (place, node)) (hnode : node.isFile = false) :
    ∃ errno, (attempt (readBytes (root.child fileName))).on h =
      (.ok (.error (.file (.system errno (.path (root.child fileName).toString)))), h) := by
  rw [on_attempt, Generation.on_readBytes hnul, hfound]
  cases node with
  | file bytes => cases hnode
  | directory locked => exact ⟨_, rfl⟩
  | link target => exact ⟨_, rfl⟩
  | socket => exact ⟨_, rfl⟩

/-- A manifest that is no file is passed over. -/
theorem hingesOn_read_of_no_file {place : Location} {node : Node} (hnul : hasNul (root.child fileName) = false)
    (hfound : h.files.lookup h.cwd true (root.child fileName) = .ok (place, node)) (hnode : node.isFile = false) :
    HingesOn (Untold h root) (read root) h := by
  have hexists := on_probe_of_found hnul hfound fun _ => true
  obtain ⟨errno, hbytes⟩ := attempt_readBytes_of_no_file hnul hfound hnode
  refine .after hexists (.after hbytes (.inl ⟨passOver_returns _ _ h, fun f hf => ?_⟩))
  cases hf with
  | long unseen => cases hfound.symm.trans unseen
  | deep found =>
    cases hfound.symm.trans found
    cases hnode
  | digits found =>
    cases hfound.symm.trans found
    cases hnode

/-- A manifest is read, or passed over, unless there is cause to stop. -/
theorem hingesOn_read (hnul : hasNul (root.child fileName) = false) (h : Host) :
    HingesOn (Untold h root) (read root) h := by
  have hexists := on_probe hnul true (fun _ => true) h
  cases hlookup : h.files.lookup h.cwd true (root.child fileName) with
  | error errno =>
    rw [hlookup] at hexists
    by_cases hlong : errno = .nameTooLong
    · subst hlong
      refine .inr ⟨_, h, ?_, .long hlookup⟩
      rw [read, pathExists, on_bind, hexists]
    · have hmissing : (pathExists (root.child fileName)).on h = (.ok false, h) := by
        rw [pathExists, hexists]
        cases errno <;> first | rfl | exact absurd rfl hlong
      refine .inl ⟨⟨[], h, by rw [read, on_bind_of_ok hmissing]; rfl⟩, fun f hf => ?_⟩
      cases hf with
      | long unseen =>
        rw [hlookup] at unseen
        exact hlong (Except.error.inj unseen)
      | deep found => cases hlookup.symm.trans found
      | digits found => cases hlookup.symm.trans found
  | ok found =>
    obtain ⟨place, node⟩ := found
    cases node with
    | file bytes => exact hingesOn_read_of_file hnul hlookup
    | directory locked => exact hingesOn_read_of_no_file hnul hlookup rfl
    | link target => exact hingesOn_read_of_no_file hnul hlookup rfl
    | socket => exact hingesOn_read_of_no_file hnul hlookup rfl

end Manifest

namespace Generation

/-! ## One file -/

/-- Version control dates the last commit of the file to a moment that has no stamp. -/
def Untimely (h : Host) (s : HistorySettings) (root file : Path) : Prop :=
  s.enabled = true ∧ ∃ moment, History.Answered h.git file root moment ∧ Moment.inRange moment.instant = false

/-- What ends the work on a file that is read. -/
inductive Stalls (h : Host) (s : HistorySettings) (root path : Path) : Failure → Prop where
  | outside (text : holdsText h path = true) (apart : path.relativeTo? root = none) :
      Stalls h s root path (.notWithin path.toString root.bare)
  | untimely (text : holdsText h path = true) (dated : Untimely h s root path) : Stalls h s root path .dateRange

theorem stalls_noted_iff (hnoted : h.Noted h') : Stalls h' s root path f ↔ Stalls h s root path f := by
  have htext := holdsText_noted hnoted path
  have hdated : Untimely h' s root path ↔ Untimely h s root path := by rw [Untimely, Untimely, hnoted.git]
  constructor
  · rintro (⟨text, apart⟩ | ⟨text, dated⟩)
    · exact .outside (htext ▸ text) apart
    · exact .untimely (htext ▸ text) (hdated.mp dated)
  · rintro (⟨text, apart⟩ | ⟨text, dated⟩)
    · exact .outside (htext.trans text) apart
    · exact .untimely (htext.trans text) (hdated.mpr dated)

theorem hingesOn_source (hgit : History.Tolerable h.git) (s : HistorySettings) (file root : Path) :
    HingesOn (fun f => f = .dateRange ∧ Untimely h s root file) (History.source s file root) h := by
  unfold History.source
  split
  case isFalse hdisabled => exact .inl ⟨returns_pure _ h, fun f hf => hdisabled hf.2.1⟩
  case isTrue henabled =>
    by_cases hanswered : ∃ moment, History.Answered h.git file root moment
    · obtain ⟨moment, hmoment⟩ := hanswered
      obtain ⟨hin, hout⟩ := History.on_query_of_answered s.limit hmoment
      cases hrange : Moment.inRange moment.instant with
      | true =>
        obtain ⟨known, next, hknown, _⟩ := hin hrange
        refine .inl ⟨⟨known, next, hknown⟩, fun f hf => ?_⟩
        obtain ⟨other, hother, hlate⟩ := hf.2.2
        rw [hother.unique hmoment, hrange] at hlate
        cases hlate
      | false =>
        obtain ⟨next, hfailed⟩ := hout hrange
        exact .inr ⟨_, next, hfailed, rfl, henabled, moment, hmoment, hrange⟩
    · obtain ⟨next, hknown⟩ := History.on_query_of_not_answered s.limit hgit (not_exists.mp hanswered)
      refine .inl ⟨⟨_, next, hknown⟩, fun f hf => ?_⟩
      obtain ⟨moment, hmoment, _⟩ := hf.2.2
      exact hanswered ⟨moment, hmoment⟩

/-- A path that can be looked up and has a name. -/
structure Fit (path : Path) : Prop where
  noNul : hasNul path = false
  named : path.name ≠ ""

theorem isPassedOver_of_hasTest_failed {source : SourceFile} (hfit : Fit source.path)
    (hrun : source.hasTest.on h = (.error f, h')) : isPassedOver f = true := by
  have hsibling : source.path.siblingTest? =
      some ⟨source.path.anchor, source.path.parts.dropLast ++ [source.path.stem ++ ".test" ++ source.path.suffix]⟩ :=
    if_neg hfit.named
  rw [on_hasTest hfit.noNul hsibling] at hrun
  split at hrun
  · cases hrun
  · cases hrun
    rfl
  · cases hrun

/-- What keeps a file from being read passes it over, unless the file is text and not under the root. -/
theorem read_failed_cases (hnul : hasNul path = false) (hrun : (SourceFile.read path root).on h = (.error f, h')) :
    isPassedOver f = true ∨
      holdsText h path = true ∧ path.relativeTo? root = none ∧ f = .notWithin path.toString root.bare := by
  rcases bind_eq_error hrun with hbytes | ⟨bytes, middle, hbytes, hrun⟩
  · rw [on_readBytes hnul] at hbytes
    cases hlookup : h.files.lookup h.cwd true path with
    | error errno =>
      rw [hlookup] at hbytes
      cases hbytes
      exact .inl rfl
    | ok found =>
      obtain ⟨place, node⟩ := found
      rw [hlookup] at hbytes
      cases node <;> cases hbytes <;> exact .inl rfl
  · obtain ⟨_, place, hfound⟩ := found_of_readBytes hbytes
    cases hdecoded : Utf8.decode bytes with
    | error fault =>
      rw [hdecoded] at hrun
      cases hrun
      exact .inl rfl
    | ok text =>
      rw [hdecoded] at hrun
      cases hrelative : path.relativeTo? root with
      | some relative =>
        rw [hrelative] at hrun
        cases hrun
      | none =>
        rw [hrelative] at hrun
        cases hrun
        refine .inr ⟨?_, rfl, rfl⟩
        rw [holdsText, hfound]
        exact congrArg Except.isOk hdecoded

theorem passOver_returns (hf : isPassedOver f = true) (p : Progress) (ids : Ids) (file : String) (h : Host) :
    (passOver p ids file f).Returns h := by
  unfold passOver
  rw [hf]
  exact ((succeeds_log _ _ _).returns h).bind fun _ next _ => returns_pure _ next

/-- What is not passed over ends the work. -/
theorem on_passOver (hf : isPassedOver f = false) (p : Progress) (ids : Ids) (file : String) (h : Host) :
    (passOver p ids file f).on h = (.error f, h) := by
  unfold passOver
  rw [hf]
  rfl

/-- A record is made, or the file is passed over, unless its last commit has no stamp. -/
theorem record_cases {source : SourceFile} (hgit : History.Tolerable h.git) (hfit : Fit source.path) (s : HistorySettings)
    (root : Path) (id : String) :
    ∃ result next, (source.record id (History.source s) root).on h = (result, next) ∧
      ((¬ Untimely h s root source.path ∧ ∀ f, result = .error f → isPassedOver f = true) ∨
        Untimely h s root source.path ∧ result = .error .dateRange) := by
  rcases hrecord : (source.record id (History.source s) root).on h with ⟨result, next⟩
  refine ⟨result, next, rfl, ?_⟩
  rcases hingesOn_source hgit s source.path root with ⟨⟨known, noted, hknown⟩, hnone⟩ | ⟨f, last, hfailed, rfl, hdated⟩
  · refine .inl ⟨fun hdated => hnone .dateRange ⟨rfl, hdated⟩, fun f hf => ?_⟩
    rw [hf] at hrecord
    rcases bind_eq_error hrecord with hfailed | ⟨_, _, hknown', hrest⟩
    · cases hknown.symm.trans hfailed
    · cases hknown.symm.trans hknown'
      rcases bind_eq_error hrest with htest | ⟨_, _, _, hpure⟩
      · exact isPassedOver_of_hasTest_failed hfit htest
      · cases hpure
  · refine .inr ⟨hdated, ?_⟩
    rw [SourceFile.record, on_bind, hfailed] at hrecord
    exact (Prod.mk.inj hrecord).1.symm

/-- A file that is read gets a record or is passed over, unless there is cause to stop. -/
theorem hingesOn_analyzeNext (hgit : History.Tolerable h.git) (hfit : Fit path) (p : Progress) :
    HingesOn (Stalls h s root path) (analyzeNext (History.source s) root p path) h := by
  rcases hread : (SourceFile.read path root).on h with ⟨result, middle⟩
  have hsame := SourceFile.asks_read path root h
  rw [hread] at hsame
  obtain rfl : middle = h := hsame
  have hattempt : (attempt (SourceFile.read path root)).on middle = (.ok result, middle) := by rw [on_attempt, hread]
  refine .after hattempt ?_
  cases result with
  | error f =>
    rcases read_failed_cases hfit.noNul hread with hover | ⟨htext, hapart, rfl⟩
    · have hnot := holdsText_of_read_failed hread hover
      refine .inl ⟨(passOver_returns hover _ _ _ _).bind fun _ next _ => returns_pure _ next, fun g hg => ?_⟩
      cases hg with
      | outside text => cases text.symm.trans hnot
      | untimely text => cases text.symm.trans hnot
    · exact .inr ⟨_, middle, by rw [on_bind, on_passOver rfl], .outside htext hapart⟩
  | ok source =>
    obtain ⟨_, htext, hpath, relative, hunder, _⟩ := read_of_ok hread
    rcases p.ids.fresh "component" with ⟨id, ids⟩
    simp only
    obtain ⟨result, next, hrecord, hcases⟩ :=
      record_cases hgit (hpath.symm ▸ hfit : Fit source.path) s root id
    rw [hpath] at hcases
    have hattempt : (attempt (source.record id (History.source s) root)).on middle = (.ok result, next) := by
      rw [on_attempt, hrecord]
    refine .after hattempt ?_
    rcases hcases with ⟨hnot, hover⟩ | ⟨hdated, rfl⟩
    · have hnone : ∀ f, ¬ Stalls middle s root path f := by
        rintro _ (⟨_, apart⟩ | ⟨_, dated⟩)
        · cases hunder.symm.trans apart
        · exact hnot dated
      cases result with
      | error f =>
        exact .inl ⟨(passOver_returns (hover f rfl) _ _ _ _).bind fun _ last _ => returns_pure _ last, hnone⟩
      | ok r => exact .inl ⟨returns_pure _ next, hnone⟩
    · exact .inr ⟨_, next, by rw [on_bind, on_passOver rfl], .untimely htext hdated⟩

theorem hingesOn_analyzeAll {total index : Nat} {paths : List Path} (hgit : History.Tolerable h.git)
    (hfit : ∀ path ∈ paths, Fit path) (p : Progress) :
    HingesOn (fun f => ∃ path ∈ paths, Stalls h s root path f)
      (analyzeAll (History.source s) root total index p paths) h := by
  induction paths generalizing index p h with
  | nil => exact .inl ⟨returns_pure _ h, fun f ⟨_, hnone, _⟩ => by cases hnone⟩
  | cons path paths ih =>
    have hrest : ∀ p' last, h.Noted last → HingesOn (fun f => ∃ path ∈ paths, Stalls h s root path f)
        (analyzeAll (History.source s) root total (index + 1) p' paths) last := fun p' last hnoted =>
      (ih (by rw [hnoted.git]; exact hgit) (fun other hother => hfit other (List.mem_cons_of_mem _ hother)) p').congr
        fun f => exists_congr fun other => and_congr_right fun _ => stalls_noted_iff hnoted
    refine .congr (.bind (hingesOn_analyzeNext hgit (hfit path List.mem_cons_self) p) fun result next hrun => ?_)
      fun f => (List.exists_mem_cons_iff (fun other => Stalls h s root other f) path paths).symm
    have hnoted := (notes_analyzeNext s root p path).of_eq hrun
    obtain ⟨done, p'⟩ := result
    dsimp only
    split
    · refine .of_returns ((succeeds_debug _ _).returns next) fun _ last hlast => ?_
      exact hrest p' last (hnoted.trans ((notes_debug _ _).of_eq hlast))
    · exact hrest p' next hnoted

/-! ## All files -/

theorem succeeds_noteStubs (names : List String) : (noteStubs names).Succeeds := by
  unfold noteStubs
  split
  · exact fun h => ⟨h, rfl⟩
  · exact Succeeds.bind (succeeds_log _ _ _) (succeeds_forM (fun _ => succeeds_debug _ _) names)

/-- The files of the listing of a directory are fit for the analysis. -/
theorem fit_of_mem_listing (ht : h.files.WellFormed) {place p : Location} (hp : p ∈ h.files.listing place) :
    Fit (pathOf p) := by
  obtain ⟨rest, hne, rfl, ⟨node, hnode, _⟩, _⟩ := ht.mem_listing_iff.mp hp
  refine ⟨hasNul_pathOf ht hnode, ?_⟩
  rcases List.eq_nil_or_concat rest with rfl | ⟨above, name, rfl⟩
  · exact absurd rfl hne
  · rw [List.concat_eq_append, ← List.append_assoc, name_child]
    exact (ht.isName_of_mem hnode name (by simp)).notEmpty

/-- What ends the work on a project with its root at a place. -/
inductive Stops (h : Host) (root : Path) (place : Location) (q : Request) (s : Settings) : Failure → Prop where
  | file {p : Location} {f : Failure} (listed : p ∈ h.files.listing place)
      (wanted : Discovery.Wanted h.files (q.included.getD s.included) (q.excluded.getD s.excluded) place p)
      (stalls : Stalls h s.history root (pathOf p) f) : Stops h root place q s f
  | manifest {f : Failure} (untold : Manifest.Untold h root f) : Stops h root place q s f
  | clock (unstamped : h.now.stamp? = none) : Stops h root place q s .dateRange

variable {place : Location} {q : Request} {settings : Settings}

/-- A file that is taken is a cause to stop. -/
def FileStalls (h : Host) (root : Path) (place : Location) (q : Request) (s : Settings) (f : Failure) : Prop :=
  ∃ p ∈ h.files.listing place,
    Discovery.Wanted h.files (q.included.getD s.included) (q.excluded.getD s.excluded) place p ∧
      Stalls h s.history root (pathOf p) f

/-- The files that are taken. -/
def taken (h : Host) (place : Location) (q : Request) (s : Settings) : List Path :=
  ((h.files.listing place).filter fun p => decide (Discovery.Wanted h.files (q.included.getD s.included)
    (q.excluded.getD s.excluded) place p)).map pathOf

theorem fit_of_mem_taken (ht : h.files.WellFormed) : ∀ path ∈ taken h place q settings, Fit path := by
  intro path hpath
  obtain ⟨p, hp, rfl⟩ := List.mem_map.mp hpath
  exact fit_of_mem_listing ht (List.mem_of_mem_filter hp)

theorem fileStalls_iff : FileStalls h root place q settings f ↔
    ∃ path ∈ taken h place q settings, Stalls h settings.history root path f := by
  simp [taken, FileStalls, and_assoc]

theorem stops_iff : Stops h root place q settings f ↔
    FileStalls h root place q settings f ∨ Manifest.Untold h root f ∨ f = .dateRange ∧ h.now.stamp? = none := by
  constructor
  · rintro (⟨listed, wanted, stalls⟩ | ⟨untold⟩ | ⟨unstamped⟩)
    · exact .inl ⟨_, listed, wanted, stalls⟩
    · exact .inr (.inl untold)
    · exact .inr (.inr ⟨rfl, unstamped⟩)
  · rintro (⟨p, listed, wanted, stalls⟩ | untold | ⟨rfl, unstamped⟩)
    · exact .file listed wanted stalls
    · exact .manifest untold
    · exact .clock unstamped

theorem fileStalls_noted_iff (hnoted : h.Noted h') (ht : h.files.WellFormed) :
    FileStalls h' root place q settings f ↔ FileStalls h root place q settings f := by
  rw [FileStalls, FileStalls, hnoted.files.listing_eq ht (hnoted.wellFormed ht)]
  exact exists_congr fun p => and_congr_right fun _ => and_congr (Discovery.wanted_noted hnoted) (stalls_noted_iff hnoted)

theorem stops_noted_iff (hnoted : h.Noted h') (ht : h.files.WellFormed) (hlog : Manifest.Unlogged h root) :
    Stops h' root place q settings f ↔ Stops h root place q settings f := by
  rw [stops_iff, stops_iff, fileStalls_noted_iff hnoted ht, Manifest.untold_noted_iff hnoted hlog, hnoted.now]

theorem hingesOn_build (project : Project) (g : Gathering) (at_ : Moment) (h : Host) :
    HingesOn (fun f => f = .dateRange ∧ at_.stamp? = none) (Snapshot.build project g at_) h := by
  unfold Snapshot.build
  cases hstamp : at_.stamp? with
  | some generated => exact .inl ⟨returns_pure _ h, fun f hf => by cases hf.2⟩
  | none => exact .inr ⟨_, h, rfl, rfl, rfl⟩

/-- A snapshot is put together from the records unless the manifest or the clock is a cause to stop. -/
theorem hingesOn_compose (hnul : hasNul (root.child Manifest.fileName) = false) (given : String)
    (wanted : ProjectOverrides) (g : Gathering) (finish : Snapshot → Generation) (h : Host) :
    HingesOn (fun f => Manifest.Untold h root f ∨ f = .dateRange ∧ h.now.stamp? = none) (do
      let project ← Project.load root given wanted
      let snapshot ← Snapshot.build project g (← get).now
      return finish snapshot) h := by
  have hload : HingesOn (Manifest.Untold h root) (Project.load root given wanted) h :=
    (Manifest.hingesOn_read hnul h).then_returns fun _ next => returns_pure _ next
  refine hload.bind fun project next hrun => .after (on_get next) (.then_returns ?_ fun _ last => returns_pure _ last)
  rw [← ((notes_load _ _ _).of_eq hrun).now]
  exact hingesOn_build project g next.now next

/-- The work on a project starts with notes and the search for its files. -/
theorem ofSettings_eq_search (ids : Ids) (root : Path) (q : Request) (settings : Settings) (h : Host) :
    ∃ noted rest, h.Noted noted ∧ (ofSettings ids root q settings).on h =
      (Discovery.sourceFiles root.toString (q.included.getD settings.included) (q.excluded.getD settings.excluded) >>=
        rest).on noted := by
  obtain ⟨h₁, hrun₁⟩ := succeeds_log (some orchestrator) LogRecord.info ("Analyzing project: " ++ root.toString) h
  obtain ⟨h₂, hrun₂⟩ := succeeds_log (some orchestrator) LogRecord.info
    ("Include patterns: " ++ shownPatterns (q.included.getD settings.included) "(all)") h₁
  obtain ⟨h₃, hrun₃⟩ := succeeds_log (some orchestrator) LogRecord.info
    ("Exclude patterns: " ++ shownPatterns (q.excluded.getD settings.excluded) "(none)") h₂
  have hnoted := ((notes_info _ _).of_eq hrun₁).trans (((notes_info _ _).of_eq hrun₂).trans ((notes_info _ _).of_eq hrun₃))
  exact ⟨h₃, _, hnoted, (on_bind_of_ok hrun₁ _).trans ((on_bind_of_ok hrun₂ _).trans (on_bind_of_ok hrun₃ _))⟩

/-- The work on a project gives a snapshot unless there is cause to stop, on the host with the notes that were taken. -/
theorem exists_hingesOn_ofSettings (ht : h.files.WellFormed) (hroot : Discovery.LeadsTo h root.toString place)
    (hgit : History.Tolerable h.git) (hnul : hasNul (root.child Manifest.fileName) = false) (ids : Ids) (q : Request)
    (settings : Settings) : ∃ noted, h.Noted noted ∧
      HingesOn (Stops noted root place q settings) (ofSettings ids root q settings) h := by
  obtain ⟨h₁, hrun₁⟩ := succeeds_log (some orchestrator) LogRecord.info ("Analyzing project: " ++ root.toString) h
  obtain ⟨h₂, hrun₂⟩ := succeeds_log (some orchestrator) LogRecord.info
    ("Include patterns: " ++ shownPatterns (q.included.getD settings.included) "(all)") h₁
  obtain ⟨h₃, hrun₃⟩ := succeeds_log (some orchestrator) LogRecord.info
    ("Exclude patterns: " ++ shownPatterns (q.excluded.getD settings.excluded) "(none)") h₂
  have hnoted := ((notes_info _ _).of_eq hrun₁).trans (((notes_info _ _).of_eq hrun₂).trans ((notes_info _ _).of_eq hrun₃))
  have ht₃ := hnoted.wellFormed ht
  obtain ⟨h₄, hfiles⟩ := Discovery.on_sourceFiles_of_wellFormed (q.included.getD settings.included)
    (q.excluded.getD settings.excluded) ht₃ (hroot.noted hnoted ht)
  obtain ⟨h₅, hrun₅⟩ := succeeds_log (some orchestrator) LogRecord.info
    ("Found " ++ Nat.repr (taken h₃ place q settings).length ++ " source files") h₄
  have hlater := ((Discovery.notes_sourceFiles _ _ _).of_eq hfiles).trans ((notes_info _ _).of_eq hrun₅)
  have hanalyzed : HingesOn (FileStalls h root place q settings) (analyzeAll (History.source settings.history) root
      (taken h₃ place q settings).length 0 (.start ids) (taken h₃ place q settings)) h₅ := by
    refine (hingesOn_analyzeAll (by rw [(hnoted.trans hlater).git]; exact hgit) (fit_of_mem_taken ht₃) _).congr fun f => ?_
    rw [← fileStalls_noted_iff hnoted ht, fileStalls_iff]
    exact exists_congr fun path => and_congr_right fun _ => stalls_noted_iff hlater
  -- The manifest is read after the files, so the log may have been written to it by then.
  rcases hanalyzed with ⟨⟨done, h₆, hrun₆⟩, hnone⟩ | ⟨f, h₆, hrun₆, hstalls⟩
  · obtain ⟨h₇, hrun₇⟩ := succeeds_noteStubs (Assembly.undefinedNames done.records) h₆
    have hnoted := hnoted.trans (hlater.trans (((notes_analyzeAll _ _ _ _ _ _).of_eq hrun₆).trans
      ((notes_noteStubs _).of_eq hrun₇)))
    refine ⟨h₇, hnoted, .after hrun₁ (.after hrun₂ (.after hrun₃ (.after hfiles (.after hrun₅ (.after hrun₆
      (.after hrun₇ ?_))))))⟩
    refine (hingesOn_compose hnul _ _ _ (fun snapshot => ⟨snapshot, done.analyzed, done.skipped⟩) h₇).congr fun f => ?_
    rw [stops_iff, fileStalls_noted_iff hnoted ht, or_iff_right (hnone f)]
  · refine ⟨h, .refl h, .after hrun₁ (.after hrun₂ (.after hrun₃ (.after hfiles (.after hrun₅
      (.inr ⟨f, h₆, ?_, stops_iff.mpr (.inl hstalls)⟩)))))⟩
    exact on_bind_of_error hrun₆ _

/-- So it does when the log is not written to the manifest. -/
theorem hingesOn_ofSettings (ht : h.files.WellFormed) (hroot : Discovery.LeadsTo h root.toString place)
    (hgit : History.Tolerable h.git) (hnul : hasNul (root.child Manifest.fileName) = false)
    (hlog : Manifest.Unlogged h root) (ids : Ids) :
    HingesOn (Stops h root place q settings) (ofSettings ids root q settings) h := by
  obtain ⟨noted, hnoted, hhinges⟩ := exists_hingesOn_ofSettings ht hroot hgit hnul ids q settings
  exact hhinges.congr fun f => stops_noted_iff hnoted ht hlog

end Generation
end ClassAtlas
