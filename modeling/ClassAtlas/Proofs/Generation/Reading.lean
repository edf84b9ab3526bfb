import ClassAtlas.Proofs.Files.Path
import ClassAtlas.Proofs.Generation.Notes
/-!
# Which files are taken

A file that is read as text gets a record, unless the name of the test beside it is too long to be looked
for. Every other failure that passes a file over comes from reading it.
-/
namespace ClassAtlas

open ClassAtlas.Action

variable {h h' : Host} {path root test : Path}

/-! ## The test beside a file -/

theorem Path.mem_of_mem_splitSuffix {c : Char} {cs : List Char}
    (hc : c ∈ (splitSuffix cs).1 ∨ c ∈ (splitSuffix cs).2) : c ∈ cs ∨ c = '.' := by
  unfold splitSuffix at hc
  dsimp only at hc
  split at hc
  · rcases hc with hc | hc
    · exact .inl hc
    · cases hc
  · rcases hc with hc | hc
    · exact .inl (List.mem_of_mem_take hc)
    · rcases List.mem_cons.mp hc with rfl | hc
      · exact .inr rfl
      · exact .inl (List.mem_reverse.mp (List.takeWhile_subset _ (List.mem_reverse.mp hc)))

theorem Path.name_mem_parts (hne : path.name ≠ "") : path.name ∈ path.parts := by
  cases hlast : path.parts.getLast? with
  | none =>
    have hempty : path.name = "" := by rw [Path.name, hlast, Option.getD_none]
    exact absurd hempty hne
  | some last =>
    have hname : path.name = last := by rw [Path.name, hlast, Option.getD_some]
    rw [hname]
    exact List.mem_of_getLast? hlast

/-- The name of the test has no character but those of the file's name and of its mark. -/
theorem hasNul_siblingTest (hnul : hasNul path = false) (htest : path.siblingTest? = some test) :
    hasNul test = false := by
  have hclean : ∀ n ∈ path.parts, Char.ofNat 0 ∉ n.toList := by
    simpa [hasNul, List.any_eq_false] using hnul
  unfold Path.siblingTest? Path.withName? at htest
  split at htest
  case isTrue => cases htest
  case isFalse hne =>
    cases htest
    have hname := hclean _ (Path.name_mem_parts hne)
    rw [hasNul, List.any_eq_false]
    intro n hn
    rw [List.contains_eq_mem, decide_eq_true_eq]
    rcases List.mem_append.mp hn with hn | hn
    · exact hclean n (List.dropLast_subset _ hn)
    · obtain rfl := List.mem_singleton.mp hn
      have hdot : Char.ofNat 0 ≠ '.' := by decide
      have hmark : Char.ofNat 0 ∉ ".test".toList := by decide
      have hstem : Char.ofNat 0 ∉ (Path.splitSuffix path.name.toList).1 := fun hc =>
        (Path.mem_of_mem_splitSuffix (.inl hc)).elim hname hdot
      have hsuffix : Char.ofNat 0 ∉ (Path.splitSuffix path.name.toList).2 := fun hc =>
        (Path.mem_of_mem_splitSuffix (.inr hc)).elim hname hdot
      rw [String.toList_append, String.toList_append, List.mem_append, List.mem_append, Path.stem, Path.suffix]
      simp only [String.toList_ofList]
      rintro ((hc | hc) | hc)
      · exact hstem hc
      · exact hmark hc
      · exact hsuffix hc

namespace Generation

variable {above : Location} {name : String}

/-- What the test of a source file is called. -/
def testName (name : String) : String :=
  let (stem, suffix) := Path.splitSuffix name.toList
  String.ofList stem ++ ".test" ++ String.ofList suffix

theorem testName_ne_dots (name : String) : testName name ≠ ".." := by
  intro hdots
  have hmark : 't' ∈ (testName name).toList := by simp [testName]
  rw [hdots] at hmark
  simp at hmark

theorem siblingTest_eq (hname : FileTree.IsName name) :
    (pathOf (above ++ [name])).siblingTest? = some (pathOf (above ++ [testName name])) := by
  rw [Path.siblingTest?, Path.withName?, Path.stem, Path.suffix, name_child, if_neg hname.notEmpty, pathOf,
    List.dropLast_concat]
  rfl

/-- The test of a file has the suffix of the file. -/
theorem suffix_testName (hsuffix : (pathOf (above ++ [name])).suffix ≠ "") :
    (pathOf (above ++ [testName name])).suffix = (pathOf (above ++ [name])).suffix := by
  rw [suffix_child] at hsuffix
  obtain ⟨base, ext, hbase, hext, hdot, hsplit⟩ := Path.splitSuffix_of_ne_nil (by simpa using hsuffix)
  have hchars : (testName name).toList = (base ++ ".test".toList) ++ '.' :: ext := by simp [testName, hsplit]
  rw [suffix_child, suffix_child, hchars, hsplit, Path.splitSuffix_append (by simp [hbase]) hext hdot]

/-- The path leads to a file, and the bytes of it are text. -/
def holdsText (h : Host) (p : Path) : Bool :=
  match h.files.lookup h.cwd true p with
  | .ok (_, .file bytes) => (Utf8.decode bytes).isOk
  | _ => false

/-- The test that would stand beside the file has a name that is too long to be looked for. -/
def testTooLong (h : Host) (p : Path) : Bool :=
  p.siblingTest?.any fun test =>
    match h.files.lookup h.cwd true test with
    | .error .nameTooLong => true
    | _ => false

theorem testTooLong_iff : testTooLong h path = true ↔
    ∃ test, path.siblingTest? = some test ∧ h.files.lookup h.cwd true test = .error .nameTooLong := by
  rw [testTooLong, Option.any_eq_true]
  refine exists_congr fun test => and_congr_right fun _ => ?_
  split
  case h_1 hlong => exact ⟨fun _ => hlong, fun _ => rfl⟩
  case h_2 hother =>
    constructor
    · intro hfalse
      cases hfalse
    · intro hlong
      exact absurd hlong hother

theorem isOk_decode_append (bytes : List UInt8) (cs : List Char) :
    (Utf8.decode (bytes ++ Utf8.encode cs)).isOk = (Utf8.decode bytes).isOk := by
  have hiff : ∀ bs, (Utf8.decode bs).isOk = true ↔ Utf8.IsText bs := by
    intro bs
    rw [← Utf8.exists_decode_iff]
    cases Utf8.decode bs with
    | ok cs =>
      constructor
      · exact fun _ => ⟨cs, rfl⟩
      · exact fun _ => rfl
    | error fault =>
      constructor
      · intro hfalse
        cases hfalse
      · rintro ⟨_, hfalse⟩
        cases hfalse
  rw [Bool.eq_iff_iff, hiff, hiff, Utf8.isText_append_encode_iff]

theorem holdsText_noted (hnoted : h.Noted h') (p : Path) : holdsText h' p = holdsText h p := by
  rw [holdsText, holdsText, hnoted.cwd]
  rcases hnoted.files.lookup_cases h.cwd true p with ⟨errno, hold, hnew⟩ | ⟨place, m, n, hold, hnew, hgrown⟩
  · rw [hold, hnew]
  · rw [hold, hnew]
    cases hgrown with
    | same => rfl
    | added bytes cs => exact isOk_decode_append bytes cs

theorem testTooLong_noted (hnoted : h.Noted h') (p : Path) : testTooLong h' p = testTooLong h p := by
  rw [testTooLong, testTooLong, hnoted.cwd]
  congr 1
  funext test
  rcases hnoted.files.lookup_cases h.cwd true test with ⟨errno, hold, hnew⟩ | ⟨place, m, n, hold, hnew, _⟩
  · rw [hold, hnew]
  · rw [hold, hnew]

/-! ## Reading -/

theorem on_readBytes (hnul : hasNul path = false) (h : Host) :
    (readBytes path).on h = (match h.files.lookup h.cwd true path with
      | .ok (_, .file bytes) => .ok bytes
      | .ok (_, .directory _) => .error (.file (.system .isDirectory (.path path.toString)))
      | .ok _ => .error (.file (.system .noDevice (.path path.toString)))
      | .error errno => .error (.file (.system errno (.path path.toString))), h) := by
  rw [readBytes, on_bind_of_ok (on_lookup hnul true h)]
  cases h.files.lookup h.cwd true path with
  | error errno => rfl
  | ok found =>
    obtain ⟨place, node⟩ := found
    cases node <;> rfl

/-- Bytes are read from a file that is found. -/
theorem found_of_readBytes {bytes : List UInt8} (hrun : (readBytes path).on h = (.ok bytes, h')) :
    hasNul path = false ∧ ∃ place, h.files.lookup h.cwd true path = .ok (place, .file bytes) := by
  cases hnul : hasNul path with
  | true =>
    rw [readBytes, lookup, refuseNul, hnul] at hrun
    cases hrun
  | false =>
    rw [on_readBytes hnul] at hrun
    cases hlookup : h.files.lookup h.cwd true path with
    | error errno =>
      rw [hlookup] at hrun
      cases hrun
    | ok found =>
      obtain ⟨place, node⟩ := found
      rw [hlookup] at hrun
      cases node <;> cases hrun
      exact ⟨rfl, place, rfl⟩

theorem read_of_ok {f : SourceFile} (hrun : (SourceFile.read path root).on h = (.ok f, h')) :
    hasNul path = false ∧ holdsText h path = true ∧ f.path = path ∧
      ∃ relative, path.relativeTo? root = some relative ∧ f.relative = relative.toString := by
  obtain ⟨bytes, hbytes, hrun⟩ := (asks_readBytes path).bind_eq_ok hrun
  obtain ⟨hnul, place, hlookup⟩ := found_of_readBytes hbytes
  cases hdecoded : Utf8.decode bytes with
  | error fault =>
    rw [hdecoded] at hrun
    cases hrun
  | ok text =>
    rw [hdecoded] at hrun
    have htext : holdsText h path = true := by
      rw [holdsText, hlookup]
      exact congrArg Except.isOk hdecoded
    cases hrelative : path.relativeTo? root with
    | none =>
      rw [hrelative] at hrun
      cases hrun
    | some relative =>
      rw [hrelative] at hrun
      cases hrun
      exact ⟨hnul, htext, rfl, relative, rfl, rfl⟩

theorem holdsText_of_read_failed {f : Failure} (hrun : (SourceFile.read path root).on h = (.error f, h'))
    (hover : isPassedOver f = true) : holdsText h path = false := by
  cases hnul : hasNul path with
  | true =>
    rw [SourceFile.read, readBytes, lookup, refuseNul, hnul] at hrun
    cases hrun
    cases hover
  | false =>
    cases hlookup : h.files.lookup h.cwd true path with
    | error errno => rw [holdsText, hlookup]
    | ok found =>
      obtain ⟨place, node⟩ := found
      rw [holdsText, hlookup]
      cases node with
      | file bytes =>
        have hbytes : (readBytes path).on h = (.ok bytes, h) := by rw [on_readBytes hnul, hlookup]
        rw [SourceFile.read, on_bind_of_ok hbytes] at hrun
        show (Utf8.decode bytes).isOk = false
        cases hdecoded : Utf8.decode bytes with
        | error fault => rfl
        | ok text =>
          rw [hdecoded] at hrun
          cases hrelative : path.relativeTo? root with
          | none =>
            rw [hrelative] at hrun
            cases hrun
            cases hover
          | some relative =>
            rw [hrelative] at hrun
            cases hrun
      | directory locked => rfl
      | link target => rfl
      | socket => rfl

/-! ## The record -/

/-- What keeps the history of a file from being known passes no file over. -/
theorem failsBy_source (s : HistorySettings) (file root : Path) :
    FailsBy (isPassedOver · = false) (History.source s file root) := by
  have hnotKnown : ∀ cause, FailsBy (isPassedOver · = false) (History.notKnown file cause) := fun cause =>
    ((succeeds_debug _ _).failsBy _).bind fun _ => failsBy_pure _
  have hrefuse : ∀ c fault, FailsBy (isPassedOver · = false) (History.query.refuse file c fault) := by
    intro c fault
    unfold History.query.refuse
    cases htolerated : fault.isTolerated with
    | true => exact hnotKnown _
    | false =>
      refine failsBy_throw ?_
      cases fault <;> first | rfl | cases htolerated
  have hask : ∀ c answer, FailsBy (isPassedOver · = false) (History.ask c answer) := by
    intro c answer h f next hrun
    cases hrun
  unfold History.source
  split
  case isFalse => exact failsBy_pure _
  case isTrue =>
    unfold History.query
    split
    case h_1 => exact hnotKnown _
    case h_2 =>
      refine (hask _ _).bind fun commits => ?_
      cases commits with
      | error fault => exact hrefuse _ _
      | ok commits =>
        refine (hask _ _).bind fun answer => ?_
        cases answer with
        | error fault => exact hrefuse _ _
        | ok answer =>
          refine FailsBy.bind (fun h f next hrun => by cases hrun) fun h => ?_
          split
          · exact failsBy_pure _
          · exact failsBy_pure _
          · exact failsBy_throw rfl
          · exact hnotKnown _
          · exact hnotKnown _

variable {f : SourceFile} {s : HistorySettings} {id : String}

theorem on_hasTest (hnul : hasNul f.path = false) (htest : f.path.siblingTest? = some test) (h : Host) :
    f.hasTest.on h = (match h.files.lookup h.cwd true test with
      | .ok (_, node) => .ok node.isFile
      | .error .nameTooLong => .error (.file (.system .nameTooLong (.path test.toString)))
      | .error _ => .ok false, h) := by
  rw [SourceFile.hasTest, htest]
  exact on_probe (hasNul_siblingTest hnul htest) true Node.isFile h

theorem testTooLong_of_hasTest {found : Bool} (hnul : hasNul f.path = false)
    (hrun : f.hasTest.on h = (.ok found, h')) : testTooLong h f.path = false := by
  cases htest : f.path.siblingTest? with
  | none =>
    rw [SourceFile.hasTest, htest] at hrun
    cases hrun
  | some test =>
    rw [on_hasTest hnul htest] at hrun
    rw [testTooLong, htest, Option.any_some]
    cases hlookup : h.files.lookup h.cwd true test with
    | ok found => rfl
    | error errno =>
      rw [hlookup] at hrun
      cases errno <;> first | rfl | cases hrun

theorem testTooLong_of_hasTest_failed {e : Failure} (hnul : hasNul f.path = false)
    (hrun : f.hasTest.on h = (.error e, h')) (hover : isPassedOver e = true) : testTooLong h f.path = true := by
  cases htest : f.path.siblingTest? with
  | none =>
    rw [SourceFile.hasTest, htest] at hrun
    cases hrun
    cases hover
  | some test =>
    rw [on_hasTest hnul htest] at hrun
    rw [testTooLong, htest, Option.any_some]
    cases hlookup : h.files.lookup h.cwd true test with
    | ok found =>
      rw [hlookup] at hrun
      cases hrun
    | error errno =>
      rw [hlookup] at hrun
      cases errno <;> first | rfl | cases hrun

theorem record_of_ok {r : ClassRecord} (hnul : hasNul f.path = false)
    (hrun : (f.record id (History.source s) root).on h = (.ok r, h')) :
    r.file = f.relative ∧ r.external = false ∧ testTooLong h f.path = false := by
  obtain ⟨known, noted, _, hnoted, hrun⟩ := (History.notes_source s _ _).bind_eq_ok hrun
  obtain ⟨tested, htested, hrun⟩ := f.asks_hasTest.bind_eq_ok hrun
  cases hrun
  refine ⟨rfl, rfl, ?_⟩
  rw [← testTooLong_noted hnoted]
  exact testTooLong_of_hasTest hnul htested

theorem testTooLong_of_record_failed {e : Failure} (hnul : hasNul f.path = false)
    (hrun : (f.record id (History.source s) root).on h = (.error e, h')) (hover : isPassedOver e = true) :
    testTooLong h f.path = true := by
  rcases bind_eq_error hrun with hhistory | ⟨known, noted, hhistory, hrun⟩
  · have hnot : isPassedOver e = false := failsBy_source s _ _ _ _ _ hhistory
    rw [hover] at hnot
    cases hnot
  · rcases bind_eq_error hrun with htest | ⟨tested, middle, _, hrun⟩
    · rw [← testTooLong_noted ((History.notes_source s _ _).of_eq hhistory)]
      exact testTooLong_of_hasTest_failed hnul htest hover
    · cases hrun

end Generation
end ClassAtlas
