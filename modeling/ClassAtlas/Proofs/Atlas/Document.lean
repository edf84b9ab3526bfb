import ClassAtlas.Atlas.Document
import ClassAtlas.Proofs.Host.Action
import ClassAtlas.Proofs.Json.Reading
import Mathlib.Data.List.Forall2
/-!
# The document of a snapshot loses nothing

A snapshot is written unless a number in it is too long. Its text is pure ASCII and is read back as
the document, and two snapshots have one text exactly if they agree in all that the document shows:
everything but whether an external record looks like a React component.
-/
namespace ClassAtlas

open Json (Readable readable_int readable_strs readable_obj readable_arr_map)

variable {depth : Nat}

/-! ## Documents that are read back -/

theorem Method.readable_toJson (m : Method) : Readable (depth + 1) m.toJson := by
  refine .obj (by simp) ?_
  simp only [List.forall_mem_cons]
  exact ⟨.str, .str, .str, List.forall_mem_nil _⟩

theorem Package.readable_toJson (p : Package) : Readable (depth + 2) p.toJson := by
  refine .obj (by simp) ?_
  simp only [List.forall_mem_cons]
  exact ⟨.str, .str, .str, readable_strs _, List.forall_mem_nil _⟩

theorem Project.readable_toJson (p : Project) : Readable (depth + 1) p.toJson := by
  refine .obj (by simp) ?_
  simp only [List.forall_mem_cons]
  exact ⟨.str, .str, .str, List.forall_mem_nil _⟩

theorem Metrics.readable_toJson (m : Metrics) (h : m.toJson.hasLongNumber = false) :
    Readable (depth + 2) m.toJson := by
  refine readable_obj h (by simp) ?_
  simp only [List.forall_mem_cons]
  exact ⟨readable_int, readable_int, readable_int, readable_int, readable_int, fun _ => .str, fun _ => .str,
    fun _ => .str, fun _ => readable_strs _, List.forall_mem_nil _⟩

theorem Commit.readable_toJson (c : Commit) (h : c.toJson.hasLongNumber = false) :
    Readable (depth + 1) c.toJson := by
  refine readable_obj h (by simp) ?_
  simp only [List.forall_mem_cons]
  exact ⟨fun _ => .str, fun _ => .str, fun _ => .str, fun _ => .str, fun _ => .str, readable_int,
    List.forall_mem_nil _⟩

theorem FileHistory.readable_toJson (f : FileHistory) (h : f.toJson.hasLongNumber = false) :
    Readable (depth + 2) f.toJson := by
  refine readable_obj h (by simp) ?_
  simp only [List.forall_mem_cons]
  refine ⟨readable_int, fun hlast => ?_, fun _ => .bool, List.forall_mem_nil _⟩
  cases hcommit : f.last with
  | none => exact .null
  | some c =>
    rw [hcommit] at hlast
    exact c.readable_toJson hlast

theorem ClassRecord.readable_toJson (r : ClassRecord) (h : r.toJson.hasLongNumber = false) :
    Readable (depth + 3) r.toJson := by
  have hcovered : Readable (depth + 2)
      (.obj [("hasCoverage", .bool false), ("overallCoverage", .int 0)]) := by
    refine .obj (by simp) ?_
    simp only [List.forall_mem_cons]
    exact ⟨.bool, .int Json.isLong_zero, List.forall_mem_nil _⟩
  refine readable_obj h (by simp) ?_
  simp only [List.forall_mem_cons]
  refine ⟨fun _ => .str, fun _ => .str, fun _ => .str, fun _ => .str, fun _ => .str, fun _ => .str,
    fun hmethods => readable_arr_map hmethods fun m _ => m.readable_toJson, fun _ => .arr (by simp),
    fun _ => readable_strs _, fun _ => readable_strs _, fun _ => readable_strs _, readable_int,
    r.metrics.readable_toJson, fun _ => hcovered, fun hfigures => readable_obj hfigures (by simp) ?_,
    r.history.readable_toJson, fun htest => readable_obj htest (by simp) ?_, fun _ => .bool,
    List.forall_mem_nil _⟩
  · simp only [List.forall_mem_cons]
    exact ⟨readable_int, readable_int, readable_int, readable_int, List.forall_mem_nil _⟩
  · simp only [List.forall_mem_cons]
    exact ⟨fun _ => .bool, readable_int, List.forall_mem_nil _⟩

/-- Every number of the document is short enough to be written. -/
def Snapshot.IsWritable (s : Snapshot) : Prop := s.toJson.hasLongNumber = false

instance (s : Snapshot) : Decidable s.IsWritable := inferInstanceAs (Decidable (_ = _))

theorem Snapshot.readable_toJson {s : Snapshot} (h : s.IsWritable) : Readable (depth + 5) s.toJson := by
  refine readable_obj h (by simp) ?_
  simp only [List.forall_mem_cons]
  exact ⟨fun _ => .str, fun _ => .str, fun _ => s.project.readable_toJson,
    fun hpackages => readable_arr_map hpackages fun p _ => p.readable_toJson,
    fun hclasses => readable_arr_map hclasses fun r hr => r.readable_toJson hr, List.forall_mem_nil _⟩

/-! ## What documents tell apart -/

theorem Json.strs_inj {ss ts : List String} : strs ss = strs ts ↔ ss = ts := by
  have hinj : Function.Injective Json.str := fun _ _ h => Json.str.inj h
  simp [strs, hinj.list_map.eq_iff]

theorem Method.toJson_injective : Function.Injective Method.toJson := by
  intro m n h
  cases m
  cases n
  simpa [toJson] using h

theorem Metrics.toJson_injective : Function.Injective Metrics.toJson := by
  intro m n h
  cases m
  cases n
  simpa [toJson, Json.strs_inj] using h

theorem Commit.toJson_injective : Function.Injective Commit.toJson := by
  intro c d h
  cases c
  cases d
  simpa [toJson] using h

theorem Package.toJson_injective : Function.Injective Package.toJson := by
  intro p q h
  cases p
  cases q
  simpa [toJson, Json.strs_inj] using h

theorem Project.toJson_injective : Function.Injective Project.toJson := by
  intro p q h
  cases p
  cases q
  simpa [toJson] using h

theorem FileHistory.toJson_injective : Function.Injective FileHistory.toJson := by
  intro f g h
  obtain ⟨commits, last⟩ := f
  obtain ⟨commits', last'⟩ := g
  simp only [toJson, Json.obj.injEq, List.cons.injEq, Prod.mk.injEq, true_and, Json.int.injEq,
    Json.bool.injEq, and_true] at h
  obtain ⟨hcommits, hlast, htracked⟩ := h
  have hsame : last = last' := by
    cases last with
    | none => cases last' with
      | none => rfl
      | some c => cases htracked
    | some c => cases last' with
      | none => cases htracked
      | some d => exact congrArg some (Commit.toJson_injective hlast)
  rw [hcommits, hsame]

/-- The records agree in every field, save that two external ones may differ in looking like a React
component. -/
structure ClassRecord.Agrees (r r' : ClassRecord) : Prop where
  fields : { r with reactLike := r'.reactLike } = r'
  reactLike : r.external = false → r.reactLike = r'.reactLike

theorem ClassRecord.subtype_name_inj {r r' : ClassRecord} (h : r.external = r'.external) :
    r.subtype.name = r'.subtype.name ↔ (r.external = false → r.reactLike = r'.reactLike) := by
  unfold subtype
  rw [← h]
  cases r.external <;> cases r.reactLike <;> cases r'.reactLike <;> simp [Subtype.name]

theorem ClassRecord.toJson_eq_iff {r r' : ClassRecord} : r.toJson = r'.toJson ↔ r.Agrees r' := by
  constructor
  · intro h
    simp only [toJson, Json.obj.injEq, List.cons.injEq, Prod.mk.injEq, true_and, and_true, Json.str.injEq,
      Json.bool.injEq, Json.arr.injEq, Json.strs_inj, Method.toJson_injective.list_map.eq_iff,
      Metrics.toJson_injective.eq_iff, FileHistory.toJson_injective.eq_iff] at h
    obtain ⟨hid, hname, hsubtype, hpackage, hfile, hmethods, hdependencies, hparents, hinterfaces, _, hmetrics,
      _, hhistory, htest, hexternal⟩ := h
    refine ⟨?_, (subtype_name_inj hexternal).mp hsubtype⟩
    rw [hid, hname, hpackage, hfile, hmethods, hdependencies, hparents, hinterfaces, hmetrics, hhistory, htest,
      hexternal]
  · rintro ⟨hfields, hreact⟩
    have hexternal : r.external = r'.external := (congrArg ClassRecord.external hfields :)
    have hsubtype := (subtype_name_inj hexternal).mpr hreact
    have hrest : ({ r with reactLike := r'.reactLike } : ClassRecord).toJson = r'.toJson := by rw [hfields]
    simp only [toJson, Json.obj.injEq, List.cons.injEq, Prod.mk.injEq, true_and, and_true] at hrest ⊢
    simp only [hrest, hsubtype, and_self]

/-- The snapshots agree in all that their documents show. -/
structure Snapshot.Agrees (s s' : Snapshot) : Prop where
  version : s.version = s'.version
  generated : s.generated = s'.generated
  project : s.project = s'.project
  packages : s.packages = s'.packages
  classes : List.Forall₂ ClassRecord.Agrees s.classes s'.classes

theorem map_toJson_eq_iff {rs rs' : List ClassRecord} :
    rs.map ClassRecord.toJson = rs'.map ClassRecord.toJson ↔ List.Forall₂ ClassRecord.Agrees rs rs' := by
  have hsame : ∀ vs ws : List Json, vs = ws ↔ List.Forall₂ (· = ·) vs ws := fun vs ws => by
    rw [List.forall₂_eq_eq_eq]
  rw [hsame, List.forall₂_map_left_iff, List.forall₂_map_right_iff]
  simp only [ClassRecord.toJson_eq_iff]

theorem Snapshot.toJson_eq_iff {s s' : Snapshot} : s.toJson = s'.toJson ↔ s.Agrees s' := by
  simp only [toJson, Json.obj.injEq, List.cons.injEq, Prod.mk.injEq, true_and, and_true, Json.str.injEq,
    Json.arr.injEq, Project.toJson_injective.eq_iff, Package.toJson_injective.list_map.eq_iff, map_toJson_eq_iff]
  constructor
  · rintro ⟨hversion, hgenerated, hproject, hpackages, hclasses⟩
    exact ⟨hversion, hgenerated, hproject, hpackages, hclasses⟩
  · rintro ⟨hversion, hgenerated, hproject, hpackages, hclasses⟩
    exact ⟨hversion, hgenerated, hproject, hpackages, hclasses⟩

/-! ## The text -/

namespace Snapshot

theorem write_of_not_isWritable {s : Snapshot} (hs : ¬ s.IsWritable) (target : Path) (h : Host) :
    (s.write target).on h = (.error (.value (.numeral .manyDigitsWritten)), h) := by
  have hlong : s.toJson.hasLongNumber = true := by simpa [IsWritable] using hs
  rw [write, if_pos hlong]
  rfl

theorem readDeep_text {s : Snapshot} (hs : s.IsWritable) (depth : Nat) :
    Json.readDeep (depth + 5) s.text = .ok s.toJson :=
  Json.readDeep_render (readable_toJson hs)

theorem text_eq_iff {s s' : Snapshot} (hs : s.IsWritable) (hs' : s'.IsWritable) :
    s.text = s'.text ↔ s.Agrees s' := by
  rw [← toJson_eq_iff]
  constructor
  · intro htext
    have hread := readDeep_text hs 0
    rw [htext, readDeep_text hs' 0] at hread
    exact (Except.ok.inj hread).symm
  · intro hjson
    rw [text, text, hjson]

/-- A snapshot is either refused, and then nothing changes, or its text is pure ASCII, is read back as
its document, and tells it from all other snapshots up to what documents do not show. -/
theorem text_lossless (s : Snapshot) :
    (¬ s.IsWritable ∧
      ∀ target h, (s.write target).on h = (.error (.value (.numeral .manyDigitsWritten)), h)) ∨
    (s.IsWritable ∧ Json.IsAscii s.text ∧ (∀ depth, Json.readDeep (depth + 5) s.text = .ok s.toJson) ∧
      ∀ s' : Snapshot, s'.IsWritable → (s.text = s'.text ↔ s.Agrees s')) := by
  by_cases hs : s.IsWritable
  · have hreadable : Readable 5 s.toJson := @readable_toJson 0 s hs
    exact .inr ⟨hs, hreadable.isAscii 0, readDeep_text hs, fun s' hs' => text_eq_iff hs hs'⟩
  · exact .inl ⟨hs, write_of_not_isWritable hs⟩

/-- A project with one name from outside, written with a quote, a backslash, a control character and
characters beyond the first plane. -/
def ofForeignName (reactLike : Bool) : Snapshot where
  version := formatVersion
  generated := "2024-05-07T09:30:00+00:00"
  project := ⟨"a\"b\\c\x01", "größe 😀", "typescript"⟩
  packages := [⟨"package_external", "external", "external", ["stub_😀"]⟩]
  classes := [{
    id := "stub_😀", name := "😀", package := "external", file := "", parents := [], interfaces := ["\t"]
    metrics := ⟨-1, 0, 100000000000000000000, 0, 0, "EXTERNAL", "gray", "", ["", "\u007f"]⟩
    methods := [{ name := "\r\n" }], dependencies := [], reactLike, hasTest := false, external := true
    history := ⟨1, some ⟨"0123456", "Ada", "", "2024-05-07T09:30:00+02:00", "\u2028", -3⟩⟩ }]

/-- Two snapshots that differ in an external record alone have one text, and both are read back. -/
theorem text_lossless_ofForeignName : (ofForeignName true).IsWritable ∧ (ofForeignName false).IsWritable ∧
    Json.IsAscii (ofForeignName true).text ∧
    Json.readDeep 5 (ofForeignName true).text = .ok (ofForeignName true).toJson ∧
    (ofForeignName true).text = (ofForeignName false).text ∧ ofForeignName true ≠ ofForeignName false := by
  have hwritable : ∀ reactLike, (ofForeignName reactLike).IsWritable := by decide +kernel
  have hagrees : (ofForeignName true).Agrees (ofForeignName false) :=
    ⟨rfl, rfl, rfl, rfl, .cons ⟨rfl, by decide⟩ .nil⟩
  rcases text_lossless (ofForeignName true) with ⟨hrefused, _⟩ | ⟨hs, hascii, hread, htext⟩
  · exact absurd (hwritable true) hrefused
  · exact ⟨hs, hwritable false, hascii, hread 0, (htext _ (hwritable false)).mpr hagrees, by decide⟩

end Snapshot
end ClassAtlas
