import ClassAtlas.Proofs.Generation.Stopping
import ClassAtlas.Proofs.Json.Limits
import ClassAtlas.Proofs.Settings.Layers
/-!
# What is known of a project

Name and description are each the first that is there: what the settings say, what the manifest says, and what stands
for them otherwise. A manifest that is no file, is no text, is malformed or is no object says nothing. One thing about
a manifest can end the work nevertheless: that a limit is exceeded by it, of its name, its depth or its numbers.
-/
namespace ClassAtlas

open ClassAtlas.Action
open Settings (nonEmpty)

variable {h after : Host} {root : Path} {f : Failure} {place : Location} {bytes : List UInt8}
variable {members : List (String × Json)}

namespace Manifest

/-- The object that the manifest in a directory holds, if it is a file with a text that is one. -/
def object? (h : Host) (root : Path) : Option (List (String × Json)) :=
  if hasNul (root.child fileName) then none
  else
    match h.files.lookup h.cwd true (root.child fileName) with
    | .ok (_, .file bytes) =>
      match Utf8.decode bytes with
      | .ok chars => (Json.readDeep maxDepth (Text.unifyLineEnds chars)).toOption.bind Json.obj?
      | .error _ => none
    | _ => none

/-- What a manifest says under a name: a string that is not empty. -/
def told? (h : Host) (root : Path) (name : String) : Option String :=
  (object? h root).bind fun members => nonEmpty (Project.manifestText members name)

/-- A path that can be looked up leads to a manifest that ends the work. -/
structure Halts (h : Host) (root : Path) (f : Failure) : Prop where
  noNul : hasNul (root.child fileName) = false
  untold : Untold h root f

/-- No limit is exceeded by the manifest: what it leads to has a name that can be looked up, and if that is a file
with text, there are not too many opening brackets in the text and no run of digits that is too long. -/
structure Modest (h : Host) (root : Path) : Prop where
  short : h.files.lookup h.cwd true (root.child fileName) ≠ .error .nameTooLong
  shallow {place : Location} {bytes : List UInt8} {chars : List Char} :
    h.files.lookup h.cwd true (root.child fileName) = .ok (place, .file bytes) → Utf8.decode bytes = .ok chars →
      (Text.unifyLineEnds chars).countP Json.isOpening ≤ maxDepth
  brief {place : Location} {bytes : List UInt8} {chars : List Char} :
    h.files.lookup h.cwd true (root.child fileName) = .ok (place, .file bytes) → Utf8.decode bytes = .ok chars →
      ∀ count, ¬ Json.HasLongRun count (Text.unifyLineEnds chars)

theorem Modest.not_halts (hm : Modest h root) (f : Failure) : ¬ Halts h root f := by
  rintro ⟨_, unseen | ⟨found, text, nested⟩ | ⟨found, text, numeral⟩⟩
  · exact hm.short unseen
  · exact absurd (Json.lt_countP_of_tooDeep nested) (Nat.not_lt.mpr (hm.shallow found text))
  · exact hm.brief found text _ (Json.hasLongRun_of_tooManyDigits numeral)

/-! ## Reading -/

theorem on_read_of_hasNul (hnul : hasNul (root.child fileName) = true) : (read root).on h = (.ok [], h) := by
  have hexists : (pathExists (root.child fileName)).on h = (.ok false, h) := by
    rw [pathExists, probe, hnul]
    rfl
  exact on_bind_of_ok hexists _

/-- What is done with the bytes of a manifest that is a file. -/
theorem on_read_of_file (hnul : hasNul (root.child fileName) = false)
    (hfound : h.files.lookup h.cwd true (root.child fileName) = .ok (place, .file bytes)) : (read root).on h =
      (match Utf8.decode bytes with
        | .error fault => passOver (root.child fileName) fault.message
        | .ok chars =>
          match Json.readDeep maxDepth (Text.unifyLineEnds chars) with
          | .error (.malformed fault left) =>
            passOver (root.child fileName) (fault.message ++ faultPlace (Text.unifyLineEnds chars) left)
          | .error (.tooDeep inArray) =>
            throw (.tooDeep (" while decoding a JSON " ++ (if inArray then "array" else "object") ++
              " from a unicode string"))
          | .error (.tooManyDigits count) => throw (.value (.numeral (.manyDigitsRead count)))
          | .ok (.obj members) => pure members
          | .ok _ => pure [] : Action (List (String × Json))).on h := by
  have hbytes : (attempt (readBytes (root.child fileName))).on h = (.ok (.ok bytes), h) := by
    rw [on_attempt, Generation.on_readBytes hnul, hfound]
  exact (on_bind_of_ok (on_probe_of_found hnul hfound fun _ => true) _).trans (on_bind_of_ok hbytes _)

/-- What ends the work is told by the reading, and nothing else is done. -/
theorem Halts.on_read (hh : Halts h root f) : (read root).on h = (.error f, h) := by
  obtain ⟨hnul, hu⟩ := hh
  cases hu with
  | long unseen =>
    have hprobe := on_probe hnul true (fun _ => true) h
    rw [unseen] at hprobe
    exact on_bind_of_error hprobe _
  | deep found text nested =>
    rw [on_read_of_file hnul found, text]
    simp only [nested]
    rfl
  | digits found text numeral =>
    rw [on_read_of_file hnul found, text]
    simp only [numeral]
    rfl

theorem members_of_passOver {file : Path} {cause : String} (hrun : (passOver file cause).on h = (.ok members, after)) :
    members = [] := by
  obtain ⟨_, _, _, hrest⟩ := Action.bind_eq_ok hrun
  cases hrest
  rfl

/-- Of a manifest that is a file the object is read. -/
theorem read_of_file (hnul : hasNul (root.child fileName) = false)
    (hfound : h.files.lookup h.cwd true (root.child fileName) = .ok (place, .file bytes))
    (hrun : (read root).on h = (.ok members, after)) : members = (object? h root).getD [] := by
  rw [on_read_of_file hnul hfound] at hrun
  simp only [object?, hnul, Bool.false_eq_true, if_false, hfound]
  cases htext : Utf8.decode bytes with
  | error fault =>
    simp only [htext] at hrun
    exact members_of_passOver hrun
  | ok chars =>
    simp only [htext] at hrun ⊢
    cases hread : Json.readDeep maxDepth (Text.unifyLineEnds chars) with
    | error fault =>
      simp only [hread] at hrun
      cases fault with
      | malformed cause left => exact members_of_passOver hrun
      | tooDeep inArray => cases hrun
      | tooManyDigits count => cases hrun
    | ok v =>
      simp only [hread] at hrun
      cases v <;> cases hrun <;> rfl

/-- What is no file is passed over. -/
theorem read_of_no_file {node : Node} (hnul : hasNul (root.child fileName) = false)
    (hfound : h.files.lookup h.cwd true (root.child fileName) = .ok (place, node)) (hnode : node.isFile = false)
    (hrun : (read root).on h = (.ok members, after)) : members = [] := by
  have hrest := (on_bind_of_ok (on_probe_of_found hnul hfound fun _ => true) _).symm.trans hrun
  obtain ⟨errno, hbytes⟩ := attempt_readBytes_of_no_file hnul hfound hnode
  exact members_of_passOver ((on_bind_of_ok hbytes _).symm.trans hrest)

theorem object?_of_no_file {node : Node}
    (hfound : h.files.lookup h.cwd true (root.child fileName) = .ok (place, node)) (hnode : node.isFile = false) :
    object? h root = none := by
  unfold object?
  rw [hfound]
  split
  · rfl
  · cases node <;> first | rfl | cases hnode

/-- What is read is the object that is there. -/
theorem read_of_ok (hrun : (read root).on h = (.ok members, after)) : members = (object? h root).getD [] := by
  cases hnul : hasNul (root.child fileName) with
  | true =>
    rw [on_read_of_hasNul hnul] at hrun
    cases hrun
    rw [object?, if_pos hnul]
    rfl
  | false =>
    cases hlookup : h.files.lookup h.cwd true (root.child fileName) with
    | error errno =>
      have hprobe := on_probe hnul true (fun _ => true) h
      rw [hlookup] at hprobe
      obtain ⟨found, middle, hexists, hrest⟩ := Action.bind_eq_ok hrun
      rw [object?, hnul, if_neg Bool.false_ne_true, hlookup]
      cases errno <;> cases hprobe.symm.trans hexists <;> cases hrest <;> rfl
    | ok found =>
      obtain ⟨place, node⟩ := found
      cases hnode : node.isFile with
      | true =>
        cases node with
        | file bytes => exact read_of_file hnul hlookup hrun
        | _ => cases hnode
      | false =>
        rw [object?_of_no_file hlookup hnode]
        exact read_of_no_file hnul hlookup hnode hrun

/-- A manifest is read unless it ends the work. -/
theorem returns_read_iff : (read root).Returns h ↔ ∀ f, ¬ Halts h root f := by
  constructor
  · rintro ⟨members, next, hrun⟩ f hh
    cases hrun.symm.trans hh.on_read
  · intro hnone
    cases hnul : hasNul (root.child fileName) with
    | true => exact ⟨[], h, on_read_of_hasNul hnul⟩
    | false =>
      rcases hingesOn_read hnul h with ⟨hreturns, _⟩ | ⟨f, _, _, hu⟩
      · exact hreturns
      · exact absurd ⟨hnul, hu⟩ (hnone f)

end Manifest

/-! ## Facts -/

namespace Project

theorem nonEmpty_manifestText (object : Option (List (String × Json))) (name : String) :
    nonEmpty (manifestText (object.getD []) name) =
      object.bind fun members => nonEmpty (manifestText members name) := by
  cases object <;> rfl

/-- The first of three texts that is there and not empty, the last one being there in any case. -/
theorem prefer_prefer (first second : Option String) (last : String) :
    prefer first (prefer second last) = ((nonEmpty first).or (nonEmpty second)).getD last := by
  rw [Settings.prefer_eq, Settings.prefer_eq]
  cases nonEmpty first <;> rfl

/-- The facts about a project are found unless its manifest ends the work, which it does with a failure of its own and
never within the limits. Name and description are those of the settings, else those of the manifest, else the ones that
are given. -/
theorem load_facts (root : Path) (given : String) (wanted : ProjectOverrides) (h : Host) :
    ((load root given wanted).Returns h ↔ ∀ f, ¬ Manifest.Halts h root f) ∧
      (∀ f, Manifest.Halts h root f → (load root given wanted).on h = (.error f, h)) ∧
      (Manifest.Modest h root → (load root given wanted).Returns h) ∧
      ∀ project after, (load root given wanted).on h = (.ok project, after) →
        project.name = ((nonEmpty wanted.name).or (Manifest.told? h root "name")).getD given ∧
          project.description =
            ((nonEmpty wanted.description).or (Manifest.told? h root "description")).getD "Codebase visualization" := by
  have hreturns : (load root given wanted).Returns h ↔ ∀ f, ¬ Manifest.Halts h root f := by
    rw [← Manifest.returns_read_iff]
    constructor
    · rintro ⟨project, after, hrun⟩
      obtain ⟨members, middle, hread, _⟩ := Action.bind_eq_ok hrun
      exact ⟨members, middle, hread⟩
    · exact fun hread => hread.bind fun _ next _ => returns_pure _ next
  refine ⟨hreturns, fun f hh => on_bind_of_error hh.on_read _, fun hm => hreturns.mpr hm.not_halts, ?_⟩
  intro project after hrun
  obtain ⟨members, middle, hread, hrest⟩ := Action.bind_eq_ok hrun
  obtain rfl := Manifest.read_of_ok hread
  cases hrest
  simp only [ofManifest, prefer_prefer, nonEmpty_manifestText, Manifest.told?, and_self]

/-! ## Within the limits and beyond -/

/-- A directory that has nothing but a manifest. -/
def manifestTree (text : List Char) : FileTree where
  nodes := [(["repo"], .directory false), (["repo", Manifest.fileName], .file (Utf8.encode text))]

theorem wellFormed_manifestTree (text : List Char) : (manifestTree text).WellFormed := of_decide_eq_true rfl

theorem lookup_manifestTree (text : List Char) :
    (manifestTree text).lookup [] true ((pathOf ["repo"]).child Manifest.fileName) =
      .ok (["repo", Manifest.fileName], .file (Utf8.encode text)) :=
  lookup_pathOf (wellFormed_manifestTree text) rfl rfl (by decide) [] true

theorem object?_manifestTree (text : List Char) :
    Manifest.object? (.holding (manifestTree text)) (pathOf ["repo"]) =
      (Json.readDeep Manifest.maxDepth (Text.unifyLineEnds text)).toOption.bind Json.obj? := by
  have hfound : (Host.holding (manifestTree text)).files.lookup (Host.holding (manifestTree text)).cwd true
      ((pathOf ["repo"]).child Manifest.fileName) = _ := lookup_manifestTree text
  rw [Manifest.object?, if_neg (by decide), hfound]
  simp only [Utf8.decode_encode]

def cityText : List Char := "\x7b\"name\": \"city\", \"description\": 7\x7d".toList

theorem modest_cityText : Manifest.Modest (.holding (manifestTree cityText)) (pathOf ["repo"]) where
  short := fun hlong => by cases (lookup_manifestTree cityText).symm.trans hlong
  shallow := fun hfound htext => by
    cases (lookup_manifestTree cityText).symm.trans hfound
    cases (Utf8.decode_encode cityText).symm.trans htext
    decide
  brief := fun hfound htext count => by
    cases (lookup_manifestTree cityText).symm.trans hfound
    cases (Utf8.decode_encode cityText).symm.trans htext
    exact Json.not_hasLongRun_of_length (by decide)

/-- An empty name in the settings and a description that is no string count for nothing. -/
theorem load_facts_cityText : ∃ project after,
    (load (pathOf ["repo"]) "demo" ⟨some "", none, none⟩).on (.holding (manifestTree cityText)) = (.ok project, after) ∧
      project.name = "city" ∧ project.description = "Codebase visualization" := by
  obtain ⟨_, _, hreturns, hfirst⟩ :=
    load_facts (pathOf ["repo"]) "demo" ⟨some "", none, none⟩ (.holding (manifestTree cityText))
  obtain ⟨project, after, hrun⟩ := hreturns modest_cityText
  obtain ⟨hname, hdescription⟩ := hfirst project after hrun
  rw [Manifest.told?, object?_manifestTree] at hname hdescription
  exact ⟨project, after, hrun, hname.trans (by decide +kernel), hdescription.trans (by decide +kernel)⟩

/-- The least number of digits that is too many. -/
def longNumber : List Char := List.replicate 4301 '1'

/-- A whole number of that many digits is well-formed text that ends the work. -/
theorem load_longNumber : (load (pathOf ["repo"]) "demo" .none).on (.holding (manifestTree longNumber)) =
    (.error (.value (.numeral (.manyDigitsRead 4301))), .holding (manifestTree longNumber)) := by
  have hdigits : ∀ c ∈ longNumber, Json.isDigit c = true := by
    intro c hc
    rw [List.eq_of_mem_replicate hc]
    rfl
  have hlength : longNumber.length = 4301 := List.length_replicate
  have hread : Json.readDeep Manifest.maxDepth longNumber = .error (.tooManyDigits longNumber.length) :=
    Json.readDeep_of_digits hdigits (by rw [longNumber, List.head?_replicate]; decide) (by rw [hlength]; decide)
  rw [hlength] at hread
  have hlines : Text.unifyLineEnds longNumber = longNumber := Text.unifyLineEnds_eq_self fun hmem => by
    cases hdigits _ hmem
  have hhalts : Manifest.Halts (.holding (manifestTree longNumber)) (pathOf ["repo"])
      (.value (.numeral (.manyDigitsRead 4301))) :=
    ⟨by decide, .digits (lookup_manifestTree longNumber) (Utf8.decode_encode longNumber) (by rw [hlines, hread])⟩
  exact on_bind_of_error hhalts.on_read _

end Project
end ClassAtlas
