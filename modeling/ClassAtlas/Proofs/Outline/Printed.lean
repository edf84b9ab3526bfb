import ClassAtlas.Outline.Choice
import ClassAtlas.Proofs.Source.Classes
import ClassAtlas.Proofs.Text.Split
/-!
# Outlines of printed classes

The outline of a source file that holds comments and a printed class is that of the class.
-/
namespace ClassAtlas.Outline

open Source Text

theorem isBlank_eq_false_of_inWord {c : Char} (h : inWord c = true) : isBlank c = false := by
  simp only [inWord, isSpace, Bool.and_eq_true, decide_eq_true_eq, Bool.not_eq_true',
    Bool.or_eq_false_iff, Bool.and_eq_false_iff, decide_eq_false_iff_not, beq_eq_false_iff_ne] at h
  simp only [isBlank, Bool.or_eq_false_iff, Bool.and_eq_false_iff, decide_eq_false_iff_not,
    beq_eq_false_iff_ne]
  omega

/-- Whether a character may stand in the name of a type. -/
def inName (c : Char) : Bool := c != '<' && !isBlank c

theorem inName_of_inWord {c : Char} (h : inWord c = true) : inName c = true := by
  have hangle : c ≠ '<' := by rintro rfl; exact absurd h (by decide)
  simp [inName, hangle, isBlank_eq_false_of_inWord h]

theorem inName_of_isHexDigit {c : Char} (h : isHexDigit c = true) : inName c = true :=
  inName_of_inWord (inWord_of_isHexDigit h)

theorem forall_mem_letter (l : Letter) : ∀ c ∈ l.text, inName c = true := by
  cases l with
  | plain c within => simpa [Letter.text] using inName_of_inWord within
  | code digits hfour hhex =>
    simp only [Letter.text, List.forall_mem_cons]
    exact ⟨by decide, by decide, fun c hc => inName_of_isHexDigit (hhex c hc)⟩
  | point digits hne hhex =>
    simp only [Letter.text, List.forall_mem_cons, List.forall_mem_append]
    have hinside : ∀ c ∈ digits, inName c = true := fun c hc => inName_of_isHexDigit (hhex c hc)
    exact ⟨by decide, by decide, by decide, hinside, by decide, by simp⟩

theorem forall_mem_identifier (i : Identifier) : ∀ c ∈ i.text, inName c = true := by
  intro c hc
  simp only [Identifier.text, Letter.spell, List.mem_flatMap] at hc
  obtain ⟨l, -, hc⟩ := hc
  exact forall_mem_letter l c hc

theorem forall_mem_dotted (is : List Identifier) : ∀ c ∈ dottedText is, inName c = true := by
  induction is with
  | nil => simp [dottedText]
  | cons i is ih =>
    simp only [dottedText, List.forall_mem_cons, List.forall_mem_append]
    exact ⟨by decide, forall_mem_identifier i, ih⟩

theorem forall_mem_name (n : DottedName) : ∀ c ∈ n.text, inName c = true := by
  simp only [DottedName.text, List.forall_mem_append]
  exact ⟨forall_mem_identifier n.head, forall_mem_dotted n.more⟩

theorem name_ne_nil (n : DottedName) : n.text ≠ [] := by
  simp [DottedName.text, n.head.spelled.ne_nil]

/-- The name of a type is what stands in front of its arguments. -/
theorem typeName_of_inName {name rest : List Char} (hname : ∀ c ∈ name, inName c = true)
    (hrest : ∀ c ∈ rest.head?, c = '<') : typeName (name ++ rest) = String.ofList name := by
  have hangle : ∀ c ∈ name, (!(c == '<')) = true := by
    intro c hc
    have hc := hname c hc
    simp only [inName, Bool.and_eq_true, bne_iff_ne] at hc
    simpa using hc.1
  have hfirm : ∀ c ∈ name, isBlank c = false := by
    intro c hc
    have hc := hname c hc
    simp only [inName, Bool.and_eq_true, Bool.not_eq_true'] at hc
    exact hc.2
  have hupTo : upTo (· == '<') (name ++ rest) = name := by
    rw [upTo, List.takeWhile_append_of_pos hangle]
    cases rest with
    | nil => simp
    | cons c rest => simp [hrest c rfl]
  have htrim : trim name = name := by
    obtain ⟨hhead, hlast⟩ := firmEnds_of_not_blank hfirm
    rw [trim, trimStart_eq_self hhead, trimEnd_eq_self hlast]
  rw [typeName, hupTo, htrim]

theorem typeName_name (n : DottedName) : typeName n.text = String.ofList n.text := by
  have hend : ∀ c ∈ ([] : List Char).head?, c = '<' := by simp
  have hname := typeName_of_inName (forall_mem_name n) hend
  rwa [List.append_nil] at hname

theorem typeName_text (t : TypeRef) : typeName t.text = String.ofList t.name.text := by
  rw [t.text_eq]
  refine typeName_of_inName (forall_mem_name t.name) ?_
  cases t.arguments with
  | nil => simp [TypeRef.argumentsText]
  | cons u us => simp [TypeRef.argumentsText]

theorem ofList_ne_empty {cs : List Char} (h : cs ≠ []) : String.ofList cs ≠ "" := by
  simpa using h

/-- All names of types are kept, in order and with repetitions. -/
theorem typeNames_eq (ts : List TypeRef) {texts : List (List Char)}
    (h : texts.map typeName = ts.map fun t => String.ofList t.name.text) :
    typeNames texts = ts.map fun t => String.ofList t.name.text := by
  rw [typeNames, h, List.filter_eq_self]
  intro name hname
  simp only [List.mem_map] at hname
  obtain ⟨t, -, rfl⟩ := hname
  simpa using name_ne_nil t.name

/-- Of the members only the methods but the constructor are kept, in order. -/
theorem methodsOf_members (ms : List Member) :
    methodsOf (ms.map Member.read) =
      (ms.filterMap Member.methodName?).map fun name => { name := name } := by
  induction ms with
  | nil => rfl
  | cons m ms ih =>
    rw [methodsOf] at ih ⊢
    rw [List.map_cons, List.filter_cons]
    cases m with
    | builder => exact ih
    | getter name => exact ih
    | setter name parameter => exact ih
    | field name value => exact ih
    | method isStatic isAsync name =>
      have hconstructor := by simpa using name.text_ne (w := "constructor") (by decide)
      rw [if_pos (by simp [Member.read, name.spelled.ne_nil, hconstructor]), List.map_cons, ih]
      rfl

theorem ofShape_shape (c : ClassDeclaration) : ofShape c.shape = c.outline := by
  have hparents : typeNames (c.shape.parents.take 1) = c.outline.parents := by
    refine typeNames_eq c.parent.toList ?_
    cases h : c.parent with
    | none => simp [ClassDeclaration.shape, h]
    | some t => simp [ClassDeclaration.shape, h, typeName_name]
  have hinterfaces : typeNames c.shape.interfaces = c.outline.interfaces := by
    refine typeNames_eq c.interfaces ?_
    simp [ClassDeclaration.shape, typeName_text]
  have hmethods : methodsOf c.shape.members = c.outline.methods := methodsOf_members c.members
  rw [ofShape, hparents, hinterfaces, hmethods]
  rfl

/-- An identifier of one letter. -/
def letterName (c : Char) (starts : startsWord c = true) : Identifier where
  first := .plain c (by simp [startsWord] at starts; exact starts.1)
  more := []
  starts := starts
  free := by
    have hlength : ∀ w ∈ keywords, w.toList.length ≠ 1 := by decide
    intro h
    exact hlength _ h (by simp [Letter.text])

/-- A class with both clauses and every kind of member. -/
def sampleClass : ClassDeclaration :=
  let simple (c : Char) (starts : startsWord c = true) : TypeRef := .mk ⟨letterName c starts, []⟩ []
  { exported := true
    name := letterName 'S' (by decide)
    parent := some (.mk ⟨letterName 'A' (by decide), [letterName 'B' (by decide)]⟩
      [.mk ⟨letterName 'T' (by decide), []⟩ [simple 'U' (by decide)], simple 'V' (by decide)])
    interfaces := [simple 'R' (by decide), simple 'é' (by decide), simple 'R' (by decide)]
    members := [.builder, .getter (letterName 'g' (by decide)),
      .setter (letterName 'g' (by decide)) (letterName 'v' (by decide)),
      .method false false (letterName 'm' (by decide)), .method true true (letterName 's' (by decide)),
      .field (letterName 'f' (by decide)) (some (.string ⟨'"', by decide⟩
        [.plain 'x' (by decide), .escaped '"' (by decide)]))] }

end ClassAtlas.Outline
