import ClassAtlas.Proofs.Source.Types
import ClassAtlas.Source.Reader
/-!
# Reading the heritage of printed classes
-/
namespace ClassAtlas.Source

variable {d : Dialect} {cs rest : List Char}

/-- The words that an operand does not end with. -/
def operandWords : List String := reserved ++ operandLeads ++ ["function", "class", "async", "yield"]

theorem wordOperand_of_notMem {n : Nat} {w : String} (hw : w ∉ operandWords) :
    wordOperand d n w rest = some ⟨[], rest, false⟩ := by
  simp only [operandWords, List.mem_append, not_or] at hw
  obtain ⟨⟨hreserved, hleads⟩, hothers⟩ := hw
  cases n with
  | zero => rw [wordOperand]
  | succ n =>
    rw [wordOperand]
    simp_all

/-- A word of no other meaning is an operand by itself. -/
theorem operand_word {n : Nat} {w : List Char} (hw : Spelled w)
    (hplain : String.ofList w ∉ operandWords) (hrest : EndsWord rest) :
    operand d (n + 1) (w ++ rest) = some ⟨[], rest, false⟩ := by
  obtain ⟨c, cs, hc, hshape, hword, hdrop⟩ := hw.begins hrest
  have hquote := ne_of_opensWord hc (m := '\'') (by decide)
  have hdouble := ne_of_opensWord hc (m := '"') (by decide)
  have htick := toNat_ne_of_passes (passes_of_opensWord hc)
  have hdigit := isDigit_eq_false_of_opensWord hc
  rw [hshape, operand]
  · simp only [hquote, hdouble, htick, hdigit, hword, hdrop, wordOperand_of_notMem hplain]
    simp [hw.ne_nil]
  all_goals
    intros
    subst_vars
    exact absurd hc (by decide)

theorem operand_plainWord {n : Nat} (w : String) (hw : isPlainWord w.toList = true)
    (hplain : w ∉ operandWords) (hrest : EndsWord rest) :
    operand d (n + 1) (w.toList ++ rest) = some ⟨[], rest, false⟩ :=
  operand_word (spelled_of_isPlainWord hw) (by rwa [String.ofList_toList]) hrest

theorem operand_identifier {n : Nat} (i : Identifier) (hrest : EndsWord rest) :
    operand d (n + 1) (i.text ++ rest) = some ⟨[], rest, false⟩ :=
  operand_word i.spelled (i.notMem operandWords (by decide)) hrest

/-- Whether an operator between two operands begins with the character. -/
def opensOperator (c : Char) : Bool := binaryOperators.any fun op => op.head? == some c

theorem afterBinaryOperator?_eq_none {c : Char} (hc : opensOperator c = false) :
    afterBinaryOperator? (c :: cs) = none := by
  have hnonempty : ∀ op ∈ binaryOperators, op ≠ [] := by decide
  rw [opensOperator, List.any_eq_false] at hc
  rw [afterBinaryOperator?, Option.map_eq_none_iff, List.find?_eq_none]
  intro op hop
  cases op with
  | nil => exact absurd rfl (hnonempty [] hop)
  | cons m op =>
    have hm := hc _ hop
    simp only [List.head?_cons, beq_iff_eq, Option.some.injEq] at hm
    simp [hm]

theorem binary_of_not_opensOperator {n k : Nat} {context : Context} {r : Read} {c : Char}
    (hc : opensOperator c = false) : binary d n context k r (c :: cs) = r := by
  cases n with
  | zero => rw [binary]
  | succ n => rw [binary, afterBinaryOperator?_eq_none hc]

/-- Nothing goes on with an operand in front of what is no operator. -/
theorem operators_of_stops {n k : Nat} {context : Context} {r : Read} {c : Char}
    (hskip : skip r.rest = c :: cs) (hc : c ∈ [')', ';', '\x7b', 'i'])
    (hword : String.ofList (word (c :: cs)) ∉ ["in", "instanceof", "as", "satisfies"]) :
    operators d n context k r = r := by
  have hopens : ∀ c ∈ [')', ';', '\x7b', 'i'], opensOperator c = false := by decide
  have hbinary {n : Nat} : binary d n context k r (c :: cs) = r := binary_of_not_opensOperator (hopens c hc)
  simp only [List.mem_cons, List.not_mem_nil, or_false, not_or] at hc hword
  obtain ⟨hin, hinstanceof, has, hsatisfies⟩ := hword
  cases n with
  | zero => rw [operators]
  | succ n =>
    rcases hc with rfl | rfl | rfl | rfl
    all_goals
      rw [operators, hskip]
      simp [hin, hinstanceof, has, hsatisfies, hbinary]

/-- A closing round bracket, a semicolon or a brace ends an operand. -/
theorem operators_of_closes {n k : Nat} {context : Context} {r : Read} {c : Char}
    (hskip : skip r.rest = c :: cs) (hc : c ∈ [')', ';', '\x7b']) :
    operators d n context k r = r := by
  have hends : ∀ c ∈ [')', ';', '\x7b'], (inWord c = false ∧ c ≠ '\\') ∧ c ∈ [')', ';', '\x7b', 'i'] := by decide
  have hword : word (c :: cs) = [] := word_of_endsWord (hends c hc).1
  refine operators_of_stops hskip (hends c hc).2 ?_
  rw [hword]
  decide

theorem operators_of_implements {n k : Nat} {context : Context} {r : Read}
    (hskip : skip r.rest = "implements".toList ++ ' ' :: cs) : operators d n context k r = r := by
  obtain ⟨c, more, -, hshape, hword, -⟩ := spelled_implements.begins (endsWord_space cs)
  have hc : c = 'i' := by simp at hshape; exact hshape.1.symm
  refine operators_of_stops (hskip.trans hshape) (by simp [hc]) ?_
  rw [hword]
  decide

theorem memberAccess_identifier {n k : Nat} {context : Context} {r : Read} (i : Identifier)
    (hrest : EndsWord rest) : memberAccess d (n + 1) context k r (i.text ++ rest) =
      operators d n context k ⟨r.trees, rest, false⟩ := by
  obtain ⟨c, cs, hc, hshape, hword, hdrop⟩ := i.spelled.begins hrest
  have hhash := ne_of_opensWord hc (m := '#') (by decide)
  rw [hshape, memberAccess, skip_of_keeps (keeps_of_opensWord hc)]
  simp only [hhash, List.cons.injEq, false_and, imp_self, implies_true, hword, hdrop]

theorem operators_dotted {n k : Nat} {context : Context} (is : List Identifier)
    (hrest : EndsWord rest) (trees : List SyntaxTree) :
    operators d (n + 2 * is.length) context k ⟨trees, dottedText is ++ rest, false⟩ =
      operators d n context k ⟨trees, rest, false⟩ := by
  induction is with
  | nil => rfl
  | cons i is ih =>
    -- One step takes the dot and one the name after it.
    rw [dottedText, List.length_cons, Nat.mul_add, ← Nat.add_assoc, operators, List.cons_append,
      skip_of_keeps (by decide), lineEnds_of_keeps (by decide), List.append_assoc]
    simp only [Bool.false_and, Bool.false_eq_true, if_false]
    rw [memberAccess_identifier i (endsWord_dotted is hrest)]
    exact ih

/-- What may come after the parent of a class: interfaces or the body. -/
def EndsParent (cs : List Char) : Prop :=
  EndsWord cs ∧ ∃ more, skip cs = "implements".toList ++ ' ' :: more ∨ skip cs = '\x7b' :: more

theorem EndsParent.exists_skip_eq (h : EndsParent rest) :
    ∃ c cs, skip rest = c :: cs ∧ c ∈ ['i', '\x7b'] := by
  obtain ⟨-, more, h | h⟩ := h
  · exact ⟨'i', "mplements".toList ++ ' ' :: more, h, by decide⟩
  · exact ⟨'\x7b', more, h, by decide⟩

theorem EndsParent.head?_ne {m : Char} (h : EndsParent rest) (hm : m ∉ ['i', '\x7b']) :
    (skip rest).head? ≠ some m := by
  obtain ⟨c, more, hskip, hc⟩ := h.exists_skip_eq
  rw [hskip, List.head?_cons, ne_eq, Option.some.injEq]
  rintro rfl
  exact hm hc

theorem operators_of_endsParent {n k : Nat} {context : Context} {r : Read} (h : EndsParent r.rest) :
    operators d n context k r = r := by
  obtain ⟨-, more, h | h⟩ := h
  · exact operators_of_implements h
  · exact operators_of_closes h (by decide)

/-- Type arguments do not belong to the value that a class extends. -/
theorem operators_arguments {n k : Nat} (htyped : d.isTyped = true) (ts : List TypeRef)
    (hrest : EndsParent rest) :
    operators d n .parent k ⟨[], TypeRef.argumentsText ts ++ rest, false⟩ =
      ⟨[], TypeRef.argumentsText ts ++ rest, false⟩ := by
  cases ts with
  | nil => exact operators_of_endsParent hrest
  | cons t ts =>
    have harguments := afterTypeArguments?_arguments t ts rest
    rw [TypeRef.argumentsText, List.cons_append] at harguments ⊢
    cases n with
    | zero => rw [operators]
    | succ n =>
      rw [operators, skip_of_keeps (by decide), lineEnds_of_keeps (by decide)]
      obtain ⟨c, more, hskip, hc⟩ := hrest.exists_skip_eq
      simp only [List.mem_cons, List.not_mem_nil, or_false] at hc
      simp only [htyped, if_true, harguments, hskip, Context.parent]
      rcases hc with rfl | rfl <;> simp

/-- A printed parent is read up to its type arguments. -/
theorem expression_type {n : Nat} (htyped : d.isTyped = true) (t : TypeRef)
    (hrest : EndsParent rest) :
    expression d (n + 2 * t.name.more.length + 2) .parent (t.text ++ rest) =
      some ⟨[], TypeRef.argumentsText t.arguments ++ rest, false⟩ := by
  obtain ⟨⟨i, is⟩, ts⟩ := t
  have hends := endsWord_arguments ts hrest.1
  have hmore := endsWord_dotted is hends
  obtain ⟨c, cs, hc, hshape, -⟩ := i.spelled.begins hmore
  have hoperand := operand_identifier (d := d) (n := n + 2 * is.length) i hmore
  simp only [TypeRef.text_eq, TypeRef.name, TypeRef.arguments, DottedName.text, List.append_assoc]
  rw [expression, hshape, skipLead_of_opensWord hc, ← hshape]
  simp only [hoperand, Option.some.injEq]
  rw [show n + 2 * is.length + 1 = n + 1 + 2 * is.length by omega, operators_dotted is hends,
    operators_arguments htyped ts hrest]

theorem afterNextBrackets_of_head?_ne {opening : Char} (h : (skip cs).head? ≠ some opening) :
    afterNextBrackets opening cs = cs := by
  simp [afterNextBrackets, h]

theorem afterNextBrackets_of_keeps {opening c : Char} (hc : keeps c = true) (hne : c ≠ opening) :
    afterNextBrackets opening (c :: cs) = c :: cs := by
  refine afterNextBrackets_of_head?_ne ?_
  rw [skip_of_keeps hc]
  simpa using hne

theorem afterNextBrackets_arguments (ts : List TypeRef) (hrest : (skip rest).head? ≠ some '<') :
    afterNextBrackets '<' (TypeRef.argumentsText ts ++ rest) = rest := by
  cases ts with
  | nil => exact afterNextBrackets_of_head?_ne hrest
  | cons t ts =>
    have hbrackets := afterBrackets?_arguments t ts rest
    rw [TypeRef.argumentsText, List.cons_append] at hbrackets ⊢
    rw [afterNextBrackets, skip_of_keeps (by decide), hbrackets]
    rfl

theorem otherParents_of_head?_ne {n : Nat} (h : (skip cs).head? ≠ some ',') :
    ∃ closed, otherParents d n cs = ⟨[], cs, closed⟩ := by
  cases n with
  | zero => exact ⟨false, by rw [otherParents]⟩
  | succ n =>
    refine ⟨true, ?_⟩
    rw [otherParents]
    split
    · simp_all
    · rfl

theorem skip_space_brace (cs : List Char) : skip (' ' :: '\x7b' :: cs) = '\x7b' :: cs :=
  skip_space_of_keeps (by decide)

theorem heritage_brace {n : Nat} :
    heritage d n (' ' :: '\x7b' :: cs) = ⟨[], [], [], ' ' :: '\x7b' :: cs⟩ := by
  cases n with
  | zero => rw [heritage]
  | succ n =>
    have hword : word ('\x7b' :: cs) = [] := word_of_endsWord (endsWord_cons (by decide))
    rw [heritage, skip_space_brace, hword]
    simp

/-- The interfaces of a class are read back with their arguments. -/
theorem interfaces_types {n : Nat} (t : TypeRef) (ts : List TypeRef) {body : List Char}
    (hn : ts.length < n)
    (hskip : skip cs = t.text ++ (moreTypesText ts ++ ' ' :: '\x7b' :: body)) :
    interfaces d n cs = ((t :: ts).map TypeRef.text, ' ' :: '\x7b' :: body) := by
  induction n generalizing t ts cs with
  | zero => omega
  | succ n ih =>
    rw [interfaces, hskip]
    cases ts with
    | nil =>
      have htype := afterTypeText?_type t (endsType_brace body)
      rw [moreTypesText, List.nil_append, htype]
      simp [skip_space_of_keeps, readUpTo_append, show keeps '\x7b' = true by decide]
    | cons u ts =>
      have htype := afterTypeText?_type t
        (endsType_comma (' ' :: (u.text ++ (moreTypesText ts ++ ' ' :: '\x7b' :: body))))
      have hmore := ih u ts (by simpa using hn) (u.skip_space_text _)
      rw [moreTypesText, List.cons_append, List.cons_append, List.append_assoc, htype]
      simp [skip_of_keeps, readUpTo_append, show keeps ',' = true by decide, hmore]

/-- What is read of the interfaces of a class. -/
theorem heritage_implements {n : Nat} (htyped : d.isTyped = true) (t : TypeRef) (ts : List TypeRef)
    {body : List Char} (hn : ts.length < n) :
    heritage d (n + 1) (' ' :: ("implements".toList ++
        ' ' :: (t.text ++ (moreTypesText ts ++ ' ' :: '\x7b' :: body)))) =
      ⟨[], (t :: ts).map TypeRef.text, [], ' ' :: '\x7b' :: body⟩ := by
  have hword := spelled_implements.reads _
    (endsWord_space (t.text ++ (moreTypesText ts ++ ' ' :: '\x7b' :: body)))
  have hinterfaces :=
    interfaces_types (d := d) t ts hn (t.skip_space_text (moreTypesText ts ++ ' ' :: '\x7b' :: body))
  have hother : ("implements".toList == "extends".toList) = false := by decide
  rw [heritage, spelled_implements.skip_space]
  simp only [hword, hother, htyped, List.drop_left, hinterfaces, heritage_brace]
  simp

/-- What is read of the parent of a class; what comes after it is read on its own. -/
theorem heritage_extends {n : Nat} (htyped : d.isTyped = true) (t : TypeRef)
    (hrest : EndsParent rest) :
    heritage d (n + 2 * t.name.more.length + 3) (' ' :: ("extends".toList ++ ' ' :: (t.text ++ rest))) =
      let h := heritage d (n + 2 * t.name.more.length + 2) rest
      { h with parents := t.name.text :: h.parents } := by
  have hword := spelled_extends.reads _ (endsWord_space (t.text ++ rest))
  have harguments := afterNextBrackets_arguments t.arguments (hrest.head?_ne (m := '<') (by decide))
  obtain ⟨closed, hothers⟩ := otherParents_of_head?_ne (d := d) (n := n + 2 * t.name.more.length + 2)
    (hrest.head?_ne (m := ',') (by decide))
  have hname : readUpTo (t.text ++ rest) (TypeRef.argumentsText t.arguments ++ rest) =
      t.name.text := by
    rw [t.text_eq, List.append_assoc, readUpTo_append]
  rw [heritage, spelled_extends.skip_space]
  simp only [hword, List.drop_left, t.skip_space_text, expression_type htyped t hrest, htyped, if_true,
    harguments, hothers, hname]
  simp

theorem endsParent_implements (ts : List TypeRef) (body : List Char) :
    EndsParent (implementsText ts ++ ' ' :: '\x7b' :: body) := by
  cases ts with
  | nil =>
    rw [implementsText_nil, List.nil_append]
    exact ⟨endsWord_space _, body, .inr (skip_space_brace body)⟩
  | cons t ts =>
    rw [implementsText_cons]
    simp only [List.cons_append, List.append_assoc]
    exact ⟨endsWord_space _, _, .inl spelled_implements.skip_space⟩

theorem length_le_length_moreTypesText (ts : List TypeRef) :
    ts.length ≤ (moreTypesText ts).length := by
  induction ts with
  | nil => simp
  | cons t ts ih =>
    simp only [moreTypesText, List.length_cons, List.length_append]
    omega

theorem length_le_length_implementsText (ts : List TypeRef) :
    ts.length ≤ (implementsText ts).length := by
  cases ts with
  | nil => simp
  | cons t ts =>
    have hmore := length_le_length_moreTypesText ts
    simp only [implementsText_cons, List.length_cons, List.length_append]
    omega

theorem heritage_interfaces {n : Nat} (htyped : d.isTyped = true) (ts : List TypeRef)
    (body : List Char) (hn : ts.length < n) :
    heritage d n (implementsText ts ++ ' ' :: '\x7b' :: body) =
      ⟨[], ts.map TypeRef.text, [], ' ' :: '\x7b' :: body⟩ := by
  cases ts with
  | nil => exact heritage_brace
  | cons t ts =>
    obtain ⟨n, rfl⟩ := Nat.exists_eq_add_of_lt hn
    rw [implementsText_cons]
    simp only [List.cons_append, List.append_assoc]
    exact heritage_implements htyped t ts (by rw [List.length_cons]; omega)

/-- The heritage of a printed class is read back: its parent without type arguments, and the
interfaces with theirs. -/
theorem heritage_clauses {n : Nat} (htyped : d.isTyped = true) (parent : Option TypeRef)
    (ts : List TypeRef) (body : List Char)
    (hn : 2 * (extendsText parent ++ implementsText ts).length + 3 ≤ n) :
    heritage d n (extendsText parent ++ (implementsText ts ++ ' ' :: '\x7b' :: body)) =
      ⟨parent.toList.map fun t => t.name.text, ts.map TypeRef.text, [], ' ' :: '\x7b' :: body⟩ := by
  have hts := length_le_length_implementsText ts
  simp only [List.length_append] at hn
  cases parent with
  | none => exact heritage_interfaces htyped ts body (by omega)
  | some t =>
    have hmore := t.length_le_length_text
    simp only [extendsText_some, List.length_cons, List.length_append] at hn
    obtain ⟨n, rfl⟩ : ∃ k, n = k + 2 * t.name.more.length + 3 :=
      ⟨n - (2 * t.name.more.length + 3), by omega⟩
    have hinterfaces :=
      heritage_interfaces htyped ts body (n := n + 2 * t.name.more.length + 2) (by omega)
    rw [extendsText_some]
    simp only [List.cons_append, List.append_assoc]
    rw [heritage_extends htyped t (endsParent_implements ts body), hinterfaces]
    rfl

end ClassAtlas.Source
