import ClassAtlas.Proofs.Source.Heritage
import ClassAtlas.Proofs.Source.Literals
/-!
# Reading the members of printed classes
-/
namespace ClassAtlas.Source

variable {d : Dialect} {cs rest : List Char} {n : Nat}

theorem operand_of_isDigit {c : Char} (hc : isDigit c = true) :
    operand d (n + 1) (c :: cs) = some ⟨[], afterNumber (c :: cs), false⟩ := by
  have hword := inWord_of_isHexDigit (isHexDigit_of_isDigit hc)
  have htick := toNat_ne_of_passes (passes_of_inWord hword).1
  have hquote : c ≠ '\'' ∧ c ≠ '"' := by
    have hmarks := notMem_marks_of_inWord hword
    simp only [marks, List.mem_cons, not_or] at hmarks
    exact ⟨hmarks.2.2.2.1, hmarks.2.2.1⟩
  rw [operand]
  · simp [hquote, htick, hc]
  all_goals
    intros
    subst_vars
    exact absurd hc (by decide)

theorem operand_point {c : Char} (hc : isDigit c = true) :
    operand d (n + 1) ('.' :: c :: cs) = some ⟨[], afterNumber ('.' :: c :: cs), false⟩ := by
  rw [operand]
  · simp [hc]
  · intros
    subst_vars
    exact absurd hc (by decide)

/-- A printed number begins with a digit, perhaps after a point. -/
theorem Numeral.exists_text_append (m : Numeral) (rest : List Char) : ∃ c cs, isDigit c = true ∧
    (m.text ++ rest = c :: cs ∨ m.text ++ rest = '.' :: c :: cs) := by
  cases m with
  | decimal whole f e => exact ⟨_, _, whole.first.property, .inl rfl⟩
  | pointed fraction e => exact ⟨_, _, fraction.first.property, .inr rfl⟩
  | big whole => exact ⟨_, _, whole.first.property, .inl rfl⟩
  | radix mark digits isBig => exact ⟨'0', _, by decide, .inl rfl⟩

theorem operand_number (m : Numeral) (hrest : EndsNumber rest) :
    operand d (n + 1) (m.text ++ rest) = some ⟨[], rest, false⟩ := by
  have hread := afterNumber_text m hrest
  obtain ⟨c, cs, hc, hshape | hshape⟩ := m.exists_text_append rest
  · rw [hshape] at hread ⊢
    rw [operand_of_isDigit hc, hread]
  · rw [hshape] at hread ⊢
    rw [operand_point hc, hread]

/-- A printed literal is an operand by itself. -/
theorem operand_literal (l : Literal) (cs : List Char) :
    operand d (n + 1) (l.text ++ ';' :: cs) = some ⟨[], ';' :: cs, false⟩ := by
  have hends : EndsWord (';' :: cs) := endsWord_cons (by decide)
  cases l with
  | null => exact operand_plainWord "null" (by decide) (by decide) hends
  | boolean b =>
    cases b with
    | false => exact operand_plainWord "false" (by decide) (by decide) hends
    | true => exact operand_plainWord "true" (by decide) (by decide) hends
  | number m => exact operand_number m ⟨by decide, by decide⟩
  | string quote parts =>
    obtain ⟨quote, hquote⟩ := quote
    simp only [List.mem_cons, List.not_mem_nil, or_false] at hquote
    have hslash : quote ≠ '\\' := by rintro rfl; simp at hquote
    have hread := afterQuote_parts hslash parts (';' :: cs)
    simp only [Literal.text, List.cons_append, List.append_assoc, List.nil_append]
    rw [operand]
    · simp [hquote, hread]
    all_goals
      intros
      subst_vars
      simp at hquote

/-- A printed literal begins with what keeps its place. -/
theorem Literal.exists_text_append (l : Literal) (rest : List Char) :
    ∃ c cs, l.text ++ rest = c :: cs ∧ isSpace c = false ∧ c ∉ ['/', '<', '-'] := by
  cases l with
  | null => exact ⟨_, _, rfl, by decide, by decide⟩
  | boolean b => cases b <;> exact ⟨_, _, rfl, by decide, by decide⟩
  | number m =>
    obtain ⟨c, cs, hc, hshape | hshape⟩ := m.exists_text_append rest
    · have hword := inWord_of_isHexDigit (isHexDigit_of_isDigit hc)
      refine ⟨c, cs, hshape, isSpace_eq_false_of_inWord hword, ?_⟩
      have hkept : ∀ m ∈ ['/', '<', '-'], inWord m = false := by decide
      exact fun hm => absurd hword (by simp [hkept c hm])
    · exact ⟨_, _, hshape, by decide, by decide⟩
  | string quote parts =>
    obtain ⟨quote, hquote⟩ := quote
    have hkept : ∀ m ∈ ['\'', '"'], isSpace m = false ∧ m ∉ ['/', '<', '-'] := by decide
    exact ⟨quote, _, rfl, (hkept quote hquote).1, (hkept quote hquote).2⟩

/-- A printed literal is read as the value of a field. -/
theorem expression_literal (l : Literal) (cs : List Char) :
    expression d (n + 2) .initializer (' ' :: (l.text ++ ';' :: cs)) =
      some ⟨[], ';' :: cs, false⟩ := by
  obtain ⟨c, more, hshape, hspace, hkept⟩ := l.exists_text_append (';' :: cs)
  simp only [List.mem_cons, List.not_mem_nil, or_false, not_or] at hkept
  have hlead : skipLead (' ' :: (l.text ++ ';' :: cs)) = l.text ++ ';' :: cs := by
    rw [hshape, skipLead, skipFrom_space (by decide), skipFrom_kept hspace hkept.1 (fun _ => hkept.2)]
  rw [expression, hlead, operand_literal]
  simp only [Option.some.injEq]
  have hskip : skip (';' :: cs) = ';' :: cs := skip_of_keeps (by decide)
  exact operators_of_closes hskip (by decide)

theorem expression_parameter (context : Context) (i : Identifier) (cs : List Char) :
    expression d (n + 2) context (i.text ++ ')' :: cs) = some ⟨[], ')' :: cs, false⟩ := by
  have hends : EndsWord (')' :: cs) := endsWord_cons (by decide)
  obtain ⟨c, more, hc, hshape, -⟩ := i.spelled.begins hends
  have hoperand := operand_identifier (d := d) (n := n) i hends
  rw [expression, hshape, skipLead_of_opensWord hc, ← hshape, hoperand]
  simp only [Option.some.injEq]
  have hskip : skip (')' :: cs) = ')' :: cs := skip_of_keeps (by decide)
  exact operators_of_closes hskip (by decide)

theorem skipLead_of_kept {c : Char} (hspace : isSpace c = false) (hkept : c ∉ ['/', '<', '-']) :
    skipLead (c :: cs) = c :: cs := by
  simp only [List.mem_cons, List.not_mem_nil, or_false, not_or] at hkept
  rw [skipLead, skipFrom_kept hspace hkept.1 (fun _ => hkept.2)]

theorem items_close (cs : List Char) : items d (n + 1) ')' (')' :: cs) = ⟨[], cs, true⟩ := by
  rw [items, skipLead_of_kept (by decide) (by decide)]
  simp

/-- At most one parameter is read up to the closing bracket. -/
theorem items_parameter (parameter : Option Identifier) (cs : List Char) :
    items d (n + 3) ')' (parameter.elim [] Identifier.text ++ ')' :: cs) = ⟨[], cs, true⟩ := by
  cases parameter with
  | none => exact items_close cs
  | some i =>
    have hends : EndsWord (')' :: cs) := endsWord_cons (by decide)
    obtain ⟨c, more, hc, hshape, hword, -⟩ := i.spelled.begins hends
    have hexpression :=
      expression_parameter (d := d) (n := n) (if d.isTyped then .parameter else .item) i cs
    have hbinder := i.notMem ["const", "let", "var", "of"] (by decide)
    have hmarks : ∀ m ∈ [')', ',', ';', ']', '\x7d'], c ≠ m :=
      fun m hm => ne_of_opensWord hc (by revert m; decide)
    simp only [List.forall_mem_cons] at hmarks
    rw [Option.elim_some, items, hshape, skipLead_of_opensWord hc]
    rw [hshape] at hexpression
    simp only [hmarks, hword, hexpression, items_close, List.contains_eq_mem, hbinder]
    simp [Read.after]

theorem statements_brace (cs : List Char) :
    statements d (n + 1) ('\x7d' :: cs) = ⟨[], '\x7d' :: cs, true⟩ := by
  rw [statements, skipLead_of_kept (by decide) (by decide)]
  rfl

theorem block_empty (cs : List Char) :
    block d (n + 2) ('\x7b' :: '\x7d' :: cs) = ⟨[.node none []], cs, true⟩ := by
  rw [block, statements_brace]
  rfl

theorem functionTail_text (parameter : Option Identifier) (cs : List Char) :
    functionTail d (n + 5) (Member.tailText parameter ++ cs) = ⟨[.node none []], cs, true⟩ := by
  have hshape : Member.tailText parameter ++ cs =
      '(' :: (parameter.elim [] Identifier.text ++ ')' :: ' ' :: '\x7b' :: '\x7d' :: cs) := by
    simp [Member.tailText]
  have hitems := items_parameter (d := d) (n := n + 1) parameter (' ' :: '\x7b' :: '\x7d' :: cs)
  have hblock := block_empty (d := d) (n := n + 2) cs
  rw [hshape, functionTail, afterNextBrackets_of_keeps (by decide) (by decide), ite_self,
    skip_of_keeps (by decide)]
  simp [hitems, skip_space_brace, hblock, Read.after]

theorem memberName_word {w : List Char} (hw : Spelled w) (hrest : EndsWord rest) :
    memberName d (n + 1) (w ++ rest) = ([], rest) := by
  obtain ⟨c, cs, hc, hshape, hword, hdrop⟩ := hw.begins hrest
  have hquote := ne_of_opensWord hc (m := '\'') (by decide)
  have hdouble := ne_of_opensWord hc (m := '"') (by decide)
  have hpoint := ne_of_opensWord hc (m := '.') (by decide)
  have hdigit := isDigit_eq_false_of_opensWord hc
  rw [hshape, memberName]
  · simp [hquote, hdouble, hpoint, hdigit, hword, hdrop]
  · exact ne_of_opensWord hc (m := '[') (by decide)
  · exact ne_of_opensWord hc (m := '#') (by decide)

/-- A name with parameters and an empty body is a member of the kind that the words in front of it
tell. -/
theorem classMember_tail (accessor : Bool) {w : List Char} (hw : Spelled w)
    (hlead : String.ofList w ∉ memberLeads d.isTyped) (parameter : Option Identifier)
    (cs : List Char) :
    classMember d (n + 6) accessor (w ++ (Member.tailText parameter ++ cs)) =
      ⟨some ⟨if accessor then .accessor else .method, w⟩, [.node none []], cs⟩ := by
  obtain ⟨tail, hopens⟩ : ∃ tail, Member.tailText parameter ++ cs = '(' :: tail := ⟨_, rfl⟩
  have htail := functionTail_text (d := d) (n := n) parameter cs
  rw [hopens] at htail ⊢
  have hends : EndsWord ('(' :: tail) := endsWord_cons (by decide)
  obtain ⟨c, more, hc, hshape, hword, hdrop⟩ := hw.begins hends
  have hname := memberName_word (d := d) (n := n + 4) hw hends
  have hread := readUpTo_append w ('(' :: tail)
  have hskip : skip ('(' :: tail) = '(' :: tail := skip_of_keeps (by decide)
  have hangle : afterNextBrackets '<' ('(' :: tail) = '(' :: tail :=
    afterNextBrackets_of_keeps (by decide) (by decide)
  rw [hshape] at hname hread ⊢
  rw [classMember]
  · simp [hword, hdrop, hname, hread, hlead, hskip, hangle, htail, hw.ne_nil]
  all_goals
    intro _
    exact cons_ne_cons_of_opensWord hc (by decide)

theorem startsName_of_opensWord {c : Char} (h : opensWord c = true) :
    startsName (c :: cs) = true := by
  have hpoint := ne_of_opensWord h (m := '.') (by decide)
  rw [startsName]
  · simp only [opensWord, Bool.or_eq_true, beq_iff_eq] at h
    obtain h | h := h
    · simp [h]
    · simp [h]
  · intros
    simp_all

/-- The words in front of names that members are printed with. -/
def leadWords : List String := ["static", "async", "get", "set"]

/-- A word in front of the name of a member is passed over. -/
theorem classMember_lead {lead : String} {w : List Char} {accessor : Bool} (hlead : lead ∈ leadWords)
    (hw : Spelled w) (hrest : EndsWord rest) :
    classMember d (n + 1) accessor (Member.leadText lead ++ (w ++ rest)) =
      classMember d n (accessor || lead.toList == "get".toList || lead.toList == "set".toList)
        (w ++ rest) := by
  have hwords : ∀ lead ∈ leadWords,
      isPlainWord lead.toList = true ∧ ∀ typed, lead ∈ memberLeads typed := by decide
  have hspelled : Spelled lead.toList := spelled_of_isPlainWord (hwords lead hlead).1
  have hmember := (hwords lead hlead).2 d.isTyped
  obtain ⟨c, more, hc, hshape, hword, hdrop⟩ := hspelled.begins (endsWord_space (w ++ rest))
  obtain ⟨x, xs, hx, hnext, -⟩ := hw.begins hrest
  have hskip : skip (' ' :: (w ++ rest)) = w ++ rest := hw.skip_space
  have hline : lineEnds (' ' :: (w ++ rest)) = false := by
    rw [hnext, lineEnds_space_of_keeps (keeps_of_opensWord hx)]
  have hbrace := ne_of_opensWord hx (m := '\x7b') (by decide)
  have hstarts : startsName (w ++ rest) = true := by
    rw [hnext]
    exact startsName_of_opensWord hx
  rw [Member.leadText, List.append_assoc, List.singleton_append, hshape, classMember]
  · simp only [hword, hdrop, hskip, hline, hstarts, String.ofList_toList, List.contains_eq_mem,
      hmember]
    rw [hnext]
    simp [hbrace]
  all_goals
    intro _
    exact cons_ne_cons_of_opensWord hc (by decide)

theorem Identifier.notMem_memberLeads (i : Identifier) :
    String.ofList i.text ∉ memberLeads d.isTyped :=
  i.notMem (memberLeads d.isTyped) (by cases d <;> decide)

/-- A name in front of a semicolon or an equals sign is a field, with the value that comes next. -/
theorem classMember_name {c : Char} {w more : List Char} (hw : Spelled w)
    (hlead : String.ofList w ∉ memberLeads d.isTyped) (hrest : EndsWord rest)
    (hskip : skip rest = c :: more) (hc : c ∈ [';', '=']) :
    classMember d (n + 2) false (w ++ rest) =
      if c = '=' then
        (expression d (n + 1) .initializer more).elim ⟨some ⟨.other, w⟩, [], more⟩
          fun r => ⟨some ⟨.other, w⟩, r.trees, r.rest⟩
      else ⟨some ⟨.other, w⟩, [], rest⟩ := by
  obtain ⟨x, xs, hx, hshape, hword, hdrop⟩ := hw.begins hrest
  have hname := memberName_word (d := d) (n := n) hw hrest
  have hread := readUpTo_append w rest
  have hangle : afterNextBrackets '<' rest = rest := by
    refine afterNextBrackets_of_head?_ne ?_
    rw [hskip, List.head?_cons, ne_eq, Option.some.injEq]
    rintro rfl
    exact absurd hc (by decide)
  simp only [List.mem_cons, List.not_mem_nil, or_false] at hc
  rw [hshape] at hname hread ⊢
  rw [classMember]
  · obtain rfl | rfl := hc
    · simp [hword, hdrop, hname, hread, hlead, hskip, hangle, hw.ne_nil]
    · cases hvalue : expression d (n + 1) .initializer more
      all_goals simp [hword, hdrop, hname, hread, hlead, hskip, hangle, hw.ne_nil, hvalue]
  all_goals
    intro _
    exact cons_ne_cons_of_opensWord hx (by decide)

/-- A field is read up to its semicolon. -/
theorem classMember_field (name : Identifier) (value : Option Literal) (cs : List Char) :
    classMember d (n + 4) false (Member.text (.field name value) ++ cs) =
      ⟨some ⟨.other, name.text⟩, [], ';' :: cs⟩ := by
  have hlead := name.notMem_memberLeads (d := d)
  cases value with
  | none =>
    rw [Member.text_field_none, List.append_assoc, List.singleton_append,
      classMember_name name.spelled hlead (endsWord_cons (by decide)) (skip_of_keeps (by decide))
        (by decide)]
    rfl
  | some l =>
    have hvalue := expression_literal (d := d) (n := n + 1) l cs
    rw [Member.text_field_some, List.append_assoc, List.cons_append, List.cons_append, List.cons_append,
      List.append_assoc, List.singleton_append,
      classMember_name name.spelled hlead (endsWord_cons (by decide))
        (skip_space_of_keeps (by decide)) (by decide), if_pos rfl, hvalue]
    rfl

/-- How a member is found in the body of a class. -/
def Member.read : Member → ClassMember
  | .builder => ⟨.method, "constructor".toList⟩
  | .getter name => ⟨.accessor, name.text⟩
  | .setter name _ => ⟨.accessor, name.text⟩
  | .method _ _ name => ⟨.method, name.text⟩
  | .field name _ => ⟨.other, name.text⟩

/-- What is left in front of the end of a line after a member. -/
def Member.left : Member → List Char
  | .field _ _ => [';']
  | _ => []

/-- A member with a name, parameters and an empty body after words that tell its kind. -/
theorem classMember_named {accessor : Bool} (name : Identifier) (parameter : Option Identifier)
    (cs : List Char) :
    classMember d (n + 6) accessor (name.text ++ (Member.tailText parameter ++ cs)) =
      ⟨some ⟨if accessor then .accessor else .method, name.text⟩, [.node none []], cs⟩ :=
  classMember_tail accessor name.spelled name.notMem_memberLeads parameter cs

theorem endsWord_tailText (parameter : Option Identifier) (cs : List Char) :
    EndsWord (Member.tailText parameter ++ cs) := endsWord_cons (by decide)

/-- A method is read back whether it is async or not. -/
theorem classMember_async (isAsync : Bool) (name : Identifier) (cs : List Char) :
    classMember d (n + 7) false ((if isAsync then Member.leadText "async" else []) ++
        (name.text ++ (Member.tailText none ++ cs))) =
      ⟨some ⟨.method, name.text⟩, [.node none []], cs⟩ := by
  cases isAsync with
  | false => exact classMember_named name none cs
  | true =>
    rw [if_pos rfl, classMember_lead (by decide) name.spelled (endsWord_tailText none cs)]
    exact classMember_named name none cs

/-- A printed member is read back. -/
theorem classMember_text (m : Member) (cs : List Char) : ∃ trees,
    classMember d (n + 8) false (m.text ++ cs) = ⟨some m.read, trees, m.left ++ cs⟩ := by
  cases m with
  | builder =>
    have hlead : String.ofList "constructor".toList ∉ memberLeads d.isTyped := by cases d <;> decide
    exact ⟨_, classMember_tail false (spelled_of_isPlainWord (by decide)) hlead none cs⟩
  | getter name =>
    refine ⟨[.node none []], ?_⟩
    rw [Member.text_getter, List.append_assoc, List.append_assoc,
      classMember_lead (by decide) name.spelled (endsWord_tailText none cs)]
    exact classMember_named name none cs
  | setter name parameter =>
    refine ⟨[.node none []], ?_⟩
    rw [Member.text_setter, List.append_assoc, List.append_assoc,
      classMember_lead (by decide) name.spelled (endsWord_tailText (some parameter) cs)]
    exact classMember_named name (some parameter) cs
  | method isStatic isAsync name =>
    refine ⟨[.node none []], ?_⟩
    have hmethod := classMember_async (d := d) (n := n) isAsync name cs
    rw [Member.text_method, List.append_assoc, List.append_assoc, List.append_assoc]
    cases isStatic with
    | false => exact classMember_async (n := n + 1) isAsync name cs
    | true =>
      -- What comes after the first word begins with a word again, the second or the name.
      obtain ⟨w, rest, hw, hrest, hshape⟩ : ∃ w rest, Spelled w ∧ EndsWord rest ∧
          (if isAsync then Member.leadText "async" else []) ++
            (name.text ++ (Member.tailText none ++ cs)) = w ++ rest := by
        cases isAsync with
        | false => exact ⟨_, _, name.spelled, endsWord_tailText none cs, rfl⟩
        | true =>
          exact ⟨"async".toList, _, spelled_of_isPlainWord (by decide), endsWord_space _,
            Member.leadText_append "async" _⟩
      rw [hshape] at hmethod ⊢
      rw [if_pos rfl, classMember_lead (by decide) hw hrest]
      exact hmethod
  | field name value => exact ⟨[], classMember_field name value cs⟩

theorem Member.exists_text_append (m : Member) (cs : List Char) :
    ∃ c more, opensWord c = true ∧ m.text ++ cs = c :: more := by
  cases m with
  | builder => exact ⟨'c', _, by decide, rfl⟩
  | getter name => exact ⟨'g', _, by decide, rfl⟩
  | setter name parameter => exact ⟨'s', _, by decide, rfl⟩
  | method isStatic isAsync name =>
    obtain ⟨c, more, htext, hc⟩ := name.spelled.opens
    cases isStatic with
    | true => exact ⟨'s', _, by decide, rfl⟩
    | false =>
      cases isAsync with
      | true => exact ⟨'a', _, by decide, rfl⟩
      | false =>
        refine ⟨c, more ++ (Member.tailText none ++ cs), hc, ?_⟩
        simp [Member.text_method, htext]
  | field name value =>
    obtain ⟨c, more, htext, hc⟩ := name.spelled.opens
    cases value with
    | none => exact ⟨c, more ++ ';' :: cs, hc, by simp [Member.text_field_none, htext]⟩
    | some l =>
      refine ⟨c, more ++ ' ' :: '=' :: ' ' :: (l.text ++ ';' :: cs), hc, ?_⟩
      simp [Member.text_field_some, htext]

theorem classBody_semicolon (cs : List Char) :
    classBody d (n + 1) (';' :: cs) = classBody d n cs := by
  rw [classBody, skipLead_of_kept (by decide) (by decide)]
  rfl

/-- The members of a printed class are read back up to the closing brace. -/
theorem classBody_members (ms : List Member) (cs : List Char) (hn : 2 * ms.length + 9 ≤ n) :
    ∃ trees, classBody d n ('\n' :: (membersText ms ++ '\x7d' :: cs)) =
      ⟨ms.map Member.read, trees, cs, true⟩ := by
  induction ms generalizing n with
  | nil =>
    obtain ⟨n, rfl⟩ := Nat.exists_eq_add_of_lt hn
    refine ⟨[], ?_⟩
    rw [classBody, skipLead, skipFrom_space (by decide), membersText, List.nil_append,
      skipFrom_kept (by decide) (by decide) (fun _ => by decide)]
    rfl
  | cons m ms ih =>
    rw [List.length_cons] at hn
    obtain ⟨n, rfl⟩ : ∃ k, n = k + 10 := ⟨n - 10, by omega⟩
    obtain ⟨trees, hmember⟩ :=
      classMember_text (d := d) (n := n + 1) m ('\n' :: (membersText ms ++ '\x7d' :: cs))
    obtain ⟨c, more, hc, hshape⟩ := m.exists_text_append ('\n' :: (membersText ms ++ '\x7d' :: cs))
    have hlead : skipLead ('\n' :: (membersText (m :: ms) ++ '\x7d' :: cs)) = c :: more := by
      rw [skipLead, skipFrom_space (by decide), membersText, List.cons_append,
        skipFrom_space (by decide), List.cons_append, skipFrom_space (by decide), List.append_assoc, List.cons_append, hshape,
        skipFrom_of_opensWord hc]
    -- The semicolon of a field is left to the body, where it takes a step of its own.
    obtain ⟨others, hmore⟩ : ∃ others,
        classBody d (n + 9) (m.left ++ '\n' :: (membersText ms ++ '\x7d' :: cs)) =
          ⟨ms.map Member.read, others, cs, true⟩ := by
      cases m with
      | field name value =>
        obtain ⟨others, hothers⟩ := ih (n := n + 8) (by omega)
        exact ⟨others, (classBody_semicolon _).trans hothers⟩
      | _ => exact ih (by omega)
    have hbrace := ne_of_opensWord hc (m := '\x7d') (by decide)
    have hsemicolon := ne_of_opensWord hc (m := ';') (by decide)
    rw [hshape] at hmember
    rw [classBody, hlead]
    simp only [hbrace, hsemicolon, hmember, List.cons.injEq, false_and, imp_self, implies_true]
    rw [hmore]
    exact ⟨trees ++ others, rfl⟩

end ClassAtlas.Source
