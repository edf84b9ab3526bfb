import ClassAtlas.Source.TypeText
import ClassAtlas.Proofs.Source.Printed
/-!
# Reading printed types

A printed type is passed over as a whole, both where only its brackets are matched and where it is
read as a type.
-/
namespace ClassAtlas.Source

variable {c close : Char} {cs rest : List Char} {stack : List Open}

/-- The characters that matter while brackets are matched. -/
def bracketMarks : List Char :=
  ['/', '=', '(', '[', '\x7b', '<', '\'', '"', ')', ']', '\x7d', '>', Char.ofNat 96]

/-- Whether a character neither opens nor closes anything while brackets are matched. -/
def passes (c : Char) : Bool := !bracketMarks.contains c

theorem toNat_ne_of_passes (h : passes c = true) : c.toNat ≠ 96 := by
  intro hn
  have hc : c = Char.ofNat 96 := by rw [← Char.ofNat_toNat c, hn]
  rw [hc] at h
  exact absurd h (by decide)

theorem closing?_of_passes (h : passes c = true) : closing? c = none := by
  have htick := toNat_ne_of_passes h
  simp [passes, bracketMarks] at h
  rw [closing?.eq_def]
  split <;> simp_all

theorem passes_of_opensWord (h : opensWord c = true) : passes c = true := by
  have hne : ∀ m ∈ bracketMarks, c ≠ m := fun m hm => ne_of_opensWord h (by revert m; decide)
  simp only [passes, Bool.not_eq_true', List.contains_eq_mem, decide_eq_false_iff_not]
  exact fun hc => hne c hc rfl

/-- Within brackets a character that begins no comment and no arrow closes, opens or is passed over. -/
theorem afterOpen_single (hslash : c ≠ '/') (harrow : c ≠ '=') :
    afterOpen (.bracket close :: stack) (c :: cs) =
      if c = close then afterOpen stack cs
      else (closing? c).elim
        (if c = ')' ∨ c = ']' ∨ c = '\x7d' then none else afterOpen (.bracket close :: stack) cs)
        fun inner => afterOpen (inner :: .bracket close :: stack) cs := by
  rw [afterOpen.eq_def]
  cases hopens : closing? c <;> split <;> simp_all

theorem afterOpen_of_passes (hc : passes c = true) (hclose : c ≠ close) :
    afterOpen (.bracket close :: stack) (c :: cs) = afterOpen (.bracket close :: stack) cs := by
  have hnone := closing?_of_passes hc
  simp [passes, bracketMarks] at hc
  rw [afterOpen_single (by tauto) (by tauto), if_neg hclose, hnone]
  exact if_neg (by tauto)

theorem afterOpen_of_opens {inner : Open} (hopens : closing? c = some inner) (hclose : c ≠ close) :
    afterOpen (.bracket close :: stack) (c :: cs) =
      afterOpen (inner :: .bracket close :: stack) cs := by
  have hslash : c ≠ '/' := by rintro rfl; simp [closing?] at hopens
  have harrow : c ≠ '=' := by rintro rfl; simp [closing?] at hopens
  rw [afterOpen_single hslash harrow, if_neg hclose, hopens, Option.elim_some]

theorem afterOpen_of_closes (hslash : close ≠ '/') (harrow : close ≠ '=') :
    afterOpen (.bracket close :: stack) (close :: cs) = afterOpen stack cs := by
  rw [afterOpen_single hslash harrow, if_pos rfl]

theorem afterOpen_append (h : ∀ c ∈ cs, passes c = true ∧ c ≠ close) (rest : List Char) :
    afterOpen (.bracket close :: stack) (cs ++ rest) = afterOpen (.bracket close :: stack) rest := by
  induction cs with
  | nil => rfl
  | cons c cs ih =>
    obtain ⟨hc, hclose⟩ := h c (by simp)
    rw [List.cons_append, afterOpen_of_passes hc hclose]
    exact ih fun x hx => h x (List.mem_cons_of_mem c hx)

/-- The characters of words open and close nothing. -/
theorem passes_of_inWord (h : inWord c = true) : passes c = true ∧ c ≠ '>' ∧ c ≠ '\x7d' := by
  have hmark := notMem_marks_of_inWord h
  simp [marks] at hmark
  simp [passes, bracketMarks, hmark]

theorem afterOpen_letter (l : Letter) (rest : List Char) :
    afterOpen (.bracket '>' :: stack) (l.text ++ rest) = afterOpen (.bracket '>' :: stack) rest := by
  have hdigit {c : Char} (h : isHexDigit c = true) := passes_of_inWord (inWord_of_isHexDigit h)
  have hslash : passes '\\' = true := by decide
  have hu : passes 'u' = true := by decide
  cases l with
  | plain c within =>
    obtain ⟨hc, hclose, -⟩ := passes_of_inWord within
    exact afterOpen_of_passes hc hclose
  | code digits hfour hhex =>
    have hall : ∀ c ∈ '\\' :: 'u' :: digits, passes c = true ∧ c ≠ '>' := by
      simp only [List.forall_mem_cons]
      refine ⟨⟨hslash, by decide⟩, ⟨hu, by decide⟩, fun c hc => ?_⟩
      exact ⟨(hdigit (hhex c hc)).1, (hdigit (hhex c hc)).2.1⟩
    exact afterOpen_append hall rest
  | point digits hne hhex =>
    -- The braces of the escape open and close a bracket of their own.
    have hall : ∀ c ∈ digits, passes c = true ∧ c ≠ '\x7d' :=
      fun c hc => ⟨(hdigit (hhex c hc)).1, (hdigit (hhex c hc)).2.2⟩
    calc afterOpen (.bracket '>' :: stack) ('\\' :: 'u' :: '\x7b' :: (digits ++ ['\x7d']) ++ rest)
        = afterOpen (.bracket '\x7d' :: .bracket '>' :: stack) (digits ++ '\x7d' :: rest) := by
          simp only [List.cons_append, List.append_assoc, List.nil_append]
          rw [afterOpen_of_passes hslash (by decide), afterOpen_of_passes hu (by decide),
            afterOpen_of_opens rfl (by decide)]
      _ = afterOpen (.bracket '\x7d' :: .bracket '>' :: stack) ('\x7d' :: rest) :=
        afterOpen_append hall _
      _ = afterOpen (.bracket '>' :: stack) rest := afterOpen_of_closes (by decide) (by decide)

theorem afterOpen_identifier (i : Identifier) (rest : List Char) :
    afterOpen (.bracket '>' :: stack) (i.text ++ rest) = afterOpen (.bracket '>' :: stack) rest := by
  rw [Identifier.text]
  generalize i.first :: i.more = letters
  induction letters with
  | nil => rfl
  | cons l letters ih => rw [Letter.spell_cons, List.append_assoc, afterOpen_letter, ih]

theorem afterOpen_dotted (is : List Identifier) (rest : List Char) :
    afterOpen (.bracket '>' :: stack) (dottedText is ++ rest) =
      afterOpen (.bracket '>' :: stack) rest := by
  induction is with
  | nil => rfl
  | cons i is ih =>
    rw [dottedText, List.cons_append, afterOpen_of_passes (by decide) (by decide), List.append_assoc,
      afterOpen_identifier, ih]

theorem afterOpen_name (n : DottedName) (rest : List Char) :
    afterOpen (.bracket '>' :: stack) (n.text ++ rest) = afterOpen (.bracket '>' :: stack) rest := by
  rw [DottedName.text, List.append_assoc, afterOpen_identifier, afterOpen_dotted]

mutual
/-- Between angle brackets a printed type is passed over. -/
theorem afterOpen_type (t : TypeRef) (stack : List Open) (rest : List Char) :
    afterOpen (.bracket '>' :: stack) (t.text ++ rest) = afterOpen (.bracket '>' :: stack) rest := by
  match t with
  | .mk name arguments =>
    rw [TypeRef.text, List.append_assoc, afterOpen_name, afterOpen_arguments arguments]
theorem afterOpen_arguments (ts : List TypeRef) (stack : List Open) (rest : List Char) :
    afterOpen (.bracket '>' :: stack) (TypeRef.argumentsText ts ++ rest) =
      afterOpen (.bracket '>' :: stack) rest := by
  match ts with
  | [] => rfl
  | t :: ts =>
    rw [TypeRef.argumentsText, List.cons_append, List.append_assoc, afterOpen_of_opens rfl (by decide),
      afterOpen_type t, afterOpen_others ts]
/-- The closing bracket of type arguments closes what their opening bracket opened. -/
theorem afterOpen_others (ts : List TypeRef) (stack : List Open) (rest : List Char) :
    afterOpen (.bracket '>' :: stack) (TypeRef.othersText ts ++ rest) = afterOpen stack rest := by
  match ts with
  | [] => rw [TypeRef.othersText, List.singleton_append, afterOpen_of_closes (by decide) (by decide)]
  | t :: ts =>
    rw [TypeRef.othersText, List.cons_append, List.cons_append, List.append_assoc,
      afterOpen_of_passes (by decide) (by decide), afterOpen_of_passes (by decide) (by decide),
      afterOpen_type t, afterOpen_others ts]
end

theorem afterBrackets?_arguments (t : TypeRef) (ts : List TypeRef) (rest : List Char) :
    afterBrackets? (TypeRef.argumentsText (t :: ts) ++ rest) = some rest := by
  rw [TypeRef.argumentsText, List.cons_append, List.append_assoc, afterBrackets?]
  simp only [closing?, Option.bind_some]
  rw [afterOpen_type, afterOpen_others]
  cases rest <;> rfl

/-- An identifier is an operand of a type. -/
theorem afterTypeOperand?_identifier {n : Nat} (i : Identifier) (hrest : EndsWord rest) :
    afterTypeOperand? (n + 1) (i.text ++ rest) = some rest := by
  obtain ⟨c, cs, hc, hshape, hword, hdrop⟩ := i.spelled.begins hrest
  have hleads := i.notMem typeLeads (by decide)
  have himport := by simpa using i.text_ne (w := "import") (by decide)
  have hdigit := isDigit_eq_false_of_opensWord hc
  have hclosing := closing?_of_passes (passes_of_opensWord hc)
  rw [hshape, afterTypeOperand?]
  · simp [hdigit, hclosing, hword, hdrop, hleads, himport, i.spelled.ne_nil]
  all_goals exact ne_of_opensWord hc (by decide)

/-- What ends a printed type: a comma, a closing angle bracket or an opening brace comes next. -/
def EndsType (cs : List Char) : Prop :=
  EndsWord cs ∧ ∃ c more, skip cs = c :: more ∧ c ∈ [',', '>', '\x7b']

theorem afterTypeMore?_of_endsType {n : Nat} (hrest : EndsType rest) :
    afterTypeMore? n rest = some rest := by
  obtain ⟨-, c, more, hskip, hc⟩ := hrest
  have hends : ∀ c ∈ [',', '>', '\x7b'], inWord c = false ∧ c ≠ '\\' := by decide
  have hword : word (c :: more) = [] := word_of_endsWord (hends c hc)
  simp only [List.mem_cons, List.not_mem_nil, or_false] at hc
  cases n with
  | zero => rfl
  | succ n =>
    rcases hc with rfl | rfl | rfl
    all_goals
      rw [afterTypeMore?, hskip]
      simp [hword]

theorem endsWord_dotted (is : List Identifier) (h : EndsWord rest) :
    EndsWord (dottedText is ++ rest) := by
  cases is with
  | nil => exact h
  | cons i is => exact endsWord_cons (by decide)

theorem endsWord_arguments (ts : List TypeRef) (h : EndsWord rest) :
    EndsWord (TypeRef.argumentsText ts ++ rest) := by
  cases ts with
  | nil => exact h
  | cons t ts =>
    rw [TypeRef.argumentsText]
    exact endsWord_cons (by decide)

theorem afterTypeMore?_dot (n : Nat) (cs : List Char) :
    afterTypeMore? (n + 1) ('.' :: cs) =
      if (word (skip cs)).isEmpty then some ('.' :: cs)
      else afterTypeMore? n ((skip cs).drop (word (skip cs)).length) := rfl

theorem afterTypeMore?_dotted {n : Nat} (is : List Identifier) (hrest : EndsWord rest) :
    afterTypeMore? (n + is.length) (dottedText is ++ rest) = afterTypeMore? n rest := by
  induction is with
  | nil => rfl
  | cons i is ih =>
    have hmore := endsWord_dotted is hrest
    have hreads := i.spelled.reads _ hmore
    rw [dottedText, List.length_cons, ← Nat.add_assoc, List.cons_append, afterTypeMore?_dot, List.append_assoc]
    simp only [i.spelled.skip, hreads, List.isEmpty_iff, i.spelled.ne_nil, if_false, List.drop_left]
    exact ih

theorem afterTypeMore?_arguments {n : Nat} (ts : List TypeRef) (hrest : EndsType rest) :
    afterTypeMore? (n + 1) (TypeRef.argumentsText ts ++ rest) = some rest := by
  cases ts with
  | nil => exact afterTypeMore?_of_endsType hrest
  | cons t ts =>
    have hbrackets := afterBrackets?_arguments t ts rest
    rw [TypeRef.argumentsText, List.cons_append] at hbrackets ⊢
    rw [afterTypeMore?, skip_of_keeps (by decide)]
    simp only [hbrackets]
    exact afterTypeMore?_of_endsType hrest

theorem afterType?_type {n : Nat} (t : TypeRef) (hrest : EndsType rest) :
    afterType? (n + 1 + t.name.more.length + 1) (t.text ++ rest) = some rest := by
  match t with
  | .mk ⟨i, is⟩ ts =>
    have hends := endsWord_arguments ts hrest.1
    have hmore := endsWord_dotted is hends
    obtain ⟨c, cs, hc, hshape, -⟩ := i.spelled.begins hmore
    have hoperand : afterTypeOperand? (n + 1 + is.length) (c :: cs) =
        some (dottedText is ++ (TypeRef.argumentsText ts ++ rest)) := by
      rw [← hshape, show n + 1 + is.length = n + is.length + 1 by omega]
      exact afterTypeOperand?_identifier i hmore
    have hbar := ne_of_opensWord hc (m := '|') (by decide)
    have hand := ne_of_opensWord hc (m := '&') (by decide)
    rw [TypeRef.text, DottedName.text, List.append_assoc, List.append_assoc, hshape, TypeRef.name,
      afterType?, skip_of_keeps (keeps_of_opensWord hc)]
    simp only [hbar, hand, hoperand, List.cons.injEq, false_and, imp_self, implies_true]
    rw [afterTypeMore?_dotted is hends]
    exact afterTypeMore?_arguments ts hrest

theorem length_le_length_dottedText (is : List Identifier) : is.length ≤ (dottedText is).length := by
  induction is with
  | nil => simp
  | cons i is ih =>
    simp only [dottedText, List.length_cons, List.length_append]
    omega

theorem TypeRef.length_le_length_text (t : TypeRef) : t.name.more.length ≤ t.text.length := by
  have hdotted := length_le_length_dottedText t.name.more
  simp only [t.text_eq, DottedName.text, List.length_append]
  omega

/-- A printed type is read back as a whole. -/
theorem afterTypeText?_type (t : TypeRef) (hrest : EndsType rest) :
    afterTypeText? (t.text ++ rest) = some rest := by
  have hlength := t.length_le_length_text
  obtain ⟨n, hn⟩ : ∃ n, 2 * (t.text ++ rest).length + 4 = n + 1 + t.name.more.length + 1 := by
    refine ⟨2 * (t.text ++ rest).length + 2 - t.name.more.length, ?_⟩
    rw [List.length_append]
    omega
  rw [afterTypeText?, hn, afterType?_type t hrest]

/-- A comma and a blank end a type. -/
theorem endsType_comma (cs : List Char) : EndsType (',' :: cs) :=
  ⟨endsWord_cons (by decide), ',', cs, skip_of_keeps (by decide), by decide⟩

theorem endsType_angle (cs : List Char) : EndsType ('>' :: cs) :=
  ⟨endsWord_cons (by decide), '>', cs, skip_of_keeps (by decide), by decide⟩

theorem endsType_brace (cs : List Char) : EndsType (' ' :: '\x7b' :: cs) :=
  ⟨endsWord_cons (by decide), '\x7b', cs, skip_space_of_keeps (by decide), by decide⟩

theorem endsType_others (ts : List TypeRef) (rest : List Char) :
    EndsType (TypeRef.othersText ts ++ rest) := by
  cases ts with
  | nil => exact endsType_angle rest
  | cons t ts =>
    rw [TypeRef.othersText]
    exact endsType_comma _

theorem TypeRef.exists_text_append (t : TypeRef) (rest : List Char) :
    ∃ c cs, opensWord c = true ∧ t.text ++ rest = c :: cs := by
  match t with
  | .mk ⟨i, is⟩ ts =>
    obtain ⟨c, cs, htext, hc⟩ := i.spelled.opens
    refine ⟨c, cs ++ (dottedText is ++ (argumentsText ts ++ rest)), hc, ?_⟩
    simp only [text, DottedName.text, htext, List.cons_append, List.append_assoc]

theorem TypeRef.skip_text (t : TypeRef) (rest : List Char) :
    skip (t.text ++ rest) = t.text ++ rest := by
  obtain ⟨c, cs, hc, hshape⟩ := t.exists_text_append rest
  rw [hshape, skip_of_keeps (keeps_of_opensWord hc)]

theorem TypeRef.skip_space_text (t : TypeRef) (rest : List Char) :
    skip (' ' :: (t.text ++ rest)) = t.text ++ rest := by
  obtain ⟨c, cs, hc, hshape⟩ := t.exists_text_append rest
  rw [hshape, skip_space_of_keeps (keeps_of_opensWord hc)]

/-- Type arguments are read back as a list of types up to the closing bracket. -/
theorem afterTypeList?_type {n : Nat} (t : TypeRef) (ts : List TypeRef) (hn : ts.length < n)
    (hskip : skip cs = t.text ++ (TypeRef.othersText ts ++ rest)) :
    afterTypeList? n cs = some rest := by
  induction n generalizing t ts cs with
  | zero => omega
  | succ n ih =>
    obtain ⟨c, more, hc, hshape⟩ := t.exists_text_append (TypeRef.othersText ts ++ rest)
    have htype := afterTypeText?_type t (endsType_others ts rest)
    have hangle := ne_of_opensWord hc (m := '>') (by decide)
    rw [hshape] at htype
    rw [afterTypeList?, hskip, hshape]
    simp only [hangle, List.cons.injEq, false_and, imp_self, implies_true, htype]
    cases ts with
    | nil =>
      rw [TypeRef.othersText, List.singleton_append, skip_of_keeps (by decide)]
      rfl
    | cons u ts =>
      rw [TypeRef.othersText, List.cons_append, skip_of_keeps (by decide), List.cons_append,
        List.append_assoc]
      rw [List.length_cons] at hn
      exact ih u ts (by omega) (u.skip_space_text _)

theorem length_le_length_othersText (ts : List TypeRef) :
    ts.length < (TypeRef.othersText ts).length := by
  induction ts with
  | nil => simp [TypeRef.othersText]
  | cons t ts ih =>
    simp only [TypeRef.othersText, List.length_cons, List.length_append]
    omega

theorem afterTypeArguments?_arguments (t : TypeRef) (ts : List TypeRef) (rest : List Char) :
    afterTypeArguments? (TypeRef.argumentsText (t :: ts) ++ rest) = some rest := by
  have hlength := length_le_length_othersText ts
  rw [TypeRef.argumentsText, List.cons_append, List.append_assoc, afterTypeArguments?]
  refine afterTypeList?_type t ts ?_ (t.skip_text _)
  simp only [List.length_append]
  omega

end ClassAtlas.Source
