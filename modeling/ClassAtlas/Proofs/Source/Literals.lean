import ClassAtlas.Proofs.Source.Printed
import ClassAtlas.Source.Literal
/-!
# Reading printed literals

A printed number or string is passed over as a whole.
-/
namespace ClassAtlas.Source

variable {c : Char} {cs rest : List Char} {p : Char → Bool}

theorem Digits.forall_mem_text {q : Char → Bool} (ds : Digits p) (hp : ∀ c, p c = true → q c = true)
    (hseparator : q '_' = true) : ∀ c ∈ ds.text, q c = true := by
  intro c hc
  simp only [Digits.text, List.mem_cons, List.mem_flatMap] at hc
  obtain rfl | ⟨⟨separated, x, hx⟩, -, hc⟩ := hc
  · exact hp _ ds.first.property
  · cases separated
    all_goals simp at hc
    · rw [hc]
      exact hp x hx
    · obtain rfl | rfl := hc
      · exact hseparator
      · exact hp _ hx

/-- What ends a number: a text that cannot go on with a word in front of it nor with a fraction. -/
def EndsNumber : List Char → Prop
  | [] => True
  | c :: _ => inWord c = false ∧ c ≠ '.'

theorem dropWhile_of_head? {q : Char → Bool} (h : ∀ c ∈ cs.head?, q c = false) :
    cs.dropWhile q = cs := by
  cases cs with
  | nil => rfl
  | cons c cs => simp [h c (by simp)]

theorem dropWhile_append_of_all {q : Char → Bool} (hcs : ∀ c ∈ cs, q c = true)
    (hrest : ∀ c ∈ rest.head?, q c = false) : (cs ++ rest).dropWhile q = rest := by
  rw [List.dropWhile_append_of_pos hcs, dropWhile_of_head? hrest]

/-- How the exponent of a number is read: only a sign between its mark and its digits is passed over. -/
structure ReadsExponent (exponent : List Char → List Char) : Prop where
  signed : ∀ e s d cs, e ∈ ['e', 'E'] → s ∈ ['+', '-'] → isDigit d = true →
    exponent (e :: s :: d :: cs) = d :: cs
  unsigned : ∀ e d cs, d ∉ ['+', '-'] → exponent (e :: d :: cs) = e :: d :: cs
  other : ∀ cs, (∀ e ∈ cs.head?, e ∉ ['e', 'E']) → exponent cs = cs

theorem exists_afterNumber_eq (hradix : ∀ x ∈ (cs.drop 1).head?, x ∉ radixMarks) :
    ∃ exponent, ReadsExponent exponent ∧ afterNumber cs = afterNumber.decimal exponent cs := by
  -- The reader of exponents is local, so the lemmas below know it by these three rules only.
  rw [afterNumber.eq_def]
  extract_lets exponent
  refine ⟨exponent, ⟨?_, ?_, ?_⟩, ?_⟩
  · intro e s d cs he hs hd
    simp only [List.mem_cons, List.not_mem_nil, or_false] at he hs
    simp [exponent, he, hs, hd]
  · intro e d cs hd
    simp only [List.mem_cons, List.not_mem_nil, or_false] at hd
    cases cs with
    | nil => rfl
    | cons x cs => simp [exponent, hd]
  · intro cs he
    simp only [exponent]
    split
    · simp at he
      simp [he]
    · rfl
  · split
    · rename_i x more
      have hx := hradix x (by simp)
      rw [if_neg]
      simpa [radixMarks] using hx
    · rfl

theorem Digits.inDecimal (ds : Digits isDigit) : ∀ c ∈ ds.text, afterNumber.inDecimal c = true :=
  ds.forall_mem_text (fun c hc => by simp [afterNumber.inDecimal, hc]) (by decide)

theorem Digits.inWord {p : Char → Bool} (ds : Digits p) (hp : ∀ c, p c = true → isHexDigit c = true) :
    ∀ c ∈ ds.text, inWord c = true :=
  ds.forall_mem_text (fun c hc => inWord_of_isHexDigit (hp c hc)) (by decide)

theorem isHexDigit_of_isDigit (h : isDigit c = true) : isHexDigit c = true := by
  simp [isHexDigit, h]

theorem EndsNumber.inWord_head? (h : EndsNumber rest) : ∀ c ∈ rest.head?, inWord c = false := by
  cases rest with
  | nil => simp
  | cons c rest => simpa using h.1

theorem inWord_of_inDecimal (h : afterNumber.inDecimal c = true) : inWord c = true := by
  simp only [afterNumber.inDecimal, Bool.or_eq_true, beq_iff_eq] at h
  obtain h | rfl := h
  · exact inWord_of_isHexDigit (isHexDigit_of_isDigit h)
  · decide

theorem isHexDigit_of_inRadix {mark : Char} (h : inRadix mark c = true) : isHexDigit c = true := by
  have hbinary : ∀ d ∈ ['0', '1'], isHexDigit d = true := by decide
  simp only [inRadix] at h
  split at h
  · simp only [Bool.or_eq_true, beq_iff_eq] at h
    exact hbinary c (by simpa using h)
  · split at h
    · simp only [Bool.and_eq_true, decide_eq_true_eq] at h
      simp [isHexDigit, isDigit, h.1, Char.le_trans h.2 (by decide : '7' ≤ '9')]
    · exact h

theorem notMem_radixMarks_of_inDecimal (h : afterNumber.inDecimal c = true) : c ∉ radixMarks := by
  have hmarks : ∀ m ∈ radixMarks, afterNumber.inDecimal m = false := by decide
  intro hc
  exact absurd h (by simp [hmarks c hc])

/-- Where the exponent of a number may come, nothing else that belongs to a number does. -/
theorem exponent_head? (e : Option Exponent) (hrest : EndsNumber rest) :
    ∀ c ∈ (e.elim [] Exponent.text ++ rest).head?,
      afterNumber.inDecimal c = false ∧ c ≠ '.' ∧ c ∉ radixMarks := by
  cases e with
  | none =>
    cases rest with
    | nil => simp
    | cons c rest =>
      obtain ⟨hword, hpoint⟩ := hrest
      have hmarks : ∀ m ∈ radixMarks, inWord m = true := by decide
      simp only [Option.elim_none, List.nil_append, List.head?_cons, Option.mem_def, Option.some.injEq,
        forall_eq']
      refine ⟨?_, hpoint, fun hc => absurd (hmarks c hc) (by simp [hword])⟩
      by_contra hc
      simp [inWord_of_inDecimal (by simpa using hc)] at hword
  | some e =>
    have hmarks : ∀ m ∈ ['e', 'E'], afterNumber.inDecimal m = false ∧ m ≠ '.' ∧ m ∉ radixMarks :=
      by decide
    simpa [Exponent.text] using hmarks _ e.mark.property

section Decimal

variable {exponent : List Char → List Char} (hexponent : ReadsExponent exponent)
include hexponent

/-- An exponent is passed over, whether it has a sign or not. -/
theorem exponent_text (e : Option Exponent) (hrest : EndsNumber rest) :
    (exponent (e.elim [] Exponent.text ++ rest)).dropWhile inWord = rest := by
  have hhead := hrest.inWord_head?
  cases e with
  | none =>
    have hmark : ∀ e ∈ rest.head?, e ∉ ['e', 'E'] := by
      have hwords : ∀ m ∈ ['e', 'E'], inWord m = true := by decide
      intro e he hmem
      exact absurd (hwords e hmem) (by simp [hhead e he])
    rw [Option.elim_none, List.nil_append, hexponent.other rest hmark]
    exact dropWhile_of_head? hhead
  | some e =>
    obtain ⟨⟨mark, hmark⟩, sign, digits⟩ := e
    have hdigits := digits.inWord fun c hc => isHexDigit_of_isDigit hc
    obtain ⟨d, more, hd, hshape⟩ : ∃ d more, isDigit d = true ∧ digits.text = d :: more :=
      ⟨_, _, digits.first.property, rfl⟩
    cases sign with
    | none =>
      have hsign : d ∉ ['+', '-'] := by
        have hdigit : ∀ m ∈ ['+', '-'], isDigit m = false := by decide
        intro hmem
        exact absurd hd (by simp [hdigit d hmem])
      have hmarks : ∀ m ∈ ['e', 'E'], inWord m = true := by decide
      have hall : ∀ c ∈ mark :: digits.text, inWord c = true := by
        simpa [hmarks mark hmark] using hdigits
      have hread := hexponent.unsigned mark d (more ++ rest) hsign
      rw [← List.cons_append, ← hshape] at hread
      simp only [Option.elim_some, Option.elim_none, Exponent.text, List.nil_append, List.cons_append]
      rw [hread, ← List.cons_append]
      exact dropWhile_append_of_all hall hhead
    | some s =>
      have hread := hexponent.signed mark s.val d (more ++ rest) hmark s.property hd
      rw [← List.cons_append, ← hshape] at hread
      simp only [Option.elim_some, Exponent.text, List.cons_append, List.nil_append]
      rw [hread]
      exact dropWhile_append_of_all hdigits hhead

/-- A number in decimal digits is passed over, with what stands after its point. -/
theorem decimal_text (whole : List Char) (hwhole : ∀ c ∈ whole, afterNumber.inDecimal c = true)
    (f : Option Fraction) (e : Option Exponent) (hrest : EndsNumber rest) :
    afterNumber.decimal exponent
      (whole ++ (f.elim [] Fraction.text ++ (e.elim [] Exponent.text ++ rest))) = rest := by
  have hhead := exponent_head? e hrest
  have hexp := exponent_text hexponent e hrest
  generalize e.elim [] Exponent.text ++ rest = tail at hhead hexp
  cases f with
  | none =>
    have hdrop := dropWhile_append_of_all hwhole fun c hc => (hhead c hc).1
    rw [Option.elim_none, List.nil_append, afterNumber.decimal, hdrop]
    cases tail with
    | nil => exact hexp
    | cons c tail =>
      have hpoint := (hhead c (by simp)).2.1
      simp only [hpoint, List.cons.injEq, false_and, imp_self, implies_true]
      exact hexp
  | some f =>
    have hpoint : ∀ c ∈ (f.text ++ tail).head?, afterNumber.inDecimal c = false := by
      simp [Fraction.text]
      decide
    have hdrop := dropWhile_append_of_all hwhole hpoint
    have hdigits : (f.digits.elim [] Digits.text ++ tail).dropWhile afterNumber.inDecimal = tail := by
      refine dropWhile_append_of_all ?_ fun c hc => (hhead c hc).1
      cases f.digits with
      | none => simp
      | some ds => exact ds.inDecimal
    rw [Option.elim_some, afterNumber.decimal, hdrop, Fraction.text, List.cons_append]
    simp only [hdigits]
    exact hexp

end Decimal

theorem exists_decimal_eq (whole rest : List Char)
    (hwhole : ∀ c ∈ whole, afterNumber.inDecimal c = true) (hrest : ∀ c ∈ rest.head?, c ∉ radixMarks)
    (hsecond : whole = [] → ∀ c ∈ (rest.drop 1).head?, c ∉ radixMarks) :
    ∃ exponent, ReadsExponent exponent ∧
      afterNumber (whole ++ rest) = afterNumber.decimal exponent (whole ++ rest) := by
  refine exists_afterNumber_eq ?_
  intro x hx
  match whole with
  | [] => exact hsecond rfl x hx
  | [_] => exact hrest x hx
  | _ :: c :: whole =>
    refine notMem_radixMarks_of_inDecimal (hwhole x ?_)
    simp at hx
    simp [hx]

/-- A printed number is passed over. -/
theorem afterNumber_text (n : Numeral) (hrest : EndsNumber rest) :
    afterNumber (n.text ++ rest) = rest := by
  cases n with
  | decimal whole f e =>
    have hhead : ∀ c ∈ (f.elim [] Fraction.text ++ (e.elim [] Exponent.text ++ rest)).head?,
        c ∉ radixMarks := by
      cases f with
      | none => exact fun c hc => (exponent_head? e hrest c hc).2.2
      | some f =>
        simp only [Option.elim_some, Fraction.text, List.cons_append, List.head?_cons, Option.mem_def,
          Option.some.injEq, forall_eq']
        decide
    obtain ⟨exponent, hexponent, heq⟩ :=
      exists_decimal_eq whole.text _ whole.inDecimal hhead (by simp [Digits.text])
    simp only [Numeral.text, List.append_assoc]
    rw [heq, decimal_text hexponent whole.text whole.inDecimal f e hrest]
  | pointed fraction e =>
    have hsecond : ∀ c ∈ (fraction.text ++ (e.elim [] Exponent.text ++ rest)).head?,
        c ∉ radixMarks := by
      simpa [Digits.text] using notMem_radixMarks_of_inDecimal
        (fraction.inDecimal fraction.first.val (by simp [Digits.text]))
    obtain ⟨exponent, hexponent, heq⟩ :=
      exists_decimal_eq [] ('.' :: (fraction.text ++ (e.elim [] Exponent.text ++ rest))) (by simp)
        (by simp; decide) fun _ => hsecond
    have hread := decimal_text hexponent [] (by simp) (some ⟨some fraction⟩) e hrest
    simp only [Option.elim_some, Fraction.text, List.cons_append, List.nil_append] at hread
    simp only [Numeral.text, List.append_assoc, List.cons_append]
    exact heq.trans hread
  | big whole =>
    obtain ⟨exponent, hexponent, heq⟩ := exists_decimal_eq whole.text ('n' :: rest) whole.inDecimal
      (by simp; decide) (by simp [Digits.text])
    have hmark : ∀ c ∈ ('n' :: rest).head?, afterNumber.inDecimal c = false := by
      simp
      decide
    have hdrop := dropWhile_append_of_all whole.inDecimal hmark
    have hother := hexponent.other ('n' :: rest) (by simp)
    have hletter : ∀ c ∈ ['n'], Source.inWord c = true := by decide
    rw [Numeral.text, List.append_assoc, List.singleton_append, heq, afterNumber.decimal, hdrop]
    change (exponent ('n' :: rest)).dropWhile Source.inWord = rest
    rw [hother]
    exact dropWhile_append_of_all hletter hrest.inWord_head?
  | radix mark digits isBig =>
    have hdigits := digits.inWord fun c hc => isHexDigit_of_inRadix hc
    have hmark : ['x', 'X', 'b', 'B', 'o', 'O'].contains mark.val = true :=
      List.contains_iff_mem.mpr mark.property
    have hall : ∀ c ∈ digits.text ++ (if isBig then ['n'] else []), Source.inWord c = true := by
      rw [List.forall_mem_append]
      refine ⟨hdigits, ?_⟩
      cases isBig with
      | false => simp
      | true => simp; decide
    rw [Numeral.text, afterNumber.eq_def]
    simp only [List.cons_append, hmark, if_true]
    exact dropWhile_append_of_all hall hrest.inWord_head?

/-- A printed string is passed over with its closing quote. -/
theorem afterQuote_parts {quote : Char} (hquote : quote ≠ '\\') (parts : List (StringPart quote))
    (rest : List Char) : afterQuote quote (parts.flatMap StringPart.text ++ quote :: rest) = rest := by
  induction parts with
  | nil =>
    rw [List.flatMap_nil, List.nil_append, afterQuote]
    · simp
    all_goals simp [hquote]
  | cons part parts ih =>
    rw [List.flatMap_cons, List.append_assoc]
    cases part with
    | plain c inside =>
      obtain ⟨hclose, hslash, hline, -⟩ := inside
      rw [StringPart.text, List.singleton_append, afterQuote]
      · simp [hclose, hline, ih]
      all_goals simp [hslash]
    | escaped c inside =>
      rw [StringPart.text, List.cons_append, List.singleton_append, afterQuote]
      · exact ih
      · simp [inside]

end ClassAtlas.Source
