import ClassAtlas.Proofs.Source.Spelling
/-!
# Skipping blanks and comments

What stands in front of a text that begins with something else is dropped, and no more than that.
-/
namespace ClassAtlas.Source

variable {c : Char} {cs rest : List Char} {markup broke : Bool}

theorem skipFrom_nil (markup : Bool) (between : Between) (broke : Bool) :
    skipFrom markup between broke [] = (broke, []) := by
  cases between <;> rfl

/-- The rule for a single character stands behind all those for beginnings of comments. -/
theorem skipFrom_single (hslash : c ≠ '/') (hmarkup : markup = true → c ≠ '<' ∧ c ≠ '-') :
    skipFrom markup .blank broke (c :: cs) =
      if isSpace c then skipFrom markup .blank (broke || endsLine c) cs else (broke, c :: cs) := by
  have hangle : isSpace '<' = false := by decide
  have hdash : isSpace '-' = false := by decide
  rw [skipFrom.eq_def]
  split <;> simp_all

theorem skipFrom_space (h : isSpace c = true) :
    skipFrom markup .blank broke (c :: cs) = skipFrom markup .blank (broke || endsLine c) cs := by
  have hslash : c ≠ '/' := by rintro rfl; exact absurd h (by decide)
  have hangle : c ≠ '<' := by rintro rfl; exact absurd h (by decide)
  have hdash : c ≠ '-' := by rintro rfl; exact absurd h (by decide)
  rw [skipFrom_single hslash fun _ => ⟨hangle, hdash⟩, if_pos h]

/-- What is no blank and begins no comment is kept. -/
theorem skipFrom_kept (hspace : isSpace c = false) (hslash : c ≠ '/')
    (hmarkup : markup = true → c ≠ '<' ∧ c ≠ '-') :
    skipFrom markup .blank broke (c :: cs) = (broke, c :: cs) := by
  rw [skipFrom_single hslash hmarkup, hspace, if_neg Bool.false_ne_true]

theorem skipFrom_lineComment_cons (markup broke : Bool) (c : Char) (cs : List Char) :
    skipFrom markup .lineComment broke (c :: cs) =
      if endsLine c then skipFrom markup .blank true cs
      else if c == '\r' then skipFrom markup .blank broke cs
      else skipFrom markup .lineComment broke cs := by
  rw [skipFrom.eq_def]
  simp only

theorem skipFrom_lineComment (htext : ∀ x ∈ cs, endsLine x = false ∧ x ≠ '\r') (rest : List Char) :
    skipFrom markup .lineComment broke (cs ++ '\n' :: rest) = skipFrom markup .blank true rest := by
  induction cs with
  | nil => rfl
  | cons x cs ih =>
    obtain ⟨hline, hreturn⟩ := htext x (by simp)
    have hrest := ih fun y hy => htext y (List.mem_cons_of_mem x hy)
    rw [List.cons_append, skipFrom_lineComment_cons, hline, if_neg Bool.false_ne_true,
      if_neg (mt eq_of_beq hreturn), hrest]

theorem skipFrom_comment (htext : ∀ x ∈ cs, endsLine x = false ∧ x ≠ '\r') (rest : List Char) :
    skipFrom markup .blank broke ('/' :: '/' :: (cs ++ '\n' :: rest)) =
      skipFrom markup .blank true rest :=
  skipFrom_lineComment htext rest

/-- Whether nothing is dropped in front of a text that begins with the character. -/
def keeps (c : Char) : Bool := !isSpace c && c != '/'

theorem skipFrom_of_keeps (h : keeps c = true) :
    skipFrom false .blank broke (c :: cs) = (broke, c :: cs) := by
  simp only [keeps, Bool.and_eq_true, Bool.not_eq_true', bne_iff_ne] at h
  exact skipFrom_kept h.1 h.2 (by simp)

theorem skip_of_keeps (h : keeps c = true) : skip (c :: cs) = c :: cs := by
  rw [skip, skipFrom_of_keeps h]

theorem skip_space_of_keeps (h : keeps c = true) : skip (' ' :: c :: cs) = c :: cs := by
  rw [skip, skipFrom_space (by decide), skipFrom_of_keeps h]

theorem lineEnds_of_keeps (h : keeps c = true) : lineEnds (c :: cs) = false := by
  rw [lineEnds, skipFrom_of_keeps h]

theorem lineEnds_space_of_keeps (h : keeps c = true) : lineEnds (' ' :: c :: cs) = false := by
  rw [lineEnds, skipFrom_space (by decide), skipFrom_of_keeps h]
  show endsLine ' ' = false
  decide

theorem keeps_of_opensWord (h : opensWord c = true) : keeps c = true := by
  have hslash := ne_of_opensWord h (m := '/') (by decide)
  simp [keeps, isSpace_eq_false_of_opensWord h, hslash]

theorem skipFrom_of_opensWord (h : opensWord c = true) :
    skipFrom markup .blank broke (c :: cs) = (broke, c :: cs) := by
  have hslash := ne_of_opensWord h (m := '/') (by decide)
  have hangle := ne_of_opensWord h (m := '<') (by decide)
  have hdash := ne_of_opensWord h (m := '-') (by decide)
  exact skipFrom_kept (isSpace_eq_false_of_opensWord h) hslash fun _ => ⟨hangle, hdash⟩

theorem skipLead_of_opensWord (h : opensWord c = true) : skipLead (c :: cs) = c :: cs := by
  rw [skipLead, skipFrom_of_opensWord h]

namespace Spelled

variable {w : List Char}

theorem skip (hw : Spelled w) : skip (w ++ rest) = w ++ rest := by
  obtain ⟨c, cs, rfl, hc⟩ := hw.opens
  exact skip_of_keeps (keeps_of_opensWord hc)

theorem skip_space (hw : Spelled w) : Source.skip (' ' :: (w ++ rest)) = w ++ rest := by
  obtain ⟨c, cs, rfl, hc⟩ := hw.opens
  exact skip_space_of_keeps (keeps_of_opensWord hc)

theorem skipLead_space (hw : Spelled w) : skipLead (' ' :: (w ++ rest)) = w ++ rest := by
  obtain ⟨c, cs, rfl, hc⟩ := hw.opens
  rw [skipLead, skipFrom_space (by decide), List.cons_append, skipFrom_of_opensWord hc]

end Spelled

end ClassAtlas.Source
