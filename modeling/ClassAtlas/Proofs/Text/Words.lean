import ClassAtlas.Text.WordChar
import Mathlib.Data.List.TakeWhile
import Mathlib.Data.Set.Card
/-!
# The words of a text

A word is a part of a text that is made of word characters and that could not be longer where it stands. A text begins
with a word or with another character, and the words of what follows are the other words of the text.
-/
namespace ClassAtlas.Text

/-- A run goes on to the first other character. -/
theorem takeWhile_run {p : Char → Bool} {run tail : List Char} (hrun : ∀ c ∈ run, p c = true)
    (htail : ∀ c ∈ tail.head?, p c = false) : (run ++ tail).takeWhile p = run := by
  rw [List.takeWhile_append_of_pos hrun]
  cases tail with
  | nil => simp
  | cons c cs => simp [htail c rfl]

/-- A text begins with one longest run of characters that satisfy a test. -/
theorem run_unique {p : Char → Bool} {run tail run' tail' : List Char} (hrun : ∀ c ∈ run, p c = true)
    (htail : ∀ c ∈ tail.head?, p c = false) (hrun' : ∀ c ∈ run', p c = true) (htail' : ∀ c ∈ tail'.head?, p c = false)
    (h : run ++ tail = run' ++ tail') : run = run' ∧ tail = tail' := by
  have hsame : run = run' := by rw [← takeWhile_run hrun htail, h, takeWhile_run hrun' htail']
  subst hsame
  exact ⟨rfl, List.append_cancel_left h⟩

/-- A part of a text, with what stands before it and after it. -/
structure Part where
  before : List Char
  chars : List Char
  after : List Char
deriving DecidableEq, Repr

namespace Part

/-- The part is a word of the text. -/
structure IsWord (part : Part) (text : List Char) : Prop where
  text_eq : part.before ++ (part.chars ++ part.after) = text
  ne_nil : part.chars ≠ []
  inside : ∀ c ∈ part.chars, isWordChar c = true
  starts : ∀ c ∈ part.before.getLast?, isWordChar c = false
  ends : ∀ c ∈ part.after.head?, isWordChar c = false

/-- The part as it stands in a text with something more in front. -/
def behind (lead : List Char) (part : Part) : Part := { part with before := lead ++ part.before }

variable {part : Part} {c : Char} {lead run tail cs : List Char}

theorem behind_injective (lead : List Char) : Function.Injective (behind lead) := by
  rintro ⟨before, chars, after⟩ ⟨before', chars', after'⟩ heq
  simp only [behind, Part.mk.injEq, List.append_cancel_left_eq] at heq
  simp [heq]

/-- A word begins with a word character. -/
theorem IsWord.exists_head (h : part.IsWord cs) : ∃ c more, part.chars = c :: more ∧ isWordChar c = true := by
  obtain ⟨c, more, hchars⟩ := List.exists_cons_of_ne_nil h.ne_nil
  exact ⟨c, more, hchars, h.inside c (hchars ▸ List.mem_cons_self)⟩

theorem IsWord.of_behind (h : (part.behind lead).IsWord (lead ++ tail)) : part.IsWord tail where
  text_eq := List.append_cancel_left ((List.append_assoc _ _ _).symm.trans h.text_eq)
  ne_nil := h.ne_nil
  inside := h.inside
  starts := by
    intro c hc
    refine h.starts c ?_
    simp only [behind, List.getLast?_append, Option.mem_def.mp hc]
    rfl
  ends := h.ends

/-- Where no word goes on from one text to the other, the words of the second stay words. -/
theorem IsWord.behind_of_seam (h : part.IsWord tail) (hseam : (∀ c ∈ lead.getLast?, isWordChar c = false) ∨
    ∀ c ∈ tail.head?, isWordChar c = false) : (part.behind lead).IsWord (lead ++ tail) where
  text_eq := by simp only [Part.behind, List.append_assoc, ← h.text_eq]
  ne_nil := h.ne_nil
  inside := h.inside
  starts := by
    intro c hc
    simp only [Part.behind, List.getLast?_append] at hc
    rcases hbefore : part.before.getLast? with _ | d
    · rw [hbefore, Option.none_or] at hc
      rcases hseam with hlead | htail
      · exact hlead c hc
      · -- The word stands at the front of the second text, which begins with another character.
        obtain ⟨d, more, hchars, hd⟩ := h.exists_head
        have hhead : tail.head? = some d := by
          rw [← h.text_eq, List.getLast?_eq_none_iff.mp hbefore, hchars]
          rfl
        rw [htail d hhead] at hd
        cases hd
    · refine h.starts c ?_
      rw [hbefore, Option.some_or] at hc
      exact hbefore.trans hc
  ends := h.ends

/-- No word begins with another character. -/
theorem IsWord.exists_behind_other (hc : isWordChar c = false) (h : part.IsWord (c :: cs)) :
    ∃ later : Part, part = later.behind [c] := by
  obtain ⟨before, chars, after⟩ := part
  cases before with
  | cons d before =>
    obtain ⟨rfl, -⟩ := List.cons.inj h.text_eq
    exact ⟨⟨before, chars, after⟩, rfl⟩
  | nil =>
    obtain ⟨d, more, hchars, hd⟩ := h.exists_head
    have htext := h.text_eq
    rw [hchars] at htext
    obtain ⟨rfl, -⟩ := List.cons.inj htext
    rw [hc] at hd
    cases hd

/-- A word that the text begins with is one of its words, and the others come after it. -/
theorem IsWord.eq_or_exists_behind (hrun : ∀ c ∈ run, isWordChar c = true)
    (htail : ∀ c ∈ tail.head?, isWordChar c = false) (h : part.IsWord (run ++ tail)) :
    part = ⟨[], run, tail⟩ ∨ ∃ later : Part, part = later.behind run := by
  obtain ⟨before, chars, after⟩ := part
  have htext : before ++ (chars ++ after) = run ++ tail := h.text_eq
  rcases List.append_eq_append_iff.mp htext with ⟨rest, hbefore, hrest⟩ | ⟨later, hbefore, -⟩
  · rcases List.eq_nil_or_concat before with rfl | ⟨front, d, rfl⟩
    · rw [List.nil_append] at hbefore
      subst hbefore
      obtain ⟨rfl, rfl⟩ := run_unique h.inside h.ends hrun htail hrest
      exact .inl rfl
    · have hword := hrun d (by simp [hbefore])
      have hother := h.starts d (by simp)
      rw [hword] at hother
      cases hother
  · exact .inr ⟨⟨later, chars, after⟩, by rw [behind, hbefore]⟩

end Part

/-- The words of a text that satisfy a test. -/
def wordsWith (q : List Char → Prop) (text : List Char) : Set Part := {part | part.IsWord text ∧ q part.chars}

variable {q : List Char → Prop} {c : Char} {run tail : List Char}

theorem wordsWith_nil (q : List Char → Prop) : wordsWith q [] = ∅ := by
  refine Set.eq_empty_of_forall_notMem ?_
  rintro part ⟨hword, -⟩
  have hchars := List.append_eq_nil_iff.mp (List.append_eq_nil_iff.mp hword.text_eq).2
  exact hword.ne_nil hchars.1

theorem wordsWith_other (hc : isWordChar c = false) (cs : List Char) :
    wordsWith q (c :: cs) = Part.behind [c] '' wordsWith q cs := by
  ext part
  constructor
  · rintro ⟨hword, hq⟩
    obtain ⟨later, rfl⟩ := hword.exists_behind_other hc
    exact ⟨later, ⟨hword.of_behind, hq⟩, rfl⟩
  · rintro ⟨later, ⟨hword, hq⟩, rfl⟩
    refine ⟨hword.behind_of_seam (.inl ?_), hq⟩
    rintro d ⟨⟩
    exact hc

theorem wordsWith_word (hne : run ≠ []) (hrun : ∀ c ∈ run, isWordChar c = true)
    (htail : ∀ c ∈ tail.head?, isWordChar c = false) : wordsWith q (run ++ tail) =
      {part | part = ⟨[], run, tail⟩ ∧ q run} ∪ Part.behind run '' wordsWith q tail := by
  ext part
  constructor
  · rintro ⟨hword, hq⟩
    rcases hword.eq_or_exists_behind hrun htail with rfl | ⟨later, rfl⟩
    · exact .inl ⟨rfl, hq⟩
    · exact .inr ⟨later, ⟨hword.of_behind, hq⟩, rfl⟩
  · rintro (⟨rfl, hq⟩ | ⟨later, ⟨hword, hq⟩, rfl⟩)
    · exact ⟨⟨rfl, hne, hrun, nofun, htail⟩, hq⟩
    · exact ⟨hword.behind_of_seam (.inr htail), hq⟩

theorem encard_wordsWith_other (hc : isWordChar c = false) (cs : List Char) :
    (wordsWith q (c :: cs)).encard = (wordsWith q cs).encard := by
  rw [wordsWith_other hc, (Part.behind_injective [c]).encard_image]

theorem encard_wordsWith_word [DecidablePred q] (hne : run ≠ []) (hrun : ∀ c ∈ run, isWordChar c = true)
    (htail : ∀ c ∈ tail.head?, isWordChar c = false) :
    (wordsWith q (run ++ tail)).encard = (if q run then 1 else 0) + (wordsWith q tail).encard := by
  have hfirst : {part | part = (⟨[], run, tail⟩ : Part) ∧ q run}.encard = if q run then 1 else 0 := by
    split
    case isTrue hq => simp [hq]
    case isFalse hq => simp [hq]
  have hapart : Disjoint {part | part = (⟨[], run, tail⟩ : Part) ∧ q run} (Part.behind run '' wordsWith q tail) := by
    refine Set.disjoint_left.mpr ?_
    rintro part ⟨rfl, -⟩ ⟨later, -, hbehind⟩
    have hbefore := congrArg Part.before hbehind
    exact hne (List.append_eq_nil_iff.mp hbefore).1
  rw [wordsWith_word hne hrun htail, Set.encard_union_eq hapart, (Part.behind_injective run).encard_image, hfirst]

/-- A text ends, or begins with another character or with a word. -/
@[elab_as_elim]
theorem wordInduction {motive : List Char → Prop} (text : List Char) (nil : motive [])
    (other : ∀ c cs, isWordChar c = false → motive cs → motive (c :: cs))
    (word : ∀ run tail, run ≠ [] → (∀ c ∈ run, isWordChar c = true) → (∀ c ∈ tail.head?, isWordChar c = false) →
      motive tail → motive (run ++ tail)) : motive text := by
  induction hlength : text.length using Nat.strong_induction_on generalizing text with
  | _ n ih =>
    subst hlength
    cases text with
    | nil => exact nil
    | cons c cs =>
      by_cases hc : isWordChar c = true
      · have hsplit := List.takeWhile_append_dropWhile (p := isWordChar) (l := c :: cs)
        have hne : (c :: cs).takeWhile isWordChar ≠ [] := by simp [hc]
        have hrun : ∀ d ∈ (c :: cs).takeWhile isWordChar, isWordChar d = true := fun d hd => List.mem_takeWhile_imp hd
        have htail : ∀ d ∈ ((c :: cs).dropWhile isWordChar).head?, isWordChar d = false := by
          intro d hd
          have := List.head?_dropWhile_not isWordChar (c :: cs)
          rw [hd] at this
          simpa using this
        rw [← hsplit]
        refine word _ _ hne hrun htail (ih _ ?_ _ rfl)
        rw [← congrArg List.length hsplit, List.length_append]
        have := List.length_pos_iff.mpr hne
        omega
      · exact other c cs (by simpa using hc) (ih cs.length (by simp) cs rfl)

end ClassAtlas.Text
