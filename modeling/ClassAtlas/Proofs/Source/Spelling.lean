import Mathlib.Data.List.Basic
import ClassAtlas.Source.Chars
/-!
# Spelled words

An identifier is spelled with letters, each a character or the escape of one. The reader of words
stops exactly where the letters do, as long as what follows cannot go on with the word.
-/
namespace ClassAtlas.Source

-- Otherwise an instance for all characters is tried first, which cannot be evaluated.
scoped instance (priority := 2000) decidableForallMem (cs : List Char) (p : Char → Prop) [DecidablePred p] :
    Decidable (∀ c ∈ cs, p c) := List.decidableBAll p cs

/-- A text that cannot go on with a word in front of it. -/
def EndsWord : List Char → Prop
  | [] => True
  | c :: _ => inWord c = false ∧ c ≠ '\\'

theorem endsWord_cons {c : Char} {cs : List Char} (h : inWord c = false ∧ c ≠ '\\') :
    EndsWord (c :: cs) := h

theorem endsWord_space (cs : List Char) : EndsWord (' ' :: cs) := endsWord_cons (by decide)

/-- A letter of an identifier: a character of a word, or an escape with four digits or with any
number of them in braces. -/
inductive Letter where
  | plain (c : Char) (within : inWord c)
  | code (digits : List Char) (four : digits.length = 4) (hex : ∀ c ∈ digits, isHexDigit c)
  | point (digits : List Char) (nonempty : digits ≠ []) (hex : ∀ c ∈ digits, isHexDigit c)

namespace Letter

def text : Letter → List Char
  | plain c _ => [c]
  | code digits _ _ => '\\' :: 'u' :: digits
  | point digits _ _ => '\\' :: 'u' :: '\x7b' :: (digits ++ ['\x7d'])

/-- Whether a name may begin with the letter. -/
def starts : Letter → Bool
  | plain c _ => startsWord c
  | _ => true

def spell (letters : List Letter) : List Char := letters.flatMap text

@[simp] theorem spell_nil : spell [] = [] := rfl
@[simp] theorem spell_cons (l : Letter) (ls : List Letter) :
    spell (l :: ls) = l.text ++ spell ls := rfl

end Letter

variable {c : Char} {cs : List Char}

theorem isSpace_eq_false_of_inWord (h : inWord c = true) : isSpace c = false := by
  simp only [inWord, Bool.and_eq_true, Bool.not_eq_true'] at h
  exact h.1.2

theorem notMem_marks_of_inWord (h : inWord c = true) : c ∉ marks := by
  simp only [inWord, Bool.and_eq_true, Bool.not_eq_true'] at h
  simpa using h.2

theorem inWord_of_isHexDigit (h : isHexDigit c = true) : inWord c = true := by
  have hmarks : ∀ m ∈ marks, isHexDigit m = false := by decide
  have hmark : c ∉ marks := by
    intro hc
    simp [hmarks c hc] at h
  have hrange : 48 ≤ c.toNat ∧ c.toNat ≤ 102 := by
    simp only [isHexDigit, isDigit, Bool.or_eq_true, Bool.and_eq_true, decide_eq_true_eq, Char.le_def,
      UInt32.le_iff_toNat_le] at h
    change ((48 ≤ c.toNat ∧ c.toNat ≤ 57) ∨ (97 ≤ c.toNat ∧ c.toNat ≤ 102)) ∨
      (65 ≤ c.toNat ∧ c.toNat ≤ 70) at h
    omega
  have hspace : isSpace c = false := by
    simp only [isSpace, Bool.or_eq_false_iff, Bool.and_eq_false_iff, decide_eq_false_iff_not,
      beq_eq_false_iff_ne]
    omega
  have hlow : 32 < c.toNat := by omega
  simp [inWord, hmark, hspace, hlow]

theorem wordLengthFrom_succ (skip : Nat) (c : Char) (cs : List Char) :
    wordLengthFrom (skip + 1) (c :: cs) = wordLengthFrom skip cs + 1 := rfl

theorem wordLengthFrom_zero (c : Char) (cs : List Char) :
    wordLengthFrom 0 (c :: cs) =
      if inWord c then wordLengthFrom 0 cs + 1
      else match escapeLength? (c :: cs) with
        | some n => wordLengthFrom (n - 1) cs + 1
        | none => 0 := rfl

theorem wordLengthFrom_append (known cs : List Char) :
    wordLengthFrom known.length (known ++ cs) = known.length + wordLengthFrom 0 cs := by
  induction known with
  | nil => rw [List.nil_append, List.length_nil, Nat.zero_add]
  | cons c known ih =>
    rw [List.length_cons, List.cons_append, wordLengthFrom_succ, ih]
    omega

theorem escapeLength?_code {digits : List Char} (hfour : digits.length = 4)
    (hhex : ∀ c ∈ digits, isHexDigit c) (cs : List Char) :
    escapeLength? ('\\' :: 'u' :: (digits ++ cs)) = some 6 := by
  match digits, hfour with
  | [a, b, c, d], _ =>
    have ha : a ≠ '\x7b' := by
      intro h
      have hbrace := hhex a (by simp)
      rw [h] at hbrace
      exact absurd hbrace (by decide)
    simp at hhex
    simp [escapeLength?, ha, hhex]

theorem escapeLength?_point {digits : List Char} (hne : digits ≠ [])
    (hhex : ∀ c ∈ digits, isHexDigit c) (cs : List Char) :
    escapeLength? ('\\' :: 'u' :: '\x7b' :: (digits ++ '\x7d' :: cs)) = some (digits.length + 4) := by
  have hdigits : (digits ++ '\x7d' :: cs).takeWhile isHexDigit = digits := by
    rw [List.takeWhile_append_of_pos hhex]
    simp [isHexDigit, isDigit]
  show (if ((digits ++ '\x7d' :: cs).takeWhile isHexDigit).isEmpty || _ then none else some _) = _
  rw [hdigits]
  simp [hne]

theorem wordLengthFrom_escape {n : Nat} (hout : inWord c = false)
    (hescape : escapeLength? (c :: cs) = some n) :
    wordLengthFrom 0 (c :: cs) = wordLengthFrom (n - 1) cs + 1 := by
  rw [wordLengthFrom_zero, hout, if_neg Bool.false_ne_true, hescape]

/-- A letter is read as a whole. -/
theorem wordLengthFrom_letter (l : Letter) (cs : List Char) :
    wordLengthFrom 0 (l.text ++ cs) = l.text.length + wordLengthFrom 0 cs := by
  have hslash : inWord '\\' = false := by decide
  cases l with
  | plain c within =>
    show wordLengthFrom 0 (c :: cs) = 1 + _
    rw [wordLengthFrom_zero, if_pos within, Nat.add_comm]
  | code digits hfour hhex =>
    have hrest := wordLengthFrom_append ('u' :: digits) cs
    have hhead := wordLengthFrom_escape hslash (escapeLength?_code hfour hhex cs)
    simp only [List.length_cons, hfour, List.cons_append] at hrest
    simp only [Letter.text, List.cons_append, List.length_cons, hfour, hhead, hrest]
    omega
  | point digits hne hhex =>
    have hrest := wordLengthFrom_append ('u' :: '\x7b' :: (digits ++ ['\x7d'])) cs
    have hhead := wordLengthFrom_escape hslash (escapeLength?_point hne hhex cs)
    simp only [List.length_cons, List.cons_append, List.length_append, List.append_assoc,
      List.nil_append, List.length_nil] at hrest
    simp only [Letter.text, List.cons_append, List.append_assoc, List.nil_append, List.length_cons,
      List.length_append, List.length_nil, hhead]
    rw [show digits.length + 4 - 1 = digits.length + (0 + 1) + 1 + 1 by omega, hrest]
    omega

theorem wordLengthFrom_of_endsWord (h : EndsWord cs) : wordLengthFrom 0 cs = 0 := by
  cases cs with
  | nil => rfl
  | cons c cs =>
    obtain ⟨hword, hslash⟩ := h
    have hescape : escapeLength? (c :: cs) = none := by
      rw [escapeLength?]
      all_goals simp [hslash]
    rw [wordLengthFrom_zero, hword, if_neg Bool.false_ne_true, hescape]

theorem wordLengthFrom_spell (letters : List Letter) (h : EndsWord cs) :
    wordLengthFrom 0 (Letter.spell letters ++ cs) = (Letter.spell letters).length := by
  induction letters with
  | nil => exact wordLengthFrom_of_endsWord h
  | cons l letters ih =>
    rw [Letter.spell_cons, List.append_assoc, wordLengthFrom_letter, ih, List.length_append]

/-- Whether a word may begin with a character. -/
def opensWord (c : Char) : Bool := startsWord c || c == '\\'

theorem ne_of_opensWord {m : Char} (h : opensWord c = true) (hm : opensWord m = false) : c ≠ m := by
  rintro rfl
  simp [hm] at h

theorem cons_ne_cons_of_opensWord {m : Char} {ms : List Char} (h : opensWord c = true)
    (hm : opensWord m = false) : c :: cs ≠ m :: ms := by
  intro heq
  injection heq with heq
  exact ne_of_opensWord h hm heq

theorem isSpace_eq_false_of_opensWord (h : opensWord c = true) : isSpace c = false := by
  simp only [opensWord, startsWord, Bool.or_eq_true, Bool.and_eq_true, beq_iff_eq] at h
  rcases h with ⟨h, -⟩ | rfl
  · exact isSpace_eq_false_of_inWord h
  · decide

theorem isDigit_eq_false_of_opensWord (h : opensWord c = true) : isDigit c = false := by
  simp only [opensWord, startsWord, Bool.or_eq_true, Bool.and_eq_true, beq_iff_eq,
    Bool.not_eq_true'] at h
  rcases h with ⟨-, h⟩ | rfl
  · exact h
  · decide

/-- A text that the reader of words takes as one word. -/
structure Spelled (w : List Char) : Prop where
  opens : ∃ c cs, w = c :: cs ∧ opensWord c = true
  reads : ∀ rest, EndsWord rest → word (w ++ rest) = w

theorem word_eq_take (h : startsWord c = true ∨ (escapeLength? (c :: cs)).isSome = true) :
    word (c :: cs) = (c :: cs).take (wordLengthFrom 0 (c :: cs)) := by
  simp only [word, Bool.or_eq_true, h, if_true]

theorem word_of_endsWord (h : EndsWord cs) : word cs = [] := by
  have hlength := wordLengthFrom_of_endsWord h
  cases cs with
  | nil => rfl
  | cons c cs => simp [word, hlength]

/-- A letter that may begin a name lets the reader take a word. -/
theorem Letter.opens {l : Letter} (hl : l.starts = true) : ∃ c cs, l.text = c :: cs ∧
    opensWord c = true ∧
      ∀ rest, startsWord c = true ∨ (escapeLength? (c :: (cs ++ rest))).isSome = true := by
  cases l with
  | plain c within =>
    have hc : startsWord c = true := hl
    exact ⟨c, [], rfl, by simp [opensWord, hc], fun _ => .inl hc⟩
  | code digits hfour hhex =>
    refine ⟨_, _, rfl, by decide, fun rest => .inr ?_⟩
    simp [escapeLength?_code hfour hhex rest]
  | point digits hne hhex =>
    refine ⟨_, _, rfl, by decide, fun rest => .inr ?_⟩
    simp [escapeLength?_point hne hhex rest]

theorem spelled_spell {l : Letter} (hl : l.starts = true) (ls : List Letter) :
    Spelled (Letter.spell (l :: ls)) := by
  obtain ⟨c, cs, htext, hopens, htaken⟩ := Letter.opens hl
  refine ⟨⟨c, cs ++ Letter.spell ls, by simp [htext], hopens⟩, ?_⟩
  intro rest hrest
  have hlength := wordLengthFrom_spell (l :: ls) hrest
  have hshape : Letter.spell (l :: ls) ++ rest = c :: (cs ++ (Letter.spell ls ++ rest)) :=
    by simp [htext]
  calc word (Letter.spell (l :: ls) ++ rest)
      = (Letter.spell (l :: ls) ++ rest).take (wordLengthFrom 0 (Letter.spell (l :: ls) ++ rest)) := by
        rw [hshape]
        exact word_eq_take (htaken _)
    _ = Letter.spell (l :: ls) := by rw [hlength, List.take_left]

/-- Whether a text is a word without escapes. -/
def isPlainWord (cs : List Char) : Bool := cs.head?.any startsWord && cs.all inWord

theorem exists_spell_of_inWord (h : ∀ c ∈ cs, inWord c = true) :
    ∃ letters, Letter.spell letters = cs := by
  induction cs with
  | nil => exact ⟨[], rfl⟩
  | cons c cs ih =>
    obtain ⟨letters, hletters⟩ := ih fun x hx => h x (List.mem_cons_of_mem c hx)
    exact ⟨.plain c (h c (by simp)) :: letters, by simp [Letter.text, hletters]⟩

theorem spelled_of_isPlainWord (h : isPlainWord cs = true) : Spelled cs := by
  simp only [isPlainWord, Bool.and_eq_true, List.all_eq_true] at h
  obtain ⟨hfirst, hall⟩ := h
  cases cs with
  | nil => simp at hfirst
  | cons c cs =>
    obtain ⟨letters, hletters⟩ :=
      exists_spell_of_inWord fun x hx => hall x (List.mem_cons_of_mem c hx)
    have hstarts : startsWord c = true := by simpa using hfirst
    have hspelled := spelled_spell (l := .plain c (hall c (by simp))) hstarts letters
    simpa [Letter.text, hletters] using hspelled

namespace Spelled

variable {w rest : List Char}

/-- The word in front of a text that ends it. -/
theorem begins (hw : Spelled w) (hrest : EndsWord rest) : ∃ c cs, opensWord c = true ∧
    w ++ rest = c :: cs ∧ word (c :: cs) = w ∧ (c :: cs).drop w.length = rest := by
  obtain ⟨c, cs, htext, hc⟩ := hw.opens
  have hshape : w ++ rest = c :: (cs ++ rest) := by rw [htext, List.cons_append]
  refine ⟨c, cs ++ rest, hc, hshape, ?_, ?_⟩
  · rw [← hshape, hw.reads rest hrest]
  · rw [← hshape, List.drop_left]

theorem ne_nil (hw : Spelled w) : w ≠ [] := by
  obtain ⟨c, cs, rfl, -⟩ := hw.opens
  simp

end Spelled

theorem readUpTo_append (w rest : List Char) : readUpTo (w ++ rest) rest = w := by
  simp [readUpTo]

end ClassAtlas.Source
