import ClassAtlas.Complexity
import ClassAtlas.Proofs.Text.Preference
import ClassAtlas.Proofs.Text.Split
import ClassAtlas.Proofs.Text.Words
/-!
# Branching words

The search for branching words goes from the edge of a word to its other edge. So it takes a word of the text as a whole
or passes it as a whole, and what it finds are the words of the text that are branching words.
-/
namespace ClassAtlas

/-! ## Words that stand alone -/

namespace Text.Pattern

variable {v w : String} {ws : List String} {before : Option Char} {c : Char} {run tail rest captured : List Char}

/-- The word is made of word characters. -/
def Plain (w : String) : Prop := w.toList ≠ [] ∧ ∀ c ∈ w.toList, isWordChar c = true

instance (w : String) : Decidable (Plain w) :=
  decidable_of_iff (w.toList ≠ [] ∧ w.toList.all isWordChar = true) (and_congr_right' List.all_eq_true)

theorem any_eq_false (h : ∀ c ∈ before, isWordChar c = false) : before.any isWordChar = false := by
  cases before with
  | none => rfl
  | some c => exact h c rfl

theorem any_getLast?_or (hne : run ≠ []) (hrun : ∀ c ∈ run, isWordChar c = true) (before : Option Char) :
    (run.getLast?.or before).any isWordChar = true := by
  rw [List.getLast?_eq_some_getLast hne, Option.some_or]
  exact hrun _ (List.getLast_mem hne)

theorem prefers_word_edge (hw : Plain w) (htail : ∀ c ∈ tail.head?, isWordChar c = false) (before : Option Char)
    (captured : List Char) : Prefers (word w ++ wordEdge) ⟨before, w.toList ++ tail, captured⟩
      ⟨w.toList.getLast?.or before, tail, captured⟩ := by
  refine (prefers_word w before tail captured).append (forces_wordEdge ?_).prefers
  rw [any_getLast?_or hw.1 hw.2, any_eq_false htail]
  exact Bool.true_eq_false_eq_False

/-- A word is not found in another one. -/
theorem refuses_word_edge (hw : Plain w) (hrun : ∀ c ∈ run, isWordChar c = true)
    (htail : ∀ c ∈ tail.head?, isWordChar c = false) (hne : run ≠ w.toList) (before : Option Char)
    (captured : List Char) : Refuses (word w ++ wordEdge) ⟨before, run ++ tail, captured⟩ := by
  by_cases hprefix : w.toList <+: run ++ tail
  case neg => exact (refuses_word hprefix before captured).append wordEdge
  case pos =>
    obtain ⟨rest, hrest⟩ := hprefix
    have hhead : rest.head?.any isWordChar = true := by
      rcases List.append_eq_append_iff.mp hrest with ⟨more, hlonger, rfl⟩ | ⟨more, hshorter, rfl⟩
      · -- The word of the text goes on.
        cases more with
        | nil => exact absurd (hlonger.trans (List.append_nil _)) hne
        | cons c more => exact hrun c (by simp [hlonger])
      · cases more with
        | nil => exact absurd (hshorter.trans (List.append_nil _)).symm hne
        | cons c more =>
          have hword := hw.2 c (by simp [hshorter])
          rw [htail c rfl] at hword
          cases hword
    rw [← hrest]
    refine (forces_word w before rest captured).refuses_append (refuses_wordEdge ?_)
    rw [any_getLast?_or hw.1 hw.2, hhead]

theorem prefers_oneOf_words (hws : ∀ v ∈ w :: ws, Plain v) (hrun : ∀ c ∈ run, isWordChar c = true)
    (htail : ∀ c ∈ tail.head?, isWordChar c = false) (hmem : String.ofList run ∈ w :: ws) (before : Option Char)
    (captured : List Char) : Prefers (oneOf (ws.map word) (word w) ++ wordEdge) ⟨before, run ++ tail, captured⟩
      ⟨run.getLast?.or before, tail, captured⟩ := by
  have hwhole : ∀ v ∈ w :: ws, String.ofList run = v → Prefers (word v ++ wordEdge) ⟨before, run ++ tail, captured⟩
      ⟨run.getLast?.or before, tail, captured⟩ := by
    rintro v hv rfl
    simpa using prefers_word_edge (hws _ hv) htail before captured
  induction ws with
  | nil => exact hwhole w List.mem_cons_self (List.mem_singleton.mp hmem)
  | cons v ws ih =>
    by_cases hv : String.ofList run = v
    · exact (hwhole v (by simp) hv).left (oneOf (ws.map word) (word w) ++ wordEdge)
    · have hne : run ≠ v.toList := fun heq => hv (by rw [heq, String.ofList_toList])
      have hsub : ∀ u ∈ w :: ws, u ∈ w :: v :: ws := by
        intro u hu
        simp only [List.mem_cons] at hu ⊢
        tauto
      have hrest : String.ofList run ∈ w :: ws := by
        simp only [List.mem_cons] at hmem ⊢
        tauto
      have hmore := ih (fun u hu => hws u (hsub u hu)) hrest fun u hu => hwhole u (hsub u hu)
      exact (refuses_word_edge (hws v (by simp)) hrun htail hne before captured).right hmore

theorem refuses_oneOf_words (hws : ∀ v ∈ w :: ws, Plain v) (hrun : ∀ c ∈ run, isWordChar c = true)
    (htail : ∀ c ∈ tail.head?, isWordChar c = false) (hmem : String.ofList run ∉ w :: ws) (before : Option Char)
    (captured : List Char) : Refuses (oneOf (ws.map word) (word w) ++ wordEdge) ⟨before, run ++ tail, captured⟩ := by
  have hother : ∀ v ∈ w :: ws, Refuses (word v ++ wordEdge) ⟨before, run ++ tail, captured⟩ := by
    intro v hv
    refine refuses_word_edge (hws v hv) hrun htail ?_ before captured
    rintro rfl
    exact hmem (by rwa [String.ofList_toList])
  clear hws hmem
  induction ws with
  | nil => exact hother w List.mem_cons_self
  | cons v ws ih =>
    have hmore : Refuses (oneOf (ws.map word) (word w) ++ wordEdge) ⟨before, run ++ tail, captured⟩ := by
      refine ih fun u hu => hother u ?_
      simp only [List.mem_cons] at hu ⊢
      tauto
    exact (hother v (by simp)).alt hmore

end Text.Pattern

/-! ## The score -/

namespace Complexity
open Text Pattern

variable {before : Option Char} {c : Char} {run tail : List Char}

theorem plain_of_mem_branchWords : ∀ w ∈ "catch" :: branchWords.dropLast, Plain w := by decide

theorem mem_branchWords {w : String} : w ∈ "catch" :: branchWords.dropLast ↔ w ∈ branchWords := by
  have hperm : ("catch" :: branchWords.dropLast).Perm branchWords := by decide
  exact hperm.mem_iff

/-- Another character is no branching word, nor does one begin with it. -/
theorem refuses_other (hc : isWordChar c = false) (before : Option Char) (cs : List Char) :
    Refuses branchPattern ⟨before, c :: cs, []⟩ := by
  have hword : ∀ w ∈ "catch" :: branchWords.dropLast, Refuses (word w) ⟨before, c :: cs, []⟩ := by
    intro w hw
    obtain ⟨hne, hinside⟩ := plain_of_mem_branchWords w hw
    obtain ⟨d, more, hw'⟩ := List.exists_cons_of_ne_nil hne
    refine refuses_word ?_ before []
    rw [hw', List.cons_prefix_cons]
    rintro ⟨rfl, -⟩
    rw [hinside d (hw' ▸ List.mem_cons_self)] at hc
    cases hc
  obtain ⟨hlast, hwords⟩ := List.forall_mem_cons.mp hword
  have hnone : Refuses (oneOf (branchWords.dropLast.map word) (word "catch")) ⟨before, c :: cs, []⟩ := by
    refine refuses_oneOf ?_ hlast
    intro a ha
    obtain ⟨w, hw, rfl⟩ := List.mem_map.mp ha
    exact hwords w hw
  exact hnone.after_wordEdge.append wordEdge

/-- Nothing is found that begins within a word. -/
theorem findAllFrom_inside {d : Char} (hd : isWordChar d = true) (hrun : ∀ c ∈ run, isWordChar c = true)
    (tail : List Char) : branchPattern.findAllFrom 0 (some d) (run ++ tail) =
      branchPattern.findAllFrom 0 (run.getLast?.or (some d)) tail := by
  induction run generalizing d with
  | nil => rfl
  | cons e run ih =>
    obtain ⟨he, hrun⟩ := List.forall_mem_cons.mp hrun
    have hedge : Refuses wordEdge ⟨some d, e :: (run ++ tail), []⟩ := refuses_wordEdge (hd.trans he.symm)
    have hnone : Refuses branchPattern ⟨some d, e :: (run ++ tail), []⟩ := (hedge.append _).append wordEdge
    rw [List.cons_append, findAllFrom_of_refuses hnone, ih he hrun, getLast?_cons_or]

/-- A word is taken as a whole or passed as a whole. -/
theorem findAllFrom_word (hbefore : ∀ c ∈ before, isWordChar c = false) (hne : run ≠ [])
    (hrun : ∀ c ∈ run, isWordChar c = true) (htail : ∀ c ∈ tail.head?, isWordChar c = false) :
    branchPattern.findAllFrom 0 before (run ++ tail) =
      (if String.ofList run ∈ branchWords then [⟨run, []⟩] else []) ++
        branchPattern.findAllFrom 0 (run.getLast?.or before) tail := by
  have hedge : Forces wordEdge ⟨before, run ++ tail, []⟩ ⟨before, run ++ tail, []⟩ := by
    obtain ⟨d, more, rfl⟩ := List.exists_cons_of_ne_nil hne
    refine forces_wordEdge ?_
    rw [any_eq_false hbefore]
    exact (ne_of_eq_of_ne (hrun d List.mem_cons_self) Bool.true_eq_false_eq_False).symm
  split
  case isTrue hmem =>
    have hfound : Prefers branchPattern ⟨before, run ++ tail, []⟩ ⟨run.getLast?.or before, tail, []⟩ :=
      hedge.prefers.append
        (prefers_oneOf_words plain_of_mem_branchWords hrun htail (mem_branchWords.mpr hmem) before [])
    exact findAllFrom_of_matchAt hne (matchAt_of_prefers hfound)
  case isFalse hmem =>
    have hnone : Refuses branchPattern ⟨before, run ++ tail, []⟩ :=
      hedge.refuses_append
        (refuses_oneOf_words plain_of_mem_branchWords hrun htail (mt mem_branchWords.mp hmem) before [])
    obtain ⟨d, more, rfl⟩ := List.exists_cons_of_ne_nil hne
    obtain ⟨hd, hmore⟩ := List.forall_mem_cons.mp hrun
    rw [List.cons_append] at hnone ⊢
    rw [findAllFrom_of_refuses hnone, findAllFrom_inside hd hmore, getLast?_cons_or, List.nil_append]

theorem forall_mem_none : ∀ c ∈ (none : Option Char), isWordChar c = false := by simp

/-- What stands before a text does not matter where the text does not go on a word. -/
theorem findAllFrom_congr (htail : ∀ c ∈ tail.head?, isWordChar c = false) (before after : Option Char) :
    branchPattern.findAllFrom 0 before tail = branchPattern.findAllFrom 0 after tail := by
  cases tail with
  | nil => rfl
  | cons c cs =>
    have hc := htail c rfl
    rw [findAllFrom_of_refuses (refuses_other hc before cs), findAllFrom_of_refuses (refuses_other hc after cs)]

theorem score_nil : score [] = 0 := rfl

theorem score_word (hne : run ≠ []) (hrun : ∀ c ∈ run, isWordChar c = true)
    (htail : ∀ c ∈ tail.head?, isWordChar c = false) :
    score (run ++ tail) = (if String.ofList run ∈ branchWords then 1 else 0) + score tail := by
  rw [score, findAll, findAllFrom_word forall_mem_none hne hrun htail, findAllFrom_congr htail _ none, List.length_append,
    apply_ite List.length]
  rfl

theorem score_other (hc : isWordChar c = false) (cs : List Char) : score (c :: cs) = score cs := by
  have hbefore : ∀ d ∈ some c, isWordChar d = false := by
    rintro d ⟨⟩
    exact hc
  rw [score, findAll, findAllFrom_of_refuses (refuses_other hc none cs)]
  refine congrArg List.length ?_
  induction cs using wordInduction with
  | nil => rfl
  | other d ds hd _ => exact findAllFrom_congr (forall_mem_head?_cons hd ds) _ _
  | word run tail hne hrun htail _ =>
    rw [findAll, findAllFrom_word hbefore hne hrun htail, findAllFrom_word forall_mem_none hne hrun htail,
      findAllFrom_congr htail (run.getLast?.or (some c)) (run.getLast?.or none)]

/-- The score is the number of words that are branching words. -/
theorem score_eq_encard (text : List Char) :
    (score text : ℕ∞) = (wordsWith (fun chars => String.ofList chars ∈ branchWords) text).encard := by
  induction text using wordInduction with
  | nil => simp [score_nil, wordsWith_nil]
  | other c cs hc ih => rw [score_other hc, encard_wordsWith_other hc, ih]
  | word run tail hne hrun htail ih =>
    rw [score_word hne hrun htail, encard_wordsWith_word hne hrun htail, ← ih]
    push_cast
    rfl

theorem score_append_cons (hc : isWordChar c = false) (text more : List Char) :
    score (text ++ c :: more) = score text + score more := by
  induction text using wordInduction with
  | nil => rw [List.nil_append, score_other hc, score_nil, Nat.zero_add]
  | other d ds hd ih => rw [List.cons_append, score_other hd, score_other hd, ih]
  | word run tail hne hrun htail ih =>
    have htail' : ∀ d ∈ (tail ++ c :: more).head?, isWordChar d = false := by
      cases tail with
      | nil => exact forall_mem_head?_cons hc more
      | cons d ds => exact htail
    rw [List.append_assoc, score_word hne hrun htail', score_word hne hrun htail, ih, Nat.add_assoc]

theorem countLines_append_cons (text more : List Char) :
    countLines (text ++ '\n' :: more) = countLines text + countLines more := by
  have hsplit := splitAt_append_cons (p := (· == '\n')) text more (beq_self_eq_true '\n')
  rw [countLines, splitOn, hsplit, List.length_append]
  rfl

/-- The score of a text is the number of its words that are branching words. What stands on the two sides of a character
that belongs to no word counts for itself, and so do the lines on the two sides of a line feed. -/
theorem score_counts_words :
    (∀ text, (score text : ℕ∞) = {part : Part | part.IsWord text ∧ String.ofList part.chars ∈ branchWords}.encard) ∧
    (∀ text more c, isWordChar c = false → score (text ++ c :: more) = score text + score more) ∧
    ∀ text more, score (text ++ '\n' :: more) = score text + score more ∧
      countLines (text ++ '\n' :: more) = countLines text + countLines more := by
  refine ⟨score_eq_encard, fun text more c hc => score_append_cons hc text more, fun text more => ?_⟩
  exact ⟨score_append_cons (by decide) text more, countLines_append_cons text more⟩

theorem score_counts_words_elseIf : isWordChar ' ' = false ∧
    score "else if (iffy)".toList = score "else".toList + score "if (iffy)".toList ∧
    score "else if (iffy)".toList = 2 := by
  have hblank : isWordChar ' ' = false := by decide
  exact ⟨hblank, score_counts_words.2.1 "else".toList "if (iffy)".toList ' ' hblank, by decide⟩

end Complexity
end ClassAtlas
