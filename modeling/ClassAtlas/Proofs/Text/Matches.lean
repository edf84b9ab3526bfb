import ClassAtlas.Proofs.Text.Pattern
import ClassAtlas.Proofs.Text.Preference
import ClassAtlas.Proofs.Text.Words
/-!
# Where matches stand

The matches of a pattern are parts of the text, each found at its place and all one after the other.
-/
namespace ClassAtlas.Text

namespace Part

/-- The part is where a pattern matches the text. -/
structure IsMatch (p : Pattern) (text : List Char) (m : Pattern.Found) (part : Part) : Prop where
  text_eq : part.before ++ (part.chars ++ part.after) = text
  chars_eq : part.chars = m.text
  found : p.matchAt part.before.getLast? (part.chars ++ part.after) = some m

/-- The one part stands before the other, and they have nothing in common. -/
def Precedes (part later : Part) : Prop := part.before ++ part.chars <+: later.before

end Part

namespace Pattern

variable {a b : Pattern} {s : Place} {before : Option Char} {rest : List Char} {m : Found}

theorem refuses_of_not_takes (h : ∀ t, ¬ Takes a s t) : Refuses a s := by
  intro β next
  rw [Option.eq_none_iff_forall_ne_some]
  intro r hr
  obtain ⟨t, htakes, _⟩ := takes_of_run hr
  exact h t htakes

theorem matchAt_eq_none (h : Refuses a ⟨before, rest, []⟩) : a.matchAt before rest = none := h _

theorem matchAt_alt (a b : Pattern) (before : Option Char) (rest : List Char) :
    (alt a b).matchAt before rest = (a.matchAt before rest).or (b.matchAt before rest) := run_alt a b _ _

/-- What is found is the text that was taken. -/
theorem takes_of_matchAt (h : a.matchAt before rest = some m) :
    ∃ t, Takes a ⟨before, rest, []⟩ t ∧ rest = m.text ++ t.rest := by
  obtain ⟨t, htakes, hfound⟩ := takes_of_run h
  obtain ⟨taken, hbetween⟩ := htakes.exists_between
  obtain rfl := Option.some.inj hfound
  dsimp only at hbetween ⊢
  refine ⟨t, htakes, ?_⟩
  rw [hbetween, List.length_append, Nat.add_sub_cancel, List.take_left]

/-- The matches of a text are parts of it, in order. -/
theorem exists_parts (hne : ∀ before rest m, a.matchAt before rest = some m → m.text ≠ []) (text : List Char) :
    ∃ parts, List.Forall₂ (Part.IsMatch a text) (a.findAll text) parts ∧ parts.Pairwise Part.Precedes := by
  suffices hfrom : ∀ n lead rest, rest.length = n → lead ++ rest = text → ∃ parts,
      List.Forall₂ (Part.IsMatch a text) (a.findAllFrom 0 lead.getLast? rest) parts ∧
        parts.Pairwise Part.Precedes ∧ ∀ part ∈ parts, lead <+: part.before by
    obtain ⟨parts, hmatch, horder, _⟩ := hfrom text.length [] text rfl rfl
    exact ⟨parts, hmatch, horder⟩
  intro n
  induction n using Nat.strong_induction_on with
  | _ n ih =>
    intro lead rest hlength htext
    cases rest with
    | nil => exact ⟨[], .nil, .nil, by simp⟩
    | cons c cs =>
      cases hmatch : a.matchAt lead.getLast? (c :: cs) with
      | none =>
        obtain ⟨parts, hparts, horder, hlead⟩ := ih cs.length (by rw [← hlength]; simp) (lead ++ [c]) cs rfl (by simpa using htext)
        rw [List.getLast?_concat] at hparts
        refine ⟨parts, ?_, horder, fun part hpart => (List.prefix_append lead [c]).trans (hlead part hpart)⟩
        rw [findAllFrom_cons, hmatch]
        exact hparts
      | some m =>
        obtain ⟨t, _, hrest⟩ := takes_of_matchAt hmatch
        have hm := hne _ _ _ hmatch
        have hpos := List.length_pos_iff.mpr hm
        rw [hrest] at hmatch hlength htext ⊢
        rw [List.length_append] at hlength
        obtain ⟨parts, hparts, horder, hlead⟩ := ih t.rest.length (by omega) (lead ++ m.text) t.rest rfl (by simpa using htext)
        rw [List.getLast?_append] at hparts
        refine ⟨⟨lead, m.text, t.rest⟩ :: parts, ?_, List.pairwise_cons.mpr ⟨hlead, horder⟩, ?_⟩
        · rw [findAllFrom_of_matchAt hm hmatch]
          exact .cons ⟨htext, rfl, hmatch⟩ hparts
        · intro part hpart
          rcases List.mem_cons.mp hpart with rfl | hpart
          · exact List.prefix_rfl
          · exact (List.prefix_append lead m.text).trans (hlead part hpart)

end Pattern
end ClassAtlas.Text
