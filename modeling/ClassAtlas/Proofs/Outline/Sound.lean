import ClassAtlas.Imports
import ClassAtlas.Outline.Choice
import ClassAtlas.Proofs.Text.Pattern
import ClassAtlas.Proofs.Text.Split
import Mathlib.Data.List.Nodup
import Mathlib.Data.List.TakeWhile
/-!
# Outlines are well formed

Whatever text a file holds, an outline names types without their arguments and names each method. So do
the syntax tree and the patterns, and thus any chain of the two.
-/
namespace ClassAtlas

open Text Pattern

/-- The name is there, and no argument list has got into it. -/
def IsTypeName (name : String) : Prop := name ≠ "" ∧ '<' ∉ name.toList

structure Outline.Sound (o : Outline) : Prop where
  parents : ∀ n ∈ o.parents, IsTypeName n
  interfaces : ∀ n ∈ o.interfaces, IsTypeName n
  methods : ∀ m ∈ o.methods, m.name ≠ ""

theorem ofList_ne_empty_iff {cs : List Char} : String.ofList cs ≠ "" ↔ cs ≠ [] := by simp

theorem isTypeName_of_captured {p : Char → Bool} {cs : List Char} (hangle : p '<' = false) (h : Captured p cs) :
    IsTypeName (String.ofList cs) := by
  refine ⟨ofList_ne_empty_iff.mpr h.1, fun hmem => ?_⟩
  rw [String.toList_ofList] at hmem
  have hp := h.2 _ hmem
  rw [hangle] at hp
  cases hp

namespace Outline

/-! ## From the syntax tree -/

theorem isTypeName_of_typeNames {texts : List (List Char)} {n : String} (hn : n ∈ typeNames texts) :
    IsTypeName n := by
  obtain ⟨hmem, hne⟩ := List.mem_filter.mp hn
  obtain ⟨text, -, rfl⟩ := List.mem_map.mp hmem
  refine ⟨by simpa using hne, fun hangle => ?_⟩
  rw [typeName, String.toList_ofList] at hangle
  have hbefore : '<' ∈ text.takeWhile fun c => !(c == '<') := mem_of_mem_trim hangle
  have hnone := List.mem_takeWhile_imp hbefore
  simp at hnone

theorem sound_ofShape (shape : ClassShape) : (ofShape shape).Sound := by
  constructor
  · intro n hn
    exact isTypeName_of_typeNames hn
  · intro n hn
    exact isTypeName_of_typeNames hn
  · intro m hm
    obtain ⟨member, hmember, rfl⟩ := List.mem_map.mp hm
    obtain ⟨-, hkept⟩ := List.mem_filter.mp hmember
    simp only [Bool.and_eq_true, bne_iff_ne] at hkept
    exact ofList_ne_empty_iff.mpr hkept.1.2

theorem sound_bare (name : String) : (bare name).Sound := by
  constructor <;> intro _ hmem <;> cases hmem

end Outline

/-! ## From patterns -/

namespace Scan

open Outline

theorem isTypeName_of_commaParts {s n : String} (hangle : '<' ∉ s.toList) (hn : n ∈ commaParts s) : IsTypeName n := by
  simp only [commaParts, List.mem_map, List.mem_filter] at hn
  obtain ⟨part, ⟨⟨piece, hpiece, rfl⟩, hne⟩, rfl⟩ := hn
  refine ⟨ofList_ne_empty_iff.mpr (by simpa using hne), fun hmem => hangle ?_⟩
  rw [String.toList_ofList] at hmem
  exact mem_of_mem_splitAt hpiece (mem_of_mem_trim hmem)

theorem captured_of_callPattern {before : Option Char} {rest : List Char} {m : Found}
    (h : callPattern.matchAt before rest = some m) : Captured isWordChar m.captured := by
  obtain ⟨t, htakes, hfound⟩ := takes_of_run h
  obtain rfl := Option.some.inj hfound
  -- Neither the blanks nor the bracket after the word change what it captured.
  cases htakes with
  | seq first last =>
    cases first with
    | seq word blanks =>
      have hword := captured_of_takes word
      cases last
      cases blanks
      exact hword

theorem methodName_ne_empty (matched : List Char) (index : Nat) : methodName matched index ≠ "" := by
  have hnumbered : s!"method_{index}" ≠ "" := by
    intro hempty
    have hchars := congrArg String.toList hempty
    simp at hchars
  simp only [methodName]
  split
  case h_1 m hdeclared => exact ofList_ne_empty_iff.mpr (captured_of_matchAt hdeclared).1
  case h_2 =>
    split
    case h_1 m hcall =>
      split
      · exact hnumbered
      · exact ofList_ne_empty_iff.mpr (captured_of_callPattern hcall).1
    case h_2 => exact hnumbered

theorem sound_outline (text : List Char) (base : String) : (outline text base).Sound := by
  constructor
  · intro n hn
    simp only [outline, Option.mem_toList, Option.map_eq_some_iff] at hn
    obtain ⟨m, hm, rfl⟩ := hn
    exact isTypeName_of_captured (by decide) (captured_of_find? hm)
  · intro n hn
    simp only [outline] at hn
    split at hn
    case h_1 m hm =>
      have hcaptured := isTypeName_of_captured (by decide) (captured_of_find? hm)
      exact isTypeName_of_commaParts hcaptured.2 hn
    case h_2 => cases hn
  · have hnames : ∀ (found : List Found) (index : Nat), ∀ m ∈ methodsFrom index found, m.name ≠ "" := by
      intro found
      induction found with
      | nil =>
        intro index m hm
        cases hm
      | cons first found ih =>
        intro index m hm
        rcases List.mem_cons.mp hm with rfl | hm
        · exact methodName_ne_empty _ _
        · exact ih _ m hm
    exact hnames _ 0

end Scan

/-! ## From a chain -/

namespace Outline

theorem sound_of_outline? {file : Path} {text : List Char} {e : Extractor} {o : Outline}
    (h : e.outline? file text = some o) : o.Sound := by
  cases e with
  | tree =>
    simp only [Extractor.outline?, ofTree, Option.bind_eq_some_iff, Option.map_eq_some_iff] at h
    obtain ⟨d, -, shape, -, rfl⟩ := h
    exact sound_ofShape shape
  | pattern =>
    simp only [Extractor.outline?, Option.some.injEq] at h
    rw [← h]
    exact Scan.sound_outline text file.stem

theorem sound_choose (file : Path) (text : List Char) (chain : List Extractor) : (choose file text chain).Sound := by
  induction chain with
  | nil => exact sound_bare file.stem
  | cons e es ih =>
    rw [choose]
    split
    case h_1 o hfound =>
      split
      · exact ih
      · split at hfound
        · exact sound_of_outline? hfound
        · cases hfound
    case h_2 => exact ih

end Outline

/-! ## Dependencies -/

namespace Imports

theorem dependencies_sound (text : List Char) : (∀ n ∈ dependencies text, n ≠ "") ∧ (dependencies text).Nodup := by
  have hall : ∀ (more names : List (List Char)), [] ∉ names → names.Nodup →
      [] ∉ more.foldl addNew names ∧ (more.foldl addNew names).Nodup := by
    intro more
    induction more with
    | nil => exact fun names hne hnodup => ⟨hne, hnodup⟩
    | cons name more ih =>
      intro names hne hnodup
      rw [List.foldl_cons, addNew]
      split
      case isTrue => exact ih names hne hnodup
      case isFalse hnew =>
        simp only [Bool.or_eq_true, List.isEmpty_iff, List.contains_iff_mem, not_or] at hnew
        apply ih
        · simpa [hne] using Ne.symm hnew.1
        · exact List.nodup_append_comm.mp (List.nodup_cons.mpr ⟨hnew.2, hnodup⟩)
  obtain ⟨hne, hnodup⟩ := hall (((((importPattern.findAll text).map (·.captured)).filter isLocal)).map moduleName) []
    List.not_mem_nil List.nodup_nil
  constructor
  · intro n hn
    obtain ⟨cs, hcs, rfl⟩ := List.mem_map.mp hn
    rw [ofList_ne_empty_iff]
    rintro rfl
    exact hne hcs
  · exact hnodup.map fun cs ds hsame => String.ofList_injective hsame

end Imports
end ClassAtlas
