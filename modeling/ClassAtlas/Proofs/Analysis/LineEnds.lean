import ClassAtlas.Complexity
import ClassAtlas.Proofs.Outline.Sound
import ClassAtlas.Proofs.Text.LineEnds
/-!
# Analyses and line ends

None of the patterns stops between the two characters of a line end in a way that matters. So what is read off a text
stays the same when each of its lines ends with both, apart from names that go over a line end.
-/
namespace ClassAtlas

open Text Pattern

variable {p : Char → Bool} {a : Pattern}

theorem withReturns_of_captured {cs : List Char} (hfeed : p '\n' = false) (h : Captured p cs) : withReturns cs = cs := by
  refine withReturns_eq_self fun hmem => ?_
  have hp := h.2 _ hmem
  rw [hfeed] at hp
  cases hp

/-- A run that is captured last is the same in both texts. -/
theorem map_captured_find? {β : Type} (ha : IgnoresReturns (a ++ capture (many1 p))) (hfeed : p '\n' = false)
    (read : List Char → β) (text : List Char) :
    ((a ++ capture (many1 p)).find? (withReturns text)).map (fun m => read m.captured) =
      ((a ++ capture (many1 p)).find? text).map fun m => read m.captured := by
  rw [ha.find?, Option.map_map]
  refine Option.map_congr fun m hm => ?_
  exact congrArg read (withReturns_of_captured hfeed (captured_of_find? hm))

namespace Scan

variable {base : String}

theorem exportedName?_withReturns (text : List Char) : exportedName? (withReturns text) = exportedName? text :=
  map_captured_find? (by decide) (by decide) String.ofList text

theorem parents_withReturns (text : List Char) :
    (outline (withReturns text) base).parents = (outline text base).parents :=
  congrArg Option.toList (map_captured_find? (by decide) (by decide) String.ofList text)

theorem methodName_withReturns (matched : List Char) (index : Nat) :
    methodName (withReturns matched) index = methodName matched index := by
  have hdeclares : IgnoresReturns declaredPattern := by decide
  have hcalls : IgnoresReturns callPattern := by decide
  simp only [methodName, trim_withReturns, hdeclares.matchAt, hcalls.matchAt]
  cases hdeclared : declaredPattern.matchAt none (trim matched) with
  | some m => exact congrArg String.ofList (withReturns_of_captured (by decide) (captured_of_matchAt hdeclared))
  | none =>
    cases hcall : callPattern.matchAt none (trim matched) with
    | some m =>
      have hname : m.withReturns.captured = m.captured :=
        withReturns_of_captured (by decide) (captured_of_callPattern hcall)
      simp only [Option.map_none, Option.map_some, hname]
    | none => rfl

theorem methodsFrom_withReturns (found : List Found) (index : Nat) :
    methodsFrom index (found.map Found.withReturns) = methodsFrom index found := by
  induction found generalizing index with
  | nil => rfl
  | cons m found ih =>
    rw [List.map_cons, methodsFrom, methodsFrom, ih, Found.withReturns, methodName_withReturns]

theorem methods_withReturns (text : List Char) :
    (outline (withReturns text) base).methods = (outline text base).methods := by
  have hmethods : IgnoresReturns methodPattern := by decide
  simp only [outline, hmethods.findAll, methodsFrom_withReturns]

theorem isReactLike_withReturns (text : List Char) : isReactLike (withReturns text) = isReactLike text := by
  have hexports : IgnoresReturns exportPattern := by decide
  have hmarkers : ∀ m ∈ reactMarkers, m.toList ≠ [] ∧ '\n' ∉ m.toList ∧ '\r' ∉ m.toList := by decide
  simp only [isReactLike, hexports.find?, Option.isSome_map]
  congr 1
  rw [Bool.eq_iff_iff, List.any_eq_true, List.any_eq_true]
  refine exists_congr fun m => and_congr_right fun hm => ?_
  obtain ⟨hne, hfeed, hreturn⟩ := hmarkers m hm
  rw [contains_withReturns hne hfeed hreturn]

end Scan

namespace Complexity

theorem score_withReturns (text : List Char) : score (withReturns text) = score text := by
  have hbranches : IgnoresReturns branchPattern := by decide
  rw [score, hbranches.findAll, List.length_map, score]

theorem countLines_withReturns (text : List Char) : countLines (withReturns text) = countLines text :=
  length_splitOn_withReturns text

end Complexity

theorem Imports.dependencies_withReturns {text : List Char} (h : ∀ m ∈ importPattern.findAll text, '\n' ∉ m.captured) :
    dependencies (withReturns text) = dependencies text := by
  have himports : IgnoresReturns importPattern := by decide
  have hsame : (importPattern.findAll (withReturns text)).map (·.captured) =
      (importPattern.findAll text).map (·.captured) := by
    rw [himports.findAll, List.map_map]
    exact List.map_congr_left fun m hm => withReturns_eq_self (h m hm)
  simp only [dependencies, hsame]

/-- A carriage return before every line feed changes neither the name of the class, its parents and its methods, nor
whether it is like a view, nor the score and the number of lines. It changes no dependencies either if no specifier
goes over a line end. -/
theorem analysis_withReturns (text : List Char) (base : String) :
    (Scan.outline (withReturns text) base).className = (Scan.outline text base).className ∧
    (Scan.outline (withReturns text) base).parents = (Scan.outline text base).parents ∧
    (Scan.outline (withReturns text) base).methods = (Scan.outline text base).methods ∧
    Scan.isReactLike (withReturns text) = Scan.isReactLike text ∧
    Complexity.score (withReturns text) = Complexity.score text ∧
    Complexity.countLines (withReturns text) = Complexity.countLines text ∧
    ((∀ m ∈ Imports.importPattern.findAll text, '\n' ∉ m.captured) →
      Imports.dependencies (withReturns text) = Imports.dependencies text) := by
  refine ⟨?_, Scan.parents_withReturns text, Scan.methods_withReturns text, Scan.isReactLike_withReturns text,
    Complexity.score_withReturns text, Complexity.countLines_withReturns text, Imports.dependencies_withReturns⟩
  simp only [Scan.outline, Scan.exportedName?_withReturns]

theorem analysis_withReturns_page :
    (∀ m ∈ Imports.importPattern.findAll "import Base\nfrom './base'\nclass Page".toList, '\n' ∉ m.captured) ∧
    withReturns "import Base\nfrom './base'\nclass Page".toList = "import Base\r\nfrom './base'\r\nclass Page".toList ∧
    Imports.dependencies "import Base\r\nfrom './base'\r\nclass Page".toList = ["base"] := by
  have hinside : ∀ m ∈ Imports.importPattern.findAll "import Base\nfrom './base'\nclass Page".toList,
      '\n' ∉ m.captured := by decide +kernel
  have hreturns : withReturns "import Base\nfrom './base'\nclass Page".toList =
      "import Base\r\nfrom './base'\r\nclass Page".toList := by decide
  refine ⟨hinside, hreturns, ?_⟩
  rw [← hreturns, (analysis_withReturns _ "page").2.2.2.2.2.2 hinside]
  decide +kernel

end ClassAtlas
