import ClassAtlas.Checkout.Reference
import ClassAtlas.Proofs.Text.Split
/-!
# The project that a reference names

The name is the last part of a reference, between slashes and colons, without the usual ending. It has neither of
these characters, and slashes or the ending behind a reference do not change it.
-/
namespace ClassAtlas.Checkout

open Text

variable {cs : List Char} {url : String}

/-- What comes after the last slash and the last colon. -/
def lastPart (cs : List Char) : List Char := cs.rtakeWhile fun c => c != '/' && c != ':'

theorem afterLast_afterLast (cs : List Char) : afterLast ':' (afterLast '/' cs) = lastPart cs := by
  rw [afterLast, afterLast, List.reverse_reverse, List.takeWhile_takeWhile, lastPart, List.rtakeWhile]
  congr 2
  funext c
  simp [bne, Bool.and_comm, beq_eq_decide]

theorem projectName_eq (url : String) :
    projectName url = String.ofList (dropRepositoryEnd (lastPart (dropEndWhile (· == '/') url.toList))) := by
  rw [projectName, afterLast_afterLast]

theorem ne_of_mem_lastPart {c : Char} (hc : c ∈ lastPart cs) : c ≠ '/' ∧ c ≠ ':' := by
  simpa using List.mem_rtakeWhile_imp hc

theorem lastPart_append_ending (cs : List Char) : lastPart (cs ++ repositoryEnd) = lastPart cs ++ repositoryEnd := by
  have hending : ∀ c ∈ repositoryEnd.reverse, (c != '/' && c != ':') = true := List.all_eq_true.mp (by decide)
  rw [lastPart, List.rtakeWhile, List.reverse_append, List.takeWhile_append_of_pos hending, List.reverse_append,
    List.reverse_reverse]
  rfl

theorem dropRepositoryEnd_subset (name : List Char) : dropRepositoryEnd name ⊆ name := by
  unfold dropRepositoryEnd
  split
  · exact List.take_subset _ _
  · exact List.Subset.refl _

theorem dropRepositoryEnd_append (name : List Char) : dropRepositoryEnd (name ++ repositoryEnd) = name := by
  simp [dropRepositoryEnd]

theorem dropRepositoryEnd_eq_self (h : ¬ repositoryEnd <:+ cs) : dropRepositoryEnd cs = cs := by
  simp [dropRepositoryEnd, h]

theorem separators_notMem_projectName (url : String) :
    '/' ∉ (projectName url).toList ∧ ':' ∉ (projectName url).toList := by
  rw [projectName_eq, String.toList_ofList]
  exact ⟨fun h => (ne_of_mem_lastPart (dropRepositoryEnd_subset _ h)).1 rfl,
    fun h => (ne_of_mem_lastPart (dropRepositoryEnd_subset _ h)).2 rfl⟩

theorem projectName_append_slashes (url : String) (n : Nat) :
    projectName (url ++ String.ofList (List.replicate n '/')) = projectName url := by
  have hslashes : ∀ c ∈ List.replicate n '/', (c == '/') = true := by simp
  rw [projectName_eq, projectName_eq, String.toList_append, String.toList_ofList, dropEndWhile_append hslashes]

theorem projectName_append_ending (hslash : url.toList.getLast? ≠ some '/')
    (hending : ¬ repositoryEnd <:+ lastPart url.toList) : projectName (url ++ ".git") = projectName url := by
  have hchars : (url ++ ".git").toList = url.toList ++ repositoryEnd := String.toList_append
  have hkept : dropEndWhile (· == '/') url.toList = url.toList :=
    dropEndWhile_eq_self fun c hc => beq_eq_false_iff_ne.mpr (ne_of_mem_of_not_mem hc hslash)
  have hended : dropEndWhile (· == '/') (url.toList ++ repositoryEnd) = url.toList ++ repositoryEnd := by
    refine dropEndWhile_eq_self fun c hc => ?_
    have hlast : repositoryEnd.getLast? = some 't' := by decide
    rw [List.getLast?_append, hlast, Option.some_or] at hc
    obtain rfl := Option.some.inj hc
    decide
  rw [projectName_eq, projectName_eq, hchars, hended, hkept, lastPart_append_ending, dropRepositoryEnd_append,
    dropRepositoryEnd_eq_self hending]

end ClassAtlas.Checkout
