import ClassAtlas.Atlas.Ids
import ClassAtlas.Proofs.Text.Hexadecimal
import Mathlib.Data.List.Dedup
import Mathlib.Data.List.Nodup
import Mathlib.Data.Nat.Find
/-!
# Fresh identifiers

Tokens of different numbers differ, so among one more candidates than there are identifiers in use
one is free. A draw finds the first such candidate and adds it, and nothing else, to those in use.
-/
namespace ClassAtlas

open Text (hexDigits)

theorem lt_pow_tokenWidth (n : Nat) : n < 16 ^ tokenWidth n := by
  have hlog : n < 2 ^ (Nat.log2 n + 1) := Nat.lt_log2_self
  have hexp : Nat.log2 n + 1 ≤ 4 * tokenWidth n := by
    unfold tokenWidth
    omega
  calc n < 2 ^ (Nat.log2 n + 1) := hlog
    _ ≤ 2 ^ (4 * tokenWidth n) := Nat.pow_le_pow_right (by decide) hexp
    _ = 16 ^ tokenWidth n := by rw [Nat.pow_mul]

theorem TokenForm.token_injective (form : TokenForm) : Function.Injective form.token := by
  intro m n h
  cases form with
  | decimal =>
    have hdigits : Nat.toDigits 10 m = Nat.toDigits 10 n := by
      simpa [token, Nat.repr_eq_ofList_toDigits] using congrArg String.toList h
    rw [← Nat.ofDigitChars_ten_toDigits (n := m), hdigits, Nat.ofDigitChars_ten_toDigits]
  | hexadecimal =>
    have hdigits : hexDigits (tokenWidth m) m = hexDigits (tokenWidth n) n := by
      simpa [token] using congrArg String.toList h
    have hwidth : tokenWidth m = tokenWidth n := by simpa using congrArg List.length hdigits
    rw [hwidth] at hdigits
    have hmod := Text.mod_eq_of_hexDigits_eq hdigits
    rwa [← hwidth, Nat.mod_eq_of_lt (lt_pow_tokenWidth m), hwidth,
      Nat.mod_eq_of_lt (lt_pow_tokenWidth n)] at hmod

namespace Ids
variable (ids : Ids) (stem : String)

/-- What the draw after `k` others would offer. -/
def offer (k : Nat) : String := stem ++ "_" ++ ids.form.token (ids.counter + k + 1)

theorem candidate_eq_offer : ids.candidate stem = ids.offer stem 0 := rfl

theorem offer_injective : Function.Injective (ids.offer stem) := by
  intro j k h
  have htoken : ids.form.token (ids.counter + j + 1) = ids.form.token (ids.counter + k + 1) := by
    simpa [offer] using h
  have := ids.form.token_injective htoken
  omega

/-- By the pigeonhole principle not all of these offers are in use. -/
theorem exists_offer_notMem : ∃ k ≤ ids.issued.dedup.length, ids.offer stem k ∉ ids.issued := by
  by_contra! hall
  have hnodup : ((List.range (ids.issued.dedup.length + 1)).map (ids.offer stem)).Nodup :=
    List.nodup_range.map (ids.offer_injective stem)
  have hsub : (List.range (ids.issued.dedup.length + 1)).map (ids.offer stem) ⊆ ids.issued.dedup := by
    intro id hid
    obtain ⟨k, hk, rfl⟩ := List.mem_map.mp hid
    exact List.mem_dedup.mpr (hall k (by simpa [Nat.lt_succ_iff] using hk))
  have hlen := hnodup.length_le_of_subset hsub
  simp only [List.length_map, List.length_range] at hlen
  omega

/-- Draws pass over the offers in use and stop at the first other one. -/
theorem drawFrom_eq {fuel k : Nat} (hk : k < fuel) (hskip : ∀ j < k, ids.offer stem j ∈ ids.issued)
    (hfree : ids.offer stem k ∉ ids.issued) :
    drawFrom stem fuel ids =
      (ids.offer stem k, ⟨ids.form, ids.offer stem k :: ids.issued, ids.counter + k + 1⟩) := by
  induction fuel generalizing ids k with
  | zero => omega
  | succ fuel ih =>
    cases k with
    | zero => simp [drawFrom, candidate_eq_offer, hfree]
    | succ k =>
      have hshift : ∀ j, offer { ids with counter := ids.counter + 1 } stem j = ids.offer stem (j + 1) := by
        intro j
        simp [offer, Nat.add_assoc, Nat.add_comm 1 j]
      have hused : ids.candidate stem ∈ ids.issued := hskip 0 (Nat.succ_pos k)
      have hrest := ih { ids with counter := ids.counter + 1 } (Nat.lt_of_succ_lt_succ hk)
        (fun j hj => by rw [hshift]; exact hskip (j + 1) (Nat.succ_lt_succ hj))
        (by rw [hshift]; exact hfree)
      rw [hshift] at hrest
      simp only [drawFrom, List.contains_iff_mem, hused, if_true, hrest]
      simp [Nat.add_assoc, Nat.add_comm 1 k]

/-- The first free offer is drawn, after no more draws than there are different identifiers in use. -/
theorem fresh_spec : ∃ k ≤ ids.issued.dedup.length, (∀ j < k, ids.offer stem j ∈ ids.issued) ∧
    ids.offer stem k ∉ ids.issued ∧ ids.fresh stem =
      (ids.offer stem k, ⟨ids.form, ids.offer stem k :: ids.issued, ids.counter + k + 1⟩) := by
  obtain ⟨n, hn, hfree⟩ := ids.exists_offer_notMem stem
  have hexists : ∃ k, ids.offer stem k ∉ ids.issued := ⟨n, hfree⟩
  let k := Nat.find hexists
  have hk : k ≤ ids.issued.dedup.length := Nat.le_trans (Nat.find_min' hexists hfree) hn
  have hfuel : k < ids.issued.length + 1 :=
    Nat.lt_succ_of_le (Nat.le_trans hk (List.dedup_sublist ids.issued).length_le)
  have hskip : ∀ j < k, ids.offer stem j ∈ ids.issued :=
    fun j hj => not_not.mp (Nat.find_min hexists hj)
  have hfirst : ids.offer stem k ∉ ids.issued := Nat.find_spec hexists
  exact ⟨k, hk, hskip, hfirst, ids.drawFrom_eq stem hfuel hskip hfirst⟩

variable {ids stem}

/-- `id` was free, and now it is in use as well. -/
structure Issues (ids : Ids) (id : String) (next : Ids) : Prop where
  free : id ∉ ids.issued
  issued_eq : next.issued = id :: ids.issued
  form_eq : next.form = ids.form

theorem issues_fresh (ids : Ids) (stem : String) : ids.Issues (ids.fresh stem).1 (ids.fresh stem).2 := by
  obtain ⟨k, _, _, hfree, heq⟩ := ids.fresh_spec stem
  rw [heq]
  exact ⟨hfree, rfl, rfl⟩

/-- A claim succeeds on what is free; else nothing changes. -/
theorem claim_cases (ids : Ids) (id : String) :
    (∃ next, ids.claim id = (true, next) ∧ ids.Issues id next) ∨
      ids.claim id = (false, ids) ∧ id ∈ ids.issued := by
  by_cases h : id ∈ ids.issued
  · exact Or.inr ⟨by simp [claim, h], h⟩
  · exact Or.inl ⟨{ ids with issued := id :: ids.issued }, by simp [claim, h], h, rfl, rfl⟩

theorem issues_claimOrFresh (ids : Ids) (id : String) :
    ids.Issues (ids.claimOrFresh id).1 (ids.claimOrFresh id).2 := by
  rcases ids.claim_cases id with ⟨next, heq, hissues⟩ | ⟨heq, _⟩
  · simpa only [claimOrFresh, heq] using hissues
  · simpa only [claimOrFresh, heq] using ids.issues_fresh id

theorem Issues.nodup {id : String} {next : Ids} (h : ids.Issues id next) (hids : ids.issued.Nodup) :
    next.issued.Nodup := by
  rw [h.issued_eq]
  exact List.nodup_cons.mpr ⟨h.free, hids⟩

end Ids
end ClassAtlas
