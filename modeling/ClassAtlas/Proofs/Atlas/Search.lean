import ClassAtlas.Proofs.Atlas.Ids
/-!
# The search for a fresh identifier

A search draws one candidate after the other and claims each, for as long as it takes. Nothing in it
bounds the number of draws. It comes to an end all the same, at the first candidate that is free, and
a fresh identifier is what it finds.
-/
namespace ClassAtlas.Ids

/-- The state after a token was drawn. -/
def ticked (ids : Ids) : Ids := { ids with counter := ids.counter + 1 }

/-- `Search stem ids passed id next`: from `ids` on, the candidates `passed` are refused in this
order, then `id` is granted and `next` is left. -/
inductive Search (stem : String) : Ids → List String → String → Ids → Prop where
  | granted {ids next : Ids} (h : ids.ticked.claim (ids.candidate stem) = (true, next)) :
      Search stem ids [] (ids.candidate stem) next
  | refused {ids left next : Ids} {passed : List String} {id : String}
      (h : ids.ticked.claim (ids.candidate stem) = (false, left)) (rest : Search stem left passed id next) :
      Search stem ids (ids.candidate stem :: passed) id next

variable {ids next left : Ids} {stem id : String} {passed : List String} {k : Nat}

theorem claim_eq_false_iff : ids.claim id = (false, left) ↔ id ∈ ids.issued ∧ left = ids := by
  by_cases h : id ∈ ids.issued <;> simp [claim, h, eq_comm]

theorem claim_eq_true_iff :
    ids.claim id = (true, next) ↔ id ∉ ids.issued ∧ next = { ids with issued := id :: ids.issued } := by
  by_cases h : id ∈ ids.issued <;> simp [claim, h, eq_comm]

theorem offer_ticked : ids.ticked.offer stem k = ids.offer stem (k + 1) := by
  simp [offer, ticked, Nat.add_assoc, Nat.add_comm 1 k]

theorem map_offer_succ : (List.range (k + 1)).map (ids.offer stem) =
    ids.candidate stem :: (List.range k).map (ids.ticked.offer stem) := by
  simp [List.range_succ_eq_map, candidate_eq_offer, offer_ticked]

/-- Offer `k` is the first that is free. -/
structure FirstFree (ids : Ids) (stem : String) (k : Nat) : Prop where
  used : ∀ j < k, ids.offer stem j ∈ ids.issued
  free : ids.offer stem k ∉ ids.issued

theorem FirstFree.unique {j : Nat} (hj : ids.FirstFree stem j) (hk : ids.FirstFree stem k) : j = k := by
  rcases Nat.lt_trichotomy j k with h | h | h
  · exact absurd (hk.used j h) hj.free
  · exact h
  · exact absurd (hj.used k h) hk.free

theorem firstFree_succ :
    ids.FirstFree stem (k + 1) ↔ ids.candidate stem ∈ ids.issued ∧ ids.ticked.FirstFree stem k := by
  constructor
  · intro h
    refine ⟨h.used 0 (Nat.succ_pos k), fun j hj => ?_, ?_⟩
    · rw [offer_ticked]
      exact h.used (j + 1) (Nat.succ_lt_succ hj)
    · rw [offer_ticked]
      exact h.free
  · rintro ⟨hused, hrest⟩
    refine ⟨fun j hj => ?_, ?_⟩
    · cases j with
      | zero => exact hused
      | succ j =>
        rw [← offer_ticked]
        exact hrest.used j (Nat.lt_of_succ_lt_succ hj)
    · rw [← offer_ticked]
      exact hrest.free

/-- What is left once offer `k` is in use as well. -/
def after (ids : Ids) (stem : String) (k : Nat) : Ids :=
  ⟨ids.form, ids.offer stem k :: ids.issued, ids.counter + k + 1⟩

theorem after_ticked : ids.ticked.after stem k = ids.after stem (k + 1) := by
  simp [after, offer_ticked]
  simp [ticked, Nat.add_assoc, Nat.add_comm 1 k]

/-- A search that ends has passed over the offers before the first free one. -/
theorem Search.firstFree (h : Search stem ids passed id next) :
    ∃ k, ids.FirstFree stem k ∧ passed = (List.range k).map (ids.offer stem) ∧
      id = ids.offer stem k ∧ next = ids.after stem k := by
  induction h with
  | granted h =>
    obtain ⟨hfree, rfl⟩ := claim_eq_true_iff.mp h
    exact ⟨0, ⟨by simp, hfree⟩, rfl, rfl, rfl⟩
  | @refused ids _ _ _ _ h _ ih =>
    obtain ⟨hused, rfl⟩ := claim_eq_false_iff.mp h
    obtain ⟨k, hfirst, rfl, rfl, rfl⟩ := ih
    exact ⟨k + 1, firstFree_succ.mpr ⟨hused, hfirst⟩, map_offer_succ.symm, offer_ticked, after_ticked⟩

/-- The search ends at the first free offer, however far away that is. -/
theorem FirstFree.search (h : ids.FirstFree stem k) :
    Search stem ids ((List.range k).map (ids.offer stem)) (ids.offer stem k) (ids.after stem k) := by
  induction k generalizing ids with
  | zero => exact .granted (claim_eq_true_iff.mpr ⟨h.free, rfl⟩)
  | succ k ih =>
    obtain ⟨hused, hrest⟩ := firstFree_succ.mp h
    rw [map_offer_succ, ← offer_ticked, ← after_ticked]
    exact .refused (claim_eq_false_iff.mpr ⟨hused, rfl⟩) (ih hrest)

theorem firstFree_fresh (ids : Ids) (stem : String) : ∃ k ≤ ids.issued.dedup.length,
    ids.FirstFree stem k ∧ ids.fresh stem = (ids.offer stem k, ids.after stem k) := by
  obtain ⟨k, hk, hused, hfree, heq⟩ := ids.fresh_spec stem
  exact ⟨k, hk, ⟨hused, hfree⟩, heq⟩

theorem search_iff (h : ids.FirstFree stem k) : Search stem ids passed id next ↔
    passed = (List.range k).map (ids.offer stem) ∧ (id, next) = (ids.offer stem k, ids.after stem k) := by
  constructor
  · intro hsearch
    obtain ⟨j, hj, rfl, rfl, rfl⟩ := hsearch.firstFree
    rw [hj.unique h]
    exact ⟨rfl, rfl⟩
  · rintro ⟨rfl, heq⟩
    obtain ⟨rfl, rfl⟩ := Prod.mk.inj heq
    exact h.search

/-- The stem with a number. -/
def numbered (stem : String) (n : Nat) : String := stem ++ "_" ++ Nat.repr n

theorem offer_decimal (issued : List String) (counter : Nat) :
    offer ⟨.decimal, issued, counter⟩ stem k = numbered stem (counter + 1 + k) := by
  simp [offer, numbered, TokenForm.token, Nat.add_right_comm]

/-- Whatever is in use and wherever the counter stands, the search for a fresh identifier ends, in
one way only. It finds the stem with the first number beyond the counter for which that is free, after
one draw more, at most, than there are identifiers in use. The counter is left at this number, and the
identifier, and no other, has come to those in use. -/
theorem search_iff_fresh (issued : List String) (counter : Nat) (stem : String) : ∃ n > counter,
    fresh ⟨.decimal, issued, counter⟩ stem =
      (numbered stem n, ⟨.decimal, numbered stem n :: issued, n⟩) ∧
    numbered stem n ∉ issued ∧
    (∀ m, counter < m → m < n → numbered stem m ∈ issued) ∧
    n - counter ≤ issued.dedup.length + 1 ∧
    ∀ passed id next, Search stem ⟨.decimal, issued, counter⟩ passed id next ↔
      passed = (List.range' (counter + 1) (n - counter - 1)).map (numbered stem) ∧
      (id, next) = fresh ⟨.decimal, issued, counter⟩ stem := by
  obtain ⟨k, hk, hfirst, heq⟩ := firstFree_fresh ⟨.decimal, issued, counter⟩ stem
  have hdraws : k ≤ issued.dedup.length := hk
  have hafter : after ⟨.decimal, issued, counter⟩ stem k =
      ⟨.decimal, numbered stem (counter + 1 + k) :: issued, counter + 1 + k⟩ := by
    simp [after, offer_decimal, Nat.add_right_comm]
  have hoffers : (List.range k).map (offer ⟨.decimal, issued, counter⟩ stem) =
      (List.range' (counter + 1) k).map (numbered stem) := by
    simp [List.range'_eq_map_range, offer_decimal]
  refine ⟨counter + 1 + k, by omega, ?_, ?_, fun m hm hmn => ?_, by omega, fun passed id next => ?_⟩
  · rw [heq, hafter, offer_decimal]
  · simpa only [offer_decimal] using hfirst.free
  · have hused := hfirst.used (m - counter - 1) (by omega)
    rwa [offer_decimal, show counter + 1 + (m - counter - 1) = m by omega] at hused
  · rw [search_iff hfirst, heq, hoffers, show counter + 1 + k - counter - 1 = k by omega]

end ClassAtlas.Ids
