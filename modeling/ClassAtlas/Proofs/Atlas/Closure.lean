import ClassAtlas.Proofs.Atlas.Assembly
import Mathlib.Data.List.Induction
/-!
# The graph of classes is closed

A round of gathering leaves no reference open. Its stubs are as few as can be, one for each name that
is referred to and not defined, in the order in which these names are mentioned first.
-/
namespace ClassAtlas.Assembly

variable {names mentions : List String} {n : String} {p : String → Bool} {rs : List ClassRecord}

@[simp] theorem addNames_nil (names : List String) : addNames names [] = names := rfl

@[simp] theorem addNames_cons (names : List String) (n : String) (ns : List String) :
    addNames names (n :: ns) = addNames (if names.contains n then names else names ++ [n]) ns := rfl

theorem addNames_append (names ms ns : List String) :
    addNames names (ms ++ ns) = addNames (addNames names ms) ns := by
  induction ms generalizing names with
  | nil => rfl
  | cons m ms ih => simp only [List.cons_append, addNames_cons, ih]

theorem addNames_concat_of_mem (h : n ∈ addNames names mentions) :
    addNames names (mentions ++ [n]) = addNames names mentions := by
  simp [addNames_append, h]

theorem addNames_concat_of_notMem (h : n ∉ addNames names mentions) :
    addNames names (mentions ++ [n]) = addNames names mentions ++ [n] := by
  simp [addNames_append, h]

theorem mem_addNames : n ∈ addNames names mentions ↔ n ∈ names ∨ n ∈ mentions := by
  induction mentions generalizing names with
  | nil => simp
  | cons m mentions ih =>
    rw [addNames_cons, ih, List.mem_cons]
    by_cases hm : m ∈ names
    · have : n = m → n ∈ names := fun h => h ▸ hm
      simp only [List.contains_iff_mem, hm, if_true]
      tauto
    · simp only [List.contains_iff_mem, hm, if_false, List.mem_append, List.mem_singleton, or_assoc]

/-- Each name is mentioned before those that follow it. -/
def InOrderOfMention (mentions names : List String) : Prop :=
  names.Pairwise fun m n => mentions.idxOf m < mentions.idxOf n

theorem InOrderOfMention.nodup (h : InOrderOfMention mentions names) : names.Nodup :=
  h.imp fun hlt heq => by simp [heq] at hlt

/-- Mentions that come later do not disturb the order. -/
theorem InOrderOfMention.concat (h : InOrderOfMention mentions names) (hsub : names ⊆ mentions) :
    InOrderOfMention (mentions ++ [n]) names := by
  refine List.Pairwise.imp_of_mem ?_ h
  intro k m hk hm hlt
  rwa [List.idxOf_append_of_mem (hsub hk), List.idxOf_append_of_mem (hsub hm)]

/-- The first mention of a name comes last of all names so far. -/
theorem InOrderOfMention.concat_new (h : InOrderOfMention mentions names) (hsub : names ⊆ mentions)
    (hn : n ∉ mentions) : InOrderOfMention (mentions ++ [n]) (names ++ [n]) := by
  refine List.pairwise_append.mpr ⟨h.concat hsub, List.pairwise_singleton _ _, ?_⟩
  intro m hm k hk
  obtain rfl := List.mem_singleton.mp hk
  rw [List.idxOf_append_of_mem (hsub hm), List.idxOf_append_of_notMem hn]
  have := List.idxOf_lt_length_of_mem (hsub hm)
  omega

theorem mem_addNames_filter : n ∈ addNames [] (mentions.filter p) ↔ n ∈ mentions ∧ p n = true := by
  simp [mem_addNames]

theorem addNames_filter_inOrder (mentions : List String) (p : String → Bool) :
    InOrderOfMention mentions (addNames [] (mentions.filter p)) := by
  induction mentions using List.reverseRecOn with
  | nil => exact List.Pairwise.nil
  | append_singleton mentions n ih =>
    have hsub : addNames [] (mentions.filter p) ⊆ mentions := fun m hm => (mem_addNames_filter.mp hm).1
    by_cases hp : p n = true
    · rw [List.filter_append, List.filter_cons_of_pos hp, List.filter_nil]
      by_cases hn : n ∈ mentions
      · rw [addNames_concat_of_mem (mem_addNames_filter.mpr ⟨hn, hp⟩)]
        exact ih.concat hsub
      · rw [addNames_concat_of_notMem fun h => hn (hsub h)]
        exact ih.concat_new hsub hn
    · rw [List.filter_append, List.filter_cons_of_neg hp, List.filter_nil, List.append_nil]
      exact ih.concat hsub

theorem mem_undefinedNames : n ∈ undefinedNames rs ↔
    (∃ r ∈ rs, n ∈ r.references) ∧ ∀ r ∈ rs, r.name ≠ n := by
  simp only [undefinedNames, mem_addNames_filter, List.mem_flatMap]
  simp

theorem undefinedNames_inOrder (rs : List ClassRecord) :
    InOrderOfMention (rs.flatMap (·.references)) (undefinedNames rs) := addNames_filter_inOrder _ _

theorem references_newStub {a : Assembly} {c : ClassRecord} (hc : c ∈ a.newStubs rs) :
    c.references = [] := by
  rw [eq_stub_of_mem_newStubs hc, stub_references]

/-- A reference of a record is to a record or to a stub. -/
theorem exists_name_of_reference (a : Assembly) {r : ClassRecord} (hr : r ∈ rs) (hn : n ∈ r.references) :
    ∃ d ∈ rs ++ a.newStubs rs, d.name = n := by
  by_cases hdefined : ∃ d ∈ rs, d.name = n
  · obtain ⟨d, hd, hname⟩ := hdefined
    exact ⟨d, List.mem_append_left _ hd, hname⟩
  · have hmem : n ∈ undefinedNames rs :=
      mem_undefinedNames.mpr ⟨⟨r, hr, hn⟩, fun d hd hname => hdefined ⟨d, hd, hname⟩⟩
    rw [← names_newStubs a rs] at hmem
    obtain ⟨d, hd, hname⟩ := List.mem_map.mp hmem
    exact ⟨d, List.mem_append_right _ hd, hname⟩

/-- Gathering keeps the records, closes the references, and adds no stub but for this. -/
theorem gather_closes_references (a : Assembly) (rs : List ClassRecord) : ∃ stubs,
    (a.gather rs).1.classes = rs ++ stubs ∧
    (∀ c ∈ (a.gather rs).1.classes, ∀ n ∈ c.parents ++ c.interfaces,
      ∃ d ∈ (a.gather rs).1.classes, d.name = n) ∧
    (∀ c ∈ stubs, c.external = true) ∧
    (stubs.map (·.name)).Nodup ∧
    (∀ n, n ∈ stubs.map (·.name) ↔
      (∃ r ∈ rs, n ∈ r.parents ++ r.interfaces) ∧ ∀ r ∈ rs, r.name ≠ n) ∧
    (stubs.map (·.name)).Pairwise fun m n =>
      (rs.flatMap fun r => r.parents ++ r.interfaces).idxOf m <
        (rs.flatMap fun r => r.parents ++ r.interfaces).idxOf n := by
  have horder := undefinedNames_inOrder rs
  refine ⟨a.newStubs rs, classes_gather a rs, ?_, ?_, ?_, ?_, ?_⟩
  · intro c hc n hn
    rw [classes_gather] at hc ⊢
    rcases List.mem_append.mp hc with hr | hs
    · exact exists_name_of_reference a hr hn
    · have hnone : n ∈ c.references := hn
      rw [references_newStub hs] at hnone
      cases hnone
  · intro c hc
    rw [eq_stub_of_mem_newStubs hc, stub_external]
  · rw [names_newStubs]
    exact horder.nodup
  · intro n
    rw [names_newStubs]
    exact mem_undefinedNames
  · rw [names_newStubs]
    exact horder

end ClassAtlas.Assembly
