import ClassAtlas.Yaml.Value
/-!
# Every node of a valid document has a value

A document is checked level by level: the contents of the collections that were met in one level are looked at in the
next one. Once there is nothing left to look at, every node that the root leads to was met.
-/
namespace ClassAtlas

section Except
variable {ε α β : Type} {x : Except ε α}

theorem bind_eq_ok_iff {f : α → Except ε β} {b : β} : (x >>= f) = .ok b ↔ ∃ a, x = .ok a ∧ f a = .ok b := by
  cases x <;> simp [bind, Except.bind]

theorem map_eq_ok_iff {f : α → β} {b : β} : (f <$> x) = .ok b ↔ ∃ a, x = .ok a ∧ f a = b := by
  cases x <;> simp [Functor.map, Except.map]

theorem map_toOption_eq_some_iff {f : α → β} {b : β} : x.toOption.map f = some b ↔ ∃ a, x = .ok a ∧ f a = b := by
  cases x <;> simp [Except.toOption]

end Except

namespace Yaml

/-- The nodes that stand in a value: the items of a sequence, and what a mapping has under its keys. -/
def Value.nodes : Value → List Node
  | .items nodes => nodes
  | .entries pairs => pairs.map (·.2)
  | _ => []

namespace Document

variable {d : Document} {n m : Node} {s s' : Survey} {done : List Node}

/-- The nodes that the root leads to, from values to the nodes in them. -/
inductive Reaches (d : Document) : Node → Prop where
  | root : Reaches d d.root
  | inside {n m : Node} {v : Value} (above : Reaches d n) (value : d.value n = .ok v) (mem : m ∈ v.nodes) : Reaches d m

/-- A node was met: a collection is among the ones that are looked at, any other node has a value. -/
def Met (d : Document) (collections : List Node) (n : Node) : Prop :=
  if isCollectionTag (d.tagOf n) then n ∈ collections else ∃ v, d.value n = .ok v

/-- A collection was looked at: it has a value, and the nodes in it were met. -/
def Filled (d : Document) (collections : List Node) (n : Node) : Prop :=
  ∃ v, d.value n = .ok v ∧ ∀ m ∈ v.nodes, d.Met collections m

/-- What the survey has seen was met, when the collections of `done` have been looked at. -/
def Kept (d : Document) (done : List Node) (s : Survey) : Prop :=
  ∀ name ∈ s.seen, d.Met (done ++ s.later) (.shared name)

theorem Met.mono {few many : List Node} (hsub : few ⊆ many) (hmet : d.Met few n) : d.Met many n := by
  unfold Met at hmet ⊢
  split
  · exact hsub (by simpa [*] using hmet)
  · simpa [*] using hmet

theorem Filled.mono {few many : List Node} (hsub : few ⊆ many) (hfilled : d.Filled few n) : d.Filled many n := by
  obtain ⟨v, hvalue, hmet⟩ := hfilled
  exact ⟨v, hvalue, fun m hm => (hmet m hm).mono hsub⟩

/-- Only a collection has nodes in its value. -/
theorem nodes_eq_nil {v : Value} (htag : isCollectionTag (d.tagOf n) = false) (hvalue : d.value n = .ok v) :
    v.nodes = [] := by
  have hother : ∀ tag, isCollectionTag tag = true → d.tagOf n ≠ tag := by
    intro tag hcollection heq
    rw [heq, hcollection] at htag
    cases htag
  have hgiven : ∀ {u : Value}, u.nodes = [] → (pure u : Reading Value) = .ok v → v.nodes = [] := by
    intro u hu hv
    cases hv
    exact hu
  have hread : ∀ {α} {x : Reading α} {f : α → Value}, (∀ a, (f a).nodes = []) → f <$> x = .ok v → v.nodes = [] := by
    intro α x f hf hv
    obtain ⟨a, _, rfl⟩ := map_eq_ok_iff.mp hv
    exact hf a
  rw [value] at hvalue
  simp only [hother Tag.sequence (by decide), hother Tag.mapping (by decide), htag, ite_false, Bool.false_eq_true] at hvalue
  split at hvalue
  case h_2 => cases hvalue
  case h_1 make hmake =>
    obtain ⟨text, _, hvalue⟩ := bind_eq_ok_iff.mp hvalue
    obtain ⟨before, after, hkinds, _⟩ := List.lookup_eq_some_iff.mp hmake
    have hmem : (d.tagOf n, make) ∈ before ++ (d.tagOf n, make) :: after := by simp
    rw [← hkinds] at hmem
    simp only [List.mem_cons, List.not_mem_nil, or_false, Prod.mk.injEq] at hmem
    rcases hmem with ⟨_, rfl⟩ | ⟨_, rfl⟩ | ⟨_, rfl⟩ | ⟨_, rfl⟩ | ⟨_, rfl⟩ | ⟨_, rfl⟩ | ⟨_, rfl⟩ | ⟨_, rfl⟩
    all_goals first | exact hread (fun _ => rfl) hvalue | exact hgiven rfl hvalue

/-- Where all that was met has been looked at, every node that the root leads to was met and so has a value. -/
theorem Reaches.value_of_closed {collections : List Node} (hroot : d.Met collections d.root)
    (hclosed : ∀ n ∈ collections, d.Filled collections n) (hn : d.Reaches n) : ∃ v, d.value n = .ok v := by
  suffices hmet : d.Met collections n by
    unfold Met at hmet
    split at hmet
    · obtain ⟨v, hv, _⟩ := hclosed n hmet
      exact ⟨v, hv⟩
    · exact hmet
  induction hn with
  | root => exact hroot
  | @inside n m v above hv hmem ih =>
    unfold Met at ih
    split at ih
    case isTrue =>
      obtain ⟨v', hv', hmet⟩ := hclosed n ih
      cases hv.symm.trans hv'
      exact hmet m hmem
    case isFalse htag =>
      rw [nodes_eq_nil (Bool.eq_false_iff.mpr htag) hv] at hmem
      cases hmem

/-! ## One level -/

/-- What is seen once a node is looked at. -/
def seenWith (n : Node) (seen : List String) : List String :=
  match n with
  | .shared name => name :: seen
  | _ => seen

theorem mem_seenWith {name : String} {seen : List String} (hname : name ∈ seenWith n seen) :
    n = .shared name ∨ name ∈ seen := by
  unfold seenWith at hname
  split at hname
  · exact (List.mem_cons.mp hname).imp_left fun (h : name = _) => h ▸ rfl
  · exact .inr hname

/-- A node was seen before, or is a collection that waits, or has a value. -/
theorem survey_cases (hsurvey : d.survey s n = .ok s') :
    (∃ name ∈ s.seen, n = .shared name ∧ s' = s) ∨
      (isCollectionTag (d.tagOf n) = true ∧ s' = ⟨seenWith n s.seen, s.later ++ [n]⟩) ∨
      isCollectionTag (d.tagOf n) = false ∧ (∃ v, d.value n = .ok v) ∧ s' = ⟨seenWith n s.seen, s.later⟩ := by
  have hnew : (if isCollectionTag (d.tagOf n) then .ok ⟨seenWith n s.seen, s.later ++ [n]⟩
      else if d.tagOf n = Tag.value then refuse .unknownTag
      else d.value n >>= fun _ => .ok ⟨seenWith n s.seen, s.later⟩) = .ok s' →
      (isCollectionTag (d.tagOf n) = true ∧ s' = ⟨seenWith n s.seen, s.later ++ [n]⟩) ∨
        isCollectionTag (d.tagOf n) = false ∧ (∃ v, d.value n = .ok v) ∧ s' = ⟨seenWith n s.seen, s.later⟩ := by
    intro hnew
    split at hnew
    case isTrue htag =>
      cases hnew
      exact .inl ⟨htag, rfl⟩
    case isFalse htag =>
      split at hnew
      · cases hnew
      · obtain ⟨v, hvalue, hnew⟩ := bind_eq_ok_iff.mp hnew
        cases hnew
        exact .inr ⟨Bool.eq_false_iff.mpr htag, ⟨v, hvalue⟩, rfl⟩
  cases n with
  | shared name =>
    unfold survey at hsurvey
    dsimp only at hsurvey
    split at hsurvey
    case isTrue hknown =>
      cases hsurvey
      exact .inl ⟨name, List.contains_iff_mem.mp hknown, rfl, rfl⟩
    case isFalse => exact .inr (hnew hsurvey)
  | _ => exact .inr (hnew hsurvey)

theorem append_subset_of_later (hgrows : s.later ⊆ s'.later) : done ++ s.later ⊆ done ++ s'.later :=
  List.append_subset.mpr ⟨List.subset_append_left _ _, List.subset_append_of_subset_right _ hgrows⟩

/-- A step of the survey goes on from what was seen: it forgets no node that waits and adds collections only, and what
was met before stays met. -/
structure Onward (d : Document) (done : List Node) (s s' : Survey) : Prop where
  grows : s.later ⊆ s'.later
  waits : ∀ n ∈ s'.later, n ∈ s.later ∨ isCollectionTag (d.tagOf n) = true
  kept : d.Kept done s → d.Kept done s'

namespace Onward

theorem refl : d.Onward done s s := ⟨List.Subset.refl _, fun _ => .inl, id⟩

theorem trans {s'' : Survey} (h : d.Onward done s s') (h' : d.Onward done s' s'') : d.Onward done s s'' :=
  ⟨List.Subset.trans h.grows h'.grows, fun n hn => (h'.waits n hn).elim (h.waits n) .inr, h'.kept ∘ h.kept⟩

theorem met (h : d.Onward done s s') (hmet : d.Met (done ++ s.later) n) : d.Met (done ++ s'.later) n :=
  hmet.mono (append_subset_of_later h.grows)

theorem filled (h : d.Onward done s s') (hfilled : d.Filled (done ++ s.later) n) : d.Filled (done ++ s'.later) n :=
  hfilled.mono (append_subset_of_later h.grows)

/-- What is seen with a node is kept when the node was met. -/
theorem of_met (hgrows : s.later ⊆ s'.later) (hwaits : ∀ n ∈ s'.later, n ∈ s.later ∨ isCollectionTag (d.tagOf n) = true)
    (hseen : s'.seen = seenWith n s.seen) (hmet : d.Met (done ++ s'.later) n) : d.Onward done s s' := by
  refine ⟨hgrows, hwaits, fun hkept name hname => ?_⟩
  rw [hseen] at hname
  rcases mem_seenWith hname with rfl | hname
  · exact hmet
  · exact (hkept name hname).mono (append_subset_of_later hgrows)

/-- A pass over a list goes on from step to step, and what a step makes true of its entry is true in the end. -/
theorem foldlM {α : Type} {f : Survey → α → Reading Survey} {p : Survey → α → Prop} {xs : List α}
    (hfold : xs.foldlM f s = .ok s') (hkept : d.Kept done s)
    (hstep : ∀ {s x s'}, f s x = .ok s' → d.Kept done s → d.Onward done s s' ∧ p s' x)
    (hlater : ∀ {s s' x}, d.Onward done s s' → p s x → p s' x) : d.Onward done s s' ∧ ∀ x ∈ xs, p s' x := by
  induction xs generalizing s with
  | nil =>
    cases hfold
    exact ⟨.refl, List.forall_mem_nil _⟩
  | cons x xs ih =>
    rw [List.foldlM_cons] at hfold
    obtain ⟨next, hnext, hfold⟩ := bind_eq_ok_iff.mp hfold
    obtain ⟨honward, hx⟩ := hstep hnext hkept
    obtain ⟨hrest, hxs⟩ := ih hfold (honward.kept hkept)
    exact ⟨honward.trans hrest, List.forall_mem_cons.mpr ⟨hlater hrest hx, hxs⟩⟩

end Onward

theorem onward_survey (hsurvey : d.survey s n = .ok s') (hkept : d.Kept done s) :
    d.Onward done s s' ∧ d.Met (done ++ s'.later) n := by
  rcases survey_cases hsurvey with ⟨name, hname, rfl, rfl⟩ | ⟨htag, rfl⟩ | ⟨htag, hvalue, rfl⟩
  · exact ⟨.refl, hkept name hname⟩
  · have hmet : d.Met (done ++ (s.later ++ [n])) n := by simp [Met, htag]
    refine ⟨.of_met (List.subset_append_left _ _) (fun m hm => ?_) rfl hmet, hmet⟩
    rcases List.mem_append.mp hm with hm | hm
    · exact .inl hm
    · obtain rfl := List.mem_singleton.mp hm
      exact .inr htag
  · have hmet : d.Met (done ++ s.later) n := by simpa [Met, htag] using hvalue
    exact ⟨.of_met (List.Subset.refl _) (fun _ => .inl) rfl hmet, hmet⟩

theorem onward_surveyKey (hsurvey : d.surveyKey s n = .ok s') (hkept : d.Kept done s) : d.Onward done s s' := by
  unfold surveyKey at hsurvey
  split at hsurvey
  case isTrue htag =>
    obtain ⟨v, hvalue, hsurvey⟩ := bind_eq_ok_iff.mp hsurvey
    have hmet : d.Met (done ++ s.later) n := by
      have hscalar : isCollectionTag (d.tagOf n) = false := by
        rw [htag]
        decide
      simpa [Met, hscalar] using ⟨v, hvalue⟩
    cases n with
    | shared name =>
      cases hsurvey
      exact .of_met (List.Subset.refl _) (fun _ => .inl) rfl hmet
    | _ =>
      cases hsurvey
      exact .refl
  case isFalse =>
    obtain ⟨next, hnext, hsurvey⟩ := bind_eq_ok_iff.mp hsurvey
    split at hsurvey
    · cases hsurvey
    · cases hsurvey
      exact (onward_survey hnext hkept).1

/-- The nodes under the keys of a mapping are met. -/
theorem onward_pairs {pairs : List (Node × Node)}
    (hfold : pairs.foldlM (fun s pair => do d.survey (← d.surveyKey s pair.1) pair.2) s = .ok s')
    (hkept : d.Kept done s) : d.Onward done s s' ∧ ∀ m ∈ pairs.map (·.2), d.Met (done ++ s'.later) m := by
  have hstep : ∀ {s} {pair : Node × Node} {s'}, (d.surveyKey s pair.1 >>= fun s => d.survey s pair.2) = .ok s' →
      d.Kept done s → d.Onward done s s' ∧ d.Met (done ++ s'.later) pair.2 := by
    intro s pair s' hpair hkept
    obtain ⟨next, hnext, hpair⟩ := bind_eq_ok_iff.mp hpair
    have honward := onward_surveyKey hnext hkept
    obtain ⟨hlast, hmet⟩ := onward_survey hpair (honward.kept hkept)
    exact ⟨honward.trans hlast, hmet⟩
  obtain ⟨honward, hmet⟩ := Onward.foldlM hfold hkept hstep Onward.met
  refine ⟨honward, fun m hm => ?_⟩
  obtain ⟨pair, hpair, rfl⟩ := List.mem_map.mp hm
  exact hmet pair hpair

/-- The value of a set or of a list of pairs has no nodes in it. -/
theorem filled_of_other {collections : List Node} (htag : isCollectionTag (d.tagOf n) = true)
    (hsequence : d.tagOf n ≠ Tag.sequence) (hmapping : d.tagOf n ≠ Tag.mapping) : d.Filled collections n :=
  ⟨.other, by simp [value, htag, hsequence, hmapping, pure, Except.pure], List.forall_mem_nil _⟩

/-- Looking at the contents of a collection meets the nodes in its value. -/
theorem filled_surveyContents (hsurvey : d.surveyContents s n = .ok s') (hkept : d.Kept done s) :
    d.Onward done s s' ∧ (isCollectionTag (d.tagOf n) = true → d.Filled (done ++ s'.later) n) := by
  unfold surveyContents at hsurvey
  dsimp only at hsurvey
  split at hsurvey
  case isTrue hkind =>
    obtain ⟨pairs, hpairs, hfold⟩ := bind_eq_ok_iff.mp hsurvey
    obtain ⟨honward, hmet⟩ := onward_pairs hfold hkept
    refine ⟨honward, fun htag => ?_⟩
    by_cases hmapping : d.tagOf n = Tag.mapping
    · have hne : Tag.mapping ≠ Tag.sequence := by decide
      exact ⟨.entries pairs, by simp [value, hmapping, hne, hpairs, bind, Except.bind, pure, Except.pure], hmet⟩
    · have hset : d.tagOf n = Tag.set := by simpa [hmapping] using hkind
      refine filled_of_other htag ?_ hmapping
      rw [hset]
      decide
  case isFalse hkind =>
    have hmapping : d.tagOf n ≠ Tag.mapping := fun h => hkind (by simp [h])
    split at hsurvey
    case h_2 => cases hsurvey
    case h_1 items hresolve =>
      split at hsurvey
      case isTrue hsequence =>
        obtain ⟨honward, hmet⟩ := Onward.foldlM hsurvey hkept onward_survey Onward.met
        exact ⟨honward, fun _ => ⟨.items items, by simp [value, hsequence, hresolve, pure, Except.pure], hmet⟩⟩
      case isFalse hsequence =>
        refine ⟨(Onward.foldlM (p := fun _ _ => True) hsurvey hkept (fun hitem hkept => ?_) fun _ => id).1,
          fun htag => filled_of_other htag hsequence hmapping⟩
        obtain ⟨pair, _, hitem⟩ := bind_eq_ok_iff.mp hitem
        obtain ⟨next, hnext, hitem⟩ := bind_eq_ok_iff.mp hitem
        have honward := (onward_survey hnext hkept).1
        exact ⟨honward.trans (onward_survey hitem (honward.kept hkept)).1, trivial⟩

/-! ## All levels -/

/-- Once the levels end, the collections that were met are closed: what stands in them was met. -/
theorem closed_of_surveyLevels {fuel : Nat} (hlevels : d.surveyLevels fuel s = .ok ()) (hkept : d.Kept done s)
    (hlater : ∀ n ∈ s.later, isCollectionTag (d.tagOf n) = true) (hdone : ∀ n ∈ done, d.Filled (done ++ s.later) n) :
    ∃ collections, done ++ s.later ⊆ collections ∧ ∀ n ∈ collections, d.Filled collections n := by
  induction fuel generalizing done s with
  | zero => cases hlevels
  | succ fuel ih =>
    rw [surveyLevels] at hlevels
    by_cases hend : s.later.isEmpty
    case pos =>
      rw [List.isEmpty_iff] at hend
      rw [hend, List.append_nil] at hdone ⊢
      exact ⟨done, List.Subset.refl _, hdone⟩
    case neg =>
      simp only [hend] at hlevels
      obtain ⟨next, hfold, hlevels⟩ := bind_eq_ok_iff.mp hlevels
      -- What waited counts as looked at from here on.
      have hkept : d.Kept (done ++ s.later) ⟨s.seen, []⟩ := by
        intro name hname
        rw [List.append_nil]
        exact hkept name hname
      obtain ⟨honward, hfilled⟩ := Onward.foldlM hfold hkept filled_surveyContents fun h hx htag => h.filled (hx htag)
      have hdone : ∀ n ∈ done ++ s.later, d.Filled (done ++ s.later ++ next.later) n := by
        intro n hn
        rcases List.mem_append.mp hn with hn | hn
        · exact (hdone n hn).mono (List.subset_append_left _ _)
        · exact hfilled n hn (hlater n hn)
      obtain ⟨collections, hsub, hclosed⟩ := ih hlevels (honward.kept hkept)
        (fun n hn => (honward.waits n hn).resolve_left List.not_mem_nil) hdone
      exact ⟨collections, List.Subset.trans (List.subset_append_left _ _) hsub, hclosed⟩

/-- Every node that the root of a valid document leads to has a value. -/
theorem Reaches.value_of_check (hcheck : d.check = .ok ()) (hn : d.Reaches n) : ∃ v, d.value n = .ok v := by
  obtain ⟨s, hsurvey, hlevels⟩ := bind_eq_ok_iff.mp hcheck
  have hkept : d.Kept [] ⟨[], []⟩ := List.forall_mem_nil _
  obtain ⟨honward, hroot⟩ := onward_survey hsurvey hkept
  obtain ⟨collections, hsub, hclosed⟩ := closed_of_surveyLevels hlevels (honward.kept hkept)
    (fun n hn => (honward.waits n hn).resolve_left List.not_mem_nil) (List.forall_mem_nil _)
  exact hn.value_of_closed (hroot.mono hsub) hclosed

end Document
end Yaml
end ClassAtlas
