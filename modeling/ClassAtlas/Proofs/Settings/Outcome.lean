import ClassAtlas.Proofs.Number.Rounding
import ClassAtlas.Proofs.Settings.Failing
/-!
# Numbers that settings cannot hold

In a valid text only whole numbers keep settings from being read: a time limit that is too large for a floating point
number, and a number of too many digits where a text is asked for. A time limit that is read is above zero.
-/
namespace ClassAtlas

/-- A time limit above zero. -/
def Seconds.IsPositive : Seconds → Prop
  | .whole n => 0 < n
  | .real x => x.isPositive = true

namespace Numeral

/-- A whole number of more digits than are written. -/
structure IsLong (n : Int) : Prop where
  digits : Nat.pow 10 maxDigits ≤ n.natAbs

theorem writeWhole_of_isLong {n : Int} (hn : IsLong n) : writeWhole n = .error .manyDigitsWritten :=
  if_neg (Nat.not_lt.mpr hn.digits)

theorem writeWhole_of_not_isLong {n : Int} (hn : ¬ IsLong n) : writeWhole n = .ok (Int.repr n) :=
  if_pos (Nat.lt_of_not_le fun h => hn ⟨h⟩)

end Numeral

namespace Settings

open ClassAtlas.Action Yaml Numeral

section Ends
variable {α β : Type} {p p' : Prop} {q : α → Prop} {x : Except Failure α}

/-- A result that fails at a single value exactly when `p` holds, and that satisfies `q` otherwise. -/
inductive Ends (p : Prop) (q : α → Prop) : Except Failure α → Prop
  | ok {v : α} (without : ¬ p) (result : q v) : Ends p q (.ok v)
  | error {f : Failure} (value : isOfValue f = true) (breaks : p) : Ends p q (.error f)

theorem Ends.mono {q' : α → Prop} (hx : Ends p q x) (hp : p ↔ p') (hq : ∀ v, q v → q' v) : Ends p' q' x := by
  cases hx with
  | ok without result => exact .ok (fun h => without (hp.mpr h)) (hq _ result)
  | error value breaks => exact .error value (hp.mp breaks)

theorem Ends.bind {f : α → Except Failure β} {q' : β → Prop} (hx : Ends p q x) (hf : ∀ v, q v → Ends p' q' (f v)) :
    Ends (p ∨ p') q' (x >>= f) := by
  cases hx with
  | error value breaks => exact .error value (.inl breaks)
  | @ok v without result => exact (hf v result).mono ⟨.inr, fun h => h.resolve_left without⟩ fun _ => id

theorem ends_ok {v : α} (hv : q v) : Ends False q (.ok v) := .ok id hv

theorem ends_mapM {f : β → Except Failure α} {r : β → Prop} {bs : List β}
    (hf : ∀ b ∈ bs, Ends (r b) (fun _ => True) (f b)) : Ends (∃ b ∈ bs, r b) (fun _ => True) (bs.mapM f) := by
  induction bs with
  | nil => exact (ends_ok trivial).mono (by simp) fun _ => id
  | cons b bs ih =>
    obtain ⟨hb, hbs⟩ := List.forall_mem_cons.mp hf
    rw [List.mapM_cons]
    refine (hb.bind fun v _ => (ih hbs).bind fun vs _ => ends_ok trivial).mono ?_ fun _ => id
    simp

end Ends

/-! ## Single values -/

variable {v : Value}

/-- A value that is no whole number has no number in it to fail at. -/
theorem ends_of_not_whole {α : Type} {q : α → Prop} {r : Int → Prop} {result : α} (hv : ∀ n, v ≠ .whole n)
    (hresult : q result) : Ends (∃ n, v = .whole n ∧ r n) q (.ok result) :=
  .ok (fun ⟨n, hn, _⟩ => hv n hn) hresult

theorem ends_text? (v : Value) : Ends (∃ n, v = .whole n ∧ IsLong n) (fun _ => True) (text? v) := by
  unfold text?
  split
  case h_1 => exact ends_of_not_whole (fun _ => Value.noConfusion) trivial
  case h_2 n =>
    by_cases hlong : IsLong n
    · rw [writeWhole_of_isLong hlong]
      exact .error rfl ⟨n, rfl, hlong⟩
    · rw [writeWhole_of_not_isLong hlong]
      refine .ok ?_ trivial
      rintro ⟨m, hm, hlong'⟩
      cases hm
      exact hlong hlong'
  case h_3 => exact ends_of_not_whole (fun _ => Value.noConfusion) trivial
  case h_4 hwhole _ => exact ends_of_not_whole hwhole trivial

theorem ends_itemText? (v : Value) : Ends (∃ n, v = .whole n ∧ IsLong n) (fun _ => True) (itemText? v) := by
  unfold itemText?
  split
  · exact ends_of_not_whole (fun _ => Value.noConfusion) trivial
  · exact ends_text? v

theorem isPositive_of_limitOf {x : Binary64} : ∀ l ∈ limitOf x, l.IsPositive := by
  intro l hl
  unfold limitOf at hl
  split at hl
  · obtain rfl := Option.some.inj hl
    assumption
  · cases hl

theorem isPositive_of_defaultLimit : ∀ l ∈ defaultLimit, l.IsPositive := by
  intro l hl
  obtain rfl := Option.some.inj hl
  exact (Binary64.ofInt_of_pos (n := 30) (by decide)).1

/-- A limit fails to be read when it is too large, and is above zero otherwise. -/
theorem ends_limit (v : Value) :
    Ends (∃ n : Int, v = .whole n ∧ Binary64.tooLarge ≤ n) (fun l => ∀ x ∈ l, x.IsPositive) (limit v) := by
  unfold limit
  split
  case h_1 n =>
    split
    case isTrue hn =>
      refine .ok ?_ fun x hx => by cases hx
      rintro ⟨m, hm, hlarge⟩
      cases hm
      have hpos := Binary64.tooLarge_pos
      omega
    case isFalse hn =>
      obtain ⟨hlarge, hpositive⟩ := realOfWhole?_of_pos (Int.not_le.mp hn)
      cases hx : realOfWhole? n with
      | none => exact .error rfl ⟨n, rfl, hlarge.mp hx⟩
      | some x =>
        refine .ok ?_ fun l hl => ?_
        · rintro ⟨m, hm, hlarge'⟩
          cases hm
          cases hx.symm.trans (hlarge.mpr hlarge')
        · obtain rfl := Option.some.inj hl
          exact hpositive x hx
  case h_2 => exact ends_of_not_whole (fun _ => Value.noConfusion) isPositive_of_limitOf
  case h_3 =>
    split
    · exact ends_of_not_whole (fun _ => Value.noConfusion) isPositive_of_limitOf
    · exact ends_of_not_whole (fun _ => Value.noConfusion) isPositive_of_defaultLimit
  case h_4 hwhole _ _ => exact ends_of_not_whole hwhole isPositive_of_defaultLimit

/-! ## Sections -/

variable {s t : Section} {name key : String}

namespace Section

/-- The section stands in a valid document. -/
structure Stands (s : Section) : Prop where
  valid : s.document.check = .ok ()
  reached : ∀ pair ∈ s.pairs, s.document.Reaches pair.2

/-- A setting is given, with a value. -/
def Has (s : Section) (name : String) (v : Value) : Prop :=
  ∃ n, s.document.find? name s.pairs = some n ∧ s.document.value n = .ok v

/-- A setting is given in the mapping under a name. -/
def HasInside (s : Section) (outer name : String) (v : Value) : Prop :=
  ∃ pairs, s.Has outer (.entries pairs) ∧ Has { s with pairs } name v

/-- An item of the list in a setting is a number of too many digits. -/
def HasLongItem (s : Section) (name : String) : Prop :=
  ∃ nodes, s.Has name (.items nodes) ∧ ∃ node ∈ nodes, ∃ n, s.document.value node = .ok (.whole n) ∧ IsLong n

/-- The section has the settings that are given in the mapping under a name. -/
structure IsInner (s : Section) (outer : String) (t : Section) : Prop where
  stands : t.Stands
  has : ∀ name v, t.Has name v ↔ s.HasInside outer name v

theorem Has.unique {w : Value} (hv : s.Has name v) (hw : s.Has name w) : v = w := by
  obtain ⟨n, hn, hv⟩ := hv
  obtain ⟨m, hm, hw⟩ := hw
  cases hn.symm.trans hm
  cases hv.symm.trans hw
  rfl

theorem mem_of_find? {d : Document} {pairs : List (Yaml.Node × Yaml.Node)} {n : Yaml.Node}
    (hn : d.find? name pairs = some n) : ∃ pair ∈ pairs, pair.2 = n := by
  obtain ⟨pair, hpair, hsame⟩ := Option.map_eq_some_iff.mp hn
  exact ⟨pair, List.mem_of_mem_filter (List.mem_of_getLast? hpair), hsame⟩

/-- The document leads to what stands in a setting. -/
theorem Has.reaches (hs : s.Stands) (hv : s.Has name v) {m : Yaml.Node} (hm : m ∈ v.nodes) :
    s.document.Reaches m := by
  obtain ⟨n, hn, hvalue⟩ := hv
  obtain ⟨pair, hpair, rfl⟩ := mem_of_find? hn
  exact .inside (hs.reached pair hpair) hvalue hm

theorem value?_cases (hs : s.Stands) (name : String) : (s.value? name = .ok none ∧ ∀ v, ¬ s.Has name v) ∨
    ∃ v, s.value? name = .ok (some v) ∧ s.Has name v := by
  unfold value? Has
  cases hn : s.document.find? name s.pairs with
  | none => exact .inl ⟨rfl, fun v ⟨n, hother, _⟩ => by cases hother⟩
  | some n =>
    obtain ⟨pair, hpair, rfl⟩ := mem_of_find? hn
    obtain ⟨v, hv⟩ := (hs.reached pair hpair).value_of_check hs.valid
    refine .inr ⟨v, ?_, pair.2, rfl, hv⟩
    dsimp only
    rw [hv]

theorem value_cases (hs : s.Stands) (name : String) : (s.value name = .ok .null ∧ ∀ v, ¬ s.Has name v) ∨
    ∃ v, s.value name = .ok v ∧ s.Has name v := by
  rw [value]
  refine (value?_cases hs name).imp (And.imp_left fun hvalue => ?_) (Exists.imp fun v => And.imp_left fun hvalue => ?_)
  · rw [hvalue]
    rfl
  · rw [hvalue]
    rfl

/-- What is done with the value of a setting ends as it does for that value; nothing is done where there is none. -/
theorem ends_value {α : Type} {q : α → Prop} {r : Value → Prop} {f : Value → Except Failure α} (hs : s.Stands)
    (name : String) (hf : ∀ v, Ends (r v) q (f v)) (hnull : ¬ r .null) :
    Ends (∃ v, s.Has name v ∧ r v) q (s.value name >>= f) := by
  rcases value_cases hs name with ⟨hvalue, hnone⟩ | ⟨v, hvalue, hv⟩
  · rw [hvalue]
    exact (hf .null).mono ⟨fun h => absurd h hnull, fun ⟨v, hv, _⟩ => absurd hv (hnone v)⟩ fun _ => id
  · rw [hvalue]
    refine (hf v).mono ⟨fun h => ⟨v, hv, h⟩, ?_⟩ fun _ => id
    rintro ⟨w, hw, hr⟩
    rwa [hv.unique hw]

theorem ends_text (hs : s.Stands) (name : String) :
    Ends (∃ n, s.Has name (.whole n) ∧ IsLong n) (fun _ => True) (s.text name) := by
  refine (ends_value hs name ends_text? (by simp)).mono ⟨?_, ?_⟩ fun _ => id
  · rintro ⟨_, hv, n, rfl, hn⟩
    exact ⟨n, hv, hn⟩
  · rintro ⟨n, hv, hn⟩
    exact ⟨_, hv, n, rfl, hn⟩

/-- The mapping under a name stands in the same document; where there is none nothing is given. -/
theorem ends_inner (hs : s.Stands) (name : String) :
    Ends False (s.IsInner name) (s.inner name) := by
  have hempty : (∀ pairs, ¬ s.Has name (.entries pairs)) → s.IsInner name { s with pairs := [] } := by
    intro hnone
    refine ⟨⟨hs.valid, List.forall_mem_nil _⟩, fun key v => ⟨?_, ?_⟩⟩
    · rintro ⟨n, hn, _⟩
      cases hn
    · rintro ⟨pairs, hpairs, _⟩
      exact absurd hpairs (hnone pairs)
  rw [inner]
  rcases value_cases hs name with ⟨hvalue, hnone⟩ | ⟨v, hvalue, hv⟩
  · rw [hvalue]
    exact ends_ok (hempty fun pairs => hnone _)
  · rw [hvalue]
    cases v with
    | entries pairs =>
      refine ends_ok ⟨⟨hs.valid, fun pair hpair => ?_⟩, fun key v => ⟨fun h => ⟨pairs, hv, h⟩, ?_⟩⟩
      · exact hv.reaches hs (List.mem_map_of_mem hpair)
      · rintro ⟨others, hothers, h⟩
        cases hv.unique hothers
        exact h
    | _ => exact ends_ok (hempty fun pairs hpairs => by cases hv.unique hpairs)

theorem ends_patternList (hs : s.Stands) (name : String) (fallback : List String) :
    Ends (s.HasLongItem name) (fun _ => True) (s.patternList name fallback) := by
  have hother : ∀ {v} {result : List String}, s.Has name v → (∀ nodes, v ≠ .items nodes) →
      Ends (s.HasLongItem name) (fun _ => True) (.ok result) := by
    intro v result hv hne
    exact .ok (fun ⟨nodes, hnodes, _⟩ => hne nodes (hv.unique hnodes)) trivial
  rw [patternList]
  rcases value?_cases hs name with ⟨hvalue, hnone⟩ | ⟨v, hvalue, hv⟩
  · rw [hvalue]
    exact .ok (fun ⟨nodes, hnodes, _⟩ => hnone _ hnodes) trivial
  · rw [hvalue]
    change Ends _ _ (patterns s.document.value s.file v)
    unfold patterns
    split
    case h_1 => exact hother hv fun _ => Value.noConfusion
    case h_2 => exact hother hv fun _ => Value.noConfusion
    case h_4 hne => exact hother hv hne
    case h_3 nodes =>
      refine ((ends_mapM (r := fun node => ∃ n, s.document.value node = .ok (.whole n) ∧ IsLong n) fun node hnode => ?_).bind
        fun items _ => ends_ok trivial).mono ?_ fun _ => id
      · obtain ⟨v, hvalue⟩ := (hv.reaches hs hnode).value_of_check hs.valid
        rw [hvalue]
        exact (ends_itemText? v).mono (by simp) fun _ => id
      · rw [or_false]
        refine ⟨fun h => ⟨nodes, hv, h⟩, ?_⟩
        rintro ⟨others, hothers, h⟩
        cases hv.unique hothers
        exact h

namespace IsInner

variable {outer : String}

theorem ends_text (ht : s.IsInner outer t) (name : String) :
    Ends (∃ n, s.HasInside outer name (.whole n) ∧ IsLong n) (fun _ => True) (t.text name) := by
  simpa only [ht.has] using Section.ends_text ht.stands name

theorem ends_value (ht : s.IsInner outer t) (name : String) : Ends False (fun _ => True) (t.value name) := by
  rcases value_cases ht.stands name with ⟨hvalue, _⟩ | ⟨v, hvalue, _⟩
  · rw [hvalue]
    exact ends_ok trivial
  · rw [hvalue]
    exact ends_ok trivial

/-- Settings that are made with a limit fail with it, and have it above zero otherwise. -/
theorem ends_limit (ht : s.IsInner outer t) (name : String) {make : Option Seconds → Settings}
    (hmake : ∀ l, (make l).history.limit = l) :
    Ends (∃ n : Int, s.HasInside outer name (.whole n) ∧ Binary64.tooLarge ≤ n)
      (fun settings => ∀ l ∈ settings.history.limit, l.IsPositive)
      (t.value name >>= fun v => limit v >>= fun l => .ok (make l)) := by
  have hlimit : ∀ v, Ends ((∃ n : Int, v = .whole n ∧ Binary64.tooLarge ≤ n) ∨ False)
      (fun settings => ∀ l ∈ settings.history.limit, l.IsPositive) (limit v >>= fun l => .ok (make l)) :=
    fun v => (Settings.ends_limit v).bind fun l hl => ends_ok (by rwa [hmake])
  refine (Section.ends_value ht.stands name hlimit ?_).mono ⟨?_, ?_⟩ fun _ => id
  · rintro (⟨n, hn, _⟩ | hfalse)
    · cases hn
    · exact hfalse
  · rintro ⟨_, hv, ⟨n, rfl, hlarge⟩ | hfalse⟩
    · exact ⟨n, (ht.has _ _).mp hv, hlarge⟩
    · exact hfalse.elim
  · rintro ⟨n, hv, hlarge⟩
    exact ⟨_, (ht.has _ _).mpr hv, .inl ⟨n, rfl, hlarge⟩⟩

end IsInner

/-- A number stands where no text or no limit can be made of it. -/
inductive Overfull (s : Section) : Prop where
  | item {name : String} (setting : name ∈ ["include", "exclude"]) (given : s.HasLongItem name) : Overfull s
  | output {n : Int} (given : s.Has "output" (.whole n)) (long : IsLong n) : Overfull s
  | about {name : String} {n : Int} (setting : name ∈ ["name", "description", "language"])
      (given : s.HasInside "project" name (.whole n)) (long : IsLong n) : Overfull s
  | limit {n : Int} (given : s.HasInside "git" "timeout" (.whole n)) (large : Binary64.tooLarge ≤ n) : Overfull s

/-- The settings in which a number can stand, in the order in which they are read. -/
theorem overfull_iff : s.Overfull ↔ s.HasLongItem "include" ∨ s.HasLongItem "exclude" ∨
    (∃ n, s.Has "output" (.whole n) ∧ IsLong n) ∨ (∃ n, s.HasInside "project" "name" (.whole n) ∧ IsLong n) ∨
    (∃ n, s.HasInside "project" "description" (.whole n) ∧ IsLong n) ∨
    (∃ n, s.HasInside "project" "language" (.whole n) ∧ IsLong n) ∨
    ∃ n : Int, s.HasInside "git" "timeout" (.whole n) ∧ Binary64.tooLarge ≤ n := by
  constructor
  · rintro (⟨hsetting, hgiven⟩ | ⟨hgiven, hlong⟩ | ⟨hsetting, hgiven, hlong⟩ | ⟨hgiven, hlarge⟩)
    · simp only [List.mem_cons, List.not_mem_nil, or_false] at hsetting
      rcases hsetting with rfl | rfl
      · exact .inl hgiven
      · exact .inr (.inl hgiven)
    · exact .inr (.inr (.inl ⟨_, hgiven, hlong⟩))
    · simp only [List.mem_cons, List.not_mem_nil, or_false] at hsetting
      rcases hsetting with rfl | rfl | rfl
      · exact .inr (.inr (.inr (.inl ⟨_, hgiven, hlong⟩)))
      · exact .inr (.inr (.inr (.inr (.inl ⟨_, hgiven, hlong⟩))))
      · exact .inr (.inr (.inr (.inr (.inr (.inl ⟨_, hgiven, hlong⟩)))))
    · exact .inr (.inr (.inr (.inr (.inr (.inr ⟨_, hgiven, hlarge⟩)))))
  · rintro (h | h | ⟨n, h, hlong⟩ | ⟨n, h, hlong⟩ | ⟨n, h, hlong⟩ | ⟨n, h, hlong⟩ | ⟨n, h, hlarge⟩)
    · exact .item (by simp) h
    · exact .item (by simp) h
    · exact .output h hlong
    · exact .about (by simp) h hlong
    · exact .about (by simp) h hlong
    · exact .about (by simp) h hlong
    · exact .limit h hlarge

end Section

/-- A section of a valid document gives settings, unless a number stands where none can be held. -/
theorem ends_ofSection (hs : s.Stands) (root : Path) :
    Ends s.Overfull (fun settings => ∀ l ∈ settings.history.limit, l.IsPositive) (ofSection root s) := by
  refine ((Section.ends_patternList hs _ _).bind fun _ _ => (Section.ends_patternList hs _ _).bind fun _ _ =>
    (Section.ends_text hs _).bind fun _ _ => (Section.ends_inner hs _).bind fun about habout =>
    (habout.ends_text _).bind fun _ _ => (habout.ends_text _).bind fun _ _ => (habout.ends_text _).bind fun _ _ =>
    (Section.ends_inner hs _).bind fun history hhistory => (hhistory.ends_value _).bind fun _ _ =>
    hhistory.ends_limit _ fun _ => rfl).mono ?_ fun _ => id
  rw [Section.overfull_iff]
  simp only [false_or]

/-! ## Texts -/

variable {file : String} {root : Path} {text : List Char} {settings : Settings} {f : Failure}

/-- What the text of the settings says has a value, or the text is malformed. -/
def HasValueOrFault (text : List Char) : Prop := ∀ fault, Document.read text = .error fault → ∃ what, fault = .malformed what

theorem check_of_read {d : Document} (hread : Document.read text = .ok (some d)) : d.check = .ok () := by
  obtain ⟨found, _, hread⟩ := bind_eq_ok_iff.mp hread
  cases found with
  | none => cases hread
  | some found =>
    obtain ⟨_, hcheck, hread⟩ := bind_eq_ok_iff.mp hread
    cases hread
    exact hcheck

theorem stands_of_mapping? (hmapping : mapping? file text = .ok (some s)) : s.Stands := by
  unfold mapping? at hmapping
  split at hmapping
  case isTrue => cases hmapping
  case isFalse =>
    split at hmapping
    case h_1 => cases hmapping
    case h_2 => cases hmapping
    case h_3 d hread =>
      split at hmapping
      case h_3 pairs hvalue =>
        cases hmapping
        exact ⟨check_of_read hread, fun pair hpair => .inside .root hvalue (List.mem_map_of_mem hpair)⟩
      all_goals cases hmapping

/-- A text without a mapping is told to be at fault. -/
theorem isSettings_of_mapping? (htext : HasValueOrFault text) (hmapping : mapping? file text = .error f) :
    f.isSettings = true := by
  unfold mapping? at hmapping
  split at hmapping
  case isTrue => cases hmapping
  case isFalse =>
    split at hmapping
    case h_1 fault hread =>
      cases hmapping
      obtain ⟨what, rfl⟩ := htext fault hread
      rfl
    case h_2 => cases hmapping
    case h_3 d hread =>
      obtain ⟨v, hv⟩ := Document.Reaches.root.value_of_check (check_of_read hread)
      rw [hv] at hmapping
      cases v <;> cases hmapping <;> rfl

/-- The settings of a text have no limit, or one above zero. -/
theorem isPositive_of_ofText (hgiven : ofText file root text = .ok settings) :
    ∀ l ∈ settings.history.limit, l.IsPositive := by
  rw [ofText_eq] at hgiven
  obtain ⟨sec, hsec, hgiven⟩ := bind_eq_ok_iff.mp hgiven
  cases sec with
  | none =>
    cases hgiven
    exact isPositive_of_defaultLimit
  | some sec =>
    have hends := ends_ofSection (stands_of_mapping? hsec) root
    have hgiven : ofSection root sec = .ok settings := hgiven
    rw [hgiven] at hends
    cases hends with
    | ok _ result => exact result

theorem isOfValue_of_isSettings (hf : f.isSettings = true) : isOfValue f = false := by
  cases f <;> first | rfl | cases hf

/-- A text fails at a single value exactly when a number stands in its mapping where none can be held. -/
theorem fails_at_value_iff (htext : HasValueOrFault text) :
    (∃ f, ofText file root text = .error f ∧ isOfValue f = true) ↔
      ∃ sec, mapping? file text = .ok (some sec) ∧ sec.Overfull := by
  rw [ofText_eq]
  constructor
  · rintro ⟨f, hf, hvalue⟩
    cases hmapping : mapping? file text with
    | error fault =>
      rw [hmapping] at hf
      cases hf
      cases hvalue.symm.trans (isOfValue_of_isSettings (isSettings_of_mapping? htext hmapping))
    | ok sec =>
      rw [hmapping] at hf
      cases sec with
      | none => cases hf
      | some sec =>
        have hends := ends_ofSection (stands_of_mapping? hmapping) root
        have hf : ofSection root sec = .error f := hf
        rw [hf] at hends
        cases hends with
        | error _ breaks => exact ⟨sec, rfl, breaks⟩
  · rintro ⟨sec, hsec, hover⟩
    have hends := ends_ofSection (stands_of_mapping? hsec) root
    rw [hsec]
    cases hf : ofSection root sec with
    | error f =>
      rw [hf] at hends
      cases hends with
      | error value _ => exact ⟨f, hf, value⟩
    | ok settings =>
      rw [hf] at hends
      cases hends with
      | ok without _ => exact absurd hover without

end Settings
end ClassAtlas
