import ClassAtlas.Text.Pattern
import Mathlib.Tactic.Conv
/-!
# What patterns take

A pattern that matches at a place leads on to a later place. What lies between is the text that it takes.
-/
namespace ClassAtlas.Text.Pattern

variable {p : Char → Bool} {a b : Pattern} {s t : Place} {before : Option Char} {rest captured : List Char} {m : Found}

/-! ## One step of a search -/

section Steps

variable {β : Type}

theorem run_one_cons (p : Char → Bool) (before : Option Char) (c : Char) (rest captured : List Char)
    (next : Place → Option β) :
    (one p).run ⟨before, c :: rest, captured⟩ next = if p c then next ⟨some c, rest, captured⟩ else none := rfl

theorem runMany_cons (p : Char → Bool) (captured : List Char) (next : Place → Option β) (before : Option Char)
    (c : Char) (rest : List Char) :
    runMany p captured next before (c :: rest) =
      if p c then (runMany p captured next (some c) rest).or (next ⟨before, c :: rest, captured⟩)
      else next ⟨before, c :: rest, captured⟩ := by
  conv_lhs => whnf
  cases runMany p captured next (some c) rest <;> rfl

theorem run_seq (a b : Pattern) (s : Place) (next : Place → Option β) :
    (seq a b).run s next = a.run s fun t => b.run t next := rfl

/-- The right alternative is for where the left one fails. -/
theorem run_alt (a b : Pattern) (s : Place) (next : Place → Option β) :
    (alt a b).run s next = (a.run s next).or (b.run s next) := by
  conv_lhs => whnf
  cases a.run s next <;> rfl

theorem run_lineStart (s : Place) (next : Place → Option β) :
    lineStart.run s next = if s.before = none ∨ s.before = some '\n' then next s else none := rfl

theorem run_wordEdge (s : Place) (next : Place → Option β) :
    wordEdge.run s next = if s.before.any isWordChar != s.rest.head?.any isWordChar then next s else none := rfl

theorem findFrom_cons (a : Pattern) (before : Option Char) (c : Char) (rest : List Char) :
    a.findFrom before (c :: rest) = (a.matchAt before (c :: rest)).or (a.findFrom (some c) rest) := by
  conv_lhs => whnf
  cases a.matchAt before (c :: rest) <;> rfl

end Steps

/-! ## Ways to match -/

/-- The ways to match, in no order of preference. -/
inductive Takes : Pattern → Place → Place → Prop where
  | empty (s : Place) : Takes .empty s s
  | one {p : Char → Bool} {c : Char} (hc : p c = true) (before : Option Char) (rest captured : List Char) :
      Takes (.one p) ⟨before, c :: rest, captured⟩ ⟨some c, rest, captured⟩
  | many {p : Char → Bool} {taken : List Char} (htaken : ∀ c ∈ taken, p c = true) (before : Option Char)
      (rest captured : List Char) :
      Takes (.many p) ⟨before, taken ++ rest, captured⟩ ⟨taken.getLast?.or before, rest, captured⟩
  | seq {a b : Pattern} {s t u : Place} (first : Takes a s t) (second : Takes b t u) : Takes (.seq a b) s u
  | left {a : Pattern} {s t : Place} (taken : Takes a s t) (b : Pattern) : Takes (.alt a b) s t
  | right {b : Pattern} {s t : Place} (a : Pattern) (taken : Takes b s t) : Takes (.alt a b) s t
  | capture {a : Pattern} {s t : Place} {taken : List Char} (inner : Takes a s t)
      (between : s.rest = taken ++ t.rest) : Takes (.capture a) s { t with captured := taken }
  | lineStart (s : Place) : Takes .lineStart s s
  | wordEdge (s : Place) : Takes .wordEdge s s

theorem Takes.exists_between (h : Takes a s t) : ∃ taken, s.rest = taken ++ t.rest := by
  induction h with
  | empty s => exact ⟨[], rfl⟩
  | one hc before rest captured => exact ⟨[_], rfl⟩
  | many htaken before rest captured => exact ⟨_, rfl⟩
  | seq first second ihFirst ihSecond =>
    obtain ⟨taken, hfirst⟩ := ihFirst
    obtain ⟨more, hsecond⟩ := ihSecond
    exact ⟨taken ++ more, by rw [hfirst, hsecond, List.append_assoc]⟩
  | left taken b ih => exact ih
  | right a taken ih => exact ih
  | capture inner between ih => exact ⟨_, between⟩
  | lineStart s => exact ⟨[], rfl⟩
  | wordEdge s => exact ⟨[], rfl⟩

theorem takes_of_runMany {β : Type} {next : Place → Option β} {r : β}
    (h : runMany p captured next before rest = some r) :
    ∃ t, Takes (.many p) ⟨before, rest, captured⟩ t ∧ next t = some r := by
  have hnone : ∀ (before : Option Char) (rest : List Char),
      Takes (.many p) ⟨before, rest, captured⟩ ⟨before, rest, captured⟩ := by
    intro before rest
    simpa using @Takes.many p [] (by simp) before rest captured
  induction rest generalizing before with
  | nil => exact ⟨_, hnone before [], h⟩
  | cons c cs ih =>
    rw [runMany_cons] at h
    split at h
    case isTrue hc =>
      cases hmore : runMany p captured next (some c) cs with
      | none =>
        rw [hmore] at h
        exact ⟨_, hnone before (c :: cs), h⟩
      | some r' =>
        rw [hmore] at h
        obtain rfl := Option.some.inj h
        obtain ⟨t, htakes, hnext⟩ := ih hmore
        refine ⟨t, ?_, hnext⟩
        -- The run that goes on after the character is one longer from before it.
        cases htakes with
        | many htaken _ rest _ =>
          have hlonger := Takes.many (p := p) (List.forall_mem_cons.mpr ⟨hc, htaken⟩) before rest captured
          simpa [List.getLast?_cons] using hlonger
    case isFalse => exact ⟨_, hnone before (c :: cs), h⟩

/-- A match goes one of the ways. -/
theorem takes_of_run {β : Type} {next : Place → Option β} {r : β} (h : a.run s next = some r) :
    ∃ t, Takes a s t ∧ next t = some r := by
  induction a generalizing s next with
  | empty => exact ⟨s, .empty s, h⟩
  | one p =>
    obtain ⟨before, rest, captured⟩ := s
    cases rest with
    | nil => cases h
    | cons c cs =>
      rw [run_one_cons] at h
      split at h
      case isTrue hc => exact ⟨_, .one hc before cs captured, h⟩
      case isFalse => cases h
  | many p => exact takes_of_runMany h
  | seq a b iha ihb =>
    obtain ⟨t, hfirst, hrest⟩ := iha h
    obtain ⟨u, hsecond, hnext⟩ := ihb hrest
    exact ⟨u, .seq hfirst hsecond, hnext⟩
  | alt a b iha ihb =>
    rw [run_alt] at h
    cases hleft : a.run s next with
    | some r' =>
      rw [hleft] at h
      obtain rfl := Option.some.inj h
      obtain ⟨t, htakes, hnext⟩ := iha hleft
      exact ⟨t, .left htakes b, hnext⟩
    | none =>
      rw [hleft] at h
      obtain ⟨t, htakes, hnext⟩ := ihb h
      exact ⟨t, .right a htakes, hnext⟩
  | capture a ih =>
    obtain ⟨t, htakes, hnext⟩ := ih h
    obtain ⟨taken, hbetween⟩ := htakes.exists_between
    have hlength : s.rest.take (s.rest.length - t.rest.length) = taken := by
      rw [hbetween, List.length_append, Nat.add_sub_cancel, List.take_left]
    rw [hlength] at hnext
    exact ⟨_, .capture htakes hbetween, hnext⟩
  | lineStart =>
    rw [run_lineStart] at h
    split at h
    case isTrue => exact ⟨s, .lineStart s, h⟩
    case isFalse => cases h
  | wordEdge =>
    rw [run_wordEdge] at h
    split at h
    case isTrue => exact ⟨s, .wordEdge s, h⟩
    case isFalse => cases h

/-- A run that takes a character takes only characters that satisfy its test. -/
theorem Takes.many1 (h : Takes (many1 p) s t) :
    ∃ taken, s.rest = taken ++ t.rest ∧ taken ≠ [] ∧ ∀ c ∈ taken, p c = true := by
  cases h with
  | seq first second =>
    cases first with
    | @one _ c hc before rest captured =>
      cases second with
      | @many _ taken htaken _ rest _ =>
        exact ⟨c :: taken, rfl, List.cons_ne_nil _ _, List.forall_mem_cons.mpr ⟨hc, htaken⟩⟩

/-! ## Reading off what was taken -/

theorem takes_append {u : Place} (h : Takes (a ++ b) s u) : ∃ t, Takes a s t ∧ Takes b t u := by
  cases h with
  | seq first second => exact ⟨_, first, second⟩

theorem Takes.char {c : Char} (h : Takes (char c) s t) : s.rest = c :: t.rest := by
  cases h with
  | one hc before rest captured => rw [eq_of_beq hc]

theorem Takes.word {w : String} (h : Takes (word w) s t) : s.rest = w.toList ++ t.rest := by
  unfold Pattern.word at h
  generalize w.toList = cs at h ⊢
  induction cs generalizing s with
  | nil =>
    cases h
    rfl
  | cons c cs ih =>
    cases h with
    | seq first second => rw [first.char, ih second, List.cons_append]

theorem Takes.run (h : Takes (.many p) s t) : ∃ taken, s.rest = taken ++ t.rest ∧ ∀ c ∈ taken, p c = true := by
  cases h with
  | many htaken before rest captured => exact ⟨_, rfl, htaken⟩

theorem Takes.opt (h : Takes (opt a) s t) : Takes a s t ∨ t = s := by
  cases h with
  | left taken => exact .inl taken
  | right _ taken =>
    cases taken
    exact .inr rfl

/-! ## Captured text -/

/-- A captured run is not empty, and its characters satisfy the test. -/
def Captured (p : Char → Bool) (cs : List Char) : Prop := cs ≠ [] ∧ ∀ c ∈ cs, p c = true

theorem captured_of_takes (h : Takes (.capture (many1 p)) s t) : Captured p t.captured := by
  cases h with
  | capture inner between =>
    obtain ⟨taken, hbetween, hne, hall⟩ := inner.many1
    rw [between] at hbetween
    rw [List.append_cancel_right hbetween]
    exact ⟨hne, hall⟩

/-- A pattern that captures a run last has captured it wherever it matches. -/
theorem captured_of_matchAt (h : (a ++ capture (many1 p)).matchAt before rest = some m) : Captured p m.captured := by
  obtain ⟨t, htakes, hfound⟩ := takes_of_run h
  obtain rfl := Option.some.inj hfound
  cases htakes with
  | seq _ second => exact captured_of_takes second

theorem matchAt_of_find? {text : List Char} (h : a.find? text = some m) :
    ∃ before rest, a.matchAt before rest = some m := by
  have hfrom : ∀ before rest, a.findFrom before rest = some m → ∃ before rest, a.matchAt before rest = some m := by
    intro before rest hfind
    induction rest generalizing before with
    | nil => exact ⟨before, [], hfind⟩
    | cons c cs ih =>
      rw [findFrom_cons] at hfind
      cases hhere : a.matchAt before (c :: cs) with
      | some found =>
        rw [hhere] at hfind
        exact ⟨before, c :: cs, hhere.trans hfind⟩
      | none =>
        rw [hhere] at hfind
        exact ih _ hfind
  exact hfrom none text h

theorem captured_of_find? {text : List Char} (h : (a ++ capture (many1 p)).find? text = some m) :
    Captured p m.captured := by
  obtain ⟨before, rest, hmatch⟩ := matchAt_of_find? h
  exact captured_of_matchAt hmatch

end ClassAtlas.Text.Pattern
