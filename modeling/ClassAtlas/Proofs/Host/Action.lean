import ClassAtlas.Host.Basic
/-!
# Running actions

An action that is run on a host gives a result or a failure, and the host that it left. Logging
never fails.
-/
namespace ClassAtlas.Action

variable {α β : Type} {h next : Host}

/-- What an action gives and leaves. -/
def on (a : Action α) (h : Host) : Except Failure α × Host := a.run.run h

@[simp] theorem on_pure (v : α) (h : Host) : on (pure v) h = (.ok v, h) := rfl
@[simp] theorem on_throw (f : Failure) (h : Host) : on (throw f : Action α) h = (.error f, h) := rfl
@[simp] theorem on_get (h : Host) : on get h = (.ok h, h) := rfl
@[simp] theorem on_modify (f : Host → Host) (h : Host) : on (modify f) h = (.ok ⟨⟩, f h) := rfl

theorem on_bind (a : Action α) (f : α → Action β) (h : Host) : (a >>= f).on h =
    match a.on h with
    | (.ok v, next) => (f v).on next
    | (.error e, next) => (.error e, next) := by
  show ((a >>= f).run.run h) = _
  simp only [on, ExceptT.run_bind, StateT.run_bind]
  cases a.run.run h with
  | mk r next =>
    cases r with
    | ok v => rfl
    | error e => rfl

/-- An action that succeeds goes on with its result on the host that it left. -/
theorem on_bind_of_ok {a : Action α} {v : α} (ha : a.on h = (.ok v, next)) (f : α → Action β) :
    (a >>= f).on h = (f v).on next := by rw [on_bind, ha]

theorem on_bind_of_error {a : Action α} {e : Failure} (ha : a.on h = (.error e, next)) (f : α → Action β) :
    (a >>= f).on h = (.error e, next) := by rw [on_bind, ha]

theorem on_attempt (a : Action α) (h : Host) : (attempt a).on h = (.ok (a.on h).1, (a.on h).2) := rfl

/-- What an action in two steps gave, it gave in the second step after a first one that went well. -/
theorem bind_eq_ok {a : Action α} {f : α → Action β} {v : β} (hrun : (a >>= f).on h = (.ok v, next)) :
    ∃ u middle, a.on h = (.ok u, middle) ∧ (f u).on middle = (.ok v, next) := by
  rw [on_bind] at hrun
  cases hfirst : a.on h with
  | mk r middle =>
    rw [hfirst] at hrun
    cases r with
    | ok u => exact ⟨u, middle, rfl, hrun⟩
    | error e => cases hrun

/-- What follows an attempt goes on from its result or from its failure. -/
theorem attempt_bind_eq_ok {a : Action α} {f : Except Failure α → Action β} {v : β}
    (hrun : (attempt a >>= f).on h = (.ok v, next)) :
    (∃ u middle, a.on h = (.ok u, middle) ∧ (f (.ok u)).on middle = (.ok v, next)) ∨
      ∃ e middle, a.on h = (.error e, middle) ∧ (f (.error e)).on middle = (.ok v, next) := by
  rw [on_bind_of_ok (on_attempt a h)] at hrun
  cases hfirst : a.on h with
  | mk r middle =>
    rw [hfirst] at hrun
    cases r with
    | ok u => exact .inl ⟨u, middle, rfl, hrun⟩
    | error e => exact .inr ⟨e, middle, rfl, hrun⟩

/-- What failed in two steps failed in the first one, or in the second after a first one that went well. -/
theorem bind_eq_error {a : Action α} {f : α → Action β} {e : Failure} (hrun : (a >>= f).on h = (.error e, next)) :
    a.on h = (.error e, next) ∨ ∃ u middle, a.on h = (.ok u, middle) ∧ (f u).on middle = (.error e, next) := by
  rw [on_bind] at hrun
  cases hfirst : a.on h with
  | mk r middle =>
    rw [hfirst] at hrun
    cases r with
    | ok u => exact .inr ⟨u, middle, rfl, hrun⟩
    | error e' =>
      cases hrun
      exact .inl rfl

/-- What two steps gave, the first one gave by failing, or the second one. -/
theorem bind_cases {a : Action α} {f : α → Action β} {r : Except Failure β} (hrun : (a >>= f).on h = (r, next)) :
    (∃ e, a.on h = (.error e, next) ∧ r = .error e) ∨
      ∃ u middle, a.on h = (.ok u, middle) ∧ (f u).on middle = (r, next) := by
  cases r with
  | ok v => exact .inr (bind_eq_ok hrun)
  | error e =>
    rcases bind_eq_error hrun with hfirst | hrest
    · exact .inl ⟨e, hfirst, rfl⟩
    · exact .inr hrest

/-! ## Failing -/

/-- Every failure of the action satisfies `p`. -/
def FailsBy (p : Failure → Prop) (a : Action α) : Prop := ∀ h f next, a.on h = (.error f, next) → p f

section
variable {p : Failure → Prop}

theorem failsBy_pure (v : α) : FailsBy p (pure v) := by
  intro h f next hrun
  cases hrun

theorem failsBy_throw {f : Failure} (hf : p f) : FailsBy p (throw f : Action α) := by
  intro h g next hrun
  cases hrun
  exact hf

theorem FailsBy.bind {a : Action α} {f : α → Action β} (ha : FailsBy p a) (hf : ∀ v, FailsBy p (f v)) :
    FailsBy p (a >>= f) := by
  intro h e next hrun
  rcases bind_eq_error hrun with hfirst | ⟨v, middle, _, hrest⟩
  · exact ha h e next hfirst
  · exact hf v middle e next hrest

/-- What follows an attempt starts from its result, or from one of its failures. -/
theorem FailsBy.attempt_bind {q : Failure → Prop} {a : Action α} {f : Except Failure α → Action β} (ha : FailsBy q a)
    (hok : ∀ v, FailsBy p (f (.ok v))) (herror : ∀ e, q e → FailsBy p (f (.error e))) :
    FailsBy p (attempt a >>= f) := by
  intro h e next hrun
  rw [on_bind_of_ok (on_attempt a h)] at hrun
  rcases hfirst : a.on h with ⟨v | e', middle⟩
  · rw [hfirst] at hrun
    exact herror _ (ha h _ middle hfirst) middle e next hrun
  · rw [hfirst] at hrun
    exact hok _ middle e next hrun

theorem FailsBy.mono {q : Failure → Prop} {a : Action α} (ha : FailsBy p a) (hpq : ∀ f, p f → q f) : FailsBy q a :=
  fun h f next hrun => hpq f (ha h f next hrun)

end

/-! ## Asking -/

/-- The action leaves every host as it is. -/
def Asks (a : Action α) : Prop := ∀ h, (a.on h).2 = h

theorem asks_pure (v : α) : Asks (pure v) := fun _ => rfl
theorem asks_throw (f : Failure) : Asks (throw f : Action α) := fun _ => rfl
theorem asks_get : Asks (get : Action Host) := fun _ => rfl

theorem Asks.bind {a : Action α} {f : α → Action β} (ha : a.Asks) (hf : ∀ v, (f v).Asks) : Asks (a >>= f) := by
  intro h
  have hfirst := ha h
  rw [on_bind]
  cases hrun : a.on h with
  | mk r next =>
    rw [hrun] at hfirst
    obtain rfl : next = h := hfirst
    cases r with
    | ok v => exact hf v next
    | error e => rfl

theorem Asks.eq_of_ok {a : Action α} (ha : a.Asks) {v : α} (hrun : a.on h = (.ok v, next)) : next = h := by
  have hsame := ha h
  rwa [hrun] at hsame

/-- After a question that went well the rest goes on from the same host. -/
theorem Asks.bind_eq_ok {a : Action α} (ha : a.Asks) {f : α → Action β} {v : β}
    (hrun : (a >>= f).on h = (.ok v, next)) : ∃ u, a.on h = (.ok u, h) ∧ (f u).on h = (.ok v, next) := by
  obtain ⟨u, middle, hfirst, hrest⟩ := Action.bind_eq_ok hrun
  obtain rfl := ha.eq_of_ok hfirst
  exact ⟨u, hfirst, hrest⟩

theorem Asks.bind_eq_error {a : Action α} (ha : a.Asks) {f : α → Action β} {e : Failure}
    (hrun : (a >>= f).on h = (.error e, next)) :
    (a.on h = (.error e, next) ∧ next = h) ∨ ∃ u, a.on h = (.ok u, h) ∧ (f u).on h = (.error e, next) := by
  rcases Action.bind_eq_error hrun with hfirst | ⟨u, middle, hfirst, hrest⟩
  · have hsame := ha h
    rw [hfirst] at hsame
    exact .inl ⟨hfirst, hsame⟩
  · obtain rfl := ha.eq_of_ok hfirst
    exact .inr ⟨u, hfirst, hrest⟩

theorem Asks.bind_cases {a : Action α} (ha : a.Asks) {f : α → Action β} {r : Except Failure β}
    (hrun : (a >>= f).on h = (r, next)) : next = h ∨ ∃ u, a.on h = (.ok u, h) ∧ (f u).on h = (r, next) := by
  rcases Action.bind_cases hrun with ⟨e, hfirst, _⟩ | ⟨u, middle, hfirst, hrest⟩
  · have hsame := ha h
    rw [hfirst] at hsame
    exact .inl hsame
  · obtain rfl := ha.eq_of_ok hfirst
    exact .inr ⟨u, hfirst, hrest⟩

theorem Asks.attempt {a : Action α} (ha : a.Asks) : Asks (attempt a) := ha

/-! ## Keeping -/

/-- What holds of a host holds of it after the action too, whether that fails or not. -/
def Keeps (p : Host → Prop) (a : Action α) : Prop := ∀ h, p h → p (a.on h).2

section
variable {p : Host → Prop}

theorem keeps_modify {f : Host → Host} (hf : ∀ h, p h → p (f h)) : Keeps p (modify f) := hf

theorem Asks.keeps {a : Action α} (ha : a.Asks) : Keeps p a := by
  intro h hh
  rwa [ha h]

theorem Keeps.attempt {a : Action α} (ha : Keeps p a) : Keeps p (attempt a) := ha

theorem Keeps.bind {a : Action α} {f : α → Action β} (ha : Keeps p a) (hf : ∀ v, Keeps p (f v)) :
    Keeps p (a >>= f) := by
  intro h hh
  have hfirst := ha h hh
  rw [on_bind]
  cases hrun : a.on h with
  | mk r next =>
    rw [hrun] at hfirst
    cases r with
    | ok v => exact hf v next hfirst
    | error e => exact hfirst

theorem keeps_forM {γ : Type} {f : γ → Action Unit} (hf : ∀ x, Keeps p (f x)) (xs : List γ) :
    Keeps p (xs.forM f) := by
  induction xs with
  | nil => exact (asks_pure _).keeps
  | cons x xs ih => exact (hf x).bind fun _ => ih

theorem Keeps.of_eq {a : Action α} (ha : Keeps p a) {r : Except Failure α} (hh : p h) (hrun : a.on h = (r, next)) :
    p next := by
  have hkept := ha h hh
  rwa [hrun] at hkept

end

/-! ## Going well -/

/-- The action gives a result. -/
def Returns (a : Action α) (h : Host) : Prop := ∃ v next, a.on h = (.ok v, next)

theorem Returns.bind {a : Action α} {f : α → Action β} (ha : a.Returns h)
    (hf : ∀ v next, a.on h = (.ok v, next) → (f v).Returns next) : (a >>= f).Returns h := by
  obtain ⟨v, middle, hfirst⟩ := ha
  obtain ⟨w, next, hnext⟩ := hf v middle hfirst
  exact ⟨w, next, by rw [on_bind_of_ok hfirst, hnext]⟩

theorem returns_pure (v : α) (h : Host) : (pure v : Action α).Returns h := ⟨v, h, rfl⟩

/-- The action never fails, whatever host it is run on. -/
def Succeeds (a : Action Unit) : Prop := ∀ h, ∃ next, a.on h = (.ok (), next)

theorem Succeeds.returns {a : Action Unit} (ha : a.Succeeds) (h : Host) : a.Returns h := by
  obtain ⟨next, hnext⟩ := ha h
  exact ⟨(), next, hnext⟩

theorem Succeeds.failsBy {a : Action Unit} (ha : a.Succeeds) (p : Failure → Prop) : FailsBy p a := by
  intro h f next hrun
  obtain ⟨last, hlast⟩ := ha h
  rw [hlast] at hrun
  cases hrun

/-- The action fails with a failure that there is cause for. Without cause for any it gives a result. -/
def HingesOn (cause : Failure → Prop) (a : Action α) (h : Host) : Prop :=
  (a.Returns h ∧ ∀ f, ¬ cause f) ∨ ∃ f next, a.on h = (.error f, next) ∧ cause f

namespace HingesOn
variable {cause other : Failure → Prop} {a : Action α}

theorem congr (ha : HingesOn cause a h) (hsame : ∀ f, cause f ↔ other f) : HingesOn other a h := by
  obtain rfl : cause = other := funext fun f => propext (hsame f)
  exact ha

theorem bind {f : α → Action β} (ha : HingesOn cause a h)
    (hf : ∀ v next, a.on h = (.ok v, next) → HingesOn other (f v) next) :
    HingesOn (fun e => cause e ∨ other e) (a >>= f) h := by
  rcases ha with ⟨⟨v, middle, hfirst⟩, hnone⟩ | ⟨e, next, hfirst, hcause⟩
  · rcases hf v middle hfirst with ⟨⟨w, next, hrest⟩, hnone'⟩ | ⟨e, next, hrest, hcause⟩
    · exact .inl ⟨⟨w, next, by rw [on_bind_of_ok hfirst, hrest]⟩, fun e he => he.elim (hnone e) (hnone' e)⟩
    · exact .inr ⟨e, next, by rw [on_bind_of_ok hfirst, hrest], .inr hcause⟩
  · exact .inr ⟨e, next, by rw [on_bind, hfirst], .inl hcause⟩

/-- A step that gives a result adds no cause. -/
theorem of_returns {f : α → Action β} (ha : a.Returns h)
    (hf : ∀ v next, a.on h = (.ok v, next) → HingesOn cause (f v) next) : HingesOn cause (a >>= f) h := by
  have hfirst : HingesOn (fun _ => False) a h := .inl ⟨ha, fun _ => id⟩
  exact (hfirst.bind hf).congr fun _ => by rw [false_or]

theorem after {f : α → Action β} {v : α} (hfirst : a.on h = (.ok v, next)) (hrest : HingesOn cause (f v) next) :
    HingesOn cause (a >>= f) h := by
  refine of_returns ⟨v, next, hfirst⟩ fun _ _ hrun => ?_
  cases hfirst.symm.trans hrun
  exact hrest

/-- Nor does a step after which nothing can fail. -/
theorem then_returns {f : α → Action β} (ha : HingesOn cause a h) (hf : ∀ v next, (f v).Returns next) :
    HingesOn cause (a >>= f) h := by
  have hrest : ∀ v next, a.on h = (.ok v, next) → HingesOn (fun _ => False) (f v) next :=
    fun v next _ => .inl ⟨hf v next, fun _ => id⟩
  exact (ha.bind hrest).congr fun _ => by rw [or_false]

theorem failed {f : Failure} (ha : HingesOn cause a h) (hrun : a.on h = (.error f, next)) : cause f := by
  rcases ha with ⟨⟨v, last, hreturned⟩, _⟩ | ⟨e, last, hfailed, hcause⟩
  · rw [hrun] at hreturned
    cases hreturned
  · rw [hrun] at hfailed
    cases hfailed
    exact hcause

theorem returned {v : α} (ha : HingesOn cause a h) (hrun : a.on h = (.ok v, next)) (f : Failure) : ¬ cause f := by
  rcases ha with ⟨_, hnone⟩ | ⟨e, last, hfailed, _⟩
  · exact hnone f
  · rw [hrun] at hfailed
    cases hfailed

end HingesOn

theorem succeeds_modify (f : Host → Host) : Succeeds (modify f) := fun h => ⟨f h, rfl⟩

theorem Succeeds.bind {a b : Action Unit} (ha : a.Succeeds) (hb : b.Succeeds) :
    Succeeds (a >>= fun _ => b) := by
  intro h
  obtain ⟨middle, hmiddle⟩ := ha h
  obtain ⟨next, hnext⟩ := hb middle
  exact ⟨next, by rw [on_bind_of_ok hmiddle, hnext]⟩

theorem succeeds_forM {γ : Type} {f : γ → Action Unit} (hf : ∀ x, (f x).Succeeds) (xs : List γ) :
    Succeeds (xs.forM f) := by
  induction xs with
  | nil => exact fun h => ⟨h, rfl⟩
  | cons x xs ih => exact (hf x).bind ih

/-! ## Logging -/

theorem succeeds_deliver (r : LogRecord) (s : Sink) : Succeeds (deliver r s) := by
  cases s with
  | console n => exact succeeds_modify _
  | file n place =>
    cases place with
    | none => exact fun h => ⟨h, rfl⟩
    | some place => exact fun h => ⟨_, rfl⟩

/-- A record is noted and passed on to the sinks that take it. Where there are none a warning is shown. -/
theorem exists_on_log (logger : Option String) (level : Int) (message : String) (h : Host) :
    ∃ delivered,
      ((h.logging.sinksFor level).forM (deliver ⟨level, LogRecord.loggerName logger, message⟩)).on
          { h with journal := h.journal ++ [⟨level, LogRecord.loggerName logger, message⟩] } = (.ok (), delivered) ∧
      (log logger level message).on h =
        (if h.logging.sinks.isEmpty && h.logging.propagate && level ≥ LogRecord.warning then
          printError (message ++ "\n") else pure ()).on delivered := by
  let r : LogRecord := ⟨level, LogRecord.loggerName logger, message⟩
  let noted : Host := { h with journal := h.journal ++ [r] }
  obtain ⟨delivered, hdelivered⟩ :=
    succeeds_forM (succeeds_deliver r) (noted.logging.sinksFor level) noted
  have hnoted : on (modify fun h => { h with journal := h.journal ++ [r] }) h = (.ok ⟨⟩, noted) :=
    on_modify _ h
  refine ⟨delivered, hdelivered, ?_⟩
  simp only [log]
  rw [on_bind_of_ok hnoted, on_bind_of_ok (on_get noted), on_bind_of_ok hdelivered]

theorem succeeds_log (logger : Option String) (level : Int) (message : String) :
    Succeeds (log logger level message) := by
  intro h
  obtain ⟨delivered, -, hlog⟩ := exists_on_log logger level message h
  rw [hlog]
  split
  · exact succeeds_modify _ delivered
  · exact ⟨delivered, rfl⟩

theorem succeeds_debug (logger message : String) : Succeeds (debug logger message) :=
  succeeds_log _ _ _

end ClassAtlas.Action
