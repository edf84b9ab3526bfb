import ClassAtlas.CommandLine.Arguments
import ClassAtlas.Proofs.Yaml.Values
import Mathlib.Data.List.Forall2
/-!
# Where options stand

The options of the program may be given in front of a command and behind it, among its own options and arguments.
What is read depends on what is given and not on where: an option that the arguments of a command leave out adds
itself alone, wherever it stands.
-/
namespace ClassAtlas.CommandLine

variable {l : Level} {p q r : Progress} {s text c file : String} {ss ts : List String} {a : Argument}
variable {as bs rest left more : List Argument} {choice : Option (Choice × Bool × Option Joined)}
variable {o : Choice} {g : Given} {gs later : List Given} {xs : List String} {fuel : Nat} {awaits : Bool}

/-! ## Kinds of arguments -/

namespace Argument

theorem ofString_cases (h : ofString l s = .ok a) : a = .plain s ∨ ∃ choice, a = .option s choice := by
  unfold ofString at h
  dsimp only at h
  repeat' split at h
  all_goals cases h
  all_goals first | exact .inl rfl | exact .inr ⟨_, rfl⟩

theorem ofString_of_plain (h : s.toList.head? ≠ some '-') : ofString l s = .ok (.plain s) := by
  unfold ofString
  rw [if_pos (bne_iff_ne.mpr h)]

theorem ofString_verbose (l : Level) : ofString l "-v" = .ok (.option "-v" (some (.verbose, true, none))) := by
  cases l <;> rfl

theorem ofString_logFile (l : Level) :
    ofString l "--log-file" = .ok (.option "--log-file" (some (.logFile, false, none))) := by
  cases l <;> rfl

/-- The arguments are of these kinds, one by one. -/
def Kinds (l : Level) : List String → List Argument → Prop := List.Forall₂ fun s a => ofString l s = .ok a

theorem kinds_iff (hmark : "--" ∉ ss) : ofStrings l ss = .ok as ↔ Kinds l ss as := by
  induction ss generalizing as with
  | nil =>
    rw [ofStrings, Kinds, List.forall₂_nil_left_iff]
    exact ⟨fun h => (Except.ok.inj h).symm, fun h => h ▸ rfl⟩
  | cons s ss ih =>
    rw [List.mem_cons, not_or] at hmark
    obtain ⟨hs, hss⟩ := hmark
    rw [ofStrings, if_neg (Ne.symm hs), bind_eq_ok_iff, Kinds, List.forall₂_cons_left_iff]
    constructor
    · rintro ⟨a, ha, h⟩
      obtain ⟨bs, hbs, h⟩ := bind_eq_ok_iff.mp h
      cases h
      exact ⟨a, bs, ha, (ih hss).mp hbs, rfl⟩
    · rintro ⟨a, bs, ha, hbs, rfl⟩
      exact ⟨a, ha, bind_eq_ok_iff.mpr ⟨bs, (ih hss).mpr hbs, rfl⟩⟩

namespace Kinds

theorem map_text (h : Kinds l ss as) : as.map Argument.text = ss := by
  induction h with
  | nil => rfl
  | cons ha _ ih => rcases ofString_cases ha with rfl | ⟨_, rfl⟩ <;> rw [List.map_cons, ih] <;> rfl

theorem separator_notMem (h : Kinds l ss as) : .separator ∉ as := by
  induction h with
  | nil => exact List.not_mem_nil
  | cons ha _ ih => rcases ofString_cases ha with rfl | ⟨_, rfl⟩ <;> simpa using ih

theorem of_mem (h : Kinds l ss as) (ha : a ∈ as) : ∃ s ∈ ss, ofString l s = .ok a := by
  induction h with
  | nil => cases ha
  | cons hkind _ ih =>
    rcases List.mem_cons.mp ha with rfl | ha
    · exact ⟨_, List.mem_cons_self, hkind⟩
    · obtain ⟨s, hs, hkind⟩ := ih ha
      exact ⟨s, List.mem_cons_of_mem _ hs, hkind⟩

theorem append (h : Kinds l ss as) (h' : Kinds l ts bs) : Kinds l (ss ++ ts) (as ++ bs) := List.rel_append h h'

end Kinds
end Argument

open Argument

/-! ## What one option adds -/

namespace Progress

def start : Progress := ⟨[], [], false⟩

/-- What was read from the start, added to what was read before. -/
def followedBy (p q : Progress) : Progress := ⟨p.given ++ q.given, p.extras ++ q.extras, p.open_⟩

theorem followedBy_start (p : Progress) : p.followedBy start = p := by simp [followedBy, start]

theorem followedBy_assoc (p q r : Progress) : (p.followedBy q).followedBy r = p.followedBy (q.followedBy r) := by
  simp [followedBy]

end Progress

open Progress

/-- A step of the reading adds the same, or ends the reading in the same way, whatever was read before. -/
def Adds (f : Progress → Reading Progress) : Prop := ∀ p, f p = (f start).map p.followedBy

theorem adds_pure : Adds .ok := fun p => congrArg Except.ok p.followedBy_start.symm

theorem adds_give (g : Given) : Adds fun p => .ok (p.give g) := by
  intro p
  simp [Except.map, give, followedBy, start]

theorem adds_leave (texts : List String) : Adds fun p => .ok (p.leave texts) := by
  intro p
  simp [Except.map, leave, followedBy, start]

theorem Adds.bind {f g : Progress → Reading Progress} (hf : Adds f) (hg : Adds g) : Adds fun p => f p >>= g := by
  intro p
  show f p >>= g = (f start >>= g).map p.followedBy
  rw [hf p]
  cases f start with
  | error stop => rfl
  | ok q =>
    show g (p.followedBy q) = (g q).map p.followedBy
    rw [hg, hg q]
    cases g start with
    | error stop => rfl
    | ok r => exact congrArg Except.ok (followedBy_assoc p q r)

theorem adds_flag (l : Level) (o : Choice) : Adds fun p => flag l p o := by
  cases o with
  | help => exact fun _ => rfl
  | _ => exact adds_give .verbose

theorem adds_foldlM_flag (l : Level) (flags : List Choice) : Adds fun p => flags.foldlM (flag l) p := by
  induction flags with
  | nil => exact adds_pure
  | cons o flags ih => exact (adds_flag l o).bind ih

theorem adds_valued (l : Level) (o : Choice) (value : String) : Adds fun p => p.valued l o value := by
  cases o with
  | help => exact adds_pure
  | verbose => exact adds_pure
  | port =>
    unfold valued
    cases Numeral.whole 10 value.toList with
    | ok n => exact adds_give (.port n)
    | error fault => exact fun _ => rfl
  | _ => exact adds_give _

/-! ## Reading an option -/

/-- An option that the program and both its commands have, and that gives something. -/
def Choice.Shared (o : Choice) : Prop := o = .verbose ∨ o = .logFile

/-- An argument that is read as this option. -/
def Spells (l : Level) (o : Choice) (s : String) : Prop :=
  ∃ short joined, ofString l s = .ok (.option s (some (o, short, joined)))

theorem not_spells (hread : ofString l s = .ok a) (hother : ∀ short joined, a ≠ .option s (some (o, short, joined))) :
    ¬ Spells l o s :=
  fun ⟨short, joined, hspelt⟩ => hother short joined (Except.ok.inj (hread.symm.trans hspelt))

/-- The option that gives a thing, if one does. -/
def Given.choice? : Given → Option Choice
  | verbose => some .verbose
  | logFile _ => some .logFile
  | output _ => some .output
  | included _ => some .included
  | excluded _ => some .excluded
  | host _ => some .host
  | port _ => some .port
  | path _ => none
  | command _ => none

/-- Nothing is given by this option. -/
def Quiet (o : Choice) (gs : List Given) : Prop := ∀ g ∈ gs, g.choice? ≠ some o

theorem quiet_append {gs' : List Given} : Quiet o (gs ++ gs') ↔ Quiet o gs ∧ Quiet o gs' := List.forall_mem_append

/-- Nothing that a step adds is given by this option. -/
def Spares (o : Choice) (f : Progress → Reading Progress) : Prop :=
  ∀ p q, f p = .ok q → Quiet o p.given → Quiet o q.given

theorem Spares.bind {f g : Progress → Reading Progress} (hf : Spares o f) (hg : Spares o g) :
    Spares o fun p => f p >>= g := by
  intro p r h hp
  obtain ⟨q, hq, hr⟩ := bind_eq_ok_iff.mp h
  exact hg q r hr (hf p q hq hp)

theorem spares_give (hg : g.choice? ≠ some o) : Spares o fun p => .ok (p.give g) := by
  rintro p q ⟨⟩ hp
  exact quiet_append.mpr ⟨hp, List.forall_mem_singleton.mpr hg⟩

theorem spares_same {f : Progress → Progress} (hf : ∀ p, (f p).given = p.given) : Spares o fun p => .ok (f p) := by
  rintro p q ⟨⟩ hp
  rwa [hf]

theorem spares_error {f : Progress → Reading Progress} (hf : ∀ p, ∃ stop, f p = .error stop) : Spares o f := by
  intro p q h
  obtain ⟨stop, hstop⟩ := hf p
  cases hstop.symm.trans h

theorem spares_valued (l : Level) {o' : Choice} (ho : o' = o → o = .verbose) (value : String) :
    Spares o fun p => p.valued l o' value := by
  cases o' with
  | help => exact spares_same fun _ => rfl
  | verbose => exact spares_same fun _ => rfl
  | port =>
    unfold valued
    cases Numeral.whole 10 value.toList with
    | ok n => exact spares_give fun h => by cases h; cases ho rfl
    | error fault => exact spares_error fun _ => ⟨_, rfl⟩
  | _ => exact spares_give fun h => by cases h; cases ho rfl

/-- The option that joined short options end in. -/
def Ending.choice? : Ending → Option Choice
  | value o _ => some o
  | pending o => some o
  | _ => none

variable {flags : List Choice} {ending : Ending} {base : Choice} {short : Bool} {joined : Option Joined}

/-- An option takes what is joined to it as its value, or stands alone, or is followed by a short option. -/
theorem joinedFlags_cases (h : joinedFlags l (fuel + 1) base short joined = .ok (flags, ending)) :
    (base.takesValue = true ∧ flags = [] ∧ ending.choice? = some base) ∨
      (base.takesValue = false ∧ flags = [base] ∧ ending.choice? = none) ∨
      base.takesValue = false ∧ ∃ x next more flags', l.table.lookup (String.ofList ['-', x]) = some next ∧
        joinedFlags l fuel next true more = .ok (flags', ending) ∧ flags = base :: flags' := by
  unfold joinedFlags at h
  cases htakes : base.takesValue with
  | true =>
    refine .inl ⟨rfl, ?_⟩
    cases joined <;> simp only [htakes, if_true] at h <;> cases h <;> exact ⟨rfl, rfl⟩
  | false =>
    refine .inr ?_
    cases joined with
    | none =>
      simp only [htakes, Bool.false_eq_true, if_false] at h
      cases h
      exact .inl ⟨rfl, rfl, rfl⟩
    | some j =>
      simp only [htakes, Bool.false_eq_true, if_false] at h
      split at h
      · cases h
      · split at h
        · cases h
        · split at h
          · cases h
            exact .inl ⟨rfl, rfl, rfl⟩
          · rename_i x _ _ _ _ next hnext
            obtain ⟨⟨flags', ending'⟩, hmore, heq⟩ := map_eq_ok_iff.mp h
            cases heq
            exact .inr ⟨rfl, x, next, _, flags', hnext, hmore, rfl⟩

/-- The options that are joined to others begin with the one in front. -/
theorem joinedFlags_front (h : joinedFlags l fuel base short joined = .ok (flags, ending)) :
    flags = [] ∨ (base = .help ∨ base = .verbose) ∧ ∃ more, flags = base :: more := by
  have hflag : base.takesValue = false → base = .help ∨ base = .verbose := by
    cases base <;> simp [Choice.takesValue]
  cases fuel with
  | zero =>
    cases h
    exact .inl rfl
  | succ fuel =>
    rcases joinedFlags_cases h with ⟨_, hnone, _⟩ | ⟨htakes, hone, _⟩ | ⟨htakes, _, _, _, flags', _, _, hmore⟩
    · exact .inl hnone
    · exact .inr ⟨hflag htakes, [], hone⟩
    · exact .inr ⟨hflag htakes, flags', hmore⟩

theorem spares_flags (h : joinedFlags l fuel base short joined = .ok (flags, ending))
    (hbase : base ≠ o) : Spares o fun p => flags.foldlM (flag l) p := by
  have hflag : o ≠ .verbose → ∀ o', Spares o fun p => flag l p o' := by
    intro ho o'
    cases o' with
    | help => exact spares_error fun _ => ⟨_, rfl⟩
    | _ => exact spares_give fun h => ho (Option.some.inj h).symm
  rcases joinedFlags_front h with rfl | ⟨rfl | rfl, more, rfl⟩
  · exact spares_same fun _ => rfl
  · exact spares_error fun _ => ⟨.help l, rfl⟩
  · refine (hflag (Ne.symm hbase) _).bind ?_
    clear h
    induction more with
    | nil => exact spares_same fun _ => rfl
    | cons o' more ih => exact (hflag (Ne.symm hbase) o').bind ih

theorem lookup_short_ne_logFile (l : Level) (x : Char) : l.table.lookup (String.ofList ['-', x]) ≠ some .logFile := by
  intro h
  obtain ⟨before, after, htable, _⟩ := List.lookup_eq_some_iff.mp h
  have hmem : (String.ofList ['-', x], Choice.logFile) ∈ l.table := htable ▸ List.mem_append_right _ List.mem_cons_self
  have hname : String.ofList ['-', x] = "--log-file" := by
    cases l <;> simpa [Level.table, Level.choices, Choice.names, Choice.short?, Choice.long] using hmem
  have hlength := congrArg (fun s => s.toList.length) hname
  simp at hlength

/-- A log file is asked for by an option of its own, never by one that is joined to another. -/
theorem joinedFlags_logFile (h : joinedFlags l fuel base short joined = .ok (flags, ending))
    (hending : ending.choice? = some .logFile) : base = .logFile := by
  induction fuel generalizing base short joined flags with
  | zero =>
    cases h
    cases hending
  | succ fuel ih =>
    rcases joinedFlags_cases h with ⟨_, _, hbase⟩ | ⟨_, _, hnone⟩ | ⟨_, x, next, more, flags', hnext, hmore, _⟩
    · exact Option.some.inj (hbase.symm.trans hending)
    · cases hnone.symm.trans hending
    · rw [ih hmore] at hnext
      exact absurd hnext (lookup_short_ne_logFile l x)

/-- A shared option that an argument of this choice is not read as. -/
structure Foreign (choice : Option (Choice × Bool × Option Joined)) (o : Choice) : Prop where
  shared : o.Shared
  other : ∀ short joined, choice ≠ some (o, short, joined)

/-- One step of the reading, for an option of this choice. -/
structure Step (choice : Option (Choice × Bool × Option Joined)) (f : Progress → Reading Progress) : Prop where
  adds : Adds f
  spares : ∀ o, Foreign choice o → Spares o f

/-- A step that goes well once goes well whatever was read before it. -/
theorem Step.added {f : Progress → Reading Progress} (hf : Step choice f) (hrun : f p = .ok r) :
    ∃ q, r = p.followedBy q ∧ (∀ p', f p' = .ok (p'.followedBy q)) ∧
      ∀ o, Foreign choice o → Quiet o q.given := by
  rw [hf.adds p] at hrun
  obtain ⟨q, hq, rfl⟩ := map_eq_ok_iff.mp hrun
  refine ⟨q, rfl, fun p' => ?_, fun o hother => hf.spares o hother _ _ hq (List.forall_mem_nil _)⟩
  rw [hf.adds p', hq]
  rfl

/-- An option is read by itself, or with the argument behind it as its value. -/
theorem readOption_cases (l : Level) (text : String) (choice : Option (Choice × Bool × Option Joined)) :
    (∃ f, Step choice f ∧ ∀ p rest, readOption l p text choice rest = do return (← f p, rest)) ∨
      ∃ (f : String → Progress → Reading Progress) (stop : Stop), (∀ v, Step choice (f v)) ∧
        (∀ p v rest, readOption l p text choice (.plain v :: rest) = do return (← f v p, rest)) ∧
        ∀ p rest, (∀ v after, rest ≠ .plain v :: after) → readOption l p text choice rest = .error stop := by
  cases choice with
  | none => exact .inl ⟨_, ⟨adds_leave [text], fun _ _ => spares_same fun _ => rfl⟩, fun _ _ => rfl⟩
  | some chosen =>
    obtain ⟨base, short, joined⟩ := chosen
    have hbase : ∀ {o}, Foreign (some (base, short, joined)) o → base ≠ o :=
      fun hforeign heq => hforeign.other short joined (by rw [heq])
    -- A value belongs to the option that the others are joined to, or to one with a short name.
    have hlast : ∀ {flags ending o o'}, joinedFlags l (text.length + 1) base short joined = .ok (flags, ending) →
        ending.choice? = some o' → Foreign (some (base, short, joined)) o → o' = o → o = .verbose := by
      rintro flags ending o _ hflags hending hforeign rfl
      refine hforeign.shared.resolve_right ?_
      rintro rfl
      exact hbase hforeign (joinedFlags_logFile hflags hending)
    simp only [readOption]
    cases hflags : joinedFlags l (text.length + 1) base short joined with
    | error stop =>
      exact .inl ⟨fun _ => .error stop, ⟨fun _ => rfl, fun _ _ => spares_error fun _ => ⟨_, rfl⟩⟩, fun _ _ => rfl⟩
    | ok read =>
      obtain ⟨flags, ending⟩ := read
      have hadds := adds_foldlM_flag l flags
      have hspares : ∀ {o}, Foreign (some (base, short, joined)) o → Spares o fun p => flags.foldlM (flag l) p :=
        fun hforeign => spares_flags hflags (hbase hforeign)
      cases ending with
      | nothing => exact .inl ⟨_, ⟨hadds, fun _ => hspares⟩, fun _ _ => rfl⟩
      | unknown left =>
        exact .inl ⟨_, ⟨(adds_leave [left]).bind hadds, fun _ hforeign =>
          (spares_same (f := fun p => p.leave [left]) fun _ => rfl).bind (hspares hforeign)⟩, fun _ _ => rfl⟩
      | value o' value =>
        refine .inl ⟨_, ⟨hadds.bind (adds_valued l o' value), fun o hforeign => ?_⟩, fun p rest => ?_⟩
        · exact (hspares hforeign).bind (spares_valued l (hlast hflags rfl hforeign) value)
        · exact (bind_assoc (flags.foldlM (flag l) p) (fun q => q.valued l o' value) fun q => .ok (q, rest)).symm
      | pending o' =>
        refine .inr ⟨fun v p => flags.foldlM (flag l) p >>= fun q => q.valued l o' v,
          .misuse l (.valueMissing o'), fun v => ⟨?_, fun o hforeign => ?_⟩,
          fun p v rest => ?_, fun p rest hrest => ?_⟩
        · exact hadds.bind (adds_valued l o' v)
        · exact (hspares hforeign).bind (spares_valued l (hlast hflags rfl hforeign) v)
        · exact (bind_assoc (flags.foldlM (flag l) p) (fun q => q.valued l o' v) fun q => .ok (q, rest)).symm
        · cases rest with
          | nil => rfl
          | cons a after =>
            cases a with
            | plain v => exact absurd rfl (hrest v after)
            | separator => rfl
            | option text choice => rfl

/-- An option adds `q` and leaves the arguments `left` of those behind it. -/
structure Takes (l : Level) (text : String) (choice : Option (Choice × Bool × Option Joined)) (rest : List Argument)
    (q : Progress) (left : List Argument) : Prop where
  run : ∀ p more, readOption l p text choice (rest ++ more) = .ok (p.followedBy q, left ++ more)
  suffix : left <:+ rest
  quiet : ∀ o, Foreign choice o → Quiet o q.given

/-- An option that is read adds the same whatever was read before it and whatever stands behind its value. -/
theorem takes_of_readOption (hread : readOption l p text choice rest = .ok (r, left)) :
    ∃ q, Takes l text choice rest q left ∧ r = p.followedBy q := by
  rcases readOption_cases l text choice with ⟨f, hf, hrun⟩ | ⟨f, stop, hf, hrun, hstop⟩
  · rw [hrun] at hread
    obtain ⟨_, hr, heq⟩ := bind_eq_ok_iff.mp hread
    cases heq
    obtain ⟨q, rfl, hsame, hquiet⟩ := hf.added hr
    exact ⟨q, ⟨fun p' more => by rw [hrun, hsame]; rfl, List.suffix_rfl, hquiet⟩, rfl⟩
  · by_cases hvalue : ∃ v after, rest = .plain v :: after
    · obtain ⟨v, after, rfl⟩ := hvalue
      rw [hrun] at hread
      obtain ⟨_, hr, heq⟩ := bind_eq_ok_iff.mp hread
      cases heq
      obtain ⟨q, rfl, hsame, hquiet⟩ := (hf v).added hr
      exact ⟨q, ⟨fun p' more => by rw [List.cons_append, hrun, hsame]; rfl, List.suffix_cons _ _, hquiet⟩, rfl⟩
    · cases (hstop p rest fun v after h => hvalue ⟨v, after, h⟩).symm.trans hread

/-! ## Reading the arguments of a command -/

/-- The arguments of a command are read to their end, and give these things. A path is taken as long as one is
awaited. -/
inductive Gives (l : Level) : Bool → List Argument → List Given → Prop
  | nil {awaits : Bool} : Gives l awaits [] []
  | option {awaits : Bool} {text : String} {choice : Option (Choice × Bool × Option Joined)} {rest left : List Argument}
      {q : Progress} {later : List Given} (taken : Takes l text choice rest q left) (known : q.extras = [])
      (behind : Gives l awaits left later) : Gives l awaits (.option text choice :: rest) (q.given ++ later)
  | path {text : String} {rest : List Argument} {later : List Given} (behind : Gives l false rest later) :
      Gives l true (.plain text :: rest) (.path text :: later)

namespace Gives

/-- Options behind the arguments of a command are read after them. -/
theorem append (h : Gives l awaits as gs) (hmore : ∀ awaits, Gives l awaits bs later) :
    Gives l awaits (as ++ bs) (gs ++ later) := by
  induction h with
  | nil => exact hmore _
  | option taken known _ ih =>
    rw [List.cons_append, List.append_assoc]
    obtain ⟨value, hvalue⟩ := taken.suffix
    refine .option ⟨fun p more => ?_, ⟨value, by rw [← List.append_assoc, hvalue]⟩, taken.quiet⟩ known ih
    rw [List.append_assoc, taken.run, List.append_assoc]
  | path _ ih => exact .path ih

theorem quiet (h : Gives l awaits as gs) (ho : o.Shared)
    (hother : ∀ text short joined, .option text (some (o, short, joined)) ∉ as) : Quiet o gs := by
  induction h with
  | nil => exact List.forall_mem_nil _
  | option taken _ _ ih =>
    refine quiet_append.mpr ⟨taken.quiet o ⟨ho, fun short joined h => ?_⟩, ih fun text short joined h => ?_⟩
    · exact hother _ short joined (by rw [h]; exact List.mem_cons_self)
    · exact hother text short joined (List.mem_cons_of_mem _ (taken.suffix.subset h))
  | path _ ih =>
    refine List.forall_mem_cons.mpr ⟨fun h => (by cases h), ih fun text short joined h => ?_⟩
    exact hother text short joined (List.mem_cons_of_mem _ h)

end Gives

theorem readPath_plain (hsep : .separator ∉ rest) (p : Progress) (text : String) :
    readPath p (.plain text :: rest) = ({ p with open_ := false }.give (.path text), rest) := by
  have hskip : skipSeparators rest = rest := by
    cases rest with
    | nil => rfl
    | cons a rest =>
      refine List.dropWhile_cons_of_neg ?_
      rw [beq_iff_eq]
      rintro rfl
      exact hsep List.mem_cons_self
  rw [readPath, skipSeparators, List.dropWhile_cons_of_neg (by simp)]
  simp only [hskip]

theorem readRest_option (l : Level) (fuel : Nat) (p : Progress) (text : String)
    (choice : Option (Choice × Bool × Option Joined)) (rest : List Argument) :
    readRest l (fuel + 1) p (.option text choice :: rest) =
      readOption l p text choice rest >>= fun s => readRest l fuel s.1 s.2 := rfl

theorem readRest_plain (l : Level) (fuel : Nat) (p : Progress) (text : String) (rest : List Argument) :
    readRest l (fuel + 1) p (.plain text :: rest) =
      if p.open_ then
        readRest l fuel (readPath p (.plain text :: rest)).1 (readPath p (.plain text :: rest)).2
      else
        readRest l fuel (p.leave (text :: (rest.takeWhile fun a => !a.isOption).map Argument.text))
          (rest.drop (rest.takeWhile fun a => !a.isOption).length) := rfl

theorem readRest_path (hopen : p.open_ = true) (hsep : .separator ∉ rest) :
    readRest l (fuel + 1) p (.plain text :: rest) =
      readRest l fuel ({ p with open_ := false }.give (.path text)) rest := by
  rw [readRest_plain, if_pos hopen, readPath_plain hsep]

/-- An argument that is not awaited is left over. -/
theorem readRest_leave (l : Level) (fuel : Nat) (text : String) (rest : List Argument) (hopen : p.open_ = false) :
    ∃ texts left, left <:+ rest ∧
      readRest l (fuel + 1) p (.plain text :: rest) = readRest l fuel (p.leave (text :: texts)) left := by
  refine ⟨(rest.takeWhile fun a => !a.isOption).map Argument.text,
    rest.drop (rest.takeWhile fun a => !a.isOption).length, List.drop_suffix _ _, ?_⟩
  rw [readRest_plain, hopen, if_neg Bool.false_ne_true]

/-- The steps of the reading are bounded by the number of arguments. -/
theorem readRest_of_gives (h : Gives l awaits as gs) (hopen : p.open_ = awaits) (hsep : .separator ∉ as)
    (hfuel : as.length < fuel) :
    ∃ q, readRest l fuel p as = .ok q ∧ q.given = p.given ++ gs ∧ q.extras = p.extras := by
  induction h generalizing p fuel with
  | nil =>
    obtain ⟨fuel, rfl⟩ := Nat.exists_eq_succ_of_ne_zero (by omega : fuel ≠ 0)
    exact ⟨p, rfl, (List.append_nil _).symm, rfl⟩
  | @option _ text choice rest left q later taken known _ ih =>
    obtain ⟨fuel, rfl⟩ := Nat.exists_eq_succ_of_ne_zero (by omega : fuel ≠ 0)
    have hread := taken.run p []
    rw [List.append_nil, List.append_nil] at hread
    have hleft : left.length < fuel := Nat.lt_of_le_of_lt taken.suffix.length_le (Nat.lt_of_succ_lt_succ hfuel)
    obtain ⟨r, hr, hgiven, hextras⟩ := ih (p := p.followedBy q) hopen
      (fun hmem => hsep (List.mem_cons_of_mem _ (taken.suffix.subset hmem))) hleft
    refine ⟨r, ?_, ?_, ?_⟩
    · rw [readRest_option, hread]
      exact hr
    · rw [hgiven, followedBy, List.append_assoc]
    · rw [hextras, followedBy, known, List.append_nil]
  | @path text rest later _ ih =>
    obtain ⟨fuel, rfl⟩ := Nat.exists_eq_succ_of_ne_zero (by omega : fuel ≠ 0)
    have hrest : .separator ∉ rest := fun hmem => hsep (List.mem_cons_of_mem _ hmem)
    obtain ⟨r, hr, hgiven, hextras⟩ := ih (p := { p with open_ := false }.give (.path text)) rfl hrest
      (Nat.lt_of_succ_lt_succ hfuel)
    refine ⟨r, (readRest_path hopen hrest).trans hr, ?_, hextras⟩
    rw [hgiven, give, List.append_assoc, List.singleton_append]

/-- Arguments that are read to their end with nothing left over give what they give. -/
theorem gives_of_readRest (hsep : .separator ∉ as) (hfuel : as.length < fuel)
    (hread : readRest l fuel p as = .ok q) (hextras : q.extras = []) :
    p.extras = [] ∧ ∃ gs, Gives l p.open_ as gs ∧ q.given = p.given ++ gs := by
  induction fuel generalizing p as with
  | zero => omega
  | succ fuel ih =>
    cases as with
    | nil =>
      cases hread
      exact ⟨hextras, [], .nil, (List.append_nil _).symm⟩
    | cons a rest =>
      have hrest : .separator ∉ rest := fun hmem => hsep (List.mem_cons_of_mem _ hmem)
      rw [List.length_cons] at hfuel
      cases a with
      | separator => exact absurd List.mem_cons_self hsep
      | option text choice =>
        rw [readRest_option] at hread
        obtain ⟨⟨r, left⟩, hoption, hlater⟩ := bind_eq_ok_iff.mp hread
        obtain ⟨added, htaken, rfl⟩ := takes_of_readOption hoption
        have hshort := htaken.suffix.length_le
        obtain ⟨hnone, gs, hgives, hgiven⟩ :=
          ih (fun hmem => hrest (htaken.suffix.subset hmem)) (by omega) hlater
        obtain ⟨hp, hknown⟩ := List.append_eq_nil_iff.mp hnone
        refine ⟨hp, _, .option htaken hknown hgives, ?_⟩
        rw [hgiven, followedBy, List.append_assoc]
      | plain text =>
        cases hopen : p.open_ with
        | true =>
          rw [readRest_path hopen hrest] at hread
          obtain ⟨hp, gs, hgives, hgiven⟩ := ih hrest (by omega) hread
          refine ⟨hp, _, .path hgives, ?_⟩
          rw [hgiven, give, List.append_assoc, List.singleton_append]
        | false =>
          -- What is left over stays so, and then it is not nothing in the end.
          obtain ⟨texts, left, hleft, hsame⟩ := readRest_leave l fuel text rest hopen
          rw [hsame] at hread
          have hshort := hleft.length_le
          obtain ⟨hnone, _⟩ := ih (fun hmem => hrest (hleft.subset hmem)) (by omega) hread
          simp [leave] at hnone

/-! ## Reading the command -/

/-- These words in front of a command are options that give these things. -/
structure Front (lead : List String) (gs : List Given) : Prop where
  unmarked : "--" ∉ lead
  gives : ∃ as, Kinds .program lead as ∧ Gives .program false as gs

/-- These words behind a command are known to the program and the command, and give these things. -/
structure Behind (l : Level) (words : List String) (gs : List Given) : Prop where
  unmarked : "--" ∉ words
  known : ∃ as, Kinds .program words as
  gives : ∃ as, Kinds l words as ∧ Gives l (l == .generate) as gs

/-- An option that no word spells gives nothing. -/
theorem Behind.quiet (h : Behind l xs gs) (ho : o.Shared) (hother : ∀ s ∈ xs, ¬ Spells l o s) : Quiet o gs := by
  obtain ⟨as, hkinds, hgives⟩ := h.gives
  refine hgives.quiet ho fun text short joined ha => ?_
  obtain ⟨s, hs, hkind⟩ := hkinds.of_mem ha
  refine hother s hs ⟨short, joined, ?_⟩
  rcases ofString_cases hkind with hplain | ⟨choice, hoption⟩
  · cases hplain
  · cases hoption
    exact hkind

theorem readCommand_of_behind (h : Behind l xs gs) : ∃ q, readCommand l xs = .ok q ∧ q.given = gs ∧ q.extras = [] := by
  obtain ⟨as, hkinds, hgives⟩ := h.gives
  obtain ⟨q, hq, hgiven, hextras⟩ := readRest_of_gives (p := ⟨[], [], l == .generate⟩) hgives rfl
    hkinds.separator_notMem (Nat.lt_succ_self _)
  exact ⟨q, bind_eq_ok_iff.mpr ⟨as, (kinds_iff h.unmarked).mpr hkinds, hq⟩, hgiven, hextras⟩

theorem gives_of_readCommand {q : Progress} (hmark : "--" ∉ xs) (hread : readCommand l xs = .ok q)
    (hextras : q.extras = []) : ∃ as, Kinds l xs as ∧ Gives l (l == .generate) as q.given := by
  obtain ⟨as, hkinds, hread⟩ := bind_eq_ok_iff.mp hread
  have hkinds := (kinds_iff hmark).mp hkinds
  obtain ⟨_, gs, hgives, hgiven⟩ := gives_of_readRest hkinds.separator_notMem (Nat.lt_succ_self _) hread hextras
  exact ⟨as, hkinds, by rw [hgiven]; exact hgives⟩

theorem readProgram_option (fuel : Nat) (p : Progress) (text : String)
    (choice : Option (Choice × Bool × Option Joined)) (rest : List Argument) :
    readProgram (fuel + 1) p (.option text choice :: rest) =
      readOption .program p text choice rest >>= fun s => readProgram fuel s.1 s.2 := rfl

theorem readProgram_command (hc : Level.command? c = some l) (fuel : Nat) (p : Progress) (rest : List Argument) :
    readProgram (fuel + 1) p (.plain c :: rest) = readCommand l (rest.map Argument.text) >>= fun behind =>
      .ok ⟨p.given ++ .command l :: behind.given, p.extras ++ behind.extras, false⟩ := by
  conv_lhs => whnf
  rw [hc]
  rfl

/-- The options in front of a command are read one by one up to the command. -/
theorem readProgram_of_gives (h : Gives .program awaits as gs) (hawaits : awaits = false) (hfuel : as.length < fuel) :
    ∃ n q, readProgram fuel p (as ++ .plain c :: rest) = readProgram (n + 1) q (.plain c :: rest) ∧
      q.given = p.given ++ gs ∧ q.extras = p.extras := by
  induction h generalizing p fuel with
  | nil =>
    obtain ⟨fuel, rfl⟩ := Nat.exists_eq_succ_of_ne_zero (by omega : fuel ≠ 0)
    exact ⟨fuel, p, rfl, (List.append_nil _).symm, rfl⟩
  | @option _ text choice rest' left q later taken known _ ih =>
    obtain ⟨fuel, rfl⟩ := Nat.exists_eq_succ_of_ne_zero (by omega : fuel ≠ 0)
    have hleft : left.length < fuel := Nat.lt_of_le_of_lt taken.suffix.length_le (Nat.lt_of_succ_lt_succ hfuel)
    obtain ⟨n, r, hr, hgiven, hextras⟩ := ih (p := p.followedBy q) hawaits hleft
    refine ⟨n, r, ?_, ?_, ?_⟩
    · rw [List.cons_append, readProgram_option, taken.run]
      exact hr
    · rw [hgiven, followedBy, List.append_assoc]
    · rw [hextras, followedBy, known, List.append_nil]
  | path => cases hawaits

theorem command_plain (hc : Level.command? c = some l) : c ≠ "--" ∧ ofString .program c = .ok (.plain c) := by
  unfold Level.command? at hc
  split at hc <;> cases hc <;> exact ⟨by decide, ofString_of_plain (by decide)⟩

/-- What a command is given is what stands in front of it and what stands behind it. -/
theorem read_of_front_behind {lead : List String} (hc : Level.command? c = some l) (hfront : Front lead gs)
    (hbehind : Behind l xs later) : read (lead ++ c :: xs) = .ok (gs ++ .command l :: later) := by
  obtain ⟨hname, hplain⟩ := command_plain hc
  obtain ⟨as, hlead, hgives⟩ := hfront.gives
  obtain ⟨bs, hwords⟩ := hbehind.known
  have hkinds : Kinds .program (lead ++ c :: xs) (as ++ .plain c :: bs) := hlead.append (.cons hplain hwords)
  have hmark : "--" ∉ lead ++ c :: xs := by
    simp [hfront.unmarked, hbehind.unmarked, hname.symm]
  obtain ⟨q, hq, hlater, hnone⟩ := readCommand_of_behind hbehind
  have hfuel : as.length < (as ++ .plain c :: bs).length + 1 := by
    rw [List.length_append]
    omega
  obtain ⟨n, r, hr, hgiven, hextras⟩ := readProgram_of_gives (p := ⟨[], [], true⟩) hgives rfl hfuel
  refine bind_eq_ok_iff.mpr ⟨_, (kinds_iff hmark).mpr hkinds, ?_⟩
  rw [hr, readProgram_command hc, hwords.map_text, hq, hgiven, hextras, ← hlater]
  simp [bind, Except.bind, pure, Except.pure, hnone]

theorem behind_of_read (hc : Level.command? c = some l) (hmark : "--" ∉ xs) (hread : read (c :: xs) = .ok gs) :
    ∃ later, Behind l xs later ∧ gs = .command l :: later := by
  obtain ⟨hname, hplain⟩ := command_plain hc
  have hmark' : "--" ∉ c :: xs := by simp [hmark, hname.symm]
  obtain ⟨as, hkinds, hread⟩ := bind_eq_ok_iff.mp hread
  obtain ⟨a, bs, ha, hwords, rfl⟩ := List.forall₂_cons_left_iff.mp ((kinds_iff hmark').mp hkinds)
  cases hplain.symm.trans ha
  obtain ⟨p, hp, hfinal⟩ := bind_eq_ok_iff.mp hread
  rw [readProgram_command hc, Kinds.map_text hwords] at hp
  obtain ⟨q, hq, hp⟩ := bind_eq_ok_iff.mp hp
  cases hp
  simp only [Bool.false_eq_true, if_false, List.nil_append] at hfinal
  split at hfinal
  · cases hfinal
  · cases hfinal
    have hnone : q.extras = [] := by simpa using ‹¬ (!q.extras.isEmpty) = true›
    exact ⟨q.given, ⟨hmark, ⟨bs, hwords⟩, gives_of_readCommand hmark hq hnone⟩, rfl⟩

/-! ## Options that stand anywhere -/

/-- These words are options that are read in front of a command and behind it, whatever follows them. -/
structure Portable (words : List String) (gs : List Given) : Prop where
  unmarked : "--" ∉ words
  reads : ∀ l, ∃ as, Kinds l words as ∧
    ∀ awaits bs later, Gives l awaits bs later → Gives l awaits (as ++ bs) (gs ++ later)

namespace Portable

variable {words : List String}

theorem gives (h : Portable words gs) (l : Level) : ∃ as, Kinds l words as ∧ ∀ awaits, Gives l awaits as gs := by
  obtain ⟨as, hkinds, hreads⟩ := h.reads l
  exact ⟨as, hkinds, fun awaits => by simpa using hreads awaits [] [] .nil⟩

theorem front (h : Portable words gs) : Front words gs :=
  let ⟨as, hkinds, hgives⟩ := h.gives .program
  ⟨h.unmarked, as, hkinds, hgives false⟩

theorem behind_append (h : Portable words gs) (hxs : Behind l xs later) : Behind l (words ++ xs) (gs ++ later) := by
  obtain ⟨as, hkinds, hreads⟩ := h.reads l
  obtain ⟨front, hfront, _⟩ := h.reads .program
  obtain ⟨known, hknown⟩ := hxs.known
  obtain ⟨bs, hbs, hgives⟩ := hxs.gives
  refine ⟨?_, ⟨front ++ known, hfront.append hknown⟩, as ++ bs, hkinds.append hbs, hreads _ bs later hgives⟩
  simp [h.unmarked, hxs.unmarked]

theorem append_behind (h : Portable words gs) (hxs : Behind l xs later) : Behind l (xs ++ words) (later ++ gs) := by
  obtain ⟨as, hkinds, hgives⟩ := h.gives l
  obtain ⟨front, hfront, _⟩ := h.reads .program
  obtain ⟨known, hknown⟩ := hxs.known
  obtain ⟨bs, hbs, hbehind⟩ := hxs.gives
  refine ⟨?_, ⟨known ++ front, hknown.append hfront⟩, bs ++ as, hbs.append hkinds, hbehind.append hgives⟩
  simp [h.unmarked, hxs.unmarked]

end Portable

theorem portable_verbose : Portable ["-v"] [.verbose] := by
  refine ⟨by decide, fun l => ⟨_, .cons (ofString_verbose l) .nil, fun awaits bs later hbehind => ?_⟩⟩
  have htaken : Takes l "-v" (some (.verbose, true, none)) bs ⟨[.verbose], [], false⟩ bs := by
    refine ⟨fun p more => ?_, List.suffix_rfl, fun o hforeign => ?_⟩
    · show Except.ok (p.give .verbose, bs ++ more) = _
      simp [give, followedBy]
    · refine List.forall_mem_singleton.mpr fun h => hforeign.other true none ?_
      rw [Option.some.inj h]
  exact .option htaken rfl hbehind

theorem portable_logFile (hfile : file.toList.head? ≠ some '-') : Portable ["--log-file", file] [.logFile file] := by
  have hname : file ≠ "--" := by rintro rfl; exact hfile rfl
  refine ⟨by simp [hname.symm], fun l => ⟨_, .cons (ofString_logFile l) (.cons (ofString_of_plain hfile) .nil),
    fun awaits bs later hbehind => ?_⟩⟩
  have htaken : Takes l "--log-file" (some (.logFile, false, none)) (.plain file :: bs)
      ⟨[.logFile file], [], false⟩ bs := by
    refine ⟨fun p more => ?_, List.suffix_cons _ _, fun o hforeign => ?_⟩
    · show Except.ok (p.give (.logFile file), bs ++ more) = _
      simp [give, followedBy]
    · refine List.forall_mem_singleton.mpr fun h => hforeign.other false none ?_
      rw [Option.some.inj h]
  exact .option htaken rfl hbehind

/-! ## Settings -/

variable {before behind : List Given}

theorem last?_skip {α : Type} {f : Given → Option α} (hg : f g = none) :
    last? f (before ++ g :: behind) = last? f (before ++ behind) := by
  simp [last?, hg]

theorem last?_last {α : Type} {f : Given → Option α} {value : α} (hg : f g = some value)
    (hbehind : ∀ g ∈ behind, f g = none) : last? f (before ++ g :: behind) = some value := by
  simp [last?, hg, List.filterMap_eq_nil_iff.mpr hbehind]

theorem last?_none {α : Type} {f : Given → Option α} (h : ∀ g ∈ gs, f g = none) : last? f gs = none := by
  rw [last?, List.filterMap_eq_nil_iff.mpr h]
  rfl

theorem ofGiven_verbose : Invocation.ofGiven (before ++ .verbose :: behind) =
    { Invocation.ofGiven (before ++ behind) with verbose := true } := by
  simp [Invocation.ofGiven, last?_skip]

/-- The last log file counts. -/
theorem ofGiven_logFile (hquiet : Quiet .logFile behind) : Invocation.ofGiven (before ++ .logFile file :: behind) =
    { Invocation.ofGiven (before ++ behind) with logFile := some file } := by
  rw [Invocation.mk.injEq]
  refine ⟨by simp [Invocation.ofGiven], last?_last rfl fun g hg => ?_, by simp [Invocation.ofGiven, last?_skip]⟩
  cases g with
  | logFile s => exact absurd rfl (hquiet _ hg)
  | _ => rfl

theorem ofGiven_quiet_verbose (h : Quiet .verbose gs) : (Invocation.ofGiven gs).verbose = false := by
  have hmem : Given.verbose ∉ gs := fun hmem => h _ hmem rfl
  simpa [Invocation.ofGiven] using hmem

theorem ofGiven_quiet_logFile (h : Quiet .logFile gs) : (Invocation.ofGiven gs).logFile = none :=
  last?_none fun g hg => by
    cases g with
    | logFile s => exact absurd rfl (h _ hg)
    | _ => rfl

/-! ## Placements -/

/-- These words in front of a command, right behind it, at the end, and both in front and at the end. -/
def placements (words : List String) (c : String) (args : List String) : List (List String) :=
  [words ++ c :: args, c :: (words ++ args), c :: (args ++ words), words ++ c :: (args ++ words)]

theorem ofArguments_of_read (h : read xs = .ok gs) : Invocation.ofArguments xs = .ok (Invocation.ofGiven gs) :=
  congrArg (Except.map Invocation.ofGiven) h

/-- What a single thing sets once and for all, it sets wherever it is given. -/
theorem ofArguments_placements {words : List String} (set : Invocation → Invocation) (hc : Level.command? c = some l)
    (hwords : Portable words [g]) (hbehind : Behind l xs later)
    (hset : ∀ before behind, behind <:+ .command l :: later →
      Invocation.ofGiven (before ++ g :: behind) = set (Invocation.ofGiven (before ++ behind)))
    (hagain : ∀ i, set (set i) = set i) :
    ∀ placed ∈ placements words c xs,
      Invocation.ofArguments placed = .ok (set (Invocation.ofGiven (.command l :: later))) := by
  have hnone : Front [] [] := ⟨List.not_mem_nil, [], .nil, .nil⟩
  have hfirst := hset [] (.command l :: later) List.suffix_rfl
  have hlast := hset (.command l :: later) [] List.nil_suffix
  rw [List.append_nil] at hlast
  intro placed hplaced
  simp only [placements, List.mem_cons, List.not_mem_nil, or_false] at hplaced
  rcases hplaced with rfl | rfl | rfl | rfl
  · have hread := ofArguments_of_read (read_of_front_behind hc hwords.front hbehind)
    exact hread.trans (congrArg Except.ok hfirst)
  · have hread := ofArguments_of_read (read_of_front_behind hc hnone (hwords.behind_append hbehind))
    exact hread.trans (congrArg Except.ok (hset [.command l] later (List.suffix_cons _ _)))
  · have hread := ofArguments_of_read (read_of_front_behind hc hnone (hwords.append_behind hbehind))
    exact hread.trans (congrArg Except.ok hlast)
  · have hread := ofArguments_of_read (read_of_front_behind hc hwords.front (hwords.append_behind hbehind))
    -- What is given at the end comes after what is given in front, and sets the same again.
    have hboth := hset (g :: .command l :: later) [] List.nil_suffix
    rw [List.append_nil] at hboth
    exact hread.trans (congrArg Except.ok (hboth.trans ((congrArg set hfirst).trans (hagain _))))

/-- To be verbose and to write a log file mean the same in front of a command, right behind it and at the end. Nothing
else is set by them, and what they set is not set without them. -/
theorem settings_on_either_side {args : List String} {i : Invocation} (hcommand : Level.command? c = some l)
    (hparsed : Invocation.ofArguments (c :: args) = .ok i) (hmark : "--" ∉ args) :
    (∀ placed ∈ placements ["-v"] c args, Invocation.ofArguments placed = .ok { i with verbose := true }) ∧
      ((∀ s ∈ args, ¬ Spells l .verbose s) → i.verbose = false) ∧
      ((∀ s ∈ args, ¬ Spells l .logFile s) → i.logFile = none ∧ ∀ file, file.toList.head? ≠ some '-' →
        ∀ placed ∈ placements ["--log-file", file] c args,
          Invocation.ofArguments placed = .ok { i with logFile := some file }) := by
  obtain ⟨given, hread, rfl⟩ := map_eq_ok_iff.mp hparsed
  obtain ⟨later, hbehind, rfl⟩ := behind_of_read hcommand hmark hread
  have hquiet : ∀ {o : Choice}, o.Shared → (∀ s ∈ args, ¬ Spells l o s) → Quiet o (.command l :: later) :=
    fun ho hspelt => List.forall_mem_cons.mpr ⟨fun h => (by cases h), hbehind.quiet ho hspelt⟩
  refine ⟨?_, fun hspelt => ofGiven_quiet_verbose (hquiet (.inl rfl) hspelt), fun hspelt =>
    ⟨ofGiven_quiet_logFile (hquiet (.inr rfl) hspelt), fun file hfile => ?_⟩⟩
  · exact ofArguments_placements (fun i => { i with verbose := true }) hcommand portable_verbose hbehind
      (fun _ _ _ => ofGiven_verbose) fun _ => rfl
  · refine ofArguments_placements (fun i => { i with logFile := some file }) hcommand (portable_logFile hfile) hbehind
      (fun _ _ hsuffix => ?_) fun _ => rfl
    exact ofGiven_logFile fun g hg => hquiet (.inr rfl) hspelt g (hsuffix.subset hg)

theorem generate_settings_on_either_side :
    (∀ placed ∈ placements ["-v"] "generate" ["src", "-o", "out.json", "--inc=lib"], Invocation.ofArguments placed =
      .ok ⟨true, none, .generate "src" (some "out.json") (some ["lib"]) none⟩) ∧
    ∀ placed ∈ placements ["--log-file", "run.log"] "generate" ["src", "-o", "out.json", "--inc=lib"],
      Invocation.ofArguments placed =
        .ok ⟨false, some "run.log", .generate "src" (some "out.json") (some ["lib"]) none⟩ := by
  have hparsed : Invocation.ofArguments ["generate", "src", "-o", "out.json", "--inc=lib"] =
      .ok ⟨false, none, .generate "src" (some "out.json") (some ["lib"]) none⟩ := by rfl
  have h := settings_on_either_side (l := .generate) rfl hparsed (by decide)
  refine ⟨h.1, (h.2.2 ?_).2 "run.log" (by decide)⟩
  simp only [List.forall_mem_cons]
  exact ⟨not_spells rfl (by simp), not_spells rfl (by simp), not_spells rfl (by simp), not_spells rfl (by simp),
    List.forall_mem_nil _⟩

end ClassAtlas.CommandLine
