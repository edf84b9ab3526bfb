import ClassAtlas.Proofs.Json.Reading
import Mathlib.Data.List.Infix
import Mathlib.Data.List.TakeWhile
/-!
# Limits of reading

A text is read, or it is told to be malformed, unless more levels are opened in it than a reader allows or a number in
it has too many digits. Nothing but the text itself brings a reader there: it needs an opening bracket for each level,
and all the digits in one run.
-/
namespace ClassAtlas.Json

variable {α β : Type} {depth fuel count : Nat} {cs ds rest acc : List Char} {e : ReadError} {r : Reading α}

/-- A bracket that opens a level. -/
def isOpening (c : Char) : Bool := c = '[' || c = '{'

/-- A run of digits that is too long to be read. -/
def HasLongRun (count : Nat) (cs : List Char) : Prop :=
  ∃ run, run <:+: cs ∧ (∀ c ∈ run, isDigit c = true) ∧ run.length = count ∧ maxDigits < count

theorem not_hasLongRun_of_length (h : cs.length ≤ maxDigits) : ¬ HasLongRun count cs := by
  rintro ⟨run, hrun, _, rfl, hlong⟩
  exact absurd (Nat.lt_of_lt_of_le hlong hrun.length_le) (Nat.not_lt.mpr h)

/-- A reading leaves an end of its text, and it exceeds a limit only where the text does. -/
def Bears (depth : Nat) (cs : List Char) : Reading α → Prop
  | .ok (_, rest) => rest <:+ cs
  | .error (.malformed _ _) => True
  | .error (.tooDeep _) => depth < cs.countP isOpening
  | .error (.tooManyDigits count) => HasLongRun count cs

theorem Bears.mono (h : Bears depth cs r) (hsuffix : cs <:+ ds) : Bears depth ds r := by
  match r, h with
  | .ok (_, rest), h => exact h.trans hsuffix
  | .error (.malformed _ _), _ => trivial
  | .error (.tooDeep _), h => exact Nat.lt_of_lt_of_le h (hsuffix.sublist.countP_le)
  | .error (.tooManyDigits count), ⟨run, hrun, hdigits⟩ => exact ⟨run, hrun.trans hsuffix.isInfix, hdigits⟩

/-- A fault in a part is one of the whole. -/
theorem Bears.error (h : Bears (α := α) depth cs (.error e)) : Bears (α := β) depth cs (.error e) := by
  cases e <;> exact h

theorem bears_fail (fault : Fault) : Bears (α := α) depth cs (fail fault rest) := trivial

theorem skipSpace_suffix (cs : List Char) : skipSpace cs <:+ cs := List.dropWhile_suffix _

theorem suffix_of_skipSpace {c : Char} (h : skipSpace cs = c :: rest) : rest <:+ cs :=
  (List.suffix_cons c rest).trans (h ▸ skipSpace_suffix cs)

/-! ## Texts -/

theorem unit?_suffix {n : Nat} (h : unit? cs = some (n, rest)) : rest <:+ cs := by
  unfold unit? at h
  split at h
  · cases h
  · obtain ⟨_, _, heq⟩ := Option.map_eq_some_iff.mp h
    cases heq
    exact List.drop_suffix _ _

theorem bears_unitEscape? (depth : Nat) (cs : List Char) : Bears depth cs (unitEscape? cs) := by
  unfold unitEscape?
  cases hfirst : unit? (cs.drop 1) with
  | none => exact bears_fail _
  | some first =>
    obtain ⟨n, rest⟩ := first
    have hrest : rest <:+ cs := (unit?_suffix hfirst).trans (List.drop_suffix _ _)
    dsimp only
    split
    · rename_i more
      have hmore : more <:+ cs := ((List.suffix_cons _ _).trans (List.suffix_cons _ _)).trans hrest
      split
      · cases hsecond : unit? more with
        | none => exact bears_fail _
        | some second =>
          dsimp only
          split
          · exact (unit?_suffix hsecond).trans hmore
          · exact hrest
      · exact hrest
    · exact hrest

theorem bears_readString (depth start fuel : Nat) (acc cs : List Char) :
    Bears depth cs (readString start fuel acc cs) := by
  induction fuel generalizing acc cs with
  | zero => trivial
  | succ fuel ih =>
    unfold readString
    split
    · trivial
    · exact List.suffix_cons _ _
    · rename_i rest
      split
      · trivial
      · rename_i more
        have hescape := (bears_unitEscape? depth ('u' :: more)).mono (List.suffix_cons '\\' _)
        split
        · rename_i hfault
          rw [hfault] at hescape
          exact hescape.error
        · rename_i hread
          rw [hread] at hescape
          exact (ih _ _).mono hescape
      · split
        · exact (ih _ _).mono ((List.suffix_cons _ _).trans (List.suffix_cons _ _))
        · exact bears_fail _
    · split
      · exact bears_fail _
      · exact (ih _ _).mono (List.suffix_cons _ _)

/-! ## Numbers -/

theorem fractionPart_suffix (cs : List Char) : (fractionPart cs).2 <:+ cs := by
  unfold fractionPart
  split
  · split
    · exact (List.dropWhile_suffix _).trans (List.suffix_cons _ _)
    · exact List.suffix_rfl
  · exact List.suffix_rfl

/-- The digits of an exponent are taken off, or the text stays as it is. -/
theorem exponentDigits_suffix {body : List Char} {n : Option Int} (hbody : body <:+ cs) :
    (if (body.takeWhile isDigit).isEmpty then (none, cs) else (n, body.dropWhile isDigit)).2 <:+ cs := by
  split
  · exact List.suffix_rfl
  · exact (List.dropWhile_suffix _).trans hbody

theorem exponentPart_suffix (cs : List Char) : (exponentPart cs).2 <:+ cs := by
  unfold exponentPart
  split
  · rename_i c rest
    split
    · dsimp only
      split
      · exact exponentDigits_suffix ((List.suffix_cons _ _).trans (List.suffix_cons _ _))
      · exact exponentDigits_suffix ((List.suffix_cons _ _).trans (List.suffix_cons _ _))
      · exact exponentDigits_suffix (List.suffix_cons _ _)
    · exact List.suffix_rfl
  · exact List.suffix_rfl

theorem bears_readNumber (depth : Nat) (cs : List Char) : Bears depth cs (readNumber cs) := by
  unfold readNumber
  split
  rename_i negative body hsign
  have hbody : body <:+ cs := by
    split at hsign
    · cases hsign
      exact List.suffix_cons _ _
    · cases hsign
      exact List.suffix_rfl
  split
  · exact bears_fail _
  · rename_i c more
    split
    · exact bears_fail _
    · have hend : ∀ {after}, after <:+ cs → (exponentPart (fractionPart after).2).2 <:+ cs :=
        fun hafter => ((exponentPart_suffix _).trans (fractionPart_suffix _)).trans hafter
      dsimp only
      split
      · have hafter := hend ((List.suffix_cons c more).trans hbody)
        split
        · rw [if_neg (by decide)]
          exact hafter
        · exact hafter
      · have hafter := hend ((List.dropWhile_suffix isDigit).trans hbody)
        split
        · split
          · have hrun : (c :: more).takeWhile isDigit <:+: cs :=
              (List.takeWhile_prefix _).isInfix.trans hbody.isInfix
            exact ⟨_, hrun, fun _ => List.mem_takeWhile_imp, rfl, ‹_›⟩
          · exact hafter
        · exact hafter

/-! ## Values -/

/-- The readers of values, items and members bear out what they do with a number of steps. -/
structure BearsAll (fuel : Nat) : Prop where
  value (depth : Nat) (cs : List Char) : Bears depth cs (readValue fuel depth cs)
  items (depth : Nat) (acc : List Json) (cs : List Char) : Bears depth cs (readItems fuel depth acc cs)
  members (depth : Nat) (acc : List (String × Json)) (cs : List Char) :
    Bears depth cs (readMembers fuel depth acc cs)

/-- What is read inside an opening bracket has one level less. -/
theorem Bears.level {c : Char} (hc : isOpening c = true) (h : Bears depth cs r) : Bears (depth + 1) (c :: cs) r := by
  match r, h with
  | .ok (_, rest), h => exact h.trans (List.suffix_cons _ _)
  | .error (.malformed _ _), _ => trivial
  | .error (.tooDeep _), h =>
    show depth + 1 < (c :: cs).countP isOpening
    rw [List.countP_cons_of_pos hc]
    exact Nat.succ_lt_succ h
  | .error (.tooManyDigits count), ⟨run, hrun, hdigits⟩ =>
    exact ⟨run, hrun.trans (List.suffix_cons _ _).isInfix, hdigits⟩

theorem bears_tooDeep {c : Char} (hc : isOpening c = true) (inArray : Bool) :
    Bears (α := α) 0 (c :: cs) (.error (.tooDeep inArray)) := by
  show 0 < (c :: cs).countP isOpening
  rw [List.countP_cons_of_pos hc]
  exact Nat.succ_pos _

theorem bears_readText (depth : Nat) (cs : List Char) : Bears depth cs (readText cs) := bears_readString _ _ _ _ _

theorem bearsAll_zero : BearsAll 0 := ⟨fun _ _ => trivial, fun _ _ _ => trivial, fun _ _ _ => trivial⟩

theorem bearsAll_succ (ih : BearsAll fuel) : BearsAll (fuel + 1) := by
  constructor
  case value =>
    intro depth cs
    unfold readValue
    split
    · exact bears_fail _
    · rename_i rest
      have htext := (bears_readText depth rest).mono (List.suffix_cons '"' _)
      split
      · rename_i hread
        rw [hread] at htext
        exact htext.error
      · rename_i hread
        rw [hread] at htext
        exact htext
    · rename_i rest
      split
      · exact bears_tooDeep rfl _
      · split
        · exact (suffix_of_skipSpace ‹_›).trans (List.suffix_cons _ _)
        · exact ((ih.members _ _ _).mono (skipSpace_suffix rest)).level rfl
    · rename_i rest
      split
      · exact bears_tooDeep rfl _
      · split
        · exact (suffix_of_skipSpace ‹_›).trans (List.suffix_cons _ _)
        · exact ((ih.items _ _ _).mono (skipSpace_suffix rest)).level rfl
    · split
      · exact List.drop_suffix _ _
      · exact bears_readNumber _ _
  case items =>
    intro depth acc cs
    unfold readItems
    have hvalue := ih.value depth cs
    split
    · rename_i hread
      rw [hread] at hvalue
      exact hvalue.error
    · rename_i v rest hread
      rw [hread] at hvalue
      split
      · exact (suffix_of_skipSpace ‹_›).trans hvalue
      · exact (ih.items _ _ _).mono (((skipSpace_suffix _).trans (suffix_of_skipSpace ‹_›)).trans hvalue)
      · exact bears_fail _
  case members =>
    intro depth acc cs
    unfold readMembers
    split
    · rename_i rest
      have hname := (bears_readText depth rest).mono (List.suffix_cons '"' _)
      split
      · rename_i hread
        rw [hread] at hname
        exact hname.error
      · rename_i name afterName hread
        rw [hread] at hname
        split
        · rename_i afterColon hcolon
          have hcolon := (suffix_of_skipSpace hcolon).trans hname
          have hvalue := (ih.value depth (skipSpace afterColon)).mono ((skipSpace_suffix _).trans hcolon)
          split
          · rename_i hread
            rw [hread] at hvalue
            exact hvalue.error
          · rename_i v afterValue hread
            rw [hread] at hvalue
            dsimp only
            split
            · exact (suffix_of_skipSpace ‹_›).trans hvalue
            · exact (ih.members _ _ _).mono (((skipSpace_suffix _).trans (suffix_of_skipSpace ‹_›)).trans hvalue)
            · exact bears_fail _
        · exact bears_fail _
    · exact bears_fail _

theorem bearsAll (fuel : Nat) : BearsAll fuel := by
  induction fuel with
  | zero => exact bearsAll_zero
  | succ fuel ih => exact bearsAll_succ ih

/-! ## Documents -/

theorem bears_readDeep (h : readDeep depth cs = .error e) : Bears (α := Json) depth cs (.error e) := by
  unfold readDeep at h
  split at h
  · cases h
    trivial
  · have hvalue := ((bearsAll (2 * cs.length + 2)).value depth (skipSpace cs)).mono (skipSpace_suffix cs)
    unfold readValueText at h
    split at h
    · rename_i hread
      rw [hread] at hvalue
      cases h
      exact hvalue
    · split at h
      · cases h
      · cases h
        trivial

/-- A text that is nested too deeply has more opening brackets than there are levels. -/
theorem lt_countP_of_tooDeep {inArray : Bool} (h : readDeep depth cs = .error (.tooDeep inArray)) :
    depth < cs.countP isOpening := bears_readDeep h

/-- A text with too many digits has them in one run. -/
theorem hasLongRun_of_tooManyDigits (h : readDeep depth cs = .error (.tooManyDigits count)) : HasLongRun count cs :=
  bears_readDeep h

/-- A whole number that is too long is not read. -/
theorem readDeep_of_digits (hdigits : ∀ c ∈ cs, isDigit c = true) (hzero : cs.head? ≠ some '0')
    (hlong : maxDigits < cs.length) : readDeep depth cs = .error (.tooManyDigits cs.length) := by
  obtain ⟨c, more, rfl⟩ := List.exists_cons_of_length_pos (Nat.zero_lt_of_lt hlong)
  have hdigit := hdigits c List.mem_cons_self
  have hhead : c ≠ '0' := fun h => hzero (by rw [h, List.head?_cons])
  obtain ⟨hblank, _, _, hquote, hbracket, hbrace⟩ := isDigit_signs hdigit
  have hminus : c ≠ '-' := by
    rintro rfl
    cases hdigit
  have hmark : (c :: more).head? ≠ some (Char.ofNat 0xFEFF) := by
    rw [List.head?_cons]
    rintro heq
    rw [Option.some.inj heq] at hdigit
    cases hdigit
  have htake : (c :: more).takeWhile isDigit = c :: more := List.takeWhile_eq_self_iff.mpr hdigits
  have hdrop : (c :: more).dropWhile isDigit = [] := List.dropWhile_eq_nil_iff.mpr hdigits
  have hnumber : readNumber (c :: more) = .error (.tooManyDigits (c :: more).length) := by
    unfold readNumber
    split
    rename_i negative body hsign
    obtain ⟨rfl, rfl⟩ : false = negative ∧ c :: more = body := by
      split at hsign
      · rename_i heq
        exact absurd (List.cons.inj heq).1 hminus
      · exact Prod.mk.inj hsign
    simp only [hdigit, hhead, htake, hdrop, hlong, Bool.not_true, Bool.false_eq_true, if_false, if_true]
    rfl
  have hskip : skipSpace (c :: more) = c :: more := List.dropWhile_cons_of_neg (by simp [hblank])
  have hword := (find?_wordValues_of_isDigit hdigit more).1
  rw [readDeep, if_neg hmark, readValueText, hskip, readValue_number ⟨hquote, hbracket, hbrace⟩ hword, hnumber]

end ClassAtlas.Json
