import ClassAtlas.Outline.Scan
import ClassAtlas.Proofs.Json.Numeral
import ClassAtlas.Proofs.Text.Matches
import ClassAtlas.Proofs.Text.Split
/-!
# Methods found by patterns

A method is found by one pattern, and named by two smaller ones that are tried on the text found. What is found declares
a name or has the form of a call, and the smaller patterns give back that name.
-/
namespace ClassAtlas.Scan

open Text Pattern

/-! ## Forms of methods -/

def IsName (cs : List Char) : Prop := Captured isWordChar cs

/-- Blanks, or nothing. -/
def IsGap (cs : List Char) : Prop := ∀ c ∈ cs, isBlank c = true

/-- A list in round brackets, up to its first closing one. -/
def IsBracketed (cs : List Char) : Prop := ∃ inside, ')' ∉ inside ∧ cs = '(' :: (inside ++ [')'])

/-- What stands between the equals sign and the list of an arrow function. -/
def IsArrowLead (cs : List Char) : Prop :=
  IsGap cs ∨ ∃ left right, IsGap left ∧ IsGap right ∧ right ≠ [] ∧ cs = left ++ ("async".toList ++ right)

/-- A function with a name, or a constant that is bound to an arrow function. -/
inductive Declares (name : List Char) : List Char → Prop
  | function {gap : List Char} (hgap : IsGap gap) (hne : gap ≠ []) : Declares name ("function".toList ++ (gap ++ name))
  | constant {gap left lead list last : List Char} (hgap : IsGap gap) (hne : gap ≠ []) (hleft : IsGap left)
      (hlead : IsArrowLead lead) (hlist : IsBracketed list) (hlast : IsGap last) :
      Declares name ("const".toList ++ (gap ++ (name ++ (left ++ '=' :: (lead ++ (list ++ (last ++ ['=', '>'])))))))

/-- A call form with a body that begins after it. -/
inductive Calls (name : List Char) : List Char → Prop
  | body {lead gap list last : List Char} (hlead : IsGap lead) (hgap : IsGap gap) (hlist : IsBracketed list)
      (hlast : IsGap last) : Calls name (lead ++ (name ++ (gap ++ (list ++ (last ++ ['{'])))))

/-! ## What is found -/

variable {before : Option Char} {name rest text : List Char} {s t : Place} {m : Found} {index : Nat}

def functionPattern : Pattern := word "function" ++ blanks1 ++ wordRun

def constantPattern : Pattern :=
  word "const" ++ blanks1 ++ wordRun ++ blanks ++ char '=' ++ blanks ++
    opt (word "async" ++ blanks1) ++ bracketed ++ blanks ++ word "=>"

def callFormPattern : Pattern := lineStart ++ blanks ++ wordRun ++ blanks ++ bracketed ++ blanks ++ char '{'

theorem methodPattern_eq : methodPattern = alt functionPattern (alt constantPattern callFormPattern) := rfl

theorem takes_blanks1 (h : Takes blanks1 s t) : ∃ gap, s.rest = gap ++ t.rest ∧ gap ≠ [] ∧ IsGap gap := h.many1

theorem takes_bracketed (h : Takes bracketed s t) : ∃ list, s.rest = list ++ t.rest ∧ IsBracketed list := by
  obtain ⟨v, hopen, hclose⟩ := takes_append h
  obtain ⟨u, hopen, hinside⟩ := takes_append hopen
  obtain ⟨inside, hinside, hplain⟩ := hinside.run
  refine ⟨'(' :: (inside ++ [')']), by simp [hopen.char, hinside, hclose.char], inside, fun hmem => ?_, rfl⟩
  simpa [notAny] using hplain _ hmem

theorem takes_arrowLead {u : Place} (h : Takes blanks s t) (hopt : Takes (opt (word "async" ++ blanks1)) t u) :
    ∃ lead, s.rest = lead ++ u.rest ∧ IsArrowLead lead := by
  obtain ⟨left, hleft, hblank⟩ := h.run
  rcases hopt.opt with hasync | rfl
  · obtain ⟨v, hword, hright⟩ := takes_append hasync
    obtain ⟨right, hright, hne, hblank'⟩ := takes_blanks1 hright
    exact ⟨left ++ ("async".toList ++ right), by simp [hleft, hword.word, hright],
      .inr ⟨left, right, hblank, hblank', hne, rfl⟩⟩
  · exact ⟨left, hleft, .inl hblank⟩

theorem declares_of_function (h : Takes functionPattern s t) :
    ∃ name text, s.rest = text ++ t.rest ∧ IsName name ∧ Declares name text := by
  obtain ⟨v, hfirst, hname⟩ := takes_append h
  obtain ⟨u, hword, hgap⟩ := takes_append hfirst
  obtain ⟨gap, hgap, hne, hblank⟩ := takes_blanks1 hgap
  obtain ⟨name, hname, hisName⟩ := hname.many1
  exact ⟨name, _, by simp [hword.word, hgap, hname], hisName, .function hblank hne⟩

theorem declares_of_constant (h : Takes constantPattern s t) :
    ∃ name text, s.rest = text ++ t.rest ∧ IsName name ∧ Declares name text := by
  obtain ⟨t₉, h, harrow⟩ := takes_append h
  obtain ⟨t₈, h, hlast⟩ := takes_append h
  obtain ⟨t₇, h, hlist⟩ := takes_append h
  obtain ⟨t₆, h, hasync⟩ := takes_append h
  obtain ⟨t₅, h, hright⟩ := takes_append h
  obtain ⟨t₄, h, hequals⟩ := takes_append h
  obtain ⟨t₃, h, hleft⟩ := takes_append h
  obtain ⟨t₂, h, hname⟩ := takes_append h
  obtain ⟨t₁, hword, hgap⟩ := takes_append h
  obtain ⟨gap, hgap, hne, hblank⟩ := takes_blanks1 hgap
  obtain ⟨name, hname, hisName⟩ := hname.many1
  obtain ⟨left, hleft, hleftBlank⟩ := hleft.run
  obtain ⟨lead, hlead, hisLead⟩ := takes_arrowLead hright hasync
  obtain ⟨list, hlist, hisList⟩ := takes_bracketed hlist
  obtain ⟨last, hlast, hlastBlank⟩ := hlast.run
  refine ⟨name, _, ?_, hisName, .constant hblank hne hleftBlank hisLead hisList hlastBlank⟩
  simp [hword.word, hgap, hname, hleft, hequals.char, hlead, hlist, hlast, harrow.word]

theorem calls_of_callForm (h : Takes callFormPattern s t) :
    ∃ name text, s.rest = text ++ t.rest ∧ IsName name ∧ Calls name text := by
  obtain ⟨t₆, h, hbrace⟩ := takes_append h
  obtain ⟨t₅, h, hlast⟩ := takes_append h
  obtain ⟨t₄, h, hlist⟩ := takes_append h
  obtain ⟨t₃, h, hgap⟩ := takes_append h
  obtain ⟨t₂, h, hname⟩ := takes_append h
  obtain ⟨t₁, hstart, hlead⟩ := takes_append h
  cases hstart
  obtain ⟨lead, hlead, hleadBlank⟩ := hlead.run
  obtain ⟨name, hname, hisName⟩ := hname.many1
  obtain ⟨gap, hgap, hgapBlank⟩ := hgap.run
  obtain ⟨list, hlist, hisList⟩ := takes_bracketed hlist
  obtain ⟨last, hlast, hlastBlank⟩ := hlast.run
  refine ⟨name, _, ?_, hisName, .body hleadBlank hgapBlank hisList hlastBlank⟩
  simp [hlead, hname, hgap, hlist, hlast, hbrace.char]

/-- A call form is looked for at the start of a line. -/
theorem startsLine_of_callForm (h : callFormPattern.matchAt before rest = some m) :
    before = none ∨ before = some '\n' := by
  by_contra hmiddle
  have hnone : callFormPattern.matchAt before rest = none := if_neg hmiddle
  rw [hnone] at h
  cases h

/-- What is found declares a name, or calls one at the start of a line. -/
theorem forms_of_matchAt (h : methodPattern.matchAt before rest = some m) :
    ∃ name, IsName name ∧ (Declares name m.text ∨ Calls name m.text ∧ (before = none ∨ before = some '\n')) := by
  have hread : ∀ {p : Pattern} {form : List Char → List Char → Prop}, p.matchAt before rest = some m →
      (∀ {s t}, Takes p s t → ∃ name text, s.rest = text ++ t.rest ∧ IsName name ∧ form name text) →
      ∃ name, IsName name ∧ form name m.text := by
    intro p form hmatch hform
    obtain ⟨t, htakes, hrest⟩ := takes_of_matchAt hmatch
    obtain ⟨name, text, htext, hname, hholds⟩ := hform htakes
    rw [List.append_cancel_right (hrest.symm.trans htext)]
    exact ⟨name, hname, hholds⟩
  rw [methodPattern_eq, matchAt_alt, matchAt_alt, Option.or_eq_some_iff, Option.or_eq_some_iff] at h
  rcases h with hfunction | ⟨-, hconstant | ⟨-, hcall⟩⟩
  · obtain ⟨name, hname, hdeclares⟩ := hread hfunction declares_of_function
    exact ⟨name, hname, .inl hdeclares⟩
  · obtain ⟨name, hname, hdeclares⟩ := hread hconstant declares_of_constant
    exact ⟨name, hname, .inl hdeclares⟩
  · obtain ⟨name, hname, hcalls⟩ := hread hcall calls_of_callForm
    exact ⟨name, hname, .inr ⟨hcalls, startsLine_of_callForm hcall⟩⟩

/-! ## What it is named -/

theorem IsName.firmEnds (h : IsName name) : FirmEnds name :=
  firmEnds_of_not_blank fun c hc => isBlank_eq_false_of_isWordChar (h.2 c hc)

theorem IsGap.not_word {gap : List Char} (h : IsGap gap) : ∀ c ∈ gap, isWordChar c = false := by
  intro c hc
  by_contra hword
  have hfirm := isBlank_eq_false_of_isWordChar (Bool.eq_true_of_not_eq_false hword)
  rw [h c hc] at hfirm
  cases hfirm

/-- A gap and another mark end a word. -/
theorem IsGap.head_not_word {gap : List Char} (h : IsGap gap) {d : Char} (hd : isWordChar d = false)
    (rest : List Char) : ∀ c ∈ (gap ++ d :: rest).head?, isWordChar c = false := by
  cases gap with
  | nil => exact forall_mem_head?_cons hd rest
  | cons e gap => exact forall_mem_head?_cons (h.not_word e List.mem_cons_self) _

theorem IsName.head_not_blank (h : IsName name) (rest : List Char) : ∀ c ∈ (name ++ rest).head?, isBlank c = false := by
  intro c hc
  rw [List.head?_append_of_ne_nil _ h.1] at hc
  exact isBlank_eq_false_of_isWordChar (h.2 c (List.mem_of_mem_head? hc))

theorem Declares.firmEnds (h : Declares name text) (hname : IsName name) : FirmEnds text := by
  cases h with
  | function hgap hne =>
    exact FirmEnds.append (by decide) (by decide) hname.firmEnds hname.1 _
  | @constant gap left lead list last =>
    have hends : FirmEnds ("const".toList ++ ((gap ++ (name ++ (left ++ '=' :: (lead ++ (list ++ last))))) ++ ['=', '>'])) :=
      FirmEnds.append (by decide) (by decide) (by decide) (by decide) _
    simpa only [List.append_assoc, List.cons_append] using hends

/-- The word after the keyword is captured as far as it goes. -/
theorem declared_of_keyword {keyword : String} {gap : List Char} (hgap : IsGap gap) (hne : gap ≠ []) (hname : IsName name)
    (hkeyword : ∀ rest, Prefers (oneOf [word "function"] (word "const")) ⟨none, keyword.toList ++ rest, []⟩
      ⟨keyword.toList.getLast?.or none, rest, []⟩) (hrest : ∀ c ∈ rest.head?, isWordChar c = false) :
    ∃ taken, declaredPattern.matchAt none (keyword.toList ++ (gap ++ (name ++ rest))) = some ⟨taken, name⟩ := by
  have hword := ((hkeyword (gap ++ (name ++ rest))).append
    (prefers_many1 hne hgap (hname.head_not_blank rest) _ [])).append (prefers_many1 hname.1 hname.2 hrest _ []).capture
  have hassoc : keyword.toList ++ (gap ++ (name ++ rest)) = (keyword.toList ++ (gap ++ name)) ++ rest := by simp
  rw [hassoc] at hword ⊢
  exact ⟨_, matchAt_of_prefers hword⟩

theorem Declares.declared (h : Declares name text) (hname : IsName name) :
    ∃ taken, declaredPattern.matchAt none text = some ⟨taken, name⟩ := by
  cases h with
  | function hgap hne =>
    have hkeyword := fun rest => (prefers_word "function" none rest []).left (word "const")
    have hend : ∀ c ∈ ([] : List Char).head?, isWordChar c = false := by simp
    simpa using declared_of_keyword hgap hne hname hkeyword hend
  | constant hgap hne hleft hlead hlist hlast =>
    have hother (rest : List Char) : ¬ "function".toList <+: "const".toList ++ rest := by simp
    have hkeyword := fun rest => (refuses_word (hother rest) none []).right (prefers_word "const" none rest [])
    exact declared_of_keyword hgap hne hname hkeyword (hleft.head_not_word (by decide) _)

theorem methodName_of_declares (h : Declares name text) (hname : IsName name) (index : Nat) :
    methodName text index = String.ofList name := by
  obtain ⟨taken, hdeclared⟩ := h.declared hname
  simp only [methodName, (h.firmEnds hname).trim_eq, hdeclared]

/-- A keyword is no name of a call, as something else than a bracket comes after it. -/
theorem refuses_declared {gap : List Char} (hname : IsName name) (hgap : IsGap gap) (rest : List Char) :
    Refuses declaredPattern ⟨none, name ++ (gap ++ '(' :: rest), []⟩ := by
  refine refuses_of_not_takes fun t htakes => ?_
  obtain ⟨u, hfirst, hcapture⟩ := takes_append htakes
  obtain ⟨v, hkeyword, hblanks⟩ := takes_append hfirst
  obtain ⟨gap', hgap', hne, hblank⟩ := takes_blanks1 hblanks
  obtain ⟨keyword, hkeyword, hword⟩ : ∃ keyword, name ++ (gap ++ '(' :: rest) = keyword ++ v.rest ∧
      ∀ c ∈ keyword, isWordChar c = true := by
    cases hkeyword with
    | left taken => exact ⟨_, taken.word, List.all_eq_true.mp (by decide)⟩
    | right _ taken => exact ⟨_, taken.word, List.all_eq_true.mp (by decide)⟩
  obtain ⟨declared, hdeclared, hdeclaredName⟩ : ∃ declared, u.rest = declared ++ t.rest ∧ IsName declared := by
    cases hcapture with
    | capture inner between => exact inner.many1
  -- The word in front is the keyword, and behind the same blanks there is a bracket and a word.
  have hbracket : ∀ c ∈ (gap ++ '(' :: rest).head?, isWordChar c = false := hgap.head_not_word (by decide) rest
  have hafter : ∀ c ∈ v.rest.head?, isWordChar c = false := by
    rw [hgap', List.head?_append_of_ne_nil _ hne]
    exact fun c hc => hblank.not_word c (List.mem_of_mem_head? hc)
  obtain ⟨-, hrest⟩ := run_unique hname.2 hbracket hword hafter hkeyword
  rw [hgap', hdeclared] at hrest
  obtain ⟨-, hmark⟩ := run_unique hgap (forall_mem_head?_cons (by decide) rest) hblank
    (hdeclaredName.head_not_blank t.rest) hrest
  obtain ⟨c, more, rfl⟩ := List.exists_cons_of_ne_nil hdeclaredName.1
  obtain ⟨rfl, -⟩ := List.cons.inj hmark
  exact absurd (hdeclaredName.2 '(' List.mem_cons_self) (by decide)

/-- The word in front of a bracket is captured. -/
theorem call_of_name {gap : List Char} (hname : IsName name) (hgap : IsGap gap) (rest : List Char) :
    ∃ taken, callPattern.matchAt none (name ++ (gap ++ '(' :: rest)) = some ⟨taken, name⟩ := by
  have hword := prefers_many1 hname.1 hname.2 (hgap.head_not_word (by decide : isWordChar '(' = false) rest) none []
  have hcall := (hword.capture.append (prefers_many hgap (forall_mem_head?_cons (by decide) rest) _ name)).append
    (prefers_char '(' _ rest name)
  have hassoc : name ++ (gap ++ '(' :: rest) = (name ++ (gap ++ ['('])) ++ rest := by simp
  rw [hassoc] at hcall ⊢
  exact ⟨_, matchAt_of_prefers hcall⟩

theorem methodName_of_calls (h : Calls name text) (hname : IsName name) (index : Nat) :
    methodName text index = if String.ofList name ∈ controlWords then s!"method_{index}" else String.ofList name := by
  obtain @⟨lead, gap, _, last, hlead, hgap, ⟨inside, -, rfl⟩, -⟩ := h
  have hfirm : FirmEnds (name ++ ((gap ++ ('(' :: (inside ++ [')']) ++ last)) ++ ['{'])) :=
    hname.firmEnds.append hname.1 (by decide) (by decide) _
  simp only [List.append_assoc, List.cons_append, List.nil_append] at hfirm
  have hbody : trim (lead ++ (name ++ (gap ++ (('(' :: (inside ++ [')'])) ++ (last ++ ['{']))))) =
      name ++ (gap ++ '(' :: (inside ++ (')' :: (last ++ ['{'])))) := by
    rw [trim_blank_append hlead]
    simpa only [List.append_assoc, List.cons_append, List.nil_append] using hfirm.trim_eq
  obtain ⟨taken, hcall⟩ := call_of_name hname hgap (inside ++ (')' :: (last ++ ['{'])))
  simp only [methodName, hbody, matchAt_eq_none (refuses_declared hname hgap _), hcall, List.contains_iff_mem]

/-! ## All methods of a text -/

theorem isWordChar_of_isDigit {c : Char} (hc : c.isDigit = true) : isWordChar c = true := by
  have hsmall : c.toNat < 128 := by
    simp only [Char.isDigit, Bool.and_eq_true, decide_eq_true_eq] at hc
    have := UInt32.le_iff_toNat_le.mp hc.2
    have hval : c.toNat = c.val.toNat := rfl
    simp at this
    omega
  rw [isWordChar, if_pos hsmall]
  simp [Char.isAlphanum, hc]

/-- A number behind a word makes a longer word. -/
theorem isName_numbered (index : Nat) : IsName (s!"method_{index}").toList := by
  have hchars : (s!"method_{index}").toList = "method_".toList ++ Nat.toDigits 10 index := by
    simp [toString, Nat.repr]
  rw [hchars]
  refine ⟨by simp, fun c hc => ?_⟩
  rcases List.mem_append.mp hc with hword | hdigit
  · exact List.all_eq_true.mp (by decide : "method_".toList.all isWordChar = true) c hword
  · exact isWordChar_of_isDigit (Nat.isDigit_of_mem_toDigits (by decide) (by decide) hdigit)

theorem length_methodsFrom (found : List Found) (first : Nat) : (methodsFrom first found).length = found.length := by
  induction found generalizing first with
  | nil => rfl
  | cons m found ih => rw [methodsFrom, List.length_cons, List.length_cons, ih]

theorem getElem?_methodsFrom (found : List Found) (first i : Nat) : (methodsFrom first found)[i]? =
    found[i]?.map fun m => { name := methodName m.text (first + i) } := by
  induction found generalizing first i with
  | nil => rfl
  | cons m found ih =>
    cases i with
    | zero => rfl
    | succ i =>
      rw [methodsFrom, List.getElem?_cons_succ, List.getElem?_cons_succ, ih, Nat.add_right_comm]
      rfl

theorem Declares.ne_nil (h : Declares name text) : text ≠ [] := by cases h <;> simp

theorem Calls.ne_nil (h : Calls name text) : text ≠ [] := by cases h; simp

theorem text_ne_nil_of_matchAt (h : methodPattern.matchAt before rest = some m) : m.text ≠ [] := by
  obtain ⟨name, -, hdeclares | ⟨hcalls, -⟩⟩ := forms_of_matchAt h
  · exact hdeclares.ne_nil
  · exact hcalls.ne_nil

/-- The part stands at the start of the text or behind a line feed. -/
def StartsLine (part : Part) : Prop := ∀ c ∈ part.before.getLast?, c = '\n'

/-- Each match gives one method, in order. It declares a name or calls one at the start of a line, and that is the name
of the method, unless it is called and is a control word. Then the number of the match is in the name. -/
theorem methods_of_matches (text : List Char) (base : String) : ∃ parts : List Part,
    List.Forall₂ (Part.IsMatch methodPattern text) (methodPattern.findAll text) parts ∧
    parts.Pairwise Part.Precedes ∧ (outline text base).methods.length = parts.length ∧
    ∀ (i : ℕ) (part : Part), parts[i]? = some part →
      ∃ method, (outline text base).methods[i]? = some ({ name := method } : Method) ∧ IsName method.toList ∧
      (∃ name, IsName name ∧ (Declares name part.chars ∨ Calls name part.chars ∧ StartsLine part)) ∧
      ∀ name, IsName name → (Declares name part.chars → method = String.ofList name) ∧
        (Calls name part.chars →
          method = if String.ofList name ∈ controlWords then s!"method_{i}" else String.ofList name) := by
  obtain ⟨parts, hparts, horder⟩ := exists_parts (fun _ _ _ => text_ne_nil_of_matchAt) text
  have hmethods : ∀ i, (outline text base).methods[i]? =
      (methodPattern.findAll text)[i]?.map fun m => ({ name := methodName m.text i } : Method) := by
    intro i
    simpa [outline] using getElem?_methodsFrom (methodPattern.findAll text) 0 i
  have hlength : (outline text base).methods.length = parts.length :=
    (length_methodsFrom _ 0).trans hparts.length_eq
  refine ⟨parts, hparts, horder, hlength, fun i part hpart => ?_⟩
  obtain ⟨m, hm, hmatch⟩ : ∃ m, (methodPattern.findAll text)[i]? = some m ∧ Part.IsMatch methodPattern text m part := by
    obtain ⟨hi, rfl⟩ := List.getElem?_eq_some_iff.mp hpart
    have hi' : i < (methodPattern.findAll text).length := hparts.length_eq ▸ hi
    exact ⟨_, List.getElem?_eq_getElem hi', hparts.get hi' hi⟩
  obtain ⟨name, hname, hform⟩ := forms_of_matchAt hmatch.found
  rw [← hmatch.chars_eq] at hform
  refine ⟨methodName part.chars i, by rw [hmethods, hm, hmatch.chars_eq]; rfl, ?_, ⟨name, hname, ?_⟩, ?_⟩
  · rcases hform with hdeclares | ⟨hcalls, -⟩
    · rw [methodName_of_declares hdeclares hname, String.toList_ofList]
      exact hname
    · rw [methodName_of_calls hcalls hname]
      split
      · exact isName_numbered i
      · rwa [String.toList_ofList]
  · refine hform.imp_right (And.imp_right fun hbefore c hc => ?_)
    rcases hbefore with hnone | hfeed
    · rw [hnone] at hc
      cases hc
    · rw [hfeed] at hc
      exact (Option.some.inj hc).symm
  · exact fun other hother => ⟨fun h => methodName_of_declares h hother i, fun h => methodName_of_calls h hother i⟩

/-- A blank line in front and a longer word around do not matter. -/
example : (outline "\n if (x) \x7b\nrun (y) \x7b\nmyfunction go".toList "a").methods.map (·.name) =
    ["method_0", "run", "go"] := by decide

end ClassAtlas.Scan
