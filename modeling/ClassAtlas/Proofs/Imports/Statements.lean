import ClassAtlas.Imports
import ClassAtlas.Proofs.Text.Preference
import ClassAtlas.Proofs.Text.Split
/-!
# Import statements

Of a text that is made of import statements each one is found, whatever it binds, and with it the specifier that it
imports from.
-/
namespace ClassAtlas.Imports

open Text Pattern

/-! ## Written statements -/

/-- A name of word characters. -/
structure Name where
  chars : List Char
  ne_nil : chars ≠ []
  word : ∀ c ∈ chars, isWordChar c = true

/-- What stands in braces. It may be any text that does not close them. -/
structure Bindings where
  chars : List Char
  ne_nil : chars ≠ []
  open_ : '}' ∉ chars

def Bindings.text (bs : Bindings) : List Char := '{' :: ' ' :: (bs.chars ++ [' ', '}'])

/-- What is imported under which names. -/
inductive Clause where
  | default (name : Name)
  | named (bindings : Bindings)
  | all (name : Name)
  | both (name : Name) (bindings : Bindings)

def Clause.text : Clause → List Char
  | .default name => name.chars
  | .named bindings => bindings.text
  | .all name => ['*', ' ', 'a', 's', ' '] ++ name.chars
  | .both name bindings => name.chars ++ (',' :: ' ' :: bindings.text)

/-- An import of something from a specifier in quotes. -/
structure Statement where
  clause : Clause
  quote : Char
  quotes : isQuote quote = true
  specifier : List Char
  ne_nil : specifier ≠ []
  plain : ∀ c ∈ specifier, isQuote c = false

/-- The part of a statement after what it binds. -/
def Statement.source (s : Statement) : List Char := [' ', 'f', 'r', 'o', 'm', ' '] ++ s.quote :: (s.specifier ++ [s.quote])

def Statement.text (s : Statement) : List Char := ['i', 'm', 'p', 'o', 'r', 't', ' '] ++ (s.clause.text ++ s.source)

/-- The text of some statements, each on lines of its own. -/
def textOf (statements : List Statement) : List Char :=
  List.intercalate [';', '\n'] (statements.map Statement.text)

/-! ## How a statement is read -/

/-- The part of the pattern for what a statement binds first. -/
def binderPattern : Pattern :=
  oneOf [braced, wordRun] (char '*' ++ blanks1 ++ word "as" ++ blanks1 ++ wordRun)

def clausePattern : Pattern := opt binderPattern ++ blanks ++ opt (char ',' ++ blanks ++ braced) ++ blanks

def sourcePattern : Pattern :=
  word "from" ++ blanks1 ++ one isQuote ++ capture (many1 fun c => !isQuote c) ++ one isQuote

variable {before : Option Char} {rest captured : List Char}

theorem prefers_blank (hrest : ∀ c ∈ rest.head?, isBlank c = false) (before : Option Char) (captured : List Char) :
    Prefers blanks1 ⟨before, ' ' :: rest, captured⟩ ⟨some ' ', rest, captured⟩ :=
  prefers_many1 (List.cons_ne_nil ' ' []) (List.forall_mem_singleton.mpr rfl) hrest before captured

theorem prefers_blanks (hrest : ∀ c ∈ rest.head?, isBlank c = false) (before : Option Char) (captured : List Char) :
    Prefers blanks ⟨before, ' ' :: rest, captured⟩ ⟨some ' ', rest, captured⟩ :=
  prefers_many (List.forall_mem_singleton.mpr (rfl : isBlank ' ' = true)) hrest before captured

theorem prefers_no_blanks (hrest : ∀ c ∈ rest.head?, isBlank c = false) (before : Option Char) (captured : List Char) :
    Prefers blanks ⟨before, rest, captured⟩ ⟨before, rest, captured⟩ :=
  prefers_many (List.forall_mem_nil _) hrest before captured

theorem Name.head_word (name : Name) (rest : List Char) : ∀ c ∈ (name.chars ++ rest).head?, isWordChar c = true := by
  intro c hc
  rw [List.head?_append_of_ne_nil _ name.ne_nil] at hc
  exact name.word c (List.mem_of_mem_head? hc)

theorem Name.prefers (name : Name) (hrest : ∀ c ∈ rest.head?, isWordChar c = false) (before : Option Char)
    (captured : List Char) : Prefers wordRun ⟨before, name.chars ++ rest, captured⟩
      ⟨name.chars.getLast?.or before, rest, captured⟩ :=
  prefers_many1 name.ne_nil name.word hrest before captured

/-- No name begins with a mark. -/
theorem Name.mark_not_mem_head? (name : Name) {c : Char} (hc : isWordChar c = false) (rest : List Char) :
    c ∉ (name.chars ++ rest).head? := by
  intro hhead
  rw [name.head_word rest c hhead] at hc
  cases hc

theorem Bindings.prefers (bs : Bindings) (before : Option Char) (rest captured : List Char) :
    Prefers braced ⟨before, bs.text ++ rest, captured⟩ ⟨some '}', rest, captured⟩ := by
  have hinside : ∀ c ∈ ' ' :: (bs.chars ++ [' ']), (c != '}') = true := by
    intro c hc
    rw [bne_iff_ne]
    rintro rfl
    simp [bs.open_] at hc
  have hclose : ∀ c ∈ ('}' :: rest).head?, (c != '}') = false := by simp
  have hrun := ((prefers_char '{' before _ captured).append
    (prefers_many1 (List.cons_ne_nil _ _) hinside hclose _ captured)).append (prefers_char '}' _ rest captured)
  rw [Bindings.text]
  simp only [List.cons_append, List.append_assoc, List.nil_append] at hrun ⊢
  exact hrun

theorem refuses_braced (hrest : '{' ∉ rest.head?) (before : Option Char) (captured : List Char) :
    Refuses braced ⟨before, rest, captured⟩ :=
  ((refuses_char hrest before captured).append _).append _

theorem Bindings.prefers_binder (bs : Bindings) (before : Option Char) (rest captured : List Char) :
    Prefers binderPattern ⟨before, bs.text ++ rest, captured⟩ ⟨some '}', rest, captured⟩ :=
  (bs.prefers before rest captured).left _

theorem Name.prefers_binder (name : Name) (hrest : ∀ c ∈ rest.head?, isWordChar c = false) (before : Option Char)
    (captured : List Char) : Prefers binderPattern ⟨before, name.chars ++ rest, captured⟩
      ⟨name.chars.getLast?.or before, rest, captured⟩ :=
  (refuses_braced (name.mark_not_mem_head? (by decide) rest) before captured).right
    ((name.prefers hrest before captured).left _)

theorem Name.prefers_binder_all (name : Name) (hrest : ∀ c ∈ rest.head?, isWordChar c = false)
    (before : Option Char) (captured : List Char) :
    Prefers binderPattern ⟨before, '*' :: ' ' :: 'a' :: 's' :: ' ' :: (name.chars ++ rest), captured⟩
      ⟨name.chars.getLast?.or (some ' '), rest, captured⟩ := by
  have has : ∀ c ∈ ('a' :: 's' :: ' ' :: (name.chars ++ rest)).head?, isBlank c = false :=
    forall_mem_head?_cons (by decide) _
  have hname : ∀ c ∈ (name.chars ++ rest).head?, isBlank c = false :=
    fun c hc => isBlank_eq_false_of_isWordChar (name.head_word rest c hc)
  have hstar := (((((prefers_char '*' before _ captured).append (prefers_blank has _ captured)).append
    (prefers_word "as" _ _ captured)).append (prefers_blank hname _ captured)).append
      (name.prefers hrest _ captured))
  exact (refuses_braced (by simp) before captured).right
    ((refuses_many1 (forall_mem_head?_cons (by decide) _) before captured).right hstar)

theorem Clause.head_not_blank (clause : Clause) (rest : List Char) :
    ∀ c ∈ (clause.text ++ rest).head?, isBlank c = false := by
  have hname (name : Name) (rest : List Char) : ∀ c ∈ (name.chars ++ rest).head?, isBlank c = false :=
    fun c hc => isBlank_eq_false_of_isWordChar (name.head_word rest c hc)
  cases clause with
  | default name => exact hname name rest
  | named bindings => exact forall_mem_head?_cons (by decide) _
  | all name => exact forall_mem_head?_cons (by decide) _
  | both name bindings =>
    rw [Clause.text, List.append_assoc]
    exact hname name _

/-- What a statement binds is read up to the word that comes next. -/
theorem Clause.prefers (clause : Clause) (before : Option Char) (rest captured : List Char) :
    Prefers clausePattern ⟨before, clause.text ++ ' ' :: 'f' :: rest, captured⟩ ⟨some ' ', 'f' :: rest, captured⟩ := by
  have hf : ∀ c ∈ ('f' :: rest).head?, isBlank c = false := forall_mem_head?_cons (by decide) rest
  have hblank : ∀ c ∈ (' ' :: 'f' :: rest).head?, isWordChar c = false := forall_mem_head?_cons (by decide) _
  -- After a single binding there is a blank, no comma and no other blank.
  have hsingle {s : Place} {after : Option Char} (hs : Prefers binderPattern s ⟨after, ' ' :: 'f' :: rest, captured⟩) :
      Prefers clausePattern s ⟨some ' ', 'f' :: rest, captured⟩ :=
    ((hs.opt.append (prefers_blanks hf after captured)).append
      (((refuses_char (by simp) _ captured).append _).append _).opt).append (prefers_no_blanks hf _ captured)
  cases clause with
  | default name => exact hsingle (name.prefers_binder hblank before captured)
  | named bindings => exact hsingle (bindings.prefers_binder before _ captured)
  | all name => exact hsingle (name.prefers_binder_all hblank before captured)
  | both name bindings =>
    have hend : ∀ c ∈ (',' :: ' ' :: (bindings.text ++ ' ' :: 'f' :: rest)).head?, isWordChar c = false :=
      forall_mem_head?_cons (by decide) _
    have hname := name.prefers_binder hend before captured
    have hcomma := ((prefers_char ',' (name.chars.getLast?.or before) _ captured).append
      (prefers_blanks (forall_mem_head?_cons (by decide) _) _ captured)).append
        (bindings.prefers _ (' ' :: 'f' :: rest) captured)
    have hall := ((hname.opt.append (prefers_no_blanks (forall_mem_head?_cons (by decide) _) _ captured)).append
      hcomma.opt).append (prefers_blanks hf _ captured)
    simp only [Clause.text, List.append_assoc, List.cons_append]
    exact hall

theorem Statement.prefers_source (s : Statement) (before : Option Char) (rest : List Char) :
    Prefers sourcePattern
      ⟨before, 'f' :: 'r' :: 'o' :: 'm' :: ' ' :: s.quote :: (s.specifier ++ s.quote :: rest), []⟩
      ⟨some s.quote, rest, s.specifier⟩ := by
  have hquote : isBlank s.quote = false := by
    have hquotes := s.quotes
    simp only [isQuote, Bool.or_eq_true, beq_iff_eq] at hquotes
    obtain h | h := hquotes <;> rw [h] <;> decide
  have hspecifier : ∀ c ∈ s.specifier, (!isQuote c) = true := fun c hc => by rw [s.plain c hc]; rfl
  have hend : ∀ c ∈ (s.quote :: rest).head?, (!isQuote c) = false :=
    forall_mem_head?_cons (by rw [s.quotes]; rfl) rest
  exact ((((prefers_word "from" before _ []).append (prefers_blank (forall_mem_head?_cons hquote _) _ [])).append
    (prefers_one s.quotes _ _ [])).append (prefers_many1 s.ne_nil hspecifier hend _ []).capture).append
      (prefers_one s.quotes _ rest _)

/-- The pattern goes the way a statement is written, and captures the specifier. -/
theorem Statement.prefers (s : Statement) (before : Option Char) (rest : List Char) :
    Prefers importPattern ⟨before, s.text ++ rest, []⟩ ⟨some s.quote, rest, s.specifier⟩ := by
  have hkeyword (rest : List Char) : Prefers (word "import")
      ⟨before, 'i' :: 'm' :: 'p' :: 'o' :: 'r' :: 't' :: rest, []⟩ ⟨some 't', rest, []⟩ :=
    prefers_word "import" before rest []
  have hall := (((hkeyword _).append (prefers_blank (s.clause.head_not_blank _) (some 't') [])).append
    (s.clause.prefers (some ' ') _ [])).append (s.prefers_source (some ' ') rest)
  simp only [Statement.text, Statement.source, List.append_assoc, List.cons_append, List.nil_append]
  exact hall

theorem Statement.matchAt_text (s : Statement) (before : Option Char) (rest : List Char) :
    importPattern.matchAt before (s.text ++ rest) = some ⟨s.text, s.specifier⟩ :=
  matchAt_of_prefers (s.prefers before rest)

/-- No statement begins with another character than its keyword does. -/
theorem refuses_importPattern (hrest : 'i' ∉ rest.head?) (before : Option Char) :
    Refuses importPattern ⟨before, rest, []⟩ := by
  have hkeyword : Refuses (word "import") ⟨before, rest, []⟩ := (refuses_char hrest before []).append _
  exact fun _ next => hkeyword _

theorem Statement.text_ne_nil (s : Statement) : s.text ≠ [] := List.cons_ne_nil _ _

theorem Statement.findAllFrom_text (s : Statement) (before : Option Char) (rest : List Char) :
    importPattern.findAllFrom 0 before (s.text ++ rest) =
      ⟨s.text, s.specifier⟩ :: importPattern.findAllFrom 0 (s.text.getLast?.or before) rest :=
  findAllFrom_of_matchAt s.text_ne_nil (s.matchAt_text before rest)

/-- Each statement is found where it stands, and nothing is found between two of them. -/
theorem findAllFrom_textOf (ss : List Statement) (before : Option Char) :
    importPattern.findAllFrom 0 before (textOf ss) = ss.map fun s => ⟨s.text, s.specifier⟩ := by
  induction ss generalizing before with
  | nil => rfl
  | cons s ss ih =>
    cases ss with
    | nil =>
      have htext : textOf [s] = s.text ++ [] := by simp [textOf]
      rw [htext, s.findAllFrom_text]
      rfl
    | cons t ss =>
      have htext : textOf (s :: t :: ss) = s.text ++ ';' :: '\n' :: textOf (t :: ss) := by
        simp [textOf, List.intercalate]
      rw [htext, s.findAllFrom_text, findAllFrom_of_refuses (refuses_importPattern (by simp) _),
        findAllFrom_of_refuses (refuses_importPattern (by simp) _), ih]
      rfl

/-- The specifiers of a text's statements are found, one for each statement. -/
theorem captured_textOf (ss : List Statement) :
    (importPattern.findAll (textOf ss)).map (·.captured) = ss.map Statement.specifier := by
  rw [findAll, findAllFrom_textOf, List.map_map]
  rfl

end ClassAtlas.Imports
