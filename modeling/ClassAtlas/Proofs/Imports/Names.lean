import ClassAtlas.Proofs.Imports.Statements
import ClassAtlas.Proofs.Text.Split
import Mathlib.Data.List.Forall2
/-!
# Names of imported modules

A module is named by the last segment of the specifier that it is imported from, without the last extension. A text
made of import statements depends on the names of its local specifiers.
-/
namespace ClassAtlas.Imports

open Text

variable {specifier seg front ext name : List Char}

/-- A specifier ends in `seg` when only slashes come after it. One that is made of slashes is its own end. -/
inductive EndsIn : List Char → List Char → Prop
  | alone {seg slashes : List Char} (hne : seg ≠ []) (hseg : '/' ∉ seg) (hslashes : ∀ c ∈ slashes, c = '/') :
      EndsIn (seg ++ slashes) seg
  | after {lead seg slashes : List Char} (hne : seg ≠ []) (hseg : '/' ∉ seg) (hslashes : ∀ c ∈ slashes, c = '/') :
      EndsIn (lead ++ '/' :: seg ++ slashes) seg
  | slashes {slashes : List Char} (hslashes : ∀ c ∈ slashes, c = '/') : EndsIn slashes slashes

/-- The stem of a name is what comes before its last extension. A dot with only dots in front of it begins none. -/
inductive Stem : List Char → List Char → Prop
  | cut {front ext : List Char} (hext : '.' ∉ ext) (hfront : ∃ c ∈ front, c ≠ '.') : Stem (front ++ '.' :: ext) front
  | dotted {front ext : List Char} (hext : '.' ∉ ext) (hfront : ∀ c ∈ front, c = '.') :
      Stem (front ++ '.' :: ext) (front ++ '.' :: ext)
  | plain {seg : List Char} (hseg : '.' ∉ seg) : Stem seg seg

/-- The name of the module at a specifier. -/
def Names (specifier name : List Char) : Prop := ∃ seg, EndsIn specifier seg ∧ Stem seg name

/-! ## Names are read off specifiers -/

def lastSegment (specifier : List Char) : List Char :=
  let base := afterLast '/' (dropEndWhile (· == '/') specifier)
  if base.isEmpty then specifier else base

theorem moduleName_eq (specifier : List Char) : moduleName specifier = dropExtension (lastSegment specifier) := rfl

theorem dropSlashes_append {core slashes : List Char} (hslashes : ∀ c ∈ slashes, c = '/')
    (hcore : '/' ∉ core.getLast?) : dropEndWhile (· == '/') (core ++ slashes) = core := by
  have hlast : ∀ c ∈ core.getLast?, (c == '/') = false :=
    fun c hc => beq_eq_false_iff_ne.mpr (ne_of_mem_of_not_mem hc hcore)
  rw [dropEndWhile_append (fun c hc => beq_iff_eq.mpr (hslashes c hc)), dropEndWhile_eq_self hlast]

theorem EndsIn.lastSegment_eq (h : EndsIn specifier seg) : lastSegment specifier = seg := by
  cases h with
  | @alone _ slashes hne hseg hslashes =>
    have hlast : '/' ∉ seg.getLast? := fun h => hseg (List.mem_of_mem_getLast? h)
    rw [lastSegment, dropSlashes_append hslashes hlast, afterLast_eq_self hseg]
    simp [hne]
  | @after lead _ slashes hne hseg hslashes =>
    have hlast : '/' ∉ (lead ++ '/' :: seg).getLast? := by
      intro h
      rw [List.getLast?_append_of_ne_nil _ (List.cons_ne_nil _ _), List.getLast?_cons_of_ne_nil hne] at h
      exact hseg (List.mem_of_mem_getLast? h)
    rw [lastSegment, dropSlashes_append hslashes hlast, afterLast_append_cons hseg]
    simp [hne]
  | slashes hslashes =>
    have hnone : dropEndWhile (· == '/') ([] ++ specifier) = [] := dropSlashes_append hslashes (by simp)
    rw [List.nil_append] at hnone
    rw [lastSegment, hnone]
    rfl

theorem exists_endsIn (specifier : List Char) : ∃ seg, EndsIn specifier seg := by
  have hsplit : dropEndWhile (· == '/') specifier ++ specifier.rtakeWhile (· == '/') = specifier :=
    List.rdropWhile_append_rtakeWhile
  have hslashes : ∀ c ∈ specifier.rtakeWhile (· == '/'), c = '/' :=
    fun c hc => eq_of_beq (List.mem_rtakeWhile_imp (p := (· == '/')) hc)
  have hlast : ∀ h : dropEndWhile (· == '/') specifier ≠ [],
      ¬((dropEndWhile (· == '/') specifier).getLast h == '/') = true :=
    List.rdropWhile_last_not (· == '/') specifier
  generalize dropEndWhile (· == '/') specifier = core at hsplit hlast
  rw [← hsplit]
  by_cases hcore : '/' ∈ core
  case neg =>
    by_cases hne : core = []
    · subst hne
      exact ⟨_, .slashes hslashes⟩
    · exact ⟨core, .alone hne hcore hslashes⟩
  case pos =>
    obtain ⟨lead, seg, rfl, hseg⟩ := exists_last_of_mem hcore
    refine ⟨seg, .after ?_ hseg hslashes⟩
    rintro rfl
    exact hlast (by simp) (by simp)

theorem dropExtension_append (hext : '.' ∉ ext) (front : List Char) :
    dropExtension (front ++ '.' :: ext) = if front.all (· == '.') then front ++ '.' :: ext else front := by
  have hafter : ((front ++ '.' :: ext).reverse.takeWhile (· != '.')).reverse = ext := afterLast_append_cons hext front
  have hlength : (front ++ '.' :: ext).length - ext.length - 1 = front.length := by
    rw [List.length_append, List.length_cons]
    omega
  rw [dropExtension, if_pos (by simp)]
  simp only [hafter, hlength, List.take_left]

theorem dropExtension_of_not_mem (hseg : '.' ∉ seg) : dropExtension seg = seg := by
  rw [dropExtension, if_neg (by simpa using hseg)]

theorem Stem.dropExtension_eq (h : Stem seg name) : dropExtension seg = name := by
  cases h with
  | cut hext hfront =>
    obtain ⟨c, hc, hdot⟩ := hfront
    rw [dropExtension_append hext, if_neg]
    intro hall
    exact hdot (eq_of_beq (List.all_eq_true.mp hall c hc))
  | dotted hext hfront =>
    rw [dropExtension_append hext, if_pos]
    exact List.all_eq_true.mpr fun c hc => beq_iff_eq.mpr (hfront c hc)
  | plain hseg => exact dropExtension_of_not_mem hseg

theorem exists_stem (seg : List Char) : ∃ name, Stem seg name := by
  by_cases hdot : '.' ∈ seg
  case neg => exact ⟨seg, .plain hdot⟩
  case pos =>
    obtain ⟨front, ext, rfl, hext⟩ := exists_last_of_mem hdot
    by_cases hfront : ∀ c ∈ front, c = '.'
    case pos => exact ⟨_, .dotted hext hfront⟩
    case neg =>
      push Not at hfront
      exact ⟨front, .cut hext hfront⟩

/-- Every specifier has exactly one name, and that is the one the code gives it. -/
theorem names_iff : Names specifier name ↔ moduleName specifier = name := by
  have hname : ∀ {other : List Char}, Names specifier other → moduleName specifier = other := by
    rintro other ⟨seg, hends, hstem⟩
    rw [moduleName_eq, hends.lastSegment_eq, hstem.dropExtension_eq]
  refine ⟨hname, ?_⟩
  rintro rfl
  obtain ⟨seg, hends⟩ := exists_endsIn specifier
  obtain ⟨other, hstem⟩ := exists_stem seg
  have hnames : Names specifier other := ⟨seg, hends, hstem⟩
  rwa [hname hnames]

theorem Names.ne_nil (h : Names specifier name) (hne : specifier ≠ []) : name ≠ [] := by
  obtain ⟨seg, hends, hstem⟩ := h
  have hseg : seg ≠ [] := by
    cases hends with
    | alone hseg | after hseg => exact hseg
    | slashes => exact hne
  cases hstem with
  | cut hext hfront =>
    obtain ⟨c, hc, hdot⟩ := hfront
    exact List.ne_nil_of_mem hc
  | dotted | plain => exact hseg

/-! ## Names of a text -/

/-- Names that are not empty are collected without repetition, each where it comes first. -/
theorem foldl_addNew_eq_eraseDups {names : List (List Char)} (hne : [] ∉ names) :
    names.foldl addNew [] = names.eraseDups := by
  induction names using List.reverseRecOn with
  | nil => rfl
  | append_singleton names name ih =>
    rw [List.mem_append, List.mem_singleton, not_or] at hne
    rw [List.foldl_append, ih hne.1, List.foldl_cons, List.foldl_nil, List.eraseDups_append, addNew]
    have hname : name.isEmpty = false := by simpa using Ne.symm hne.2
    by_cases hmem : name ∈ names
    · simp [hname, hmem, List.removeAll]
    · simp [hname, hmem, List.removeAll, List.eraseDups_cons]

theorem isLocal_eq (specifier : List Char) :
    isLocal specifier = decide (specifier.head? = some '.' ∨ specifier.head? = some '/') := by
  cases specifier with
  | nil => rfl
  | cons c rest => exact Bool.eq_iff_iff.mpr (by simp [isLocal])

/-- The names of the local specifiers of some statements, in order. -/
def namesOf (statements : List Statement) : List (List Char) :=
  ((statements.map Statement.specifier).filter isLocal).map moduleName

theorem nil_notMem_namesOf (statements : List Statement) : [] ∉ namesOf statements := by
  intro hnil
  obtain ⟨specifier, hmem, hname⟩ := List.mem_map.mp hnil
  obtain ⟨s, hs, rfl⟩ := List.mem_map.mp (List.mem_of_mem_filter hmem)
  exact (names_iff.mpr hname).ne_nil s.ne_nil rfl

theorem dependencies_eq (statements : List Statement) :
    dependencies (textOf statements) = (namesOf statements).eraseDups.map String.ofList := by
  rw [dependencies, captured_textOf]
  exact congrArg (List.map String.ofList) (foldl_addNew_eq_eraseDups (nil_notMem_namesOf statements))

/-- Each statement with a local specifier adds the name of that. -/
theorem mem_dependencies {statements : List Statement} {s : Statement} (hs : s ∈ statements)
    (hlocal : isLocal s.specifier = true) (hname : Names s.specifier name) :
    String.ofList name ∈ dependencies (textOf statements) := by
  have hmem : name ∈ namesOf statements := by
    rw [← names_iff.mp hname]
    exact List.mem_map_of_mem (List.mem_filter.mpr ⟨List.mem_map_of_mem hs, hlocal⟩)
  rw [dependencies_eq]
  exact List.mem_map_of_mem (List.mem_eraseDups.mpr hmem)

/-- A text made of import statements depends on the modules that it imports from local specifiers, in the order in
which their names come up first, and on nothing else. What the statements bind does not matter. -/
theorem dependencies_textOf (statements : List Statement) :
    ∃ names, List.Forall₂ Names
        ((statements.map Statement.specifier).filter fun s => s.head? = some '.' ∨ s.head? = some '/') names ∧
      dependencies (textOf statements) = names.eraseDups.map String.ofList := by
  rw [← funext isLocal_eq]
  refine ⟨namesOf statements, ?_, dependencies_eq statements⟩
  exact List.forall₂_map_right_iff.mpr (List.forall₂_same.mpr fun _ _ => names_iff.mpr rfl)

end ClassAtlas.Imports
