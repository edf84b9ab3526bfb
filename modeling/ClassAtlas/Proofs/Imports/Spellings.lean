import ClassAtlas.Proofs.Imports.Names
import ClassAtlas.Proofs.Outline.Sound
import Mathlib.Data.List.Perm.Subperm
/-!
# Two spellings of one module

A module can be imported with the extension of its file or without it. The last extension is dropped either way, so
both spellings give one name exactly when the module's own name has no dot in it.
-/
namespace ClassAtlas.Imports

open Text

/-- A module of the project: the way to its directory, and its name, which may have dots in it but does not begin with
one. -/
structure Module where
  directory : List Char
  name : List Char
  near : directory.head? = some '.' ∨ directory.head? = some '/'
  closed : directory.getLast? = some '/'
  single : '/' ∉ name
  begins : ∃ c ∈ name.head?, c ≠ '.'

/-- The specifier of a module with some extension. -/
def Module.specifier (m : Module) (ext : List Char) : List Char := m.directory ++ (m.name ++ ext)

variable {m : Module} {ext : List Char} {statements : List Statement} {x y : Statement}

theorem Module.isLocal_specifier (m : Module) (ext : List Char) : isLocal (m.specifier ext) = true := by
  have hne : m.directory ≠ [] := by
    intro hnil
    have hclosed := m.closed
    rw [hnil] at hclosed
    cases hclosed
  rw [isLocal_eq, decide_eq_true_eq, Module.specifier, List.head?_append_of_ne_nil _ hne]
  exact m.near

theorem Module.endsIn (m : Module) (hext : '/' ∉ ext) : EndsIn (m.specifier ext) (m.name ++ ext) := by
  obtain ⟨above, habove⟩ := List.getLast?_eq_some_iff.mp m.closed
  have hne : m.name ++ ext ≠ [] := by
    obtain ⟨c, hc, -⟩ := m.begins
    exact List.append_ne_nil_of_left_ne_nil (List.ne_nil_of_mem (List.mem_of_mem_head? hc)) ext
  have hsingle : '/' ∉ m.name ++ ext := List.not_mem_append m.single hext
  have hspecifier : m.specifier ext = above ++ '/' :: (m.name ++ ext) ++ [] := by simp [Module.specifier, habove]
  rw [hspecifier]
  exact .after hne hsingle (List.forall_mem_nil _)

/-- With an extension after it the whole name of a module is kept. -/
theorem Module.names_with (m : Module) (hext : '.' ∉ ext) (hslash : '/' ∉ ext) :
    Names (m.specifier ('.' :: ext)) m.name := by
  obtain ⟨c, hc, hdot⟩ := m.begins
  exact ⟨_, m.endsIn (by simp [hslash]), .cut hext ⟨c, List.mem_of_mem_head? hc, hdot⟩⟩

/-- Without one, what comes after the last dot of the name is taken for it. -/
theorem Module.names_without (m : Module) :
    ∃ short, Names (m.specifier []) short ∧ (short = m.name ↔ '.' ∉ m.name) := by
  have hends : EndsIn (m.specifier []) (m.name ++ []) := m.endsIn List.not_mem_nil
  rw [List.append_nil] at hends
  by_cases hdot : '.' ∈ m.name
  case neg => exact ⟨m.name, ⟨_, hends, .plain hdot⟩, by simp [hdot]⟩
  case pos =>
    obtain ⟨front, last, hname, hlast⟩ := exists_last_of_mem hdot
    have hfront : ∃ c ∈ front, c ≠ '.' := by
      obtain ⟨c, hc, hne⟩ := m.begins
      rw [hname] at hc
      cases front with
      | nil => exact absurd (Option.some.inj hc).symm hne
      | cons d front => exact ⟨c, List.mem_of_mem_head? hc, hne⟩
    rw [hname] at hends ⊢
    exact ⟨front, ⟨_, hends, .cut hlast hfront⟩, by simp⟩

/-- Two members of a list without repetition make up one entry of it when they are the same. -/
theorem countP_pair_eq_one_iff {names : List String} {a b : String} (hnodup : names.Nodup) (ha : a ∈ names)
    (hb : b ∈ names) : names.countP (fun n => n == a || n == b) = 1 ↔ a = b := by
  constructor
  · intro hone
    by_contra hne
    have hsub : [a, b] ⊆ names.filter fun n => n == a || n == b := by simp [ha, hb]
    have hpair : [a, b].Nodup := by simp [hne]
    have hlength := (List.subperm_of_subset hpair hsub).length_le
    rw [← List.countP_eq_length_filter, hone] at hlength
    simp at hlength
  · rintro rfl
    simp only [Bool.or_self]
    exact List.count_eq_one_of_mem hnodup ha

/-- An extension of a source file is a dot and a word without another one. -/
theorem exists_of_sourceExtension (hext : String.ofList ext ∈ [".js", ".jsx", ".mjs", ".ts", ".tsx"]) :
    ∃ rest, ext = '.' :: rest ∧ '.' ∉ rest ∧ '/' ∉ rest := by
  have hall : ∀ suffix ∈ [".js", ".jsx", ".mjs", ".ts", ".tsx"],
      suffix.toList.head? = some '.' ∧ '.' ∉ suffix.toList.tail ∧ '/' ∉ suffix.toList.tail := by decide
  obtain ⟨hhead, htail⟩ := hall _ hext
  rw [String.toList_ofList] at hhead htail
  cases ext with
  | nil => cases hhead
  | cons c rest =>
    obtain rfl := Option.some.inj hhead
    exact ⟨rest, rfl, htail⟩

/-- The spellings of a module without an extension and with that of a source file give it one name, and are listed
once, exactly when there is no dot in its name. -/
theorem spellings_agree_iff (hext : String.ofList ext ∈ [".js", ".jsx", ".mjs", ".ts", ".tsx"]) (hx : x ∈ statements)
    (hy : y ∈ statements) (hwithout : x.specifier = m.specifier []) (hwith : y.specifier = m.specifier ext) :
    ∃ short long, Names x.specifier short ∧ Names y.specifier long ∧ (short = long ↔ '.' ∉ m.name) ∧
      ((dependencies (textOf statements)).countP (fun n => n == String.ofList short || n == String.ofList long) = 1 ↔
        '.' ∉ m.name) := by
  obtain ⟨rest, rfl, hdot, hslash⟩ := exists_of_sourceExtension hext
  obtain ⟨short, hshort, hsame⟩ := m.names_without
  have hlong := m.names_with hdot hslash
  rw [← hwithout] at hshort
  rw [← hwith] at hlong
  have hcount := countP_pair_eq_one_iff (dependencies_sound (textOf statements)).2
    (mem_dependencies hx (hwithout ▸ m.isLocal_specifier []) hshort)
    (mem_dependencies hy (hwith ▸ m.isLocal_specifier _) hlong)
  refine ⟨short, m.name, hshort, hlong, hsame, ?_⟩
  rw [hcount, ← hsame]
  exact ⟨String.ofList_injective, congrArg String.ofList⟩

/-- An import of `a` from a specifier. -/
def importA (specifier : List Char) (hne : specifier ≠ []) (hplain : specifier.any isQuote = false) : Statement where
  clause := .default ⟨['a'], by decide, List.forall_mem_singleton.mpr rfl⟩
  quote := '\''
  quotes := rfl
  specifier := specifier
  ne_nil := hne
  plain := by simpa using hplain

def helpers : Module where
  directory := "./utils/".toList
  name := "helpers".toList
  near := by decide
  closed := by decide
  single := by decide
  begins := ⟨'h', by decide, by decide⟩

theorem spellings_agree_helpers :
    ∃ short long, Names "./utils/helpers".toList short ∧ Names "./utils/helpers.js".toList long ∧ short = long ∧
      (dependencies (textOf [importA "./utils/helpers.js".toList (by decide) (by decide),
          importA "./utils/helpers".toList (by decide) (by decide)])).countP
        (fun n => n == String.ofList short || n == String.ofList long) = 1 := by
  have hboth : importA "./utils/helpers".toList (by decide) (by decide) ∈
      [importA "./utils/helpers.js".toList (by decide) (by decide),
        importA "./utils/helpers".toList (by decide) (by decide)] := List.mem_cons_of_mem _ List.mem_cons_self
  have hwithout : (importA "./utils/helpers".toList (by decide) (by decide)).specifier = helpers.specifier [] := by decide
  have hwith : (importA "./utils/helpers.js".toList (by decide) (by decide)).specifier =
      helpers.specifier ".js".toList := by decide
  obtain ⟨short, long, hshort, hlong, hsame, hone⟩ :=
    spellings_agree_iff (by decide) hboth List.mem_cons_self hwithout hwith
  exact ⟨short, long, hshort, hlong, hsame.mpr (by decide), hone.mpr (by decide)⟩

def userService : Module where
  directory := "./".toList
  name := "user.service".toList
  near := by decide
  closed := by decide
  single := by decide
  begins := ⟨'u', by decide, by decide⟩

/-- A module with a dot in its name is listed twice by a file that spells it both ways. -/
theorem dotted_listed_twice :
    userService.specifier [] = "./user.service".toList ∧
      userService.specifier ".ts".toList = "./user.service.ts".toList ∧
      dependencies "import a from './user.service';\nimport b from './user.service.ts';\n".toList =
        ["user", "user.service"] := by
  decide +kernel

end ClassAtlas.Imports
