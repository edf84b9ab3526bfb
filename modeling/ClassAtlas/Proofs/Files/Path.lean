import ClassAtlas.Proofs.Files.WellFormed
import ClassAtlas.Proofs.Text.Split
/-!
# Paths and their texts

A path of proper names is read back from its text, so texts tell such paths apart.
-/
namespace ClassAtlas.Path

open FileTree (IsName)

variable {names : List String}

theorem toList_intercalate (names : List String) :
    ("/".intercalate names).toList = ['/'].intercalate (names.map String.toList) := by
  induction names with
  | nil => rfl
  | cons first names ih =>
    cases names with
    | nil => simp
    | cons next names =>
      show _ = ['/'].intercalate (first.toList :: (next :: names).map String.toList)
      rw [String.intercalate_cons_cons, String.toList_append, String.toList_append, ih, List.map_cons,
        List.intercalate_cons_cons]
      rfl

/-- Names joined by slashes are told apart again. -/
theorem namesOf_intercalate (hnames : ∀ n ∈ names, IsName n) : namesOf ("/".intercalate names).toList = names := by
  rw [toList_intercalate]
  by_cases hnil : names = []
  · rw [hnil]
    rfl
  · have hsep : ∀ piece ∈ names.map String.toList, '/' ∉ piece := by
      intro piece hpiece
      obtain ⟨n, hn, rfl⟩ := List.mem_map.mp hpiece
      exact (hnames n hn).oneName
    have hproper : ∀ piece ∈ names.map String.toList, (piece != [] && piece != ['.']) = true := by
      intro piece hpiece
      obtain ⟨n, hn, rfl⟩ := List.mem_map.mp hpiece
      rw [Bool.and_eq_true, bne_iff_ne, bne_iff_ne]
      refine ⟨fun h => (hnames n hn).notEmpty ?_, fun h => (hnames n hn).notDot ?_⟩
      · exact String.toList_inj.mp h
      · exact String.toList_inj.mp h
    rw [namesOf, Text.splitOn_intercalate (by simpa using hnil) hsep, List.filter_eq_self.mpr hproper, List.map_map]
    have hback : String.ofList ∘ String.toList = id := funext fun n => String.ofList_toList
    rw [hback, List.map_id]

theorem head?_ne_slash (hnames : ∀ n ∈ names, IsName n) : ("/".intercalate names).toList.head? ≠ some '/' := by
  rw [toList_intercalate]
  cases names with
  | nil => decide
  | cons first names =>
    have hfirst := hnames first List.mem_cons_self
    have hne : first.toList ≠ [] := fun h => hfirst.notEmpty (String.toList_inj.mp h)
    obtain ⟨c, cs, hchars⟩ := List.exists_cons_of_ne_nil hne
    have hc : c ≠ '/' := by
      rintro rfl
      exact hfirst.oneName (by rw [hchars]; exact List.mem_cons_self)
    have hhead : (['/'].intercalate ((first :: names).map String.toList)).head? = some c := by
      cases names with
      | nil => simp [hchars]
      | cons next names => rw [List.map_cons, List.map_cons, List.intercalate_cons_cons, hchars]; rfl
    rw [hhead]
    exact fun h => hc (Option.some.inj h)

theorem anchorOf_of_head?_ne {cs : List Char} (h : cs.head? ≠ some '/') :
    anchorOf cs = .here ∧ anchorOf ('/' :: cs) = .root := by
  cases cs with
  | nil => exact ⟨rfl, rfl⟩
  | cons c cs =>
    have hc : c ≠ '/' := fun heq => h (congrArg some heq)
    constructor <;> simp [anchorOf, hc]

/-- A text without slashes is one name. -/
theorem ofString_of_name {name : String} (hempty : name ≠ "") (hdot : name ≠ ".") (hslash : '/' ∉ name.toList) :
    ofString name = ⟨.here, [name]⟩ := by
  have hsplit : Text.splitOn '/' name.toList = [name.toList] := by
    have hone := @Text.splitOn_intercalate '/' [name.toList] (by simp) (by simpa using hslash)
    rwa [List.intercalate_singleton] at hone
  have hkept : (name.toList != [] && name.toList != ['.']) = true := by
    rw [Bool.and_eq_true, bne_iff_ne, bne_iff_ne]
    exact ⟨fun h => hempty (String.toList_inj.mp h), fun h => hdot (String.toList_inj.mp h)⟩
  have hanchor : anchorOf name.toList = .here := by
    apply And.left
    apply anchorOf_of_head?_ne
    exact fun hhead => hslash (List.mem_of_head? hhead)
  rw [ofString, hanchor, namesOf, hsplit, List.filter_singleton, hkept]
  simp

theorem ofString_toString_here (hnames : ∀ n ∈ names, IsName n) :
    ofString (toString ⟨.here, names⟩) = ⟨.here, names⟩ := by
  by_cases hnil : names = []
  · rw [hnil]
    rfl
  · have htext : toString ⟨.here, names⟩ = "/".intercalate names := by
      rw [toString, if_neg (fun h => hnil h.2), bare]
      exact String.empty_append
    rw [ofString, htext, namesOf_intercalate hnames, (anchorOf_of_head?_ne (head?_ne_slash hnames)).1]

theorem ofString_toString_root (hnames : ∀ n ∈ names, IsName n) :
    ofString (toString ⟨.root, names⟩) = ⟨.root, names⟩ := by
  have htext : (toString ⟨.root, names⟩).toList = '/' :: ("/".intercalate names).toList := by
    have hslash : (anchorText .root).toList = ['/'] := by decide
    rw [toString, if_neg (fun h => by cases h.1), bare, String.toList_append, hslash]
    rfl
  have hslash : ∀ cs, namesOf ('/' :: cs) = namesOf cs := fun _ => rfl
  rw [ofString, htext, (anchorOf_of_head?_ne (head?_ne_slash hnames)).2, hslash, namesOf_intercalate hnames]

/-! ## The names in a text -/

/-- Each name is one that a text can give: it is not empty, no single dot, and has no slash in it. -/
def Plain (p : Path) : Prop := ∀ name ∈ p.parts, name ≠ "" ∧ name ≠ "." ∧ '/' ∉ name.toList

variable {p q : Path} {text : String}

theorem of_mem_namesOf {cs : List Char} {name : String} (hname : name ∈ namesOf cs) :
    name ≠ "" ∧ name ≠ "." ∧ ∀ c ∈ name.toList, c ∈ cs ∧ c ≠ '/' := by
  obtain ⟨piece, hpiece, rfl⟩ := List.mem_map.mp hname
  obtain ⟨hsplit, hkept⟩ := List.mem_filter.mp hpiece
  rw [Bool.and_eq_true, bne_iff_ne, bne_iff_ne] at hkept
  have hchars : ∀ piece ∈ Text.splitAt (· == '/') cs, ∀ c ∈ piece, c ∈ cs ∧ c ≠ '/' :=
    Text.forall_mem_splitAt.mpr fun c hc hother => ⟨hc, by simpa using hother⟩
  rw [String.toList_ofList]
  refine ⟨fun hempty => hkept.1 ?_, fun hdot => hkept.2 ?_, hchars piece hsplit⟩
  · simpa using congrArg String.toList hempty
  · simpa using congrArg String.toList hdot

theorem plain_ofString (text : String) : (ofString text).Plain := by
  intro name hname
  obtain ⟨hempty, hdot, hchars⟩ := of_mem_namesOf hname
  exact ⟨hempty, hdot, fun hslash => (hchars '/' hslash).2 rfl⟩

theorem plain_of_isName (hnames : ∀ n ∈ names, IsName n) (anchor : Anchor) : Plain ⟨anchor, names⟩ := fun name hname =>
  ⟨(hnames name hname).notEmpty, (hnames name hname).notDot, (hnames name hname).oneName⟩

theorem Plain.append {anchor : Anchor} (hp : p.Plain) (hq : q.Plain) : Plain ⟨anchor, p.parts ++ q.parts⟩ := by
  intro name hname
  exact (List.mem_append.mp hname).elim (hp name) (hq name)

theorem Plain.parent (hp : p.Plain) : p.parent.Plain := fun name hname => hp name (List.dropLast_subset _ hname)

theorem Plain.join (hp : p.Plain) (hq : q.Plain) : (p.join q).Plain := by
  unfold Path.join
  split
  · exact hq
  · exact hp.append hq

theorem Plain.withoutDots (hp : p.Plain) : p.withoutDots.Plain := by
  refine List.foldlRecOn (motive := fun done => Plain ⟨p.anchor, done⟩) p.parts _ (List.forall_mem_nil _)
    fun done hdone name hname => ?_
  show Plain ⟨p.anchor, if name = ".." then done.dropLast else done ++ [name]⟩
  split
  · exact hdone.parent
  · exact hdone.append (q := ⟨.here, [name]⟩) (List.forall_mem_singleton.mpr (hp name hname))

/-! ## Suffixes -/

theorem splitSuffix_append {cs ext : List Char} (hcs : cs ≠ []) (hext : ext ≠ []) (hdot : '.' ∉ ext) :
    splitSuffix (cs ++ '.' :: ext) = (cs, '.' :: ext) := by
  have hplain : ∀ c ∈ ext.reverse, (c != '.') = true := by
    intro c hc
    rw [bne_iff_ne]
    rintro rfl
    exact hdot (List.mem_reverse.mp hc)
  have hreverse : (cs ++ '.' :: ext).reverse = ext.reverse ++ '.' :: cs.reverse := by simp
  have hend : ((cs ++ '.' :: ext).reverse.takeWhile (· != '.')).reverse = ext := by
    rw [hreverse, List.takeWhile_append_of_pos hplain]
    simp
  have hlength : (cs ++ '.' :: ext).length - ext.length - 1 = cs.length := by
    rw [List.length_append, List.length_cons]
    omega
  rw [splitSuffix, hend]
  simp only [hlength, List.take_left]
  rw [if_neg (by simp [hcs, hext])]

/-- A suffix is a dot and what follows the last one. -/
theorem splitSuffix_of_ne_nil {cs : List Char} (h : (splitSuffix cs).2 ≠ []) :
    ∃ base ext, base ≠ [] ∧ ext ≠ [] ∧ '.' ∉ ext ∧ splitSuffix cs = (base, '.' :: ext) := by
  unfold splitSuffix at h ⊢
  dsimp only at h ⊢
  split at h
  case isTrue => simp at h
  case isFalse hnot =>
    rw [Bool.or_eq_true, List.isEmpty_iff, List.isEmpty_iff, not_or] at hnot
    rw [if_neg (by simpa using hnot)]
    refine ⟨_, _, hnot.1, hnot.2, ?_, rfl⟩
    intro hdot
    have hplain := List.mem_takeWhile_imp (List.mem_reverse.mp hdot)
    simp at hplain

end ClassAtlas.Path
