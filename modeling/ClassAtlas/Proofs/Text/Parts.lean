import ClassAtlas.Proofs.Text.Split
import Mathlib.Data.List.Forall2
/-!
# Parts between commas

The parts of a text are trimmed and not empty. Those of texts that were joined by commas are the parts
of each, one after the other, and blanks around a text give it no other parts.
-/
namespace ClassAtlas.Text

variable {tail : List Char} {s t : String} {parts pieces : List String}

/-! ## Trimming -/

theorem firmEnds_trim (cs : List Char) : FirmEnds (trim cs) := by
  constructor
  · intro c hc
    have hprefix : trim cs <+: trimStart cs := List.rdropWhile_prefix isBlank (trimStart cs)
    have hhead : (trimStart cs).head? = some c := by
      obtain ⟨rest, hrest⟩ := hprefix
      rw [← hrest, List.head?_append, hc, Option.some_or]
    have hnot := List.head?_dropWhile_not isBlank cs
    rw [← trimStart, hhead] at hnot
    simpa using hnot
  · intro c hc
    obtain ⟨hne, rfl⟩ := List.mem_getLast?_eq_getLast hc
    exact Bool.not_eq_true _ ▸ List.rdropWhile_last_not isBlank (trimStart cs) hne

theorem trim_append_blank (htail : ∀ c ∈ tail, isBlank c = true) (cs : List Char) : trim (cs ++ tail) = trim cs := by
  by_cases hall : ∀ c ∈ cs, isBlank c = true
  · rw [trim_eq_nil_iff.mpr hall, trim_eq_nil_iff]
    exact List.forall_mem_append.mpr ⟨hall, htail⟩
  · have hne : cs.dropWhile isBlank ≠ [] := mt List.dropWhile_eq_nil_iff.mp hall
    rw [trim, trimStart, List.dropWhile_append, if_neg (by simpa using hne), trimEnd_append_of_blank htail]
    rfl

def Blank (s : String) : Prop := ∀ c ∈ s.toList, isBlank c = true

instance (s : String) : Decidable (Blank s) := decidable_of_iff (s.toList.all isBlank) List.all_eq_true

/-- There is something in the text, and no blank before it or behind it. -/
structure Trimmed (s : String) : Prop where
  ne_empty : s ≠ ""
  firmEnds : FirmEnds s.toList

instance (s : String) : Decidable (Trimmed s) :=
  decidable_of_iff (s ≠ "" ∧ FirmEnds s.toList) ⟨fun h => ⟨h.1, h.2⟩, fun h => ⟨h.ne_empty, h.firmEnds⟩⟩

/-- `t` is `s` with blanks around it. -/
def Padded (s t : String) : Prop := ∃ lead tail, Blank lead ∧ Blank tail ∧ t = lead ++ s ++ tail

theorem trimmed_strip (h : strip s ≠ "") : Trimmed (strip s) :=
  ⟨h, by simpa [strip] using firmEnds_trim s.toList⟩

theorem Trimmed.strip_eq (h : Trimmed s) : strip s = s := by
  rw [strip, h.firmEnds.trim_eq, String.ofList_toList]

theorem Padded.strip_eq (h : Padded s t) : strip t = strip s := by
  obtain ⟨lead, tail, hlead, htail, rfl⟩ := h
  simp only [strip, String.toList_append, trim_append_blank htail, trim_blank_append hlead]

theorem Blank.comma_notMem (h : Blank s) : ',' ∉ s.toList := fun hmem => absurd (h _ hmem) (by decide)

theorem Padded.comma_notMem (h : Padded s t) (hs : ',' ∉ s.toList) : ',' ∉ t.toList := by
  obtain ⟨lead, tail, hlead, htail, rfl⟩ := h
  simp [hlead.comma_notMem, htail.comma_notMem, hs]

/-! ## Parts -/

theorem commaParts_append_comma (s t : String) : commaParts (s ++ "," ++ t) = commaParts s ++ commaParts t := by
  have hsplit : splitOn ',' (s.toList ++ ',' :: t.toList) = splitOn ',' s.toList ++ splitOn ',' t.toList :=
    splitAt_append_cons s.toList t.toList (beq_self_eq_true ',')
  simp [commaParts, hsplit]

theorem commaParts_of_notMem (h : ',' ∉ s.toList) : commaParts s = [strip s].filter (· != "") := by
  have hsplit : splitOn ',' s.toList = [s.toList] := by
    simpa using splitOn_intercalate (List.cons_ne_nil s.toList []) (by simpa using h)
  by_cases hs : trim s.toList = [] <;> simp [commaParts, hsplit, strip, hs]

theorem commaParts_joinWith (pieces : List String) : commaParts (joinWith "," pieces) = pieces.flatMap commaParts := by
  induction pieces with
  | nil => rfl
  | cons piece pieces ih =>
    cases pieces with
    | nil => simp [joinWith]
    | cons next pieces =>
      have hjoin : joinWith "," (piece :: next :: pieces) = piece ++ "," ++ joinWith "," (next :: pieces) :=
        String.intercalate_cons_cons
      rw [hjoin, commaParts_append_comma, ih]
      exact List.flatMap_cons.symm

theorem exists_comma_of_mem (h : ',' ∈ s.toList) : ∃ a b, s = a ++ "," ++ b ∧ ',' ∉ a.toList := by
  obtain ⟨a, b, hs, ha⟩ := List.eq_append_cons_of_mem h
  exact ⟨String.ofList a, String.ofList b, String.toList_inj.mp (by simp [hs]), by simpa using ha⟩

theorem exists_last_comma_of_mem (h : ',' ∈ s.toList) : ∃ a b, s = a ++ "," ++ b ∧ ',' ∉ b.toList := by
  obtain ⟨a, b, hs, hb⟩ := exists_last_of_mem h
  exact ⟨String.ofList a, String.ofList b, String.toList_inj.mp (by simp [hs]), by simpa using hb⟩

theorem Padded.commaParts_eq_of_notMem (h : Padded s t) (hs : ',' ∉ s.toList) : commaParts t = commaParts s := by
  rw [commaParts_of_notMem (h.comma_notMem hs), commaParts_of_notMem hs, h.strip_eq]

/-- Blanks before a text lie before its first part, and those behind it behind its last one. -/
theorem Padded.commaParts_eq (h : Padded s t) : commaParts t = commaParts s := by
  by_cases hs : ',' ∈ s.toList
  case neg => exact h.commaParts_eq_of_notMem hs
  case pos =>
    obtain ⟨lead, tail, hlead, htail, rfl⟩ := h
    have hfront : commaParts (lead ++ s) = commaParts s := by
      obtain ⟨a, b, rfl, ha⟩ := exists_comma_of_mem hs
      have hpad : Padded a (lead ++ a) := ⟨lead, "", hlead, by decide, (String.append_empty).symm⟩
      rw [← String.append_assoc, ← String.append_assoc, commaParts_append_comma, commaParts_append_comma,
        hpad.commaParts_eq_of_notMem ha]
    have hback : ',' ∈ (lead ++ s).toList := by simp [hs]
    obtain ⟨a, b, heq, hb⟩ := exists_last_comma_of_mem hback
    have hpad : Padded b (b ++ tail) := ⟨"", tail, by decide, htail, by rw [String.empty_append]⟩
    rw [← hfront, heq, String.append_assoc, commaParts_append_comma, commaParts_append_comma,
      hpad.commaParts_eq_of_notMem hb]

theorem trimmed_of_mem_commaParts (h : s ∈ commaParts t) : Trimmed s ∧ ',' ∉ s.toList := by
  simp only [commaParts, List.mem_map, List.mem_filter] at h
  obtain ⟨part, ⟨⟨piece, hpiece, rfl⟩, hne⟩, rfl⟩ := h
  refine ⟨⟨by simpa using hne, by simpa using firmEnds_trim piece⟩, fun hmem => ?_⟩
  rw [String.toList_ofList] at hmem
  have hnot : ∀ piece ∈ splitOn ',' t.toList, ∀ c ∈ piece, c ≠ ',' :=
    forall_mem_splitAt.mpr fun c _ hc => by simpa using hc
  exact hnot piece hpiece ',' (mem_of_mem_trim hmem) rfl

theorem Trimmed.commaParts_eq (h : Trimmed s) (hs : ',' ∉ s.toList) : commaParts s = [s] := by
  rw [commaParts_of_notMem hs, h.strip_eq]
  simp [h.ne_empty]

/-- Texts that are parts already are the parts of what they are joined to, with any blanks around each. -/
theorem commaParts_joinWith_of_padded (hparts : ∀ s ∈ parts, Trimmed s ∧ ',' ∉ s.toList)
    (hpieces : List.Forall₂ Padded parts pieces) : commaParts (joinWith "," pieces) = parts := by
  rw [commaParts_joinWith]
  induction hpieces with
  | nil => rfl
  | @cons part piece parts pieces hpadded _ ih =>
    obtain ⟨⟨hpart, hcomma⟩, hparts⟩ := List.forall_mem_cons.mp hparts
    rw [List.flatMap_cons, hpadded.commaParts_eq, hpart.commaParts_eq hcomma, ih hparts]
    rfl

theorem padded_self (s : String) : Padded s s :=
  ⟨"", "", by decide, by decide, by simp⟩

theorem commaParts_joinWith_commaParts (s : String) : commaParts (joinWith "," (commaParts s)) = commaParts s :=
  commaParts_joinWith_of_padded (fun _ => trimmed_of_mem_commaParts) (List.forall₂_same.mpr fun p _ => padded_self p)

end ClassAtlas.Text
