import ClassAtlas.CommandLine.Arguments
import ClassAtlas.Proofs.Settings.Outcome
import ClassAtlas.Proofs.Text.Parts
/-!
# The spellings of a list of patterns

Patterns are given as one text with commas, on the command line and in the settings, or as a sequence in the settings.
A list of patterns that are trimmed and have no comma in them is read off each of these spellings, and nothing but
trimmed patterns is read off anything.
-/
namespace ClassAtlas.Settings

open Text Yaml Numeral
open CommandLine (Level Progress)

variable {value : Yaml.Node → Reading Value} {file : String} {parts : List String} {items : List (Option String)}
  {nodes : List Yaml.Node}

theorem trimmed_of_mem_patternsOf : ∀ part ∈ patternsOf items, Trimmed part := by
  intro part hpart
  obtain ⟨hmem, hne⟩ := List.mem_filter.mp hpart
  obtain ⟨item, _, hitem⟩ := List.mem_filterMap.mp hmem
  obtain ⟨s, _, rfl⟩ := Option.map_eq_some_iff.mp hitem
  exact trimmed_strip (by simpa using hne)

/-- Texts without commas are the same patterns as items of a sequence and as the parts of a text. -/
theorem patternsOf_eq_commaParts {texts : List String} (hcomma : ∀ s ∈ texts, ',' ∉ s.toList) :
    patternsOf (texts.map some) = commaParts (joinWith "," texts) := by
  rw [commaParts_joinWith]
  induction texts with
  | nil => rfl
  | cons s texts ih =>
    obtain ⟨hs, htexts⟩ := List.forall_mem_cons.mp hcomma
    rw [List.flatMap_cons, commaParts_of_notMem hs, ← ih htexts]
    simp [patternsOf, List.filter_cons]
    split <;> rfl

theorem Ends.exists_ok_iff {α : Type} {p : Prop} {q : α → Prop} {x : Except Failure α} (hx : Ends p q x) :
    (∃ v, x = .ok v) ↔ ¬ p := by
  cases hx with
  | ok without _ => simpa using without
  | error _ breaks => simpa using breaks

theorem mapM_eq_ok_of_forall₂ {ε α β : Type} {f : α → Except ε β} {as : List α} {bs : List β}
    (h : List.Forall₂ (fun a b => f a = .ok b) as bs) : as.mapM f = .ok bs := by
  induction h with
  | nil => rfl
  | cons hab _ ih =>
    rw [List.mapM_cons, hab, ih]
    rfl

theorem patterns_items_of_texts {texts : List String}
    (hnodes : List.Forall₂ (fun node s => value node = .ok (.text s)) nodes texts) :
    patterns value file (.items nodes) = .ok (patternsOf (texts.map some)) := by
  rw [patterns]
  refine bind_eq_ok_iff.mpr ⟨texts.map some, mapM_eq_ok_of_forall₂ ?_, rfl⟩
  refine List.forall₂_map_right_iff.mpr (hnodes.imp fun node s hnode => ?_)
  rw [hnode]
  rfl

/-- Only a whole number of too many digits keeps a sequence of values from being read. -/
theorem ends_patterns_items (hnodes : ∀ node ∈ nodes, ∃ v, value node = .ok v) :
    Ends (∃ node ∈ nodes, ∃ n, value node = .ok (.whole n) ∧ IsLong n) (fun parts => ∀ part ∈ parts, Trimmed part)
      (patterns value file (.items nodes)) := by
  rw [patterns]
  refine ((ends_mapM (r := fun node => ∃ n, value node = .ok (.whole n) ∧ IsLong n) fun node hnode => ?_).bind
    fun items _ => ends_ok trimmed_of_mem_patternsOf).mono (or_false _ ▸ Iff.rfl) fun _ => id
  obtain ⟨v, hvalue⟩ := hnodes node hnode
  rw [hvalue]
  exact (ends_itemText? v).mono (by simp) fun _ => id

theorem trimmed_repr (n : Nat) : Trimmed (Nat.repr n) := by
  rw [Nat.repr_eq_ofList_toDigits]
  refine ⟨by simp, ?_⟩
  rw [String.toList_ofList]
  refine firmEnds_of_not_blank fun c hc => ?_
  have hdigit := Nat.isDigit_of_mem_toDigits (by decide) (by decide) hc
  simp only [Char.isDigit, Bool.and_eq_true, decide_eq_true_eq] at hdigit
  exact isBlank_eq_false_of_graphic (Nat.le_trans (by decide) (UInt32.le_iff_toNat_le.mp hdigit.1))
    (Nat.le_trans (UInt32.le_iff_toNat_le.mp hdigit.2) (by decide))

/-- Nothing but trimmed patterns is read off any value. -/
theorem trimmed_of_patterns {v : Value} (h : patterns value file v = .ok parts) : ∀ part ∈ parts, Trimmed part := by
  unfold patterns at h
  split at h
  case h_1 s =>
    obtain rfl := Except.ok.inj h
    exact fun part hpart => (trimmed_of_mem_commaParts hpart).1
  case h_2 bs =>
    obtain rfl := Except.ok.inj h
    intro part hpart
    obtain ⟨b, _, rfl⟩ := List.mem_map.mp hpart
    exact trimmed_repr b.toNat
  case h_3 nodes =>
    obtain ⟨items, _, hparts⟩ := bind_eq_ok_iff.mp h
    obtain rfl := Except.ok.inj hparts
    exact trimmed_of_mem_patternsOf
  case h_4 =>
    obtain rfl := Except.ok.inj h
    intro part hpart
    cases hpart

/-- However a list of patterns is spelled, it is read as that list: as a text of them with commas in between, with any
blanks around each and around the whole, on the command line and in the settings, and as a sequence in the settings.
Whatever is given, only trimmed patterns are read; a text is always read, and its patterns joined by commas are read as
the same again; and a sequence of values is read unless there is a whole number of too many digits among them. -/
theorem pattern_lists_agree (value : Yaml.Node → Reading Value) (file : String) :
    (∀ (parts pieces : List String) (s : String), (∀ part ∈ parts, Trimmed part ∧ ',' ∉ part.toList) →
      List.Forall₂ Padded parts pieces → Padded (joinWith "," pieces) s →
        commaParts s = parts ∧
        (∀ (l : Level) (p : Progress), p.valued l .included s = .ok (p.give (.included parts)) ∧
          p.valued l .excluded s = .ok (p.give (.excluded parts))) ∧
        patterns value file (.text s) = .ok parts ∧
        ∀ nodes, List.Forall₂ (fun node part => value node = .ok (.text part)) nodes parts →
          patterns value file (.items nodes) = .ok parts) ∧
    (∀ s, patterns value file (.text s) = .ok (commaParts s) ∧ (∀ part ∈ commaParts s, Trimmed part) ∧
      commaParts (joinWith "," (commaParts s)) = commaParts s) ∧
    (∀ v parts, patterns value file v = .ok parts → ∀ part ∈ parts, Trimmed part) ∧
    ∀ nodes, (∀ node ∈ nodes, ∃ v, value node = .ok v) → ((∃ parts, patterns value file (.items nodes) = .ok parts) ↔
      ¬ ∃ node ∈ nodes, ∃ n, value node = .ok (.whole n) ∧ IsLong n) := by
  refine ⟨fun parts pieces s hparts hpieces hs => ?_, fun s => ?_, fun v parts => trimmed_of_patterns,
    fun nodes hnodes => (ends_patterns_items hnodes).exists_ok_iff⟩
  · have hsplit : commaParts s = parts := by
      rw [hs.commaParts_eq, commaParts_joinWith_of_padded hparts hpieces]
    refine ⟨hsplit, fun l p => ⟨?_, ?_⟩, ?_, fun nodes hnodes => ?_⟩
    · rw [Progress.valued, hsplit]
    · rw [Progress.valued, hsplit]
    · rw [patterns, hsplit]
    · rw [patterns_items_of_texts hnodes, patternsOf_eq_commaParts fun part hpart => (hparts part hpart).2,
        commaParts_joinWith_of_padded hparts (List.forall₂_same.mpr fun part _ => padded_self part)]
  · exact ⟨rfl, fun part hpart => (trimmed_of_mem_commaParts hpart).1, commaParts_joinWith_commaParts s⟩

/-- The document `[src, lib]`. -/
def srcLib : Document := ⟨.sequence Tag.sequence [.scalar Tag.text ['s', 'r', 'c'], .scalar Tag.text ['l', 'i', 'b']], []⟩

theorem pattern_lists_agree_srcLib :
    commaParts "\tsrc , lib" = ["src", "lib"] ∧
    ∃ nodes, srcLib.value srcLib.root = .ok (.items nodes) ∧
      patterns srcLib.value settingsFile (.items nodes) = .ok ["src", "lib"] ∧ (∀ part ∈ ["src", "lib"], Trimmed part) ∧
      ¬ ∃ node ∈ nodes, ∃ n, srcLib.value node = .ok (.whole n) ∧ IsLong n := by
  obtain ⟨hgiven, _, htrimmed, hitems⟩ := pattern_lists_agree srcLib.value settingsFile
  have hparts : ∀ part ∈ ["src", "lib"], Trimmed part ∧ ',' ∉ part.toList := by decide
  have hpadded : List.Forall₂ Padded ["src", "lib"] ["src ", " lib"] :=
    .cons ⟨"", " ", by decide, by decide, rfl⟩ (.cons ⟨" ", "", by decide, by decide, rfl⟩ .nil)
  have hnodes : List.Forall₂ (fun node part => srcLib.value node = .ok (.text part))
      [.scalar Tag.text ['s', 'r', 'c'], .scalar Tag.text ['l', 'i', 'b']] ["src", "lib"] := .cons rfl (.cons rfl .nil)
  obtain ⟨hsplit, _, _, hlist⟩ := hgiven _ _ "\tsrc , lib" hparts hpadded
    ⟨"\t", "", by decide, by decide, by decide⟩
  have hread := hlist _ hnodes
  refine ⟨hsplit, _, rfl, hread, htrimmed _ _ hread, (hitems _ fun node hnode => ?_).mp ⟨_, hread⟩⟩
  rcases List.mem_pair.mp hnode with rfl | rfl
  · exact ⟨_, rfl⟩
  · exact ⟨_, rfl⟩

end ClassAtlas.Settings
