import ClassAtlas.Proofs.Json.Escape
import ClassAtlas.Proofs.Json.Numeral
/-!
# Reading back what was written

A value without floating point numbers, without numbers that are too long and without two members of
one name is read back as it is from its indented text, by a reader that may open as many levels as
the value has. The text is pure ASCII.
-/
namespace ClassAtlas.Json

open Text (hexDigit hexDigits)

variable {rest : List Char}

/-! ## Blanks -/

theorem ends_nil : Ends [] := by simp [Ends]

theorem ends_newLine (depth : Nat) (rest : List Char) : Ends (newLine depth ++ rest) := by
  simp [Ends, newLine]

theorem isSpace_newLine (depth : Nat) : ∀ c ∈ newLine depth, isSpace c = true := by
  intro c hc
  rcases List.mem_cons.mp hc with rfl | hc
  · rfl
  · rw [List.eq_of_mem_replicate hc]
    rfl

theorem skipSpace_append {blanks : List Char} (hblanks : ∀ x ∈ blanks, isSpace x = true) {c : Char}
    (hc : isSpace c = false) : skipSpace (blanks ++ c :: rest) = c :: rest := by
  rw [skipSpace, List.dropWhile_append_of_pos hblanks, List.dropWhile_cons_of_neg (by simp [hc])]

theorem skipSpace_newLine (depth : Nat) (rest : List Char) {c : Char} (hc : isSpace c = false) :
    skipSpace (newLine depth ++ c :: rest) = c :: rest :=
  skipSpace_append (isSpace_newLine depth) hc

section Steps

variable {fuel depth : Nat} {c : Char} {cs after : List Char} {v : Json}

/-! ## One step of the writer -/

@[simp] theorem renderAt_null (d : Nat) : renderAt d null = "null".toList := rfl

@[simp] theorem renderAt_bool (d : Nat) (b : Bool) :
    renderAt d (bool b) = if b then "true".toList else "false".toList := rfl

@[simp] theorem renderAt_int (d : Nat) (n : Int) : renderAt d (int n) = renderInt n := rfl

@[simp] theorem renderAt_str (d : Nat) (s : String) : renderAt d (str s) = renderString s.toList := rfl

@[simp] theorem renderAt_arr_nil (d : Nat) : renderAt d (arr []) = ['[', ']'] := rfl

@[simp] theorem renderAt_arr_cons (d : Nat) (v : Json) (vs : List Json) : renderAt d (arr (v :: vs)) =
    '[' :: newLine (d + 1) ++ renderAt (d + 1) v ++ renderItems (d + 1) vs ++ newLine d ++ [']'] := rfl

@[simp] theorem renderAt_obj_nil (d : Nat) : renderAt d (obj []) = ['{', '}'] := rfl

@[simp] theorem renderAt_obj_cons (d : Nat) (name : String) (v : Json) (ms : List (String × Json)) :
    renderAt d (obj ((name, v) :: ms)) = '{' :: newLine (d + 1) ++ renderString name.toList ++ [':', ' '] ++
      renderAt (d + 1) v ++ renderMembers (d + 1) ms ++ newLine d ++ ['}'] := rfl

@[simp] theorem renderItems_nil (d : Nat) : renderItems d [] = [] := rfl

@[simp] theorem renderItems_cons (d : Nat) (v : Json) (vs : List Json) :
    renderItems d (v :: vs) = ',' :: newLine d ++ renderAt d v ++ renderItems d vs := rfl

@[simp] theorem renderMembers_nil (d : Nat) : renderMembers d [] = [] := rfl

@[simp] theorem renderMembers_cons (d : Nat) (name : String) (v : Json) (ms : List (String × Json)) :
    renderMembers d ((name, v) :: ms) = ',' :: newLine d ++ renderString name.toList ++ [':', ' '] ++
      renderAt d v ++ renderMembers d ms := rfl

/-! ## One step of the reader

A step is seen by evaluating it; the equations of the reader as a whole are not needed for that.
-/

theorem readValue_str {s : List Char} (h : readText cs = .ok (s, after)) :
    readValue (fuel + 1) depth ('"' :: cs) = .ok (str (String.ofList s), after) := by
  conv_lhs => whnf
  rw [h]

theorem readValue_arr_nil (fuel depth : Nat) (cs : List Char) :
    readValue (fuel + 1) (depth + 1) ('[' :: ']' :: cs) = .ok (arr [], cs) := rfl

theorem readValue_arr (h : skipSpace cs = c :: rest) (hc : c ≠ ']') :
    readValue (fuel + 1) (depth + 1) ('[' :: cs) = readItems fuel depth [] (c :: rest) := by
  conv_lhs => whnf
  rw [h]
  split
  case h_1 heq => exact absurd (List.cons.inj heq).1 hc
  case h_2 => rfl

theorem readValue_obj_nil (fuel depth : Nat) (cs : List Char) :
    readValue (fuel + 1) (depth + 1) ('{' :: '}' :: cs) = .ok (obj [], cs) := rfl

theorem readValue_obj (h : skipSpace cs = c :: rest) (hc : c ≠ '}') :
    readValue (fuel + 1) (depth + 1) ('{' :: cs) = readMembers fuel depth [] (c :: rest) := by
  conv_lhs => whnf
  rw [h]
  split
  case h_1 heq => exact absurd (List.cons.inj heq).1 hc
  case h_2 => rfl

/-- What is no word and has no mark of a value in front is a number, or nothing. -/
theorem readValue_number (hc : c ≠ '"' ∧ c ≠ '[' ∧ c ≠ '{')
    (hword : wordValues.find? (fun (w, _) => w.isPrefixOf (c :: cs)) = none) :
    readValue (fuel + 1) depth (c :: cs) = readNumber (c :: cs) := by
  obtain ⟨hquote, hbracket, hbrace⟩ := hc
  simp only [readValue, hword]
  simp [hquote, hbracket, hbrace]

theorem readItems_last (acc : List Json) (hvalue : readValue fuel depth cs = .ok (v, rest))
    (hend : skipSpace rest = ']' :: after) :
    readItems (fuel + 1) depth acc cs = .ok (arr (v :: acc).reverse, after) := by
  conv_lhs => whnf
  simp only [hvalue, hend]

theorem readItems_comma (acc : List Json) (hvalue : readValue fuel depth cs = .ok (v, rest))
    (hcomma : skipSpace rest = ',' :: after) :
    readItems (fuel + 1) depth acc cs = readItems fuel depth (v :: acc) (skipSpace after) := by
  conv_lhs => whnf
  simp only [hvalue, hcomma]

section Member

variable {name afterName afterColon : List Char} (acc : List (String × Json))
  (hname : readText cs = .ok (name, afterName)) (hcolon : skipSpace afterName = ':' :: afterColon)
  (hvalue : readValue fuel depth (skipSpace afterColon) = .ok (v, rest))

include hname hcolon hvalue

theorem readMembers_last (hend : skipSpace rest = '}' :: after) :
    readMembers (fuel + 1) depth acc ('"' :: cs) = .ok (obj (setMember (String.ofList name) v acc), after) := by
  conv_lhs => whnf
  simp only [hname, hcolon, hvalue, hend]

theorem readMembers_comma (hcomma : skipSpace rest = ',' :: after) :
    readMembers (fuel + 1) depth acc ('"' :: cs) =
      readMembers fuel depth (setMember (String.ofList name) v acc) (skipSpace after) := by
  conv_lhs => whnf
  simp only [hname, hcolon, hvalue, hcomma]

end Member

end Steps

/-! ## Values -/

/-- Values that are read back as they are by a reader that opens at most `depth` levels. -/
inductive Readable : Nat → Json → Prop where
  | null {depth} : Readable depth null
  | bool {depth b} : Readable depth (bool b)
  | int {depth n} (short : isLong n = false) : Readable depth (int n)
  | str {depth s} : Readable depth (str s)
  | arr {depth vs} (items : ∀ v ∈ vs, Readable depth v) : Readable (depth + 1) (arr vs)
  | obj {depth ms} (names : (ms.map Prod.fst).Nodup) (values : ∀ m ∈ ms, Readable depth m.2) :
      Readable (depth + 1) (obj ms)

/-- The value is read back at whatever depth it is written and whatever stands behind it. -/
def IsRead (depth : Nat) (v : Json) : Prop :=
  ∀ d fuel rest, 2 * (renderAt d v).length ≤ fuel → Ends rest →
    readValue fuel depth (renderAt d v ++ rest) = .ok (v, rest)

variable {depth d : Nat} {v : Json} {vs : List Json} {ms : List (String × Json)}

theorem find?_wordValues_of_isDigit {c : Char} (hc : isDigit c = true) (cs : List Char) :
    wordValues.find? (fun (w, _) => w.isPrefixOf (c :: cs)) = none ∧
      wordValues.find? (fun (w, _) => w.isPrefixOf ('-' :: c :: cs)) = none := by
  have hne : ∀ x, isDigit x = false → (x == c) = false := by
    intro x hx
    refine beq_false_of_ne ?_
    rintro rfl
    rw [hc] at hx
    cases hx
  have hn := hne 'n' rfl
  have ht := hne 't' rfl
  have hf := hne 'f' rfl
  have hN := hne 'N' rfl
  have hI := hne 'I' rfl
  have hminus := hne '-' rfl
  constructor <;> simp [wordValues, List.find?, List.isPrefixOf, hn, ht, hf, hN, hI, hminus]

theorem exists_renderInt (k : Int) : ∃ c cs, isDigit c = true ∧
    (renderInt k = c :: cs ∨ renderInt k = '-' :: c :: cs) := by
  obtain ⟨c, cs, hdigits⟩ := List.exists_cons_of_ne_nil (@Nat.toDigits_ne_nil k.natAbs 10)
  refine ⟨c, cs, isDigit_of_mem_toDigits (by rw [hdigits]; exact List.mem_cons_self), ?_⟩
  unfold renderInt
  rw [hdigits]
  split
  · exact .inr rfl
  · exact .inl rfl

theorem isDigit_signs {c : Char} (hc : isDigit c = true) :
    isSpace c = false ∧ c ≠ ']' ∧ c ≠ '}' ∧ c ≠ '"' ∧ c ≠ '[' ∧ c ≠ '{' := by
  refine ⟨?_, ?_, ?_, ?_, ?_, ?_⟩
  · by_contra hspace
    simp only [isSpace, Bool.not_eq_false, Bool.or_eq_true, decide_eq_true_eq] at hspace
    rcases hspace with ((rfl | rfl) | rfl) | rfl <;> cases hc
  all_goals
    rintro rfl
    cases hc

/-- The text of a value begins with no blank, and with no bracket that closes. -/
theorem exists_renderAt (hv : Readable depth v) (d : Nat) :
    ∃ c cs, renderAt d v = c :: cs ∧ isSpace c = false ∧ c ≠ ']' ∧ c ≠ '}' := by
  cases hv with
  | null => exact ⟨'n', _, rfl, by decide⟩
  | @bool _ b => cases b <;> exact ⟨_, _, rfl, by decide⟩
  | @int _ k short =>
    obtain ⟨c, cs, hdigit, hk | hk⟩ := exists_renderInt k
    · obtain ⟨hspace, hbracket, hbrace, _⟩ := isDigit_signs hdigit
      exact ⟨c, cs, by rw [renderAt_int, hk], hspace, hbracket, hbrace⟩
    · exact ⟨'-', c :: cs, by rw [renderAt_int, hk], by decide⟩
  | str => exact ⟨'"', _, rfl, by decide⟩
  | @arr _ vs items => cases vs <;> exact ⟨'[', _, rfl, by decide⟩
  | @obj _ ms names values => cases ms <;> exact ⟨'{', _, rfl, by decide⟩

theorem skipSpace_renderAt (hv : Readable depth v) {blanks : List Char} (hblanks : ∀ x ∈ blanks, isSpace x = true)
    (d : Nat) (rest : List Char) : skipSpace (blanks ++ (renderAt d v ++ rest)) = renderAt d v ++ rest := by
  obtain ⟨c, cs, hhead, hblank, _⟩ := exists_renderAt hv d
  rw [hhead, List.cons_append, skipSpace_append hblanks hblank]

theorem length_renderAt_pos (hv : Readable depth v) (d : Nat) : 0 < (renderAt d v).length := by
  obtain ⟨c, cs, heq, _⟩ := exists_renderAt hv d
  rw [heq]
  exact Nat.succ_pos _

/-- A value takes at least one step. -/
theorem isRead_of_succ (hv : Readable depth v)
    (h : ∀ d fuel rest, 2 * (renderAt d v).length ≤ fuel + 1 → Ends rest →
      readValue (fuel + 1) depth (renderAt d v ++ rest) = .ok (v, rest)) : IsRead depth v := by
  intro d fuel rest hfuel hrest
  have hpos := length_renderAt_pos hv d
  obtain ⟨fuel, rfl⟩ := Nat.exists_eq_succ_of_ne_zero (by omega : fuel ≠ 0)
  exact h d fuel rest hfuel hrest

theorem isRead_null : IsRead depth null := isRead_of_succ .null fun _ _ _ _ _ => rfl

theorem isRead_bool (b : Bool) : IsRead depth (bool b) :=
  isRead_of_succ .bool fun _ _ _ _ _ => by cases b <;> rfl

theorem isRead_int {k : Int} (hk : isLong k = false) : IsRead depth (int k) := by
  refine isRead_of_succ (.int hk) fun d fuel rest hfuel hrest => ?_
  have hnumber := readNumber_renderInt hk hrest
  obtain ⟨c, cs, hdigit, htext | htext⟩ := exists_renderInt k
  · obtain ⟨_, _, _, hquote, hbracket, hbrace⟩ := isDigit_signs hdigit
    have hword := (find?_wordValues_of_isDigit hdigit (cs ++ rest)).1
    rw [htext, List.cons_append] at hnumber
    rw [renderAt_int, htext, List.cons_append, readValue_number ⟨hquote, hbracket, hbrace⟩ hword, hnumber]
  · have hword := (find?_wordValues_of_isDigit hdigit (cs ++ rest)).2
    rw [htext, List.cons_append, List.cons_append] at hnumber
    rw [renderAt_int, htext, List.cons_append, List.cons_append, readValue_number (by decide) hword, hnumber]

theorem isRead_str (s : String) : IsRead depth (str s) := by
  refine isRead_of_succ .str fun d fuel rest hfuel hrest => ?_
  have htext : renderAt d (str s) ++ rest = '"' :: (s.toList.flatMap escapeChar ++ '"' :: rest) := by
    simp [renderString]
  rw [htext, readValue_str (readText_flatMap _), String.ofList_toList]

theorem readItems_renderItems (acc : List Json) {fuel : Nat}
    (hv : Readable depth v ∧ IsRead depth v) (hvs : ∀ w ∈ vs, Readable depth w ∧ IsRead depth w)
    (hfuel : 2 * ((renderAt d v).length + (renderItems d vs).length) < fuel) (e : Nat) (rest : List Char) :
    readItems fuel depth acc (renderAt d v ++ (renderItems d vs ++ (newLine e ++ ']' :: rest))) =
      .ok (arr (acc.reverse ++ v :: vs), rest) := by
  induction vs generalizing v acc fuel with
  | nil =>
    obtain ⟨fuel, rfl⟩ := Nat.exists_eq_succ_of_ne_zero (by omega : fuel ≠ 0)
    have hfirst := hv.2 d fuel (newLine e ++ ']' :: rest) (by omega) (ends_newLine _ _)
    have hspace : skipSpace (newLine e ++ ']' :: rest) = ']' :: rest := skipSpace_newLine e rest (by decide)
    rw [renderItems_nil, List.nil_append, readItems_last acc hfirst hspace]
    simp
  | cons w ws ih =>
    obtain ⟨fuel, rfl⟩ := Nat.exists_eq_succ_of_ne_zero (by omega : fuel ≠ 0)
    have hlen : (renderItems d (w :: ws)).length =
        1 + (newLine d).length + (renderAt d w).length + (renderItems d ws).length := by
      simp
      omega
    have hfirst := hv.2 d fuel (renderItems d (w :: ws) ++ (newLine e ++ ']' :: rest)) (by omega)
      (by simp [Ends])
    have hrest := ih (v :: acc) (hvs w List.mem_cons_self) (fun x hx => hvs x (List.mem_cons_of_mem _ hx))
      (by omega : 2 * ((renderAt d w).length + (renderItems d ws).length) < fuel)
    have hcomma : skipSpace (renderItems d (w :: ws) ++ (newLine e ++ ']' :: rest)) =
        ',' :: (newLine d ++ (renderAt d w ++ (renderItems d ws ++ (newLine e ++ ']' :: rest)))) := by
      simp [skipSpace, isSpace]
    have hblanks := skipSpace_renderAt (hvs w List.mem_cons_self).1
      (isSpace_newLine d) d (renderItems d ws ++ (newLine e ++ ']' :: rest))
    rw [readItems_comma acc hfirst hcomma, hblanks, hrest]
    simp

theorem isRead_arr (hvs : ∀ w ∈ vs, Readable depth w ∧ IsRead depth w) : IsRead (depth + 1) (arr vs) := by
  refine isRead_of_succ (.arr fun w hw => (hvs w hw).1) fun d fuel rest hfuel hrest => ?_
  cases vs with
  | nil => exact readValue_arr_nil fuel depth rest
  | cons w ws =>
    obtain ⟨c, cs, hhead, _, hbracket, _⟩ := exists_renderAt (hvs w List.mem_cons_self).1 (d + 1)
    have htext : renderAt d (arr (w :: ws)) ++ rest = '[' :: (newLine (d + 1) ++ (renderAt (d + 1) w ++
        (renderItems (d + 1) ws ++ (newLine d ++ ']' :: rest)))) := by
      simp
    have hlen : (renderAt d (arr (w :: ws))).length = 2 + (newLine (d + 1)).length + (newLine d).length +
        ((renderAt (d + 1) w).length + (renderItems (d + 1) ws).length) := by
      simp
      omega
    have hitems := readItems_renderItems [] (hvs w List.mem_cons_self)
      (fun x hx => hvs x (List.mem_cons_of_mem _ hx))
      (by omega : 2 * ((renderAt (d + 1) w).length + (renderItems (d + 1) ws).length) < fuel) d rest
    have hblanks := skipSpace_renderAt (hvs w List.mem_cons_self).1
      (isSpace_newLine (d + 1)) (d + 1)
      (renderItems (d + 1) ws ++ (newLine d ++ ']' :: rest))
    rw [hhead, List.cons_append] at hitems hblanks
    rw [htext, hhead, List.cons_append, readValue_arr hblanks hbracket]
    exact hitems

theorem setMember_of_notMem {name : String} (h : name ∉ ms.map Prod.fst) :
    setMember name v ms = ms ++ [(name, v)] := by
  induction ms with
  | nil => rfl
  | cons m ms ih =>
    rw [List.map_cons, List.mem_cons, not_or] at h
    rw [setMember, if_neg (Ne.symm h.1), ih h.2, List.cons_append]

/-- One member, with a name that did not occur before it, and what stands behind it. -/
theorem readMembers_member {name : String} {acc : List (String × Json)} {fuel : Nat} {more : List Char}
    (hv : Readable depth v ∧ IsRead depth v) (hname : name ∉ acc.map Prod.fst)
    (hfuel : 2 * (renderAt d v).length ≤ fuel) (hmore : Ends more) :
    (∀ after, skipSpace more = '}' :: after →
      readMembers (fuel + 1) depth acc ('"' :: (name.toList.flatMap escapeChar ++ '"' :: ':' :: ' ' ::
        (renderAt d v ++ more))) = .ok (obj (acc ++ [(name, v)]), after)) ∧
      ∀ after, skipSpace more = ',' :: after →
        readMembers (fuel + 1) depth acc ('"' :: (name.toList.flatMap escapeChar ++ '"' :: ':' :: ' ' ::
          (renderAt d v ++ more))) = readMembers fuel depth (acc ++ [(name, v)]) (skipSpace after) := by
  have hblank : ∀ x ∈ [' '], isSpace x = true := by
    intro x hx
    rw [List.mem_singleton.mp hx]
    rfl
  have hcolon : skipSpace (':' :: ' ' :: (renderAt d v ++ more)) = ':' :: ([' '] ++ (renderAt d v ++ more)) :=
    rfl
  have hvalue : readValue fuel depth (skipSpace ([' '] ++ (renderAt d v ++ more))) = .ok (v, more) := by
    rw [skipSpace_renderAt hv.1 hblank d more]
    exact hv.2 d fuel more hfuel hmore
  refine ⟨fun after hnext => ?_, fun after hnext => ?_⟩
  · rw [readMembers_last acc (readText_flatMap name.toList) hcolon hvalue hnext, String.ofList_toList,
      setMember_of_notMem hname]
  · rw [readMembers_comma acc (readText_flatMap name.toList) hcolon hvalue hnext, String.ofList_toList,
      setMember_of_notMem hname]

theorem notMem_names_of_nodup {name : String} {acc : List (String × Json)}
    (h : ((acc ++ (name, v) :: ms).map Prod.fst).Nodup) : name ∉ acc.map Prod.fst := by
  intro hmem
  rw [List.map_append, List.map_cons] at h
  exact (List.nodup_append.mp h).2.2 name hmem name List.mem_cons_self rfl

theorem readMembers_renderMembers {name : String} (acc : List (String × Json)) {fuel : Nat}
    (hv : Readable depth v ∧ IsRead depth v) (hms : ∀ m ∈ ms, Readable depth m.2 ∧ IsRead depth m.2)
    (hnames : ((acc ++ (name, v) :: ms).map Prod.fst).Nodup)
    (hfuel : 2 * ((renderAt d v).length + (renderMembers d ms).length) < fuel) (e : Nat)
    (rest : List Char) :
    readMembers fuel depth acc ('"' :: (name.toList.flatMap escapeChar ++ '"' :: ':' :: ' ' ::
      (renderAt d v ++ (renderMembers d ms ++ (newLine e ++ '}' :: rest))))) =
        .ok (obj (acc ++ (name, v) :: ms), rest) := by
  have hskip : ∀ more, skipSpace (',' :: more) = ',' :: more := fun _ => rfl
  induction ms generalizing v name acc fuel with
  | nil =>
    obtain ⟨fuel, rfl⟩ := Nat.exists_eq_succ_of_ne_zero (by omega : fuel ≠ 0)
    have hspace : skipSpace (newLine e ++ '}' :: rest) = '}' :: rest := skipSpace_newLine e rest (by decide)
    rw [renderMembers_nil, List.nil_append]
    exact (readMembers_member hv (notMem_names_of_nodup hnames) (by omega) (ends_newLine _ _)).1 rest hspace
  | cons m ms ih =>
    obtain ⟨fuel, rfl⟩ := Nat.exists_eq_succ_of_ne_zero (by omega : fuel ≠ 0)
    obtain ⟨next, w⟩ := m
    have hcomma : renderMembers d ((next, w) :: ms) ++ (newLine e ++ '}' :: rest) = ',' :: (newLine d ++
        ('"' :: (next.toList.flatMap escapeChar ++ '"' :: ':' :: ' ' ::
          (renderAt d w ++ (renderMembers d ms ++ (newLine e ++ '}' :: rest)))))) := by
      simp [renderString]
    have hlen : 1 + (newLine d).length + (renderAt d w).length + (renderMembers d ms).length ≤
        (renderMembers d ((next, w) :: ms)).length := by
      simp
      omega
    have hnames' : ((acc ++ [(name, v)] ++ (next, w) :: ms).map Prod.fst).Nodup := by simpa using hnames
    have hquote := skipSpace_newLine d (next.toList.flatMap escapeChar ++ '"' :: ':' :: ' ' ::
      (renderAt d w ++ (renderMembers d ms ++ (newLine e ++ '}' :: rest)))) (by decide : isSpace '"' = false)
    have hrest := ih _ (hms _ List.mem_cons_self) (fun x hx => hms x (List.mem_cons_of_mem _ hx)) hnames'
      (by omega : 2 * ((renderAt d w).length + (renderMembers d ms).length) < fuel)
    rw [hcomma, (readMembers_member hv (notMem_names_of_nodup hnames) (by omega) (by simp [Ends])).2 _ (hskip _)]
    simp only [hquote, hrest, List.append_assoc, List.singleton_append]

theorem isRead_obj (hnames : (ms.map Prod.fst).Nodup) (hms : ∀ m ∈ ms, Readable depth m.2 ∧ IsRead depth m.2) :
    IsRead (depth + 1) (obj ms) := by
  refine isRead_of_succ (.obj hnames fun m hm => (hms m hm).1) fun d fuel rest hfuel hrest => ?_
  cases ms with
  | nil => exact readValue_obj_nil fuel depth rest
  | cons m ms =>
    obtain ⟨name, w⟩ := m
    have htext : renderAt d (obj ((name, w) :: ms)) ++ rest = '{' :: (newLine (d + 1) ++
        ('"' :: (name.toList.flatMap escapeChar ++ '"' :: ':' :: ' ' :: (renderAt (d + 1) w ++
          (renderMembers (d + 1) ms ++ (newLine d ++ '}' :: rest)))))) := by
      simp [renderString]
    have hlen : 2 + (newLine (d + 1)).length + (newLine d).length +
        ((renderAt (d + 1) w).length + (renderMembers (d + 1) ms).length) ≤
          (renderAt d (obj ((name, w) :: ms))).length := by
      simp
      omega
    have hmembers := readMembers_renderMembers [] (hms _ List.mem_cons_self)
      (fun x hx => hms x (List.mem_cons_of_mem _ hx)) hnames
      (by omega : 2 * ((renderAt (d + 1) w).length + (renderMembers (d + 1) ms).length) < fuel) d rest
    rw [htext, readValue_obj (skipSpace_newLine (d + 1) _ (by decide)) (by decide)]
    exact hmembers

theorem Readable.isRead (hv : Readable depth v) : IsRead depth v := by
  induction hv with
  | null => exact isRead_null
  | bool => exact isRead_bool _
  | int short => exact isRead_int short
  | str => exact isRead_str _
  | arr items ih => exact isRead_arr fun w hw => ⟨items w hw, ih w hw⟩
  | obj names values ih => exact isRead_obj names fun m hm => ⟨values m hm, ih m hm⟩

/-! ## Pure text -/

/-- All characters are of the first half of the first byte. -/
def IsAscii (cs : List Char) : Prop := ∀ c ∈ cs, c.toNat < 128

@[simp] theorem isAscii_nil : IsAscii [] := by simp [IsAscii]

@[simp] theorem isAscii_cons {c : Char} {cs : List Char} : IsAscii (c :: cs) ↔ c.toNat < 128 ∧ IsAscii cs := by
  simp [IsAscii]

@[simp] theorem isAscii_append {as bs : List Char} : IsAscii (as ++ bs) ↔ IsAscii as ∧ IsAscii bs := by
  simp [IsAscii, or_imp, forall_and]

@[simp] theorem isAscii_hexDigits (width n : Nat) : IsAscii (hexDigits width n) := by
  have hdigit : ∀ d < 16, (hexDigit d).toNat < 128 := by decide
  induction width generalizing n with
  | zero => simp [hexDigits]
  | succ width ih => simpa [hexDigits, ih] using hdigit (n % 16) (Nat.mod_lt n (by decide))

theorem isAscii_escapeChar (c : Char) : IsAscii (escapeChar c) := by
  unfold escapeChar unitEscape
  simp only []
  repeat' split
  case isTrue h => rcases h with rfl | rfl <;> simp
  all_goals simp
  omega

@[simp] theorem isAscii_renderString (cs : List Char) : IsAscii (renderString cs) := by
  have hbody : IsAscii (cs.flatMap escapeChar) := by
    intro c hc
    obtain ⟨x, _, hx⟩ := List.mem_flatMap.mp hc
    exact isAscii_escapeChar x c hx
  simp [renderString, hbody]

@[simp] theorem isAscii_newLine (depth : Nat) : IsAscii (newLine depth) := by
  simp [newLine, IsAscii]

theorem isAscii_renderInt (k : Int) : IsAscii (renderInt k) := by
  have hdigits : IsAscii (Nat.toDigits 10 k.natAbs) := by
    intro c hc
    have hdigit := isDigit_of_mem_toDigits hc
    simp only [isDigit, Bool.and_eq_true, decide_eq_true_eq, Char.le_def] at hdigit
    exact Nat.lt_of_le_of_lt (UInt32.le_iff_toNat_le.mp hdigit.2) (by decide)
  unfold renderInt
  simp only []
  split <;> simp [hdigits]

theorem isAscii_renderItems (h : ∀ w ∈ vs, ∀ d, IsAscii (renderAt d w)) (d : Nat) :
    IsAscii (renderItems d vs) := by
  induction vs with
  | nil => simp
  | cons w ws ih =>
    have hfirst := h w List.mem_cons_self d
    have hrest := ih fun x hx => h x (List.mem_cons_of_mem _ hx)
    simp [hfirst, hrest]

theorem isAscii_renderMembers (h : ∀ m ∈ ms, ∀ d, IsAscii (renderAt d m.2)) (d : Nat) :
    IsAscii (renderMembers d ms) := by
  induction ms with
  | nil => simp
  | cons m ms ih =>
    obtain ⟨name, w⟩ := m
    have hfirst := h _ List.mem_cons_self d
    have hrest := ih fun x hx => h x (List.mem_cons_of_mem _ hx)
    simp [hfirst, hrest]

/-- The written form has no character beyond the tilde. -/
theorem Readable.isAscii (hv : Readable depth v) (d : Nat) : IsAscii (renderAt d v) := by
  induction hv generalizing d with
  | null => simp
  | @bool _ b => cases b <;> simp
  | int short => exact isAscii_renderInt _
  | str => simp
  | @arr _ vs items ih =>
    cases vs with
    | nil => simp
    | cons w ws =>
      have hfirst := ih w List.mem_cons_self (d + 1)
      have hrest := isAscii_renderItems (fun x hx => ih x (List.mem_cons_of_mem _ hx)) (d + 1)
      simp [hfirst, hrest]
  | @obj _ ms names values ih =>
    cases ms with
    | nil => simp
    | cons m ms =>
      obtain ⟨name, w⟩ := m
      have hfirst := ih _ List.mem_cons_self (d + 1)
      have hrest := isAscii_renderMembers (fun x hx => ih x (List.mem_cons_of_mem _ hx)) (d + 1)
      simp [hfirst, hrest]

/-- The indented text of a value is read back as the value. -/
theorem readDeep_render (hv : Readable depth v) : readDeep depth (render v) = .ok v := by
  obtain ⟨c, cs, hhead, hblank, _⟩ := exists_renderAt hv 0
  have hmark : (render v).head? ≠ some (Char.ofNat 0xFEFF) := by
    intro hmark
    have hascii := hv.isAscii 0 _ (List.mem_of_mem_head? hmark)
    revert hascii
    decide
  have hskip : skipSpace (render v) = render v ++ [] := by
    rw [render, hhead, skipSpace, List.dropWhile_cons_of_neg (by simp [hblank]), List.append_nil]
  have hread := hv.isRead 0 (2 * (render v).length + 2) [] (by rw [render]; omega) ends_nil
  rw [← render] at hread
  rw [readDeep, if_neg hmark, readValueText, hskip, hread]
  rfl

/-! ## Short numbers -/

@[simp] theorem isLong_zero : isLong 0 = false := isLong_eq_false_iff.mpr (Nat.pow_pos (by decide))

@[simp] theorem hasLongNumber_int (k : Int) : (int k).hasLongNumber = isLong k := rfl

theorem hasLongNumber_arr_eq_false_iff :
    (arr vs).hasLongNumber = false ↔ ∀ w ∈ vs, w.hasLongNumber = false := by
  show anyLongNumber vs = false ↔ _
  induction vs with
  | nil => exact iff_of_true rfl (List.forall_mem_nil _)
  | cons w ws ih =>
    show (w.hasLongNumber || anyLongNumber ws) = false ↔ _
    rw [Bool.or_eq_false_iff, ih, List.forall_mem_cons]

theorem hasLongNumber_obj_eq_false_iff :
    (obj ms).hasLongNumber = false ↔ ∀ m ∈ ms, m.2.hasLongNumber = false := by
  show anyMemberLongNumber ms = false ↔ _
  induction ms with
  | nil => exact iff_of_true rfl (List.forall_mem_nil _)
  | cons m ms ih =>
    show (m.2.hasLongNumber || anyMemberLongNumber ms) = false ↔ _
    rw [Bool.or_eq_false_iff, ih, List.forall_mem_cons]

theorem readable_int {k : Int} (h : (int k).hasLongNumber = false) : Readable depth (int k) :=
  .int (by rwa [hasLongNumber_int] at h)

theorem readable_strs (ss : List String) : Readable (depth + 1) (strs ss) := by
  refine .arr fun v hv => ?_
  obtain ⟨s, _, rfl⟩ := List.mem_map.mp hv
  exact .str

/-- An object with short numbers only is read back if its members are. -/
theorem readable_obj (hshort : (obj ms).hasLongNumber = false) (hnames : (ms.map Prod.fst).Nodup)
    (hvalues : ∀ m ∈ ms, m.2.hasLongNumber = false → Readable depth m.2) : Readable (depth + 1) (obj ms) :=
  .obj hnames fun m hm => hvalues m hm (hasLongNumber_obj_eq_false_iff.mp hshort m hm)

/-- A list with short numbers only is read back if its items are. -/
theorem readable_arr_map {α : Type} {f : α → Json} {xs : List α} (hshort : (arr (xs.map f)).hasLongNumber = false)
    (hitems : ∀ x, (f x).hasLongNumber = false → Readable depth (f x)) : Readable (depth + 1) (arr (xs.map f)) := by
  refine .arr fun v hv => ?_
  have hv_short := hasLongNumber_arr_eq_false_iff.mp hshort v hv
  obtain ⟨x, _, rfl⟩ := List.mem_map.mp hv
  exact hitems x hv_short

end ClassAtlas.Json
