import ClassAtlas.Proofs.Source.Members
/-!
# Reading printed classes
-/
namespace ClassAtlas.Source

variable {d : Dialect} {cs rest : List Char} {n : Nat}

namespace ClassDeclaration

/-- How a class is found in a source file. -/
def shape (c : ClassDeclaration) : ClassShape where
  name := some c.name.text
  parents := c.parent.toList.map fun t => t.name.text
  interfaces := c.interfaces.map TypeRef.text
  members := c.members.map Member.read

theorem endsWord_clausesText (c : ClassDeclaration) :
    EndsWord c.clausesText ∧ (skip c.clausesText).head? ≠ some '<' := by
  have hparent := endsParent_implements c.interfaces c.bodyText
  unfold clausesText
  cases c.parent with
  | none => exact ⟨hparent.1, hparent.head?_ne (by decide)⟩
  | some t =>
    rw [extendsText_some]
    simp only [List.cons_append, List.append_assoc]
    refine ⟨endsWord_space _, ?_⟩
    rw [spelled_extends.skip_space]
    simp

end ClassDeclaration

theorem afterStrayWords_brace (cs more : List Char) :
    afterStrayWords cs (n + 1) (' ' :: '\x7b' :: more) = '\x7b' :: more := by
  rw [afterStrayWords, skip_space_brace]
  rfl

theorem length_le_length_membersText (ms : List Member) : ms.length ≤ (membersText ms).length := by
  induction ms with
  | nil => simp
  | cons m ms ih =>
    simp only [membersText, List.length_cons, List.length_append]
    omega

/-- A printed class is read back after the word for classes. -/
theorem classLike_declaration (htyped : d.isTyped = true) (c : ClassDeclaration)
    (hn : 2 * c.clausesText.length + 20 ≤ n) : ∃ inner,
    classLike d n [] (' ' :: (c.name.text ++ c.clausesText)) =
      ⟨[.node (some c.shape) inner], ['\n'], true⟩ := by
  obtain ⟨n, rfl⟩ : ∃ k, n = k + 1 := ⟨n - 1, by omega⟩
  have hmembers := length_le_length_membersText c.members
  simp only [ClassDeclaration.clausesText, ClassDeclaration.bodyText, List.length_append,
    List.length_cons] at hn
  obtain ⟨hends, hangle⟩ := c.endsWord_clausesText
  have hword := c.name.spelled.reads _ hends
  have hextends := by simpa using c.name.text_ne (w := "extends") (by decide)
  have himplements := by simpa using c.name.text_ne (w := "implements") (by decide)
  have hbrackets := afterNextBrackets_of_head?_ne hangle
  have hheritage : heritage d n c.clausesText =
      ⟨c.shape.parents, c.shape.interfaces, [], ' ' :: '\x7b' :: c.bodyText⟩ := by
    refine heritage_clauses htyped c.parent c.interfaces c.bodyText ?_
    rw [List.length_append]
    omega
  obtain ⟨inner, hbody⟩ : ∃ inner,
      classBody d n c.bodyText = ⟨c.shape.members, inner, ['\n'], true⟩ :=
    classBody_members c.members ['\n'] (by omega)
  have hstray :=
    afterStrayWords_brace (n := c.bodyText.length + 1) (' ' :: '\x7b' :: c.bodyText) c.bodyText
  have hbrace : skip ('\x7b' :: c.bodyText) = '\x7b' :: c.bodyText := skip_of_keeps (by decide)
  refine ⟨inner, ?_⟩
  rw [classLike, c.name.spelled.skip_space]
  simp [hword, hextends, himplements, htyped, hbrackets, hheritage, hstray, hbrace, hbody,
    c.name.spelled.ne_nil]
  rfl

/-- A statement that begins with a word is told by that word. -/
theorem statement_word {w : String} (hw : Spelled w.toList) (hrest : EndsWord rest) :
    statement d (n + 1) (w.toList ++ rest) = wordStatement d n w (w.toList ++ rest) rest := by
  obtain ⟨c, more, hc, hshape, hword, hdrop⟩ := hw.begins hrest
  rw [hshape, statement]
  · simp [hword, hdrop, hw.ne_nil]
  all_goals
    intro _
    exact cons_ne_cons_of_opensWord hc (by decide)

theorem statement_class (cs : List Char) :
    statement d (n + 2) ("class".toList ++ ' ' :: cs) = classLike d n [] (' ' :: cs) := by
  rw [statement_word spelled_class (endsWord_space cs), wordStatement]

/-- The word that exports is a statement of its own in front of a class. -/
theorem statement_export (cs : List Char) :
    statement d (n + 3) ("export".toList ++ ' ' :: ("class".toList ++ ' ' :: cs)) =
      ⟨[], ' ' :: ("class".toList ++ ' ' :: cs), true⟩ := by
  obtain ⟨c, more, hc, hshape, hword, -⟩ := spelled_class.begins (endsWord_space cs)
  rw [statement_word spelled_export (endsWord_space _), wordStatement, exported,
    spelled_class.skip_space, hshape]
  have hbrace := ne_of_opensWord hc (m := '\x7b') (by decide)
  have hstar := ne_of_opensWord hc (m := '*') (by decide)
  have hequals := ne_of_opensWord hc (m := '=') (by decide)
  simp only [hbrace, hstar, hequals, hword, List.cons.injEq, false_and, imp_self, implies_true,
    String.ofList_toList]
  rw [if_neg (by decide), if_neg (by decide), if_neg (by decide)]

theorem statements_word {w lead : List Char} (hw : Spelled w) (hrest : EndsWord rest)
    (hlead : skipLead lead = w ++ rest) : statements d (n + 1) lead =
      (statements d n (statement d n (w ++ rest)).rest).after (statement d n (w ++ rest)).trees := by
  obtain ⟨c, more, hc, hshape, -⟩ := hw.begins hrest
  have hbrace := ne_of_opensWord hc (m := '\x7d') (by decide)
  rw [statements, hlead, hshape]
  simp only [hbrace, List.cons.injEq, false_and, imp_self, implies_true]

theorem statements_lineEnd : statements d (n + 1) ['\n'] = ⟨[], [], false⟩ := by
  rw [statements, skipLead, skipFrom_space (by decide), skipFrom_nil]

/-- What is read of a printed class and the end of its last line. -/
theorem statements_class (htyped : d.isTyped = true) (c : ClassDeclaration) {lead : List Char}
    (hlead : skipLead lead = "class".toList ++ ' ' :: (c.name.text ++ c.clausesText))
    (hn : 2 * c.clausesText.length + 23 ≤ n) :
    ∃ inner, statements d n lead = ⟨[.node (some c.shape) inner], [], false⟩ := by
  obtain ⟨n, rfl⟩ : ∃ k, n = k + 3 := ⟨n - 3, by omega⟩
  obtain ⟨inner, hclass⟩ := classLike_declaration (n := n) htyped c (by omega)
  refine ⟨inner, ?_⟩
  rw [statements_word spelled_class (endsWord_space _) hlead, statement_class, hclass,
    statements_lineEnd]
  rfl

/-- What is read of a printed class, whether it is exported or not. -/
theorem statements_declaration (htyped : d.isTyped = true) (c : ClassDeclaration) {lead : List Char}
    (hlead : skipLead lead = c.text) (hn : 2 * c.clausesText.length + 24 ≤ n) :
    ∃ inner, statements d n lead = ⟨[.node (some c.shape) inner], [], false⟩ := by
  cases hexported : c.exported with
  | false =>
    rw [c.text_of_not_exported hexported] at hlead
    exact statements_class htyped c hlead (by omega)
  | true =>
    obtain ⟨n, rfl⟩ : ∃ k, n = k + 4 := ⟨n - 4, by omega⟩
    obtain ⟨inner, hstatements⟩ :=
      statements_class (n := n + 3) htyped c spelled_class.skipLead_space (by omega)
    rw [c.text_of_exported hexported] at hlead
    refine ⟨inner, ?_⟩
    rw [statements_word spelled_export (endsWord_space _) hlead, statement_export, hstatements]
    rfl

/-- Comments in front of a text are dropped. -/
theorem skipFrom_comments {c : Char} (hc : opensWord c = true) (comments : List LineComment)
    (broke : Bool) :
    ∃ ended, skipFrom true .blank broke (comments.flatMap LineComment.text ++ c :: cs) =
      (ended, c :: cs) := by
  induction comments generalizing broke with
  | nil => exact ⟨broke, skipFrom_of_opensWord hc⟩
  | cons comment comments ih =>
    obtain ⟨ended, hrest⟩ := ih true
    refine ⟨ended, ?_⟩
    rw [← hrest, List.flatMap_cons, LineComment.text]
    simpa using skipFrom_comment comment.oneLine (comments.flatMap LineComment.text ++ c :: cs)

theorem ClassDeclaration.exists_text (c : ClassDeclaration) :
    ∃ x cs, c.text = x :: cs ∧ opensWord x = true := by
  cases h : c.exported with
  | false => exact ⟨'c', _, c.text_of_not_exported h, by decide⟩
  | true => exact ⟨'e', _, c.text_of_exported h, by decide⟩

/-- Comments and a class declaration after them, as a source file holds them. -/
def sourceText (comments : List LineComment) (c : ClassDeclaration) : List Char :=
  comments.flatMap LineComment.text ++ c.text

theorem skipLead_sourceText (comments : List LineComment) (c : ClassDeclaration) :
    skipLead (sourceText comments c) = c.text := by
  obtain ⟨x, cs, htext, hx⟩ := c.exists_text
  obtain ⟨ended, hskip⟩ := skipFrom_comments hx comments false
  rw [skipLead, sourceText, htext, hskip]

theorem afterInterpreter_of_ne {x : Char} (hx : x ≠ '#') : afterInterpreter (x :: cs) = x :: cs := by
  rw [afterInterpreter]
  intro rest heq
  injection heq with heq
  exact absurd heq hx

theorem afterInterpreter_sourceText (comments : List LineComment) (c : ClassDeclaration) :
    afterInterpreter (sourceText comments c) = sourceText comments c := by
  cases comments with
  | nil =>
    obtain ⟨x, cs, htext, hx⟩ := c.exists_text
    rw [sourceText, List.flatMap_nil, List.nil_append, htext]
    exact afterInterpreter_of_ne (ne_of_opensWord hx (by decide))
  | cons comment comments => exact afterInterpreter_of_ne (by decide)

/-- The tree of a printed class has one node, for the class. -/
theorem read_sourceText (htyped : d.isTyped = true) (comments : List LineComment)
    (c : ClassDeclaration) :
    ∃ inner, read d (sourceText comments c) = .node none [.node (some c.shape) inner] := by
  have hlength : c.clausesText.length ≤ (sourceText comments c).length := by
    simp only [sourceText, ClassDeclaration.text, List.length_append]
    omega
  obtain ⟨inner, hstatements⟩ :=
    statements_declaration (n := 16 * (sourceText comments c).length + 64) htyped c
    (skipLead_sourceText comments c) (by omega)
  refine ⟨inner, ?_⟩
  rw [read, afterInterpreter_sourceText, program, hstatements]

theorem firstClass?_sourceText (htyped : d.isTyped = true) (comments : List LineComment)
    (c : ClassDeclaration) :
    (read d (sourceText comments c)).firstClass? = some c.shape := by
  obtain ⟨inner, hread⟩ := read_sourceText htyped comments c
  rw [hread, SyntaxTree.firstClass?, SyntaxTree.stackedClasses, SyntaxTree.stackedClasses.eq_def]
  simp [SyntaxTree.namedClass, ClassDeclaration.shape]

end ClassAtlas.Source
