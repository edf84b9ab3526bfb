import ClassAtlas.Proofs.History.Answers
import Mathlib.Algebra.Order.BigOperators.Group.List
/-!
# Counting commits

Version control lists commits with a line feed after each. A query counts lines by the line
boundaries of all scripts, and of those it takes from an answer it can read the last commit of. So a
subject with such a boundary in it counts as one commit for each piece with something on it.
-/
namespace ClassAtlas.History
open ClassAtlas.Text ClassAtlas.Action

/-- A commit in the list of commits. -/
structure LogLine where
  hash : String
  subject : String

namespace LogLine

def chars (l : LogLine) : List Char := l.hash.toList ++ ' ' :: l.subject.toList

structure WellFormed (l : LogLine) : Prop where
  hash_ne : l.hash.toList ≠ []
  hash_hex : ∀ c ∈ l.hash.toList, (Json.hexValue? c).isSome
  noFeed : '\n' ∉ l.subject.toList
  noReturn : '\r' ∉ l.subject.toList

instance (l : LogLine) : Decidable l.WellFormed :=
  have : Decidable (∀ c ∈ l.hash.toList, (Json.hexValue? c).isSome) := List.decidableBAll _ _
  decidable_of_iff (l.hash.toList ≠ [] ∧ (∀ c ∈ l.hash.toList, (Json.hexValue? c).isSome) ∧
      '\n' ∉ l.subject.toList ∧ '\r' ∉ l.subject.toList)
    ⟨fun ⟨hne, hhex, hfeed, hreturn⟩ => ⟨hne, hhex, hfeed, hreturn⟩,
      fun hl => ⟨hl.hash_ne, hl.hash_hex, hl.noFeed, hl.noReturn⟩⟩

/-- Nothing but blanks comes from the first line boundary of the subject on. -/
def OneLine (l : LogLine) : Prop :=
  ∀ c ∈ l.subject.toList.dropWhile (!isLineBoundary ·), isBlank c = true

instance (l : LogLine) : Decidable l.OneLine := List.decidableBAll _ _

/-- The number of lines with something on them that the subject adds to its own. -/
def spare (l : LogLine) : Nat :=
  ((splitAt isLineBoundary l.subject.toList).tail.filter fun piece => !(trim piece).isEmpty).length

end LogLine

/-- The answer for the list of commits. -/
def logText (log : List LogLine) : String := String.ofList (log.flatMap fun l => l.chars ++ ['\n'])

namespace LogEntry

def HasSubject (e : LogEntry) : Prop := ∃ c ∈ e.subject.toList, isBlank c = false

instance (e : LogEntry) : Decidable e.HasSubject := List.decidableBEx _ _

end LogEntry

/-! ## Lines -/

theorem isBlank_of_isLineBoundary {c : Char} (hc : isLineBoundary c = true) : isBlank c = true := by
  simp only [isLineBoundary, isBlank, Bool.or_eq_true, Bool.and_eq_true, decide_eq_true_eq, beq_iff_eq] at hc ⊢
  omega

theorem linesFrom_append_newline {cs : List Char} (hfeed : '\n' ∉ cs) (hreturn : '\r' ∉ cs) (line rest : List Char) :
    linesFrom line (cs ++ '\n' :: rest) = cs.splitOnPPrepend isLineBoundary line ++ lines rest := by
  induction cs generalizing line with
  | nil =>
    have hboundary : isLineBoundary '\n' = true := by decide
    simp [linesFrom, lines, hboundary]
  | cons c cs ih =>
    obtain ⟨hc, hcs⟩ := List.ne_and_not_mem_of_not_mem_cons hreturn
    have hnext := ih (List.not_mem_of_not_mem_cons hfeed) hcs
    rw [List.cons_append, linesFrom, List.splitOnPPrepend_cons_eq_if]
    · split
      · rw [hnext, List.splitOnPPrepend_nil_right, List.cons_append]
      · exact hnext _
    · exact fun _ hreturn' _ => hc hreturn'.symm

theorem lines_append_newline {cs : List Char} (hfeed : '\n' ∉ cs) (hreturn : '\r' ∉ cs) (rest : List Char) :
    lines (cs ++ '\n' :: rest) = splitAt isLineBoundary cs ++ lines rest := by
  rw [lines, linesFrom_append_newline hfeed hreturn, List.splitOnPPrepend_nil_right, splitAt_eq_splitOnP]

namespace LogLine

variable {l : LogLine}

theorem WellFormed.hash_firm (hl : l.WellFormed) {c : Char} (hc : c ∈ l.hash.toList) : isBlank c = false :=
  isBlank_eq_false_of_hex (hl.hash_hex c hc)

theorem WellFormed.notMem_chars (hl : l.WellFormed) : '\n' ∉ l.chars ∧ '\r' ∉ l.chars := by
  have hhash : ∀ c, isBlank c = true → c ∉ l.hash.toList := by
    intro c hblank hc
    rw [hl.hash_firm hc] at hblank
    cases hblank
  constructor
  · simp [chars, hhash '\n' (by decide), hl.noFeed]
  · simp [chars, hhash '\r' (by decide), hl.noReturn]

theorem splitAt_chars (hl : l.WellFormed) : splitAt isLineBoundary l.chars =
    (splitAt isLineBoundary l.subject.toList).modifyHead ((l.hash.toList ++ [' ']) ++ ·) := by
  rw [chars, List.append_cons]
  refine splitAt_append (fun c hc => ?_) _
  rcases List.mem_append.mp hc with hhash | hspace
  · by_contra hboundary
    have hblank := isBlank_of_isLineBoundary (Bool.eq_true_of_not_eq_false hboundary)
    rw [hl.hash_firm hhash] at hblank
    cases hblank
  · rw [List.mem_singleton.mp hspace]
    decide

/-- The line with the hash counts, and the spare ones do. -/
theorem length_filter_chars (hl : l.WellFormed) :
    ((splitAt isLineBoundary l.chars).filter fun piece => !(trim piece).isEmpty).length = 1 + l.spare := by
  rw [splitAt_chars hl, spare]
  cases hpieces : splitAt isLineBoundary l.subject.toList with
  | nil => rw [splitAt_eq_splitOnP] at hpieces; exact absurd hpieces (List.splitOnP_ne_nil _ _)
  | cons piece pieces =>
    obtain ⟨c, hc⟩ := List.exists_mem_of_ne_nil _ hl.hash_ne
    have hfirst : trim ((l.hash.toList ++ [' ']) ++ piece) ≠ [] := by
      intro hempty
      have hblank := trim_eq_nil_iff.mp hempty c (by simp [hc])
      rw [hl.hash_firm hc] at hblank
      cases hblank
    rw [List.modifyHead_cons, List.filter_cons_of_pos (by simpa using hfirst), List.tail_cons, List.length_cons,
      Nat.add_comm]

theorem spare_eq_zero_iff : l.spare = 0 ↔ l.OneLine := by
  rw [spare, OneLine, ← forall_mem_tail_splitAt fun _ => isBlank_of_isLineBoundary]
  simp [List.length_eq_zero_iff, List.filter_eq_nil_iff, trim_eq_nil_iff]

end LogLine

theorem countCommits_logText {log : List LogLine} (hlog : ∀ l ∈ log, l.WellFormed) :
    countCommits (logText log) = (log.map fun l => 1 + l.spare).sum := by
  rw [countCommits, logText, String.toList_ofList]
  induction log with
  | nil => rfl
  | cons l log ih =>
    obtain ⟨hl, hrest⟩ := List.forall_mem_cons.mp hlog
    rw [List.flatMap_cons, List.append_assoc, List.singleton_append,
      lines_append_newline hl.notMem_chars.1 hl.notMem_chars.2, List.filter_append, List.length_append,
      LogLine.length_filter_chars hl, ih hrest, List.map_cons, List.sum_cons]

/-- Commits are counted once each just when every subject is one line. -/
theorem countCommits_eq_length_iff {log : List LogLine} (hlog : ∀ l ∈ log, l.WellFormed) :
    countCommits (logText log) = log.length ↔ ∀ l ∈ log, l.OneLine := by
  have hsum : (log.map fun l => 1 + l.spare).sum = log.length + (log.map LogLine.spare).sum := by
    rw [List.sum_map_add]
    simp
  rw [countCommits_logText hlog, hsum, Nat.add_eq_left, List.sum_eq_zero_iff]
  simp [LogLine.spare_eq_zero_iff]

/-! ## The last commit -/

theorem exists_last_not_blank {cs : List Char} (hcs : ∃ c ∈ cs, isBlank c = false) :
    ∃ init c tail, cs = init ++ c :: tail ∧ isBlank c = false ∧ ∀ d ∈ tail, isBlank d = true := by
  induction cs with
  | nil => simp at hcs
  | cons d cs ih =>
    by_cases hlater : ∃ c ∈ cs, isBlank c = false
    · obtain ⟨init, c, tail, rfl, hc, htail⟩ := ih hlater
      exact ⟨d :: init, c, tail, rfl, hc, htail⟩
    · obtain ⟨c, hc, hfirm⟩ := hcs
      rcases List.mem_cons.mp hc with rfl | hc
      · refine ⟨[], c, cs, rfl, hfirm, fun e he => ?_⟩
        by_contra hblank
        exact hlater ⟨e, he, Bool.eq_false_iff.mpr hblank⟩
      · exact absurd ⟨c, hc, hfirm⟩ hlater

namespace LogEntry.Framed

variable {e : LogEntry}

/-- What is left of the answer ends with the last character of the subject that is not blank. -/
theorem trim_text (he : e.Framed) (hs : e.HasSubject) :
    ∃ message, trim e.text.toList = [separator].intercalate e.lead ++ separator :: message := by
  obtain ⟨init, c, tail, hsubject, hc, htail⟩ := exists_last_not_blank hs
  have htext : e.text.toList = (e.hash.toList ++ ((separator :: e.author.toList ++ separator :: e.email.toList ++
      separator :: e.date.chars ++ separator :: init) ++ [c])) ++ (tail ++ ['\n']) := by
    simp [LogEntry.text, lead, List.intercalate_cons_cons, hsubject]
  have hfirm : FirmEnds [c] := firmEnds_of_not_blank fun d hd => List.mem_singleton.mp hd ▸ hc
  have hblank : ∀ d ∈ tail ++ ['\n'], isBlank d = true := by
    intro d hd
    rcases List.mem_append.mp hd with hd | hd
    · exact htail d hd
    · rw [List.mem_singleton.mp hd]
      exact isBlank_newline
  refine ⟨init ++ [c], ?_⟩
  rw [htext, trim_append_of_blank (he.firmEnds_hash.append he.hash_ne hfirm (List.cons_ne_nil _ _) _)
    (by simp [he.hash_ne]) hblank]
  simp [lead, List.intercalate_cons_cons]

/-- The answer for a commit with a subject can be read, as the instant that its date stands for. -/
theorem decodes_instant (he : e.Framed) (hs : e.HasSubject) :
    ∃ moment, Decodes e.text moment ∧ moment.instant = e.date.instant * Moment.second := by
  obtain ⟨message, htrim⟩ := he.trim_text hs
  obtain ⟨moment, hread, _, hinstant⟩ := Iso.read_chars he.date
  have hsplit : splitOn separator (trim e.text.toList) = e.lead ++ splitOn separator message := by
    have happend := splitAt_append_cons (p := (· == separator)) ([separator].intercalate e.lead) message
      (beq_self_eq_true separator)
    rw [htrim]
    exact happend.trans (congrArg (· ++ splitOn separator message) he.splitOn_lead)
  obtain ⟨first, rest, hfirst⟩ : ∃ first rest, splitOn separator message = first :: rest := by
    rw [splitOn, splitAt_eq_splitOnP]
    exact List.exists_cons_of_ne_nil (List.splitOnP_ne_nil _ _)
  refine ⟨moment, ⟨e.hash, e.author, e.email, String.ofList e.date.chars, String.ofList first,
    rest.map String.ofList, ?_, hread⟩, hinstant⟩
  rw [hsplit, hfirst]
  simp [lead]

/-- The commit of that answer has a stamp. -/
theorem decodes (he : e.Framed) (hs : e.HasSubject) :
    ∃ moment, Decodes e.text moment ∧ Moment.inRange moment.instant = true := by
  obtain ⟨moment, hdecodes, hinstant⟩ := he.decodes_instant hs
  obtain ⟨stamp, hstamp, _⟩ := Iso.stamp?_of_whole_second hinstant he.instant_nonneg he.instant_lt
  refine ⟨moment, hdecodes, ?_⟩
  by_contra hout
  rw [Moment.stamp?, if_neg hout] at hstamp
  cases hstamp

theorem not_decodes (he : e.Framed) (hs : ¬ e.HasSubject) (moment : Moment) : ¬ Decodes e.text moment := by
  have hblank : ∀ c ∈ e.subject.toList, isBlank c = true := by
    intro c hc
    by_contra hfirm
    exact hs ⟨c, hc, Bool.eq_false_iff.mpr hfirm⟩
  rintro ⟨hash, author, email, date, message, rest, hfields, _⟩
  rw [he.trim_text_of_blank hblank, he.splitOn_lead] at hfields
  simp [lead] at hfields

end LogEntry.Framed

theorem not_decodes_empty (moment : Moment) : ¬ Decodes "" moment := fun hanswer =>
  trim_ne_nil_of_decodes hanswer rfl

/-! ## Querying -/

variable {host : Host} {limit : Option Seconds} {file root relative : Path} {answer : String}

/-- The history of a commit that can be read counts the lines of the list. -/
theorem on_query_counts {commits : String} {moment : Moment} (hfile : file.relativeTo? root = some relative)
    (hcommits : host.git.commits relative.toString = .ok commits)
    (hlast : host.git.lastCommit relative.toString = .ok answer) (hanswer : Decodes answer moment)
    (hrange : Moment.inRange moment.instant = true) :
    ∃ history next, (query limit file root).on host = (.ok history, next) ∧ history.commits = countCommits commits := by
  obtain ⟨asked, hquery⟩ := on_query limit hfile hcommits hlast
  obtain ⟨commit, hread⟩ := (readCommit_of_decodes hanswer host.now).1 hrange
  rw [hread] at hquery
  exact ⟨_, asked, hquery, rfl⟩

/-- The commits of a file are counted right just when there are none, or when the last one has a
subject and no subject has a line boundary in it with more than blanks after it. Otherwise there are
none to the query, or one for each line with something on it. -/
theorem query_counts_commits {log : List LogLine} {last : Option LogEntry} (limit : Option Seconds)
    (hfile : file.relativeTo? root = some relative) (hlog : ∀ l ∈ log, l.WellFormed) (hlast : ∀ e ∈ last, e.Framed)
    (hnone : last = none → log = []) (hcommits : host.git.commits relative.toString = .ok (logText log))
    (hanswer : host.git.lastCommit relative.toString = .ok ((last.map LogEntry.text).getD "")) :
    ∃ history next, (query limit file root).on host = (.ok history, next) ∧
      (history.commits = log.length ↔
        log = [] ∨ (∀ e ∈ last, e.HasSubject) ∧ ∀ l ∈ log, l.OneLine) ∧
      ((∀ e ∈ last, e.HasSubject) → history.commits = ((log.map fun l => 1 + l.spare).sum : ℕ)) ∧
      ((∃ e ∈ last, ¬ e.HasSubject) → history = .empty) := by
  cases last with
  | none =>
    obtain rfl := hnone rfl
    obtain ⟨next, hquery⟩ : ∃ next, (query limit file root).on host = (.ok .empty, next) :=
      on_query_unread hfile hcommits hanswer not_decodes_empty
    exact ⟨FileHistory.empty, next, hquery, by simp [FileHistory.empty], by simp [FileHistory.empty], by simp⟩
  | some e =>
    have he : e.Framed := hlast e rfl
    simp only [Option.mem_some_iff, forall_eq', exists_eq_left']
    by_cases hs : e.HasSubject
    · obtain ⟨moment, hdecodes, hrange⟩ := he.decodes hs
      obtain ⟨history, next, hquery, hcount⟩ : ∃ history next, (query limit file root).on host = (.ok history, next) ∧
          history.commits = countCommits (logText log) := on_query_counts hfile hcommits hanswer hdecodes hrange
      refine ⟨history, next, hquery, ?_, fun _ => ?_, fun hnot => absurd hs hnot⟩
      · rw [hcount, Nat.cast_inj, countCommits_eq_length_iff hlog]
        refine ⟨fun hlines => .inr ⟨hs, hlines⟩, ?_⟩
        rintro (rfl | ⟨_, hlines⟩)
        · simp
        · exact hlines
      · rw [hcount, countCommits_logText hlog]
    · obtain ⟨next, hquery⟩ : ∃ next, (query limit file root).on host = (.ok .empty, next) :=
        on_query_unread hfile hcommits hanswer (he.not_decodes hs)
      refine ⟨FileHistory.empty, next, hquery, ?_, fun hall => absurd hall hs, fun _ => rfl⟩
      simp [FileHistory.empty, hs, eq_comm]

/-- An hour's work in three commits, the last one of them in the morning. -/
def morningLog (subject : String) : List LogLine := [⟨"abc", subject⟩, ⟨"def0", "First try"⟩, ⟨"1", ""⟩]

theorem query_counts_morningLog : (morningEntry "Second try").Framed ∧ ∃ history next,
    (query (some (.whole 30)) ⟨.root, ["w", "src", "a.ts"]⟩ ⟨.root, ["w"]⟩).on
      (answering (logText (morningLog "Second try")) (morningEntry "Second try").text) = (.ok history, next) ∧
    history.commits = 3 := by
  have he : (morningEntry "Second try").Framed := (wellFormed_morningEntry (by decide) (by decide)).framed
  have hlog : ∀ l ∈ morningLog "Second try", l.WellFormed := by
    simp only [morningLog, List.forall_mem_cons, List.not_mem_nil, false_implies, implies_true, and_true]
    exact ⟨by decide, by decide, by decide⟩
  obtain ⟨history, next, hquery, hcount, _⟩ := @query_counts_commits
    (answering (logText (morningLog "Second try")) (morningEntry "Second try").text) ⟨.root, ["w", "src", "a.ts"]⟩
    ⟨.root, ["w"]⟩ ⟨.here, ["src", "a.ts"]⟩ (morningLog "Second try") (some (morningEntry "Second try"))
    (some (.whole 30)) rfl hlog (by simpa using he) (by simp) rfl rfl
  refine ⟨he, history, next, hquery, hcount.mpr (.inr ⟨?_, ?_⟩)⟩
  · simpa using (by decide : (morningEntry "Second try").HasSubject)
  · decide

/-- A line separator in a subject counts as a commit of its own. -/
theorem query_counts_separator : (⟨"abc", "a\u2028b"⟩ : LogLine).WellFormed ∧ ∃ history next,
    (query (some (.whole 30)) ⟨.root, ["w", "src", "a.ts"]⟩ ⟨.root, ["w"]⟩).on
      (answering (logText [⟨"abc", "a\u2028b"⟩]) (morningEntry "Second try").text) = (.ok history, next) ∧
    history.commits = 2 := by
  obtain ⟨moment, hdecodes, hrange⟩ :=
    (@wellFormed_morningEntry "Second try" (by decide) (by decide)).framed.decodes (by decide)
  obtain ⟨history, next, hquery, hcount⟩ := @on_query_counts
    (answering (logText [⟨"abc", "a\u2028b"⟩]) (morningEntry "Second try").text) (some (.whole 30))
    ⟨.root, ["w", "src", "a.ts"]⟩ ⟨.root, ["w"]⟩ ⟨.here, ["src", "a.ts"]⟩ _ _ moment rfl rfl rfl hdecodes hrange
  exact ⟨by decide, history, next, hquery, hcount.trans (by decide)⟩

end ClassAtlas.History
