import ClassAtlas.History.Query
import ClassAtlas.Proofs.Host.Action
import ClassAtlas.Proofs.Text.Split
import ClassAtlas.Proofs.Time.Written
/-!
# Decoding the last commit

Version control writes a commit as its fields with separators between them. The separator counts as
a blank, so trimming the answer takes it away when no subject follows it.
-/
namespace ClassAtlas.History
open ClassAtlas.Text ClassAtlas.Action

/-- A commit as version control knows it. -/
structure LogEntry where
  hash : String
  author : String
  email : String
  date : Iso.Written
  subject : String

namespace LogEntry

/-- The fields before the subject. -/
def lead (e : LogEntry) : List (List Char) :=
  [e.hash.toList, e.author.toList, e.email.toList, e.date.chars]

/-- The answer for the last commit. -/
def text (e : LogEntry) : String :=
  String.ofList ([separator].intercalate (e.lead ++ [e.subject.toList]) ++ ['\n'])

/-- The fields are those of a commit whose instant lies in years 1 to 9999. -/
structure WellFormed (e : LogEntry) : Prop where
  hash_ne : e.hash.toList ≠ []
  hash_hex : ∀ c ∈ e.hash.toList, (Json.hexValue? c).isSome
  author : separator ∉ e.author.toList
  email : separator ∉ e.email.toList
  subject : separator ∉ e.subject.toList
  subject_ends : FirmEnds e.subject.toList
  date : e.date.IsValid
  instant_nonneg : 0 ≤ e.date.instant
  instant_lt : e.date.instant < Calendar.limit * 86400

/-- The fields before the subject are those of a commit whose instant lies in years 1 to 9999. -/
structure Framed (e : LogEntry) : Prop where
  hash_ne : e.hash.toList ≠ []
  hash_hex : ∀ c ∈ e.hash.toList, (Json.hexValue? c).isSome
  author : separator ∉ e.author.toList
  email : separator ∉ e.email.toList
  date : e.date.IsValid
  instant_nonneg : 0 ≤ e.date.instant
  instant_lt : e.date.instant < Calendar.limit * 86400

theorem WellFormed.framed {e : LogEntry} (he : e.WellFormed) : e.Framed :=
  ⟨he.hash_ne, he.hash_hex, he.author, he.email, he.date, he.instant_nonneg, he.instant_lt⟩

/-- The commit has the fields of the entry, the hash cut short. -/
structure Shows (e : LogEntry) (c : Commit) : Prop where
  hash : c.hash.toList = e.hash.toList.take 7
  author : c.author = e.author
  email : c.email = e.email
  message : c.message = e.subject
  date : Iso.Stamps c.date e.date.instant

end LogEntry

/-! ## Fields and blanks -/

variable {e : LogEntry}

@[simp] theorem isBlank_separator : isBlank separator = true := by decide
@[simp] theorem isBlank_newline : isBlank '\n' = true := by decide

theorem isBlank_eq_false_of_hex {c : Char} (h : (Json.hexValue? c).isSome) : isBlank c = false := by
  have hrange : 48 ≤ c.toNat ∧ c.toNat ≤ 102 := by
    by_contra hout
    have hnone : Json.hexValue? c = none := by
      rw [Json.hexValue?, if_neg (by omega), if_neg (by omega), if_neg (by omega)]
    rw [hnone] at h
    cases h
  exact isBlank_eq_false_of_graphic (by omega) (by omega)

theorem separator_notMem {cs : List Char} (h : ∀ c ∈ cs, isBlank c = false) : separator ∉ cs := by
  intro hmem
  have hblank := h separator hmem
  rw [isBlank_separator] at hblank
  cases hblank

namespace LogEntry.Framed

theorem firmEnds_hash (he : e.Framed) : FirmEnds e.hash.toList :=
  firmEnds_of_not_blank fun c hc => isBlank_eq_false_of_hex (he.hash_hex c hc)

theorem separator_notMem_lead (he : e.Framed) : ∀ field ∈ e.lead, separator ∉ field := by
  have hhash : separator ∉ e.hash.toList :=
    separator_notMem fun c hc => isBlank_eq_false_of_hex (he.hash_hex c hc)
  have hdate : separator ∉ e.date.chars :=
    separator_notMem fun c hc => Iso.isBlank_eq_false_of_mem_chars hc
  intro field hfield
  simp only [lead, List.mem_cons, List.not_mem_nil, or_false] at hfield
  rcases hfield with rfl | rfl | rfl | rfl
  · exact hhash
  · exact he.author
  · exact he.email
  · exact hdate

/-- A line of joined fields is split into them. -/
theorem splitOn_lead (he : e.Framed) : splitOn separator ([separator].intercalate e.lead) = e.lead :=
  splitOn_intercalate (List.cons_ne_nil _ _) he.separator_notMem_lead

theorem lead_ne_nil (he : e.Framed) : [separator].intercalate e.lead ≠ [] := by
  simp [lead, List.intercalate_cons_cons, he.hash_ne]

/-- When the subject is made of blanks, the separator before it is trimmed, too. -/
theorem trim_text_of_blank (he : e.Framed) (hs : ∀ c ∈ e.subject.toList, isBlank c = true) :
    trim e.text.toList = [separator].intercalate e.lead := by
  have htext : e.text.toList = [separator].intercalate e.lead ++ separator :: (e.subject.toList ++ ['\n']) := by
    simp [LogEntry.text, lead, List.intercalate_cons_cons]
  have hcore : [separator].intercalate e.lead = e.hash.toList ++
      ((separator :: e.author.toList ++ separator :: e.email.toList ++ [separator]) ++ e.date.chars) := by
    simp [lead, List.intercalate_cons_cons]
  have hdate : FirmEnds e.date.chars :=
    firmEnds_of_not_blank fun c hc => Iso.isBlank_eq_false_of_mem_chars hc
  have htail : ∀ c ∈ separator :: (e.subject.toList ++ ['\n']), isBlank c = true := by
    intro c hc
    simp only [List.mem_cons, List.mem_append, List.not_mem_nil, or_false] at hc
    rcases hc with rfl | hc | rfl
    · exact isBlank_separator
    · exact hs c hc
    · exact isBlank_newline
  rw [htext]
  refine trim_append_of_blank ?_ he.lead_ne_nil htail
  rw [hcore]
  exact he.firmEnds_hash.append he.hash_ne hdate e.date.chars_ne_nil _

end LogEntry.Framed

namespace LogEntry.WellFormed

theorem trim_text (he : e.WellFormed) (hs : e.subject ≠ "") :
    trim e.text.toList = [separator].intercalate (e.lead ++ [e.subject.toList]) := by
  have hcore : [separator].intercalate (e.lead ++ [e.subject.toList]) = e.hash.toList ++
      ((separator :: e.author.toList ++ separator :: e.email.toList ++ separator :: e.date.chars ++
        [separator]) ++ e.subject.toList) := by
    simp [lead, List.intercalate_cons_cons]
  have hsubject : e.subject.toList ≠ [] := by simpa using hs
  have htail : ∀ c ∈ ['\n'], isBlank c = true := by simp
  rw [LogEntry.text, String.toList_ofList]
  refine trim_append_of_blank ?_ ?_ htail
  · rw [hcore]
    exact he.framed.firmEnds_hash.append he.hash_ne he.subject_ends hsubject _
  · simp [hcore, he.hash_ne]

/-! ## Reading the answer -/

theorem splitOn_fields (he : e.WellFormed) :
    splitOn separator ([separator].intercalate (e.lead ++ [e.subject.toList])) =
      e.lead ++ [e.subject.toList] := by
  refine splitOn_intercalate (List.cons_ne_nil _ _) fun field hfield => ?_
  rcases List.mem_append.mp hfield with hlead | hsubject
  · exact he.framed.separator_notMem_lead field hlead
  · rw [List.mem_singleton.mp hsubject]
    exact he.subject

theorem readCommit_text_of_no_subject (he : e.WellFormed) (hs : e.subject = "") (now : Moment) :
    readCommit now e.text = .error (.fewFields (String.ofList ([separator].intercalate e.lead))) := by
  have hfields : (splitOn separator ([separator].intercalate e.lead)).map String.ofList =
      [e.hash, e.author, e.email, String.ofList e.date.chars] := by
    rw [he.framed.splitOn_lead]
    simp [lead]
  simp only [readCommit, he.framed.trim_text_of_blank (by simp [hs]), List.isEmpty_eq_false_iff.mpr he.framed.lead_ne_nil,
    Bool.false_eq_true, if_false, hfields]

theorem readCommit_text (he : e.WellFormed) (hs : e.subject ≠ "") (now : Moment) :
    ∃ commit, readCommit now e.text = .ok (some commit) ∧ e.Shows commit := by
  have hne : [separator].intercalate (e.lead ++ [e.subject.toList]) ≠ [] := by
    simp [lead, List.intercalate_cons_cons, he.hash_ne]
  have hfields : (splitOn separator ([separator].intercalate (e.lead ++ [e.subject.toList]))).map
      String.ofList = [e.hash, e.author, e.email, String.ofList e.date.chars, e.subject] := by
    rw [he.splitOn_fields]
    simp [lead]
  obtain ⟨moment, hread, _, hinstant⟩ := Iso.read_chars he.date
  obtain ⟨stamp, hstamp, hstamps⟩ := Iso.stamp?_of_whole_second hinstant he.instant_nonneg he.instant_lt
  let commit : Commit :=
    { hash := String.ofList (e.hash.toList.take 7), author := e.author, email := e.email, date := stamp,
      message := e.subject, daysAgo := daysBetween moment.instant now.instant }
  refine ⟨commit, ?_, ⟨String.toList_ofList, rfl, rfl, rfl, hstamps⟩⟩
  simp only [readCommit, he.trim_text hs, List.isEmpty_eq_false_iff.mpr hne, Bool.false_eq_true, if_false,
    hfields, hread, hstamp, commit]

end LogEntry.WellFormed

/-! ## Querying -/

variable {host : Host}

theorem on_ask (c : Command) (answer : VersionControl → Except CommandFault String) :
    (ask c answer).on host = (.ok (answer host.git), { host with commands := host.commands ++ [c] }) := rfl

theorem exists_on_notKnown (file : Path) (cause : String) (host : Host) :
    ∃ next, (notKnown file cause).on host = (.ok .empty, next) := by
  obtain ⟨next, hnext⟩ := succeeds_debug "git" ("No git history for " ++ file.toString ++ ": " ++ cause) host
  exact ⟨next, by rw [notKnown, on_bind_of_ok hnext, on_pure]⟩

/-- When version control answers both commands, its second answer decides. -/
theorem on_query {file root relative : Path} {commits answer : String} (limit : Option Seconds)
    (hfile : file.relativeTo? root = some relative)
    (hcommits : host.git.commits relative.toString = .ok commits)
    (hanswer : host.git.lastCommit relative.toString = .ok answer) :
    ∃ asked, (query limit file root).on host = Action.on (match readCommit host.now answer with
      | .ok none => pure .empty
      | .ok (some commit) => pure ⟨countCommits commits, some commit⟩
      | .error .range => throw .dateRange
      | .error (.date fault) => notKnown file fault.message
      | .error (.fewFields line) => notKnown file ("Unexpected git log output: " ++ quoted line)) asked := by
  let listing := listCommand root.toString relative.toString limit
  let last := lastCommand root.toString relative.toString limit
  let once : Host := { host with commands := host.commands ++ [listing] }
  let twice : Host := { once with commands := once.commands ++ [last] }
  have hfirst : (ask listing (·.commits relative.toString)).on host = (.ok (.ok commits), once) := by
    rw [on_ask, hcommits]
  have hsecond : (ask last (·.lastCommit relative.toString)).on once = (.ok (.ok answer), twice) := by
    rw [on_ask]
    exact congrArg (fun r => ((.ok r : Except Failure _), twice)) hanswer
  refine ⟨twice, ?_⟩
  rw [query, hfile]
  dsimp only
  rw [on_bind_of_ok hfirst]
  dsimp only
  rw [on_bind_of_ok hsecond]
  dsimp only
  exact on_bind_of_ok (on_get twice) _

/-- The fields come back exactly when there is a subject. A commit without one is taken for no
history at all. -/
theorem query_logEntry {limit : Option Seconds} {file root relative : Path} {commits : String}
    (he : e.WellFormed) (hfile : file.relativeTo? root = some relative)
    (hcommits : host.git.commits relative.toString = .ok commits)
    (hlast : host.git.lastCommit relative.toString = .ok e.text) :
    ∃ history next, (query limit file root).on host = (.ok history, next) ∧
      ((∃ commit ∈ history.last, e.Shows commit) ↔ e.subject ≠ "") ∧
      (e.subject = "" → history = .empty) := by
  obtain ⟨asked, hquery⟩ := on_query limit hfile hcommits hlast
  by_cases hs : e.subject = ""
  · rw [he.readCommit_text_of_no_subject hs] at hquery
    obtain ⟨next, hnext⟩ := exists_on_notKnown file ("Unexpected git log output: " ++
      quoted (String.ofList ([separator].intercalate e.lead))) asked
    refine ⟨.empty, next, hquery.trans hnext, ⟨?_, fun h => absurd hs h⟩, fun _ => rfl⟩
    rintro ⟨commit, hmem, _⟩
    cases hmem
  · obtain ⟨commit, hread, hshows⟩ := he.readCommit_text hs host.now
    rw [hread] at hquery
    exact ⟨_, asked, hquery, ⟨fun _ => hs, fun _ => ⟨commit, rfl, hshows⟩⟩, fun h => absurd h hs⟩

/-- A host whose version control has the same two answers for all files. -/
def answering (commits answer : String) : Host where
  files := .empty
  cwd := ["w"]
  home := "/home"
  users := []
  now := ⟨0, none⟩
  git := ⟨fun _ => .ok commits, fun _ => .ok answer, .error .notFound⟩
  commands := []
  logging := .unset
  journal := []
  printed := ""
  errors := ""
  nanos := 0

/-- Half past nine in the morning, two hours ahead of universal time. -/
def morning : Iso.Written where
  year := 2024
  month := 5
  day := 7
  time := .seconds 9 30 0
  zone := .away false true (.minutes 2 0)
  hyphens := true
  colons := true

def morningEntry (subject : String) : LogEntry where
  hash := "0123456789abcdef"
  author := "Ada"
  email := "ada@example.com"
  date := morning
  subject

theorem wellFormed_morningEntry {subject : String} (hsep : separator ∉ subject.toList)
    (hends : FirmEnds subject.toList) : (morningEntry subject).WellFormed where
  hash_ne := show "0123456789abcdef".toList ≠ [] by decide
  hash_hex := List.all_eq_true.mp
    (show ("0123456789abcdef".toList.all fun c => (Json.hexValue? c).isSome) = true by decide)
  author := show separator ∉ "Ada".toList by decide
  email := show separator ∉ "ada@example.com".toList by decide
  subject := hsep
  subject_ends := hends
  date :=
    { date := show Calendar.IsDate 2024 5 7 by constructor <;> decide
      time := show (Iso.Span.seconds 9 30 0).IsTime by constructor <;> decide
      zone := show (Iso.Span.minutes 2 0).IsTime by constructor <;> decide }
  instant_nonneg := show 0 ≤ morning.instant by decide
  instant_lt := show morning.instant < Calendar.limit * 86400 by decide

theorem query_morningEntry : ∃ history next,
    (query (some (.whole 30)) ⟨.root, ["w", "src", "a.ts"]⟩ ⟨.root, ["w"]⟩).on
      (answering "abc first\n" (morningEntry "Second try").text) = (.ok history, next) ∧
    ∃ commit ∈ history.last, (morningEntry "Second try").Shows commit := by
  have he : (morningEntry "Second try").WellFormed :=
    wellFormed_morningEntry (by decide) (by decide)
  obtain ⟨history, next, hquery, hshown, _⟩ :=
    @query_logEntry _ (answering "abc first\n" (morningEntry "Second try").text) (some (.whole 30))
      ⟨.root, ["w", "src", "a.ts"]⟩ ⟨.root, ["w"]⟩ ⟨.here, ["src", "a.ts"]⟩ _ he rfl rfl rfl
  exact ⟨history, next, hquery, hshown.mpr (by decide)⟩

theorem query_last_of_no_subject : (morningEntry "").WellFormed ∧ ∃ history next,
    (query (some (.whole 30)) ⟨.root, ["w", "src", "a.ts"]⟩ ⟨.root, ["w"]⟩).on
      (answering "abc first\n" (morningEntry "").text) = (.ok history, next) ∧ history.last = none := by
  have he : (morningEntry "").WellFormed := wellFormed_morningEntry (by decide) (by decide)
  obtain ⟨asked, hquery⟩ := @on_query (answering "abc first\n" (morningEntry "").text)
    ⟨.root, ["w", "src", "a.ts"]⟩ ⟨.root, ["w"]⟩ ⟨.here, ["src", "a.ts"]⟩ _ _ (some (.whole 30)) rfl rfl rfl
  rw [he.readCommit_text_of_no_subject rfl] at hquery
  obtain ⟨next, hnext⟩ := exists_on_notKnown _ _ asked
  exact ⟨he, .empty, next, hquery.trans hnext, rfl⟩

end ClassAtlas.History
