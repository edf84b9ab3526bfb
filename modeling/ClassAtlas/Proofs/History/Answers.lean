import ClassAtlas.Proofs.History.LastCommit
/-!
# Answers that stop a query

A query of history puts up with every fault of version control and with every answer it cannot read.
What it does not put up with is a date that can be read and that falls outside years 1 to 9999 in
universal time.
-/
namespace ClassAtlas.History
open ClassAtlas.Text ClassAtlas.Action

/-- The answer has the fields of a commit, with a date that stands for the moment. -/
def Decodes (answer : String) (moment : Moment) : Prop :=
  ∃ hash author email date message rest,
    (splitOn separator (trim answer.toList)).map String.ofList =
      hash :: author :: email :: date :: message :: rest ∧ Iso.read date = .ok moment

/-- Both commands are answered for a file under the root, the second one with a commit of the moment. -/
def Answered (git : VersionControl) (file root : Path) (moment : Moment) : Prop :=
  ∃ relative commits answer, file.relativeTo? root = some relative ∧
    git.commits relative.toString = .ok commits ∧ git.lastCommit relative.toString = .ok answer ∧
    Decodes answer moment

/-- Version control answers with text, or with a fault that a query puts up with. The last commit is asked for
only where the list of commits is known. -/
def Tolerable (git : VersionControl) : Prop :=
  ∀ name fault, git.commits name = .error fault ∨
    (∃ commits, git.commits name = .ok commits) ∧ git.lastCommit name = .error fault → fault.isTolerated = true

variable {answer : String} {moment now : Moment}

/-! ## Reading an answer -/

theorem Decodes.unique {other : Moment} (hanswer : Decodes answer moment) (hother : Decodes answer other) :
    moment = other := by
  obtain ⟨_, _, _, date, _, _, hfields, hdate⟩ := hanswer
  obtain ⟨_, _, _, date', _, _, hfields', hdate'⟩ := hother
  rw [hfields] at hfields'
  cases hfields'
  rw [hdate] at hdate'
  exact Except.ok.inj hdate'

theorem Answered.unique {git : VersionControl} {file root : Path} {other : Moment}
    (hanswered : Answered git file root moment) (hother : Answered git file root other) : moment = other := by
  obtain ⟨relative, commits, answer, hfile, _, hlast, hanswer⟩ := hanswered
  obtain ⟨relative', commits', answer', hfile', _, hlast', hanswer'⟩ := hother
  obtain rfl : relative = relative' := Option.some.inj (hfile.symm.trans hfile')
  obtain rfl : answer = answer' := Except.ok.inj (hlast.symm.trans hlast')
  exact hanswer.unique hanswer'

theorem trim_ne_nil_of_decodes (hanswer : Decodes answer moment) : trim answer.toList ≠ [] := by
  obtain ⟨hash, author, email, date, message, rest, hfields, _⟩ := hanswer
  intro hempty
  rw [hempty] at hfields
  cases hfields

/-- A commit is read as the moment allows, which has to have a stamp. -/
theorem readCommit_of_decodes (hanswer : Decodes answer moment) (now : Moment) :
    (Moment.inRange moment.instant = true → ∃ commit, readCommit now answer = .ok (some commit)) ∧
      (Moment.inRange moment.instant = false → readCommit now answer = .error .range) := by
  have hne := trim_ne_nil_of_decodes hanswer
  obtain ⟨hash, author, email, date, message, rest, hfields, hdate⟩ := hanswer
  constructor
  · intro hrange
    simp only [readCommit, List.isEmpty_eq_false_iff.mpr hne, Bool.false_eq_true, if_false, hfields, hdate,
      Moment.stamp?, hrange, if_true]
    exact ⟨_, rfl⟩
  · intro hrange
    simp only [readCommit, List.isEmpty_eq_false_iff.mpr hne, Bool.false_eq_true, if_false, hfields, hdate,
      Moment.stamp?, hrange]

/-- Any other answer counts as none, or is a fault of its form or of its date. -/
theorem readCommit_of_not_decodes (hanswer : ∀ moment, ¬ Decodes answer moment) (now : Moment) :
    readCommit now answer = .ok none ∨ (∃ line, readCommit now answer = .error (.fewFields line)) ∨
      ∃ fault, readCommit now answer = .error (.date fault) := by
  unfold readCommit
  dsimp only
  split
  case isTrue => exact .inl rfl
  case isFalse =>
    split
    case h_2 => exact .inr (.inl ⟨_, rfl⟩)
    case h_1 hash author email date message rest hfields =>
      cases hdate : Iso.read date with
      | error fault => exact .inr (.inr ⟨fault, rfl⟩)
      | ok moment => exact absurd ⟨hash, author, email, date, message, rest, hfields, hdate⟩ (hanswer moment)

/-! ## Querying -/

variable {limit : Option Seconds} {file root relative : Path} {host : Host}

theorem exists_on_refuse (c : Command) {fault : CommandFault} (hfault : fault.isTolerated = true) (host : Host) :
    ∃ next, (query.refuse file c fault).on host = (.ok .empty, next) := by
  rw [query.refuse, if_pos hfault]
  exact exists_on_notKnown file _ host

/-- A file elsewhere has no history, nor has one that version control gives no answer for. -/
theorem on_query_unanswered (htolerable : Tolerable host.git)
    (hunanswered : ∀ relative commits answer, file.relativeTo? root = some relative →
      host.git.commits relative.toString = .ok commits → host.git.lastCommit relative.toString ≠ .ok answer) :
    ∃ next, (query limit file root).on host = (.ok .empty, next) := by
  cases hfile : file.relativeTo? root with
  | none =>
    rw [query, hfile]
    exact exists_on_notKnown file _ host
  | some relative =>
    let listing := listCommand root.toString relative.toString limit
    let last := lastCommand root.toString relative.toString limit
    let once : Host := { host with commands := host.commands ++ [listing] }
    let twice : Host := { once with commands := once.commands ++ [last] }
    have hfirst : (ask listing (·.commits relative.toString)).on host =
        (.ok (host.git.commits relative.toString), once) := on_ask _ _
    have hsecond : (ask last (·.lastCommit relative.toString)).on once =
        (.ok (host.git.lastCommit relative.toString), twice) := on_ask _ _
    rw [query, hfile]
    dsimp only
    rw [on_bind_of_ok hfirst]
    cases hcommits : host.git.commits relative.toString with
    | error fault => exact exists_on_refuse listing (htolerable _ fault (.inl hcommits)) once
    | ok commits =>
      dsimp only
      rw [on_bind_of_ok hsecond]
      cases hlast : host.git.lastCommit relative.toString with
      | error fault => exact exists_on_refuse last (htolerable _ fault (.inr ⟨⟨commits, hcommits⟩, hlast⟩)) twice
      | ok answer => exact absurd hlast (hunanswered relative commits answer hfile hcommits)

/-- An answer without a commit that can be read is no history. -/
theorem on_query_unread {commits : String} (hfile : file.relativeTo? root = some relative)
    (hcommits : host.git.commits relative.toString = .ok commits)
    (hlast : host.git.lastCommit relative.toString = .ok answer) (hanswer : ∀ moment, ¬ Decodes answer moment) :
    ∃ next, (query limit file root).on host = (.ok .empty, next) := by
  obtain ⟨asked, hquery⟩ := on_query limit hfile hcommits hlast
  rcases readCommit_of_not_decodes hanswer host.now with hread | ⟨line, hread⟩ | ⟨fault, hread⟩
  · rw [hread] at hquery
    exact ⟨asked, hquery⟩
  · rw [hread] at hquery
    obtain ⟨next, hnext⟩ := exists_on_notKnown file ("Unexpected git log output: " ++ quoted line) asked
    exact ⟨next, hquery.trans hnext⟩
  · rw [hread] at hquery
    obtain ⟨next, hnext⟩ := exists_on_notKnown file fault.message asked
    exact ⟨next, hquery.trans hnext⟩

/-- Without a commit that can be read there is no history. -/
theorem on_query_of_not_answered (limit : Option Seconds) (htolerable : Tolerable host.git)
    (hnone : ∀ moment, ¬ Answered host.git file root moment) :
    ∃ next, (query limit file root).on host = (.ok .empty, next) := by
  by_cases hanswers : ∃ relative commits answer, file.relativeTo? root = some relative ∧
      host.git.commits relative.toString = .ok commits ∧ host.git.lastCommit relative.toString = .ok answer
  · obtain ⟨relative, commits, answer, hfile, hcommits, hlast⟩ := hanswers
    exact on_query_unread hfile hcommits hlast fun moment hanswer =>
      hnone moment ⟨relative, commits, answer, hfile, hcommits, hlast, hanswer⟩
  · exact on_query_unanswered htolerable fun relative commits answer hfile hcommits hlast =>
      hanswers ⟨relative, commits, answer, hfile, hcommits, hlast⟩

/-- A commit that can be read is the last one of the history, if it has a stamp. -/
theorem on_query_of_answered (limit : Option Seconds) (hanswered : Answered host.git file root moment) :
    (Moment.inRange moment.instant = true →
      ∃ history next, (query limit file root).on host = (.ok history, next) ∧ history.last.isSome) ∧
    (Moment.inRange moment.instant = false → ∃ next, (query limit file root).on host = (.error .dateRange, next)) := by
  obtain ⟨relative, commits, answer, hfile, hcommits, hlast, hanswer⟩ := hanswered
  obtain ⟨asked, hquery⟩ := on_query limit hfile hcommits hlast
  obtain ⟨hin, hout⟩ := readCommit_of_decodes hanswer host.now
  constructor
  · intro hrange
    obtain ⟨commit, hread⟩ := hin hrange
    rw [hread] at hquery
    exact ⟨⟨countCommits commits, some commit⟩, asked, hquery, rfl⟩
  · intro hrange
    rw [hout hrange] at hquery
    exact ⟨asked, hquery⟩

theorem tolerable_answering (commits answer : String) : Tolerable (answering commits answer).git := by
  rintro name fault (hfault | ⟨_, hfault⟩)
  · cases hfault
  · cases hfault

end ClassAtlas.History
