import ClassAtlas.Proofs.History.Counting
import ClassAtlas.Proofs.Number.Rounding
import ClassAtlas.Proofs.Time.Stamps
import Mathlib.Data.Rat.Floor
/-!
# The age of a commit

The date of a commit counts as the instant that it stands for, whatever offset it is written with. The seconds from one
instant of years 1 to 9999 to another are a floating point number, so the days of age are those seconds divided as
whole numbers, rounded down.
-/
namespace ClassAtlas.History
open ClassAtlas.Text ClassAtlas.Action

/-- Version control answers both commands for a file under the root, with the entry as its last commit. -/
def Tells (git : VersionControl) (file root : Path) (e : LogEntry) : Prop :=
  ∃ relative commits, file.relativeTo? root = some relative ∧ git.commits relative.toString = .ok commits ∧
    git.lastCommit relative.toString = .ok e.text

variable {moment now : Moment} {s t : ℤ} {answer stamp : String}

/-! ## Days -/

/-- The days between whole seconds are rounded down, also where the later second comes first. -/
theorem daysBetween_seconds (h : (t - s).natAbs < 2 ^ 53) :
    daysBetween (s * Moment.second) (t * Moment.second) = ⌊((t - s : ℤ) : ℚ) / 86400⌋ := by
  have hmicros : t * (Moment.second : ℤ) - s * Moment.second = (t - s) * Moment.second := by ring
  have hpos : 0 < Moment.second := by decide
  have hnegative : decide ((t - s) * (Moment.second : ℤ) < 0) = decide (t - s < 0) := by
    rw [decide_eq_decide, Moment.second]
    omega
  have hsigned : Binary64.signed (decide (t - s < 0)) (t - s).natAbs = t - s := by
    rw [Binary64.signed]
    split
    case isTrue hnegative =>
      have := of_decide_eq_true hnegative
      omega
    case isFalse hnegative =>
      have := of_decide_eq_false (Bool.eq_false_of_not_eq_true hnegative)
      omega
  have hfloor : (t - s).fdiv 86400 = ⌊((t - s : ℤ) : ℚ) / 86400⌋ := by
    rw [Int.fdiv_eq_ediv_of_nonneg _ (by decide)]
    exact (Rat.floor_intCast_div_natCast (t - s) 86400).symm
  rw [daysBetween, hmicros, Int.natAbs_mul, Int.natAbs_natCast, hnegative, Binary64.floorDiv_ofRatio_mul h hpos, hsigned]
  exact hfloor

/-! ## Commits -/

/-- The commit shows a second of universal time, and the whole days from there to another one. -/
structure Dates (now t : ℤ) (c : Commit) : Prop where
  date : some c.date = (⟨t * Moment.second, some 0⟩ : Moment).stamp?
  daysAgo : c.daysAgo = ⌊((now - t : ℤ) : ℚ) / 86400⌋

namespace Dates

variable {seen : ℤ} {c c' : Commit}

theorem exists_stampText (hc : Dates seen t c) : ∃ n : ℕ, n < Calendar.limit * Moment.day ∧
    t * Moment.second = n ∧ c.date = String.ofList (Moment.stampText n) := by
  obtain ⟨n, hn, hinstant, hdate⟩ := Moment.stamp?_eq_some_iff.mp hc.date.symm
  exact ⟨n, hn, by simpa [Moment.instant] using hinstant, hdate⟩

/-- Dates are the same where the seconds are. -/
theorem date_eq_iff (hc : Dates seen s c) (hc' : Dates seen t c') : c.date = c'.date ↔ s = t := by
  obtain ⟨m, hm, hs, hdate⟩ := hc.exists_stampText
  obtain ⟨n, hn, ht, hdate'⟩ := hc'.exists_stampText
  rw [hdate, hdate', String.ofList_inj, Moment.stampText_eq_iff hm hn]
  simp only [Moment.second, Moment.milli] at hs ht ⊢
  omega

/-- What is later is not older. -/
theorem daysAgo_le (hc : Dates seen s c) (hc' : Dates seen t c') (h : s ≤ t) : c'.daysAgo ≤ c.daysAgo := by
  rw [hc.daysAgo, hc'.daysAgo]
  refine Int.floor_mono (div_le_div_of_nonneg_right ?_ (by norm_num))
  exact_mod_cast sub_le_sub_left h seen

end Dates

/-- A commit that can be read shows its second. -/
theorem readCommit_dates (hanswer : Decodes answer moment) (hmoment : moment.instant = t * Moment.second)
    (hnow : now.instant = s * Moment.second) (ht : 0 ≤ t ∧ t < Calendar.limit * 86400)
    (hs : 0 ≤ s ∧ s < Calendar.limit * 86400) : ∃ c, readCommit now answer = .ok (some c) ∧ Dates s t c := by
  have hne := trim_ne_nil_of_decodes hanswer
  obtain ⟨hash, author, email, date, message, rest, hfields, hdate⟩ := hanswer
  obtain ⟨stamp, hstamp, _⟩ := Iso.stamp?_of_whole_second hmoment ht.1 ht.2
  have hsame : moment.stamp? = (⟨t * Moment.second, some 0⟩ : Moment).stamp? := by
    have hinstant : moment.instant = (⟨t * Moment.second, some 0⟩ : Moment).instant := by
      simpa [Moment.instant] using hmoment
    rw [Moment.stamp?, Moment.stamp?, hinstant]
  have hlimit : Calendar.limit * 86400 < 2 ^ 53 := by decide
  have hdays : daysBetween moment.instant now.instant = ⌊((s - t : ℤ) : ℚ) / 86400⌋ := by
    rw [hmoment, hnow, daysBetween_seconds (by omega)]
  simp only [readCommit, List.isEmpty_eq_false_iff.mpr hne, Bool.false_eq_true, if_false, hfields, hdate, hstamp]
  exact ⟨_, rfl, by rw [← hsame, hstamp], hdays⟩

/-! ## Queries -/

variable {host host' : Host} {limit : Option Seconds} {file root : Path} {e : LogEntry}

/-- A query shows the second of a commit with a subject, and has no commit to show without one. -/
theorem query_dates (htells : Tells host.git file root e) (he : e.Framed) (hnow : host.now.instant = s * Moment.second)
    (hs : 0 ≤ s ∧ s < Calendar.limit * 86400) : ∃ history next, (query limit file root).on host = (.ok history, next) ∧
      (history.last.isSome ↔ e.HasSubject) ∧ ∀ c ∈ history.last, Dates s e.date.instant c := by
  obtain ⟨relative, commits, hfile, hcommits, hlast⟩ := htells
  by_cases hsubject : e.HasSubject
  · obtain ⟨moment, hanswer, hmoment⟩ := he.decodes_instant hsubject
    obtain ⟨c, hread, hdates⟩ := readCommit_dates hanswer hmoment hnow ⟨he.instant_nonneg, he.instant_lt⟩ hs
    obtain ⟨asked, hquery⟩ := on_query limit hfile hcommits hlast
    rw [hread] at hquery
    refine ⟨⟨countCommits commits, some c⟩, asked, hquery, ⟨fun _ => hsubject, fun _ => rfl⟩, ?_⟩
    rintro c' ⟨⟩
    exact hdates
  · obtain ⟨next, hquery⟩ : ∃ next, (query limit file root).on host = (.ok .empty, next) :=
      on_query_unread hfile hcommits hlast (he.not_decodes hsubject)
    refine ⟨.empty, next, hquery, ⟨fun hsome => absurd hsome (by decide), fun h => absurd h hsubject⟩, ?_⟩
    rintro c ⟨⟩

/-- The date of a commit depends on its instant alone, and the age on that and the clock: it is the whole days from the
one to the other, rounded down, and does not grow when the commit is later. -/
theorem query_dates_by_instant (limit limit' : Option Seconds) {host host' : Host} {file root file' root' : Path}
    {e e' : LogEntry} {now : ℤ} (htells : Tells host.git file root e) (htells' : Tells host'.git file' root' e')
    (he : e.Framed) (he' : e'.Framed) (hnow : host.now.instant = now * Moment.second)
    (hnow' : host'.now.instant = now * Moment.second) (hrange : 0 ≤ now ∧ now < Calendar.limit * 86400) :
    ∃ history next history' next', (query limit file root).on host = (.ok history, next) ∧
      (query limit' file' root').on host' = (.ok history', next') ∧ (history.last.isSome ↔ e.HasSubject) ∧
      ∀ c ∈ history.last, Iso.Stamps c.date e.date.instant ∧
        c.daysAgo = ⌊((now - e.date.instant : ℤ) : ℚ) / 86400⌋ ∧
        ∀ c' ∈ history'.last, (c.date = c'.date ↔ e.date.instant = e'.date.instant) ∧
          (e.date.instant ≤ e'.date.instant → c'.daysAgo ≤ c.daysAgo) := by
  obtain ⟨history, next, hquery, hlast, hdates⟩ := @query_dates now host limit file root e htells he hnow hrange
  obtain ⟨history', next', hquery', _, hdates'⟩ := @query_dates now host' limit' file' root' e' htells' he' hnow' hrange
  refine ⟨history, next, history', next', hquery, hquery', hlast, fun c hc => ⟨?_, (hdates c hc).daysAgo, ?_⟩⟩
  · obtain ⟨stamp, hstamp, hstamps⟩ := Iso.stamp?_of_whole_second
      (m := ⟨e.date.instant * Moment.second, some 0⟩) (by simp [Moment.instant]) he.instant_nonneg he.instant_lt
    cases (hdates c hc).date.trans hstamp
    exact hstamps
  · intro c' hc'
    exact ⟨(hdates c hc).date_eq_iff (hdates' c' hc'), (hdates c hc).daysAgo_le (hdates' c' hc')⟩

/-- A quarter to midnight on a leap day, an hour and a half behind universal time. -/
def leapNight : Iso.Written where
  year := 2024
  month := 2
  day := 29
  time := .minutes 23 45
  zone := .away true true (.minutes 1 30)
  hyphens := true
  colons := true

/-- The same instant in universal time. -/
def firstOfMarch : Iso.Written where
  year := 2024
  month := 3
  day := 1
  time := .seconds 1 15 0
  zone := .universal
  hyphens := false
  colons := false

def marchEntry (date : Iso.Written) : LogEntry := { morningEntry "Second try" with date }

theorem framed_marchEntry {date : Iso.Written} (hdate : date.IsValid)
    (hinstant : date.instant = firstOfMarch.instant) : (marchEntry date).Framed :=
  { (@wellFormed_morningEntry "Second try" (by decide) (by decide)).framed with
    date := hdate
    instant_nonneg := by
      show 0 ≤ date.instant
      rw [hinstant]
      decide
    instant_lt := by
      show date.instant < Calendar.limit * 86400
      rw [hinstant]
      decide }

/-- A second before the commit. -/
def seenBefore (date : Iso.Written) : Host :=
  { answering "abc first\n" (marchEntry date).text with now := ⟨(firstOfMarch.instant - 1) * Moment.second, some 0⟩ }

theorem query_dates_marchEntry : leapNight.instant = firstOfMarch.instant ∧ (marchEntry leapNight).Framed ∧
    (marchEntry firstOfMarch).Framed ∧ ∃ history next history' next',
      (query none ⟨.root, ["w", "a.ts"]⟩ ⟨.root, ["w"]⟩).on (seenBefore leapNight) = (.ok history, next) ∧
      (query none ⟨.root, ["w", "a.ts"]⟩ ⟨.root, ["w"]⟩).on (seenBefore firstOfMarch) = (.ok history', next') ∧
      ∃ c ∈ history.last, c.daysAgo = -1 ∧ ∀ c' ∈ history'.last, c.date = c'.date := by
  have hsame : leapNight.instant = firstOfMarch.instant := by decide
  have he : (marchEntry leapNight).Framed := framed_marchEntry ⟨by constructor <;> decide, by constructor <;> decide,
    show (Iso.Span.minutes 1 30).IsTime by constructor <;> decide⟩ hsame
  have he' : (marchEntry firstOfMarch).Framed :=
    framed_marchEntry ⟨by constructor <;> decide, by constructor <;> decide, trivial⟩ rfl
  have hrange : 0 ≤ firstOfMarch.instant - 1 ∧ firstOfMarch.instant - 1 < Calendar.limit * 86400 := by decide
  have hnow : ∀ date, (seenBefore date).now.instant = (firstOfMarch.instant - 1) * Moment.second := fun _ => Int.sub_zero _
  have htells : ∀ date, Tells (seenBefore date).git ⟨.root, ["w", "a.ts"]⟩ ⟨.root, ["w"]⟩ (marchEntry date) :=
    fun date => ⟨⟨.here, ["a.ts"]⟩, _, rfl, rfl, rfl⟩
  obtain ⟨history, next, history', next', hquery, hquery', hlast, hdates⟩ := query_dates_by_instant none none
    (htells leapNight) (htells firstOfMarch) he he' (hnow leapNight) (hnow firstOfMarch) hrange
  obtain ⟨c, hc⟩ := Option.isSome_iff_exists.mp (hlast.mpr (by decide))
  obtain ⟨_, hdays, hmore⟩ := hdates c hc
  refine ⟨hsame, he, he', history, next, history', next', hquery, hquery', c, hc, ?_, ?_⟩
  · rw [hdays, show firstOfMarch.instant - 1 - (marchEntry leapNight).date.instant = -1 by decide]
    norm_num
  · exact fun c' hc' => (hmore c' hc').1.mpr hsame

end ClassAtlas.History
