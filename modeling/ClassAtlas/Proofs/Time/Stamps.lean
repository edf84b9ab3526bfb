import ClassAtlas.Atlas.Document
import ClassAtlas.History.Query
import ClassAtlas.Proofs.Host.Action
import ClassAtlas.Proofs.Time.Written
import Mathlib.Data.String.Basic
/-!
# Stamps

A stamp is read back as the millisecond that it was made in. Stamps are ordered as texts in the way that instants are
in time: their fields have fixed widths, and the fields that count more come first.
-/
namespace ClassAtlas

/-! ## The order of stamps -/

namespace Moment

variable {a b t year month day : ℕ}

/-- The microseconds in a millisecond. -/
def milli : ℕ := 1000

theorem day_pos : 0 < Moment.day := by simp [Moment.day, second]

theorem div_day_lt (ht : t < Calendar.limit * Moment.day) : t / Moment.day < Calendar.limit :=
  (Nat.div_lt_iff_lt_mul day_pos).mpr ht

theorem clockText_lt_clockText (ha : a < Moment.day) (hb : b < Moment.day) (hlt : a / milli < b / milli) :
    clockText a ++ ['Z'] < clockText b ++ ['Z'] := by
  simp only [Moment.day, second, milli] at ha hb hlt
  simp only [clockText, List.append_assoc, List.cons_append]
  have ha' : a / 1000 < 86400000 := by omega
  have hb' : b / 1000 < 86400000 := by omega
  generalize a / 1000 = m at *
  generalize b / 1000 = n at *
  -- Of hour, minute, second and millisecond the first one that differs is the smaller one.
  refine field_lt_field (by decide) (by omega) (by omega) ':' ?_
  by_cases hhour : m / 3600000 < n / 3600000
  · exact .inl hhour
  refine .inr ⟨by omega, field_lt_field (by decide) (by omega) (by omega) ':' ?_⟩
  by_cases hminute : m / 60000 % 60 < n / 60000 % 60
  · exact .inl hminute
  refine .inr ⟨by omega, field_lt_field (by decide) (by omega) (by omega) '.' ?_⟩
  by_cases hsecond : m / 1000 % 60 < n / 1000 % 60
  · exact .inl hsecond
  exact .inr ⟨by omega, field_lt_field (by decide) (by omega) (by omega) 'Z' (.inl (by omega))⟩

theorem clockText_congr (h : a / milli = b / milli) : clockText a = clockText b := by
  rw [milli] at h
  simp only [clockText, h]

theorem stampText_eq (h : Calendar.date (t / Moment.day) = (year, month, day)) : stampText t =
    padded 4 year ++ '-' :: (padded 2 month ++ '-' :: (padded 2 day ++ 'T' :: (clockText (t % Moment.day) ++ ['Z']))) := by
  simp [stampText, h]

/-- Stamps show milliseconds. -/
theorem stampText_congr (h : a / milli = b / milli) : stampText a = stampText b := by
  have hday : a / Moment.day = b / Moment.day := by
    simp only [Moment.day, second, milli] at h ⊢
    omega
  have hclock : clockText (a % Moment.day) = clockText (b % Moment.day) := by
    refine clockText_congr ?_
    simp only [Moment.day, second, milli] at h ⊢
    omega
  simp only [stampText, hday, hclock]

theorem stampText_lt_stampText (ha : a < Calendar.limit * Moment.day) (hb : b < Calendar.limit * Moment.day)
    (hlt : a / milli < b / milli) : stampText a < stampText b := by
  obtain ⟨year, month, day, hdate, hvalid, hnumber⟩ := Calendar.exists_date (div_day_lt ha)
  obtain ⟨year', month', day', hdate', hvalid', hnumber'⟩ := Calendar.exists_date (div_day_lt hb)
  have hyear := hvalid.year_le
  have hyear' := hvalid'.year_le
  have hmonth := hvalid.month_le
  have hmonth' := hvalid'.month_le
  have hday := Iso.day_le_of_isDate hvalid
  have hday' := Iso.day_le_of_isDate hvalid'
  -- Of two days the earlier one decides. On the same day it is the clock that does.
  have hfields : year < year' ∨ year = year' ∧ (month < month' ∨ month = month' ∧ (day < day' ∨ day = day' ∧
      clockText (a % Moment.day) ++ ['Z'] < clockText (b % Moment.day) ++ ['Z'])) := by
    by_cases hdays : a / Moment.day < b / Moment.day
    · have hlex := Calendar.lex_of_dayNumber_lt hvalid hvalid' (by rwa [hnumber, hnumber'])
      tauto
    · have hsame : a / Moment.day = b / Moment.day := by
        simp only [Moment.day, second, milli] at hdays hlt ⊢
        omega
      rw [hsame, hdate'] at hdate
      cases hdate
      refine .inr ⟨rfl, .inr ⟨rfl, .inr ⟨rfl, ?_⟩⟩⟩
      refine clockText_lt_clockText (Nat.mod_lt _ day_pos) (Nat.mod_lt _ day_pos) ?_
      simp only [Moment.day, second, milli] at hsame hlt ⊢
      omega
  rw [stampText_eq hdate, stampText_eq hdate']
  refine field_lt_field (by decide) (by omega) (by omega) '-' (hfields.imp_right (And.imp_right fun hfields => ?_))
  refine field_lt_field (by decide) (by omega) (by omega) '-' (hfields.imp_right (And.imp_right fun hfields => ?_))
  exact field_lt_field (by decide) (by omega) (by omega) 'T' hfields

theorem stampText_lt_iff (ha : a < Calendar.limit * Moment.day) (hb : b < Calendar.limit * Moment.day) :
    stampText a < stampText b ↔ a / milli < b / milli := by
  refine ⟨fun hlt => ?_, stampText_lt_stampText ha hb⟩
  rcases lt_trichotomy (a / milli) (b / milli) with hless | hsame | hmore
  · exact hless
  · rw [stampText_congr hsame] at hlt
    exact absurd hlt (lt_irrefl _)
  · exact absurd hlt (lt_asymm (stampText_lt_stampText hb ha hmore))

theorem stampText_eq_iff (ha : a < Calendar.limit * Moment.day) (hb : b < Calendar.limit * Moment.day) :
    stampText a = stampText b ↔ a / milli = b / milli := by
  refine ⟨fun hsame => ?_, stampText_congr⟩
  have hnot : ¬ a / milli < b / milli := by
    rw [← stampText_lt_iff ha hb, hsame]
    exact lt_irrefl _
  have hnot' : ¬ b / milli < a / milli := by
    rw [← stampText_lt_iff hb ha, hsame]
    exact lt_irrefl _
  omega

end Moment

/-! ## Reading a stamp -/

namespace Iso
open Moment (milli padded clockText stampText)

variable {hour minute second ms micros t year month day : ℕ}

theorem fraction?_padded (hms : ms < 1000) : fraction? (padded 3 ms) = some (ms * 1000, false) := by
  have hlen : (padded 3 ms).length = 3 := Moment.length_padded (by decide) hms
  have hdigits : digits? 3 (padded 3 ms) = some (ms, []) := by
    simpa using @digits?_padded 3 ms [] (by decide) hms
  simp [fraction?, hlen, hdigits]

theorem step_fraction (hms : ms < 1000) : step true ('.' :: padded 3 ms) = .fraction (padded 3 ms) := by
  have hne : padded 3 ms ≠ [] := by
    intro hnil
    have hlen := Moment.length_padded (by decide : 0 < 3) hms
    rw [hnil] at hlen
    cases hlen
  simp [step, hne]

/-- A time of day with a fraction of three digits is read. -/
theorem clock?_fraction (h : (Span.seconds hour minute second).IsTime) (hms : ms < 1000) :
    clock? ((Span.seconds hour minute second).chars true ++ '.' :: padded 3 ms) =
      some (⟨hour, minute, second, ms * 1000⟩, false) := by
  have hdigits : ∀ k rest, k < 100 → digits? 2 (padded 2 k ++ rest) = some (k, rest) :=
    fun k rest hk => digits?_padded (by decide) hk
  obtain ⟨hhour, hminute, hsecond⟩ := h
  simp only [Span.clock] at hhour hminute hsecond
  have hminute' : minute < 100 := by omega
  have hsecond' : second < 100 := by omega
  simp only [clock?, Span.chars, List.append_assoc, hdigits hour _ (by omega), Option.bind_eq_bind, Option.bind_some,
    head_part_append hminute', step_part_append hminute', hdigits minute _ hminute', step_part_append hsecond',
    hdigits second _ hsecond', step_fraction hms, withFraction?, fraction?_padded hms, Option.map_some]

theorem clockText_eq (micros : ℕ) : clockText micros =
    (Span.seconds (micros / milli / 3600000) (micros / milli / 60000 % 60) (micros / milli / 1000 % 60)).chars true ++
      '.' :: padded 3 (micros / milli % 1000) := by
  simp [clockText, Span.chars, Span.part, milli]

/-- The time of day that a stamp shows. -/
def shownClock (micros : ℕ) : Clock :=
  ⟨micros / milli / 3600000, micros / milli / 60000 % 60, micros / milli / 1000 % 60, micros / milli % 1000 * 1000⟩

theorem time?_clockText (h : micros < Moment.day) :
    time? (clockText micros ++ ['Z']) = some (shownClock micros, some 0) := by
  have htime : (Span.seconds (micros / milli / 3600000) (micros / milli / 60000 % 60)
      (micros / milli / 1000 % 60)).IsTime := by
    simp only [Moment.day, Moment.second] at h
    constructor <;> simp only [Span.clock, milli] <;> omega
  have hmark : ∀ c ∈ clockText micros, (!isOffsetMark c) = true := by
    intro c hc
    rw [clockText_eq] at hc
    rcases List.mem_append.mp hc with hspan | hfraction
    · rw [isOffsetMark_of_mem_span hspan]
      rfl
    · rcases List.mem_cons.mp hfraction with rfl | hdigit
      · rfl
      · rw [isOffsetMark_eq_false_of_isDigit (Moment.isDigit_of_mem_padded hdigit)]
        rfl
  have hown : (clockText micros ++ ['Z']).takeWhile (fun c => !isOffsetMark c) = clockText micros := by
    rw [List.takeWhile_append_of_pos hmark]
    simp [isOffsetMark]
  have hread := clock?_fraction htime (Nat.mod_lt (micros / milli) (by decide : 0 < 1000))
  rw [← clockText_eq] at hread
  simp [time?, hown, hread, shownClock]

/-- A stamp is read as the beginning of its millisecond, in universal time. -/
theorem read_stampText (ht : t < Calendar.limit * Moment.day) :
    read (String.ofList (stampText t)) = .ok ⟨(t / milli * milli : ℕ), some 0⟩ := by
  obtain ⟨year, month, day, hdate, hvalid, hnumber⟩ := Calendar.exists_date (Moment.div_day_lt ht)
  have htime := time?_clockText (Nat.mod_lt t Moment.day_pos)
  have hlength := @dateLength?_append _ _ _ true hvalid ('T' :: (clockText (t % Moment.day) ++ ['Z']))
  have hread := @date?_append _ _ _ true hvalid (dateChars true year month day).length
    ('T' :: (clockText (t % Moment.day) ++ ['Z']))
  have hlong : ¬ (dateChars true year month day ++ 'T' :: (clockText (t % Moment.day) ++ ['Z'])).length < 7 := by
    simp only [List.length_append, length_dateChars hvalid, if_true]
    omega
  have hparts : parts? (stampText t) = some ((year, month, day), shownClock (t % Moment.day), some 0) := by
    simp only [stampText_of_date hdate, parts?, if_neg hlong, hlength, hread, List.drop_left, Option.bind_eq_bind,
      Option.bind_some, htime]
  have hrest : t % Moment.day < 86400000000 := Nat.mod_lt _ Moment.day_pos
  have hhour : (shownClock (t % Moment.day)).hour ≤ 23 := by
    simp only [shownClock, milli]
    omega
  have hminute : (shownClock (t % Moment.day)).minute ≤ 59 := by
    simp only [shownClock]
    omega
  have hsecond : (shownClock (t % Moment.day)).second ≤ 59 := by
    simp only [shownClock]
    omega
  have hmoment : moment year month day (shownClock (t % Moment.day)) (some 0) = _ :=
    moment_eq hvalid hhour hminute hsecond Moment.day_pos
  have hvalue : t / Moment.day * Moment.day + ((shownClock (t % Moment.day)).hour * 3600 +
      (shownClock (t % Moment.day)).minute * 60 + (shownClock (t % Moment.day)).second) * Moment.second +
        (shownClock (t % Moment.day)).micro = t / milli * milli := by
    simp only [shownClock, Moment.day, Moment.second, milli]
    omega
  simp only [read, String.toList_ofList, hparts, hmoment, hnumber, hvalue]

end Iso

/-! ## Where stamps stand -/

open Action

variable {m : Moment} {stamp : String}

theorem Snapshot.on_build_of_stamp (hstamp : m.stamp? = some stamp) (project : Project) (g : Gathering) (h : Host) :
    ∃ s, (build project g m).on h = (.ok s, h) ∧ s.generated = stamp := by
  rw [build, hstamp]
  exact ⟨_, rfl, rfl⟩

/-- The date of a commit is shown by its stamp. -/
theorem History.readCommit_of_stamp {answer hash author email date message : String} {more : List String}
    (hfields : (Text.splitOn separator (Text.trim answer.toList)).map String.ofList =
      hash :: author :: email :: date :: message :: more)
    (hread : Iso.read date = .ok m) (hstamp : m.stamp? = some stamp) (now : Moment) :
    ∃ c, readCommit now answer = .ok (some c) ∧ c.date = stamp := by
  have hline : (Text.trim answer.toList).isEmpty = false := by
    rw [List.isEmpty_eq_false_iff]
    intro hnil
    rw [hnil] at hfields
    cases hfields
  simp only [readCommit, hline, Bool.false_eq_true, if_false, hfields, hread, hstamp]
  exact ⟨_, rfl, rfl⟩

namespace Moment

/-- The millisecond of universal time in which a moment falls. -/
def millisecond (m : Moment) : ℤ := m.instant / milli

theorem stamp?_eq_some_iff : m.stamp? = some stamp ↔
    ∃ t : ℕ, t < Calendar.limit * Moment.day ∧ m.instant = t ∧ stamp = String.ofList (stampText t) := by
  have hlimit : limit = (Calendar.limit * Moment.day : ℕ) := rfl
  simp only [stamp?, inRange, Bool.and_eq_true, decide_eq_true_eq, hlimit]
  constructor
  · intro hstamp
    split at hstamp
    case isTrue hrange =>
      refine ⟨m.instant.toNat, by omega, by omega, (Option.some.inj hstamp).symm⟩
    case isFalse => cases hstamp
  · rintro ⟨t, ht, hinstant, rfl⟩
    rw [if_pos ⟨by omega, by omega⟩, hinstant, Int.toNat_natCast]

/-- Every moment of years 1 to 9999 has a stamp, which ends in the mark of universal time, is read back as the beginning
of the millisecond, and stands in the snapshots and commits of that moment. Stamps come in the order of the
milliseconds, and are the same for the same one. -/
theorem stamps_keep_time :
    (∀ m : Moment, inRange m.instant = true → ∃ stamp, m.stamp? = some stamp ∧ stamp.toList.getLast? = some 'Z' ∧
      Iso.read stamp = .ok ⟨m.millisecond * milli, some 0⟩ ∧
      (∀ project g h, ∃ s, (Snapshot.build project g m).on h = (.ok s, h) ∧ s.generated = stamp) ∧
      ∀ now answer hash author email date message more,
        (Text.splitOn History.separator (Text.trim answer.toList)).map String.ofList =
          hash :: author :: email :: date :: message :: more → Iso.read date = .ok m →
            ∃ c, History.readCommit now answer = .ok (some c) ∧ c.date = stamp) ∧
    ∀ (m n : Moment) (s t : String), m.stamp? = some s → n.stamp? = some t →
      (s < t ↔ m.millisecond < n.millisecond) ∧ (s = t ↔ m.millisecond = n.millisecond) := by
  constructor
  · intro m hrange
    have hstamp : m.stamp? = some (String.ofList (stampText m.instant.toNat)) := if_pos hrange
    obtain ⟨t, ht, hinstant, hsame⟩ := stamp?_eq_some_iff.mp hstamp
    refine ⟨_, hstamp, ?_, ?_, Snapshot.on_build_of_stamp hstamp, ?_⟩
    · rw [String.toList_ofList]
      exact List.getLast?_concat
    · rw [hsame, Iso.read_stampText ht, millisecond, hinstant]
      push_cast
      rfl
    · intro now answer hash author email date message more hfields hread
      exact History.readCommit_of_stamp hfields hread hstamp now
  · intro m n s t hs ht
    obtain ⟨a, ha, hm, rfl⟩ := stamp?_eq_some_iff.mp hs
    obtain ⟨b, hb, hn, rfl⟩ := stamp?_eq_some_iff.mp ht
    rw [String.lt_iff_toList_lt, String.ofList_inj, String.toList_ofList, String.toList_ofList, stampText_lt_iff ha hb,
      stampText_eq_iff ha hb, millisecond, millisecond, hm, hn]
    norm_cast

/-- Half past eleven in the evening of a leap day, with a clock that is an hour and a half behind. -/
def leapEvening : Moment :=
  ⟨(Calendar.dayNumber 2024 2 29 * day + (23 * 3600 + 30 * 60) * second + 123456 : ℕ), some (-(5400 * second : ℕ))⟩

/-- Without an offset, as long after the beginning of March as the evening is in universal time and a millisecond more. -/
def marchNight : Moment := ⟨(Calendar.dayNumber 2024 3 1 * day + 3600 * second + 124000 : ℕ), none⟩

theorem stamps_keep_time_leapEvening :
    inRange leapEvening.instant = true ∧ leapEvening.stamp? = some "2024-03-01T01:00:00.123Z" ∧
    Iso.read "2024-03-01T01:00:00.123Z" = .ok ⟨leapEvening.millisecond * milli, some 0⟩ ∧
    marchNight.stamp? = some "2024-03-01T01:00:00.124Z" ∧
    ("2024-03-01T01:00:00.123Z" < "2024-03-01T01:00:00.124Z" ↔ leapEvening.millisecond < marchNight.millisecond) := by
  have hrange : inRange leapEvening.instant = true := by decide
  have hevening : leapEvening.stamp? = some "2024-03-01T01:00:00.123Z" := by decide
  have hnight : marchNight.stamp? = some "2024-03-01T01:00:00.124Z" := by decide
  obtain ⟨stamp, hstamp, _, hread, _⟩ := stamps_keep_time.1 leapEvening hrange
  cases hevening.symm.trans hstamp
  exact ⟨hrange, hevening, hread, hnight, (stamps_keep_time.2 _ _ _ _ hevening hnight).1⟩

end Moment
end ClassAtlas
