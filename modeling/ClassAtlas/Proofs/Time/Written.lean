import ClassAtlas.Proofs.Text.Split
import ClassAtlas.Proofs.Time.Calendar
import ClassAtlas.Proofs.Time.Digits
import Mathlib.Tactic.Ring
/-!
# Dates and times as they are written

A date and a time of day to the second with an offset, in the forms with and without hyphens and
colons. Each such text is read as the instant that it denotes.
-/
namespace ClassAtlas.Iso
open Moment (padded)

/-- Hours, with minutes and seconds as far as they are written. -/
inductive Span where
  | hours (h : ℕ)
  | minutes (h m : ℕ)
  | seconds (h m s : ℕ)

/-- What follows the time of day. -/
inductive Zone where
  | universal
  | away (behind colons : Bool) (span : Span)

/-- A date with a time of day, and how they are written. -/
structure Written where
  year : ℕ
  month : ℕ
  day : ℕ
  time : Span
  zone : Zone
  hyphens : Bool
  colons : Bool

namespace Span

def clock : Span → Clock
  | hours h => ⟨h, 0, 0, 0⟩
  | minutes h m => ⟨h, m, 0, 0⟩
  | seconds h m s => ⟨h, m, s, 0⟩

/-- The seconds in it. -/
def total (t : Span) : ℕ := t.clock.hour * 3600 + t.clock.minute * 60 + t.clock.second

structure IsTime (t : Span) : Prop where
  hour_le : t.clock.hour ≤ 23
  minute_le : t.clock.minute ≤ 59
  second_le : t.clock.second ≤ 59

/-- Two more digits, with a colon in front or not. -/
def part (colons : Bool) (n : ℕ) : List Char := (if colons then [':'] else []) ++ padded 2 n

def chars (colons : Bool) : Span → List Char
  | hours h => padded 2 h
  | minutes h m => padded 2 h ++ part colons m
  | seconds h m s => padded 2 h ++ (part colons m ++ part colons s)

end Span

namespace Zone

def chars : Zone → List Char
  | universal => ['Z']
  | away behind colons span => (if behind then '-' else '+') :: span.chars colons

/-- The seconds that clocks are ahead of universal time. -/
def seconds : Zone → ℤ
  | universal => 0
  | away behind _ span => if behind then -span.total else span.total

def IsZone : Zone → Prop
  | universal => True
  | away _ _ span => span.IsTime

end Zone

def dateChars (hyphens : Bool) (year month day : ℕ) : List Char :=
  let hyphen := if hyphens then ['-'] else []
  padded 4 year ++ (hyphen ++ (padded 2 month ++ (hyphen ++ padded 2 day)))

namespace Written

def chars (w : Written) : List Char :=
  dateChars w.hyphens w.year w.month w.day ++ 'T' :: (w.time.chars w.colons ++ w.zone.chars)

/-- Seconds in universal time since the beginning of year 1. -/
def instant (w : Written) : ℤ :=
  (Calendar.dayNumber w.year w.month w.day * 86400 + w.time.total : ℕ) - w.zone.seconds

structure IsValid (w : Written) : Prop where
  date : Calendar.IsDate w.year w.month w.day
  time : w.time.IsTime
  zone : w.zone.IsZone

end Written

/-! ## Times of day -/

variable {colons : Bool} {rest : List Char} {n : ℕ}

theorem Span.IsTime.total_lt {t : Span} (h : t.IsTime) : t.total < 86400 := by
  obtain ⟨hh, hm, hs⟩ := h
  unfold Span.total
  omega

theorem ne_of_isDigit {c d : Char} (hc : isDigit c = true) (hd : isDigit d = false) : c ≠ d := by
  rintro rfl
  rw [hc] at hd
  cases hd

theorem head_part_append (h : n < 100) : ((Span.part colons n ++ rest).head? == some ':') = colons := by
  obtain ⟨c, d, heq, hc, _⟩ := Moment.exists_padded_two h
  cases colons with
  | true => rfl
  | false =>
    have hne : c ≠ ':' := ne_of_isDigit hc (by decide)
    simp [Span.part, heq, hne]

/-- A further part of a time is met where it begins. -/
theorem step_part_append (h : n < 100) :
    step colons (Span.part colons n ++ rest) = .next (padded 2 n ++ rest) := by
  obtain ⟨c, d, heq, hc, _⟩ := Moment.exists_padded_two h
  cases colons with
  | true => simp [Span.part, step, heq]
  | false =>
    have hpoint : c ≠ '.' := ne_of_isDigit hc (by decide)
    have hcomma : c ≠ ',' := ne_of_isDigit hc (by decide)
    simp [Span.part, step, heq, hpoint, hcomma]

@[simp] theorem step_nil (colons : Bool) : step colons [] = .done false := rfl

theorem clock?_chars {t : Span} (h : t.IsTime) : clock? (t.chars colons) = some (t.clock, false) := by
  have hdigits : ∀ k rest, k < 100 → digits? 2 (padded 2 k ++ rest) = some (k, rest) :=
    fun k rest hk => digits?_padded (by decide) hk
  -- The last part of a time has nothing after it.
  have hlast : ∀ k < 100, digits? 2 (padded 2 k) = some (k, []) :=
    fun k hk => by simpa using hdigits k [] hk
  have hhead : ∀ k < 100, ((Span.part colons k).head? == some ':') = colons :=
    fun k hk => by simpa using @head_part_append colons [] k hk
  have hstep : ∀ k < 100, step colons (Span.part colons k) = .next (padded 2 k) :=
    fun k hk => by simpa using @step_part_append colons [] k hk
  obtain ⟨hhour, hminute, hsecond⟩ := h
  cases t with
  | hours hour =>
    simp only [Span.clock] at hhour
    simp only [clock?, Span.chars, hlast hour (by omega), Option.bind_eq_bind, Option.bind_some, step_nil,
      Span.clock]
  | minutes hour minute =>
    simp only [Span.clock] at hhour hminute
    simp only [clock?, Span.chars, hdigits hour _ (by omega), Option.bind_eq_bind, Option.bind_some,
      hhead minute (by omega), hstep minute (by omega), hlast minute (by omega), step_nil, Span.clock]
  | seconds hour minute second =>
    simp only [Span.clock] at hhour hminute hsecond
    have hminute' : minute < 100 := by omega
    simp only [clock?, Span.chars, hdigits hour _ (by omega), Option.bind_eq_bind, Option.bind_some,
      head_part_append hminute', step_part_append hminute', hdigits minute _ hminute',
      hstep second (by omega), hlast second (by omega), step_nil, Span.clock]

theorem isOffsetMark_eq_false_of_isDigit {c : Char} (h : isDigit c = true) : isOffsetMark c = false := by
  have hne : ∀ d, isDigit d = false → (c == d) = false :=
    fun d hd => beq_eq_false_iff_ne.mpr (ne_of_isDigit h hd)
  simp only [isOffsetMark, hne '+' (by decide), hne '-' (by decide), hne 'Z' (by decide), Bool.or_self]

theorem mem_part {c : Char} (h : c ∈ Span.part colons n) : c = ':' ∨ isDigit c = true := by
  rcases List.mem_append.mp h with hcolon | hdigit
  · left
    cases colons with
    | true => exact List.mem_singleton.mp hcolon
    | false => cases hcolon
  · exact Or.inr (Moment.isDigit_of_mem_padded hdigit)

theorem mem_span_chars {c : Char} {t : Span} (h : c ∈ t.chars colons) : c = ':' ∨ isDigit c = true := by
  cases t with
  | hours hour => exact Or.inr (Moment.isDigit_of_mem_padded h)
  | minutes hour minute =>
    rcases List.mem_append.mp h with h | h
    · exact Or.inr (Moment.isDigit_of_mem_padded h)
    · exact mem_part h
  | seconds hour minute second =>
    rcases List.mem_append.mp h with h | h
    · exact Or.inr (Moment.isDigit_of_mem_padded h)
    · rcases List.mem_append.mp h with h | h
      · exact mem_part h
      · exact mem_part h

theorem isOffsetMark_of_mem_span {c : Char} {t : Span} (h : c ∈ t.chars colons) : isOffsetMark c = false := by
  rcases mem_span_chars h with rfl | hdigit
  · rfl
  · exact isOffsetMark_eq_false_of_isDigit hdigit

/-- The time of day ends where the zone begins. -/
theorem takeWhile_span_zone (t : Span) (z : Zone) :
    (t.chars colons ++ z.chars).takeWhile (fun c => !isOffsetMark c) = t.chars colons := by
  rw [List.takeWhile_append_of_pos fun c hc => by simp [isOffsetMark_of_mem_span hc]]
  have hmark : z.chars.takeWhile (fun c => !isOffsetMark c) = [] := by
    cases z with
    | universal => rfl
    | away behind colons span => cases behind <;> rfl
  rw [hmark, List.append_nil]

theorem time?_chars {t : Span} {z : Zone} (ht : t.IsTime) (hz : z.IsZone) :
    time? (t.chars colons ++ z.chars) = some (t.clock, some (z.seconds * Moment.second)) := by
  simp only [time?, takeWhile_span_zone, clock?_chars ht, List.drop_left, Option.bind_eq_bind,
    Option.bind_some]
  cases z with
  | universal => rfl
  | away behind marks span =>
    have hread : clock? (span.chars marks) = some (span.clock, false) := clock?_chars hz
    have hmicro : span.clock.micro = 0 := by cases span <;> rfl
    have hvalue : (if span.total = 0 then 0 else ((span.total * Moment.second + span.clock.micro : ℕ) : ℤ)) =
        span.total * Moment.second := by
      by_cases h : span.total = 0
      · simp [h]
      · simp [h, hmicro]
    cases behind with
    | true =>
      change (clock? (span.chars marks)).bind _ = some (t.clock, some (-(span.total : ℤ) * Moment.second))
      rw [hread, Int.neg_mul, ← hvalue]
      rfl
    | false =>
      change (clock? (span.chars marks)).bind _ = some (t.clock, some ((span.total : ℤ) * Moment.second))
      rw [hread, ← hvalue]
      rfl

/-! ## Dates -/

variable {year month day : ℕ} {hyphens : Bool}

/-- The bounds that a date keeps, whatever its month. -/
theorem day_le_of_isDate (h : Calendar.IsDate year month day) : day ≤ 31 := by
  have hlength : ∀ leap, ∀ i < 12, (Calendar.monthLengths leap).getD i 0 ≤ 31 := by decide
  have hmonth := h.month_le
  exact h.day_le.trans (hlength _ (month - 1) (by omega))

theorem length_dateChars (h : Calendar.IsDate year month day) :
    (dateChars hyphens year month day).length = if hyphens then 10 else 8 := by
  have hyear := Moment.length_padded (by decide : 0 < 4) (show year < 10 ^ 4 from Nat.lt_succ_of_le h.year_le)
  have hmonth := Moment.length_padded (by decide : 0 < 2) (show month < 10 ^ 2 by have := h.month_le; omega)
  have hday := Moment.length_padded (by decide : 0 < 2)
    (show day < 10 ^ 2 by have := day_le_of_isDate h; omega)
  cases hyphens <;> simp [dateChars, hyear, hmonth, hday]

theorem dateLength?_append (h : Calendar.IsDate year month day) (rest : List Char) :
    dateLength? (dateChars hyphens year month day ++ rest) =
      some (dateChars hyphens year month day).length := by
  have hlen : (dateChars hyphens year month day ++ rest).length ≠ 7 := by
    rw [List.length_append, length_dateChars h]
    split <;> omega
  have hyear := Moment.length_padded (by decide : 0 < 4) (show year < 10 ^ 4 from Nat.lt_succ_of_le h.year_le)
  obtain ⟨a, b, hmonth, ha, _⟩ := Moment.exists_padded_two (n := month) (by have := h.month_le; omega)
  have hweek : a ≠ 'W' := ne_of_isDigit ha (by decide)
  have hhyphen : a ≠ '-' := ne_of_isDigit ha (by decide)
  -- What follows the year tells the forms of a date apart.
  have hat : ∀ i tail, (padded 4 year ++ tail)[4 + i]? = tail[i]? := by
    intro i tail
    rw [List.getElem?_append_right (by omega), hyear, Nat.add_sub_cancel_left]
  cases hyphens with
  | true =>
    have hchars : dateChars true year month day ++ rest =
        padded 4 year ++ '-' :: a :: b :: '-' :: (padded 2 day ++ rest) := by simp [dateChars, hmonth]
    have hfour : (dateChars true year month day ++ rest)[4]? = some '-' := by rw [hchars]; exact hat 0 _
    have hfive : (dateChars true year month day ++ rest)[5]? = some a := by rw [hchars]; exact hat 1 _
    simp only [dateLength?, if_neg hlen, hfour, hfive, Option.some.injEq, hweek, if_true, if_false,
      length_dateChars h]
  | false =>
    have hchars : dateChars false year month day ++ rest =
        padded 4 year ++ a :: b :: (padded 2 day ++ rest) := by simp [dateChars, hmonth]
    have hfour : (dateChars false year month day ++ rest)[4]? = some a := by rw [hchars]; exact hat 0 _
    simp only [dateLength?, if_neg hlen, hfour, Option.some.injEq, hweek, hhyphen, if_false,
      Bool.false_eq_true, length_dateChars h]

theorem date?_append (h : Calendar.IsDate year month day) (length : ℕ) (rest : List Char) :
    date? length (dateChars hyphens year month day ++ rest) = some (year, month, day) := by
  have hyear : ∀ tail, digits? 4 (padded 4 year ++ tail) = some (year, tail) :=
    fun tail => digits?_padded (by decide) (Nat.lt_succ_of_le h.year_le)
  have hmonth : ∀ tail, digits? 2 (padded 2 month ++ tail) = some (month, tail) :=
    fun tail => digits?_padded (by decide) (by have := h.month_le; omega)
  have hday : ∀ tail, digits? 2 (padded 2 day ++ tail) = some (day, tail) :=
    fun tail => digits?_padded (by decide) (by have := day_le_of_isDate h; omega)
  obtain ⟨a, b, hpair, ha, _⟩ := Moment.exists_padded_two (n := month) (by have := h.month_le; omega)
  have hweek : a ≠ 'W' := ne_of_isDigit ha (by decide)
  have hhyphen : a ≠ '-' := ne_of_isDigit ha (by decide)
  simp only [hpair, List.cons_append, List.nil_append] at hmonth
  cases hyphens with
  | true => simp [date?, dateChars, hyear, hpair, hweek, hmonth, hday]
  | false => simp [date?, dateChars, hyear, hpair, hweek, hhyphen, hmonth, hday]

/-! ## Dates with times -/

theorem parts?_chars {w : Written} (h : w.IsValid) : parts? w.chars =
    some ((w.year, w.month, w.day), w.time.clock, some (w.zone.seconds * Moment.second)) := by
  have hdate := h.date
  have hlength := @dateLength?_append _ _ _ w.hyphens hdate
    ('T' :: (w.time.chars w.colons ++ w.zone.chars))
  have hread := @date?_append _ _ _ w.hyphens hdate
    (dateChars w.hyphens w.year w.month w.day).length ('T' :: (w.time.chars w.colons ++ w.zone.chars))
  have hlong : ¬ w.chars.length < 7 := by
    rw [Written.chars, List.length_append, length_dateChars hdate]
    split <;> omega
  simp only [Written.chars] at hlong
  simp only [parts?, Written.chars, if_neg hlong, hlength, hread, List.drop_left, Option.bind_eq_bind,
    Option.bind_some, time?_chars h.time h.zone]

theorem natAbs_seconds_lt {z : Zone} (h : z.IsZone) : z.seconds.natAbs < 86400 := by
  cases z with
  | universal => decide
  | away behind colons span =>
    have htotal := Span.IsTime.total_lt h
    cases behind with
    | true => simpa [Zone.seconds] using htotal
    | false => simpa [Zone.seconds] using htotal

theorem moment_eq {clock : Clock} {offset : ℤ} (hdate : Calendar.IsDate year month day)
    (hhour : clock.hour ≤ 23) (hminute : clock.minute ≤ 59) (hsecond : clock.second ≤ 59)
    (hoffset : offset.natAbs < Moment.day) : moment year month day clock (some offset) =
      .ok ⟨(Calendar.dayNumber year month day * Moment.day +
        (clock.hour * 3600 + clock.minute * 60 + clock.second) * Moment.second + clock.micro : ℕ),
        some offset⟩ := by
  have hone := hdate.one_le_year
  have hyear := hdate.year_le
  have hone' := hdate.one_le_month
  have hmonth := hdate.month_le
  have hone'' := hdate.one_le_day
  have hday := hdate.day_le
  rw [moment, Option.getD_some, if_neg (by omega), if_neg (by omega), if_neg (by omega), if_neg (by omega),
    if_neg (by omega), if_neg (by omega), if_neg (by omega)]

/-- What is written is read, as the instant that it denotes. -/
theorem read_chars {w : Written} (h : w.IsValid) : ∃ m, read (String.ofList w.chars) = .ok m ∧
    m.offset = some (w.zone.seconds * Moment.second) ∧ m.instant = w.instant * Moment.second := by
  have hzone := natAbs_seconds_lt h.zone
  have hoffset : (w.zone.seconds * (Moment.second : ℤ)).natAbs < Moment.day := by
    rw [Int.natAbs_mul, Int.natAbs_natCast, Moment.day]
    exact Nat.mul_lt_mul_of_pos_right hzone (by decide)
  have hmoment := moment_eq h.date h.time.hour_le h.time.minute_le h.time.second_le hoffset
  have hmicro : w.time.clock.micro = 0 := by cases w.time <;> rfl
  rw [read, String.toList_ofList, parts?_chars h]
  refine ⟨_, hmoment, rfl, ?_⟩
  simp only [Moment.instant, Option.getD_some, hmicro, Written.instant, Span.total, Moment.day]
  push_cast
  ring

/-! ## Characters -/

theorem isBlank_eq_false_of_isDigit {c : Char} (h : isDigit c = true) : Text.isBlank c = false := by
  obtain ⟨hlow, hhigh⟩ := digit_bounds h
  exact Text.isBlank_eq_false_of_graphic (by omega) (by omega)

theorem isBlank_eq_false_of_mem_span {c : Char} {t : Span} (h : c ∈ t.chars colons) :
    Text.isBlank c = false := by
  rcases mem_span_chars h with rfl | hdigit
  · decide
  · exact isBlank_eq_false_of_isDigit hdigit

theorem isBlank_eq_false_of_mem_zone {c : Char} {z : Zone} (h : c ∈ z.chars) : Text.isBlank c = false := by
  cases z with
  | universal =>
    rw [List.mem_singleton.mp h]
    decide
  | away behind colons span =>
    rcases List.mem_cons.mp h with rfl | hspan
    · cases behind <;> decide
    · exact isBlank_eq_false_of_mem_span hspan

theorem isBlank_eq_false_of_mem_date {c : Char} (h : c ∈ dateChars hyphens year month day) :
    Text.isBlank c = false := by
  have hnumber : ∀ {width n}, c ∈ padded width n → Text.isBlank c = false :=
    fun hc => isBlank_eq_false_of_isDigit (Moment.isDigit_of_mem_padded hc)
  have hhyphen : c ∈ (if hyphens then ['-'] else []) → Text.isBlank c = false := by
    intro hc
    cases hyphens with
    | true =>
      rw [List.mem_singleton.mp hc]
      decide
    | false => cases hc
  simp only [dateChars, List.mem_append] at h
  rcases h with hyear | hmark | hmonth | hmark | hday
  · exact hnumber hyear
  · exact hhyphen hmark
  · exact hnumber hmonth
  · exact hhyphen hmark
  · exact hnumber hday

/-- A written time has no blank in it. -/
theorem isBlank_eq_false_of_mem_chars {c : Char} {w : Written} (h : c ∈ w.chars) :
    Text.isBlank c = false := by
  rcases List.mem_append.mp h with hdate | hrest
  · exact isBlank_eq_false_of_mem_date hdate
  · rcases List.mem_cons.mp hrest with rfl | htail
    · decide
    · rcases List.mem_append.mp htail with htime | hzone
      · exact isBlank_eq_false_of_mem_span htime
      · exact isBlank_eq_false_of_mem_zone hzone

theorem Written.chars_ne_nil (w : Written) : w.chars ≠ [] := by simp [Written.chars]

/-! ## Stamps -/

/-- A stamp of a whole second: date, time of day and no milliseconds, in universal time. -/
def stampChars (year month day hour minute second : ℕ) : List Char :=
  dateChars true year month day ++
    'T' :: ((Span.seconds hour minute second).chars true ++ ['.', '0', '0', '0', 'Z'])

/-- The text is a stamp of the calendar, and `instant` is the second that it denotes. -/
def Stamps (text : String) (instant : ℤ) : Prop :=
  ∃ year month day hour minute second, Calendar.IsDate year month day ∧
    (Span.seconds hour minute second).IsTime ∧
    text = String.ofList (stampChars year month day hour minute second) ∧
    (Calendar.dayNumber year month day * 86400 + (Span.seconds hour minute second).total : ℕ) = instant

theorem clockText_seconds (s : ℕ) : Moment.clockText (s * Moment.second) =
    (Span.seconds (s / 3600) (s / 60 % 60) (s % 60)).chars true ++ ['.', '0', '0', '0'] := by
  have hhour : s * Moment.second / 1000 / 3600000 = s / 3600 := by simp only [Moment.second]; omega
  have hminute : s * Moment.second / 1000 / 60000 % 60 = s / 60 % 60 := by simp only [Moment.second]; omega
  have hsecond : s * Moment.second / 1000 / 1000 % 60 = s % 60 := by simp only [Moment.second]; omega
  have hmilli : s * Moment.second / 1000 % 1000 = 0 := by simp only [Moment.second]; omega
  have hzeros : padded 3 0 = ['0', '0', '0'] := by decide
  simp only [Moment.clockText, hhour, hminute, hsecond, hmilli, hzeros]
  simp [Span.chars, Span.part]

theorem stampText_of_date {t : ℕ} (h : Calendar.date (t / Moment.day) = (year, month, day)) :
    Moment.stampText t = dateChars true year month day ++
      'T' :: (Moment.clockText (t % Moment.day) ++ ['Z']) := by
  rw [Moment.stampText, h]
  simp [dateChars]

/-- An instant in years 1 to 9999 has a stamp. -/
theorem stamps_stampText {n : ℕ} (hn : n < Calendar.limit * 86400) :
    Stamps (String.ofList (Moment.stampText (n * Moment.second))) n := by
  have hdays : n * Moment.second / Moment.day = n / 86400 :=
    by rw [Moment.day, Nat.mul_div_mul_right _ _ (by decide)]
  have hrest : n * Moment.second % Moment.day = n % 86400 * Moment.second :=
    by rw [Moment.day, Nat.mul_mod_mul_right]
  obtain ⟨year, month, day, hdate, hvalid, hnumber⟩ := Calendar.exists_date (n := n / 86400) (by omega)
  refine ⟨year, month, day, n % 86400 / 3600, n % 86400 / 60 % 60, n % 86400 % 60, hvalid, ?_, ?_, ?_⟩
  · constructor <;> simp only [Span.clock] <;> omega
  · rw [stampText_of_date (by rw [hdays, hdate]), hrest, clockText_seconds, List.append_assoc]
    rfl
  · simp only [hnumber, Span.total, Span.clock]
    norm_cast
    omega

theorem stamp?_of_whole_second {m : Moment} {s : ℤ} (hm : m.instant = s * Moment.second) (hpos : 0 ≤ s)
    (hlimit : s < Calendar.limit * 86400) : ∃ stamp, m.stamp? = some stamp ∧ Stamps stamp s := by
  obtain ⟨n, rfl⟩ := Int.eq_ofNat_of_zero_le hpos
  have hn : n < Calendar.limit * 86400 := by exact_mod_cast hlimit
  have hinstant : m.instant = (n * Moment.second : ℕ) := by rw [hm]; push_cast; rfl
  have hrange : Moment.inRange m.instant = true := by
    rw [hinstant, Moment.inRange, Bool.and_eq_true, decide_eq_true_iff, decide_eq_true_iff]
    refine ⟨Int.natCast_nonneg _, ?_⟩
    rw [Moment.limit, Moment.day, ← Nat.mul_assoc]
    exact_mod_cast Nat.mul_lt_mul_of_pos_right hn (by decide)
  refine ⟨_, if_pos hrange, ?_⟩
  rw [hinstant, Int.toNat_natCast]
  exact stamps_stampText hn

end ClassAtlas.Iso
