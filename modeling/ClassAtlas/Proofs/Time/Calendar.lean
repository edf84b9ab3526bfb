import ClassAtlas.Time.Calendar
import Mathlib.Algebra.Ring.Nat
import Mathlib.Order.Monotone.Basic
/-!
# Dates and day numbers

Counting the days up to a date and finding the date of a day are inverse to each other.
-/
namespace ClassAtlas.Calendar

variable {year month day n k : ℕ}

/-- The date is one of the calendar, in years 1 to 9999. -/
structure IsDate (year month day : ℕ) : Prop where
  one_le_year : 1 ≤ year
  year_le : year ≤ 9999
  one_le_month : 1 ≤ month
  month_le : month ≤ 12
  one_le_day : 1 ≤ day
  day_le : day ≤ monthLength year month

def yearLength (year : ℕ) : ℕ := if isLeap year then 366 else 365

/-- One more multiple of `k` comes in when `n + 1` is one. -/
theorem succ_div_eq (n k : ℕ) : (n + 1) / k = n / k + if (n + 1) % k = 0 then 1 else 0 := by
  rw [Nat.succ_div]
  simp only [Nat.dvd_iff_mod_eq_zero]

theorem daysBeforeYear_succ (h : 1 ≤ year) :
    daysBeforeYear (year + 1) = daysBeforeYear year + yearLength year := by
  obtain ⟨y, rfl⟩ : ∃ y, year = y + 1 := ⟨year - 1, by omega⟩
  have h100 : (y + 1) % 100 = 0 → (y + 1) % 4 = 0 := by omega
  have h400 : (y + 1) % 400 = 0 → (y + 1) % 100 = 0 := by omega
  have hle : y / 100 ≤ y / 4 := by omega
  have hle' : y / 400 ≤ y / 100 := by omega
  simp only [daysBeforeYear, yearLength, isLeap, Nat.add_sub_cancel, Bool.and_eq_true, Bool.or_eq_true,
    beq_iff_eq, bne_iff_ne, succ_div_eq y 4, succ_div_eq y 100, succ_div_eq y 400]
  generalize (y + 1) % 4 = a at *
  generalize (y + 1) % 100 = b at *
  generalize (y + 1) % 400 = c at *
  generalize y / 4 = q, y / 100 = r, y / 400 = s at *
  split <;> split <;> split <;> split <;> omega

/-- The mean length of a year, 146097 days in 400 years, is met up to two days. -/
theorem daysBeforeYear_bounds (y : ℕ) :
    146097 * y ≤ 400 * daysBeforeYear (y + 1) + 699 ∧ 400 * daysBeforeYear (y + 1) ≤ 146097 * y + 396 := by
  simp only [daysBeforeYear, Nat.add_sub_cancel]
  omega

theorem daysBeforeYear_mono : Monotone daysBeforeYear := by
  refine monotone_nat_of_le_succ fun year => ?_
  cases year with
  | zero => decide
  | succ y =>
    exact (Nat.le_add_right _ _).trans_eq (daysBeforeYear_succ (Nat.succ_pos y)).symm

/-- A day lies in its year. -/
theorem yearOf_spec (n : ℕ) :
    1 ≤ yearOf n ∧ daysBeforeYear (yearOf n) ≤ n ∧ n < daysBeforeYear (yearOf n + 1) := by
  let g := n * 400 / 146097
  have hg : 146097 * g ≤ n * 400 ∧ n * 400 < 146097 * (g + 1) := by omega
  have hfirst := daysBeforeYear_bounds g
  have hnext := daysBeforeYear_bounds (g + 1)
  have hthird := daysBeforeYear_bounds (g + 1 + 1)
  by_cases hlate : daysBeforeYear (g + 1 + 1) ≤ n
  · have hyear : yearOf n = g + 1 + 1 := if_pos hlate
    rw [hyear]
    omega
  · have hnotlate : ¬ daysBeforeYear (g + 1) > n := by omega
    have hyear : yearOf n = g + 1 := (if_neg hlate).trans (if_neg hnotlate)
    rw [hyear]
    omega

/-- A day of the year lies in a month. -/
theorem monthAndDay_spec (month : ℕ) {lengths : List ℕ} (h : n < lengths.sum) :
    ∃ i < lengths.length, ∃ day < lengths.getD i 0,
      monthAndDay month n lengths = (month + i, day + 1) ∧ (lengths.take i).sum + day = n := by
  induction lengths generalizing month n with
  | nil => simp at h
  | cons k ks ih =>
    by_cases hk : n < k
    · exact ⟨0, by simp, n, by simpa using hk, by simp [monthAndDay, hk], by simp⟩
    · have hrest : n - k < ks.sum := by
        rw [List.sum_cons] at h
        omega
      obtain ⟨i, hi, day, hday, heq, hsum⟩ := ih (month + 1) hrest
      refine ⟨i + 1, by simpa using hi, day, by simpa using hday, ?_, ?_⟩
      · rw [monthAndDay, if_neg hk, heq]
        ac_rfl
      · rw [List.take_succ_cons, List.sum_cons]
        omega

theorem sum_monthLengths (year : ℕ) : (monthLengths (isLeap year)).sum = yearLength year := by
  unfold yearLength
  cases isLeap year <;> rfl

@[simp] theorem length_monthLengths (leap : Bool) : (monthLengths leap).length = 12 := rfl

/-- Every day up to the end of year 9999 has a date, and it is the day of that date. -/
theorem exists_date (h : n < limit) : ∃ year month day,
    date n = (year, month, day) ∧ IsDate year month day ∧ dayNumber year month day = n := by
  obtain ⟨hpos, hstart, hend⟩ := yearOf_spec n
  have hyear : yearOf n < 10000 := by
    by_contra hlate
    have hlimit : limit ≤ daysBeforeYear (yearOf n) := daysBeforeYear_mono (Nat.le_of_not_lt hlate)
    omega
  rw [daysBeforeYear_succ hpos] at hend
  have hday : n - daysBeforeYear (yearOf n) < (monthLengths (isLeap (yearOf n))).sum := by
    rw [sum_monthLengths]
    omega
  obtain ⟨i, hi, day, hlt, heq, hsum⟩ := monthAndDay_spec 1 hday
  rw [length_monthLengths] at hi
  refine ⟨yearOf n, 1 + i, day + 1, by rw [date, heq], ?_, ?_⟩
  · refine ⟨hpos, by omega, by omega, by omega, by omega, ?_⟩
    rw [monthLength, Nat.add_sub_cancel_left]
    exact hlt
  · have hbefore : daysBeforeMonth (yearOf n) (1 + i) = ((monthLengths (isLeap (yearOf n))).take i).sum := by
      rw [daysBeforeMonth, Nat.add_sub_cancel_left]
      rfl
    rw [dayNumber, hbefore]
    omega

/-! ## The order of dates -/

variable {year' month' day' : ℕ}

theorem daysBeforeMonth_add_le (h : month < month') (hmonth : 1 ≤ month) (hmonth' : month' ≤ 12) (year : ℕ) :
    daysBeforeMonth year month + monthLength year month ≤ daysBeforeMonth year month' := by
  have hall : ∀ leap, ∀ i < 12, ∀ j ≤ i,
      ((monthLengths leap).take j).foldr (· + ·) 0 + (monthLengths leap).getD j 0 ≤
        ((monthLengths leap).take (i + 1)).foldr (· + ·) 0 := by decide
  have hmonths := hall (isLeap year) (month' - 2) (by omega) (month - 1) (by omega)
  rw [show month' - 2 + 1 = month' - 1 by omega] at hmonths
  exact hmonths

theorem dayNumber_lt_next (h : IsDate year month day) : dayNumber year month day < daysBeforeYear (year + 1) := by
  have hall : ∀ leap, ∀ i < 12, ((monthLengths leap).take i).foldr (· + ·) 0 + (monthLengths leap).getD i 0 ≤
      (monthLengths leap).sum := by decide
  have hmonth := h.month_le
  have hyear := hall (isLeap year) (month - 1) (by omega)
  have hday : day ≤ (monthLengths (isLeap year)).getD (month - 1) 0 := h.day_le
  have hone := h.one_le_day
  rw [daysBeforeYear_succ h.one_le_year, dayNumber, daysBeforeMonth, ← sum_monthLengths]
  omega

/-- Dates come in the order of their years, in a year in that of their months, and in a month in that of their days. -/
theorem lex_of_dayNumber_lt (h : IsDate year month day) (h' : IsDate year' month' day')
    (hlt : dayNumber year month day < dayNumber year' month' day') :
    year < year' ∨ year = year' ∧ (month < month' ∨ month = month' ∧ day < day') := by
  rcases lt_trichotomy year year' with hyear | rfl | hyear
  · exact .inl hyear
  · refine .inr ⟨rfl, ?_⟩
    rcases lt_trichotomy month month' with hmonth | rfl | hmonth
    · exact .inl hmonth
    · refine .inr ⟨rfl, ?_⟩
      rw [dayNumber, dayNumber] at hlt
      omega
    · have hmonths := daysBeforeMonth_add_le hmonth h'.one_le_month h.month_le year
      have hday := h'.day_le
      have hone := h'.one_le_day
      rw [dayNumber, dayNumber] at hlt
      omega
  · have hnext := dayNumber_lt_next h'
    have hyears : daysBeforeYear (year' + 1) ≤ daysBeforeYear year := daysBeforeYear_mono hyear
    rw [dayNumber] at hlt
    omega

end ClassAtlas.Calendar
