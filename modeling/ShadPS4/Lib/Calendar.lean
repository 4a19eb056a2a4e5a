import Mathlib.Algebra.BigOperators.Intervals
import Mathlib.Algebra.Order.BigOperators.Group.Finset
import Mathlib.Tactic.IntervalCases

/-!
# The proleptic Gregorian calendar

A date has the number of days from the first of January of the year 1. It is the sum of the lengths of the
years and of the months before, and each date has one more than the date before it.
-/

namespace ShadPS4.Calendar

open Finset

def IsLeap (year : ℕ) : Prop := year % 4 = 0 ∧ (year % 100 ≠ 0 ∨ year % 400 = 0)

instance (year : ℕ) : Decidable (IsLeap year) := inferInstanceAs (Decidable (_ ∧ _))

def daysInMonth (year month : ℕ) : ℕ :=
  if month = 2 then if IsLeap year then 29 else 28
  else if month = 4 ∨ month = 6 ∨ month = 9 ∨ month = 11 then 30
  else 31

def daysBeforeMonth (year month : ℕ) : ℕ := ∑ m ∈ Ico 1 month, daysInMonth year m

def daysInYear (year : ℕ) : ℕ := daysBeforeMonth year 13

def daysBeforeYear (year : ℕ) : ℕ := ∑ y ∈ Ico 1 year, daysInYear y

def daysBefore (year month day : ℕ) : ℕ :=
  daysBeforeYear year + daysBeforeMonth year month + (day - 1)

variable {year month : ℕ}

theorem daysInMonth_ge (year month : ℕ) : 28 ≤ daysInMonth year month := by
  unfold daysInMonth
  split_ifs <;> omega

theorem daysBeforeMonth_succ (year : ℕ) (hmonth : 1 ≤ month) :
    daysBeforeMonth year (month + 1) = daysBeforeMonth year month + daysInMonth year month :=
  sum_Ico_succ_top hmonth _

theorem daysBeforeYear_succ (hyear : 1 ≤ year) : daysBeforeYear (year + 1) = daysBeforeYear year + daysInYear year :=
  sum_Ico_succ_top hyear _

theorem daysBeforeYear_mono : Monotone daysBeforeYear := fun _ _ h =>
  sum_le_sum_of_subset (Ico_subset_Ico_right h)

theorem daysBeforeMonth_eq (year : ℕ) (hmonth : 1 ≤ month) (hmonth' : month ≤ 13) :
    daysBeforeMonth year month = if month ≤ 2 then 31 * (month - 1)
      else 59 + (if IsLeap year then 1 else 0) + (153 * (month - 3) + 2) / 5 := by
  induction month, hmonth using Nat.le_induction with
  | base => rfl
  | succ m hm ih =>
    rw [daysBeforeMonth_succ year hm, ih (Nat.le_of_succ_le hmonth')]
    have hle : m ≤ 12 := Nat.le_of_succ_le_succ hmonth'
    unfold daysInMonth
    by_cases hleap : IsLeap year
    · simp only [if_pos hleap]
      interval_cases m <;> rfl
    · simp only [if_neg hleap]
      interval_cases m <;> rfl

theorem daysInYear_eq (year : ℕ) : daysInYear year = if IsLeap year then 366 else 365 := by
  unfold daysInYear
  rw [daysBeforeMonth_eq year (by decide) (by decide), if_neg (by decide)]
  split_ifs <;> rfl

theorem daysBeforeYear_eq (n : ℕ) : daysBeforeYear (n + 1) + n / 100 = 365 * n + n / 4 + n / 400 := by
  induction n with
  | zero => rfl
  | succ n ih =>
    rw [daysBeforeYear_succ (Nat.le_add_left 1 n), daysInYear_eq]
    rcases Decidable.em (IsLeap (n + 1)) with hleap | hleap
    · rw [if_pos hleap]
      unfold IsLeap at hleap
      omega
    · rw [if_neg hleap]
      unfold IsLeap at hleap
      omega

/-! ## Centuries

The years of a century have 1461 days in four, and the centuries have 146097 days in four.
-/

theorem centuries (y : ℕ) : 146097 * (y / 100) / 4 + 1461 * (y % 100) / 4 + y / 100 = 365 * y + y / 4 + y / 400 := by
  have hcentury : y / 400 = y / 100 / 4 := (Nat.div_div_eq_div_mul y 100 4).symm
  have hleft : 146097 * (y / 100) / 4 = 36524 * (y / 100) + y / 100 / 4 := by omega
  omega

/-- The century is told from a number of days: `n` of them are in it. -/
theorem century_eq {c n : ℕ} (hpos : 1 ≤ n) (hn : n ≤ 36524 ∨ (n = 36525 ∧ c % 4 = 3)) :
    146097 * c ≤ 4 * (146097 * c / 4 + n) - 1 ∧ (4 * (146097 * c / 4 + n) - 1) / 146097 = c ∧
      (4 * (146097 * c / 4 + n) - 1 - 146097 * c) / 4 = n - 1 := by
  have hcentury : 146097 * c = 4 * (146097 * c / 4) + c % 4 := by omega
  generalize c % 4 = b at *
  omega

/-- The year in the century is told from a number of days in it: `n` of them are in the year. -/
theorem year_eq {r n : ℕ} (hpos : 1 ≤ n) (hn : n ≤ 365 ∨ (n = 366 ∧ r % 4 = 3)) :
    1461 * r ≤ 4 * (1461 * r / 4 + n - 1) + 7 ∧ (4 * (1461 * r / 4 + n - 1) + 3) / 1461 = r ∧
      (4 * (1461 * r / 4 + n - 1) + 7 - 1461 * r) / 4 = n := by
  omega

/-! ## Dates -/

@[ext]
structure Date where
  year : ℕ
  month : ℕ
  day : ℕ
  year_pos : 1 ≤ year
  month_pos : 1 ≤ month
  month_le : month ≤ 12
  day_pos : 1 ≤ day
  day_le : day ≤ daysInMonth year month

namespace Date

def number (d : Date) : ℕ := daysBefore d.year d.month d.day

def first : Date := ⟨1, 1, 1, by decide, by decide, by decide, by decide, by decide⟩

def next (d : Date) : Date :=
  if h : d.day < daysInMonth d.year d.month then
    { d with day := d.day + 1, day_pos := Nat.le_add_left 1 d.day, day_le := h }
  else if h : d.month < 12 then
    { d with
      month := d.month + 1
      day := 1
      month_pos := Nat.le_add_left 1 d.month
      month_le := h
      day_pos := Nat.le_refl 1
      day_le := Nat.le_trans (by decide) (daysInMonth_ge _ _) }
  else ⟨d.year + 1, 1, 1, Nat.le_add_left 1 d.year, by decide, by decide, by decide,
    Nat.le_trans (by decide) (daysInMonth_ge _ _)⟩

theorem number_first : first.number = 0 := rfl

theorem number_next (d : Date) : d.next.number = d.number + 1 := by
  have hday := d.day_pos
  have hday' := d.day_le
  have hmonth := d.month_le
  unfold next
  split_ifs with h h'
  · show daysBeforeYear d.year + daysBeforeMonth d.year d.month + (d.day + 1 - 1) = number d + 1
    unfold number daysBefore
    omega
  · have hsucc := daysBeforeMonth_succ d.year d.month_pos
    show daysBeforeYear d.year + daysBeforeMonth d.year (d.month + 1) + (1 - 1) = number d + 1
    unfold number daysBefore
    omega
  · have hsucc := daysBeforeYear_succ d.year_pos
    have hlast := daysBeforeMonth_succ d.year d.month_pos
    have hdecember : d.month = 12 := by omega
    have hyear : daysInYear d.year = daysBeforeMonth d.year (d.month + 1) := by
      rw [hdecember]
      rfl
    show daysBeforeYear (d.year + 1) + 0 + (1 - 1) = number d + 1
    unfold number daysBefore
    omega

theorem exists_number (n : ℕ) : ∃ d : Date, d.number = n := by
  induction n with
  | zero => exact ⟨first, number_first⟩
  | succ n ih =>
    obtain ⟨d, hd⟩ := ih
    exact ⟨d.next, by rw [number_next, hd]⟩

variable (d : Date)

theorem daysBeforeYear_le : daysBeforeYear d.year ≤ d.number :=
  Nat.le_trans (Nat.le_add_right _ _) (Nat.le_add_right _ _)

theorem year_lt (h : d.number < daysBeforeYear year) : d.year < year := by
  apply Nat.lt_of_not_le
  intro hle
  have hbefore := daysBeforeYear_mono hle
  have hnumber := d.daysBeforeYear_le
  omega

theorem number_lt : d.number < daysBeforeYear (d.year + 1) := by
  have hday := d.day_pos
  have hday' := d.day_le
  have hmonth := daysBeforeMonth_succ d.year d.month_pos
  have hyear := daysBeforeYear_succ d.year_pos
  have hmonths : daysBeforeMonth d.year (d.month + 1) ≤ daysInYear d.year :=
    sum_le_sum_of_subset (Ico_subset_Ico_right (Nat.succ_le_succ d.month_le))
  unfold number daysBefore
  omega

/-! ## Years from March on

The leap day is the last of a year that starts in March. The days before its months are those of months with
153 days in five.
-/

def marchYear : ℕ := if d.month > 2 then d.year else d.year - 1

def marchMonth : ℕ := if d.month > 2 then d.month - 3 else d.month + 9

/-- The number of a day in its year, when years start in March. -/
def marchDay : ℕ := (153 * d.marchMonth + 2) / 5 + d.day

theorem number_eq_march : d.number + 307 =
    146097 * (d.marchYear / 100) / 4 + 1461 * (d.marchYear % 100) / 4 + d.marchDay := by
  have hmonth := d.month_pos
  have hmonth' := d.month_le
  have hday := d.day_pos
  obtain ⟨n, hn⟩ := Nat.exists_eq_add_of_le' d.year_pos
  have hyears := daysBeforeYear_eq n
  have hcenturies := centuries d.marchYear
  unfold number daysBefore marchDay
  rw [daysBeforeMonth_eq d.year hmonth (by omega), hn]
  rcases Nat.lt_or_ge 2 d.month with h | h
  · have hyear : d.marchYear = n + 1 := (if_pos h).trans hn
    have hmarch : d.marchMonth = d.month - 3 := if_pos h
    rw [hyear] at hcenturies
    rw [hyear, hmarch, if_neg (Nat.not_le.mpr h)]
    -- The year has its leap day before.
    have hnext := daysBeforeYear_eq (n + 1)
    rw [daysBeforeYear_succ (Nat.le_add_left 1 n), daysInYear_eq] at hnext
    split_ifs at hnext ⊢ <;> omega
  · have hyear : d.marchYear = n := by
      unfold marchYear
      rw [if_neg (Nat.not_lt.mpr h), hn]
      rfl
    have hmarch : d.marchMonth = d.month + 9 := if_neg (Nat.not_lt.mpr h)
    rw [hyear] at hcenturies
    rw [hyear, hmarch, if_pos h]
    obtain hone | htwo : d.month = 1 ∨ d.month = 2 := by omega
    · rw [hone]
      omega
    · rw [htwo]
      omega

theorem day_le_march : d.marchMonth ≤ 11 ∧ d.day ≤ 31 ∧
    (d.marchMonth = 1 ∨ d.marchMonth = 3 ∨ d.marchMonth = 6 ∨ d.marchMonth = 8 → d.day ≤ 30) ∧
    (d.marchMonth = 11 → d.day ≤ 28 ∨ (d.day = 29 ∧ IsLeap (d.marchYear + 1))) := by
  have hyear := d.year_pos
  have hmonth' := d.month_le
  have hday := d.day_le
  have hprevious : d.year - 1 + 1 = d.year := Nat.sub_add_cancel hyear
  unfold daysInMonth at hday
  unfold marchMonth marchYear
  rcases Nat.lt_or_ge 2 d.month with h | h
  · rw [if_pos h, if_pos h]
    split_ifs at hday <;> omega
  · rw [if_neg (Nat.not_lt.mpr h), if_neg (Nat.not_lt.mpr h), hprevious]
    refine ⟨by omega, ?_, by omega, fun hfebruary => ?_⟩
    · split_ifs at hday <;> omega
    · rw [if_pos (by omega)] at hday
      rcases Decidable.em (IsLeap d.year) with hleap | hleap
      · rw [if_pos hleap] at hday
        rcases Nat.lt_or_ge 28 d.day with hlast | hlast
        · exact .inr ⟨Nat.le_antisymm hday hlast, hleap⟩
        · exact .inl hlast
      · rw [if_neg hleap] at hday
        exact .inl hday

theorem marchMonth_eq : (5 * d.marchDay - 3) / 153 = d.marchMonth ∧
    (5 * d.marchDay + 2 - 153 * d.marchMonth) / 5 = d.day := by
  obtain ⟨hmonth, hday, hshort, hlast⟩ := d.day_le_march
  have hpos := d.day_pos
  unfold marchDay
  generalize d.marchMonth = m at *
  interval_cases m <;> omega

theorem year_of_march : (d.marchMonth < 10 ∧ d.year = d.marchYear ∧ d.month = d.marchMonth + 3) ∨
    (10 ≤ d.marchMonth ∧ d.year = d.marchYear + 1 ∧ d.month = d.marchMonth - 9) := by
  have hyear := d.year_pos
  have hmonth := d.month_pos
  have hmonth' := d.month_le
  unfold marchMonth marchYear
  rcases Nat.lt_or_ge 2 d.month with h | h
  · rw [if_pos h, if_pos h]
    omega
  · rw [if_neg (Nat.not_lt.mpr h), if_neg (Nat.not_lt.mpr h)]
    omega

theorem marchDay_le : 1 ≤ d.marchDay ∧
    (d.marchDay ≤ 365 ∨ (d.marchDay = 366 ∧ IsLeap (d.marchYear + 1))) := by
  obtain ⟨hmonth, hday, hshort, hlast⟩ := d.day_le_march
  have hpos := d.day_pos
  unfold marchDay
  refine ⟨by omega, ?_⟩
  rcases Nat.lt_or_ge d.marchMonth 11 with h | h
  · exact .inl (by omega)
  · have heq : d.marchMonth = 11 := Nat.le_antisymm hmonth h
    rw [heq]
    rcases hlast heq with hle | ⟨hday, hleap⟩
    · exact .inl (by omega)
    · exact .inr ⟨by omega, hleap⟩

end Date

end ShadPS4.Calendar
