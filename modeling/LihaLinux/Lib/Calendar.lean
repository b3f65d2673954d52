import Mathlib.Algebra.BigOperators.Intervals
import Mathlib.Algebra.Order.BigOperators.Group.Finset
import Mathlib.Data.Prod.Lex

/-!
# The Gregorian calendar

Dates with their time of day, the number of seconds since the start of a year, and that
this number grows with the date.
-/

namespace LihaLinux.Calendar

/-- Every fourth year is a leap year, but of the full centuries only every fourth. -/
def IsLeap (y : ℕ) : Prop := y % 4 = 0 ∧ (y % 100 ≠ 0 ∨ y % 400 = 0)

instance : DecidablePred IsLeap := fun _ => inferInstanceAs (Decidable (_ ∧ _))

/-- The days of a year. -/
def yearDays (y : ℕ) : ℕ := if IsLeap y then 366 else 365

/-- The days of a month, where the months are counted from 0. -/
def monthDays (y m : ℕ) : ℕ :=
  [31, if IsLeap y then 29 else 28, 31, 30, 31, 30, 31, 31, 30, 31, 30, 31].getD m 0

/-- The months make up the year. -/
theorem sum_monthDays (y : ℕ) : ∑ m ∈ Finset.range 12, monthDays y m = yearDays y := by
  by_cases hleap : IsLeap y
  · simp [Finset.sum_range_succ, monthDays, yearDays, hleap]
  · simp [Finset.sum_range_succ, monthDays, yearDays, hleap]

/-- A date and a time of day. Months count from 0, days from 1. -/
structure DateTime where
  year : ℕ
  month : ℕ
  day : ℕ
  hour : ℕ
  minute : ℕ
  second : ℕ
  deriving DecidableEq

namespace DateTime

/-- The calendar has this date, and the day has this time. -/
structure Valid (t : DateTime) : Prop where
  month : t.month < 12
  day : 1 ≤ t.day ∧ t.day ≤ monthDays t.year t.month
  hour : t.hour < 24
  minute : t.minute < 60
  second : t.second < 60

/-- The fields from the year on, which order the dates. -/
def key (t : DateTime) : ℕ ×ₗ ℕ ×ₗ ℕ ×ₗ ℕ ×ₗ ℕ ×ₗ ℕ :=
  toLex (t.year, toLex (t.month, toLex (t.day, toLex (t.hour, toLex (t.minute, t.second)))))

/-- The days of the year before a date. -/
def yearDay (t : DateTime) : ℕ := ∑ m ∈ Finset.range t.month, monthDays t.year m + (t.day - 1)

/-- The days before a date from the start of the year `epoch` on. -/
def dayNumber (epoch : ℕ) (t : DateTime) : ℕ :=
  ∑ y ∈ Finset.Ico epoch t.year, yearDays y + t.yearDay

/-- The seconds before a time from the start of the year `epoch` on. -/
def seconds (epoch : ℕ) (t : DateTime) : ℕ :=
  ((t.dayNumber epoch * 24 + t.hour) * 60 + t.minute) * 60 + t.second

variable {t t' : DateTime} {epoch : ℕ}

/-- The days before a date end with its month. -/
theorem Valid.yearDay_lt_sum (h : t.Valid) :
    t.yearDay < ∑ m ∈ Finset.range (t.month + 1), monthDays t.year m := by
  have hday := h.day
  rw [Finset.sum_range_succ, yearDay]
  omega

/-- The days before a date end with its year. -/
theorem Valid.yearDay_lt (h : t.Valid) : t.yearDay < yearDays t.year := by
  have hmonth : t.month + 1 ≤ 12 := h.month
  calc t.yearDay
      < ∑ m ∈ Finset.range (t.month + 1), monthDays t.year m := h.yearDay_lt_sum
    _ ≤ ∑ m ∈ Finset.range 12, monthDays t.year m :=
        Finset.sum_le_sum_of_subset (Finset.range_mono hmonth)
    _ = yearDays t.year := sum_monthDays t.year

/-- In a later month there are more days before a date. -/
theorem Valid.yearDay_lt_of_month (h : t.Valid) (hyear : t.year = t'.year)
    (hmonth : t.month < t'.month) : t.yearDay < t'.yearDay := by
  calc t.yearDay
      < ∑ m ∈ Finset.range (t.month + 1), monthDays t.year m := h.yearDay_lt_sum
    _ ≤ ∑ m ∈ Finset.range t'.month, monthDays t.year m :=
        Finset.sum_le_sum_of_subset (Finset.range_mono hmonth)
    _ ≤ t'.yearDay := by
        rw [yearDay, hyear]
        exact Nat.le_add_right _ _

/-- In a later year there are more days before a date. -/
theorem Valid.dayNumber_lt_of_year (h : t.Valid) (hepoch : epoch ≤ t.year)
    (hyear : t.year < t'.year) : t.dayNumber epoch < t'.dayNumber epoch := by
  have hlt := h.yearDay_lt
  calc t.dayNumber epoch
      < ∑ y ∈ Finset.Ico epoch (t.year + 1), yearDays y := by
        rw [Finset.sum_Ico_succ_top hepoch, dayNumber]
        omega
    _ ≤ ∑ y ∈ Finset.Ico epoch t'.year, yearDays y :=
        Finset.sum_le_sum_of_subset (Finset.Ico_subset_Ico_right hyear)
    _ ≤ t'.dayNumber epoch := Nat.le_add_right _ _

/-- The number of seconds grows with the day. -/
theorem Valid.seconds_lt_of_dayNumber (h : t.Valid)
    (hday : t.dayNumber epoch < t'.dayNumber epoch) : t.seconds epoch < t'.seconds epoch := by
  have hhour := h.hour
  have hminute := h.minute
  have hsecond := h.second
  rw [seconds, seconds]
  omega

/-- The number of seconds grows with the date and the time. -/
theorem Valid.seconds_lt (h : t.Valid) (hepoch : epoch ≤ t.year) (hkey : t.key < t'.key) :
    t.seconds epoch < t'.seconds epoch := by
  simp only [key, Prod.Lex.toLex_lt_toLex] at hkey
  obtain hyear | ⟨hyear, hkey⟩ := hkey
  · exact h.seconds_lt_of_dayNumber (h.dayNumber_lt_of_year hepoch hyear)
  obtain hmonth | ⟨hmonth, hkey⟩ := hkey
  · apply h.seconds_lt_of_dayNumber
    have hlt := h.yearDay_lt_of_month hyear hmonth
    rw [dayNumber, dayNumber, hyear]
    omega
  obtain hday | ⟨hday, hkey⟩ := hkey
  · apply h.seconds_lt_of_dayNumber
    have hpos := h.day.1
    rw [dayNumber, dayNumber, yearDay, yearDay, hyear, hmonth]
    omega
  have hsame : t.dayNumber epoch = t'.dayNumber epoch := by
    rw [dayNumber, dayNumber, yearDay, yearDay, hyear, hmonth, hday]
  have hminute := h.minute
  have hsecond := h.second
  rw [seconds, seconds, hsame]
  omega

end DateTime

end LihaLinux.Calendar
