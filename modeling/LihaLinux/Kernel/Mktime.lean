import LihaLinux.Lib.Calendar
import Mathlib.Tactic.IntervalCases

/-!
# The time of the start

`kernel_mktime` of `mktime.c` turns the date and time of the clock chip into seconds since 1970.
The arithmetic is that of the type `int`: a result that does not fit has no value.
-/

namespace LihaLinux.Kernel

open Calendar

/-- The result of an operation on 32-bit integers, if it does not overflow. -/
def int32 (i : ℤ) : Option ℤ := if -2147483648 ≤ i ∧ i < 2147483648 then some i else none

/-- `MINUTE`. -/
def minute : ℤ := 60

/-- `HOUR`. -/
def hour : ℤ := 60 * minute

/-- `DAY`. -/
def day : ℤ := 24 * hour

/-- `YEAR`. -/
def year : ℤ := 365 * day

/-- The seconds of a leap year before each month. -/
def month : List ℤ :=
  [0,
    day * 31,
    day * (31 + 29),
    day * (31 + 29 + 31),
    day * (31 + 29 + 31 + 30),
    day * (31 + 29 + 31 + 30 + 31),
    day * (31 + 29 + 31 + 30 + 31 + 30),
    day * (31 + 29 + 31 + 30 + 31 + 30 + 31),
    day * (31 + 29 + 31 + 30 + 31 + 30 + 31 + 31),
    day * (31 + 29 + 31 + 30 + 31 + 30 + 31 + 31 + 30),
    day * (31 + 29 + 31 + 30 + 31 + 30 + 31 + 31 + 30 + 31),
    day * (31 + 29 + 31 + 30 + 31 + 30 + 31 + 31 + 30 + 31 + 30)]

/-- The fields of `struct tm` that `kernel_mktime` reads. -/
structure Tm where
  tmSec : ℤ
  tmMin : ℤ
  tmHour : ℤ
  tmMday : ℤ
  tmMon : ℤ
  tmYear : ℤ

/-- The entry of `month` for an index, if the table has it. -/
def monthAt (i : ℤ) : Option ℤ := if 0 ≤ i then month[i.toNat]? else none

/-- The adjustment for a year that is no leap year. -/
def adjustMonth (tm : Tm) (year res : ℤ) : Option ℤ :=
  if 1 < tm.tmMon then do
    let y ← int32 (year + 2)
    if y.tmod 4 ≠ 0 then int32 (res - day) else some res
  else some res

/-- `kernel_mktime`. There is no result if an operation overflows. -/
def kernelMktime (tm : Tm) : Option ℤ := do
  let y ← int32 (tm.tmYear - 70)
  let years ← int32 (year * y)
  let next ← int32 (y + 1)
  let leaps ← int32 (day * next.tdiv 4)
  let res ← int32 (years + leaps)
  let months ← monthAt tm.tmMon
  let res ← int32 (res + months)
  let res ← adjustMonth tm y res
  let mday ← int32 (tm.tmMday - 1)
  let days ← int32 (day * mday)
  let res ← int32 (res + days)
  let hours ← int32 (hour * tm.tmHour)
  let res ← int32 (res + hours)
  let minutes ← int32 (minute * tm.tmMin)
  let res ← int32 (res + minutes)
  int32 (res + tm.tmSec)

/-! ### The calendar -/

namespace Tm

/-- The date and time that the fields stand for. -/
def date (tm : Tm) : DateTime where
  year := (tm.tmYear + 1900).toNat
  month := tm.tmMon.toNat
  day := tm.tmMday.toNat
  hour := tm.tmHour.toNat
  minute := tm.tmMin.toNat
  second := tm.tmSec.toNat

/-- The fields are a date and time of the years from 1970 to 2037. -/
structure Valid (tm : Tm) : Prop where
  year : 70 ≤ tm.tmYear ∧ tm.tmYear ≤ 137
  month : 0 ≤ tm.tmMon
  hour : 0 ≤ tm.tmHour
  minute : 0 ≤ tm.tmMin
  second : 0 ≤ tm.tmSec
  date : tm.date.Valid

end Tm

/-- A result that fits. -/
theorem int32_eq {i : ℤ} (hlow : -2147483648 ≤ i) (hhigh : i < 2147483648) :
    int32 i = some i := if_pos ⟨hlow, hhigh⟩

/-- An operation whose result fits, with what is done with it. -/
theorem bind_int32 {β : Type} {i : ℤ} {f : ℤ → Option β} (hlow : -2147483648 ≤ i)
    (hhigh : i < 2147483648) : (int32 i).bind f = f i := by
  rw [int32_eq hlow hhigh, Option.bind_some]

/-- In the 21st century and the 30 years before it every fourth year is a leap year. -/
theorem isLeap_iff {k : ℕ} (h : k < 130) : IsLeap (1970 + k) ↔ (k + 2) % 4 = 0 := by
  rw [IsLeap]
  omega

/-- The days of the years since 1970. -/
theorem sum_yearDays {k : ℕ} (h : k ≤ 130) :
    ∑ y ∈ Finset.Ico 1970 (1970 + k), yearDays y = 365 * k + (k + 1) / 4 := by
  induction k with
  | zero => rfl
  | succ k ih =>
    have hleap := isLeap_iff (k := k) (by omega)
    rw [← Nat.add_assoc, Finset.sum_Ico_succ_top (by omega), ih (by omega), yearDays]
    split_ifs with hy
    · have hmod := hleap.mp hy
      omega
    · have hmod : (k + 2) % 4 ≠ 0 := fun hmod => hy (hleap.mpr hmod)
      omega

/-- The table has the days of 1972, a leap year. -/
theorem monthAt_eq {m : ℕ} (h : m < 12) :
    monthAt m = some (day * (∑ i ∈ Finset.range m, monthDays 1972 i : ℕ)) := by
  interval_cases m <;> decide

/-- A leap year has one day more than other years, from its third month on. -/
theorem sum_monthDays_leap (y : ℕ) {m : ℕ} (h : m < 12) :
    ∑ i ∈ Finset.range m, monthDays 1972 i =
      ∑ i ∈ Finset.range m, monthDays y i + if 1 < m ∧ ¬IsLeap y then 1 else 0 := by
  have hleap : IsLeap 1972 := by decide
  by_cases hy : IsLeap y
  · interval_cases m <;> simp [Finset.sum_range_succ, monthDays, hy, hleap]
  · interval_cases m <;> simp [Finset.sum_range_succ, monthDays, hy, hleap]

/-- The days of a year before a month are few. -/
theorem sum_monthDays_le (y : ℕ) {m : ℕ} (h : m < 12) :
    ∑ i ∈ Finset.range m, monthDays y i ≤ 335 := by
  have hmax : ∑ i ∈ Finset.range m, monthDays 1972 i ≤ 335 := by
    interval_cases m <;> decide
  rw [sum_monthDays_leap y h] at hmax
  exact (Nat.le_add_right _ _).trans hmax

/-- The adjustment takes the day off that the table has too much. -/
theorem adjustMonth_eq {tm : Tm} {k m : ℕ} {res : ℤ} (hk : k < 130) (hm : tm.tmMon = m)
    (hlow : 0 ≤ res) (hhigh : res < 2147483648) :
    adjustMonth tm k res =
      some (res - day * (if 1 < m ∧ ¬IsLeap (1970 + k) then 1 else 0 : ℕ)) := by
  have hday : day = 86400 := by decide
  have hleap := isLeap_iff hk
  have hmod : ((k : ℤ) + 2).tmod 4 = ((k + 2) % 4 : ℕ) := by
    rw [Int.tmod_eq_emod_of_nonneg (by omega)]
    omega
  rw [adjustMonth]
  by_cases hmonth : 1 < m
  · rw [if_pos (by omega), int32_eq (by omega) (by omega)]
    simp only [Option.bind_eq_bind, Option.bind_some, hmod, hleap, hmonth, true_and]
    by_cases hy : (k + 2) % 4 = 0
    · simp [hy]
    · rw [if_pos (by omega), int32_eq (by omega) (by omega), if_pos hy]
      simp
  · rw [if_neg (by omega)]
    simp [hmonth]

/-- No month has more than 31 days. -/
theorem monthDays_le (y : ℕ) {m : ℕ} (h : m < 12) : monthDays y m ≤ 31 := by
  rw [monthDays]
  interval_cases m <;> simp
  split_ifs <;> decide

/-- The steps of `kernel_mktime` on small numbers, where none of them overflows. -/
theorem kernelMktime_eq {tm : Tm} {k m d : ℕ} (hyear : tm.tmYear = k + 70) (hk : k < 68)
    (hmon : tm.tmMon = m) (hm : m < 12) (hmday : tm.tmMday = d + 1) (hd : d < 31)
    (hhour : 0 ≤ tm.tmHour ∧ tm.tmHour < 24) (hmin : 0 ≤ tm.tmMin ∧ tm.tmMin < 60)
    (hsec : 0 ≤ tm.tmSec ∧ tm.tmSec < 60) :
    kernelMktime tm = some (day * (365 * k + (k + 1) / 4 +
      ∑ i ∈ Finset.range m, monthDays (1970 + k) i + d : ℕ) + hour * tm.tmHour +
        minute * tm.tmMin + tm.tmSec) := by
  have hminute : minute = 60 := rfl
  have hhours : hour = 3600 := by decide
  have hday : day = 86400 := by decide
  have hyears : Kernel.year = 31536000 := by decide
  have hquot : ((k : ℤ) + 1).tdiv 4 = ((k + 1) / 4 : ℕ) := by
    rw [Int.tdiv_eq_ediv_of_nonneg (by omega)]
    omega
  have hsum := sum_monthDays_leap (1970 + k) hm
  have hmax := sum_monthDays_le 1972 hm
  have hk0 : tm.tmYear - 70 = (k : ℤ) := by omega
  have hd0 : tm.tmMday - 1 = (d : ℤ) := by omega
  have hmonth : monthAt tm.tmMon = some (day * (∑ i ∈ Finset.range m, monthDays 1972 i : ℕ)) := by
    rw [hmon]
    exact monthAt_eq hm
  generalize ∑ i ∈ Finset.range m, monthDays 1972 i = a at *
  generalize ∑ i ∈ Finset.range m, monthDays (1970 + k) i = b at *
  have hadjust : adjustMonth tm k (Kernel.year * k + day * ((k + 1) / 4 : ℕ) + day * a) = _ :=
    adjustMonth_eq (by omega) hmon (by rw [hyears, hday]; omega) (by rw [hyears, hday]; omega)
  generalize (if 1 < m ∧ ¬IsLeap (1970 + k) then 1 else 0 : ℕ) = e at *
  rw [hyears, hday] at hadjust
  simp only [kernelMktime, hk0, hd0, hmonth, hday, hyears, hhours, hminute, Option.bind_eq_bind]
  rw [bind_int32 (by omega) (by omega)]
  rw [bind_int32 (by omega) (by omega)]
  rw [bind_int32 (by omega) (by omega), hquot]
  rw [bind_int32 (by omega) (by omega)]
  rw [bind_int32 (by omega) (by omega), Option.bind_some]
  rw [bind_int32 (by omega) (by omega), hadjust, Option.bind_some]
  rw [bind_int32 (by omega) (by omega)]
  rw [bind_int32 (by omega) (by omega)]
  rw [bind_int32 (by omega) (by omega)]
  rw [bind_int32 (by omega) (by omega)]
  rw [bind_int32 (by omega) (by omega)]
  rw [bind_int32 (by omega) (by omega)]
  rw [bind_int32 (by omega) (by omega)]
  rw [int32_eq (by omega) (by omega)]
  refine congrArg some ?_
  push_cast
  omega

/-- For a date of the years from 1970 to 2037 the result is the number of seconds since the start
of 1970. -/
theorem kernelMktime_seconds {tm : Tm} (h : tm.Valid) :
    kernelMktime tm = some (tm.date.seconds 1970 : ℤ) := by
  have hvalid := h.date
  obtain ⟨hlow, hhigh⟩ := h.year
  obtain ⟨k, hk⟩ : ∃ k : ℕ, tm.tmYear = k + 70 := ⟨(tm.tmYear - 70).toNat, by omega⟩
  obtain ⟨m, hm⟩ := Int.eq_ofNat_of_zero_le h.month
  have hmonth : tm.date.month = m := by rw [Tm.date, hm, Int.toNat_natCast]
  have hyear : tm.date.year = 1970 + k := by
    change (tm.tmYear + 1900).toNat = _
    omega
  have hm12 : m < 12 := hmonth ▸ hvalid.month
  obtain ⟨hfirst, hlast⟩ := hvalid.day
  rw [hyear, hmonth] at hlast
  have hdays : monthDays (1970 + k) m ≤ 31 := monthDays_le _ hm12
  have hday : tm.date.day = tm.tmMday.toNat := rfl
  obtain ⟨d, hd⟩ : ∃ d : ℕ, tm.tmMday = d + 1 := ⟨tm.tmMday.toNat - 1, by omega⟩
  have hhour : tm.tmHour.toNat < 24 := hvalid.hour
  have hminute : tm.tmMin.toNat < 60 := hvalid.minute
  have hsecond : tm.tmSec.toNat < 60 := hvalid.second
  have hhour0 := h.hour
  have hminute0 := h.minute
  have hsecond0 := h.second
  rw [kernelMktime_eq hk (by omega) hm hm12 hd (by omega) ⟨hhour0, by omega⟩
    ⟨hminute0, by omega⟩ ⟨hsecond0, by omega⟩]
  refine congrArg some ?_
  have hh : tm.date.hour = tm.tmHour.toNat := rfl
  have hmi : tm.date.minute = tm.tmMin.toNat := rfl
  have hs : tm.date.second = tm.tmSec.toNat := rfl
  rw [DateTime.seconds, DateTime.dayNumber, DateTime.yearDay, hyear, hmonth,
    sum_yearDays (by omega), hday, hh, hmi, hs]
  have hday' : Kernel.day = 86400 := by decide
  have hhour' : Kernel.hour = 3600 := by decide
  have hminute' : Kernel.minute = 60 := rfl
  rw [hday', hhour', hminute']
  generalize ∑ i ∈ Finset.range m, monthDays (1970 + k) i = b
  omega

/-- The end of 2037 is before the numbers of 32 bits end. -/
theorem Tm.Valid.seconds_lt {tm : Tm} (h : tm.Valid) : tm.date.seconds 1970 < 2147483648 := by
  obtain ⟨hlow, hhigh⟩ := h.year
  have hvalid := h.date
  have hyear : tm.date.year < 2038 := by
    change (tm.tmYear + 1900).toNat < 2038
    omega
  have hepoch : 1970 ≤ tm.date.year := by
    change 1970 ≤ (tm.tmYear + 1900).toNat
    omega
  have hnext : tm.date.dayNumber 1970 < (⟨2038, 0, 1, 0, 0, 0⟩ : DateTime).dayNumber 1970 :=
    hvalid.dayNumber_lt_of_year hepoch hyear
  have hdays : (⟨2038, 0, 1, 0, 0, 0⟩ : DateTime).dayNumber 1970 = 24837 := by
    rw [DateTime.dayNumber, DateTime.yearDay]
    exact sum_yearDays (k := 68) (by decide)
  have hhour := hvalid.hour
  have hminute := hvalid.minute
  have hsecond := hvalid.second
  rw [DateTime.seconds]
  omega

/-- For every date and time of the years from 1970 to 2037 nothing overflows, the result is the
number of seconds since 1970 in the Gregorian calendar, and a later date has a larger result. -/
theorem kernelMktime_exact {tm : Tm} (h : tm.Valid) :
    kernelMktime tm = some (tm.date.seconds 1970 : ℤ) ∧ tm.date.seconds 1970 < 2147483648 ∧
      ∀ tm' : Tm, tm'.Valid → tm.date.key < tm'.date.key →
        ∃ res res', kernelMktime tm = some res ∧ kernelMktime tm' = some res' ∧ res < res' := by
  refine ⟨kernelMktime_seconds h, h.seconds_lt, fun tm' h' hkey => ?_⟩
  have hepoch : 1970 ≤ tm.date.year := by
    have hyear := h.year.1
    change 1970 ≤ (tm.tmYear + 1900).toNat
    omega
  have hlt := h.date.seconds_lt hepoch hkey
  exact ⟨_, _, kernelMktime_seconds h, kernelMktime_seconds h', Int.ofNat_lt.mpr hlt⟩

/-- The last second of 29 February 2000, and the one after it. -/
theorem kernelMktime_exact_leapDay :
    kernelMktime ⟨59, 59, 23, 29, 1, 100⟩ = some 951868799 ∧
      ∃ res res', kernelMktime ⟨59, 59, 23, 29, 1, 100⟩ = some res ∧
        kernelMktime ⟨0, 0, 0, 1, 2, 100⟩ = some res' ∧ res < res' := by
  have hvalid : (⟨59, 59, 23, 29, 1, 100⟩ : Tm).Valid :=
    ⟨by decide, by decide, by decide, by decide, by decide,
      ⟨by decide, by decide, by decide, by decide, by decide⟩⟩
  have hvalid' : (⟨0, 0, 0, 1, 2, 100⟩ : Tm).Valid :=
    ⟨by decide, by decide, by decide, by decide, by decide,
      ⟨by decide, by decide, by decide, by decide, by decide⟩⟩
  obtain ⟨-, -, hlater⟩ := kernelMktime_exact hvalid
  refine ⟨by decide, hlater _ hvalid' ?_⟩
  simp [DateTime.key, Tm.date, Prod.Lex.toLex_lt_toLex]

end LihaLinux.Kernel
