import Skit.Lib.Grid
import Mathlib.Tactic.IntervalCases

/-!
# The Gregorian calendar

Days are numbered from the first of March of the year 0, in the proleptic calendar. Years that
begin in March make the leap day the last one of a year, so that the first day of a month is
given by arithmetic alone. `Time` is an instant of UTC, with its date as package `time` gives it.
-/
namespace Skit.Lib.Calendar

/-- The number of the first of March of a year. -/
def marchFirst (y : ℤ) : ℤ := 365 * y + y / 4 - y / 100 + y / 400

/-- The year, from March on, that holds day `n`. -/
def marchYear (n : ℤ) : ℤ :=
  let y := 400 * n / 146097
  if n < marchFirst y then y - 1 else if marchFirst (y + 1) ≤ n then y + 1 else y

/-- The quotient is off by one at most. -/
theorem marchYear_spec (n : ℤ) :
    marchFirst (marchYear n) ≤ n ∧ n < marchFirst (marchYear n + 1) := by
  unfold marchYear
  have hlow : 146097 * (400 * n / 146097) ≤ 400 * n := by omega
  have hhigh : 400 * n < 146097 * (400 * n / 146097 + 1) := by omega
  generalize 400 * n / 146097 = y at hlow hhigh ⊢
  have hbefore : marchFirst (y - 1) ≤ n := by
    unfold marchFirst
    omega
  have hafter : n < marchFirst (y + 1 + 1) := by
    unfold marchFirst
    omega
  dsimp only
  split_ifs with h h'
  · exact ⟨hbefore, by simpa using h⟩
  · exact ⟨h', hafter⟩
  · exact ⟨not_lt.mp h, not_le.mp h'⟩

/-- Months are numbered from January of the year 0; this is the number of the first day. -/
def monthStart (i : ℤ) : ℤ := marchFirst ((i - 2) / 12) + (153 * ((i - 2) % 12) + 2) / 5

/-- The month that holds day `n`. -/
def monthIndex (n : ℤ) : ℤ :=
  12 * marchYear n + (5 * (n - marchFirst (marchYear n)) + 2) / 153 + 2

theorem monthStart_eq {y k : ℤ} (hk : 0 ≤ k) (hk' : k < 12) :
    monthStart (12 * y + k + 2) = marchFirst y + (153 * k + 2) / 5 := by
  have hdiv : (12 * y + k + 2 - 2) / 12 = y := by omega
  have hmod : (12 * y + k + 2 - 2) % 12 = k := by omega
  rw [monthStart, hdiv, hmod]

/-- The last month of a year ends with it. -/
theorem monthStart_next (y : ℤ) : monthStart (12 * y + 11 + 2 + 1) = marchFirst (y + 1) := by
  have hnext : 12 * y + 11 + 2 + 1 = 12 * (y + 1) + 0 + 2 := by omega
  rw [hnext, monthStart_eq le_rfl (by decide)]
  simp

theorem monthStart_lt (i : ℤ) : monthStart i < monthStart (i + 1) := by
  obtain ⟨y, k, hk, hk', rfl⟩ : ∃ y k : ℤ, 0 ≤ k ∧ k < 12 ∧ i = 12 * y + k + 2 :=
    ⟨(i - 2) / 12, (i - 2) % 12, by omega, by omega, by omega⟩
  rw [monthStart_eq hk hk']
  by_cases hlast : k = 11
  · subst hlast
    rw [monthStart_next]
    unfold marchFirst
    omega
  · have hnext : 12 * y + k + 2 + 1 = 12 * y + (k + 1) + 2 := by omega
    rw [hnext, monthStart_eq (by omega) (by omega)]
    omega

theorem monthIndex_spec (n : ℤ) :
    monthStart (monthIndex n) ≤ n ∧ n < monthStart (monthIndex n + 1) := by
  obtain ⟨hlow, hhigh⟩ := marchYear_spec n
  rw [monthIndex]
  generalize marchYear n = y at hlow hhigh ⊢
  have hlen : marchFirst (y + 1) ≤ marchFirst y + 366 := by
    unfold marchFirst
    omega
  obtain ⟨k, hk⟩ : ∃ k, k = (5 * (n - marchFirst y) + 2) / 153 := ⟨_, rfl⟩
  rw [← hk, monthStart_eq (by omega) (by omega)]
  refine ⟨by omega, ?_⟩
  by_cases hlast : k = 11
  · rw [hlast, monthStart_next]
    exact hhigh
  · have hnext : 12 * y + k + 2 + 1 = 12 * y + (k + 1) + 2 := by omega
    rw [hnext, monthStart_eq (by omega) (by omega)]
    omega

/-- The months, as a grid over the days. -/
def months : Grid ℤ where
  start := monthStart
  index := monthIndex
  start_lt := monthStart_lt
  start_index_le n := (monthIndex_spec n).1
  lt_start_index n := (monthIndex_spec n).2

/-- The days, one by one. -/
def days : Grid ℤ where
  start n := n
  index n := n
  start_lt n := Int.lt_succ n
  start_index_le _ := le_rfl
  lt_start_index n := Int.lt_succ n

section Lengths

def isLeap (y : ℤ) : Bool := y % 4 = 0 ∧ (y % 100 ≠ 0 ∨ y % 400 = 0)

/-- The number of days of month `m` of year `y`, counted from one. -/
def daysIn (y m : ℤ) : ℤ :=
  if m = 2 then (if isLeap y then 29 else 28)
  else if m = 4 ∨ m = 6 ∨ m = 9 ∨ m = 11 then 30
  else 31

/-- A month ends after its days. -/
theorem monthStart_add_daysIn {y m : ℤ} (hm : 1 ≤ m) (hm' : m ≤ 12) :
    monthStart (12 * y + (m - 1) + 1) = monthStart (12 * y + (m - 1)) + daysIn y m := by
  unfold daysIn
  by_cases hmarch : 3 ≤ m
  · have hthis : 12 * y + (m - 1) = 12 * y + (m - 3) + 2 := by omega
    have hnext : 12 * y + (m - 1) + 1 = 12 * y + (m - 2) + 2 := by omega
    rw [hnext, hthis, monthStart_eq (by omega) (by omega), monthStart_eq (by omega) (by omega),
      add_assoc]
    congr 1
    interval_cases m <;> rfl
  -- January and February are the last two months of the year before
  · have hthis : 12 * y + (m - 1) = 12 * (y - 1) + (m + 9) + 2 := by omega
    rw [hthis, monthStart_eq (by omega) (by omega)]
    rcases (by omega : m = 1 ∨ m = 2) with rfl | rfl
    · have hnext : 12 * (y - 1) + (1 + 9) + 2 + 1 = 12 * (y - 1) + 11 + 2 := by omega
      rw [hnext, monthStart_eq (by decide) (by decide)]
      simp
      omega
    · have hyear : marchFirst y = marchFirst (y - 1) + if isLeap y then 366 else 365 := by
        unfold marchFirst isLeap
        simp only [decide_eq_true_eq]
        split_ifs <;> omega
      have hnext : 12 * (y - 1) + (2 + 9) + 2 + 1 = 12 * (y - 1) + 11 + 2 + 1 := by omega
      rw [hnext, monthStart_next, sub_add_cancel, hyear]
      split_ifs <;> omega

-- the first of January 1970, and the end of a February with a leap day
example : monthStart (12 * 1970) = 719468 ∧ daysIn 2000 2 = 29 ∧ daysIn 1900 2 = 28 := by decide

end Lengths

/-- An instant in nanoseconds; zero is the first of March of the year 0 in UTC. -/
abbrev Time := Int

def nsPerDay : Int := 86400000000000

namespace Time

def year (t : Time) : Int := monthIndex (t / nsPerDay) / 12

def month (t : Time) : Int := monthIndex (t / nsPerDay) % 12 + 1

def day (t : Time) : Int := t / nsPerDay - monthStart (monthIndex (t / nsPerDay)) + 1

/-- `time.Date` at midnight; a month or a day out of its range carries over. -/
def date (year month day : Int) : Time :=
  (monthStart (12 * year + (month - 1)) + (day - 1)) * nsPerDay

/-- `Time.AddDate`; the clock stays. -/
def addDate (t : Time) (years months days : Int) : Time :=
  date (t.year + years) (t.month + months) (t.day + days) + t % nsPerDay

theorem month_bounds (t : Time) : 1 ≤ t.month ∧ t.month ≤ 12 := by
  unfold month
  omega

theorem index_eq (t : Time) : 12 * t.year + (t.month - 1) = monthIndex (t / nsPerDay) := by
  unfold year month
  omega

theorem date_eq (t : Time) : date t.year t.month t.day = t / nsPerDay * nsPerDay := by
  rw [date, index_eq, day]
  congr 1
  omega

theorem addDate_midnight (n months days : Int) : addDate (n * nsPerDay) 0 months days =
    (monthStart (monthIndex n + months) + (n - monthStart (monthIndex n)) + days) * nsPerDay := by
  have hdiv : n * nsPerDay / nsPerDay = n := Int.mul_ediv_cancel _ (by decide)
  have hmod : n * nsPerDay % nsPerDay = 0 := Int.mul_emod_left _ _
  have hindex := index_eq (n * nsPerDay)
  have hmonth : 12 * (year (n * nsPerDay) + 0) + (month (n * nsPerDay) + months - 1) =
      monthIndex n + months := by
    rw [hdiv] at hindex
    omega
  rw [addDate, hmod, add_zero, date, hmonth, day, hdiv]
  congr 1
  omega

theorem date_div (y m d : Int) :
    date y m d / nsPerDay = monthStart (12 * y + (m - 1)) + (d - 1) :=
  Int.mul_ediv_cancel _ (by decide)

/-- A date with a month and a day in their ranges. -/
structure Valid (y m d : Int) : Prop where
  month_pos : 1 ≤ m
  month_le : m ≤ 12
  day_pos : 1 ≤ d
  day_le : d ≤ daysIn y m

theorem monthIndex_date {y m d : Int} (h : Valid y m d) :
    monthIndex (date y m d / nsPerDay) = 12 * y + (m - 1) := by
  rw [date_div]
  refine months.index_eq_iff.mpr ⟨?_, ?_⟩
  · have hd := h.day_pos
    change monthStart _ ≤ _
    omega
  · have hd := h.day_le
    change _ < monthStart (12 * y + (m - 1) + 1)
    rw [monthStart_add_daysIn h.month_pos h.month_le]
    omega

theorem ymd_date {y m d : Int} (h : Valid y m d) :
    (date y m d).year = y ∧ (date y m d).month = m ∧ (date y m d).day = d := by
  have hm := h.month_pos
  have hm' := h.month_le
  rw [year, month, day, monthIndex_date h, date_div]
  omega

theorem valid_ymd (t : Time) : Valid t.year t.month t.day := by
  obtain ⟨hm, hm'⟩ := t.month_bounds
  obtain ⟨hlow, hhigh⟩ := monthIndex_spec (t / nsPerDay)
  have hlen := monthStart_add_daysIn (y := t.year) hm hm'
  rw [index_eq] at hlen
  refine ⟨hm, hm', ?_, ?_⟩ <;> unfold day <;> omega

theorem day_le_31 (t : Time) : t.day ≤ 31 := by
  have hle := t.valid_ymd.day_le
  unfold daysIn at hle
  split_ifs at hle <;> omega

end Time

/-- The years that four digits write. -/
def InYears (t : Time) : Prop := 0 ≤ t.year ∧ t.year ≤ 9999

end Skit.Lib.Calendar
