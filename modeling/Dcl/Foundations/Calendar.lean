import Mathlib.Algebra.Order.Ring.Int
import Mathlib.Data.Nat.Find
import Mathlib.Tactic.Common

/-! # The proleptic Gregorian calendar

Days are numbered from 1 January 1970. Months are counted from 0 and days of a month from 1.

* `dayNumber y m d`: the number of the day `d` of a month, whether or not the month has that day.
* `Date`: a day of the calendar; `Date.number` and `dateOf` are inverse to each other.
-/
namespace Dcl.Calendar
set_option autoImplicit false

/-! ## Years -/

def leap (y : ℤ) : Bool := (y % 4 == 0 && y % 100 != 0) || y % 400 == 0

theorem leap_iff (y : ℤ) : leap y = true ↔ y % 4 = 0 ∧ y % 100 ≠ 0 ∨ y % 400 = 0 := by
  simp [leap]

/-- The number of 1 January. -/
def yearStart (y : ℤ) : ℤ := 365 * (y - 1970) + (y - 1) / 4 - (y - 1) / 100 + (y - 1) / 400 - 477

theorem yearStart_succ (y : ℤ) : yearStart (y + 1) = yearStart y + if leap y then 366 else 365 := by
  have hleap := leap_iff y
  unfold yearStart
  split
  next h =>
    rw [h] at hleap
    simp only [true_iff] at hleap
    omega
  next h =>
    rw [hleap] at h
    omega

theorem yearStart_mono {y z : ℤ} (h : y ≤ z) : yearStart y ≤ yearStart z := by
  unfold yearStart
  omega

/-- The year of a day: the average year gives it up to one. -/
def yearOf (n : ℤ) : ℤ :=
  let y := 1970 + n * 400 / 146097
  if n < yearStart y then y - 1 else if yearStart (y + 1) ≤ n then y + 1 else y

theorem yearOf_spec (n : ℤ) : yearStart (yearOf n) ≤ n ∧ n < yearStart (yearOf n + 1) := by
  have hbefore : yearStart (1970 + n * 400 / 146097 - 1) ≤ n := by
    unfold yearStart
    omega
  have hafter : n < yearStart (1970 + n * 400 / 146097 + 2) := by
    unfold yearStart
    omega
  unfold yearOf
  simp only
  generalize 1970 + n * 400 / 146097 = y at *
  split
  next hlt =>
    rw [Int.sub_add_cancel]
    exact ⟨hbefore, hlt⟩
  next hge =>
    split
    next hle =>
      refine ⟨hle, ?_⟩
      rwa [Int.add_assoc]
    next hlt => omega

/-- Years do not overlap. -/
theorem year_unique {y z n : ℤ} (hy : yearStart y ≤ n ∧ n < yearStart (y + 1))
    (hz : yearStart z ≤ n ∧ n < yearStart (z + 1)) : y = z := by
  obtain hlt | heq | hgt := lt_trichotomy y z
  · have := yearStart_mono (by omega : y + 1 ≤ z)
    omega
  · exact heq
  · have := yearStart_mono (by omega : z + 1 ≤ y)
    omega

/-! ## Months -/

def daysInMonth (y : ℤ) : ℕ → ℤ
  | 1 => if leap y then 29 else 28
  | 3 | 5 | 8 | 10 => 30
  | _ => 31

theorem daysInMonth_bounds (y : ℤ) (m : ℕ) : 28 ≤ daysInMonth y m ∧ daysInMonth y m ≤ 31 := by
  unfold daysInMonth
  split
  · split <;> omega
  all_goals omega

/-- The days of a year before a month. -/
def monthStart (y : ℤ) : ℕ → ℤ
  | 0 => 0
  | m + 1 => monthStart y m + daysInMonth y m

theorem monthStart_year (y : ℤ) : monthStart y 12 = if leap y then 366 else 365 := by
  simp only [monthStart, daysInMonth]
  split <;> omega

theorem monthStart_mono (y : ℤ) {m m' : ℕ} (h : m ≤ m') : monthStart y m ≤ monthStart y m' := by
  induction m' with
  | zero =>
    rw [Nat.le_zero.mp h]
  | succ m' ih =>
    obtain hle | rfl := Nat.of_le_succ h
    · have := daysInMonth_bounds y m'
      have := ih hle
      rw [monthStart]
      omega
    · rfl

/-- Months do not overlap. -/
theorem month_unique {y r : ℤ} {m m' : ℕ} (hm : monthStart y m ≤ r ∧ r < monthStart y (m + 1))
    (hm' : monthStart y m' ≤ r ∧ r < monthStart y (m' + 1)) : m = m' := by
  obtain hlt | heq | hgt := lt_trichotomy m m'
  · have := monthStart_mono y (by omega : m + 1 ≤ m')
    omega
  · exact heq
  · have := monthStart_mono y (by omega : m' + 1 ≤ m)
    omega

/-- The month of the day `r` of a year, counted from 0. -/
def monthOf (y r : ℤ) : ℕ := Nat.findGreatest (fun m => monthStart y m ≤ r) 11

theorem monthOf_spec {y r : ℤ} (h0 : 0 ≤ r) (h : r < monthStart y 12) :
    monthOf y r < 12 ∧ monthStart y (monthOf y r) ≤ r ∧ r < monthStart y (monthOf y r + 1) := by
  have hle : monthOf y r ≤ 11 := Nat.findGreatest_le 11
  refine ⟨by omega, Nat.findGreatest_spec (P := fun m => monthStart y m ≤ r) (Nat.zero_le 11) h0, ?_⟩
  obtain hlast | hlt := Nat.eq_or_lt_of_le hle
  · rw [hlast]
    exact h
  · exact not_le.mp (Nat.findGreatest_is_greatest (P := fun m => monthStart y m ≤ r)
      (Nat.lt_succ_self (monthOf y r)) (by omega))

/-! ## Dates -/

def dayNumber (y : ℤ) (m : ℕ) (d : ℤ) : ℤ := yearStart y + monthStart y m + (d - 1)

/-- A day behind the end of a month is one of the next month. -/
theorem dayNumber_spill (y : ℤ) (m : ℕ) (d : ℤ) :
    dayNumber y m d = dayNumber y (m + 1) (d - daysInMonth y m) := by
  rw [dayNumber, dayNumber, monthStart]
  omega

@[ext] structure Date where
  year : ℤ
  month : ℕ
  day : ℤ
  month_lt : month < 12
  day_pos : 1 ≤ day
  day_le : day ≤ daysInMonth year month
  deriving DecidableEq

namespace Date

def number (d : Date) : ℤ := dayNumber d.year d.month d.day

/-- A date lies in its month, and its month in its year. -/
theorem number_spec (d : Date) : (yearStart d.year ≤ d.number ∧ d.number < yearStart (d.year + 1)) ∧
    monthStart d.year d.month ≤ d.number - yearStart d.year ∧
    d.number - yearStart d.year < monthStart d.year (d.month + 1) := by
  have hpos := d.day_pos
  have hle := d.day_le
  have h0 : 0 ≤ monthStart d.year d.month := monthStart_mono d.year (Nat.zero_le _)
  have h12 := monthStart_mono d.year (by have := d.month_lt; omega : d.month + 1 ≤ 12)
  have hyear := yearStart_succ d.year
  rw [← monthStart_year] at hyear
  rw [number, dayNumber]
  rw [monthStart] at h12 ⊢
  omega

theorem number_injective {d d' : Date} (h : d.number = d'.number) : d = d' := by
  obtain ⟨hy, hm⟩ := d.number_spec
  obtain ⟨hy', hm'⟩ := d'.number_spec
  have hyear : d.year = d'.year := year_unique (h ▸ hy) hy'
  have hmonth : d.month = d'.month := month_unique (hyear ▸ h ▸ hm) hm'
  refine Date.ext hyear hmonth ?_
  rw [number, number, dayNumber, dayNumber, hyear, hmonth] at h
  omega

end Date

def dateOf (n : ℤ) : Date where
  year := yearOf n
  month := monthOf (yearOf n) (n - yearStart (yearOf n))
  day := n - yearStart (yearOf n) - monthStart (yearOf n) (monthOf (yearOf n) (n - yearStart (yearOf n))) + 1
  month_lt := by
    have hyear := yearOf_spec n
    rw [yearStart_succ, ← monthStart_year] at hyear
    exact (monthOf_spec (by omega) (by omega)).1
  day_pos := by
    have hyear := yearOf_spec n
    rw [yearStart_succ, ← monthStart_year] at hyear
    have := (monthOf_spec (y := yearOf n) (r := n - yearStart (yearOf n)) (by omega) (by omega)).2.1
    omega
  day_le := by
    have hyear := yearOf_spec n
    rw [yearStart_succ, ← monthStart_year] at hyear
    have := (monthOf_spec (y := yearOf n) (r := n - yearStart (yearOf n)) (by omega) (by omega)).2.2
    rw [monthStart] at this
    omega

theorem number_dateOf (n : ℤ) : (dateOf n).number = n := by
  simp only [Date.number, dayNumber, dateOf]
  omega

theorem dateOf_number (d : Date) : dateOf d.number = d := Date.number_injective (number_dateOf _)

end Dcl.Calendar
