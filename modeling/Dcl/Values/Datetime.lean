import Dcl.Foundations.Calendar

/-! # `datetime`

`include/dcl/datetime.h` and `src/dcl/datetime.cpp`: the getters and setters of the parts of a date, which go through
`localtime` and `mktime`. Both are taken in UTC over the calendar; `mktime` takes fields outside of their ranges as
the C standard describes. The fields of `struct tm` that `mktime` does not read in UTC, the texts and the current
time are left out. -/
namespace Dcl.Values
set_option autoImplicit false

open Calendar

/-! ## `localtime` and `mktime` -/

/-- `struct tm`. -/
structure Tm where
  sec : ℤ
  min : ℤ
  hour : ℤ
  mday : ℤ
  mon : ℤ
  year : ℤ
  deriving DecidableEq

def localtime (t : ℤ) : Tm where
  sec := t % 60
  min := t % 3600 / 60
  hour := t % 86400 / 3600
  mday := (dateOf (t / 86400)).day
  mon := (dateOf (t / 86400)).month
  year := (dateOf (t / 86400)).year - 1900

/-- Months outside of a year are counted into the years; the other fields count as they are. -/
def mktime (tm : Tm) : ℤ :=
  86400 * dayNumber (tm.year + 1900 + tm.mon / 12) (tm.mon % 12).toNat tm.mday + 3600 * tm.hour + 60 * tm.min +
    tm.sec

/-- A time of a day. -/
structure Clock where
  hour : ℤ
  minute : ℤ
  second : ℤ
  hour_range : 0 ≤ hour ∧ hour < 24
  minute_range : 0 ≤ minute ∧ minute < 60
  second_range : 0 ≤ second ∧ second < 60

/-- The fields of a date and a time. -/
def Tm.of (d : Date) (c : Clock) : Tm := ⟨c.second, c.minute, c.hour, d.day, d.month, d.year - 1900⟩

/-- `localtime` gives a date and a time. -/
theorem localtime_eq (t : ℤ) : ∃ d c, localtime t = Tm.of d c :=
  ⟨dateOf (t / 86400), ⟨t % 86400 / 3600, t % 3600 / 60, t % 60, by omega, by omega, by omega⟩, rfl⟩

/-- It takes apart what they are worth in seconds. -/
theorem localtime_of {t : ℤ} {d : Date} {c : Clock}
    (h : t = 86400 * d.number + 3600 * c.hour + 60 * c.minute + c.second) : localtime t = Tm.of d c := by
  have hh := c.hour_range
  have hm := c.minute_range
  have hs := c.second_range
  have hday : t / 86400 = d.number := by omega
  rw [localtime, Tm.of, hday, dateOf_number]
  congr 1 <;> omega

theorem localtime_mktime {tm : Tm} {d : Date} {c : Clock} (hs : tm.sec = c.second) (hm : tm.min = c.minute)
    (hh : tm.hour = c.hour) (hd : dayNumber (tm.year + 1900 + tm.mon / 12) (tm.mon % 12).toNat tm.mday = d.number) :
    localtime (mktime tm) = Tm.of d c :=
  localtime_of (by rw [mktime, hs, hm, hh, hd])

/-! ## The class -/

structure Datetime where
  t : ℤ
  deriving DecidableEq

namespace Datetime

def year (x : Datetime) : ℤ := (localtime x.t).year + 1900

def month (x : Datetime) : ℤ := (localtime x.t).mon + 1

def day (x : Datetime) : ℤ := (localtime x.t).mday

def hour (x : Datetime) : ℤ := (localtime x.t).hour

def minute (x : Datetime) : ℤ := (localtime x.t).min

def second (x : Datetime) : ℤ := (localtime x.t).sec

def setYear (x : Datetime) (val : ℤ) : Datetime := ⟨mktime { localtime x.t with year := val - 1900 }⟩

def setMonth (x : Datetime) (val : ℤ) : Datetime := ⟨mktime { localtime x.t with mon := val - 1 }⟩

def setDay (x : Datetime) (val : ℤ) : Datetime := ⟨mktime { localtime x.t with mday := val }⟩

def setHour (x : Datetime) (val : ℤ) : Datetime := ⟨mktime { localtime x.t with hour := val }⟩

def setMinute (x : Datetime) (val : ℤ) : Datetime := ⟨mktime { localtime x.t with min := val }⟩

def setSecond (x : Datetime) (val : ℤ) : Datetime := ⟨mktime { localtime x.t with sec := val }⟩

/-! ## What a setter does to a date and a time -/

/-- `x` is the time `c` of the day `d`. -/
def At (x : Datetime) (d : Date) (c : Clock) : Prop := localtime x.t = Tm.of d c

section Setters
variable {x : Datetime} {d d' : Date} {c c' : Clock}

/-- The month of a date is one of its own year for `mktime`. -/
theorem dayNumber_fields (y day : ℤ) {m : ℕ} (h : m < 12) :
    dayNumber (y - 1900 + 1900 + (m : ℤ) / 12) ((m : ℤ) % 12).toNat day = dayNumber y m day := by
  have hdiv : (m : ℤ) / 12 = 0 := by omega
  have hmod : ((m : ℤ) % 12).toNat = m := by omega
  rw [hdiv, hmod, Int.add_zero, Int.sub_add_cancel]

theorem At.setYear (h : At x d c) {y : ℤ} (hd : dayNumber y d.month d.day = d'.number) :
    At (x.setYear y) d' c := by
  rw [At] at h
  rw [At, Datetime.setYear, h]
  exact localtime_mktime rfl rfl rfl ((dayNumber_fields y d.day d.month_lt).trans hd)

theorem At.setMonth (h : At x d c) {m : ℕ} (hm : m < 12) (hd : dayNumber d.year m d.day = d'.number) :
    At (x.setMonth (m + 1)) d' c := by
  rw [At] at h
  rw [At, Datetime.setMonth, h, Int.add_sub_cancel]
  exact localtime_mktime rfl rfl rfl ((dayNumber_fields d.year d.day hm).trans hd)

theorem At.setDay (h : At x d c) {day : ℤ} (hd : dayNumber d.year d.month day = d'.number) :
    At (x.setDay day) d' c := by
  rw [At] at h
  rw [At, Datetime.setDay, h]
  exact localtime_mktime rfl rfl rfl ((dayNumber_fields d.year day d.month_lt).trans hd)

theorem At.setTime (h : At x d c) (c' : Clock) :
    At (((x.setHour c'.hour).setMinute c'.minute).setSecond c'.second) d c' := by
  have hfields : ∀ tm : Tm, tm.year = d.year - 1900 → tm.mon = d.month → tm.mday = d.day →
      dayNumber (tm.year + 1900 + tm.mon / 12) (tm.mon % 12).toNat tm.mday = d.number := by
    intro tm hyear hmon hmday
    rw [hyear, hmon, hmday]
    exact dayNumber_fields d.year d.day d.month_lt
  have hhour : At (x.setHour c'.hour) d
      ⟨c'.hour, c.minute, c.second, c'.hour_range, c.minute_range, c.second_range⟩ := by
    rw [At] at h
    rw [At, Datetime.setHour, h]
    exact localtime_mktime rfl rfl rfl (hfields _ rfl rfl rfl)
  have hminute : At ((x.setHour c'.hour).setMinute c'.minute) d
      ⟨c'.hour, c'.minute, c.second, c'.hour_range, c'.minute_range, c.second_range⟩ := by
    rw [At] at hhour
    rw [At, Datetime.setMinute, hhour]
    exact localtime_mktime rfl rfl rfl (hfields _ rfl rfl rfl)
  rw [At] at hminute
  rw [At, Datetime.setSecond, hminute]
  exact localtime_mktime rfl rfl rfl (hfields _ rfl rfl rfl)

end Setters

/-! ## Setting all parts -/

/-- `x.year(y).month(mo).day(d).hour(h).minute(mi).second(s)`. -/
def assemble (x : Datetime) (d : Date) (c : Clock) : Datetime :=
  (((((x.setYear d.year).setMonth (d.month + 1)).setDay d.day).setHour c.hour).setMinute c.minute).setSecond
    c.second

/-- The getters give the date and the time. -/
def Shows (x : Datetime) (d : Date) (c : Clock) : Prop :=
  x.year = d.year ∧ x.month = d.month + 1 ∧ x.day = d.day ∧ x.hour = c.hour ∧ x.minute = c.minute ∧
    x.second = c.second

theorem At.shows_iff {x : Datetime} {d d' : Date} {c : Clock} (h : At x d' c) :
    Shows x d c ↔ d'.year = d.year ∧ d'.month = d.month ∧ d'.day = d.day := by
  rw [At] at h
  simp only [Shows, year, month, day, hour, minute, second, h, Tm.of]
  exact ⟨fun ⟨h1, h2, h3, _⟩ => ⟨by omega, by omega, h3⟩,
    fun ⟨h1, h2, h3⟩ => ⟨by omega, by omega, h3, trivial, trivial, trivial⟩⟩

/-- The day of the month that is left when the year is set: 29 February becomes 1 March in a year without it. -/
def dayIn (x : Datetime) (y : ℤ) : ℤ := if x.month = 2 ∧ x.day = 29 ∧ leap y = false then 1 else x.day

/-- After the year: the date is in it, with the day that is left. -/
theorem exists_setYear (x : Datetime) (y : ℤ) :
    ∃ d c, At (x.setYear y) d c ∧ d.year = y ∧ d.day = x.dayIn y := by
  obtain ⟨d, c, h⟩ := localtime_eq x.t
  have hmonth : x.month = d.month + 1 := by rw [month, h, Tm.of]
  have hday : x.day = d.day := by rw [day, h, Tm.of]
  rw [dayIn, hmonth, hday]
  by_cases hle : d.day ≤ daysInMonth y d.month
  · refine ⟨⟨y, d.month, d.day, d.month_lt, d.day_pos, hle⟩, c, At.setYear h rfl, rfl, ?_⟩
    rw [if_neg]
    rintro ⟨hm, hd, hleap⟩
    have hfeb : d.month = 1 := by omega
    rw [hfeb, daysInMonth, hleap, hd] at hle
    exact absurd hle (by decide)
  · -- only February changes its length
    have hle' := d.day_le
    have hfeb : d.month = 1 := by
      by_contra hne
      unfold daysInMonth at hle hle'
      split at hle
      next hm => exact hne hm
      all_goals simp_all
    rw [hfeb, daysInMonth] at hle hle'
    have hleap : leap y = false := by
      rw [← Bool.not_eq_true]
      intro hl
      rw [if_pos hl] at hle
      split at hle' <;> omega
    rw [hleap, if_neg Bool.false_ne_true] at hle
    have h29 : d.day = 29 := by split at hle' <;> omega
    refine ⟨⟨y, 2, 1, by decide, by decide, by simp [daysInMonth]⟩, c, At.setYear h ?_, rfl, ?_⟩
    · rw [hfeb, h29, dayNumber_spill, daysInMonth, hleap]
      rfl
    · exact (if_pos ⟨by omega, h29, hleap⟩).symm

/-- A month that has not the day is followed by one of 31 days. -/
theorem next_month {y : ℤ} {m : ℕ} (hm : m < 12) (h : daysInMonth y m < 31) :
    m + 1 < 12 ∧ daysInMonth y (m + 1) = 31 := by
  unfold daysInMonth at h
  split at h
  · exact ⟨by decide, rfl⟩
  · exact ⟨by decide, rfl⟩
  · exact ⟨by decide, rfl⟩
  · exact ⟨by decide, rfl⟩
  · exact ⟨by decide, rfl⟩
  · exact absurd h (by decide)

/-- Setting all parts of a date and a time gives that date and time if and only if the day that is left when the year
is set exists in the month. -/
theorem setters_assemble_iff (x : Datetime) (d : Date) (c : Clock) :
    Shows (x.assemble d c) d c ↔ x.dayIn d.year ≤ daysInMonth d.year d.month := by
  obtain ⟨d1, c1, h1, hyear, hday⟩ := exists_setYear x d.year
  rw [← hday]
  by_cases hle : d1.day ≤ daysInMonth d.year d.month
  · -- the month has the day
    have h2 : At ((x.setYear d.year).setMonth (d.month + 1)) ⟨d.year, d.month, d1.day, d.month_lt, d1.day_pos, hle⟩
        c1 := h1.setMonth d.month_lt (by rw [hyear]; rfl)
    have h3 : At (((x.setYear d.year).setMonth (d.month + 1)).setDay d.day) d c1 := h2.setDay rfl
    exact iff_of_true ((h3.setTime c).shows_iff.mpr ⟨rfl, rfl, rfl⟩) hle
  · -- it spills into the next month
    have hbounds := daysInMonth_bounds d1.year d1.month
    have hlast := d1.day_le
    obtain ⟨hlt, hnext⟩ := next_month d.month_lt (y := d.year) (by omega)
    have hdays := daysInMonth_bounds d.year d.month
    have h2 : At ((x.setYear d.year).setMonth (d.month + 1))
        ⟨d.year, d.month + 1, d1.day - daysInMonth d.year d.month, hlt, by omega, by omega⟩ c1 := by
      refine h1.setMonth d.month_lt ?_
      rw [hyear]
      exact dayNumber_spill _ _ _
    have h3 : At (((x.setYear d.year).setMonth (d.month + 1)).setDay d.day)
        ⟨d.year, d.month + 1, d.day, hlt, d.day_pos, by have := d.day_le; omega⟩ c1 := h2.setDay rfl
    refine iff_of_false (fun h => ?_) hle
    exact absurd ((h3.setTime c).shows_iff.mp h).2.1 (Nat.succ_ne_self _)

/-- From 31 January 2000 to 15 February 2001: the month becomes March. -/
theorem setters_spill :
    let x : Datetime := ⟨949276800⟩
    let d : Date := ⟨2001, 1, 15, by decide, by decide, by decide⟩
    let c : Clock := ⟨0, 0, 0, by decide, by decide, by decide⟩
    x.month = 1 ∧ x.day = 31 ∧ (x.assemble d c).month = 3 ∧ ¬ Shows (x.assemble d c) d c := by
  refine ⟨by decide +kernel, by decide +kernel, by decide +kernel, fun h => ?_⟩
  exact absurd h.2.1 (by decide +kernel)

end Datetime

end Dcl.Values
