import FreeRadius.Time.Arithmetic
import Mathlib.Tactic.IntervalCases

/-!
# Calendar dates

`fr_unix_time_from_tm` counts the days since the year -4800 in an `uint32_t`,
and then the seconds since 1970 in one too.
-/

namespace FreeRadius.Time

open TimeType

/-- The fields of `struct tm` that are read. -/
structure Tm where
  sec : ℤ
  min : ℤ
  hour : ℤ
  mday : ℤ
  mon : ℤ
  year : ℤ
  gmtoff : ℤ

def frUnixTimeMin : FrUnixTime := ⟨0, by decide⟩

def frUnixTimeFromSec (sec : ℤ) : FrUnixTime :=
  ⟨unixTime.wrap (decide (0 < sec)) (sec * 10 ^ 9), wrap_mem _ _ _⟩

def monthYday : List ℤ := [0, 31, 59, 90, 120, 151, 181, 212, 243, 273, 304, 334]

/-- The macro `CHECK` -/
def check (x max : ℤ) : ℤ := if x < 0 ∨ max ≤ x then max - 1 else x

def frUnixTimeFromTm (tm : Tm) : FrUnixTime :=
  if 12 ≤ tm.mon then frUnixTimeMin
  else if 10000 < tm.year then frUnixTimeMin
  else
    let yearAdj := (tm.year + 4800 + 1900) % 2 ^ 32
    let febs := (yearAdj - if tm.mon < 2 then 1 else 0) % 2 ^ 32
    let leapDays := (1 + febs / 4 - febs / 100 + febs / 400) % 2 ^ 32
    let days := (365 * yearAdj + leapDays + monthYday.getD tm.mon.toNat 0 + tm.mday - 1) % 2 ^ 32
    frUnixTimeFromSec (((days - 2472692) * 86400 + check tm.hour 24 * 3600 + check tm.min 60 * 60 +
      check tm.sec 60) % 2 ^ 32 - tm.gmtoff)

/-- The rule of the Gregorian calendar. -/
def IsLeap (year : ℕ) : Prop := year % 4 = 0 ∧ (year % 100 ≠ 0 ∨ year % 400 = 0)

instance (year : ℕ) : Decidable (IsLeap year) := inferInstanceAs (Decidable (_ ∧ _))

def yearDays (year : ℕ) : ℕ := if IsLeap year then 366 else 365

/-- The months count from 0. -/
def monthDays (year month : ℕ) : ℕ :=
  if month = 1 then (if IsLeap year then 29 else 28)
  else if month ∈ [3, 5, 8, 10] then 30 else 31

/-- A date and time of the years 1970 to 2999. -/
structure Date where
  year : ℕ
  month : ℕ
  day : ℕ
  hour : ℕ
  minute : ℕ
  second : ℕ
  year_mem : 1970 ≤ year ∧ year < 3000
  month_lt : month < 12
  day_mem : 1 ≤ day ∧ day ≤ monthDays year month
  hour_lt : hour < 24
  minute_lt : minute < 60
  second_lt : second < 60

def Date.tm (d : Date) : Tm :=
  ⟨d.second, d.minute, d.hour, d.day, d.month, d.year - 1900, 0⟩

/-- The days of the first years from 1970 on. -/
def daysBefore : ℕ → ℕ
  | 0 => 0
  | n + 1 => daysBefore n + yearDays (1970 + n)

/-- The days since 1970. -/
def Date.days (d : Date) : ℕ :=
  daysBefore (d.year - 1970) + ((List.range d.month).map (monthDays d.year)).sum + (d.day - 1)

/-- The seconds since 1970. -/
def Date.seconds (d : Date) : ℕ :=
  d.days * 86400 + d.hour * 3600 + d.minute * 60 + d.second

/-- The number of leap years up to a year. -/
def leaps (year : ℤ) : ℤ := year / 4 - year / 100 + year / 400

theorem leaps_add (year : ℤ) : leaps (year + 4800) = leaps year + 1164 := by
  unfold leaps
  omega

theorem leaps_eq (year : ℕ) : leaps year = leaps (year - 1) + if IsLeap year then 1 else 0 := by
  unfold leaps
  split
  all_goals
    rename_i hleap
    unfold IsLeap at hleap
    omega

theorem daysBefore_eq (n : ℕ) : daysBefore n = 365 * n + leaps (1970 + n - 1) - 477 := by
  induction n with
  | zero => rfl
  | succ n ih =>
    have hleaps := leaps_eq (1970 + n)
    rw [daysBefore, yearDays, show (1970 + (n + 1 : ℕ) - 1 : ℤ) = (1970 + n : ℕ) by omega, hleaps]
    push_cast
    rw [ih]
    split <;> omega

/-- The table does not count the leap day. -/
theorem monthDays_sum (year : ℕ) {month : ℕ} (h : month < 12) :
    (((List.range month).map (monthDays year)).sum : ℤ) =
      monthYday.getD month 0 + if month < 2 then 0 else if IsLeap year then 1 else 0 := by
  by_cases hleap : IsLeap year <;> interval_cases month <;>
    simp [List.range_succ, monthDays, hleap, monthYday]

theorem check_of_lt {x max : ℕ} (h : x < max) : check x max = x :=
  if_neg (by omega)

/-- The days as they are calculated from the Februaries before the date. -/
theorem Date.days_eq (d : Date) :
    365 * (d.year + 4800) + (1 + leaps (d.year - (if d.month < 2 then 1 else 0) + 4800)) +
      monthYday.getD d.month 0 + d.day - 1 = d.days + 2472692 := by
  have hyears := daysBefore_eq (d.year - 1970)
  have hmonths := monthDays_sum d.year d.month_lt
  have hleaps := leaps_eq d.year
  have hday := d.day_mem
  rw [Nat.cast_sub d.year_mem.1, Nat.cast_ofNat, add_sub_cancel] at hyears
  unfold Date.days
  by_cases hfeb : d.month < 2
  · rw [if_pos hfeb] at hmonths ⊢
    rw [leaps_add]
    omega
  · rw [if_neg hfeb] at hmonths ⊢
    rw [sub_zero, leaps_add]
    omega

theorem Date.frUnixTimeFromTm_tm (d : Date) :
    frUnixTimeFromTm d.tm = frUnixTimeFromSec (d.seconds % 2 ^ 32) := by
  have hmon : d.tm.mon = d.month := rfl
  have hyear : d.tm.year = d.year - 1900 := rfl
  have hmonth := d.month_lt
  have hlt := d.year_mem
  unfold frUnixTimeFromTm
  rw [if_neg (by omega : ¬12 ≤ d.tm.mon), if_neg (by omega : ¬10000 < d.tm.year)]
  refine congrArg frUnixTimeFromSec ?_
  have hadj : (d.tm.year + 4800 + 1900) % 2 ^ 32 = d.year + 4800 := by omega
  have hfeb : (d.year + 4800 - if d.tm.mon < 2 then (1 : ℤ) else 0) % 2 ^ 32 =
      d.year - (if d.month < 2 then 1 else 0) + 4800 := by
    simp only [hmon, Nat.cast_lt_ofNat]
    split <;> omega
  have hdays := d.days_eq
  simp only [hadj, hfeb]
  rw [leaps] at hdays
  simp only [Date.tm, Date.seconds, Int.toNat_natCast]
  rw [show check d.hour 24 = d.hour from check_of_lt d.hour_lt,
    show check d.minute 60 = d.minute from check_of_lt d.minute_lt,
    show check d.second 60 = d.second from check_of_lt d.second_lt]
  omega

theorem frUnixTimeFromSec_of_lt {sec : ℤ} (h : 0 ≤ sec ∧ sec < 2 ^ 32) :
    (frUnixTimeFromSec sec).1 = sec * 10 ^ 9 := by
  refine if_pos ?_
  simp only [TimeType.min, TimeType.max]
  omega

/-- The seconds are right until 2106, when the `uint32_t` overflows. -/
theorem Date.frUnixTimeFromTm_iff (d : Date) :
    (frUnixTimeFromTm d.tm).1 = unixTime.clamp (d.seconds * 10 ^ 9) ↔ d.seconds < 2 ^ 32 := by
  rw [d.frUnixTimeFromTm_tm, frUnixTimeFromSec_of_lt (by omega)]
  simp only [clamp, TimeType.min, TimeType.max]
  omega

/-- In the second after the last that an `uint32_t` has, the result is 1970. -/
theorem frUnixTimeFromTm_2106 : ∃ d : Date, d.seconds = 2 ^ 32 ∧ (frUnixTimeFromTm d.tm).1 = 0 := by
  let d : Date := ⟨2106, 1, 7, 6, 28, 16, by decide, by decide, by decide, by decide, by decide,
    by decide⟩
  have hdays : 365 * (2106 + 4800) + (1 + leaps (2106 - 1 + 4800)) + 31 + 7 - 1 =
    d.days + 2472692 := d.days_eq
  have hleaps : leaps (2106 - 1 + 4800) = 1674 := rfl
  have hseconds : d.seconds = d.days * 86400 + 6 * 3600 + 28 * 60 + 16 := rfl
  have hlast : d.seconds = 2 ^ 32 := by omega
  exact ⟨d, hlast, by rw [d.frUnixTimeFromTm_tm, hlast]; rfl⟩

end FreeRadius.Time
