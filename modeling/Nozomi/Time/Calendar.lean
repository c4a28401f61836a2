import Mathlib.Algebra.Ring.Int.Defs
import Mathlib.Algebra.Ring.Nat
import Mathlib.Data.Fin.Basic

/-! Days and seconds of the Gregorian calendar, counted one year and one month
at a time, and the closed formula that POSIX gives for them. -/
namespace Calendar

def isLeap (year : Nat) : Bool := year % 4 = 0 ∧ (year % 100 ≠ 0 ∨ year % 400 = 0)

def daysInYear (year : Nat) : Nat := if isLeap year then 366 else 365

def daysInMonth (year : Nat) : Fin 12 → Nat
  | 1 => if isLeap year then 29 else 28
  | 3 | 5 | 8 | 10 => 30
  | _ => 31

def daysBeforeYear : Nat → Nat
  | 0 => 0
  | year + 1 => daysBeforeYear year + daysInYear year

def daysBeforeMonth (year : Nat) (mon : Fin 12) : Nat :=
  ((List.finRange 12).take mon |>.map (daysInMonth year)).sum

/-- A day of the calendar and a time of that day. The last minute of a day may
have a leap second. -/
structure DateTime where
  year : Nat
  mon : Fin 12
  mday : Nat
  hour : Nat
  min : Nat
  sec : Nat
  mday_pos : 1 ≤ mday
  mday_le : mday ≤ daysInMonth year mon
  hour_lt : hour < 24
  min_lt : min < 60
  sec_le : sec ≤ 60

namespace DateTime

def days (date : DateTime) : Nat :=
  daysBeforeYear date.year + daysBeforeMonth date.year date.mon + (date.mday - 1)

/-- Seconds since 1970-01-01 00:00:00, each day having 86400 of them. -/
def instant (date : DateTime) : Int :=
  ((date.days : Int) - daysBeforeYear 1970) * 86400 +
    date.hour * 3600 + date.min * 60 + date.sec

end DateTime

/-- The day of the year, counted from 0. -/
def dayOfYear (year : Int) (mon : Nat) (mday : Int) : Int :=
  ([0, 31, 59, 90, 120, 151, 181, 212, 243, 273, 304, 334].getD mon 0 : Nat) + (mday - 1) +
    if 2 ≤ mon ∧ year % 4 = 0 ∧ (year % 100 ≠ 0 ∨ year % 400 = 0) then 1 else 0

/-- Seconds since the epoch from broken-down fields, where `year` is counted
from 1900 and `yday` is the day of the year. -/
def secondsSinceEpoch (year yday hour min sec : Int) : Int :=
  sec + min * 60 + hour * 3600 + yday * 86400 + (year - 70) * 31536000 +
    ((year - 69) / 4) * 86400 - ((year - 1) / 100) * 86400 + ((year + 299) / 400) * 86400

theorem isLeap_iff (year : Nat) :
    isLeap year = true ↔ year % 4 = 0 ∧ (year % 100 ≠ 0 ∨ year % 400 = 0) := by
  simp only [isLeap, decide_eq_true_eq]

/-- A year adds the leap days by which the three quotients differ, which is one or
none. -/
theorem daysInYear_succ (year : Nat) :
    (daysInYear (year + 1) : Int) = 365 + (((year : Int) + 1) / 4 - (year : Int) / 4) -
      (((year : Int) + 1) / 100 - (year : Int) / 100) +
        (((year : Int) + 1) / 400 - (year : Int) / 400) := by
  have hLeap := isLeap_iff (year + 1)
  cases hCase : isLeap (year + 1) with
  | true =>
      rw [daysInYear, if_pos hCase]
      have hYear := hLeap.mp hCase
      omega
  | false =>
      rw [daysInYear, hCase]
      have hYear : ¬((year + 1) % 4 = 0 ∧ ((year + 1) % 100 ≠ 0 ∨ (year + 1) % 400 = 0)) := by
        rw [← hLeap, hCase]
        simp
      simp only [Bool.false_eq_true, if_false]
      omega

theorem daysBeforeYear_succ (year : Nat) :
    (daysBeforeYear (year + 1) : Int) =
      365 * (year + 1) + 1 + (year : Int) / 4 - (year : Int) / 100 + (year : Int) / 400 := by
  induction year with
  | zero => rfl
  | succ year ih =>
      have hYear := daysInYear_succ year
      rw [daysBeforeYear]
      omega

theorem daysBeforeYear_epoch : daysBeforeYear 1970 = 719528 := by
  have hDays : (daysBeforeYear 1970 : Int) = 719528 :=
    (daysBeforeYear_succ 1969).trans (by decide)
  omega

/-- Days since the epoch up to the first day of a year. -/
theorem daysBeforeYear_sub_epoch (year : Nat) :
    (daysBeforeYear year : Int) - daysBeforeYear 1970 =
      ((year : Int) - 1970) * 365 + (year - 1969) / 4 - (year - 1901) / 100 + (year - 1601) / 400 := by
  rw [daysBeforeYear_epoch]
  cases year with
  | zero => decide
  | succ year =>
      rw [daysBeforeYear_succ]
      push_cast
      omega

/-- The sum over the months before a month is the number of the day in its year. -/
theorem daysBeforeMonth_eq (year : Nat) (mon : Fin 12) (mday : Int) :
    (daysBeforeMonth year mon : Int) + (mday - 1) = dayOfYear year mon mday := by
  have hLeap : (isLeap year = true) ↔ ((year : Int) % 4 = 0 ∧
      ((year : Int) % 100 ≠ 0 ∨ (year : Int) % 400 = 0)) := by
    simp only [isLeap, decide_eq_true_eq]
    omega
  have hMonths : ∀ (leap : Bool) (mon : Fin 12),
      ((((List.finRange 12).take mon).map fun other : Fin 12 => match other with
        | 1 => if leap then 29 else 28
        | 3 | 5 | 8 | 10 => 30
        | _ => 31).sum : Nat) =
      [0, 31, 59, 90, 120, 151, 181, 212, 243, 273, 304, 334].getD mon 0 +
        if 2 ≤ (mon : Nat) ∧ leap = true then 1 else 0 := by decide
  have hBefore : daysBeforeMonth year mon = [0, 31, 59, 90, 120, 151, 181, 212, 243, 273, 304,
      334].getD mon 0 + if 2 ≤ (mon : Nat) ∧ isLeap year = true then 1 else 0 :=
    hMonths (isLeap year) mon
  rw [hBefore, dayOfYear]
  simp only [← hLeap]
  split <;> omega

/-- The closed formula counts the seconds of every date. -/
theorem secondsSinceEpoch_eq (date : DateTime) :
    secondsSinceEpoch (date.year - 1900) (dayOfYear date.year date.mon date.mday) date.hour
      date.min date.sec = date.instant := by
  have hDays : (date.days : Int) - daysBeforeYear 1970 =
      ((daysBeforeYear date.year : Int) - daysBeforeYear 1970) +
        dayOfYear date.year date.mon date.mday := by
    rw [← daysBeforeMonth_eq, DateTime.days]
    have hPositive := date.mday_pos
    push_cast [Nat.cast_sub hPositive]
    omega
  rw [DateTime.instant, hDays, daysBeforeYear_sub_epoch, secondsSinceEpoch]
  omega

end Calendar
