/-!
# Calendar

Moments: a count of seconds from the start of 1970 in universal time. The clocks of a zone split it
into the fields of the Gregorian calendar, with the day of the week and the week of the year in the
three usual countings.
-/

namespace WireRecords.Calendar

def isLeap (year : Int) : Bool :=
  year % 4 = 0 && (year % 100 ≠ 0 || year % 400 = 0)

def leapYearsBefore (year : Int) : Int :=
  (year - 1) / 4 - (year - 1) / 100 + (year - 1) / 400

def yearStart (year : Int) : Int :=
  365 * (year - 1970) + leapYearsBefore year - leapYearsBefore 1970

/-- The year that a day lies in. The mean length of a year gives a guess that is one off at most. -/
def yearOf (day : Int) : Int :=
  let guess := 1970 + day * 400 / 146097
  if day < yearStart guess then guess - 1
  else if yearStart (guess + 1) ≤ day then guess + 1
  else guess

def yearDay (day : Int) : Nat := (day - yearStart (yearOf day)).toNat

def monthLengths (leap : Bool) : List Nat :=
  [31, if leap then 29 else 28, 31, 30, 31, 30, 31, 31, 30, 31, 30, 31]

def splitMonths : List Nat → Nat → Nat × Nat
  | [], n => (0, n)
  | length :: lengths, n =>
    if n < length then (0, n)
    else
      let (months, days) := splitMonths lengths (n - length)
      (months + 1, days)

def weekday (day : Int) : Nat := ((day + 4) % 7).toNat

def daysSinceMonday (day : Int) : Nat := ((day + 3) % 7).toNat

/-- A week belongs to the year that its Thursday lies in. -/
def thursday (day : Int) : Int := day - daysSinceMonday day + 3

end Calendar

structure Zone where
  ahead : Int := 0
  name : String := "UTC"
  deriving DecidableEq, Repr

/-- A moment in universal time, and the zone whose clocks show it. -/
structure Moment where
  seconds : Int
  zone : Zone := {}
  deriving DecidableEq, Repr

namespace Moment

open Calendar

def ofNanoseconds (n : Int) : Moment := { seconds := n.tdiv 1000000000 }

def shown (m : Moment) : Int := m.seconds + m.zone.ahead

def day (m : Moment) : Int := m.shown / 86400

def secondOfDay (m : Moment) : Nat := (m.shown % 86400).toNat

def year (m : Moment) : Int := yearOf m.day

def yearDay (m : Moment) : Nat := Calendar.yearDay m.day

def monthAndDay (m : Moment) : Nat × Nat := splitMonths (monthLengths (isLeap m.year)) m.yearDay

def month (m : Moment) : Nat := m.monthAndDay.1

def monthDay (m : Moment) : Nat := m.monthAndDay.2 + 1

def weekday (m : Moment) : Nat := Calendar.weekday m.day

def hour (m : Moment) : Nat := m.secondOfDay / 3600

def minute (m : Moment) : Nat := m.secondOfDay / 60 % 60

def second (m : Moment) : Nat := m.secondOfDay % 60

def clockHour (m : Moment) : Nat := (m.hour + 11) % 12 + 1

def sundayWeek (m : Moment) : Nat := (m.yearDay + 7 - m.weekday) / 7

def mondayWeek (m : Moment) : Nat := (m.yearDay + 7 - daysSinceMonday m.day) / 7

def weekYear (m : Moment) : Int := yearOf (thursday m.day)

def week (m : Moment) : Nat := Calendar.yearDay (thursday m.day) / 7 + 1

end Moment

end WireRecords
