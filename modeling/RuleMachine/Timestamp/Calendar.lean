import RuleMachine.Timestamp

/-! # The calendar

Days are counted from the start of 1970; dates follow the Gregorian calendar,
extended to all years. A year is taken to start in March, so that the day which
leap years add comes last. Four hundred years make an era, and all eras have the
same number of days.
-/

namespace RuleMachine

structure Date where
  year : Int
  month : Nat
  day : Nat
deriving DecidableEq, Repr

namespace Date

def isLeapYear (year : Int) : Bool :=
  year % 4 = 0 && (year % 100 ≠ 0 || year % 400 = 0)

def monthLength (year : Int) (month : Nat) : Nat :=
  if month = 2 then if isLeapYear year then 29 else 28
  else if month = 4 ∨ month = 6 ∨ month = 9 ∨ month = 11 then 30
  else 31

/-- The years that dates may lie in. -/
def yearInRange (year : Int) : Bool :=
  -262143 ≤ year && year ≤ 262142

def isValid (date : Date) : Bool :=
  yearInRange date.year && 1 ≤ date.month && date.month ≤ 12 && 1 ≤ date.day &&
    date.day ≤ monthLength date.year date.month

/-- The days from the start of an era to the start of 1970. -/
def epochOffset : Int := 719468

def daysPerEra : Int := 146097

def toDay (date : Date) : Int :=
  let year := if date.month ≤ 2 then date.year - 1 else date.year
  let era := year.ediv 400
  let yearOfEra := year.emod 400
  let monthOfYear : Int := ((date.month + 9) % 12 : Nat)
  let dayOfYear := (153 * monthOfYear + 2).ediv 5 + date.day - 1
  let dayOfEra := yearOfEra * 365 + yearOfEra.ediv 4 - yearOfEra.ediv 100 + dayOfYear
  era * daysPerEra + dayOfEra - epochOffset

def ofDay (day : Int) : Date :=
  let shifted := day + epochOffset
  let era := shifted.ediv daysPerEra
  let dayOfEra := (shifted.emod daysPerEra).toNat
  let yearOfEra := (dayOfEra - dayOfEra / 1460 + dayOfEra / 36524 - dayOfEra / 146096) / 365
  let dayOfYear := dayOfEra - (365 * yearOfEra + yearOfEra / 4 - yearOfEra / 100)
  let monthOfYear := (5 * dayOfYear + 2) / 153
  let month := if monthOfYear < 10 then monthOfYear + 3 else monthOfYear - 9
  { year := era * 400 + yearOfEra + (if month ≤ 2 then 1 else 0)
    month := month
    day := dayOfYear - (153 * monthOfYear + 2) / 5 + 1 }

end Date

namespace Timestamp

/-- Whether an instant lies in the years that dates may lie in. -/
def inRange (instant : Timestamp) : Bool :=
  Date.yearInRange (Date.ofDay instant.day).year

/-- The instant with the given Unix time. More than a billion nanoseconds make a
leap second, which can only follow the last second of a minute. -/
def ofUnix? (seconds : Int) (nanos : Nat) : Option Timestamp :=
  let instant : Timestamp := ⟨seconds, nanos⟩
  if nanos < 2 * nanosPerSecond && (nanos < nanosPerSecond || seconds % 60 = 59) &&
      instant.inRange then
    some instant
  else none

end Timestamp

end RuleMachine
