/-! # Timestamps

Instants in universal time, to the nanosecond. A leap second shares its second
with the one before it and is told apart by counting nanoseconds beyond a
billion.
-/

namespace RuleMachine

abbrev nanosPerSecond : Nat := 1000000000

/-- Seconds in a day that has no leap second. -/
abbrev secondsPerDay : Nat := 86400

/-- An instant: seconds since the start of 1970, and nanoseconds within the
second. In a leap second these run on from a billion. -/
structure Timestamp where
  seconds : Int
  nanos : Nat
deriving DecidableEq, Repr, Inhabited

structure Elapsed where
  seconds : Nat
  nanos : Nat
deriving DecidableEq, Repr

namespace Timestamp

def epoch : Timestamp := ⟨0, 0⟩

def secondOfDay (instant : Timestamp) : Nat :=
  (instant.seconds.emod secondsPerDay).toNat

/-- The day, counted from the start of 1970. -/
def day (instant : Timestamp) : Int :=
  instant.seconds.ediv secondsPerDay

def isLeapSecond (instant : Timestamp) : Bool :=
  nanosPerSecond ≤ instant.nanos

/-- A leap second of either instant that lies between their times of day counts
as a second of its own. -/
def leapAdjustment (later earlier : Timestamp) : Int :=
  if earlier.secondOfDay < later.secondOfDay && earlier.isLeapSecond then 1
  else if later.secondOfDay < earlier.secondOfDay && later.isLeapSecond then -1
  else 0

/-- The nanoseconds from one instant to another, negative if they are in the
wrong order. -/
def nanosSince (later earlier : Timestamp) : Int :=
  (later.seconds - earlier.seconds + leapAdjustment later earlier) * nanosPerSecond +
    (later.nanos - earlier.nanos)

/-- The time from one instant to another, unless they are in the wrong order. -/
def since (later earlier : Timestamp) : Option Elapsed :=
  let nanos := later.nanosSince earlier
  if nanos < 0 then none
  else some ⟨nanos.toNat / nanosPerSecond, nanos.toNat % nanosPerSecond⟩

end Timestamp

end RuleMachine
