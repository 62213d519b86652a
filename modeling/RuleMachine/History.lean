import RuleMachine.Timestamp

/-! # Histories

A machine records every transition it goes through. A history only ever grows;
its path lists the states that were passed, the first one included.
-/

namespace RuleMachine

/-- A transition that was gone through. -/
structure Record (State : Type) where
  source : State
  target : State
  event : String
  timestamp : Timestamp

/-- The transitions gone through, oldest first. -/
structure History (State : Type) where
  records : List (Record State)

def Record.changed {State : Type} [DecidableEq State] (record : Record State) : Bool :=
  decide (record.source ≠ record.target)

namespace History

variable {State : Type}

def empty : History State := ⟨[]⟩

def record (history : History State) (next : Record State) : History State :=
  ⟨history.records ++ [next]⟩

/-- The states passed: where the first record starts, then where each one leads. -/
def path (history : History State) : List State :=
  (history.records.head?.map Record.source).toList ++ history.records.map Record.target

def events (history : History State) : List String :=
  history.records.map Record.event

/-- The time from the first record to the last. -/
def duration (history : History State) : Option Elapsed :=
  match history.records.head?, history.records.getLast? with
  | some first, some last => last.timestamp.since first.timestamp
  | _, _ => none

end History

end RuleMachine
