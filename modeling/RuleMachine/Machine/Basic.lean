import RuleMachine.History
import RuleMachine.Table.Basic

/-! # Machines

A machine is in a state, keeps a history and gets a table to answer events with.
It may build its table once: the first attempt decides, whether it succeeds or
not.
-/

namespace RuleMachine

/-- What has become of a machine's table. -/
inductive Construction (D : Domain) where
  | pending
  | failed
  | built (table : Table D)

structure Machine (D : Domain) where
  state : D.State
  config : Config
  construction : Construction D
  history : History D.State

/-- What is made known about an attempt to build a table. -/
inductive BuildNotice where
  | built (definitions entries : Nat) (strategy : Strategy)
  | failed (errors : Nat)
deriving DecidableEq, Repr

structure BuildAttempt (D : Domain) where
  machine : Machine D
  result : Checked (BuildError D) Unit
  /-- Nothing is made known about an attempt that comes too late. -/
  notice : Option BuildNotice

namespace Machine

variable {D : Domain}

def create (initial : D.State) (config : Config) : Machine D :=
  ⟨initial, config, .pending, .empty⟩

def table? (machine : Machine D) : Option (Table D) :=
  match machine.construction with
  | .built table => some table
  | _ => none

/-- Build the table from definitions, at the first attempt only. -/
def build (machine : Machine D) (definitions : List (Definition D)) : BuildAttempt D :=
  match machine.construction with
  | .pending =>
    match Table.compile machine.config definitions with
    | .ok table =>
      { machine := { machine with construction := .built table }
        result := .ok ()
        notice := some (.built definitions.length table.size table.strategy) }
    | .error errors =>
      { machine := { machine with construction := .failed }
        result := .error errors
        notice := some (.failed errors.length) }
  | _ => { machine := machine, result := .error [.alreadyBuilt], notice := none }

end Machine

end RuleMachine
