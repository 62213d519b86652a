import RuleMachine.Checked
import RuleMachine.Row.Basic

/-! # Selections

Resolving rows into a table means to select, for each key under which an event
will be looked up, the row that answers it.
-/

namespace RuleMachine

structure TableKey (D : Domain) where
  state : D.State
  event : D.Event
  predicates : PredicateSet D
deriving DecidableEq

abbrev Selection (D : Domain) := List (TableKey D × Row D)

def TableKey.clash {D : Domain} (key : TableKey D) (rows : List (Row D)) : ImplicitClash D where
  state := D.stateName key.state
  event := D.eventName key.event
  predicates := key.predicates
  rows := rows.map Row.summary

end RuleMachine
