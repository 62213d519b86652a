import RuleMachine.Config
import RuleMachine.Row.Conflict
import RuleMachine.Row.Expansion
import RuleMachine.Table.Eager
import RuleMachine.Table.Lazy

/-! # Transition tables

A table is compiled from definitions: they expand into rows, the rows are
validated and resolved, and each selected row becomes a transition that carries
its own actions and the hooks of the states it leaves and enters. A stage is only
run when the ones before it found no fault. An event is answered by the first
candidate whose condition is met; an eager table has at most one candidate, a
lazy table offers every entry whose predicates are supplied, more specific ones
first.
-/

namespace RuleMachine

structure Transition (D : Domain) where
  state : D.State
  predicates : PredicateSet D
  event : D.Event
  next : D.State
  /-- The row's own actions, followed by the hooks that apply. -/
  actions : List (Action D)
  condition : Condition D.Check
  origin : Origin

namespace Transition

variable {D : Domain}

def key (transition : Transition D) : TableKey D :=
  ⟨transition.state, transition.event, transition.predicates⟩

def hasEffect (transition : Transition D) : Bool :=
  transition.actions.any Action.isEffect

def changesState (transition : Transition D) : Bool :=
  decide (transition.state ≠ transition.next)

end Transition

/-- The actions of a row: its own, then the exit hooks of its state and the entry
hooks of its next state where the policy asks for hooks. -/
def StateHooks.merged {D : Domain} (hooks : StateHooks D) (policy : HookPolicy) (row : Row D) :
    List (Action D) :=
  if row.state ≠ row.next ∨ policy = .always then
    row.actions ++ hooks.actions .exit row.state ++ hooks.actions .entry row.next
  else row.actions

/-- A compiled table. No two transitions share a key. -/
structure Table (D : Domain) where
  strategy : Strategy
  transitions : List (Transition D)

namespace Table

variable {D : Domain}

def actionsOf (definitions : List (Definition D)) (policy : HookPolicy) (row : Row D) :
    List (Action D) :=
  (StateHooks.ofDefinitions definitions).merged policy row

def transitionOf (definitions : List (Definition D)) (policy : HookPolicy) (key : TableKey D)
    (row : Row D) : Transition D where
  state := key.state
  predicates := key.predicates
  event := key.event
  next := row.next
  actions := actionsOf definitions policy row
  condition := row.descriptor.condition
  origin := row.eventOrigin

/-- Select a row for each key in the way the strategy says. -/
def selectBy (strategy : Strategy) (rows : List (Row D)) :
    Checked (BuildError D) (Selection D) :=
  match strategy with
  | .eager => Eager.select rows
  | .lazy => Lazy.select rows

/-- Declarations have to come to at least one row. -/
def requireRows (rows : List (Row D)) : Checked (BuildError D) (List (Row D)) :=
  match rows with
  | [] => .error [.emptyTable]
  | rows => .ok rows

/-- Compile definitions into a table, or report every fault of the first stage
that finds any. -/
def compile (config : Config) (definitions : List (Definition D)) :
    Checked (BuildError D) (Table D) := do
  let declared ← Definition.rows definitions
  let declared ← requireRows declared
  let rows ← Row.validate declared
  let selection ← selectBy config.strategy rows
  pure ⟨config.strategy, selection.map
    (fun (key, row) => transitionOf definitions config.hookPolicy key row)⟩

def size (table : Table D) : Nat :=
  table.transitions.length

/-- The entry stored under exactly this key. -/
def find? (table : Table D) (key : TableKey D) : Option (Transition D) :=
  table.transitions.find? (fun transition => transition.key = key)

/-- The entries to try, in order, for an event in a state under supplied
predicates. -/
def candidates (table : Table D) (state : D.State) (event : D.Event)
    (supplied : PredicateSet D) : List (Transition D) :=
  match table.strategy with
  | .eager => (table.find? ⟨state, event, supplied⟩).toList
  | .lazy => (PredicateSet.subsetsBySize supplied).filterMap
      (fun subset => table.find? ⟨state, event, subset⟩)

end Table

end RuleMachine
