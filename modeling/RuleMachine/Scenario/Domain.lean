import RuleMachine.Machine.Dispatch
import RuleMachine.Scenario.Kinds

/-! # The scenario domain

Scenarios are machines whose states are plain names. Events have a name and
possibly a number. Conditions look at flags, and actions either just leave a mark
or set a flag; an effect can be made to fail by its name.
-/

namespace RuleMachine

namespace Scenario

structure Event where
  name : String
  data : Option Int
deriving DecidableEq, Repr

def Event.text (event : Event) : String :=
  match event.data with
  | none => event.name
  | some data => s!"{event.name}#{data}"

inductive Check where
  | flag (name : String)
  | constant (value : Bool)
deriving DecidableEq, Repr

def Check.text : Check → String
  | flag name => name
  | constant _ => "const"

inductive Task where
  | mark (name : String)
  | setFlag (flag : String) (value : Bool)
deriving DecidableEq, Repr

def Task.text : Task → String
  | mark name => name
  | setFlag flag value => s!"set {flag}={value}"

@[reducible]
def domain : Domain where
  toVocabulary := vocabulary
  State := String
  Event := Event
  Check := Check
  Task := Task
  stateEq := inferInstanceAs (DecidableEq String)
  eventEq := inferInstanceAs (DecidableEq Event)
  stateName state := state
  eventName event := event.name

/-- An action with its event, as far as it sees one. -/
def actionText (event : Event) (action : Action domain) : String :=
  match action.sees event with
  | none => action.task.text
  | some seen => s!"{action.task.text}@{Event.text seen}"

/-- The flags that were ever given a value, latest first. -/
abbrev Flags := List (String × Bool)

/-- The value of a flag; one that was never set is false. -/
def Flags.value (flags : Flags) (name : String) : Bool :=
  (flags.lookup name).getD false

def Flags.set (flags : Flags) (name : String) (value : Bool) : Flags :=
  (name, value) :: flags

/-- What scenarios run against: the flags, and the effects that are to fail. -/
structure World where
  flags : Flags
  failing : List String
deriving Repr

namespace World

def holds (world : World) : Check → Bool
  | .flag name => world.flags.value name
  | .constant value => value

def perform (world : World) : Task → World
  | .mark _ => world
  | .setFlag flag value => { world with flags := world.flags.set flag value }

/-- Why a task fails as an effect, if it is to fail. -/
def refusal (world : World) : Task → Option String
  | .mark name => if name ∈ world.failing then some s!"{name} failed" else none
  | .setFlag _ _ => none

end World

/-- The environment of scenarios. Their clock stands still. -/
def environment : Environment domain World where
  holds := World.holds
  perform task _ world := world.perform task
  attempt task _ world := (world.perform task, world.refusal task)
  clock _ := .epoch

end Scenario

end RuleMachine
