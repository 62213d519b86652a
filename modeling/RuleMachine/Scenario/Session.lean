import RuleMachine.Scenario.Log

/-! # Sessions

A session is a scenario under way: a machine, the flags and an observer. Each
operation answers with what it found out, the session afterwards and the lines it
logged.
-/

namespace RuleMachine

namespace Scenario

structure Session where
  machine : Machine domain
  flags : Flags
  observer : Observer
  /-- The states in which the machine counts as finished. -/
  finalStates : List String
  errorStates : List String

/-- An answer, the session afterwards and the lines logged. -/
structure Reply (α : Type) where
  answer : α
  session : Session
  lines : List String

/-- Transitions are listed by state, event name, event number and predicates; an
event without a number comes first. -/
def transitionLe (first second : Transition domain) : Bool :=
  (compareLex (compareOn fun (transition : Transition domain) => transition.state)
    (compareLex (compareOn fun (transition : Transition domain) => transition.event.name)
      (compareLex (compareOn fun (transition : Transition domain) => transition.event.data)
        (compareOn fun (transition : Transition domain) => transition.predicates)))
    first second).isLE

/-- A transition on one line, with the number of its actions. -/
def transitionText (transition : Transition domain) : String :=
  s!"Transition \x7b state: {transition.state}, " ++
    s!"predicates: {PredicateSet.text transition.predicates}, " ++
    s!"event: {Event.text transition.event}, next_state: {transition.next}, " ++
    s!"actions: {transition.actions.length}, " ++
    s!"conditional: {transition.condition.isPresent}, " ++
    s!"origin: Origin \x7b file: \"{transition.origin.file}\", " ++
    s!"line: {transition.origin.line}, column: {transition.origin.column} \x7d \x7d"

namespace Session

def isFinal (session : Session) : Bool :=
  decide (session.machine.state ∈ session.finalStates)

def isError (session : Session) : Bool :=
  decide (session.machine.state ∈ session.errorStates)

/-- Build the machine's table. The answer is the number of entries. -/
def build (session : Session) (definitions : List (Definition domain)) :
    Reply (Checked (BuildError domain) Nat) :=
  let attempt := session.machine.build definitions
  { answer := attempt.result.map (fun _ => (attempt.machine.table?.map Table.size).getD 0)
    session := { session with machine := attempt.machine }
    lines := attempt.notice.toList.flatMap session.observer.buildLines }

def ofDispatch (session : Session) (dispatch : Dispatch domain World) :
    Reply (Except DispatchError (Outcome domain)) :=
  { answer := dispatch.result
    session := { session with machine := dispatch.machine, flags := dispatch.world.flags }
    lines := dispatch.trace.flatMap (occurrenceLines session.observer) }

/-- Dispatch an event and run its actions in place. -/
def handle (session : Session) (event : Event) (predicates : List (Predicate domain)) :
    Reply (Except DispatchError (Outcome domain)) :=
  session.ofDispatch
    (session.machine.handle environment ⟨session.flags, []⟩ event predicates)

/-- Dispatch an event and wait for its effects, some of which are to fail. -/
def handleAwaiting (session : Session) (event : Event) (predicates : List (Predicate domain))
    (failing : List String) : Reply (Except DispatchError (Outcome domain)) :=
  session.ofDispatch
    (session.machine.handleAwaiting environment ⟨session.flags, failing⟩ event predicates)

def fire (session : Session) (event : Event) : Reply (Except DispatchError (Outcome domain)) :=
  session.ofDispatch (session.machine.fire environment ⟨session.flags, []⟩ event)

/-- Dispatch an event without predicates and wait for its effects, some of which
are to fail. -/
def fireAwaiting (session : Session) (event : Event) (failing : List String) :
    Reply (Except DispatchError (Outcome domain)) :=
  session.ofDispatch (session.machine.fireAwaiting environment ⟨session.flags, failing⟩ event)

def setFlag (session : Session) (flag : String) (value : Bool) : Session :=
  { session with flags := session.flags.set flag value }

/-- Every transition of the table, in listing order. -/
def transitions? (session : Session) : Option (List (Transition domain)) :=
  session.machine.table?.map (fun table => table.transitions.mergeSort transitionLe)

/-- The transition under exactly this key, and whether it could be executed now. -/
def lookup (session : Session) (event : Event) (state : String)
    (predicates : List (Predicate domain)) : Reply (Option (Transition domain × Bool)) :=
  let found := session.machine.table?.bind
    (fun table => table.find? ⟨state, event, PredicateSet.ofList predicates⟩)
  let holds := World.holds ⟨session.flags, []⟩
  { answer := found.map (fun transition => (transition, transition.condition.isMet holds))
    session := session
    lines := (found.map (fun transition => (transition.condition.asked holds).map
      (fun (check, answer) => askedLine check answer))).getD [] }

/-- The transitions that would be tried, in order. -/
def candidates? (session : Session) (event : Event) (state : String)
    (predicates : List (Predicate domain)) : Option (List (Transition domain)) :=
  session.machine.table?.map
    (fun table => table.candidates state event (PredicateSet.ofList predicates))

end Session

end Scenario

end RuleMachine
