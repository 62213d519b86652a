import RuleMachine.Machine.Basic

/-! # Dispatch

A machine answers an event by trying the candidates of its table in order and
going through the first one whose condition is met. It moves first and runs the
actions afterwards. There are two ways to dispatch: a blocking one, which refuses
transitions with effects before anything happens, and one that waits for effects
and stops at the first that fails, with the move already made.

Everything that happens on the way is kept as a trace: the checks asked, what
observers are told, and the actions run.
-/

namespace RuleMachine

structure Environment (D : Domain) (World : Type) where
  holds : World → D.Check → Bool
  /-- Carry out a task in place, with the event if the action sees it. -/
  perform : D.Task → Option D.Event → World → World
  /-- Carry out a task as an effect. It may fail with a message. -/
  attempt : D.Task → Option D.Event → World → World × Option String
  clock : World → Timestamp

/-- What observers are told about an event. -/
inductive Notice (D : Domain) where
  | executed (source target : D.State) (event : D.Event) (supplied : PredicateSet D)
  | notFound (state : D.State) (event : D.Event) (supplied : PredicateSet D)
  | notExecuted (state : D.State) (event : D.Event) (supplied : PredicateSet D)

inductive Occurrence (D : Domain) where
  | asked (check : D.Check) (answer : Bool)
  | noticed (notice : Notice D)
  | ran (action : Action D) (event : D.Event)
  | failed (action : Action D) (event : D.Event)

/-- What became of an event. -/
inductive Outcome (D : Domain) where
  | executed (source target : D.State)
  /-- The table has no entry for it. -/
  | notFound
  /-- There are entries for it, but none has its condition met. -/
  | notExecuted

def Outcome.isExecuted {D : Domain} : Outcome D → Bool
  | executed _ _ => true
  | _ => false

/-- Why an event could not be dispatched. -/
inductive DispatchError where
  | tableNotBuilt
  /-- Blocking dispatch came upon a transition with effects. -/
  | effectsNotAwaited (source event : String)
  /-- An effect failed after the machine had moved. -/
  | actionFailed (source target reason : String)
deriving DecidableEq, Repr

def DispatchError.message : DispatchError → String
  | tableNotBuilt => "Transition table has not been built"
  | effectsNotAwaited source event =>
    s!"Transition from '{source}' on '{event}' has effect actions. Use handle_event_async"
  | actionFailed source target reason =>
    s!"Action failed during transition from '{source}' to '{target}': {reason}"

structure Dispatch (D : Domain) (World : Type) where
  result : Except DispatchError (Outcome D)
  machine : Machine D
  world : World
  trace : List (Occurrence D)

variable {D : Domain} {World : Type}

/-- The first candidate whose condition is met, and what happens until it is
found. Of every candidate passed over, observers are told. -/
def Transition.firstMet (holds : D.Check → Bool) (passed : Notice D) :
    List (Transition D) → Option (Transition D) × List (Occurrence D)
  | [] => (none, [])
  | candidate :: rest =>
    let asked := (candidate.condition.asked holds).map (fun (check, answer) => .asked check answer)
    if candidate.condition.isMet holds then (some candidate, asked)
    else
      let (found, trace) := firstMet holds passed rest
      (found, asked ++ .noticed passed :: trace)

namespace Action

/-- Run actions in place. Effects are left out; blocking dispatch never gets to
see any. -/
def runBlocking (env : Environment D World) (event : D.Event) :
    List (Action D) → World → World × List (Occurrence D)
  | [], world => (world, [])
  | action :: rest, world =>
    if action.isEffect then runBlocking env event rest world
    else
      let (final, trace) := runBlocking env event rest
        (env.perform action.task (action.sees event) world)
      (final, .ran action event :: trace)

/-- Run actions and wait for the effects among them. The first effect that fails
ends the run with its message. -/
def runAwaiting (env : Environment D World) (event : D.Event) :
    List (Action D) → World → World × List (Occurrence D) × Option String
  | [], world => (world, [], none)
  | action :: rest, world =>
    if action.isEffect then
      match env.attempt action.task (action.sees event) world with
      | (world, some reason) =>
        (world, [.failed action event], some reason)
      | (world, none) =>
        let (final, trace, failure) := runAwaiting env event rest world
        (final, .ran action event :: trace, failure)
    else
      let (final, trace, failure) := runAwaiting env event rest
        (env.perform action.task (action.sees event) world)
      (final, .ran action event :: trace, failure)

end Action

namespace Machine

/-- Move along a transition and record the move. -/
def enter (machine : Machine D) (transition : Transition D) (event : D.Event)
    (now : Timestamp) : Machine D :=
  { machine with
    state := transition.next
    history := machine.history.record ⟨machine.state, transition.next, D.eventName event, now⟩ }

/-- Answer an event with what `proceed` makes of the chosen transition, given the
trace up to there. The machine stays as it is if there is none to choose. -/
def respond (env : Environment D World) (machine : Machine D) (world : World) (event : D.Event)
    (supplied : PredicateSet D)
    (proceed : Transition D → List (Occurrence D) → Dispatch D World) : Dispatch D World :=
  match machine.table? with
  | none => ⟨.error .tableNotBuilt, machine, world, []⟩
  | some table =>
    let candidates := table.candidates machine.state event supplied
    match Transition.firstMet (env.holds world)
        (.notExecuted machine.state event supplied) candidates with
    | (some transition, trace) => proceed transition trace
    | (none, trace) =>
      if candidates.isEmpty then
        ⟨.ok .notFound, machine, world,
          trace ++ [.noticed (.notFound machine.state event supplied)]⟩
      else ⟨.ok .notExecuted, machine, world, trace⟩

/-- Dispatch an event and run the actions in place. -/
def handle (env : Environment D World) (machine : Machine D) (world : World) (event : D.Event)
    (predicates : List (Predicate D)) : Dispatch D World :=
  let supplied := PredicateSet.ofList predicates
  respond env machine world event supplied fun transition trace =>
    if transition.hasEffect then
      ⟨.error (.effectsNotAwaited (D.stateName machine.state) (D.eventName event)),
        machine, world, trace⟩
    else
      let (final, actions) := Action.runBlocking env event transition.actions world
      ⟨.ok (.executed machine.state transition.next),
        machine.enter transition event (env.clock world), final,
        trace ++ .noticed (.executed machine.state transition.next event supplied) :: actions⟩

/-- Dispatch an event and wait for the effects among the actions. -/
def handleAwaiting (env : Environment D World) (machine : Machine D) (world : World)
    (event : D.Event) (predicates : List (Predicate D)) : Dispatch D World :=
  let supplied := PredicateSet.ofList predicates
  respond env machine world event supplied fun transition trace =>
    let (final, actions, failure) := Action.runAwaiting env event transition.actions world
    let result := match failure with
      | none => .ok (.executed machine.state transition.next)
      | some reason => .error
        (.actionFailed (D.stateName transition.state) (D.stateName transition.next) reason)
    ⟨result, machine.enter transition event (env.clock world), final,
      trace ++ .noticed (.executed machine.state transition.next event supplied) :: actions⟩

def fire (env : Environment D World) (machine : Machine D) (world : World) (event : D.Event) :
    Dispatch D World :=
  handle env machine world event []

def fireAwaiting (env : Environment D World) (machine : Machine D) (world : World)
    (event : D.Event) : Dispatch D World :=
  handleAwaiting env machine world event []

end Machine

end RuleMachine
