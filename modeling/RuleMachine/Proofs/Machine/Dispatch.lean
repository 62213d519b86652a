import RuleMachine.Machine.Dispatch

/-! # Laws of dispatch

However an event is answered, the machine keeps its table. Where no candidate has a
condition, the first one is taken and nothing is asked. Machines are followed over
any number of requests, each dispatched to what the one before it left.
-/

namespace RuleMachine

variable {D : Domain} {World : Type}

/-! ## Candidates without a condition -/

namespace Condition

variable {Check : Type}

theorem isMet_of_absent {condition : Condition Check} (h : condition.isPresent = false)
    (holds : Check → Bool) : condition.isMet holds = true := by
  have hchecks : condition.checks = [] := by simpa [isPresent] using h
  rw [isMet, hchecks, List.all_nil]

theorem asked_of_absent {condition : Condition Check} (h : condition.isPresent = false)
    (holds : Check → Bool) : condition.asked holds = [] := by
  have hchecks : condition.checks = [] := by simpa [isPresent] using h
  rw [asked, hchecks, askList]

end Condition

theorem Transition.firstMet_of_unconditional {candidates : List (Transition D)}
    (h : ∀ candidate ∈ candidates, candidate.condition.isPresent = false)
    (holds : D.Check → Bool) (passed : Notice D) :
    firstMet holds passed candidates = (candidates.head?, []) := by
  cases candidates with
  | nil => rfl
  | cons candidate rest =>
      have habsent := h candidate List.mem_cons_self
      simp only [firstMet, Condition.isMet_of_absent habsent, if_true,
        Condition.asked_of_absent habsent, List.map_nil, List.head?_cons]

namespace Machine

section Respond

variable {env : Environment D World} {machine : Machine D} {world : World} {event : D.Event}
  {supplied : PredicateSet D} {proceed : Transition D → List (Occurrence D) → Dispatch D World}

theorem respond_of_unconditional {table : Table D} (htable : machine.table? = some table)
    (h : ∀ candidate ∈ table.candidates machine.state event supplied,
      candidate.condition.isPresent = false) :
    respond env machine world event supplied proceed =
      match (table.candidates machine.state event supplied).head? with
      | none => ⟨.ok .notFound, machine, world, [.noticed (.notFound machine.state event supplied)]⟩
      | some candidate => proceed candidate [] := by
  simp only [respond, htable, Transition.firstMet_of_unconditional h]
  cases table.candidates machine.state event supplied <;> rfl

/-- Responding keeps of the machine whatever going through a transition keeps. -/
theorem respond_keeps {α : Type} {read : Machine D → α}
    (h : ∀ transition trace, read (proceed transition trace).machine = read machine) :
    read (respond env machine world event supplied proceed).machine = read machine := by
  rw [respond]
  split
  next => rfl
  next =>
    dsimp only
    split
    next => exact h _ _
    next => split <;> rfl

end Respond

section Keeps

variable {α : Type} {read : Machine D → α} {machine : Machine D}
  (h : ∀ transition event now, read (machine.enter transition event now) = read machine)
  (env : Environment D World) (world : World) (event : D.Event) (predicates : List (Predicate D))

include h

/-- Dispatch keeps of the machine whatever a move keeps. -/
theorem handle_keeps : read (handle env machine world event predicates).machine = read machine := by
  refine respond_keeps fun transition trace => ?_
  split
  · rfl
  · exact h transition event _

theorem handleAwaiting_keeps :
    read (handleAwaiting env machine world event predicates).machine = read machine :=
  respond_keeps fun transition _ => h transition event _

end Keeps

end Machine

/-! ## Following a machine -/

/-- An event to dispatch, what is supplied with it, and whether effects are awaited. -/
structure Request (D : Domain) where
  event : D.Event
  predicates : List (Predicate D)
  awaited : Bool

namespace Machine

/-- Dispatch a request. -/
def answer (env : Environment D World) (machine : Machine D) (world : World)
    (request : Request D) : Dispatch D World :=
  if request.awaited then handleAwaiting env machine world request.event request.predicates
  else handle env machine world request.event request.predicates

/-- Dispatch requests one after the other. -/
def answers (env : Environment D World) (machine : Machine D) (world : World) :
    List (Request D) → List (Dispatch D World)
  | [] => []
  | request :: rest =>
    let dispatch := answer env machine world request
    dispatch :: answers env dispatch.machine dispatch.world rest

theorem table?_answer (env : Environment D World) (machine : Machine D) (world : World)
    (request : Request D) : (answer env machine world request).machine.table? = machine.table? := by
  rw [answer]
  split
  · exact handleAwaiting_keeps (fun _ _ _ => rfl) env world request.event request.predicates
  · exact handle_keeps (fun _ _ _ => rfl) env world request.event request.predicates

end Machine

end RuleMachine
