import RuleMachine.Predicate.Basic

/-! # Domains

A domain is what a machine is about: its predicate vocabulary, its states and
events, the checks that conditions are made of and the tasks that actions carry
out. What checks and tasks mean is left to an environment; everything that is
decided ahead of dispatch treats them as opaque.
-/

namespace RuleMachine

structure Domain extends Vocabulary where
  State : Type
  Event : Type
  /-- The yes-or-no questions of which conditions are made. -/
  Check : Type
  /-- The work that actions carry out. -/
  Task : Type
  stateEq : DecidableEq State
  eventEq : DecidableEq Event
  stateName : State → String
  /-- The name of an event. Different events may share one. -/
  eventName : Event → String

namespace Domain

variable (D : Domain)

instance : CoeOut Domain Vocabulary := ⟨Domain.toVocabulary⟩

instance : DecidableEq D.State := D.stateEq

instance : DecidableEq D.Event := D.eventEq

end Domain

end RuleMachine
