import RuleMachine.Domain

/-! # Actions

An action is a task together with the way it is run: in place, or as an effect
that may fail; and with or without sight of the event that set it off. Effects
can only be run by a dispatch that waits for them.
-/

namespace RuleMachine

inductive Action (D : Domain) where
  | plain (task : D.Task)
  | plainWithEvent (task : D.Task)
  | effect (task : D.Task)
  | effectWithEvent (task : D.Task)

namespace Action

variable {D : Domain}

def task : Action D → D.Task
  | plain task | plainWithEvent task | effect task | effectWithEvent task => task

/-- Whether the action can fail and has to be waited for. -/
def isEffect : Action D → Bool
  | plain _ | plainWithEvent _ => false
  | effect _ | effectWithEvent _ => true

/-- What the task gets to see of the event. -/
def sees (event : D.Event) : Action D → Option D.Event
  | plain _ | effect _ => none
  | plainWithEvent _ | effectWithEvent _ => some event

end Action

end RuleMachine
