/-! # Conditions

A condition is asked when a transition has been found and may still veto it. It
is a conjunction of checks, asked in order and only until one of them fails. The
empty conjunction is no condition at all.
-/

namespace RuleMachine

/-- A conjunction of checks in the order in which they are asked. -/
structure Condition (Check : Type) where
  checks : List Check
deriving Repr

namespace Condition

variable {Check : Type}

def none : Condition Check := ⟨[]⟩

def ofCheck (check : Check) : Condition Check := ⟨[check]⟩

def isPresent (condition : Condition Check) : Bool :=
  !condition.checks.isEmpty

/-- Both conditions, the checks of the second after those of the first. -/
def and (first second : Condition Check) : Condition Check :=
  ⟨first.checks ++ second.checks⟩

/-- The checks that get asked, with their answers: all up to the first that fails. -/
def askList (holds : Check → Bool) : List Check → List (Check × Bool)
  | [] => []
  | check :: rest =>
    if holds check then (check, true) :: askList holds rest else [(check, false)]

def asked (condition : Condition Check) (holds : Check → Bool) : List (Check × Bool) :=
  askList holds condition.checks

def isMet (condition : Condition Check) (holds : Check → Bool) : Bool :=
  condition.checks.all holds

/-- What stands for a condition where values are shown: its checks are opaque. -/
def text (condition : Condition Check) : Option String :=
  if condition.isPresent then some "Condition(..)" else Option.none

end Condition

end RuleMachine
