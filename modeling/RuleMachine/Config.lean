/-! # Configuration

What is fixed when a machine is created: how its table is built and searched, and
when the hooks of states run.
-/

namespace RuleMachine

/-- How a table is built and searched. -/
inductive Strategy where
  /-- Resolve every row against the closed world ahead of time; look up exactly. -/
  | eager
  /-- Store rows under the sets they name; search the subsets of what is supplied. -/
  | lazy
deriving DecidableEq, Repr

/-- When the hooks of states run. -/
inductive HookPolicy where
  /-- Only if the state actually changes. -/
  | onChangeOnly
  /-- On transitions from a state to itself too. -/
  | always
deriving DecidableEq, Repr

structure Config where
  strategy : Strategy := .eager
  hookPolicy : HookPolicy := .onChangeOnly
deriving DecidableEq, Repr

namespace Config

/-- The configuration of a machine that is given none. -/
def standard : Config := {}

def searching : Config := { strategy := .lazy }

end Config

end RuleMachine
