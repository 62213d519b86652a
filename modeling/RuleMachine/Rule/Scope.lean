import RuleMachine.Rule.Tree

/-! # Scopes and definitions

A scope holds rules together with the actions that run when a state is entered
or left. Scopes adopt other scopes, whose rules and actions come before their
own. A scope that others adopt is a superstate; a definition binds a scope to
the states it is for.
-/

namespace RuleMachine

/-- Tells apart the rule lists that rows come from. Each scope keeps one group,
also when several others adopt it. -/
structure RuleGroup where
  id : Nat
deriving DecidableEq, Repr

/-- Rules and hooks, after those of the adopted scopes. -/
structure Scope (D : Domain) where
  origin : Origin
  group : RuleGroup
  adopted : List (Scope D)
  onEntry : List (Action D)
  onExit : List (Action D)
  /-- A scope may declare no rules; a list of rules that is there must not be empty. -/
  rules : Option (List (Rule D))

/-- The two occasions for running a state's hooks. -/
inductive Occasion where
  | entry
  | exit
deriving DecidableEq, Repr

namespace Scope

variable {D : Domain}

def ownHooks (scope : Scope D) : Occasion → List (Action D)
  | .entry => scope.onEntry
  | .exit => scope.onExit

mutual

/-- The hooks of a scope: those of the adopted scopes in order, then its own. -/
def hooks (occasion : Occasion) : Scope D → List (Action D)
  | ⟨origin, group, adopted, onEntry, onExit, rules⟩ =>
    adoptedHooks occasion adopted ++
      ownHooks ⟨origin, group, adopted, onEntry, onExit, rules⟩ occasion

def adoptedHooks (occasion : Occasion) : List (Scope D) → List (Action D)
  | [] => []
  | scope :: rest => scope.hooks occasion ++ adoptedHooks occasion rest

end

end Scope

/-- The states that a scope's rules and hooks are for. -/
structure Definition (D : Domain) where
  states : List D.State
  scope : Scope D

/-- The hooks of the states, as they are collected: what each state has so far. -/
structure StateHooks (D : Domain) where
  entry : List (D.State × List (Action D))
  exit : List (D.State × List (Action D))

namespace StateHooks

variable {D : Domain}

def empty : StateHooks D := ⟨[], []⟩

/-- Add actions to those of a state, which has none if it has not come up yet. -/
def extend (state : D.State) (actions : List (Action D)) :
    List (D.State × List (Action D)) → List (D.State × List (Action D))
  | [] => [(state, actions)]
  | (known, present) :: rest =>
    if known = state then (known, present ++ actions) :: rest
    else (known, present) :: extend state actions rest

/-- Add the hooks of a scope to those of a state. -/
def addState (scope : Scope D) (hooks : StateHooks D) (state : D.State) : StateHooks D :=
  ⟨extend state (scope.hooks .entry) hooks.entry, extend state (scope.hooks .exit) hooks.exit⟩

/-- The hooks of all states, definition by definition, and for each definition state by
state as it lists them. -/
def ofDefinitions (definitions : List (Definition D)) : StateHooks D :=
  definitions.foldl
    (fun hooks definition => definition.states.foldl (addState definition.scope) hooks) empty

def on (hooks : StateHooks D) : Occasion → List (D.State × List (Action D))
  | .entry => hooks.entry
  | .exit => hooks.exit

/-- The hooks of a state. A state that never came up has none. -/
def actions (hooks : StateHooks D) (occasion : Occasion) (state : D.State) : List (Action D) :=
  ((hooks.on occasion).lookup state).getD []

end StateHooks

end RuleMachine
