import RuleMachine.Scenario.Domain

/-! # Declarations by name

In a scenario superstates have names, and what adopts them refers to them by name.
Superstates are declared in order and adopt only earlier ones. Linking puts the
adopted scopes in place of the names and gives every declaration a group of its
own.
-/

namespace RuleMachine

namespace Scenario

/-- A scope whose adopted scopes are still names. -/
structure ScopeSource where
  origin : Origin
  adopts : List String
  onEntry : List (Action domain)
  onExit : List (Action domain)
  rules : Option (List (Rule domain))

/-- A superstate and the name it goes by. -/
structure SuperstateSource where
  name : String
  scope : ScopeSource

/-- A definition whose adopted scopes are still names. -/
structure DefinitionSource where
  states : List String
  scope : ScopeSource

/-- The linked superstates in the order of their names. -/
abbrev Superstates := List (String × Scope domain)

/-- Enter a superstate in name order, in place of one of the same name. -/
def Superstates.enter (name : String) (scope : Scope domain) : Superstates → Superstates
  | [] => [(name, scope)]
  | (other, known) :: rest =>
    match compare name other with
    | .lt => (name, scope) :: (other, known) :: rest
    | .eq => (name, scope) :: rest
    | .gt => (other, known) :: enter name scope rest

/-- Put scopes in place of the names that a scope adopts. -/
def ScopeSource.link (known : Superstates) (group : Nat) (source : ScopeSource) :
    Option (Scope domain) := do
  let adopted ← source.adopts.mapM (fun name => known.lookup name)
  pure ⟨source.origin, ⟨group⟩, adopted, source.onEntry, source.onExit, source.rules⟩

/-- Link superstates one after the other, numbering their groups. -/
def linkSuperstates (known : Superstates) (group : Nat) :
    List SuperstateSource → Option Superstates
  | [] => some known
  | source :: rest => do
    let scope ← source.scope.link known group
    linkSuperstates (known.enter source.name scope) (group + 1) rest

/-- Link definitions, numbering their groups. -/
def linkDefinitions (known : Superstates) (group : Nat) :
    List DefinitionSource → Option (List (Definition domain))
  | [] => some []
  | source :: rest => do
    let scope ← source.scope.link known group
    let others ← linkDefinitions known (group + 1) rest
    pure (⟨source.states, scope⟩ :: others)

structure Declarations where
  superstates : Superstates
  definitions : List (Definition domain)

/-- Link all declarations, unless a name stands for no earlier superstate. -/
def Declarations.link? (superstates : List SuperstateSource)
    (definitions : List DefinitionSource) : Option Declarations := do
  let known ← linkSuperstates [] 0 superstates
  let linked ← linkDefinitions known superstates.length definitions
  pure ⟨known, linked⟩

end Scenario

end RuleMachine
