import RuleMachine.Action
import RuleMachine.Match.Descriptor

/-! # Rule trees

A rule is written as a chain of steps that may fan out into blocks of further
rules. Reading from the root to a leaf gives one path of steps, and a rule says
what all of its paths say. Continuing a rule continues every path of it.
-/

namespace RuleMachine

/-- The constructs that declarations are made of. -/
inductive Construct where
  | define
  | superstate
  | matching
  | whenEvent
  | thenState
  | actions
  | overriding
deriving DecidableEq, Repr

/-- The word with which a construct is written. -/
def Construct.text : Construct → String
  | define => "define"
  | superstate => "superstate"
  | matching => "matching"
  | whenEvent => "when"
  | thenState => "then"
  | actions => "actions"
  | overriding => "overriding"

/-- What one step says about the rules below it. -/
inductive Step (D : Domain) where
  /-- They apply only where the descriptor does. -/
  | matching (descriptor : Descriptor D)
  /-- They answer each of the events, unless a step below names its own. -/
  | whenEvent (events : List D.Event)
  /-- They lead to the state, unless a step below names another. -/
  | thenState (state : D.State)
  /-- They run the actions before their own. -/
  | actions (actions : List (Action D))
  /-- They replace rules declared earlier. -/
  | overriding

/-- The construct that a step is written with. -/
def Step.construct {D : Domain} : Step D → Construct
  | matching _ => .matching
  | whenEvent _ => .whenEvent
  | thenState _ => .thenState
  | actions _ => .actions
  | overriding => .overriding

/-- A step and where it was written, followed by nothing, by a further rule or by
a block of rules. -/
inductive Rule (D : Domain) where
  | leaf (step : Step D) (origin : Origin)
  | chain (step : Step D) (origin : Origin) (next : Rule D)
  | block (step : Step D) (origin : Origin) (rules : List (Rule D))

namespace Rule

variable {D : Domain}

/-- The rules under a step that replaces earlier ones. -/
def override (origin : Origin) (rules : List (Rule D)) : Rule D :=
  block .overriding origin rules

def construct : Rule D → Construct
  | leaf step _ | chain step _ _ | block step _ _ => step.construct

def origin : Rule D → Origin
  | leaf _ origin | chain _ origin _ | block _ origin _ => origin

mutual

/-- Continue a rule with another one, at every open end. -/
def append : Rule D → Rule D → Rule D
  | leaf step origin, next => chain step origin next
  | chain step origin inner, next => chain step origin (inner.append next)
  | block step origin rules, next => block step origin (appendEach rules next)

def appendEach : List (Rule D) → Rule D → List (Rule D)
  | [], _ => []
  | rule :: rest, next => rule.append next :: appendEach rest next

end

mutual

/-- Open a block of rules at every open end of a rule. -/
def attach : Rule D → List (Rule D) → Rule D
  | leaf step origin, opened => block step origin opened
  | chain step origin inner, opened => chain step origin (inner.attach opened)
  | block step origin rules, opened => block step origin (attachEach rules opened)

def attachEach : List (Rule D) → List (Rule D) → List (Rule D)
  | [], _ => []
  | rule :: rest, opened => rule.attach opened :: attachEach rest opened

end

mutual

/-- The steps from the root to each leaf, leaves in document order. -/
def paths : Rule D → List (List (Step D × Origin))
  | leaf step origin => [[(step, origin)]]
  | chain step origin next => next.paths.map ((step, origin) :: ·)
  | block step origin rules => (blockPaths rules).map ((step, origin) :: ·)

def blockPaths : List (Rule D) → List (List (Step D × Origin))
  | [] => []
  | rule :: rest => rule.paths ++ blockPaths rest

end

/-- What a block has if each of its rules has it, and a chain if what follows has it, all rules
have. -/
@[elab_as_elim]
theorem inductionOn {motive : Rule D → Prop}
    (leaf : ∀ step origin, motive (leaf step origin))
    (chain : ∀ step origin next, motive next → motive (chain step origin next))
    (block : ∀ step origin rules, (∀ rule ∈ rules, motive rule) →
      motive (block step origin rules)) : ∀ rule, motive rule
  | .leaf step origin => leaf step origin
  | .chain step origin next => chain step origin next (inductionOn leaf chain block next)
  | .block step origin rules =>
    block step origin rules fun rule _ => inductionOn leaf chain block rule

theorem appendEach_eq_map (rules : List (Rule D)) (next : Rule D) :
    appendEach rules next = rules.map (fun rule => rule.append next) := by
  induction rules with
  | nil => rw [appendEach, List.map_nil]
  | cons rule rest ih => rw [appendEach, List.map_cons, ih]

theorem attachEach_eq_map (rules opened : List (Rule D)) :
    attachEach rules opened = rules.map (fun rule => rule.attach opened) := by
  induction rules with
  | nil => rw [attachEach, List.map_nil]
  | cons rule rest ih => rw [attachEach, List.map_cons, ih]

theorem blockPaths_eq_flatMap (rules : List (Rule D)) :
    blockPaths rules = rules.flatMap paths := by
  induction rules with
  | nil => rw [blockPaths, List.flatMap_nil]
  | cons rule rest ih => rw [blockPaths, List.flatMap_cons, ih]

theorem append_block (step : Step D) (origin : Origin) (rules : List (Rule D)) (next : Rule D) :
    (block step origin rules).append next =
      block step origin (rules.map (fun rule => rule.append next)) := by
  rw [append, appendEach_eq_map]

theorem attach_block (step : Step D) (origin : Origin) (rules opened : List (Rule D)) :
    (block step origin rules).attach opened =
      block step origin (rules.map (fun rule => rule.attach opened)) := by
  rw [attach, attachEach_eq_map]

theorem paths_block (step : Step D) (origin : Origin) (rules : List (Rule D)) :
    (block step origin rules).paths = (rules.flatMap paths).map ((step, origin) :: ·) := by
  rw [paths, blockPaths_eq_flatMap]

end Rule

end RuleMachine
