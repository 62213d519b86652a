import RuleMachine.Row.Basic

/-! # What a path says

A path lists the steps from the root of a rule to one of its leaves. What the rule says
there can be read off the list from the root down: descriptors and actions pile up,
outermost first, while of several events or several next states the innermost one counts.
A scope brings in the rules of its whole lineage: all that it adopts, and itself last.
-/

namespace RuleMachine

variable {D : Domain}

/-- The steps from the root of a rule to a leaf, each with the place where it was written. -/
abbrev Path (D : Domain) := List (Step D × Origin)

namespace Step

def descriptor? : Step D → Option (Descriptor D)
  | matching descriptor => some descriptor
  | _ => none

def events? : Step D → Option (List D.Event)
  | whenEvent events => some events
  | _ => none

def next? : Step D → Option D.State
  | thenState state => some state
  | _ => none

def ownActions : Step D → List (Action D)
  | actions outer => outer
  | _ => []

def overrides : Step D → Bool
  | overriding => true
  | _ => false

end Step

namespace Path

/-- The descriptors on the path, outermost first. -/
def chain (path : Path D) : MatchChain D :=
  path.filterMap (fun (step, _) => step.descriptor?)

/-- The events named on the path, step by step, each list with the origin of its step. -/
def whens (path : Path D) : List (List D.Event × Origin) :=
  path.filterMap (fun (step, origin) => step.events?.map (fun events => (events, origin)))

/-- The next states named on the path, each with the origin of its step. -/
def thens (path : Path D) : List (D.State × Origin) :=
  path.filterMap (fun (step, origin) => step.next?.map (fun state => (state, origin)))

/-- The events that the path answers are those of the innermost step that names any. -/
def innermostWhen (path : Path D) : Option (List D.Event × Origin) :=
  path.whens.getLast?

def innermostThen (path : Path D) : Option (D.State × Origin) :=
  path.thens.getLast?

/-- The actions on the path, outermost first. -/
def actions (path : Path D) : List (Action D) :=
  path.flatMap (fun (step, _) => step.ownActions)

/-- Whether the path passes a step that replaces earlier rules. -/
def overrides (path : Path D) : Bool :=
  path.any (fun (step, _) => step.overrides)

/-- Where the leaf of the path was written. -/
def leafOrigin (path : Path D) : Origin :=
  (path.getLast?.map Prod.snd).getD default

section Cons

variable (step : Step D) (origin : Origin) (path : Path D)

theorem chain_cons : chain ((step, origin) :: path) = step.descriptor?.toList ++ path.chain := by
  cases h : step.descriptor? <;> simp [chain, h]

theorem whens_cons : whens ((step, origin) :: path) =
    (step.events?.map (fun events => (events, origin))).toList ++ path.whens := by
  cases h : step.events? <;> simp [whens, h]

theorem thens_cons : thens ((step, origin) :: path) =
    (step.next?.map (fun state => (state, origin))).toList ++ path.thens := by
  cases h : step.next? <;> simp [thens, h]

/-- A step names the events only where no step below it does. -/
theorem innermostWhen_cons : innermostWhen ((step, origin) :: path) =
    path.innermostWhen.or (step.events?.map (fun events => (events, origin))) := by
  rw [innermostWhen, whens_cons, List.getLast?_append, innermostWhen]
  cases step.events? <;> rfl

theorem innermostThen_cons : innermostThen ((step, origin) :: path) =
    path.innermostThen.or (step.next?.map (fun state => (state, origin))) := by
  rw [innermostThen, thens_cons, List.getLast?_append, innermostThen]
  cases step.next? <;> rfl

theorem actions_cons : actions ((step, origin) :: path) = step.ownActions ++ path.actions := by
  rw [actions, List.flatMap_cons, actions]

theorem overrides_cons :
    overrides ((step, origin) :: path) = (step.overrides || path.overrides) := by
  rw [overrides, List.any_cons, overrides]

theorem leafOrigin_cons {path : Path D} (h : path ≠ []) :
    leafOrigin ((step, origin) :: path) = path.leafOrigin := by
  rw [leafOrigin, leafOrigin, List.getLast?_cons_of_ne_nil h]

end Cons

end Path

namespace Scope

mutual

/-- A scope and all that it adopts, in the order in which their rules count: what is adopted
comes before what adopts it. -/
def lineage : Scope D → List (Scope D)
  | ⟨origin, group, adopted, onEntry, onExit, rules⟩ =>
    adoptedLineage adopted ++ [⟨origin, group, adopted, onEntry, onExit, rules⟩]

def adoptedLineage : List (Scope D) → List (Scope D)
  | [] => []
  | scope :: rest => scope.lineage ++ adoptedLineage rest

end

/-- The rules of a scope itself; a scope that declares no rules has none. -/
def ownRules (scope : Scope D) : List (Rule D) :=
  scope.rules.getD []

/-- The paths of all rules of a scope itself, in document order. -/
def ownPaths (scope : Scope D) : List (Path D) :=
  scope.ownRules.flatMap Rule.paths

end Scope

end RuleMachine
