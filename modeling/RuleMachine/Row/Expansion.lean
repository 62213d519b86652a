import RuleMachine.Checked
import RuleMachine.Row.Basic

/-! # Expanding rules into rows

A rule expands leaf by leaf: every leaf starts a blank row, and the steps on the
way back to the root fill in what is still open. A definition binds the rows of
its scope to each of its states. Blocks without rules, events or states are
reported, and so are rows that never come to an event.
-/

namespace RuleMachine

variable {D : Domain}

/-- What a step adds to one of the rows below it. Steps below win over it where
only one of them can have its say. -/
def Step.fill (origin : Origin) (row : OpenRow D) : Step D → List (OpenRow D)
  | .matching descriptor => [{ row with chain := descriptor :: row.chain }]
  | .whenEvent events =>
    if row.event.isSome then [row]
    else events.map (fun event => { row with event := some (event, origin) })
  | .thenState state => [{ row with next := some (row.next.getD (state, origin)) }]
  | .actions outer => [{ row with actions := outer ++ row.actions }]
  | .overriding => [{ row with overrides := true }]

/-- What a step makes of the rows below it. It must not ask for one of no events. -/
def Step.extend (origin : Origin) (step : Step D) (rows : List (OpenRow D)) :
    Checked (BuildError D) (List (OpenRow D)) :=
  match step with
  | .whenEvent [] => .error [.emptyBlock .whenEvent origin]
  | step => .ok (rows.flatMap (fun row => step.fill origin row))

namespace Rule

mutual

/-- The rows of a rule, one or more for each of its paths. Faults below a step
are reported before the step is looked at. -/
def rows (group : RuleGroup) : Rule D → Checked (BuildError D) (List (OpenRow D))
  | leaf step origin => step.extend origin [.blank group origin]
  | chain step origin next => (next.rows group).bind (step.extend origin)
  | block step origin [] => .error [.emptyBlock step.construct origin]
  | block step origin rules => (eachRows group rules).bind (step.extend origin)

def eachRows (group : RuleGroup) : List (Rule D) → Checked (BuildError D) (List (OpenRow D))
  | [] => .ok []
  | rule :: rest => .append (rule.rows group) (eachRows group rest)

end

/-- The rows of a rule list as declared by some construct. -/
def listRows (construct : Construct) (origin : Origin) (group : RuleGroup) :
    Option (List (Rule D)) → Checked (BuildError D) (List (OpenRow D))
  | none => .ok []
  | some [] => .error [.emptyBlock construct origin]
  | some rules => eachRows group rules

end Rule

namespace Scope

mutual

/-- The rows of a scope: those of the adopted scopes in order, then its own. -/
def rows (construct : Construct) : Scope D → Checked (BuildError D) (List (OpenRow D))
  | ⟨origin, group, adopted, _, _, rules⟩ =>
    .append (adoptedRows adopted) (Rule.listRows construct origin group rules)

def adoptedRows : List (Scope D) → Checked (BuildError D) (List (OpenRow D))
  | [] => .ok []
  | scope :: rest => .append (scope.rows .superstate) (adoptedRows rest)

end

end Scope

/-- The row with its event, which every row has to have. -/
def OpenRow.requireEvent (row : OpenRow D) :
    Checked (BuildError D) (List (OpenRow D × D.Event × Origin)) :=
  match row.event with
  | some event => .ok [(row, event)]
  | none => .error [.missingEvent row.origin]

/-- Bind a row to a state. A row that names no next state stays where it is. -/
def OpenRow.bindTo (row : OpenRow D) (event : D.Event) (eventOrigin : Origin)
    (state : D.State) (stateOrigin : Origin) : DraftRow D :=
  let (next, nextOrigin) := row.next.getD (state, stateOrigin)
  { chain := row.chain
    state := state
    event := event
    next := next
    actions := row.actions
    overrides := row.overrides
    group := row.group
    stateOrigin := stateOrigin
    eventOrigin := eventOrigin
    nextOrigin := nextOrigin }

namespace Definition

/-- The rows of a definition: for each of its states, all rows of its scope. -/
def draftRows (definition : Definition D) : Checked (BuildError D) (List (DraftRow D)) :=
  if definition.states.isEmpty then
    .error [.emptyBlock .define definition.scope.origin]
  else do
    let openRows ← definition.scope.rows .define
    let complete ← Checked.gather (openRows.map OpenRow.requireEvent)
    pure (definition.states.flatMap fun state =>
      complete.map fun (row, event, origin) =>
        row.bindTo event origin state definition.scope.origin)

end Definition

/-- Resolve the matches of all rows. A fault that several rows share is reported
once. -/
def DraftRow.resolveAll (rows : List (DraftRow D)) : Checked (BuildError D) (List (Row D)) :=
  match rows.flatMap (fun row => Checked.errors row.resolve) with
  | [] => .ok (rows.filterMap (fun row => row.resolve.toOption))
  | faults => .error ((distinct faults).map .malformedMatch)

/-- The rows of all definitions in the order of declaration. Matches are resolved
only once every definition expands. -/
def Definition.rows (definitions : List (Definition D)) :
    Checked (BuildError D) (List (Row D)) :=
  (Checked.gather (definitions.map Definition.draftRows)).bind DraftRow.resolveAll

end RuleMachine
