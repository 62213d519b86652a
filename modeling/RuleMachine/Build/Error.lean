import RuleMachine.Match.Error
import RuleMachine.Predicate.Set
import RuleMachine.Rule.Tree

/-! # Build errors

Everything that can be wrong with the declarations of a machine. Errors refer to
rows by summaries, which hold the names and origins a reader needs and nothing of
the state and event types. One build reports all the errors it found together.
-/

namespace RuleMachine

structure RowSummary where
  state : String
  descriptor : String
  event : String
  next : String
  overrides : Bool
  stateOrigin : Origin
  eventOrigin : Origin
  nextOrigin : Origin
  matchOrigins : List Origin
deriving DecidableEq

namespace RowSummary

def text (row : RowSummary) : String :=
  let lead := if row.overrides then "overriding " else ""
  let places :=
    if row.matchOrigins.isEmpty then ""
    else s!" (matching at {Origin.joined row.matchOrigins})"
  s!"{lead}define({row.state}) | {row.descriptor} | when({row.event}) | " ++
    s!"then({row.next}) at {row.eventOrigin.text}{places}"

/-- Rows one after the other, with a separator between them. -/
def listText (separator : String) (rows : List RowSummary) : String :=
  separator.intercalate (rows.map text)

/-- Groups of rows as an indented list, each group led by a dash. -/
def groupsText (groups : List (List RowSummary)) : String :=
  "\n".intercalate (groups.map (fun group => "  - " ++ listText "\n    " group))

end RowSummary

/-- Rows that could all answer an event under the same predicates, none of them
more specific than the others. -/
structure ImplicitClash (V : Vocabulary) where
  state : String
  event : String
  predicates : PredicateSet V
  rows : List RowSummary
deriving DecidableEq

def ImplicitClash.text {V : Vocabulary} (clash : ImplicitClash V) : String :=
  s!"state {clash.state} with {PredicateSet.text clash.predicates} on {clash.event}: " ++
    RowSummary.listText "; " clash.rows

/-- What can be wrong with the declarations of a machine. -/
inductive BuildError (V : Vocabulary) where
  /-- A construct that holds rules, states or events holds none. -/
  | emptyBlock (construct : Construct) (origin : Origin)
  /-- A rule names no event on the path to one of its leaves. -/
  | missingEvent (origin : Origin)
  | malformedMatch (error : MatchError V)
  | duplicates (groups : List (List RowSummary))
  /-- Rows that differ in nothing but the next state. -/
  | clashes (groups : List (List RowSummary))
  | nothingToOverride (row : RowSummary)
  /-- The rows that an overriding row means to replace come after it. -/
  | overrideOutOfOrder (row : RowSummary) (later : List RowSummary)
  | implicitClashes (ties : List (ImplicitClash V))
  /-- A machine builds its table once. -/
  | alreadyBuilt
  | emptyTable
deriving DecidableEq

namespace BuildError

variable {V : Vocabulary}

def message : BuildError V → String
  | emptyBlock construct origin =>
    s!"Empty {construct.text} block at {origin.text}. Add at least one rule or remove the block"
  | missingEvent origin =>
    s!"Rule at {origin.text} has no event. Wrap it in when(..)"
  | malformedMatch error => error.message
  | duplicates groups => s!"Duplicate rows:\n{RowSummary.groupsText groups}"
  | clashes groups =>
    "Clashing rows (same state, match and event, different next state):\n" ++
      RowSummary.groupsText groups
  | nothingToOverride row => s!"Nothing to override: {row.text}"
  | overrideOutOfOrder row later =>
    s!"Override {row.text} is declared before the rows it overrides: " ++
      RowSummary.listText "; " later
  | implicitClashes ties =>
    "Implicit clashes (rows tie for the same predicates):\n" ++
      "\n".intercalate (ties.map ImplicitClash.text)
  | alreadyBuilt => "Transition table has already been built"
  | emptyTable => "Transition table is empty. Declare at least one rule"

/-- All the errors of one build, headed by their number. -/
def report (errors : List (BuildError V)) : String :=
  s!"{errors.length} error(s) building the transition table:\n" ++
    "\n".intercalate (errors.map message)

end BuildError

end RuleMachine
