import RuleMachine.Build.Error
import RuleMachine.Match.Chain
import RuleMachine.Match.Key
import RuleMachine.Rule.Scope

/-! # Rows

Rules come down to rows: in this state, under this match, this event leads to
that state. A row keeps its actions, the origins that messages name, and the
group of the rule list it was declared in. Two rows describe the same rule when
they agree on state, match key and event.
-/

namespace RuleMachine

/-- What a path of steps says before it is bound to a state. What the path does
not name is still open. -/
structure OpenRow (D : Domain) where
  chain : MatchChain D
  event : Option (D.Event × Origin)
  next : Option (D.State × Origin)
  actions : List (Action D)
  overrides : Bool
  group : RuleGroup
  /-- Where the leaf of the path was written. -/
  origin : Origin

/-- A row that says nothing yet. -/
def OpenRow.blank {D : Domain} (group : RuleGroup) (origin : Origin) : OpenRow D :=
  ⟨[], none, none, [], false, group, origin⟩

/-- Where a row leads from and to, and how. -/
structure Course (D : Domain) where
  state : D.State
  event : D.Event
  next : D.State
  actions : List (Action D)
  overrides : Bool
  group : RuleGroup
  stateOrigin : Origin
  eventOrigin : Origin
  nextOrigin : Origin

/-- A row whose match is still a chain of scopes. -/
structure DraftRow (D : Domain) extends Course D where
  chain : MatchChain D

/-- A row with its match resolved. -/
structure Row (D : Domain) extends Course D where
  descriptor : Descriptor D

/-- What two rows have in common when they describe the same rule. -/
structure RuleKey (D : Domain) where
  state : D.State
  event : D.Event
  matchKey : MatchKey D
deriving DecidableEq

namespace DraftRow

variable {D : Domain}

/-- Resolve the match of a row. -/
def resolve (row : DraftRow D) : Except (List (MatchError D)) (Row D) :=
  (MatchChain.resolve row.chain).map (fun descriptor => ⟨row.toCourse, descriptor⟩)

end DraftRow

namespace Row

variable {D : Domain}

def key (row : Row D) : RuleKey D :=
  ⟨row.state, row.event, row.descriptor.key⟩

/-- What messages say about the row. -/
def summary (row : Row D) : RowSummary where
  state := D.stateName row.state
  descriptor := row.descriptor.text
  event := D.eventName row.event
  next := D.stateName row.next
  overrides := row.overrides
  stateOrigin := row.stateOrigin
  eventOrigin := row.eventOrigin
  nextOrigin := row.nextOrigin
  matchOrigins := row.descriptor.origins

end Row

end RuleMachine
