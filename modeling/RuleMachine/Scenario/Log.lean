import RuleMachine.Config.Text
import RuleMachine.Scenario.Domain

/-! # Logs

What happens in a scenario is written down line by line. Checks and actions always
are; notices to observers are written as the observer at hand writes them.
-/

namespace RuleMachine

namespace Scenario

inductive Observer where
  /-- Writes every notice down. -/
  | recording
  | silent
  /-- Writes leveled messages with fields, also about the building of tables. -/
  | tracing
deriving DecidableEq, Repr

namespace Observer

/-- A notice as the recording observer writes it. -/
def recordLine : Notice domain → String
  | .executed source target event supplied =>
    s!"executed {source}->{target} {Event.text event} {PredicateSet.text supplied}"
  | .notFound state event supplied =>
    s!"not_found {state} {Event.text event} {PredicateSet.text supplied}"
  | .notExecuted state event supplied =>
    s!"not_executed {state} {Event.text event} {PredicateSet.text supplied}"

/-- A notice as the tracing observer writes it. -/
def traceLine : Notice domain → String
  | .executed source target event supplied =>
    s!"DEBUG transition executed from={source} to={target} " ++
      s!"event={event.name} predicates={PredicateSet.text supplied}"
  | .notFound state event supplied =>
    s!"WARN no transition found state={state} " ++
      s!"event={event.name} predicates={PredicateSet.text supplied}"
  | .notExecuted state event supplied =>
    s!"WARN transition condition not met state={state} " ++
      s!"event={event.name} predicates={PredicateSet.text supplied}"

/-- The lines that an observer writes about a notice. -/
def noticeLines (observer : Observer) (notice : Notice domain) : List String :=
  match observer with
  | .recording => [recordLine notice]
  | .silent => []
  | .tracing => [traceLine notice]

/-- The lines that an observer writes about the building of a table. -/
def buildLines (observer : Observer) (notice : BuildNotice) : List String :=
  match observer, notice with
  | .tracing, .built definitions entries strategy =>
    [s!"DEBUG transition table built defines={definitions} entries={entries} " ++
      s!"strategy={strategy.text}"]
  | .tracing, .failed errors => [s!"WARN transition table build failed errors={errors}"]
  | _, _ => []

end Observer

def askedLine (check : Check) (answer : Bool) : String :=
  s!"cond {check.text}={answer}"

def occurrenceLines (observer : Observer) : Occurrence domain → List String
  | .asked check answer => [askedLine check answer]
  | .noticed notice => observer.noticeLines notice
  | .ran action event => [s!"act {actionText event action}"]
  | .failed action event => [s!"fail {actionText event action}"]

end Scenario

end RuleMachine
