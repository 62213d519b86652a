import RuleMachine.Action
import RuleMachine.Build.Error
import RuleMachine.Checked
import RuleMachine.Combination
import RuleMachine.Condition
import RuleMachine.Config
import RuleMachine.Config.Text
import RuleMachine.Domain
import RuleMachine.History
import RuleMachine.History.Text
import RuleMachine.Json.Quoted
import RuleMachine.Json.Reader
import RuleMachine.Machine.Basic
import RuleMachine.Machine.Dispatch
import RuleMachine.Match.Chain
import RuleMachine.Match.Descriptor
import RuleMachine.Match.Error
import RuleMachine.Match.Key
import RuleMachine.Match.Validity
import RuleMachine.Origin
import RuleMachine.Positions
import RuleMachine.Predicate.Basic
import RuleMachine.Predicate.Grouping
import RuleMachine.Predicate.Set
import RuleMachine.Predicate.Vocabulary
import RuleMachine.Predicate.World
import RuleMachine.Proofs.Checked
import RuleMachine.Proofs.Combination
import RuleMachine.Proofs.Json.RoundTrip
import RuleMachine.Proofs.Machine.Actions
import RuleMachine.Proofs.Machine.Agreement
import RuleMachine.Proofs.Machine.Choice
import RuleMachine.Proofs.Machine.Construction
import RuleMachine.Proofs.Machine.Dispatch
import RuleMachine.Proofs.Machine.Effects
import RuleMachine.Proofs.Machine.Run
import RuleMachine.Proofs.Match.Chain
import RuleMachine.Proofs.Match.Concrete
import RuleMachine.Proofs.Match.Failures
import RuleMachine.Proofs.Match.Faults
import RuleMachine.Proofs.Match.Key
import RuleMachine.Proofs.Match.Meaning
import RuleMachine.Proofs.Match.Ranking
import RuleMachine.Proofs.Match.Validity
import RuleMachine.Proofs.Persistence
import RuleMachine.Proofs.Positions
import RuleMachine.Proofs.Predicate.Grouping
import RuleMachine.Proofs.Predicate.Order
import RuleMachine.Proofs.Predicate.Subsets
import RuleMachine.Proofs.Predicate.World
import RuleMachine.Proofs.Repetition
import RuleMachine.Proofs.Row.Acceptance
import RuleMachine.Proofs.Row.Conflict
import RuleMachine.Proofs.Row.Expansion
import RuleMachine.Proofs.Row.Override
import RuleMachine.Proofs.Row.Report
import RuleMachine.Proofs.Row.Survival
import RuleMachine.Proofs.Rule.Continuation
import RuleMachine.Proofs.Rule.Path
import RuleMachine.Proofs.Scope.Desugaring
import RuleMachine.Proofs.Scope.Emptiness
import RuleMachine.Proofs.Scope.Faults
import RuleMachine.Proofs.Scope.Rearrangement
import RuleMachine.Proofs.SortedSet
import RuleMachine.Proofs.Table.Agreement
import RuleMachine.Proofs.Table.Candidates
import RuleMachine.Proofs.Table.Compilation
import RuleMachine.Proofs.Table.Duplicates
import RuleMachine.Proofs.Table.Grouping
import RuleMachine.Proofs.Table.Hooks
import RuleMachine.Proofs.Table.Likeness
import RuleMachine.Proofs.Table.Ownership
import RuleMachine.Proofs.Table.Reach
import RuleMachine.Proofs.Table.Search
import RuleMachine.Proofs.Table.Specificity
import RuleMachine.Proofs.Table.Storage
import RuleMachine.Proofs.Table.Ties
import RuleMachine.Proofs.Timestamp.Calendar
import RuleMachine.Proofs.Timestamp.RoundTrip
import RuleMachine.Repetition
import RuleMachine.Row.Basic
import RuleMachine.Row.Conflict
import RuleMachine.Row.Expansion
import RuleMachine.Row.Override
import RuleMachine.Rule.Scope
import RuleMachine.Rule.Tree
import RuleMachine.Scenario.Declarations
import RuleMachine.Scenario.Domain
import RuleMachine.Scenario.Kinds
import RuleMachine.Scenario.Log
import RuleMachine.Scenario.Session
import RuleMachine.SortedSet
import RuleMachine.Table.Basic
import RuleMachine.Table.Eager
import RuleMachine.Table.Lazy
import RuleMachine.Table.Selection
import RuleMachine.Timestamp
import RuleMachine.Timestamp.Calendar
import RuleMachine.Timestamp.Text
