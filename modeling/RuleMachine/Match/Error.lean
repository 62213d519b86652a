import RuleMachine.Origin
import RuleMachine.Predicate.Basic
import RuleMachine.Repetition

/-! # Malformed matches

A match can be malformed in four ways. An error names the way, the predicates at
fault and every declaration that took part. Several errors of one kind can be
merged into one that accounts for all of them.
-/

namespace RuleMachine

inductive MatchErrorKind where
  /-- A group of alternatives mixes kinds of predicate. -/
  | conflictingAnyTypes
  /-- A kind of predicate is constrained more than once. -/
  | duplicateMatchTypes
  /-- The groups of alternatives repeat a value. -/
  | duplicateAnyValues
  /-- A value is both required and an alternative. -/
  | duplicateAnyAllValues
deriving DecidableEq, Repr

namespace MatchErrorKind

def text : MatchErrorKind → String
  | conflictingAnyTypes => "matching_any groups must share a single predicate type"
  | duplicateMatchTypes => "a predicate type may only be matched once"
  | duplicateAnyValues => "matching_any values must be unique"
  | duplicateAnyAllValues => "values cannot appear in both matching_any and matching_all"

end MatchErrorKind

/-- A malformed match, with the predicates at fault and the declarations that
contributed to it. -/
structure MatchError (V : Vocabulary) where
  kind : MatchErrorKind
  predicates : List (Predicate V)
  origins : List Origin
deriving DecidableEq

namespace MatchError

variable {V : Vocabulary}

def message (error : MatchError V) : String :=
  let predicates := ", ".intercalate (error.predicates.map Predicate.text)
  s!"{error.kind.text}: [{predicates}] (declared at {Origin.joined error.origins})"

/-- Take over what another error of the same kind reports. -/
def absorb (error other : MatchError V) : MatchError V :=
  { error with
    predicates := addMissing error.predicates other.predicates
    origins := addMissing error.origins other.origins }

/-- Fold an error into the first one of its kind, or append it. -/
def mergeInto (error : MatchError V) : List (MatchError V) → List (MatchError V)
  | [] => [error]
  | head :: rest =>
    if head.kind = error.kind then head.absorb error :: rest else head :: mergeInto error rest

/-- One error per kind, kinds in the order in which they first occur. -/
def mergeByKind (errors : List (MatchError V)) : List (MatchError V) :=
  errors.foldl (fun merged error => mergeInto error merged) []

end MatchError

end RuleMachine
