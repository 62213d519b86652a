import RuleMachine.Match.Descriptor
import RuleMachine.Match.Error

/-! # Well-formed descriptors

A descriptor is well formed when each kind of predicate is constrained at most
once: every group of alternatives holds different values of one kind, and no two
groups or required values claim the same kind. Faults are looked for in a fixed
order, and the first sort that occurs is reported with all its predicates.
-/

namespace RuleMachine

namespace Descriptor

variable {D : Domain}

def isMixed (group : List (Predicate D)) : Bool :=
  1 < (KindSet.ofList (group.map Predicate.kind)).size

def mixedValues (descriptor : Descriptor D) : List (Predicate D) :=
  (descriptor.any.filter isMixed).flatten

/-- The required values that are alternatives as well. -/
def sharedValues (descriptor : Descriptor D) : List (Predicate D) :=
  descriptor.all.filter (fun value => value ∈ descriptor.anyValues)

/-- The kinds that are constrained: each required value claims its kind once, and
each group of alternatives claims the kind of its first value once. -/
def claims (descriptor : Descriptor D) : List D.Kind :=
  descriptor.all.map Predicate.kind ++
    descriptor.any.filterMap (fun group => group.head?.map Predicate.kind)

/-- The values whose kind is claimed more than once, required ones first. -/
def contestedValues (descriptor : Descriptor D) : List (Predicate D) :=
  (descriptor.all ++ descriptor.anyValues).filter
    (fun value => 1 < descriptor.claims.count value.kind)

/-- The first fault of the descriptor, if it has any. -/
def fault? (descriptor : Descriptor D) : Option (MatchErrorKind × List (Predicate D)) :=
  if !descriptor.mixedValues.isEmpty then
    some (.conflictingAnyTypes, descriptor.mixedValues)
  else if !(repeated descriptor.anyValues).isEmpty then
    some (.duplicateAnyValues, repeated descriptor.anyValues)
  else if !descriptor.sharedValues.isEmpty then
    some (.duplicateAnyAllValues, descriptor.sharedValues)
  else if !descriptor.contestedValues.isEmpty then
    some (.duplicateMatchTypes, descriptor.contestedValues)
  else none

/-- The descriptor itself if it is well formed, and else its first fault. -/
def validate (descriptor : Descriptor D) : Except (MatchError D) (Descriptor D) :=
  match descriptor.fault? with
  | none => .ok descriptor
  | some (kind, predicates) => .error ⟨kind, predicates, descriptor.origins⟩

end Descriptor

end RuleMachine
