import RuleMachine.Predicate.Basic

/-! # Grouping by kind

Lists of predicates can be thinned to one value per kind or sorted into one
group per kind. Neither operation reorders the values of a kind.
-/

namespace RuleMachine

namespace Predicate

variable {V : Vocabulary}

/-- The first value of each kind that is not among the kinds already seen. -/
def uniqueByKindFrom (seen : List V.Kind) : List (Predicate V) → List (Predicate V)
  | [] => []
  | value :: rest =>
    if value.kind ∈ seen then uniqueByKindFrom seen rest
    else value :: uniqueByKindFrom (value.kind :: seen) rest

/-- The first value of each kind, in the order of the list. -/
def uniqueByKind (values : List (Predicate V)) : List (Predicate V) :=
  uniqueByKindFrom [] values

/-- Put a value at the end of its kind's group, opening the group in kind order
if there is none yet. -/
def addToGroups (value : Predicate V) :
    List (V.Kind × List (Predicate V)) → List (V.Kind × List (Predicate V))
  | [] => [(value.kind, [value])]
  | (kind, group) :: rest =>
    match compare value.kind kind with
    | .lt => (value.kind, [value]) :: (kind, group) :: rest
    | .eq => (kind, group ++ [value]) :: rest
    | .gt => (kind, group) :: addToGroups value rest

/-- One group per kind, groups in kind order and values in list order. -/
def groupByKind (values : List (Predicate V)) : List (V.Kind × List (Predicate V)) :=
  values.foldl (fun groups value => addToGroups value groups) []

end Predicate

end RuleMachine
