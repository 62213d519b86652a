import RuleMachine.Combination
import RuleMachine.Predicate.Set

/-! # The closed world

When predicates are resolved ahead of time, the values that count are those
which the kinds list as their cases. The closed world over some kinds holds one
set for every way to give each kind one of its cases.
-/

namespace RuleMachine

namespace Vocabulary

variable {V : Vocabulary}

/-- Every set with exactly one listed case of each kind. Without kinds this is
the empty set alone, so rules that name no predicates still have a place; a kind
without cases leaves no set at all. -/
def world (kinds : KindSet V) : PredicateFamily V :=
  if kinds.isEmpty then PredicateFamily.ofList [∅]
  else PredicateFamily.ofList ((combinations (kinds.toList.map V.cases)).map PredicateSet.ofList)

end Vocabulary

end RuleMachine
