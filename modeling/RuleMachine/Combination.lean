/-! # Choosing from lists

A combination takes one item of every group. Combinations are built up group by group, so
that they come in the lexicographic order of the chosen positions, the first position
varying slowest.
-/

namespace RuleMachine

variable {α : Type}

/-- Every list with every item of the group at its end. -/
def lengthen (lists : List (List α)) (group : List α) : List (List α) :=
  lists.flatMap fun list => group.map fun item => list ++ [item]

/-- The ways to pick one element from every group, where an empty list of groups
offers nothing to pick from and so no way at all. -/
def combinations (groups : List (List α)) : List (List α) :=
  if groups.isEmpty then [] else groups.foldl lengthen [[]]

end RuleMachine
