/-! # Repeated items

Lists in which items may recur: the distinct items in the order of their first
occurrence, and the items that recur.
-/

namespace RuleMachine

variable {α : Type}

/-- Append the items that are not in the list yet, each once. -/
def addMissing [DecidableEq α] (known : List α) : List α → List α
  | [] => known
  | item :: rest => addMissing (if item ∈ known then known else known ++ [item]) rest

/-- Every item once, in the order of first occurrence. -/
def distinct [DecidableEq α] (items : List α) : List α :=
  addMissing [] items

/-- The items of the list that were seen before, each once, after those already
known to recur. -/
def repeatedFrom [DecidableEq α] (seen known : List α) : List α → List α
  | [] => known
  | item :: rest =>
    if item ∈ seen then
      repeatedFrom seen (if item ∈ known then known else known ++ [item]) rest
    else repeatedFrom (item :: seen) known rest

/-- The items that occur more than once, in the order of their first recurrence. -/
def repeated [DecidableEq α] (items : List α) : List α :=
  repeatedFrom [] [] items

end RuleMachine
