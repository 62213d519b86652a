import RuleMachine.Row.Basic

/-! # Overrides

An overriding row takes the place of the most recent earlier row that describes
the same rule. It needs such a row, and no later row from another rule list may
describe the same rule, for that one cannot have been meant.
-/

namespace RuleMachine

namespace Row

variable {D : Domain}

/-- Whether a later row describes the rule that an override is for, although it
was declared elsewhere and overrides nothing. -/
def isMisplacedFor (row later : Row D) : Bool :=
  !later.overrides && decide (later.group ≠ row.group) && decide (later.key = row.key)

/-- Take one more row into account: the rows standing, newest first, and the
error if the row is an override that cannot be carried out. -/
def settle (standing : List (Row D)) (row : Row D) (later : List (Row D)) :
    List (Row D) × List (BuildError D) :=
  if !row.overrides then (row :: standing, [])
  else match later.filter row.isMisplacedFor with
    | [] =>
      if standing.any (fun other => other.key = row.key) then
        (row :: standing.eraseP (fun other => other.key = row.key), [])
      else (standing, [.nothingToOverride row.summary])
    | misplaced => (standing, [.overrideOutOfOrder row.summary (misplaced.map summary)])

/-- Carry out the overrides among rows that follow on those standing, newest
first. -/
def reconcileFrom (standing : List (Row D)) : List (Row D) → List (Row D) × List (BuildError D)
  | [] => (standing.reverse, [])
  | row :: later =>
    let (standing, errors) := settle standing row later
    let (kept, more) := reconcileFrom standing later
    (kept, errors ++ more)

/-- Carry out all overrides: the rows that remain, in the order of declaration,
and an error for every override that has nothing to replace. -/
def reconcile (rows : List (Row D)) : List (Row D) × List (BuildError D) :=
  reconcileFrom [] rows

end Row

end RuleMachine
