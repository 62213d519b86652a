/-! # Accumulating checks

A check either yields a value or all the errors it found. Independent checks are
run side by side: together they succeed when each does, and otherwise report the
errors of every one that failed, in order.
-/

namespace RuleMachine

/-- A value, or the errors that stand in its way. -/
abbrev Checked (ε α : Type) := Except (List ε) α

namespace Checked

variable {ε α : Type}

/-- Two checks side by side, the items of the first before those of the second. -/
def append : Checked ε (List α) → Checked ε (List α) → Checked ε (List α)
  | .ok first, .ok second => .ok (first ++ second)
  | .ok _, .error errors => .error errors
  | .error errors, .ok _ => .error errors
  | .error first, .error second => .error (first ++ second)

def gather : List (Checked ε (List α)) → Checked ε (List α)
  | [] => .ok []
  | check :: rest => append check (gather rest)

/-- The errors found, none if the check succeeded. -/
def errors : Checked ε α → List ε
  | .ok _ => []
  | .error errors => errors

end Checked

end RuleMachine
