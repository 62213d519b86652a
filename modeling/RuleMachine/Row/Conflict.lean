import RuleMachine.Checked
import RuleMachine.Row.Override

/-! # Conflicts between rows

Once overrides are carried out, no two rows may describe the same rule. Rows that
describe it and lead to one state are duplicates; rows that describe it and lead
to different states clash.
-/

namespace RuleMachine

namespace Row

variable {D : Domain}

/-- Rows filed by rule: the groups opened so far, and where the group of each rule is. -/
structure Filing (D : Domain) where
  positions : List (RuleKey D × Nat)
  groups : List (List (Row D))

namespace Filing

def empty : Filing D := ⟨[], []⟩

/-- Where the group of a rule is. A rule without one gets an empty group at the end. -/
def place (filing : Filing D) (rule : RuleKey D) : Nat × Filing D :=
  match filing.positions.lookup rule with
  | some position => (position, filing)
  | none =>
    (filing.groups.length,
      ⟨filing.positions ++ [(rule, filing.groups.length)], filing.groups ++ [[]]⟩)

def add (filing : Filing D) (row : Row D) : Filing D :=
  let (position, filing) := filing.place row.key
  { filing with groups := filing.groups.modify position (· ++ [row]) }

end Filing

/-- The rows of each rule, rules in the order of their first row. -/
def byRule (rows : List (Row D)) : List (List (Row D)) :=
  (rows.foldl Filing.add .empty).groups

/-- Put a row into the group whose first row has its next state, or into a new one at
the end. -/
def addByNext (row : Row D) : List (List (Row D)) → List (List (Row D))
  | [] => [[row]]
  | group :: rest =>
    if group.head?.map (fun first => first.next) = some row.next then (group ++ [row]) :: rest
    else group :: addByNext row rest

/-- Rows with the same next state, in the order of their first row. -/
def byNext (rows : List (Row D)) : List (List (Row D)) :=
  rows.foldl (fun groups row => addByNext row groups) []

/-- The groups of rows that say the same thing. -/
def duplicateGroups (rows : List (Row D)) : List (List (Row D)) :=
  ((byRule rows).flatMap byNext).filter (fun group => 1 < group.length)

/-- The groups of rows that differ in nothing but the next state. -/
def clashGroups (rows : List (Row D)) : List (List (Row D)) :=
  (byRule rows).filter (fun group => 1 < (byNext group).length)

/-- The conflicts among rows: at most one error for duplicates and one for clashes. -/
def conflicts (rows : List (Row D)) : List (BuildError D) :=
  let duplicates := (duplicateGroups rows).map (fun group => group.map summary)
  let clashes := (clashGroups rows).map (fun group => group.map summary)
  (if duplicates.isEmpty then [] else [.duplicates duplicates]) ++
    (if clashes.isEmpty then [] else [.clashes clashes])

/-- The rows that remain when overrides are carried out, if every override finds
its place and no conflict remains. -/
def validate (rows : List (Row D)) : Checked (BuildError D) (List (Row D)) :=
  let (kept, overrideErrors) := reconcile rows
  match overrideErrors ++ conflicts kept with
  | [] => .ok kept
  | errors => .error errors

end Row

end RuleMachine
