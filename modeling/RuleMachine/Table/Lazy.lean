import RuleMachine.Table.Selection

/-! # Lazy resolution

Every row is stored under its own concrete sets. Two rows stored under one key
clash when they lead to different states and are duplicates when they lead to the
same one. Rows that agree on state, event and next state are also duplicates when
they have sets of one size which either share a value or have no kind in common:
then one supplied set can call for both with nothing to prefer.
-/

namespace RuleMachine

namespace Lazy

variable {D : Domain}

/-- A row with its position among all rows and the sets under which it is stored. -/
structure Entry (D : Domain) where
  position : Nat
  row : Row D
  sets : List (PredicateSet D)

/-- The sets under which a row is stored. A row that names no predicates is stored
under the empty set. -/
def storedSets (row : Row D) : List (PredicateSet D) :=
  match row.descriptor.concreteSets with
  | [] => [∅]
  | sets => sets

def entries (rows : List (Row D)) : List (Entry D) :=
  rows.zipIdx.map (fun (row, position) => ⟨position, row, storedSets row⟩)

/-- Put a pair of duplicates into the first group that has the earlier entry, or
open a group for it. -/
def addPair (earlier later : Entry D) : List (List (Entry D)) → List (List (Entry D))
  | [] => [[earlier, later]]
  | group :: rest =>
    if group.any (fun entry => entry.position = earlier.position) then
      (if group.any (fun entry => entry.position = later.position) then group
        else group ++ [later]) :: rest
    else group :: addPair earlier later rest

/-- Put a later entry into the clash for a key, which starts with the owner of the
key. -/
def addClash (key : TableKey D) (owner later : Entry D) :
    List (TableKey D × List (Entry D)) → List (TableKey D × List (Entry D))
  | [] => [(key, [owner, later])]
  | (other, tied) :: rest =>
    if other = key then (other, tied ++ [later]) :: rest
    else (other, tied) :: addClash key owner later rest

/-- What is stored so far: the owner of each key, which is the first entry stored
under it, and the conflicts found. -/
structure Store (D : Domain) where
  owners : List (TableKey D × Entry D)
  clashes : List (TableKey D × List (Entry D))
  duplicates : List (List (Entry D))

def Store.put (entry : Entry D) (store : Store D) (set : PredicateSet D) : Store D :=
  let key : TableKey D := ⟨entry.row.state, entry.row.event, set⟩
  match store.owners.find? (fun owned => owned.1 = key) with
  | none => { store with owners := store.owners ++ [(key, entry)] }
  | some (_, owner) =>
    if owner.row.next = entry.row.next then
      { store with duplicates := addPair owner entry store.duplicates }
    else { store with clashes := addClash key owner entry store.clashes }

def storeAll (entries : List (Entry D)) : Store D :=
  entries.foldl (fun store entry => entry.sets.foldl (Store.put entry) store) ⟨[], [], []⟩

/-- Whether two non-empty sets of one size could be called for by one supplied
set with nothing to prefer. -/
def rivals (first second : PredicateSet D) : Bool :=
  !first.isEmpty && first.size == second.size &&
    (PredicateSet.kindsDisjoint first second || PredicateSet.sharesValue first second)

/-- Whether two entries that are not the same rule nevertheless amount to it. -/
def equivalent (earlier later : Entry D) : Bool :=
  decide (earlier.row.state = later.row.state) && decide (earlier.row.event = later.row.event) &&
    decide (earlier.row.next = later.row.next) && decide (earlier.row.key ≠ later.row.key) &&
    earlier.sets.any (fun first => later.sets.any (fun second => rivals first second))

/-- The equivalent pairs of entries, ordered by the later one and then by the
earlier one. -/
def equivalentPairs (entries : List (Entry D)) : List (Entry D × Entry D) :=
  entries.flatMap fun later =>
    ((entries.filter (fun earlier => earlier.position < later.position)).filter
      (fun earlier => equivalent earlier later)).map (fun earlier => (earlier, later))

/-- The groups of duplicates: pairs that met under a key, then equivalent pairs. -/
def duplicateGroups (entries : List (Entry D)) : List (List (Entry D)) :=
  (equivalentPairs entries).foldl (fun groups (earlier, later) => addPair earlier later groups)
    (storeAll entries).duplicates

/-- Select the row that each key is stored for, if there are no conflicts. -/
def select (rows : List (Row D)) : Checked (BuildError D) (Selection D) :=
  let entries := entries rows
  let store := storeAll entries
  let duplicates := (duplicateGroups entries).map
    (fun group => group.map (fun entry => entry.row.summary))
  let clashes := store.clashes.map
    (fun (key, tied) => key.clash (tied.map (fun entry => entry.row)))
  let errors :=
    (if duplicates.isEmpty then [] else [.duplicates duplicates]) ++
      (if clashes.isEmpty then [] else [.implicitClashes clashes])
  match errors with
  | [] => .ok (store.owners.map (fun (key, entry) => (key, entry.row)))
  | errors => .error errors

end Lazy

end RuleMachine
