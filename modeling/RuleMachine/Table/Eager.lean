import RuleMachine.Predicate.World
import RuleMachine.Repetition
import RuleMachine.Table.Selection

/-! # Eager resolution

Every row is tried on every set of the closed world over the kinds that any row
mentions. For each state and event the rows contend for every set: the row of the
highest rank wins it. Rows that share the highest rank cannot be told apart, and
all such ties are reported together.
-/

namespace RuleMachine

namespace Eager

variable {D : Domain}

structure Contender (D : Domain) where
  row : Row D
  concrete : List (PredicateSet D)

def Contender.ofRow (row : Row D) : Contender D :=
  ⟨row, row.descriptor.concreteSets⟩

/-- The best rank at which the row accepts a set, if it does. A set can be reached
through several concrete sets of one row. -/
def Contender.bestRank (contender : Contender D) (set : PredicateSet D) : Option Nat :=
  (Descriptor.ranksAmong contender.concrete set).max?

/-- The contest for one set: the highest rank so far and the rows that have it, in
the order of declaration. -/
structure Contest (D : Domain) where
  rank : Nat
  holders : List (Row D)

def Contest.vacant : Contest D := ⟨0, []⟩

/-- A row enters with its rank. A higher rank displaces all holders, an equal one
joins them. -/
def Contest.enter (contest : Contest D) (rank : Nat) (row : Row D) : Contest D :=
  if contest.holders.isEmpty || decide (contest.rank < rank) then ⟨rank, [row]⟩
  else if contest.rank = rank then { contest with holders := contest.holders ++ [row] }
  else contest

/-- A contender enters a contest if it accepts the set. -/
def Contender.contend (set : PredicateSet D) (contest : Contest D)
    (contender : Contender D) : Contest D :=
  match contender.bestRank set with
  | none => contest
  | some rank => contest.enter rank contender.row

def contest (contenders : List (Contender D)) (set : PredicateSet D) : Contest D :=
  contenders.foldl (Contender.contend set) .vacant

/-- A key that somebody contends for, and the rows of the highest rank. -/
structure Slot (D : Domain) where
  key : TableKey D
  holders : List (Row D)

/-- The closed world over the kinds that any of the rows mentions. -/
def pool (rows : List (Row D)) : PredicateFamily D :=
  Vocabulary.world (KindSet.ofList (rows.flatMap (fun row => row.descriptor.kinds.toList)))

/-- The states and events that rows are for, in the order of the first row. -/
def subjects (rows : List (Row D)) : List (D.State × D.Event) :=
  distinct (rows.map (fun row => (row.state, row.event)))

/-- The rows for a state and an event, ready to contend. -/
def contendersFor (rows : List (Row D)) (state : D.State) (event : D.Event) :
    List (Contender D) :=
  (rows.filter (fun row => row.state = state ∧ row.event = event)).map Contender.ofRow

/-- The sets of a pool that contenders for a state and an event reach, each with
the rows of the highest rank. -/
def slotsAmong (pool : List (PredicateSet D)) (contenders : List (Contender D))
    (state : D.State) (event : D.Event) : List (Slot D) :=
  pool.filterMap fun set =>
    match (contest contenders set).holders with
    | [] => none
    | holders => some ⟨⟨state, event, set⟩, holders⟩

def slots (rows : List (Row D)) : List (Slot D) :=
  let pool := (pool rows).toList
  (subjects rows).flatMap fun (state, event) =>
    slotsAmong pool (contendersFor rows state event) state event

/-- Clashes are reported by state name, then event name, then predicates. -/
def clashLe (first second : ImplicitClash D) : Bool :=
  (compareLex (compareOn ImplicitClash.state)
    (compareLex (compareOn ImplicitClash.event) (compareOn ImplicitClash.predicates))
    first second).isLE

/-- The slots that several rows hold, in the order of the report. -/
def ties (slots : List (Slot D)) : List (ImplicitClash D) :=
  ((slots.filter (fun slot => 1 < slot.holders.length)).map
    (fun slot => slot.key.clash slot.holders)).mergeSort clashLe

def winners (slots : List (Slot D)) : Selection D :=
  slots.filterMap (fun slot => slot.holders.head?.map (fun row => (slot.key, row)))

/-- Select the most specific row for every key, if there are no ties. -/
def select (rows : List (Row D)) : Checked (BuildError D) (Selection D) :=
  let slots := slots rows
  match ties slots with
  | [] => .ok (winners slots)
  | clashes => .error [.implicitClashes clashes]

end Eager

end RuleMachine
