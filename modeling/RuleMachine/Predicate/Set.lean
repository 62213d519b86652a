import RuleMachine.Positions
import RuleMachine.Predicate.Basic

/-! # Predicate sets

Sets of predicates are what events are dispatched with and what table entries
are stored under. A set may hold several values of one kind: dispatch accepts
whatever it is given, and only declarations have to be well formed.
-/

namespace RuleMachine

abbrev KindSet (V : Vocabulary) := SortedSet V.Kind

abbrev PredicateSet (V : Vocabulary) := SortedSet (Predicate V)

abbrev PredicateFamily (V : Vocabulary) := SortedSet (PredicateSet V)

variable {V : Vocabulary}

def KindSet.ofList (kinds : List V.Kind) : KindSet V :=
  SortedSet.ofList kinds

def PredicateFamily.ofList (sets : List (PredicateSet V)) : PredicateFamily V :=
  SortedSet.ofList sets

namespace PredicateSet

def ofList (values : List (Predicate V)) : PredicateSet V :=
  SortedSet.ofList values

def kinds (set : PredicateSet V) : KindSet V :=
  KindSet.ofList (set.toList.map Predicate.kind)

def hasUniqueKinds (set : PredicateSet V) : Bool :=
  set.kinds.size == set.size

def kindsDisjoint (first second : PredicateSet V) : Bool :=
  first.toList.all (fun value => second.toList.all (fun other => other.kind ≠ value.kind))

def sharesValue (first second : PredicateSet V) : Bool :=
  !first.isDisjoint second

/-- Every subset, larger ones first. Subsets of one size follow the positions of
their elements lexicographically. -/
def subsetsBySize (set : PredicateSet V) : List (PredicateSet V) :=
  (List.range (set.size + 1)).reverse.flatMap fun count =>
    (indexChoices set.toList.length count).map fun positions => ofList (positions.pick set.toList)

/-- The values between braces, in their order. -/
def text (set : PredicateSet V) : String :=
  "\x7b" ++ ", ".intercalate (set.toList.map Predicate.text) ++ "\x7d"

end PredicateSet

end RuleMachine
