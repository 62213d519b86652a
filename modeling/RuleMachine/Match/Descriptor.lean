import RuleMachine.Combination
import RuleMachine.Condition
import RuleMachine.Domain
import RuleMachine.Origin
import RuleMachine.Predicate.Set

/-! # Match descriptors

A descriptor says when a rule applies: one value out of every group of
alternatives, all values of a list, and possibly a condition. What it accepts is
given by its concrete sets, one for every choice of alternatives; the size of
such a set is the rank with which it is accepted, so that a rule which says more
outranks one that says less.
-/

namespace RuleMachine

/-- One value of every group in `any`, every value in `all`, and a condition. No
group is empty, so a descriptor never forbids everything. -/
structure Descriptor (D : Domain) where
  any : List (List (Predicate D))
  all : List (Predicate D)
  condition : Condition D.Check
  /-- The declarations that contributed, outermost first. -/
  origins : List Origin
  nonempty_of_mem_any : ∀ group ∈ any, group ≠ []

namespace Descriptor

variable {D : Domain}

/-- The descriptor that asks for nothing and was declared nowhere. -/
def unconstrained : Descriptor D :=
  ⟨[], [], .none, [], fun _ hgroup => absurd hgroup List.not_mem_nil⟩

instance : Inhabited (Descriptor D) := ⟨unconstrained⟩

/-- The descriptor that asks for nothing, as declared at some place. -/
def declaredAt (origin : Origin) : Descriptor D :=
  { unconstrained with origins := [origin] }

/-- Ask for one of the given values. No values ask for nothing. -/
def withAny (descriptor : Descriptor D) (values : List (Predicate D)) : Descriptor D :=
  if h : values = [] then descriptor
  else { descriptor with
    any := descriptor.any ++ [values]
    nonempty_of_mem_any := fun group hgroup => by
      cases List.mem_append.mp hgroup with
      | inl hold => exact descriptor.nonempty_of_mem_any group hold
      | inr hnew => exact List.mem_singleton.mp hnew ▸ h }

def withAll (descriptor : Descriptor D) (values : List (Predicate D)) : Descriptor D :=
  { descriptor with all := descriptor.all ++ values }

/-- Ask for a condition too, after those already there. -/
def withCondition (descriptor : Descriptor D) (condition : Condition D.Check) : Descriptor D :=
  { descriptor with condition := descriptor.condition.and condition }

/-- Everything that either descriptor asks for, the outer one first. -/
def combine (outer inner : Descriptor D) : Descriptor D where
  any := outer.any ++ inner.any
  all := outer.all ++ inner.all
  condition := outer.condition.and inner.condition
  origins := outer.origins ++ inner.origins
  nonempty_of_mem_any group hgroup := by
    cases List.mem_append.mp hgroup with
    | inl houter => exact outer.nonempty_of_mem_any group houter
    | inr hinner => exact inner.nonempty_of_mem_any group hinner

def anyValues (descriptor : Descriptor D) : List (Predicate D) :=
  descriptor.any.flatten

/-- Whether the descriptor asks for nothing, not even a condition. -/
def isEmpty (descriptor : Descriptor D) : Bool :=
  descriptor.any.isEmpty && descriptor.all.isEmpty && !descriptor.condition.isPresent

def kinds (descriptor : Descriptor D) : KindSet D :=
  KindSet.ofList ((descriptor.anyValues ++ descriptor.all).map Predicate.kind)

/-- The sets that satisfy the descriptor with nothing to spare: one value from
each group together with the required ones, a set for every choice. A descriptor
that names no predicates has none. -/
def concreteSets (descriptor : Descriptor D) : List (PredicateSet D) :=
  if descriptor.any.isEmpty then
    if descriptor.all.isEmpty then [] else [PredicateSet.ofList descriptor.all]
  else (combinations descriptor.any).map
    (fun choice => PredicateSet.ofList (choice ++ descriptor.all))

/-- The ranks at which concrete sets are accepted within a set: the sizes of
those it contains, and rank zero if nothing is asked for. -/
def ranksAmong (concrete : List (PredicateSet D)) (set : PredicateSet D) : List Nat :=
  if concrete.isEmpty then [0]
  else (concrete.filter (fun choice => choice.isSubset set)).map SortedSet.size

def ranksIn (descriptor : Descriptor D) (set : PredicateSet D) : List Nat :=
  ranksAmong descriptor.concreteSets set

/-- Every set of a pool that the descriptor accepts, once for every rank at which
it does. -/
def rankings (descriptor : Descriptor D) (pool : List (PredicateSet D)) :
    List (PredicateSet D × Nat) :=
  pool.flatMap (fun set => (descriptor.ranksIn set).map (fun rank => (set, rank)))

def groupText (group : List (Predicate D)) : String :=
  "any(" ++ " | ".intercalate (group.map Predicate.text) ++ ")"

/-- What the descriptor asks for, as messages show it part by part. -/
def parts (descriptor : Descriptor D) : List String :=
  let required :=
    if descriptor.all.isEmpty then []
    else ["all(" ++ ", ".intercalate (descriptor.all.map Predicate.text) ++ ")"]
  let condition := if descriptor.condition.isPresent then ["condition"] else []
  descriptor.any.map groupText ++ required ++ condition

def text (descriptor : Descriptor D) : String :=
  if descriptor.isEmpty then "(unconditional)" else " & ".intercalate descriptor.parts

end Descriptor

end RuleMachine
