import RuleMachine.Match.Descriptor

/-! # Match keys

Two descriptors describe the same rule when they differ only in the order of
their groups and values. The key of a descriptor forgets that order. Of a
condition it keeps the presence alone, since checks cannot be compared.
-/

namespace RuleMachine

structure MatchKey (D : Domain) where
  any : PredicateFamily D
  all : PredicateSet D
  conditional : Bool
deriving DecidableEq

namespace MatchKey

variable {D : Domain}

/-- Keys compare by their groups, then by their required values; at last a key
without a condition comes first. -/
instance : Ord (MatchKey D) :=
  ⟨compareLex (compareOn MatchKey.any)
    (compareLex (compareOn MatchKey.all) (compareOn MatchKey.conditional))⟩

end MatchKey

def Descriptor.key {D : Domain} (descriptor : Descriptor D) : MatchKey D where
  any := PredicateFamily.ofList (descriptor.any.map PredicateSet.ofList)
  all := PredicateSet.ofList descriptor.all
  conditional := descriptor.condition.isPresent

end RuleMachine
