/-! # Predicate vocabularies

A vocabulary says which kinds of predicate there are and which values each kind
has. Kinds have identities of their own: two kinds may carry the same name and
stay different. They are ordered by their full names, and by identity where the
names agree.
-/

namespace RuleMachine

/-- The kinds of predicate that can be matched, and the values of each kind. -/
structure Vocabulary where
  Kind : Type
  Value : Kind → Type
  /-- The name of a kind with its path, such as `garden::Weather`. -/
  fullName : Kind → String
  /-- The values that make up the closed world of a kind, as its author lists them. -/
  caseList : (kind : Kind) → List (Value kind)
  valueText : (kind : Kind) → Value kind → String
  compareIdentity : Kind → Kind → Ordering
  compareValue : (kind : Kind) → Value kind → Value kind → Ordering
  identityTrans : Std.TransCmp compareIdentity
  identityLawful : Std.LawfulEqCmp compareIdentity
  valueTrans : ∀ kind, Std.TransCmp (compareValue kind)
  valueLawful : ∀ kind, Std.LawfulEqCmp (compareValue kind)

namespace Vocabulary

variable (V : Vocabulary)

instance : Std.TransCmp V.compareIdentity := V.identityTrans
instance : Std.LawfulEqCmp V.compareIdentity := V.identityLawful
instance (kind : V.Kind) : Std.TransCmp (V.compareValue kind) := V.valueTrans kind
instance (kind : V.Kind) : Std.LawfulEqCmp (V.compareValue kind) := V.valueLawful kind

/-- Kinds are the same when their identities are, whatever their names. -/
instance : DecidableEq V.Kind := fun first second =>
  if h : V.compareIdentity first second = .eq then .isTrue (Std.LawfulEqCmp.eq_of_compare h)
  else .isFalse (fun heq => h (heq ▸ Std.ReflCmp.compare_self))

instance (kind : V.Kind) : DecidableEq (V.Value kind) := fun first second =>
  if h : V.compareValue kind first second = .eq then .isTrue (Std.LawfulEqCmp.eq_of_compare h)
  else .isFalse (fun heq => h (heq ▸ Std.ReflCmp.compare_self))

/-- Kinds stand in the order of their full names; identity separates namesakes. -/
def compareKind (first second : V.Kind) : Ordering :=
  compareLex (compareOn V.fullName) V.compareIdentity first second

instance : Ord V.Kind := ⟨V.compareKind⟩

instance : Std.TransOrd V.Kind :=
  inferInstanceAs (Std.TransCmp (compareLex (compareOn V.fullName) V.compareIdentity))

instance : Std.LawfulEqOrd V.Kind where
  eq_of_compare h := Std.LawfulEqCmp.eq_of_compare (Ordering.then_eq_eq.mp h).2

/-- The part of a path after its last `::`. -/
def lastSegment : (segment path : List Char) → List Char
  | segment, [] => segment.reverse
  | _, ':' :: ':' :: path => lastSegment [] path
  | segment, letter :: path => lastSegment (letter :: segment) path

/-- A kind's name without its path and without its type arguments. -/
def shortName (kind : V.Kind) : String :=
  String.ofList (lastSegment [] ((V.fullName kind).toList.takeWhile (fun letter => letter ≠ '<')))

end Vocabulary

end RuleMachine
