import RuleMachine.Predicate.Vocabulary
import RuleMachine.SortedSet

/-! # Predicates

A predicate is a value together with its kind. Predicates are ordered kind by
kind, and within a kind as the kind orders its values, so the predicates of one
kind stand together in every sorted list. The order is linear, and it finds two
predicates equal exactly when they are the same value of the same kind, also
where two kinds share a name.
-/

namespace RuleMachine

structure Predicate (V : Vocabulary) where
  kind : V.Kind
  value : V.Value kind
deriving DecidableEq

namespace Predicate

variable {V : Vocabulary}

/-- How the value stands to another one of the same kind. The answer across
kinds is never consulted: there the kinds decide. -/
def compareValue (first second : Predicate V) : Ordering :=
  if h : second.kind = first.kind then
    V.compareValue first.kind first.value (h ▸ second.value)
  else .lt

instance : Ord (Predicate V) :=
  ⟨fun first second => (compare first.kind second.kind).then (first.compareValue second)⟩

/-- Within a kind the values decide. -/
theorem compare_mk (kind : V.Kind) (first second : V.Value kind) :
    compare (⟨kind, first⟩ : Predicate V) ⟨kind, second⟩ = V.compareValue kind first second := by
  have hkind : compare kind kind = .eq := Std.ReflCmp.compare_self
  change (compare kind kind).then _ = _
  rw [hkind, Ordering.eq_then, compareValue, dif_pos rfl]

/-- Across kinds the kinds decide. -/
theorem compare_of_ne {first second : Predicate V} (h : first.kind ≠ second.kind) :
    compare first second = compare first.kind second.kind := by
  change (compare first.kind second.kind).then _ = _
  cases hkind : compare first.kind second.kind with
  | lt => rfl
  | eq => exact absurd (Std.LawfulEqCmp.eq_of_compare hkind) h
  | gt => rfl

private theorem swap_compare (first second : Predicate V) :
    compare first second = (compare second first).swap := by
  obtain ⟨firstKind, firstValue⟩ := first
  obtain ⟨secondKind, secondValue⟩ := second
  if h : firstKind = secondKind then
    subst h
    rw [compare_mk, compare_mk]
    exact Std.OrientedCmp.eq_swap
  else
    rw [compare_of_ne h, compare_of_ne (Ne.symm h)]
    exact Std.OrientedCmp.eq_swap

private theorem compare_isLE_trans {first second third : Predicate V}
    (hfirst : (compare first second).isLE) (hsecond : (compare second third).isLE) :
    (compare first third).isLE := by
  obtain ⟨firstKind, firstValue⟩ := first
  obtain ⟨secondKind, secondValue⟩ := second
  obtain ⟨thirdKind, thirdValue⟩ := third
  if hleft : firstKind = secondKind then
    subst hleft
    if hright : firstKind = thirdKind then
      subst hright
      rw [compare_mk] at *
      exact Std.TransCmp.isLE_trans hfirst hsecond
    else
      rw [compare_of_ne hright] at *
      exact hsecond
  else if hright : secondKind = thirdKind then
    subst hright
    rw [compare_of_ne hleft] at *
    exact hfirst
  else
    rw [compare_of_ne hleft] at hfirst
    rw [compare_of_ne hright] at hsecond
    have htrans := Std.TransCmp.isLE_trans hfirst hsecond
    if houter : firstKind = thirdKind then
      subst houter
      have hback := Std.OrientedCmp.isGE_iff_isLE.mpr hsecond
      have heq := Std.OrientedCmp.isLE_antisymm hfirst (Std.OrientedCmp.isGE_iff_isLE.mp hback)
      exact absurd (Std.LawfulEqCmp.eq_of_compare heq) hleft
    else
      rw [compare_of_ne houter]
      exact htrans

instance : Std.TransOrd (Predicate V) where
  eq_swap := swap_compare _ _
  isLE_trans := compare_isLE_trans

instance : Std.LawfulEqOrd (Predicate V) where
  eq_of_compare {first second} h := by
    obtain ⟨firstKind, firstValue⟩ := first
    obtain ⟨secondKind, secondValue⟩ := second
    if hkind : firstKind = secondKind then
      subst hkind
      rw [compare_mk] at h
      rw [Std.LawfulEqCmp.eq_of_compare h]
    else
      rw [compare_of_ne hkind] at h
      exact absurd (Std.LawfulEqCmp.eq_of_compare h) hkind

/-- A predicate as messages show it: the short name of its kind, then its value. -/
def text (predicate : Predicate V) : String :=
  s!"{V.shortName predicate.kind}.{V.valueText predicate.kind predicate.value}"

end Predicate

namespace Vocabulary

variable {V : Vocabulary}

/-- The closed world of a kind, as predicates. -/
def cases (V : Vocabulary) (kind : V.Kind) : List (Predicate V) :=
  (V.caseList kind).map (fun value => ⟨kind, value⟩)

end Vocabulary

end RuleMachine
