import RuleMachine.Predicate.Set
import RuleMachine.Proofs.SortedSet
import RuleMachine.Scenario.Kinds

/-! # The order of predicates

Predicates stand in one line, in which only the same value of the same kind ties and the values
of a kind stand together. That rests on the identities of the kinds: their names may agree, in
full or as shown. Sets of predicates inherit the line.
-/

namespace RuleMachine

namespace Predicate

variable {V : Vocabulary}

/-- Two predicates tie when their kinds are the same and, as values of that kind, so are their
values. -/
theorem compare_eq_iff {first second : Predicate V} : compare first second = .eq ↔
    ∃ hkind : second.kind = first.kind, first.value = hkind ▸ second.value := by
  rw [Std.LawfulEqCmp.compare_eq_iff_eq]
  obtain ⟨firstKind, firstValue⟩ := first
  obtain ⟨secondKind, secondValue⟩ := second
  constructor
  · intro heq
    cases heq
    exact ⟨rfl, rfl⟩
  · rintro ⟨hkind, hvalue⟩
    cases hkind
    cases hvalue
    rfl

/-- What stands between values of one kind is of that kind. -/
theorem kind_eq_of_between {low middle high : Predicate V} (hkind : low.kind = high.kind)
    (hlow : (compare low middle).isLE) (hhigh : (compare middle high).isLE) :
    middle.kind = low.kind := by
  by_contra hne
  rw [compare_of_ne (Ne.symm hne)] at hlow
  rw [compare_of_ne (hkind ▸ hne), ← hkind] at hhigh
  -- The kinds are below each other, so they tie.
  have heq : compare low.kind middle.kind = .eq :=
    Std.OrientedCmp.isLE_antisymm hlow hhigh
  exact hne (Std.LawfulEqCmp.eq_of_compare heq).symm

/-- Predicates are in a linear order, as their kinds are. They tie just if they are the same
value of the same kind, and the values of a kind stand together, whatever the kinds are called.
So a set is determined by the values put into it, in whichever way it is put together, and its
list is the strictly ascending one of these values; an insertion reports just the values that
are new. Sets are in a linear order themselves: the lexicographic one of their lists, in which
only sets with the same members tie. -/
theorem order_is_lawful (V : Vocabulary) :
    IsLinear (compare : V.Kind → V.Kind → Ordering) ∧
    IsLinear (compare : Predicate V → Predicate V → Ordering) ∧
    (∀ first second : Predicate V, compare first second = .eq ↔
      ∃ hkind : second.kind = first.kind, first.value = hkind ▸ second.value) ∧
    (∀ low middle high : Predicate V, low.kind = high.kind → (compare low middle).isLE →
      (compare middle high).isLE → middle.kind = low.kind) ∧
    (∀ first second : Assembly (Predicate V),
      first.set = second.set ↔ ∀ value, value ∈ first.values ↔ value ∈ second.values) ∧
    (∀ assembly : Assembly (Predicate V),
      assembly.set.toList.Pairwise (fun low high => compare low high = .lt) ∧
      ∀ value, value ∈ assembly.set.toList ↔ value ∈ assembly.values) ∧
    (∀ (set : PredicateSet V) (value : Predicate V),
      (set.insertNew value).1 = true ↔ value ∉ set) ∧
    IsLinear (compare : PredicateSet V → PredicateSet V → Ordering) ∧
    ∀ first second : PredicateSet V,
      (compare first second = .lt ↔
        List.Lex (fun low high => compare low high = .lt) first.toList second.toList) ∧
      (compare first second = .eq ↔ ∀ value, value ∈ first ↔ value ∈ second) := by
  refine ⟨isLinear_compare, isLinear_compare, fun _ _ => compare_eq_iff, ?_, ?_, ?_, ?_,
    isLinear_compare, ?_⟩
  · intro low middle high hkind hlow hhigh
    exact kind_eq_of_between hkind hlow hhigh
  · intro first second
    exact Assembly.set_eq_iff
  · intro assembly
    exact ⟨assembly.set.ascending, fun value => Assembly.mem_set⟩
  · intro set value
    exact SortedSet.insertNew_fst_iff
  · intro first second
    exact ⟨compare_eq_lt_iff_lex, SortedSet.compare_eq_iff_mem⟩

end Predicate

/-! ## A sample -/

namespace Scenario

theorem kindTable_has_modes : 12 < kindTable.length := by decide

/-- A mode of one sort or the other. Both sorts are shown by the same name. -/
def alphaMode (position : Fin 2) : Predicate vocabulary :=
  ⟨(⟨⟨11, Nat.lt_of_succ_lt kindTable_has_modes⟩⟩ : Kind), position⟩

@[inherit_doc alphaMode]
def zetaMode (position : Fin 2) : Predicate vocabulary :=
  ⟨(⟨⟨12, kindTable_has_modes⟩⟩ : Kind), position⟩

end Scenario

/-- Modes that look alike do not tie, and a mode that stands between modes of one sort is of that
sort. Inserting one into a set of the other makes the set that a union with repetitions makes. -/
theorem Predicate.order_is_lawful_modes :
    (Scenario.alphaMode 0).text = (Scenario.zetaMode 0).text ∧
    compare (Scenario.alphaMode 0) (Scenario.zetaMode 0) ≠ .eq ∧
    (compare (Scenario.alphaMode 0) (Scenario.alphaMode 1)).isLE ∧
    (Scenario.alphaMode 1).kind = (Scenario.alphaMode 0).kind ∧
    (Assembly.insert (Scenario.alphaMode 0) (.collect [Scenario.zetaMode 0])).set =
      (Assembly.union (.collect [Scenario.zetaMode 0, Scenario.alphaMode 0])
        (.collect [Scenario.zetaMode 0])).set := by
  obtain ⟨-, -, hties, hbetween, hsets, -⟩ := order_is_lawful Scenario.vocabulary
  refine ⟨rfl, ?_, by decide, ?_, ?_⟩
  · intro htie
    obtain ⟨hkind, -⟩ := (hties _ _).mp htie
    exact absurd hkind (by decide)
  · exact hbetween _ _ (Scenario.alphaMode 1) rfl (by decide) (by decide)
  · rw [hsets]
    simp [Assembly.values]

end RuleMachine
