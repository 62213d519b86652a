import Mathlib.Data.List.Basic
import RuleMachine.SortedSet

/-! # Laws of sorted sets

A set is determined by its members, whichever way it was put together: by inserting values one
by one, from lists in any order and with repetitions, or as a union of other sets. The order of
the values carries over to the sets, which compare as their lists do. An insertion sees
whether the value is new from where the search for it ends.
-/

namespace RuleMachine

variable {α : Type}

/-- A comparison that puts everything in one line, where nothing shares its place. -/
structure IsLinear (order : α → α → Ordering) : Prop where
  swap : ∀ first second, order second first = (order first second).swap
  trans : ∀ first second third, (order first second).isLE → (order second third).isLE →
    (order first third).isLE
  eq_iff : ∀ first second, order first second = .eq ↔ first = second

theorem isLinear_compare [Ord α] [Std.TransOrd α] [Std.LawfulEqOrd α] :
    IsLinear (compare : α → α → Ordering) where
  swap _ _ := Std.OrientedCmp.eq_swap
  trans _ _ _ := Std.TransCmp.isLE_trans
  eq_iff _ _ := Std.LawfulEqCmp.compare_eq_iff_eq

/-- Lists compare lexicographically. -/
theorem compare_eq_lt_iff_lex [Ord α] [Std.LawfulEqOrd α] {first second : List α} :
    compare first second = .lt ↔
      List.Lex (fun low high => compare low high = .lt) first second := by
  induction first generalizing second with
  | nil =>
      cases second with
      | nil => exact iff_of_false (by simp) (nofun)
      | cons => exact iff_of_true rfl .nil
  | cons low first ih =>
      cases second with
      | nil => exact iff_of_false (by simp) (nofun)
      | cons high second =>
          rw [List.compare_cons_cons, Ordering.then_eq_lt, List.cons_lex_cons_iff, ih,
            Std.LawfulEqCmp.compare_eq_iff_eq]

theorem ne_of_compare_gt [Ord α] [Std.LawfulEqOrd α] {first second : α}
    (h : compare first second = .gt) : first ≠ second := by
  intro heq
  have hrefl : compare second second = .eq := Std.ReflCmp.compare_self
  rw [heq, hrefl] at h
  cases h

namespace SortedSet

variable [Ord α] [Std.TransOrd α] [Std.LawfulEqOrd α]

/-- What is below the first value of an ascending list is below all of it. -/
theorem not_mem_of_lt_head {value head : α} {tail : List α}
    (h : (head :: tail).Pairwise (fun low high => compare low high = .lt))
    (hlt : compare value head = .lt) : value ∉ head :: tail := by
  intro hmem
  rcases List.mem_cons.mp hmem with rfl | hmem
  · exact not_compare_lt_both hlt hlt
  · exact not_compare_lt_both hlt (List.rel_of_pairwise_cons h hmem)

/-- The search for a value cannot miss it: what comes after a larger value is larger still. -/
theorem isMissing_iff {value : α} {list : List α}
    (h : list.Pairwise (fun low high => compare low high = .lt)) :
    isMissing value list = true ↔ value ∉ list := by
  induction list with
  | nil => exact iff_of_true rfl List.not_mem_nil
  | cons head tail ih =>
      unfold isMissing
      split
      next hlt => exact iff_of_true rfl (not_mem_of_lt_head h hlt)
      next heq =>
        rw [Std.LawfulEqCmp.eq_of_compare heq]
        exact iff_of_false Bool.false_ne_true fun hnot => hnot List.mem_cons_self
      next hgt => rw [ih h.of_cons, List.mem_cons, or_iff_right (ne_of_compare_gt hgt)]

theorem insertNew_fst_iff {value : α} {set : SortedSet α} :
    (set.insertNew value).1 = true ↔ value ∉ set :=
  isMissing_iff set.ascending

/-- Only sets with the same members tie. -/
theorem compare_eq_iff_mem {first second : SortedSet α} :
    compare first second = .eq ↔ ∀ value, value ∈ first ↔ value ∈ second := by
  rw [Std.LawfulEqCmp.compare_eq_iff_eq]
  constructor
  · intro heq value
    rw [heq]
  · exact ext_mem

end SortedSet

/-! ## Ways to put a set together -/

/-- A way to put a set together: from the values of a list, by inserting a value into what has
been put together so far, or by uniting two sets. -/
inductive Assembly (α : Type) where
  | collect (values : List α)
  | insert (value : α) (before : Assembly α)
  | union (first second : Assembly α)

namespace Assembly

/-- The values that are put in, with repetitions. -/
def values : Assembly α → List α
  | collect values => values
  | insert value before => value :: before.values
  | union first second => first.values ++ second.values

variable [Ord α] [Std.TransOrd α]

def set : Assembly α → SortedSet α
  | collect values => .ofList values
  | insert value before => (before.set.insertNew value).2
  | union first second => first.set.union second.set

variable [Std.LawfulEqOrd α]

theorem mem_set {assembly : Assembly α} {value : α} :
    value ∈ assembly.set ↔ value ∈ assembly.values := by
  induction assembly with
  | collect values => exact SortedSet.mem_ofList
  | insert other before ih =>
      rw [values, List.mem_cons, ← ih]
      exact SortedSet.mem_insert
  | union first second hfirst hsecond =>
      rw [set, values, SortedSet.mem_union, List.mem_append, hfirst, hsecond]

/-- Sets that the same values are put into are equal. -/
theorem set_eq_iff {first second : Assembly α} :
    first.set = second.set ↔ ∀ value, value ∈ first.values ↔ value ∈ second.values := by
  simp only [← mem_set]
  constructor
  · intro heq value
    rw [heq]
  · exact SortedSet.ext_mem

end Assembly

end RuleMachine
