import Mathlib.Algebra.BigOperators.Ring.List
import Mathlib.Algebra.Ring.Nat
import Mathlib.Data.Finset.Card
import RuleMachine.Predicate.World
import RuleMachine.Proofs.Predicate.Subsets

/-! # Laws of the closed world

A set of the closed world is picked kind by kind from the listed cases. It holds nothing but
listed cases, and there is no such set if some kind lists none. Any way to pick a case for
each kind is realised by one. As kinds are gone through in order, the picked cases ascend and
are themselves the list of the set, so that different picks are different sets and the sets
can be counted: a case counts once, however often and wherever its kind lists it.
-/

namespace RuleMachine

variable {V : Vocabulary}

/-- The value is one of the cases that its kind lists. -/
def Predicate.IsListed (value : Predicate V) : Prop :=
  value ∈ V.cases value.kind

instance (value : Predicate V) : Decidable value.IsListed :=
  inferInstanceAs (Decidable (_ ∈ _))

namespace Vocabulary

theorem kind_of_mem_cases {kind : V.Kind} {value : Predicate V} (h : value ∈ V.cases kind) :
    value.kind = kind := by
  obtain ⟨case, -, rfl⟩ := List.mem_map.mp h
  rfl

theorem isListed_of_mem_cases {kind : V.Kind} {value : Predicate V} (h : value ∈ V.cases kind) :
    value.IsListed := by
  obtain ⟨case, hcase, rfl⟩ := List.mem_map.mp h
  exact List.mem_map_of_mem hcase

/-- A case picked for each kind has that kind. -/
theorem map_kind_of_mem_product_cases {kinds : List V.Kind} {choice : List (Predicate V)}
    (h : choice ∈ product (kinds.map V.cases)) : choice.map Predicate.kind = kinds := by
  induction kinds generalizing choice with
  | nil =>
      rw [List.mem_singleton.mp h]
      rfl
  | cons kind rest ih =>
      obtain ⟨value, hvalue, others, hothers, rfl⟩ := mem_product_cons.mp h
      rw [List.map_cons, kind_of_mem_cases hvalue, ih hothers]

variable {kinds : KindSet V} {set : PredicateSet V}

/-- Without kinds there is one way to give each of them a case. -/
theorem world_eq (kinds : KindSet V) : world kinds =
    PredicateFamily.ofList ((product (kinds.toList.map V.cases)).map PredicateSet.ofList) := by
  obtain ⟨list, hascending⟩ := kinds
  cases list with
  | nil => rfl
  | cons kind rest =>
      rw [world, combinations_eq_product (by simp)]
      rfl

theorem mem_world : set ∈ world kinds ↔
    ∃ choice ∈ product (kinds.toList.map V.cases), set = PredicateSet.ofList choice := by
  rw [world_eq, PredicateFamily.ofList, SortedSet.mem_ofList, List.mem_map]
  simp only [eq_comm]

theorem isListed_of_mem_world (h : set ∈ world kinds) {value : Predicate V} (hvalue : value ∈ set) :
    value.IsListed := by
  obtain ⟨choice, hchoice, rfl⟩ := mem_world.mp h
  obtain ⟨group, hgroup, hmem⟩ :=
    List.mem_flatten.mp (mem_flatten_of_mem_product hchoice (SortedSet.mem_ofList.mp hvalue))
  obtain ⟨kind, -, rfl⟩ := List.mem_map.mp hgroup
  exact isListed_of_mem_cases hmem

theorem cases_ne_nil_of_mem_world (h : set ∈ world kinds) {kind : V.Kind} (hkind : kind ∈ kinds) :
    V.cases kind ≠ [] := by
  obtain ⟨choice, hchoice, -⟩ := mem_world.mp h
  intro hnone
  have hempty : product (kinds.toList.map V.cases) = [] :=
    product_eq_nil_iff.mpr (List.mem_map.mpr ⟨kind, hkind, hnone⟩)
  rw [hempty] at hchoice
  exact absurd hchoice List.not_mem_nil

/-- If each kind lists a case of the sort wanted of it, a set of the closed world has them. -/
theorem exists_mem_world {Wanted : V.Kind → Predicate V → Prop}
    (h : ∀ kind ∈ kinds, ∃ value ∈ V.cases kind, Wanted kind value) :
    ∃ set ∈ world kinds, ∀ kind ∈ kinds, ∃ value ∈ set, Wanted kind value := by
  obtain ⟨choice, hchoice, hwanted⟩ := exists_mem_product_map h
  refine ⟨_, mem_world.mpr ⟨choice, hchoice, rfl⟩, fun kind hkind => ?_⟩
  obtain ⟨value, hvalue, hkept⟩ := hwanted kind hkind
  exact ⟨value, SortedSet.mem_ofList.mpr hvalue, hkept⟩

/-! ## Picks in the order of the kinds -/

/-- Values ascend where their kinds do. -/
theorem pairwise_of_map_kind {choice : List (Predicate V)}
    (h : choice.map Predicate.kind = kinds.toList) :
    choice.Pairwise (fun low high => compare low high = .lt) := by
  have hkinds := kinds.ascending
  rw [← h, List.pairwise_map] at hkinds
  apply hkinds.imp
  intro low high hlt
  change (compare low.kind high.kind).then _ = .lt
  rw [hlt]
  rfl

theorem toList_ofList_of_mem_product {choice : List (Predicate V)}
    (h : choice ∈ product (kinds.toList.map V.cases)) :
    (PredicateSet.ofList choice).toList = choice := by
  rw [PredicateSet.ofList_of_ascending (pairwise_of_map_kind (map_kind_of_mem_product_cases h))]

/-- A set is in the closed world just if its list is a pick of cases. -/
theorem mem_world_iff_toList :
    set ∈ world kinds ↔ set.toList ∈ product (kinds.toList.map V.cases) := by
  rw [mem_world]
  constructor
  · intro h
    rcases h with ⟨choice, hchoice, rfl⟩
    rwa [toList_ofList_of_mem_product hchoice]
  · intro h
    exact ⟨set.toList, h, (PredicateSet.ofList_of_ascending set.ascending).symm⟩

theorem map_kind_of_mem_world (h : set ∈ world kinds) :
    set.toList.map Predicate.kind = kinds.toList :=
  map_kind_of_mem_product_cases (mem_world_iff_toList.mp h)

/-- A set is in the closed world just if it holds exactly one listed case of each kind, and
nothing else. -/
theorem mem_world_iff : set ∈ world kinds ↔
    (∀ kind ∈ kinds, ∃! value, value ∈ V.cases kind ∧ value ∈ set) ∧
      ∀ value ∈ set, ∃ kind ∈ kinds, value ∈ V.cases kind := by
  rw [mem_world_iff_toList]
  constructor
  · intro h
    constructor
    · intro kind hkind
      obtain ⟨value, hvalue, hcase⟩ := exists_mem_of_mem_product h (List.mem_map_of_mem hkind)
      refine ⟨value, ⟨hcase, hvalue⟩, fun other hother => ?_⟩
      have hnodup : (set.toList.map Predicate.kind).Nodup := by
        rw [map_kind_of_mem_product_cases h]
        exact kinds.nodup_toList
      apply List.inj_on_of_nodup_map hnodup hother.2 hvalue
      rw [kind_of_mem_cases hother.1, kind_of_mem_cases hcase]
    · intro value hvalue
      obtain ⟨group, hgroup, hcase⟩ := List.mem_flatten.mp (mem_flatten_of_mem_product h hvalue)
      obtain ⟨kind, hkind, rfl⟩ := List.mem_map.mp hgroup
      exact ⟨kind, hkind, hcase⟩
  · intro h
    rcases h with ⟨hone, honly⟩
    have hpick : ∀ group ∈ kinds.toList.map V.cases, ∃ value ∈ group, value ∈ set := by
      intro group hgroup
      obtain ⟨kind, hkind, rfl⟩ := List.mem_map.mp hgroup
      obtain ⟨value, ⟨hcase, hvalue⟩, -⟩ := hone kind hkind
      exact ⟨value, hcase, hvalue⟩
    obtain ⟨choice, hchoice, hwithin⟩ := exists_mem_product_forall hpick
    -- The pick has some value of each kind of the set, and the set has only one of that kind.
    have hset : set = PredicateSet.ofList choice := by
      apply SortedSet.ext_mem
      intro value
      rw [PredicateSet.ofList, SortedSet.mem_ofList]
      refine ⟨fun hvalue => ?_, hwithin value⟩
      obtain ⟨kind, hkind, hcase⟩ := honly value hvalue
      obtain ⟨other, hother, hsame⟩ :=
        exists_mem_of_mem_product hchoice (List.mem_map_of_mem hkind)
      have heq : value = other :=
        (hone kind hkind).unique ⟨hcase, hvalue⟩ ⟨hsame, hwithin other hother⟩
      rwa [heq]
    rwa [hset, toList_ofList_of_mem_product hchoice]

/-! ## The size of the closed world -/

theorem length_dedup_cases (kind : V.Kind) :
    (V.cases kind).dedup.length = (V.caseList kind).toFinset.card := by
  have hinjective : Function.Injective (fun value : V.Value kind => (⟨kind, value⟩ : Predicate V)) :=
    fun _ _ heq => eq_of_heq (Predicate.mk.inj heq).2
  rw [cases, List.dedup_map_of_injective hinjective, List.length_map, List.card_toFinset]

/-- The lists of the sets of the closed world are the picks from the cases without repetitions. -/
theorem perm_map_toList_world (kinds : KindSet V) :
    ((world kinds).toList.map SortedSet.toList).Perm
      (product (kinds.toList.map fun kind => (V.cases kind).dedup)) := by
  apply (List.perm_ext_iff_of_nodup _ _).mpr
  · intro choice
    have hdedup : choice ∈ product (kinds.toList.map fun kind => (V.cases kind).dedup) ↔
        choice ∈ product (kinds.toList.map V.cases) := by
      simp only [mem_product, List.forall₂_map_right_iff, List.mem_dedup]
    rw [hdedup, List.mem_map]
    constructor
    · intro h
      rcases h with ⟨set, hset, rfl⟩
      exact mem_world_iff_toList.mp hset
    · intro h
      exact ⟨PredicateSet.ofList choice, mem_world.mpr ⟨choice, h, rfl⟩,
        toList_ofList_of_mem_product h⟩
  · exact (SortedSet.nodup_toList _).map fun _ _ heq => SortedSet.ext_toList heq
  · apply nodup_product
    intro group hgroup
    obtain ⟨kind, -, rfl⟩ := List.mem_map.mp hgroup
    exact List.nodup_dedup _

theorem size_world :
    (world kinds).size = (kinds.toList.map fun kind => (V.caseList kind).toFinset.card).prod := by
  have hlength := (perm_map_toList_world kinds).length_eq
  rw [List.length_map, length_product, List.map_map] at hlength
  rw [SortedSet.size, hlength]
  simp only [Function.comp_def, length_dedup_cases]

theorem size_world_eq_zero_iff :
    (world kinds).size = 0 ↔ ∃ kind ∈ kinds, V.caseList kind = [] := by
  rw [size_world, List.prod_eq_zero_iff, List.mem_map]
  simp only [Finset.card_eq_zero, List.toFinset_eq_empty_iff, SortedSet.mem_toList]

/-- The closed world over any kinds holds just the sets with exactly one listed case of each
kind and nothing else, whichever order the cases are listed in and however often. There are as
many as the numbers of different cases of the kinds multiply to: one set if there are no kinds,
and none if some kind lists no cases. The kinds of the values of each such set are the kinds
given. -/
theorem world_is_closed (kinds : KindSet V) :
    (∀ set : PredicateSet V, set ∈ world kinds ↔
      (∀ kind ∈ kinds, ∃! value, value ∈ V.cases kind ∧ value ∈ set) ∧
        ∀ value ∈ set, ∃ kind ∈ kinds, value ∈ V.cases kind) ∧
    (world kinds).size = (kinds.toList.map fun kind => (V.caseList kind).toFinset.card).prod ∧
    (world (∅ : KindSet V)).toList = [∅] ∧
    ((world kinds).size = 0 ↔ ∃ kind ∈ kinds, V.caseList kind = []) ∧
    ∀ set ∈ world kinds, set.toList.map Predicate.kind = kinds.toList ∧ set.size = kinds.size := by
  refine ⟨fun set => mem_world_iff, size_world, rfl, size_world_eq_zero_iff, fun set hset => ?_⟩
  have hkinds := map_kind_of_mem_world hset
  exact ⟨hkinds, by rw [SortedSet.size, SortedSet.size, ← hkinds, List.length_map]⟩

end Vocabulary

end RuleMachine
