import RuleMachine.Proofs.Match.Meaning
import RuleMachine.Proofs.Predicate.World
import RuleMachine.Table.Eager

/-! # One rank for each set

A set without two values of one kind contains one concrete set of a well-formed descriptor at
most. So a pool of such sets, as the closed world is, is ranked set by set: a set that has what
the descriptor asks for has one rank, the same for all of them, and the others have none. The
best of the ranks at which a row accepts a set is then the only one.
-/

namespace RuleMachine

namespace Vocabulary

variable {V : Vocabulary}

/-- No set of the closed world has two values of one kind, however often a case is listed. -/
theorem singleValued_of_mem_world {kinds : KindSet V} {set : PredicateSet V}
    (h : set ∈ world kinds) : set.SingleValued := by
  obtain ⟨choice, hchoice, rfl⟩ := mem_world.mp h
  have hkinds : (choice.map Predicate.kind).Nodup := by
    rw [map_kind_of_mem_product_cases hchoice]
    exact SortedSet.nodup_toList kinds
  intro value hvalue other hother hsame
  exact List.inj_on_of_nodup_map hkinds (SortedSet.mem_ofList.mp hvalue)
    (SortedSet.mem_ofList.mp hother) hsame

end Vocabulary

namespace Descriptor

variable {D : Domain} {descriptor : Descriptor D}

/-- The set has all required values and a value of each group. -/
def IsMetBy (descriptor : Descriptor D) (set : PredicateSet D) : Prop :=
  (∀ value ∈ descriptor.all, value ∈ set) ∧
    ∀ group ∈ descriptor.any, ∃ value ∈ group, value ∈ set

instance (descriptor : Descriptor D) (set : PredicateSet D) : Decidable (descriptor.IsMetBy set) :=
  inferInstanceAs (Decidable (_ ∧ _))

/-- The one concrete set within a set that has no two values of one kind. -/
theorem exists_filter_concreteSets (hwell : descriptor.IsWellFormed)
    (hnamed : descriptor.any ≠ [] ∨ descriptor.all ≠ []) {set : PredicateSet D}
    (hset : set.SingleValued) (hmet : descriptor.IsMetBy set) :
    ∃ concrete ∈ descriptor.concreteSets,
      descriptor.concreteSets.filter (fun choice => choice.isSubset set) = [concrete] := by
  obtain ⟨concrete, ⟨hconcrete, hsubset⟩, hunique⟩ :=
    existsUnique_concrete_subset hwell hset ((exists_concrete_subset_iff hnamed).mpr hmet)
  have hfilter : ∀ choice, choice ∈ descriptor.concreteSets.filter
      (fun choice => choice.isSubset set) ↔ choice ∈ [concrete] := by
    intro choice
    rw [List.mem_filter, SortedSet.isSubset_iff, List.mem_singleton]
    constructor
    · exact hunique choice
    · rintro rfl
      exact ⟨hconcrete, hsubset⟩
  have hperm := (List.perm_ext_iff_of_nodup ((nodup_concreteSets hwell).filter _)
    (List.nodup_singleton concrete)).mpr hfilter
  exact ⟨concrete, hconcrete, List.perm_singleton.mp hperm⟩

/-- A set that has what is asked for is accepted at one rank, and any other at none. -/
theorem ranksIn_of_singleValued (hwell : descriptor.IsWellFormed) {set : PredicateSet D}
    (hset : set.SingleValued) : descriptor.ranksIn set =
      if descriptor.IsMetBy set then [descriptor.any.length + descriptor.all.length] else [] := by
  by_cases hnone : descriptor.any = [] ∧ descriptor.all = []
  · obtain ⟨hany, hall⟩ := hnone
    have hmet : descriptor.IsMetBy set := by simp [IsMetBy, hany, hall]
    rw [ranksIn, ranksAmong, concreteSets_eq_nil_iff.mpr ⟨hany, hall⟩, if_pos hmet, hany, hall]
    rfl
  · have hsome : ¬descriptor.concreteSets.isEmpty := by
      rwa [List.isEmpty_iff, concreteSets_eq_nil_iff]
    have hnamed := not_and_or.mp hnone
    rw [ranksIn, ranksAmong, if_neg hsome]
    split
    next hmet =>
      obtain ⟨concrete, hconcrete, hfilter⟩ := exists_filter_concreteSets hwell hnamed hset hmet
      rw [hfilter, List.map_singleton, size_of_mem_concreteSets hwell hconcrete]
    next hunmet =>
      rw [List.map_eq_nil_iff, List.filter_eq_nil_iff]
      intro concrete hconcrete hsubset
      exact hunmet ((exists_concrete_subset_iff hnamed).mp
        ⟨concrete, hconcrete, SortedSet.isSubset_iff.mp hsubset⟩)

theorem rankings_of_singleValued (hwell : descriptor.IsWellFormed) {pool : List (PredicateSet D)}
    (hpool : ∀ set ∈ pool, set.SingleValued) : descriptor.rankings pool =
      (pool.filter (fun set => descriptor.IsMetBy set)).map
        (fun set => (set, descriptor.any.length + descriptor.all.length)) := by
  induction pool with
  | nil => rfl
  | cons set rest ih =>
      obtain ⟨hset, hrest⟩ := List.forall_mem_cons.mp hpool
      have hrankings : descriptor.rankings (set :: rest) =
          (descriptor.ranksIn set).map (fun rank => (set, rank)) ++ descriptor.rankings rest :=
        List.flatMap_cons
      rw [hrankings, ih hrest, ranksIn_of_singleValued hwell hset, List.filter_cons]
      by_cases hmet : descriptor.IsMetBy set <;> simp [hmet]

/-- Ranking a pool, of whose sets none has two values of one kind, gives the sets that have what
a well-formed descriptor asks for, each once, and each with the number of groups and required
values for its rank; the whole pool with rank zero if nothing is asked for. The closed world is
such a pool over any kinds. So where rows are ranked ahead of time, the best rank of a row for
a set is the only one that it has. -/
theorem rankings_are_single (hwell : descriptor.IsWellFormed) :
    (∀ pool : List (PredicateSet D), (∀ set ∈ pool, set.SingleValued) →
      descriptor.rankings pool = (pool.filter (fun set => descriptor.IsMetBy set)).map
        (fun set => (set, descriptor.any.length + descriptor.all.length)) ∧
      (∀ set rank, (set, rank) ∈ descriptor.rankings pool ↔ set ∈ pool ∧
        ((∀ value ∈ descriptor.all, value ∈ set) ∧
          ∀ group ∈ descriptor.any, ∃ value ∈ group, value ∈ set) ∧
        rank = descriptor.any.length + descriptor.all.length) ∧
      (pool.Nodup → ((descriptor.rankings pool).map Prod.fst).Nodup) ∧
      (descriptor.any = [] → descriptor.all = [] →
        descriptor.rankings pool = pool.map (fun set => (set, 0)))) ∧
    (∀ kinds : KindSet D, (Vocabulary.world kinds).toList.Nodup ∧
      ∀ set ∈ (Vocabulary.world kinds).toList, set.SingleValued) ∧
    ∀ (rows : List (Row D)) (row : Row D), row.descriptor = descriptor →
      ∀ set ∈ Eager.pool rows,
        (ranksAmong (Eager.Contender.ofRow row).concrete set).length ≤ 1 ∧
        (Eager.Contender.ofRow row).bestRank set =
          if descriptor.IsMetBy set then some (descriptor.any.length + descriptor.all.length)
          else none := by
  refine ⟨fun pool hpool => ?_, fun kinds => ⟨SortedSet.nodup_toList _, fun set hset =>
    Vocabulary.singleValued_of_mem_world hset⟩, ?_⟩
  · have hrankings := rankings_of_singleValued hwell hpool
    refine ⟨hrankings, fun set rank => ?_, fun hnodup => ?_, fun hany hall => ?_⟩
    · rw [hrankings, List.mem_map]
      simp only [List.mem_filter, decide_eq_true_eq, Prod.mk.injEq]
      constructor
      · rintro ⟨other, ⟨hmem, hmet⟩, rfl, rfl⟩
        exact ⟨hmem, hmet, rfl⟩
      · rintro ⟨hmem, hmet, rfl⟩
        exact ⟨set, ⟨hmem, hmet⟩, rfl, rfl⟩
    · rw [hrankings, List.map_map]
      exact (hnodup.filter _).map fun first second heq => heq
    · rw [hrankings, List.filter_eq_self.mpr, hany, hall]
      · rfl
      · intro set _
        simp [IsMetBy, hany, hall]
  · rintro rows row rfl set hset
    have hranks : ranksAmong (Eager.Contender.ofRow row).concrete set = _ :=
      ranksIn_of_singleValued hwell (Vocabulary.singleValued_of_mem_world hset)
    rw [Eager.Contender.bestRank, hranks]
    split <;> simp

/-- Of these sets, only the one with the phrase and a number is ranked. -/
theorem rankings_are_single_lenient :
    Scenario.lenient.IsWellFormed ∧
    Scenario.lenient.rankings [.ofList [Scenario.number 1, Scenario.phrase "open"],
        .ofList [Scenario.phrase "open"], .ofList [Scenario.number 0, Scenario.phrase "shut"]] =
      [(.ofList [Scenario.number 1, Scenario.phrase "open"], 2)] := by
  have hwell : Scenario.lenient.IsWellFormed := rfl
  obtain ⟨hpool, -⟩ := rankings_are_single hwell
  refine ⟨hwell, ?_⟩
  rw [(hpool _ (by decide)).1]
  rfl

end Descriptor

end RuleMachine
