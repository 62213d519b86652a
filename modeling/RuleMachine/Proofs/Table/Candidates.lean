import RuleMachine.Proofs.Predicate.Subsets
import RuleMachine.Table.Basic

/-! # What a table offers

The candidates for an event in a state are entries of the table for that event and that
state, and no two of them are stored under the same predicates.
-/

namespace RuleMachine

namespace Table

variable {D : Domain} {table : Table D} {state : D.State} {event : D.Event}
  {supplied : PredicateSet D}

theorem mem_of_find?_eq_some {key : TableKey D} {transition : Transition D}
    (h : table.find? key = some transition) :
    transition ∈ table.transitions ∧ transition.key = key :=
  ⟨List.mem_of_find?_eq_some h, by simpa using List.find?_some h⟩

/-- A candidate is an entry for the state and the event. -/
theorem mem_of_mem_candidates {candidate : Transition D}
    (h : candidate ∈ table.candidates state event supplied) :
    candidate ∈ table.transitions ∧ candidate.state = state ∧ candidate.event = event := by
  have hfound : ∃ set, table.find? ⟨state, event, set⟩ = some candidate := by
    unfold candidates at h
    split at h
    · exact ⟨supplied, Option.mem_toList.mp h⟩
    · obtain ⟨subset, -, hfind⟩ := List.mem_filterMap.mp h
      exact ⟨subset, hfind⟩
  obtain ⟨set, hfind⟩ := hfound
  obtain ⟨hmem, hkey⟩ := mem_of_find?_eq_some hfind
  exact ⟨hmem, congrArg TableKey.state hkey, congrArg TableKey.event hkey⟩

/-- The predicates of what a search finds are those it was searched under. -/
theorem map_predicates_filterMap_find?_sublist (sets : List (PredicateSet D)) :
    ((sets.filterMap (fun set => table.find? ⟨state, event, set⟩)).map
      Transition.predicates).Sublist sets := by
  induction sets with
  | nil => exact List.Sublist.slnil
  | cons set rest ih =>
      cases hfind : table.find? ⟨state, event, set⟩ with
      | none =>
          rw [List.filterMap_cons, hfind]
          exact ih.cons set
      | some transition =>
          have hset : transition.predicates = set :=
            congrArg TableKey.predicates (mem_of_find?_eq_some hfind).2
          rw [List.filterMap_cons, hfind, List.map_cons, hset]
          exact ih.cons_cons set

/-- No two candidates are stored under the same predicates. -/
theorem nodup_predicates_candidates (table : Table D) (state : D.State) (event : D.Event)
    (supplied : PredicateSet D) :
    ((table.candidates state event supplied).map Transition.predicates).Nodup := by
  unfold candidates
  split
  · cases table.find? ⟨state, event, supplied⟩ <;> simp
  · exact (PredicateSet.nodup_subsetsBySize supplied).sublist
      (map_predicates_filterMap_find?_sublist _)

end Table

end RuleMachine
