import RuleMachine.Proofs.Predicate.Subsets
import RuleMachine.Proofs.Table.Specificity
import RuleMachine.Proofs.Table.Storage

/-! # The two strategies agree on complete input

A row accepts a set at the sizes of the sets within it under which it is stored. A
search of the subsets, larger ones first, therefore comes upon a row of the highest
rank before all others. Where the closed world was resolved without a tie, that row
is the one the eager table holds.
-/

namespace RuleMachine

variable {D : Domain}

/-- The transition apart from the predicates under which it is stored. -/
def Transition.bare (transition : Transition D) : Transition D :=
  { transition with predicates := ∅ }

theorem Transition.bare_eq_iff {transition other : Transition D} :
    transition.bare = other.bare ↔ transition.state = other.state ∧
      transition.event = other.event ∧ transition.next = other.next ∧
      transition.actions = other.actions ∧ transition.condition = other.condition ∧
      transition.origin = other.origin := by
  simp only [bare, Transition.mk.injEq, true_and]

/-! ## What the tables hold -/

/-- A row accepts a set just at the sizes of its own sets within it. -/
theorem Row.acceptsAt_iff {row : Row D} {set : PredicateSet D} {rank : Nat} :
    row.descriptor.AcceptsAt set rank ↔
      ∃ stored ∈ Lazy.storedSets row, (∀ value ∈ stored, value ∈ set) ∧ rank = stored.size := by
  by_cases hnamed : row.descriptor.concreteSets = []
  · obtain ⟨hany, hall⟩ := Descriptor.concreteSets_eq_nil_iff.mp hnamed
    rw [Lazy.storedSets_of_unnamed hnamed, Descriptor.AcceptsAt, hnamed]
    simp only [hany, hall, true_and, List.not_mem_nil, false_and, exists_false, or_false,
      List.mem_singleton, exists_eq_left]
    refine (and_iff_right fun value hvalue => ?_).symm
    exact absurd hvalue (SortedSet.not_mem_empty value)
  · rw [Lazy.storedSets_of_named hnamed, Descriptor.AcceptsAt]
    refine or_iff_right fun hnone => hnamed ?_
    exact Descriptor.concreteSets_eq_nil_iff.mpr ⟨hnone.1, hnone.2.1⟩

theorem Lazy.mem_storage {rows : List (Row D)} {key : TableKey D} {row : Row D} :
    (key, row) ∈ storage rows ↔ row ∈ rows ∧ Stores key row := by
  obtain ⟨state, event, predicates⟩ := key
  simp only [storage, List.mem_flatMap, List.mem_map, Prod.mk.injEq, TableKey.mk.injEq, Stores]
  constructor
  · intro h
    rcases h with ⟨_, hrow, set, hset, ⟨rfl, rfl, rfl⟩, rfl⟩
    exact ⟨hrow, rfl, rfl, hset⟩
  · intro h
    rcases h with ⟨hrow, rfl, rfl, hset⟩
    exact ⟨row, hrow, predicates, hset, ⟨rfl, rfl, rfl⟩, rfl⟩

/-- Where nothing is tied, the winner of a key is the row that leads for it. -/
theorem Eager.mem_winners_slots {rows : List (Row D)} (hties : ties (slots rows) = [])
    {key : TableKey D} {row : Row D} :
    (key, row) ∈ winners (slots rows) ↔ Reached rows key ∧ row ∈ rows ∧ Leads rows key row := by
  constructor
  · intro hwinner
    refine ⟨?_, leads_of_mem_winners_slots hwinner⟩
    rw [← mem_map_key_slots, ← map_fst_winners_slots]
    exact List.mem_map_of_mem hwinner
  · intro h
    rcases h with ⟨hreached, hrow⟩
    refine mem_winners.mpr ⟨⟨key, leaders rows key⟩, mem_slots.mpr ⟨hreached, rfl⟩, rfl, ?_⟩
    have hmem : row ∈ leaders rows key := mem_leaders.mpr hrow
    obtain ⟨leader, hleaders⟩ := List.length_eq_one_iff.mp
      (Nat.le_antisymm (ties_slots_eq_nil_iff.mp hties key hreached) (List.length_pos_of_mem hmem))
    rw [hleaders, List.mem_singleton] at hmem
    rw [hleaders, hmem, List.head?_cons]

section Candidates

variable {definitions : List (Definition D)} {policy : HookPolicy} {rows : List (Row D)}
  {eager searched : Table D}

theorem find?_eager_iff (hrows : Definition.survivors definitions = .ok rows)
    (hcompile : Table.compile ⟨.eager, policy⟩ definitions = .ok eager) {key : TableKey D}
    {transition : Transition D} :
    eager.find? key = some transition ↔ ∃ row ∈ rows, Eager.Reached rows key ∧
      Eager.Leads rows key row ∧ transition = Table.transitionOf definitions policy key row := by
  obtain ⟨selection, hselect, rfl⟩ := Table.exists_selection_of_compile hrows hcompile
  obtain ⟨hties, rfl⟩ := Eager.select_eq_ok_iff.mp hselect
  have hkeys : ((Eager.winners (Eager.slots rows)).map Prod.fst).Nodup := by
    rw [Eager.map_fst_winners_slots]
    exact Eager.nodup_map_key_slots rows
  rw [Table.find?_transitionsOf_eq_some_iff hkeys]
  simp only [Eager.mem_winners_slots hties, and_assoc, and_left_comm]

theorem find?_lazy_iff (hrows : Definition.survivors definitions = .ok rows)
    (hcompile : Table.compile ⟨.lazy, policy⟩ definitions = .ok searched) {key : TableKey D}
    {transition : Transition D} :
    searched.find? key = some transition ↔ ∃ row ∈ rows, Lazy.Stores key row ∧
      transition = Table.transitionOf definitions policy key row := by
  obtain ⟨selection, hselect, rfl⟩ := Table.exists_selection_of_compile hrows hcompile
  obtain ⟨hgroups, hclashes, rfl⟩ := Lazy.select_eq_ok_iff.mp hselect
  rw [Table.find?_transitionsOf_eq_some_iff (Lazy.nodup_map_fst_storage hgroups hclashes)]
  simp only [Lazy.mem_storage, and_assoc]

/-! ## The first answer of a search -/

/-- A row that answers for a subset accepts the whole set at the size of the subset. -/
theorem contends_of_stores {state : D.State} {event : D.Event} {set subset : PredicateSet D}
    {row : Row D} (hstores : Lazy.Stores ⟨state, event, subset⟩ row)
    (hsubset : ∀ value ∈ subset, value ∈ set) :
    Eager.Contends ⟨state, event, set⟩ row subset.size :=
  ⟨hstores.1, hstores.2.1, Row.acceptsAt_iff.mpr ⟨subset, hstores.2.2, hsubset, rfl⟩⟩

theorem exists_stores_of_contends {key : TableKey D} {row : Row D} {rank : Nat}
    (h : Eager.Contends key row rank) :
    ∃ subset, (∀ value ∈ subset, value ∈ key.predicates) ∧ rank = subset.size ∧
      Lazy.Stores ⟨key.state, key.event, subset⟩ row := by
  obtain ⟨hstate, hevent, haccepts⟩ := h
  obtain ⟨subset, hstored, hsubset, hrank⟩ := Row.acceptsAt_iff.mp haccepts
  exact ⟨subset, hsubset, hrank, hstate, hevent, hstored⟩

/-- What a search of the subsets comes upon first is the transition of a row that leads
for the whole set. -/
theorem exists_leads_of_findSome? (hrows : Definition.survivors definitions = .ok rows)
    (hcompile : Table.compile ⟨.lazy, policy⟩ definitions = .ok searched)
    {state : D.State} {event : D.Event} {set : PredicateSet D} {found : Transition D}
    (h : (PredicateSet.subsetsBySize set).findSome?
      (fun subset => searched.find? ⟨state, event, subset⟩) = some found) :
    ∃ row ∈ rows, Eager.Leads rows ⟨state, event, set⟩ row ∧
      found.bare = (Table.transitionOf definitions policy ⟨state, event, set⟩ row).bare := by
  obtain ⟨larger, subset, smaller, hsplit, hfound, hnone⟩ := List.findSome?_eq_some_iff.mp h
  obtain ⟨row, hrow, hstores, rfl⟩ := (find?_lazy_iff hrows hcompile).mp hfound
  have hsubset : ∀ value ∈ subset, value ∈ set := by
    rw [← PredicateSet.mem_subsetsBySize, hsplit]
    exact List.mem_append_right larger List.mem_cons_self
  refine ⟨row, hrow, ⟨subset.size, contends_of_stores hstores hsubset, ?_⟩, rfl⟩
  intro other hother rank hcontends
  obtain ⟨choice, hchoice, rfl, hstored⟩ := exists_stores_of_contends hcontends
  -- The choice cannot stand before the subset, where nothing was found.
  have hlater : choice ∈ subset :: smaller := by
    have hmem := PredicateSet.mem_subsetsBySize.mpr hchoice
    rw [hsplit] at hmem
    apply (List.mem_append.mp hmem).resolve_left
    intro hlarger
    have hanswer := (find?_lazy_iff hrows hcompile).mpr ⟨other, hother, hstored, rfl⟩
    rw [hnone choice hlarger] at hanswer
    cases hanswer
  have hsizes := PredicateSet.pairwise_size_subsetsBySize set
  rw [hsplit] at hsizes
  rcases List.mem_cons.mp hlater with rfl | hsmaller
  · exact Nat.le_refl _
  · exact List.rel_of_pairwise_cons (List.pairwise_append.mp hsizes).2.1 hsmaller

/-- On a set of the closed world the eager table offers what the lazy table offers
first. -/
theorem candidates_agree (hrows : Definition.survivors definitions = .ok rows)
    (heager : Table.compile ⟨.eager, policy⟩ definitions = .ok eager)
    (hlazy : Table.compile ⟨.lazy, policy⟩ definitions = .ok searched)
    (state : D.State) (event : D.Event) {set : PredicateSet D} (hset : set ∈ Eager.pool rows) :
    (eager.candidates state event set).map Transition.bare =
      ((searched.candidates state event set).take 1).map Transition.bare := by
  have heagerStrategy : eager.strategy = .eager := Table.strategy_of_compile heager
  have hlazyStrategy : searched.strategy = .lazy := Table.strategy_of_compile hlazy
  rw [Table.candidates, Table.candidates, heagerStrategy, hlazyStrategy]
  dsimp only
  rw [List.take_one, List.head?_filterMap, ← Option.toList_map, ← Option.toList_map]
  congr 1
  cases hfound : (PredicateSet.subsetsBySize set).findSome?
      (fun subset => searched.find? ⟨state, event, subset⟩) with
  | none =>
      -- A row that wins in the closed world would have been found under one of its sets.
      cases hstored : eager.find? ⟨state, event, set⟩ with
      | none => rfl
      | some transition =>
          obtain ⟨row, hrow, -, ⟨rank, hcontends, -⟩, -⟩ :=
            (find?_eager_iff hrows heager).mp hstored
          obtain ⟨subset, hsubset, -, hstores⟩ := exists_stores_of_contends hcontends
          have hanswer := (find?_lazy_iff hrows hlazy).mpr ⟨row, hrow, hstores, rfl⟩
          rw [List.findSome?_eq_none_iff.mp hfound subset
            (PredicateSet.mem_subsetsBySize.mpr hsubset)] at hanswer
          cases hanswer
  | some found =>
      -- The row found leads for the whole set, and so it is the one that won.
      obtain ⟨row, hrow, hleads, hbare⟩ := exists_leads_of_findSome? hrows hlazy hfound
      obtain ⟨rank, hcontends, -⟩ := id hleads
      have hreached : Eager.Reached rows ⟨state, event, set⟩ := ⟨hset, row, hrow, rank, hcontends⟩
      rw [(find?_eager_iff hrows heager).mpr ⟨row, hrow, hreached, hleads, rfl⟩, Option.map_some,
        Option.map_some, hbare]

end Candidates

end RuleMachine
