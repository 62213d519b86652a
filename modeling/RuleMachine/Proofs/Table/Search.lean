import RuleMachine.Proofs.Table.Candidates
import RuleMachine.Proofs.Table.Specificity
import RuleMachine.Proofs.Table.Storage

/-! # What a search offers

A search probes every subset of what is supplied. Since no two entries share a key, it comes
upon each entry that applies exactly once, and upon nothing else: larger sets first, and sets
of one size as sets compare. So what is offered is determined by which entries apply, and a
value that no entry mentions makes no difference.
-/

namespace RuleMachine

variable {D : Domain}

/-- The entry is for the state and the event, and asks for nothing that is not supplied. -/
def Transition.Applies (transition : Transition D) (state : D.State) (event : D.Event)
    (supplied : PredicateSet D) : Prop :=
  transition.state = state ∧ transition.event = event ∧
    ∀ value ∈ transition.predicates, value ∈ supplied

instance (transition : Transition D) (state : D.State) (event : D.Event)
    (supplied : PredicateSet D) : Decidable (transition.Applies state event supplied) :=
  inferInstanceAs (Decidable (_ ∧ _ ∧ ∀ value ∈ transition.predicates.toList, value ∈ supplied))

namespace Table

/-- No two entries are stored under one key. -/
def IsKeyed (table : Table D) : Prop :=
  (table.transitions.map Transition.key).Nodup

/-- Under either strategy no key is selected twice. -/
theorem isKeyed_of_compile {config : Config} {definitions : List (Definition D)}
    {table : Table D} (h : compile config definitions = .ok table) : table.IsKeyed := by
  obtain ⟨rows, selection, -, hselect, rfl⟩ := compile_eq_ok_iff.mp h
  rw [IsKeyed, map_key_transitionsOf]
  cases hstrategy : config.strategy with
  | eager =>
      rw [hstrategy] at hselect
      obtain ⟨-, rfl⟩ := Eager.select_eq_ok_iff.mp hselect
      rw [Eager.map_fst_winners_slots]
      exact Eager.nodup_map_key_slots rows
  | lazy =>
      rw [hstrategy] at hselect
      obtain ⟨hgroups, hclashes, rfl⟩ := Lazy.select_eq_ok_iff.mp hselect
      exact Lazy.nodup_map_fst_storage hgroups hclashes

section Search

variable {table : Table D} (hlazy : table.strategy = .lazy) {state : D.State} {event : D.Event}
  {supplied : PredicateSet D}

include hlazy

theorem candidates_of_lazy : table.candidates state event supplied =
    (PredicateSet.subsetsBySize supplied).filterMap
      (fun subset => table.find? ⟨state, event, subset⟩) := by
  rw [candidates, hlazy]

/-- What is found under a set is stored under it, so candidates come in the order of their
sets. -/
theorem pairwise_precedes_candidates :
    (table.candidates state event supplied).Pairwise
      (fun earlier later => PredicateSet.Precedes earlier.predicates later.predicates) := by
  rw [candidates_of_lazy hlazy, List.pairwise_filterMap]
  refine (PredicateSet.pairwise_subsetsBySize supplied).imp ?_
  intro first second hbefore earlier hearlier later hlater
  have hfirst : earlier.predicates = first :=
    congrArg TableKey.predicates (mem_of_find?_eq_some hearlier).2
  have hsecond : later.predicates = second :=
    congrArg TableKey.predicates (mem_of_find?_eq_some hlater).2
  rwa [hfirst, hsecond]

variable (hkeyed : table.IsKeyed)

include hkeyed

theorem mem_candidates_iff {candidate : Transition D} :
    candidate ∈ table.candidates state event supplied ↔
      candidate ∈ table.transitions ∧ candidate.Applies state event supplied := by
  rw [candidates_of_lazy hlazy, List.mem_filterMap]
  simp only [PredicateSet.mem_subsetsBySize, find?_eq_some_iff hkeyed]
  constructor
  · rintro ⟨subset, hsubset, hmem, hkey⟩
    cases hkey
    exact ⟨hmem, rfl, rfl, hsubset⟩
  · rintro ⟨hmem, rfl, rfl, hsubset⟩
    exact ⟨candidate.predicates, hsubset, hmem, rfl⟩

/-- The candidates are the entries that apply, each once. -/
theorem perm_candidates : (table.candidates state event supplied).Perm
    (table.transitions.filter (fun entry => entry.Applies state event supplied)) := by
  have hcandidates : (table.candidates state event supplied).Nodup :=
    (nodup_predicates_candidates table state event supplied).of_map
  have hentries : table.transitions.Nodup := List.Nodup.of_map _ hkeyed
  refine (List.perm_ext_iff_of_nodup hcandidates (hentries.filter _)).mpr fun candidate => ?_
  simp [mem_candidates_iff hlazy hkeyed]

/-- What is offered depends on the entries that apply, and on nothing else. -/
theorem candidates_eq_of_applies {others : PredicateSet D}
    (h : ∀ entry ∈ table.transitions,
      entry.Applies state event others ↔ entry.Applies state event supplied) :
    table.candidates state event others = table.candidates state event supplied := by
  have hentries :
      table.transitions.filter (fun entry => entry.Applies state event others) =
        table.transitions.filter (fun entry => entry.Applies state event supplied) :=
    List.filter_congr fun entry hentry => decide_eq_decide.mpr (h entry hentry)
  -- Two permutations of one list that are both in the order of a search are equal.
  apply List.Perm.eq_of_pairwise _ (pairwise_precedes_candidates hlazy)
    (pairwise_precedes_candidates hlazy)
  · exact (perm_candidates hlazy hkeyed).trans (hentries ▸ (perm_candidates hlazy hkeyed).symm)
  · intro first second _ _ hbefore hafter
    exact absurd hafter (PredicateSet.not_precedes_both hbefore)

end Search

/-- A compiled table stores no two entries under one key. In any such table that is searched,
the candidates for an event in a state are exactly the entries for that state and event whose
predicates are all supplied, each of them once. They come by the size of their sets, larger
ones first, and within one size strictly ascending. Values that no entry for the state and the
event mentions can be supplied as well without changing the candidates. -/
theorem search_offers_applicable :
    (∀ config definitions (table : Table D), compile config definitions = .ok table →
      table.strategy = config.strategy ∧ table.IsKeyed) ∧
    ∀ table : Table D, table.strategy = .lazy → table.IsKeyed → ∀ state event supplied,
      (table.candidates state event supplied).Perm
        (table.transitions.filter (fun entry => entry.Applies state event supplied)) ∧
      (table.candidates state event supplied).Pairwise (fun earlier later =>
        PredicateSet.Precedes earlier.predicates later.predicates) ∧
      ∀ more : PredicateSet D,
        (∀ entry ∈ table.transitions, entry.state = state → entry.event = event →
          ∀ value ∈ more, value ∉ entry.predicates) →
        table.candidates state event (supplied.union more) =
          table.candidates state event supplied := by
  refine ⟨fun config definitions table h => ⟨strategy_of_compile h, isKeyed_of_compile h⟩, ?_⟩
  intro table hlazy hkeyed state event supplied
  refine ⟨perm_candidates hlazy hkeyed, pairwise_precedes_candidates hlazy, ?_⟩
  intro more hunmentioned
  apply candidates_eq_of_applies hlazy hkeyed
  intro entry hentry
  refine and_congr_right fun hstate => and_congr_right fun hevent => forall₂_congr ?_
  intro value hvalue
  rw [SortedSet.mem_union]
  exact or_iff_left fun hmore => hunmentioned entry hentry hstate hevent value hmore hvalue

/-- With two levels supplied, the pump is offered its rule for the highest level and then the
rule that asks for nothing. The lowest level can be supplied as well. -/
theorem search_offers_applicable_pump :
    ∃ table : Table Scenario.domain,
      compile ⟨.lazy, .onChangeOnly⟩ [Scenario.pump] = .ok table ∧
      table.strategy = .lazy ∧ table.IsKeyed ∧
      (table.candidates "idle" Scenario.rise
        (.ofList [Scenario.level 1, Scenario.level 2])).map Transition.next = ["fast", "slow"] ∧
      table.candidates "idle" Scenario.rise
          ((PredicateSet.ofList [Scenario.level 1, Scenario.level 2]).union
            (.ofList [Scenario.level 0])) =
        table.candidates "idle" Scenario.rise
          (.ofList [Scenario.level 1, Scenario.level 2]) := by
  obtain ⟨hcompiled, hsearch⟩ := search_offers_applicable (D := Scenario.domain)
  have hcompile : compile ⟨.lazy, .onChangeOnly⟩ [Scenario.pump] = .ok _ := rfl
  obtain ⟨hlazy, hkeyed⟩ := hcompiled _ _ _ hcompile
  obtain ⟨-, -, hunmentioned⟩ := hsearch _ hlazy hkeyed "idle" Scenario.rise
    (.ofList [Scenario.level 1, Scenario.level 2])
  exact ⟨_, hcompile, hlazy, hkeyed, rfl, hunmentioned _ (by decide)⟩

end Table

end RuleMachine
