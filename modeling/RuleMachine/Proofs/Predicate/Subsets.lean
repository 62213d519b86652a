import Mathlib.Data.List.Pairwise
import Mathlib.Data.Nat.Choose.Sum
import RuleMachine.Predicate.Set
import RuleMachine.Proofs.Positions
import RuleMachine.Proofs.SortedSet
import RuleMachine.Scenario.Kinds

/-! # Laws of subsets

A search goes through all subsets of what is supplied. None is missing, none comes
twice, and none comes after a smaller one: the first that answers is as large as any
that do. The subsets of one size are picked at ascending positions, which are gone
through without a fault and to an end.
-/

namespace RuleMachine

namespace PredicateSet

variable {V : Vocabulary}

/-- A list that is ascending already is the list of the set made from it. -/
theorem ofList_of_ascending {values : List (Predicate V)}
    (h : values.Pairwise (fun low high => compare low high = .lt)) :
    ofList values = ⟨values, h⟩ :=
  SortedSet.ext_mem fun _ => SortedSet.mem_ofList

theorem toList_sublist_of_subset {set subset : PredicateSet V}
    (h : ∀ value ∈ subset, value ∈ set) : subset.toList.Sublist set.toList := by
  -- Filtering keeps the order, so the subset is what a filter leaves of the set.
  have hfilter : subset = ⟨set.toList.filter (fun value => value ∈ subset),
      set.ascending.filter _⟩ := by
    apply SortedSet.ext_mem
    intro value
    change value ∈ subset ↔ value ∈ set.toList.filter (fun value => value ∈ subset)
    rw [List.mem_filter, decide_eq_true_eq]
    exact ⟨fun hvalue => ⟨h value hvalue, hvalue⟩, And.right⟩
  rw [hfilter]
  exact List.filter_sublist

/-- The choices of so many values of a set are its subsets of that size. -/
theorem mem_map_ofList_choices {set subset : PredicateSet V} {count : Nat} :
    subset ∈ (choices count set.toList).map ofList ↔
      (∀ value ∈ subset, value ∈ set) ∧ subset.size = count := by
  simp only [List.mem_map, mem_choices]
  constructor
  · intro h
    rcases h with ⟨values, ⟨hsub, rfl⟩, rfl⟩
    rw [ofList_of_ascending (set.ascending.sublist hsub)]
    exact ⟨fun value hvalue => hsub.subset hvalue, rfl⟩
  · intro h
    rcases h with ⟨hsubset, rfl⟩
    exact ⟨subset.toList, ⟨toList_sublist_of_subset hsubset, rfl⟩,
      ofList_of_ascending subset.ascending⟩

/-- The subsets of one size are made from the choices of so many values. -/
theorem subsetsBySize_eq (set : PredicateSet V) : subsetsBySize set =
    (List.range (set.size + 1)).reverse.flatMap fun count =>
      (choices count set.toList).map ofList := by
  simp only [subsetsBySize, ← map_pick_indexChoices, List.map_map, Function.comp_def]

theorem mem_subsetsBySize {set subset : PredicateSet V} :
    subset ∈ subsetsBySize set ↔ ∀ value ∈ subset, value ∈ set := by
  simp only [subsetsBySize_eq, List.mem_flatMap, List.mem_reverse, List.mem_range,
    mem_map_ofList_choices]
  constructor
  · intro h
    rcases h with ⟨count, -, hsubset, -⟩
    exact hsubset
  · intro hsubset
    have hsize : subset.size ≤ set.size := (toList_sublist_of_subset hsubset).length_le
    exact ⟨subset.size, Nat.lt_succ_of_le hsize, hsubset, rfl⟩

/-- The order of a search: a larger set before a smaller one, and sets of one size as sets
compare. -/
def Precedes (earlier later : PredicateSet V) : Prop :=
  later.size < earlier.size ∨ earlier.size = later.size ∧ compare earlier later = .lt

/-- No two sets precede each other, and so none precedes itself. -/
theorem not_precedes_both {first second : PredicateSet V} (h : Precedes first second) :
    ¬Precedes second first := by
  rintro (hlt | ⟨hsize, hgt⟩)
  · rcases h with hgt | ⟨hsize, -⟩ <;> omega
  · rcases h with hlt | ⟨-, hlt⟩
    · omega
    · exact SortedSet.not_compare_lt_both hlt hgt

/-- Subsets come in the order of a search. -/
theorem pairwise_subsetsBySize (set : PredicateSet V) :
    (subsetsBySize set).Pairwise Precedes := by
  rw [subsetsBySize_eq, List.pairwise_flatMap]
  constructor
  · intro count _
    rw [List.pairwise_map]
    -- Choices are ascending lists already, so they compare as the sets made from them.
    refine (pairwise_choices set.ascending).imp_of_mem fun hearlier hlater hlt => ?_
    obtain ⟨hearlier, hcount⟩ := mem_choices.mp hearlier
    obtain ⟨hlater, hlength⟩ := mem_choices.mp hlater
    rw [ofList_of_ascending (set.ascending.sublist hearlier),
      ofList_of_ascending (set.ascending.sublist hlater)]
    exact .inr ⟨hcount.trans hlength.symm, compare_eq_lt_iff_lex.mpr hlt⟩
  · rw [List.pairwise_reverse]
    refine List.pairwise_lt_range.imp fun hlt earlier hearlier later hlater => .inl ?_
    obtain ⟨-, hearlier⟩ := mem_map_ofList_choices.mp hearlier
    obtain ⟨-, hlater⟩ := mem_map_ofList_choices.mp hlater
    rwa [hearlier, hlater]

/-- Larger subsets come first. -/
theorem pairwise_size_subsetsBySize (set : PredicateSet V) :
    (subsetsBySize set).Pairwise (fun earlier later => later.size ≤ earlier.size) := by
  refine (pairwise_subsetsBySize set).imp ?_
  rintro earlier later (hlt | ⟨hsize, -⟩) <;> omega

/-- No subset comes twice. -/
theorem nodup_subsetsBySize (set : PredicateSet V) : (subsetsBySize set).Nodup := by
  refine (pairwise_subsetsBySize set).imp ?_
  rintro earlier _ hbefore rfl
  exact not_precedes_both hbefore hbefore

/-- Each value is in a subset or is not. -/
theorem length_subsetsBySize (set : PredicateSet V) :
    (subsetsBySize set).length = 2 ^ set.size := by
  have hsizes : (subsetsBySize set).length =
      ((List.range (set.size + 1)).map fun count => set.size.choose count).sum := by
    rw [subsetsBySize_eq, List.length_flatMap, List.map_reverse, List.sum_reverse]
    simp only [List.length_map, length_choices, SortedSet.size]
  rw [hsizes, ← Nat.sum_range_choose]
  rfl

/-- The search starts with all that is supplied. -/
theorem head?_subsetsBySize (set : PredicateSet V) : (subsetsBySize set).head? = some set := by
  have hall : (choices set.size set.toList).map ofList = [set] := by
    rw [SortedSet.size, choices_length_self, List.map_singleton, ofList_of_ascending set.ascending]
  rw [subsetsBySize_eq, List.range_succ, List.reverse_concat, List.flatMap_cons, hall]
  rfl

theorem getLast?_subsetsBySize (set : PredicateSet V) :
    (subsetsBySize set).getLast? = some ∅ := by
  rw [subsetsBySize_eq, List.range_succ_eq_map, List.reverse_cons, List.flatMap_append,
    List.flatMap_singleton, choices, List.getLast?_append]
  rfl

/-- From ascending positions a step never has to form a difference below zero or to look up a
position that is not there, and it leaves less to go on to. So going on ends, and it lists the
strictly ascending lists of so many positions below the size, all of them and only them, rising
in lexicographic order; there are none if that many do not fit. Picked at these positions,
the subsets of a set are all listed, each once, and so two to the power of its size of them:
from the set itself down to the empty set, larger ones first, those of one size as sets
compare. -/
theorem subsetsBySize_enumerates :
    (∀ size count : Nat,
      (∀ positions : Positions size count, step? size positions.toList ≠ none ∧
        ∀ next, positions.advance? = some next →
          remaining size next.toList < remaining size positions.toList) ∧
      (∀ list, list ∈ (indexChoices size count).map Positions.toList ↔
        list.length = count ∧ list.Pairwise (· < ·) ∧ ∀ position ∈ list, position < size) ∧
      ((indexChoices size count).map Positions.toList).Pairwise (List.Lex (· < ·)) ∧
      (size < count → indexChoices size count = [])) ∧
    ∀ set : PredicateSet V,
      (∀ subset, subset ∈ subsetsBySize set ↔ ∀ value ∈ subset, value ∈ set) ∧
      (subsetsBySize set).Nodup ∧ (subsetsBySize set).length = 2 ^ set.size ∧
      (subsetsBySize set).head? = some set ∧ (subsetsBySize set).getLast? = some ∅ ∧
      (subsetsBySize set).Pairwise Precedes := by
  constructor
  · intro size count
    refine ⟨fun positions => ⟨positions.step?_ne_none, ?_⟩, fun list => mem_map_toList_indexChoices,
      pairwise_map_toList_indexChoices size count, ?_⟩
    · intro next hadvance
      exact (Positions.moves_of_advance? hadvance).remaining_lt
    · intro hsize
      exact dif_neg (Nat.not_le_of_lt hsize)
  · intro set
    exact ⟨fun subset => mem_subsetsBySize, nodup_subsetsBySize set, length_subsetsBySize set,
      head?_subsetsBySize set, getLast?_subsetsBySize set, pairwise_subsetsBySize set⟩

/-- The first two of four positions move on to ones with less after them, and five positions do
not fit into three. -/
theorem subsetsBySize_enumerates_pairs :
    ∃ next : Positions 4 2,
      (Positions.first (Nat.le_of_ble_eq_true rfl : 2 ≤ 4)).advance? = some next ∧
      remaining 4 next.toList < remaining 4 [0, 1] ∧ indexChoices 3 5 = [] := by
  obtain ⟨hpositions, -⟩ := subsetsBySize_enumerates (V := Scenario.vocabulary)
  obtain ⟨hsteps, -⟩ := hpositions 4 2
  obtain ⟨-, -, -, hnone⟩ := hpositions 3 5
  exact ⟨_, rfl, (hsteps (Positions.first (Nat.le_of_ble_eq_true rfl))).2 _ rfl, hnone (by decide)⟩

end PredicateSet

end RuleMachine
