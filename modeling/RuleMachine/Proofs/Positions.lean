import Mathlib.Data.List.Chain
import Mathlib.Data.List.Sort
import RuleMachine.Positions
import RuleMachine.Proofs.Combination

/-! # Laws of positions

Going on from the first positions comes upon all ascending positions, in lexicographic order.
That is shown by comparing with the choices from an ascending list: each of these moves to the
one after it, the first of them are the first positions and the last of them the last ones, so
that going on lists nothing else. What is picked at positions therefore comes in the order of
the choices from the items.
-/

namespace RuleMachine

variable {α : Type} {size count : Nat}

theorem Moves.cons {positions next : List Nat} (h : Moves size positions next) (position : Nat) :
    Moves size (position :: positions) (position :: next) := by
  obtain ⟨kept, moved, rest, hroom, rfl, rfl⟩ := h.exists_split
  exact ⟨position :: kept, moved, rest, hroom, rfl, rfl⟩

/-! ## The choices from an ascending list -/

/-- From the positions that start at the given one, a listing goes through to the last ones, and
each of its entries moves to the one after it. -/
structure GoesThrough (size count start : Nat) (listing : List (List Nat)) : Prop where
  isChain : listing.IsChain (Moves size)
  head?_eq : listing.head? = some (List.range' start count)
  getLast?_eq : listing.getLast? = some (lastPositions size count)

theorem goesThrough_singleton (size start : Nat) : GoesThrough size 0 start [[]] :=
  ⟨List.isChain_singleton [], rfl, rfl⟩

namespace GoesThrough

variable {start : Nat} {listing others : List (List Nat)}

/-- With a further position in front that stands still, the listing ends where that one has room
above it for the first time. -/
theorem map_cons (h : GoesThrough size count (start + 1) listing) :
    (listing.map (start :: ·)).IsChain (Moves size) ∧
      (listing.map (start :: ·)).head? = some (List.range' start (count + 1)) ∧
      (listing.map (start :: ·)).getLast? = some (start :: lastPositions size count) := by
  refine ⟨?_, ?_, ?_⟩
  · exact List.isChain_map_of_isChain _ (fun _ _ hmoves => hmoves.cons start) h.isChain
  · rw [List.head?_map, h.head?_eq]
    rfl
  · rw [List.getLast?_map, h.getLast?_eq]
    rfl

/-- The front position moves up once all positions after it are the last ones. -/
theorem append (h : GoesThrough size count (start + 1) listing)
    (hothers : GoesThrough size (count + 1) (start + 1) others) (hroom : start + count + 1 < size) :
    GoesThrough size (count + 1) start (listing.map (start :: ·) ++ others) := by
  obtain ⟨hchain, hhead, hlast⟩ := h.map_cons
  refine ⟨hchain.append hothers.isChain ?_, ?_, ?_⟩
  · intro last hlastmem next hnext
    rw [hlast] at hlastmem
    rw [hothers.head?_eq] at hnext
    cases hlastmem
    cases hnext
    exact ⟨[], start, count, hroom, rfl, rfl⟩
  · rw [List.head?_append, hhead]
    rfl
  · rw [List.getLast?_append, hothers.getLast?_eq]
    rfl

end GoesThrough

/-- Induction on the length of the list: the choices with its head come before those without. -/
theorem goesThrough_choices {start length : Nat} (hsize : start + length = size)
    (hcount : count ≤ length) :
    GoesThrough size count start (choices count (List.range' start length)) := by
  induction length generalizing start count with
  | zero =>
      rw [Nat.le_zero.mp hcount]
      exact goesThrough_singleton size start
  | succ length ih =>
      cases count with
      | zero => exact goesThrough_singleton size start
      | succ count =>
          have hwith := ih (by omega : start + 1 + length = size) (Nat.le_of_succ_le_succ hcount)
          rw [List.range'_succ, choices]
          by_cases hroom : count + 1 ≤ length
          · exact hwith.append (ih (by omega) hroom) (by omega)
          · -- The head is needed for so many, and it is one of the last positions itself.
            have hstart : start = size - (count + 1) := by omega
            obtain ⟨hchain, hhead, hlast⟩ := hwith.map_cons
            have hwithout : choices (count + 1) (List.range' (start + 1) length) = [] :=
              choices_eq_nil (by rw [List.length_range']; omega)
            rw [hwithout, List.append_nil]
            refine ⟨hchain, hhead, ?_⟩
            rw [hlast, lastPositions_succ (by omega), ← hstart]

/-! ## Going on -/

namespace Positions

theorem onward_of_moves {positions : Positions size count} {next : List Nat}
    (h : Moves size positions.toList next) :
    positions.onward = positions :: (positions.moved h).onward := by
  rw [onward]
  have hadvance := advance?_of_moves h
  split
  next hnone => rw [hnone] at hadvance; cases hadvance
  next other hother =>
    rw [hother] at hadvance
    cases hadvance
    rfl

theorem onward_of_last {positions : Positions size count}
    (h : positions.toList = lastPositions size count) : positions.onward = [positions] := by
  rw [onward]
  have hadvance := advance?_of_last h
  split
  next => rfl
  next other hother => rw [hother] at hadvance; cases hadvance

/-- Going on lists whatever chain of moves leads to the last positions. -/
theorem map_toList_onward {positions : Positions size count} {listing : List (List Nat)}
    (hchain : (positions.toList :: listing).IsChain (Moves size))
    (hlast : (positions.toList :: listing).getLast? = some (lastPositions size count)) :
    positions.onward.map toList = positions.toList :: listing := by
  induction listing generalizing positions with
  | nil =>
      rw [onward_of_last (Option.some.inj hlast)]
      rfl
  | cons next listing ih =>
      obtain ⟨hmoves, hrest⟩ := List.isChain_cons_cons.mp hchain
      have honward : (positions.moved hmoves).onward.map toList = next :: listing :=
        ih hrest (by rwa [List.getLast?_cons_cons] at hlast)
      rw [onward_of_moves hmoves, List.map_cons, honward]

end Positions

theorem map_toList_indexChoices (size count : Nat) :
    (indexChoices size count).map Positions.toList = choices count (List.range size) := by
  unfold indexChoices
  split
  next hcount =>
    have hlisting := goesThrough_choices (Nat.zero_add size) hcount
    rw [← List.range_eq_range'] at hlisting
    obtain ⟨later, hlater⟩ := List.head?_eq_some_iff.mp hlisting.head?_eq
    have hfirst : (Positions.first hcount).toList = List.range' 0 count := List.range_eq_range'
    rw [hlater] at hlisting ⊢
    rw [← hfirst] at hlisting ⊢
    exact Positions.map_toList_onward hlisting.isChain hlisting.getLast?_eq
  next hcount =>
    rw [choices_eq_nil (by rw [List.length_range]; omega)]
    rfl

/-- The lists of ascending positions are the parts of the list of all positions. -/
theorem sublist_range_iff {list : List Nat} : list.Sublist (List.range size) ↔
    list.Pairwise (· < ·) ∧ ∀ position ∈ list, position < size := by
  constructor
  · intro h
    refine ⟨List.pairwise_lt_range.sublist h, fun position hposition => ?_⟩
    exact List.mem_range.mp (h.subset hposition)
  · intro h
    obtain ⟨hascending, hbelow⟩ := h
    have hsubset : list ⊆ List.range size := fun position hposition =>
      List.mem_range.mpr (hbelow position hposition)
    exact List.sublist_of_subperm_of_pairwise (List.subperm_of_subset hascending.nodup hsubset)
      hascending List.pairwise_lt_range

theorem mem_map_toList_indexChoices {list : List Nat} :
    list ∈ (indexChoices size count).map Positions.toList ↔
      list.length = count ∧ list.Pairwise (· < ·) ∧ ∀ position ∈ list, position < size := by
  rw [map_toList_indexChoices, mem_choices, sublist_range_iff, and_comm]

/-- Going on, the positions rise in lexicographic order. -/
theorem pairwise_map_toList_indexChoices (size count : Nat) :
    ((indexChoices size count).map Positions.toList).Pairwise (List.Lex (· < ·)) := by
  rw [map_toList_indexChoices]
  exact pairwise_choices List.pairwise_lt_range

/-! ## What is picked -/

theorem Positions.map_some_pick (items : List α) (positions : Positions items.length count) :
    (positions.pick items).map some = positions.toList.map (items[·]?) := by
  rw [pick, List.map_pmap, ← List.pmap_eq_map positions.lt_size]
  exact List.pmap_congr_left _ fun _ _ h _ => (List.getElem?_eq_getElem h).symm

/-- Picking at the positions of a list makes the choices from it. -/
theorem map_pick_indexChoices (count : Nat) (items : List α) :
    (indexChoices items.length count).map (Positions.pick items) = choices count items := by
  have hinjective : Function.Injective (List.map (List.map (some (α := α)))) :=
    List.map_injective_iff.mpr (List.map_injective_iff.mpr (fun _ _ => Option.some.inj))
  apply hinjective
  calc ((indexChoices items.length count).map (Positions.pick items)).map (List.map some)
      = ((indexChoices items.length count).map Positions.toList).map (List.map (items[·]?)) := by
        simp only [List.map_map, Function.comp_def, Positions.map_some_pick]
    _ = choices count ((List.range items.length).map (items[·]?)) := by
        rw [map_toList_indexChoices, choices_map]
    _ = (choices count items).map (List.map some) := by
        rw [← map_some_eq_map_range, choices_map]

end RuleMachine
