/-! # Positions

The ways to pick some of the items of a list are gone through by their positions, which
ascend. From one way to the next, the last position that has room above it moves up by one,
and all positions after it follow directly upon each other. A position is a plain number:
`step?` has no answer if a difference would fall below zero or a position is asked for that is
not there. On ascending positions this does not happen, and what comes next ascends as well
and is later in the lexicographic order, so that going on comes to an end.
-/

namespace RuleMachine

/-! ## One step -/

/-- How far the first number is above the second, if it is not below it. -/
def difference? (high low : Nat) : Option Nat :=
  if low ≤ high then some (high - low) else none

/-- The last one of so many leading positions that has room above it, if there is one. -/
def pivot? (size : Nat) (positions : List Nat) : Nat → Option (Option Nat)
  | 0 => some none
  | index + 1 => do
      let highest ← difference? (index + size) positions.length
      let position ← positions[index]?
      if position = highest then pivot? size positions index else some (some index)

/-- Let a position follow directly upon the one before it. -/
def followOn? (positions : List Nat) (index : Nat) : Option (List Nat) := do
  let before ← difference? index 1
  let position ← positions[before]?
  some (positions.set index (position + 1))

/-- The positions that come next, if these are not the last ones. -/
def step? (size : Nat) (positions : List Nat) : Option (Option (List Nat)) := do
  match ← pivot? size positions positions.length with
  | none => some none
  | some pivot =>
      let position ← positions[pivot]?
      let later := List.range' (pivot + 1) (positions.length - (pivot + 1))
      let next ← later.foldlM followOn? (positions.set pivot (position + 1))
      some (some next)

/-- The last `count` positions below `size`: none of them has room above it. -/
def lastPositions (size count : Nat) : List Nat :=
  List.range' (size - count) count

/-- A step moves one position up. Those after it have no room above them, and come to stand
directly upon it. -/
structure Moves (size : Nat) (positions next : List Nat) : Prop where
  exists_split : ∃ kept moved rest, moved + rest + 1 < size ∧
    positions = kept ++ moved :: lastPositions size rest ∧
    next = kept ++ List.range' (moved + 1) (rest + 1)

theorem length_lastPositions (size count : Nat) : (lastPositions size count).length = count :=
  List.length_range'

/-- Positions without room above them are passed over. -/
theorem pivot?_append_lastPositions {size rest passed : Nat} (kept : List Nat)
    (hrest : rest ≤ size) (hpassed : passed ≤ rest) :
    pivot? size (kept ++ lastPositions size rest) (kept.length + passed) =
      pivot? size (kept ++ lastPositions size rest) kept.length := by
  induction passed with
  | zero => rfl
  | succ passed ih =>
      have hhighest : difference? (kept.length + passed + size)
          (kept ++ lastPositions size rest).length = some (size - rest + passed) := by
        rw [difference?, List.length_append, length_lastPositions, if_pos (by omega)]
        exact congrArg some (by omega)
      have hposition : (kept ++ lastPositions size rest)[kept.length + passed]? =
          some (size - rest + passed) := by
        rw [List.getElem?_append_right (Nat.le_add_right _ _), Nat.add_sub_cancel_left,
          lastPositions, List.getElem?_range' hpassed, Nat.one_mul]
      rw [← Nat.add_assoc, pivot?, hhighest, hposition]
      simpa using ih (Nat.le_of_succ_le hpassed)

theorem pivot?_lastPositions {size count : Nat} (h : count ≤ size) :
    pivot? size (lastPositions size count) count = some none := by
  simpa [pivot?] using pivot?_append_lastPositions [] h (Nat.le_refl count)

/-- The search stops at the first position from the end that has room above it. -/
theorem pivot?_of_room {size moved rest : Nat} (kept : List Nat) (hroom : moved + rest + 1 < size) :
    pivot? size (kept ++ moved :: lastPositions size rest) (kept.length + (rest + 1)) =
      some (some kept.length) := by
  have hpassed := pivot?_append_lastPositions (kept ++ [moved]) (by omega : rest ≤ size)
    (Nat.le_refl rest)
  rw [List.append_assoc, List.singleton_append, List.length_append, List.length_singleton] at hpassed
  have hhighest : difference? (kept.length + size)
      (kept ++ moved :: lastPositions size rest).length = some (size - (rest + 1)) := by
    rw [difference?, List.length_append, List.length_cons, length_lastPositions,
      if_pos (by omega)]
    exact congrArg some (by omega)
  have hne : moved ≠ size - (rest + 1) := by omega
  rw [Nat.add_comm rest 1, ← Nat.add_assoc, hpassed, pivot?, hhighest]
  simp [hne]

/-- Positions that follow on one by one come to stand directly upon the one before them. -/
theorem foldlM_followOn? (kept : List Nat) (moved : Nat) (later : List Nat) :
    (List.range' (kept.length + 1) later.length).foldlM followOn? (kept ++ moved :: later) =
      some (kept ++ List.range' moved (later.length + 1)) := by
  induction later generalizing kept moved with
  | nil => rfl
  | cons position later ih =>
      have hfollow : followOn? (kept ++ moved :: position :: later) (kept.length + 1) =
          some ((kept ++ [moved]) ++ (moved + 1) :: later) := by
        simp [followOn?, difference?]
      have hrest := ih (kept ++ [moved]) (moved + 1)
      rw [List.length_append, List.length_singleton] at hrest
      rw [List.length_cons, List.range'_succ, List.foldlM_cons, hfollow, Option.bind_eq_bind,
        Option.bind_some, hrest, List.append_assoc]
      rfl

theorem step?_lastPositions {size count : Nat} (h : count ≤ size) :
    step? size (lastPositions size count) = some none := by
  rw [step?, length_lastPositions, pivot?_lastPositions h]
  rfl

theorem step?_of_moves {size : Nat} {positions next : List Nat} (h : Moves size positions next) :
    step? size positions = some (some next) := by
  obtain ⟨kept, moved, rest, hroom, rfl, rfl⟩ := h.exists_split
  have hfollow := foldlM_followOn? kept (moved + 1) (lastPositions size rest)
  rw [length_lastPositions] at hfollow
  have hlength : (kept ++ moved :: lastPositions size rest).length = kept.length + (rest + 1) := by
    rw [List.length_append, List.length_cons, length_lastPositions]
  have hlater : kept.length + (rest + 1) - (kept.length + 1) = rest := by omega
  rw [step?, hlength, pivot?_of_room kept hroom]
  simp [hlater, hfollow]

/-! ## Positions that ascend -/

/-- As many positions of a list of the given size as the count says, in ascending order. -/
structure Positions (size count : Nat) where
  toList : List Nat
  length_toList : toList.length = count
  ascending : toList.Pairwise (· < ·)
  lt_size : ∀ position ∈ toList, position < size

/-- There is room for what ascends from a position. -/
theorem add_length_le_of_ascending {size position : Nat} {later : List Nat}
    (hascending : (position :: later).Pairwise (· < ·))
    (hbelow : ∀ other ∈ position :: later, other < size) : position + later.length < size := by
  induction later generalizing position with
  | nil => exact hbelow position List.mem_cons_self
  | cons next later ih =>
      obtain ⟨hhead, hlater⟩ := List.pairwise_cons.mp hascending
      have hnext : position < next := hhead next List.mem_cons_self
      have hroom := ih hlater fun other hother => hbelow other (List.mem_cons_of_mem _ hother)
      rw [List.length_cons]
      omega

theorem lastPositions_succ {size count : Nat} (h : count < size) :
    lastPositions size (count + 1) = (size - (count + 1)) :: lastPositions size count := by
  have hstart : size - (count + 1) + 1 = size - count := by omega
  rw [lastPositions, List.range'_succ, hstart]
  rfl

/-- Ascending positions are the last ones, or one of them has room above it. -/
theorem eq_lastPositions_or_moves {size : Nat} {positions : List Nat}
    (hascending : positions.Pairwise (· < ·)) (hbelow : ∀ position ∈ positions, position < size) :
    positions = lastPositions size positions.length ∨ ∃ next, Moves size positions next := by
  induction positions with
  | nil => exact .inl rfl
  | cons position later ih =>
      have hroom := add_length_le_of_ascending hascending hbelow
      have hcases := ih hascending.of_cons fun other hother =>
        hbelow other (List.mem_cons_of_mem _ hother)
      cases hcases with
      | inl hlast =>
          by_cases hhighest : position = size - (later.length + 1)
          · left
            rw [List.length_cons, lastPositions_succ (by omega), ← hlast, ← hhighest]
          · right
            exact ⟨_, ⟨[], position, later.length, by omega, by rw [← hlast]; rfl, rfl⟩⟩
      | inr hmoves =>
          obtain ⟨next, hmoves⟩ := hmoves
          obtain ⟨kept, moved, rest, hmoved, hsplit, -⟩ := hmoves.exists_split
          exact .inr ⟨_, ⟨position :: kept, moved, rest, hmoved, by rw [hsplit]; rfl, rfl⟩⟩

namespace Moves

variable {size : Nat} {positions next : List Nat} (h : Moves size positions next)

include h

theorem length_eq : next.length = positions.length := by
  obtain ⟨kept, moved, rest, -, rfl, rfl⟩ := h.exists_split
  simp [length_lastPositions]

theorem ascending (hascending : positions.Pairwise (· < ·)) : next.Pairwise (· < ·) := by
  obtain ⟨kept, moved, rest, -, rfl, rfl⟩ := h.exists_split
  rw [List.pairwise_append] at hascending ⊢
  obtain ⟨hkept, -, hbetween⟩ := hascending
  refine ⟨hkept, List.pairwise_lt_range', fun low hlow high hhigh => ?_⟩
  have hmoved : low < moved := hbetween low hlow moved List.mem_cons_self
  have hfrom : moved + 1 ≤ high := (List.mem_range'_1.mp hhigh).1
  omega

theorem lt_size (hbelow : ∀ position ∈ positions, position < size) :
    ∀ position ∈ next, position < size := by
  obtain ⟨kept, moved, rest, hroom, rfl, rfl⟩ := h.exists_split
  intro position hposition
  rcases List.mem_append.mp hposition with hkept | hlater
  · exact hbelow position (List.mem_append_left _ hkept)
  · have hupto : position < moved + 1 + (rest + 1) := (List.mem_range'_1.mp hlater).2
    omega

end Moves

/-! ## Going on to the end -/

/-- How far positions are from the last ones: the room above each is a digit. -/
def remaining (size : Nat) : List Nat → Nat
  | [] => 0
  | position :: later => (size - position) * Nat.pow (size + 1) later.length + remaining size later

theorem remaining_lt (size : Nat) (positions : List Nat) :
    remaining size positions < Nat.pow (size + 1) positions.length := by
  induction positions with
  | nil => exact Nat.one_pos
  | cons position later ih =>
      calc remaining size (position :: later)
          < (size - position) * Nat.pow (size + 1) later.length +
              Nat.pow (size + 1) later.length := Nat.add_lt_add_left ih _
        _ = (size - position + 1) * Nat.pow (size + 1) later.length := (Nat.succ_mul _ _).symm
        _ ≤ (size + 1) * Nat.pow (size + 1) later.length := Nat.mul_le_mul_right _ (by omega)
        _ = Nat.pow (size + 1) (position :: later).length := Nat.mul_comm _ _

theorem remaining_append_lt {size : Nat} {low high : List Nat} (kept : List Nat)
    (hlength : low.length = high.length) (hlt : remaining size low < remaining size high) :
    remaining size (kept ++ low) < remaining size (kept ++ high) := by
  induction kept with
  | nil => exact hlt
  | cons position kept ih =>
      have hlengths : (kept ++ low).length = (kept ++ high).length := by
        rw [List.length_append, List.length_append, hlength]
      simp only [List.cons_append, remaining, hlengths]
      exact Nat.add_lt_add_left ih _

/-- A step takes away more from the digit of the position that moves than those after it can
make up for. -/
theorem Moves.remaining_lt {size : Nat} {positions next : List Nat}
    (h : Moves size positions next) : remaining size next < remaining size positions := by
  obtain ⟨kept, moved, rest, hroom, rfl, rfl⟩ := h.exists_split
  have hlength : (List.range' (moved + 1) (rest + 1)).length =
      (moved :: lastPositions size rest).length := by
    rw [List.length_range', List.length_cons, length_lastPositions]
  apply remaining_append_lt kept hlength
  have hlater := RuleMachine.remaining_lt size (List.range' (moved + 1 + 1) rest)
  rw [List.range'_succ, remaining, remaining, List.length_range', length_lastPositions]
  rw [List.length_range'] at hlater
  have hdigit : size - moved = size - (moved + 1) + 1 := by omega
  rw [hdigit, Nat.succ_mul]
  omega

namespace Positions

variable {size count : Nat}

theorem count_le_size (positions : Positions size count) : count ≤ size := by
  obtain ⟨list, rfl, hascending, hbelow⟩ := positions
  cases list with
  | nil => exact Nat.zero_le size
  | cons position later =>
      have hroom := add_length_le_of_ascending hascending hbelow
      rw [List.length_cons]
      omega

/-- The last positions stay where they are, and all others move. -/
theorem step?_cases (positions : Positions size count) :
    step? size positions.toList = some none ∧ positions.toList = lastPositions size count ∨
      ∃ next, step? size positions.toList = some (some next) ∧
        Moves size positions.toList next := by
  have hcases := eq_lastPositions_or_moves positions.ascending positions.lt_size
  rw [positions.length_toList] at hcases
  cases hcases with
  | inl hlast =>
      left
      rw [hlast]
      exact ⟨step?_lastPositions positions.count_le_size, rfl⟩
  | inr hmoves =>
      obtain ⟨next, hmoves⟩ := hmoves
      exact .inr ⟨next, step?_of_moves hmoves, hmoves⟩

/-- No difference falls below zero, and no position is missing. -/
theorem step?_ne_none (positions : Positions size count) : step? size positions.toList ≠ none := by
  rcases positions.step?_cases with ⟨hstep, -⟩ | ⟨next, hstep, -⟩ <;> rw [hstep] <;> nofun

theorem moves_of_step? {positions : Positions size count} {next : List Nat}
    (h : step? size positions.toList = some (some next)) : Moves size positions.toList next := by
  rcases positions.step?_cases with ⟨hstep, -⟩ | ⟨other, hstep, hmoves⟩
  · rw [h] at hstep
    cases hstep
  · rw [h] at hstep
    cases hstep
    exact hmoves

/-- Where the positions move to. -/
def moved (positions : Positions size count) {next : List Nat}
    (h : Moves size positions.toList next) : Positions size count where
  toList := next
  length_toList := h.length_eq.trans positions.length_toList
  ascending := h.ascending positions.ascending
  lt_size := h.lt_size positions.lt_size

/-- The positions that come next, if these are not the last ones. -/
def advance? (positions : Positions size count) : Option (Positions size count) :=
  match h : step? size positions.toList with
  | none => absurd h positions.step?_ne_none
  | some none => none
  | some (some _) => some (positions.moved (moves_of_step? h))

theorem advance?_of_moves {positions : Positions size count} {next : List Nat}
    (h : Moves size positions.toList next) : positions.advance? = some (positions.moved h) := by
  have hstep := step?_of_moves h
  unfold advance?
  split
  next hnone => rw [hnone] at hstep; cases hstep
  next hlast => rw [hlast] at hstep; cases hstep
  next other hother =>
    rw [hother] at hstep
    cases hstep
    rfl

theorem advance?_of_last {positions : Positions size count}
    (h : positions.toList = lastPositions size count) : positions.advance? = none := by
  have hstep : step? size positions.toList = some none := by
    rw [h]
    exact step?_lastPositions positions.count_le_size
  unfold advance?
  split
  next hnone => exact absurd hnone positions.step?_ne_none
  next => rfl
  next other hother => rw [hother] at hstep; cases hstep

theorem moves_of_advance? {positions next : Positions size count}
    (h : positions.advance? = some next) : Moves size positions.toList next.toList := by
  rcases positions.step?_cases with ⟨-, hlast⟩ | ⟨list, -, hmoves⟩
  · rw [advance?_of_last hlast] at h
    cases h
  · rw [advance?_of_moves hmoves] at h
    cases h
    exact hmoves

/-- These positions and all that come after them. -/
@[semireducible]
def onward (positions : Positions size count) : List (Positions size count) :=
  positions :: match _h : positions.advance? with
    | none => []
    | some next => next.onward
termination_by remaining size positions.toList
decreasing_by exact (moves_of_advance? _h).remaining_lt

/-- The first positions of a list. -/
def first (h : count ≤ size) : Positions size count where
  toList := List.range count
  length_toList := List.length_range
  ascending := List.pairwise_lt_range
  lt_size _ hposition := Nat.lt_of_lt_of_le (List.mem_range.mp hposition) h

/-- The items at the positions, in order. -/
def pick {α : Type} (items : List α) (positions : Positions items.length count) : List α :=
  positions.toList.pmap (fun position h => items.get ⟨position, h⟩) positions.lt_size

end Positions

/-- All ways to pick `count` of so many items, by their positions. There are none if there are
not as many items. -/
def indexChoices (size count : Nat) : List (Positions size count) :=
  if h : count ≤ size then (Positions.first h).onward else []

end RuleMachine
