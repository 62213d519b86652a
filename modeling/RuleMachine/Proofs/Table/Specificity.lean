import RuleMachine.Proofs.Match.Concrete
import RuleMachine.Proofs.Table.Compilation

/-! # The most specific row wins

Ahead of dispatch, rows contend for every set of the closed world. The holders of
a contest are at every moment the rows of the highest rank entered so far, so in
the end each key is held by the rows that accept it at a rank nobody exceeds. The
table is complete if each key that is accepted at all has a single such row, and
otherwise the ties are reported with all rows that share the highest rank.
-/

namespace RuleMachine

namespace Eager

variable {D : Domain}

/-- The row is for the state and event of the key, and accepts its set at the rank. -/
def Contends (key : TableKey D) (row : Row D) (rank : Nat) : Prop :=
  row.state = key.state ∧ row.event = key.event ∧ row.descriptor.AcceptsAt key.predicates rank

/-- The set of the key belongs to the closed world, and some row accepts the key. -/
def Reached (rows : List (Row D)) (key : TableKey D) : Prop :=
  key.predicates ∈ pool rows ∧ ∃ row ∈ rows, ∃ rank, Contends key row rank

/-- The row accepts the key at a rank that no row exceeds. -/
def Leads (rows : List (Row D)) (key : TableKey D) (row : Row D) : Prop :=
  ∃ rank, Contends key row rank ∧
    ∀ other ∈ rows, ∀ higher, Contends key other higher → higher ≤ rank

/-- What the state of a contest says about the rows entered: the holders are those
of the highest rank, in the order in which they entered. -/
structure Contest.Ranks (entered : List (Nat × Row D)) (contest : Contest D) : Prop where
  bounded : ∀ entry ∈ entered, entry.1 ≤ contest.rank
  holders_eq : contest.holders =
    (entered.filter (fun entry => entry.1 = contest.rank)).map Prod.snd
  attained : entered ≠ [] → contest.holders ≠ []

theorem Contest.ranks_vacant : (vacant : Contest D).Ranks [] where
  bounded _ hmem := absurd hmem List.not_mem_nil
  holders_eq := rfl
  attained h := absurd rfl h

/-- Entering keeps the highest rank and its rows: a higher rank leaves none of the
earlier rows, whatever ties there were among them. -/
theorem Contest.Ranks.enter {entered : List (Nat × Row D)} {contest : Contest D}
    (h : contest.Ranks entered) (rank : Nat) (row : Row D) :
    (contest.enter rank row).Ranks (entered ++ [(rank, row)]) := by
  have hbelow : contest.holders = [] ∨ contest.rank < rank →
      ∀ entry ∈ entered, entry.1 < rank := by
    rintro (hvacant | hlower) entry hentry
    · exact absurd hvacant (h.attained (List.ne_nil_of_mem hentry))
    · exact Nat.lt_of_le_of_lt (h.bounded entry hentry) hlower
  unfold Contest.enter
  split
  next hdisplaces =>
    -- Everybody who entered before is below the new rank and drops out.
    simp only [Bool.or_eq_true, List.isEmpty_iff, decide_eq_true_eq] at hdisplaces
    have hlower := hbelow hdisplaces
    have hnone : entered.filter (fun entry => entry.1 = rank) = [] := by
      rw [List.filter_eq_nil_iff]
      exact fun entry hentry heq => Nat.ne_of_lt (hlower entry hentry) (of_decide_eq_true heq)
    refine ⟨?_, ?_, fun _ => List.cons_ne_nil row []⟩
    · exact List.forall_mem_append.mpr ⟨fun entry hentry => Nat.le_of_lt (hlower entry hentry),
        List.forall_mem_singleton.mpr (Nat.le_refl rank)⟩
    · simp [List.filter_append, hnone]
  next hkeeps =>
    simp only [Bool.or_eq_true, List.isEmpty_iff, decide_eq_true_eq, not_or, Nat.not_lt]
      at hkeeps
    have hbounded : ∀ entry ∈ entered ++ [(rank, row)], entry.1 ≤ contest.rank :=
      List.forall_mem_append.mpr ⟨h.bounded, List.forall_mem_singleton.mpr hkeeps.2⟩
    split
    next heq =>
      refine ⟨hbounded, ?_, fun _ => List.append_ne_nil_of_right_ne_nil _ (List.cons_ne_nil row [])⟩
      rw [List.filter_append, List.map_append, ← h.holders_eq]
      simp [heq]
    next hne =>
      refine ⟨hbounded, ?_, fun _ => hkeeps.1⟩
      rw [List.filter_append, List.map_append, ← h.holders_eq]
      simp [Ne.symm hne]

/-- The ranks at which contenders enter the contest for a set. -/
def entrants (contenders : List (Contender D)) (set : PredicateSet D) : List (Nat × Row D) :=
  contenders.filterMap fun contender =>
    (contender.bestRank set).map (fun rank => (rank, contender.row))

theorem Contest.Ranks.foldl {entered : List (Nat × Row D)} {contest : Contest D}
    (h : contest.Ranks entered) (set : PredicateSet D) (contenders : List (Contender D)) :
    (contenders.foldl (Contender.contend set) contest).Ranks
      (entered ++ entrants contenders set) := by
  -- The invariant carries over from any contest, not only from the vacant one.
  induction contenders generalizing entered contest with
  | nil => simpa [entrants] using h
  | cons contender rest ih =>
      rw [List.foldl_cons, Contender.contend, entrants, List.filterMap_cons]
      cases hbest : contender.bestRank set with
      | none => exact ih h
      | some rank =>
          have hstep := ih (h.enter rank contender.row)
          rw [List.append_assoc, List.singleton_append] at hstep
          exact hstep

theorem contest_ranks (contenders : List (Contender D)) (set : PredicateSet D) :
    (contest contenders set).Ranks (entrants contenders set) :=
  Contest.ranks_vacant.foldl set contenders

/-! ## Who holds a key -/

theorem contends_iff_mem_ranksIn {key : TableKey D} {row : Row D} {rank : Nat} :
    Contends key row rank ↔ row.state = key.state ∧ row.event = key.event ∧
      rank ∈ row.descriptor.ranksIn key.predicates := by
  rw [Contends, Descriptor.mem_ranksIn]

instance (rows : List (Row D)) (key : TableKey D) (row : Row D) : Decidable (Leads rows key row) :=
  decidable_of_iff
    (row.state = key.state ∧ row.event = key.event ∧
      ∃ rank ∈ row.descriptor.ranksIn key.predicates, ∀ other ∈ rows,
        other.state = key.state → other.event = key.event →
          ∀ higher ∈ other.descriptor.ranksIn key.predicates, higher ≤ rank)
    (by
      simp only [Leads, contends_iff_mem_ranksIn, and_imp]
      constructor
      · intro h
        rcases h with ⟨hstate, hevent, rank, hrank, hmost⟩
        exact ⟨rank, ⟨hstate, hevent, hrank⟩, fun other hother higher hfirst hsecond =>
          hmost other hother hfirst hsecond higher⟩
      · intro h
        rcases h with ⟨rank, ⟨hstate, hevent, hrank⟩, hmost⟩
        exact ⟨hstate, hevent, rank, hrank, fun other hother hfirst hsecond higher =>
          hmost other hother higher hfirst hsecond⟩)

/-- The rows that lead for a key, in the order of declaration. -/
def leaders (rows : List (Row D)) (key : TableKey D) : List (Row D) :=
  rows.filter (fun row => Leads rows key row)

theorem mem_leaders {rows : List (Row D)} {key : TableKey D} {row : Row D} :
    row ∈ leaders rows key ↔ row ∈ rows ∧ Leads rows key row := by
  rw [leaders, List.mem_filter, decide_eq_true_eq]

/-- The best rank of a row is the greatest of the ranks at which it accepts the set. -/
theorem bestRank_eq_some_iff {row : Row D} {set : PredicateSet D} {rank : Nat} :
    (Contender.ofRow row).bestRank set = some rank ↔
      row.descriptor.AcceptsAt set rank ∧
        ∀ other, row.descriptor.AcceptsAt set other → other ≤ rank := by
  change (row.descriptor.ranksIn set).max? = some rank ↔ _
  rw [List.max?_eq_some_iff]
  simp only [Descriptor.mem_ranksIn]

theorem exists_bestRank {row : Row D} {set : PredicateSet D} {rank : Nat}
    (h : row.descriptor.AcceptsAt set rank) :
    ∃ best, (Contender.ofRow row).bestRank set = some best ∧ rank ≤ best := by
  obtain ⟨best, hbest⟩ := Option.isSome_iff_exists.mp
    (List.isSome_max?_of_mem (Descriptor.mem_ranksIn.mpr h))
  exact ⟨best, hbest, (bestRank_eq_some_iff.mp hbest).2 rank h⟩

theorem mem_entrants {rows : List (Row D)} {key : TableKey D} {rank : Nat} {row : Row D} :
    (rank, row) ∈ entrants (contendersFor rows key.state key.event) key.predicates ↔
      row ∈ rows ∧ row.state = key.state ∧ row.event = key.event ∧
        (Contender.ofRow row).bestRank key.predicates = some rank := by
  simp only [entrants, contendersFor, List.mem_filterMap, List.mem_map, List.mem_filter,
    decide_eq_true_eq, Option.map_eq_some_iff, Prod.mk.injEq]
  constructor
  · intro h
    rcases h with ⟨_, ⟨other, ⟨hother, hstate, hevent⟩, rfl⟩, _, hbest, rfl, rfl⟩
    exact ⟨hother, hstate, hevent, hbest⟩
  · intro h
    rcases h with ⟨hrow, hstate, hevent, hbest⟩
    exact ⟨_, ⟨row, ⟨hrow, hstate, hevent⟩, rfl⟩, rank, hbest, rfl, rfl⟩

/-- A row that accepts the key enters the contest, with a rank at least as high. -/
theorem exists_mem_entrants {rows : List (Row D)} {key : TableKey D} {row : Row D} {rank : Nat}
    (hrow : row ∈ rows) (h : Contends key row rank) :
    ∃ best, (best, row) ∈ entrants (contendersFor rows key.state key.event) key.predicates ∧
      rank ≤ best := by
  obtain ⟨best, hbest, hle⟩ := exists_bestRank h.2.2
  exact ⟨best, mem_entrants.mpr ⟨hrow, h.1, h.2.1, hbest⟩, hle⟩

/-- Of scored items, those with a given score. -/
private theorem filter_scored {α : Type} (score : α → Option Nat) (items : List α) (rank : Nat) :
    ((items.filterMap (fun item => (score item).map (fun value => (value, item)))).filter
        (fun entry => entry.1 = rank)).map Prod.snd =
      items.filter (fun item => score item = some rank) := by
  induction items with
  | nil => rfl
  | cons item rest ih =>
      rw [List.filterMap_cons, List.filter_cons]
      cases hscore : score item with
      | none => simpa using ih
      | some value =>
          by_cases heq : value = rank
          · simp [heq, ih]
          · simp [heq, ih]

theorem filter_entrants (rows : List (Row D)) (key : TableKey D) (rank : Nat) :
    ((entrants (contendersFor rows key.state key.event) key.predicates).filter
        (fun entry => entry.1 = rank)).map Prod.snd =
      rows.filter (fun row => (row.state = key.state ∧ row.event = key.event) ∧
        (Contender.ofRow row).bestRank key.predicates = some rank) := by
  have hrows : entrants (contendersFor rows key.state key.event) key.predicates =
      (rows.filter (fun row => row.state = key.state ∧ row.event = key.event)).filterMap
        (fun row => ((Contender.ofRow row).bestRank key.predicates).map
          (fun value => (value, row))) := by
    rw [entrants, contendersFor, List.filterMap_map]
    rfl
  rw [hrows, filter_scored, List.filter_filter]
  simp only [Bool.decide_and, Bool.and_comm]

/-- A row leads for a key just when its best rank is the one that the contest ends with. -/
theorem leads_iff_bestRank {rows : List (Row D)} {key : TableKey D} {row : Row D}
    (hrow : row ∈ rows) :
    Leads rows key row ↔ (row.state = key.state ∧ row.event = key.event) ∧
      (Contender.ofRow row).bestRank key.predicates =
        some (contest (contendersFor rows key.state key.event) key.predicates).rank := by
  have hranks := contest_ranks (contendersFor rows key.state key.event) key.predicates
  constructor
  · intro h
    rcases h with ⟨rank, hcontends, hmost⟩
    refine ⟨⟨hcontends.1, hcontends.2.1⟩, ?_⟩
    obtain ⟨best, hentrant, hle⟩ := exists_mem_entrants hrow hcontends
    obtain ⟨holder, hholder⟩ := List.exists_mem_of_ne_nil _
      (hranks.attained (List.ne_nil_of_mem hentrant))
    rw [hranks.holders_eq, filter_entrants, List.mem_filter, decide_eq_true_eq] at hholder
    obtain ⟨hmem, ⟨hstate, hevent⟩, hbest⟩ := hholder
    -- The holder bounds the row from above by leading, and from below by holding.
    have htop := hmost holder hmem _ ⟨hstate, hevent, (bestRank_eq_some_iff.mp hbest).1⟩
    have hbound : best ≤ _ := hranks.bounded _ hentrant
    have heq : best = (contest (contendersFor rows key.state key.event) key.predicates).rank := by
      omega
    exact heq ▸ (mem_entrants.mp hentrant).2.2.2
  · intro h
    rcases h with ⟨⟨hstate, hevent⟩, hbest⟩
    refine ⟨_, ⟨hstate, hevent, (bestRank_eq_some_iff.mp hbest).1⟩, ?_⟩
    intro other hother higher hcontends
    obtain ⟨best, hentrant, hle⟩ := exists_mem_entrants hother hcontends
    exact Nat.le_trans hle (hranks.bounded _ hentrant)

/-- In the end a key is held by the rows that lead for it. -/
theorem holders_contest (rows : List (Row D)) (key : TableKey D) :
    (contest (contendersFor rows key.state key.event) key.predicates).holders =
      leaders rows key := by
  rw [(contest_ranks _ _).holders_eq, filter_entrants, leaders]
  exact List.filter_congr fun row hrow => by rw [decide_eq_decide, leads_iff_bestRank hrow]

/-- Some row leads for every key that is accepted at all. -/
theorem leaders_ne_nil_iff {rows : List (Row D)} {key : TableKey D} :
    leaders rows key ≠ [] ↔ ∃ row ∈ rows, ∃ rank, Contends key row rank := by
  constructor
  · intro h
    obtain ⟨row, hrow⟩ := List.exists_mem_of_ne_nil _ h
    obtain ⟨hmem, rank, hcontends, -⟩ := mem_leaders.mp hrow
    exact ⟨row, hmem, rank, hcontends⟩
  · intro h
    rcases h with ⟨row, hrow, rank, hcontends⟩
    obtain ⟨best, hentrant, -⟩ := exists_mem_entrants hrow hcontends
    rw [← holders_contest]
    exact (contest_ranks _ _).attained (List.ne_nil_of_mem hentrant)

/-! ## Slots -/

theorem mem_subjects {rows : List (Row D)} {state : D.State} {event : D.Event} :
    (state, event) ∈ subjects rows ↔ ∃ row ∈ rows, row.state = state ∧ row.event = event := by
  simp only [subjects, mem_distinct, List.mem_map, Prod.mk.injEq]

theorem mem_slotsAmong {pool : List (PredicateSet D)} {contenders : List (Contender D)}
    {state : D.State} {event : D.Event} {slot : Slot D} :
    slot ∈ slotsAmong pool contenders state event ↔
      slot.key.state = state ∧ slot.key.event = event ∧ slot.key.predicates ∈ pool ∧
        slot.holders = (contest contenders slot.key.predicates).holders ∧ slot.holders ≠ [] := by
  rw [slotsAmong, List.mem_filterMap]
  constructor
  · intro h
    rcases h with ⟨set, hset, hslot⟩
    split at hslot
    next => cases hslot
    next holders hholders =>
      cases hslot
      exact ⟨rfl, rfl, hset, rfl, hholders⟩
  · obtain ⟨⟨slotState, slotEvent, set⟩, holders⟩ := slot
    intro h
    rcases h with ⟨rfl, rfl, hset, hholders, hsome⟩
    refine ⟨set, hset, ?_⟩
    dsimp only at hholders hsome
    rw [← hholders]
    split
    next => exact absurd rfl hsome
    next => rfl

/-- The slots are the keys that are reached, each held by the rows that lead for it. -/
theorem mem_slots {rows : List (Row D)} {slot : Slot D} :
    slot ∈ slots rows ↔ Reached rows slot.key ∧ slot.holders = leaders rows slot.key := by
  rw [slots, List.mem_flatMap]
  constructor
  · intro h
    rcases h with ⟨⟨state, event⟩, -, hslot⟩
    obtain ⟨rfl, rfl, hpool, hholders, hsome⟩ := mem_slotsAmong.mp hslot
    rw [holders_contest] at hholders
    rw [hholders] at hsome
    exact ⟨⟨hpool, leaders_ne_nil_iff.mp hsome⟩, hholders⟩
  · intro h
    rcases h with ⟨⟨hpool, hreached⟩, hholders⟩
    refine ⟨(slot.key.state, slot.key.event), ?_, mem_slotsAmong.mpr ⟨rfl, rfl, hpool, ?_, ?_⟩⟩
    · obtain ⟨row, hrow, rank, hcontends⟩ := hreached
      exact mem_subjects.mpr ⟨row, hrow, hcontends.1, hcontends.2.1⟩
    · rw [hholders, holders_contest]
    · rw [hholders]
      exact leaders_ne_nil_iff.mpr hreached

theorem nodup_map_key_slotsAmong {pool : List (PredicateSet D)} (hpool : pool.Nodup)
    (contenders : List (Contender D)) (state : D.State) (event : D.Event) :
    ((slotsAmong pool contenders state event).map Slot.key).Nodup := by
  rw [slotsAmong, List.map_filterMap]
  apply hpool.filterMap
  intro first second key hfirst hsecond
  split at hfirst
  · cases hfirst
  · split at hsecond
    · cases hsecond
    · cases hfirst
      cases hsecond
      rfl

/-- No two slots have the same key. -/
theorem nodup_map_key_slots (rows : List (Row D)) : ((slots rows).map Slot.key).Nodup := by
  rw [slots, List.map_flatMap, List.nodup_flatMap]
  refine ⟨fun subject _ => nodup_map_key_slotsAmong (SortedSet.nodup_toList _) _ _ _, ?_⟩
  apply (nodup_distinct _).imp
  intro first second hne key hfirst hsecond
  obtain ⟨slot, hslot, rfl⟩ := List.mem_map.mp hfirst
  obtain ⟨other, hother, hkey⟩ := List.mem_map.mp hsecond
  obtain ⟨hstate, hevent, -⟩ := mem_slotsAmong.mp hslot
  obtain ⟨hotherState, hotherEvent, -⟩ := mem_slotsAmong.mp hother
  refine hne (Prod.ext ?_ ?_)
  · rw [← hstate, ← hotherState, hkey]
  · rw [← hevent, ← hotherEvent, hkey]

/-! ## Ties and winners -/

theorem ties_eq_nil_iff {slots : List (Slot D)} :
    ties slots = [] ↔ ∀ slot ∈ slots, slot.holders.length ≤ 1 := by
  rw [← List.length_eq_zero_iff, ties, List.length_mergeSort, List.length_map,
    List.length_eq_zero_iff, List.filter_eq_nil_iff]
  simp only [decide_eq_true_eq, Nat.not_lt]

theorem select_eq_ok_iff {rows : List (Row D)} {selection : Selection D} :
    select rows = .ok selection ↔ ties (slots rows) = [] ∧ selection = winners (slots rows) := by
  rw [select]
  split
  next hnone => simp only [hnone, Except.ok.injEq, true_and, eq_comm]
  next hsome => exact iff_of_false nofun fun h => hsome h.1

theorem select_eq_error_iff {rows : List (Row D)} {errors : List (BuildError D)} :
    select rows = .error errors ↔
      ties (slots rows) ≠ [] ∧ errors = [.implicitClashes (ties (slots rows))] := by
  rw [select]
  split
  next hnone => exact iff_of_false nofun fun h => h.1 hnone
  next hsome => rw [Except.error.injEq, and_iff_right hsome, eq_comm]

theorem mem_winners {slots : List (Slot D)} {key : TableKey D} {row : Row D} :
    (key, row) ∈ winners slots ↔
      ∃ slot ∈ slots, slot.key = key ∧ slot.holders.head? = some row := by
  simp only [winners, List.mem_filterMap, Option.map_eq_some_iff, Prod.mk.injEq]
  constructor
  · intro h
    rcases h with ⟨slot, hslot, _, hhead, rfl, rfl⟩
    exact ⟨slot, hslot, rfl, hhead⟩
  · intro h
    rcases h with ⟨slot, hslot, rfl, hhead⟩
    exact ⟨slot, hslot, row, hhead, rfl, rfl⟩

/-- Every slot has a winner. -/
theorem map_fst_winners {slots : List (Slot D)} (h : ∀ slot ∈ slots, slot.holders ≠ []) :
    (winners slots).map Prod.fst = slots.map Slot.key := by
  induction slots with
  | nil => rfl
  | cons slot rest ih =>
      obtain ⟨hslot, hrest⟩ := List.forall_mem_cons.mp h
      obtain ⟨row, others, hholders⟩ := List.exists_cons_of_ne_nil hslot
      rw [winners, List.filterMap_cons, hholders]
      exact congrArg _ (ih hrest)

/-! ## Selecting the most specific rows -/

section Selecting

variable {rows : List (Row D)}

/-- Among different rows, a single one leads just when no two do. -/
theorem length_leaders_le_one_iff (hnodup : rows.Nodup) {key : TableKey D} :
    (leaders rows key).length ≤ 1 ↔
      ∀ first ∈ rows, ∀ second ∈ rows, Leads rows key first → Leads rows key second →
        first = second := by
  have hleaders : (leaders rows key).Nodup := hnodup.filter _
  rw [length_le_one_iff_of_nodup hleaders]
  simp only [mem_leaders, and_imp]
  exact ⟨fun h first hfirst second hsecond hleads => h first hfirst hleads second hsecond,
    fun h first hfirst hleads second hsecond => h first hfirst second hsecond hleads⟩

theorem ties_slots_eq_nil_iff :
    ties (slots rows) = [] ↔ ∀ key, Reached rows key → (leaders rows key).length ≤ 1 := by
  rw [ties_eq_nil_iff]
  constructor
  · intro h key hreached
    have hslot : (⟨key, leaders rows key⟩ : Slot D) ∈ slots rows := mem_slots.mpr ⟨hreached, rfl⟩
    exact h _ hslot
  · intro h slot hslot
    obtain ⟨hreached, hholders⟩ := mem_slots.mp hslot
    rw [hholders]
    exact h slot.key hreached

theorem mem_map_key_slots {key : TableKey D} :
    key ∈ (slots rows).map Slot.key ↔ Reached rows key := by
  rw [List.mem_map]
  constructor
  · intro h
    rcases h with ⟨slot, hslot, rfl⟩
    exact (mem_slots.mp hslot).1
  · intro hreached
    exact ⟨⟨key, leaders rows key⟩, mem_slots.mpr ⟨hreached, rfl⟩, rfl⟩

theorem map_fst_winners_slots :
    (winners (slots rows)).map Prod.fst = (slots rows).map Slot.key := by
  apply map_fst_winners
  intro slot hslot
  obtain ⟨hreached, hholders⟩ := mem_slots.mp hslot
  rw [hholders]
  exact leaders_ne_nil_iff.mpr hreached.2

theorem leads_of_mem_winners_slots {key : TableKey D} {row : Row D}
    (h : (key, row) ∈ winners (slots rows)) : row ∈ rows ∧ Leads rows key row := by
  obtain ⟨slot, hslot, rfl, hhead⟩ := mem_winners.mp h
  rw [(mem_slots.mp hslot).2] at hhead
  exact mem_leaders.mp (List.mem_of_head? hhead)

end Selecting

end Eager

end RuleMachine
