import Mathlib.Data.Fintype.Card
import Mathlib.Data.List.Pairwise
import RuleMachine.Proofs.Match.Concrete
import RuleMachine.Proofs.Table.Compilation
import RuleMachine.Proofs.Table.Ownership

/-! # Rows under their own sets

Every row is stored under all of its sets, so a table exists exactly if no two rows
for one state and event share a set and no two rows for one transition are rivals.
A conflict with an owner is seen when the later row is stored. Two later rows that
meet under a key whose owner leads elsewhere are compared with the owner alone; that
they are duplicates is found afterwards, since rows that share a set are rivals. The
empty set is no exception: only two rules can be stored under it.
-/

namespace RuleMachine

namespace Lazy

variable {D : Domain}

/-- The row is stored under the key. -/
def Stores (key : TableKey D) (row : Row D) : Prop :=
  row.state = key.state ∧ row.event = key.event ∧ key.predicates ∈ storedSets row

instance (key : TableKey D) (row : Row D) : Decidable (Stores key row) :=
  inferInstanceAs (Decidable (_ ∧ _ ∧ _))

/-- The rows stored under a key, in the order of declaration. -/
def holders (rows : List (Row D)) (key : TableKey D) : List (Row D) :=
  rows.filter (fun row => Stores key row)

/-- The rows are for one state and event, and are stored under a common set. -/
def Meet (first second : Row D) : Prop :=
  first.state = second.state ∧ first.event = second.event ∧
    ∃ set ∈ storedSets first, set ∈ storedSets second

/-- The rows agree on state, event and next state, and have non-empty sets of one
size that share a value or have no kind in common. -/
def Rival (first second : Row D) : Prop :=
  first.state = second.state ∧ first.event = second.event ∧ first.next = second.next ∧
    ∃ left ∈ storedSets first, ∃ right ∈ storedSets second,
      left ≠ ∅ ∧ right ≠ ∅ ∧ left.size = right.size ∧
        ((∃ value ∈ left, value ∈ right) ∨
          ∀ value ∈ left, ∀ other ∈ right, value.kind ≠ other.kind)

/-- The rows amount to the same rule. -/
def Double (first second : Row D) : Prop :=
  (Meet first second ∧ first.next = second.next) ∨ Rival first second

/-- Rows that lead to different states are stored under the key. -/
def Contested (rows : List (Row D)) (key : TableKey D) : Prop :=
  ∃ first ∈ rows, ∃ second ∈ rows, Stores key first ∧ Stores key second ∧
    first.next ≠ second.next

theorem storedSets_of_named {row : Row D} (h : row.descriptor.concreteSets ≠ []) :
    storedSets row = row.descriptor.concreteSets := by
  rw [storedSets]
  split
  next hnone => exact absurd hnone h
  next => rfl

theorem storedSets_of_unnamed {row : Row D} (h : row.descriptor.concreteSets = []) :
    storedSets row = [∅] := by
  rw [storedSets, h]

theorem storedSets_ne_nil (row : Row D) : storedSets row ≠ [] := by
  rw [storedSets]
  split
  next => exact List.cons_ne_nil ∅ []
  next hnamed => exact hnamed

theorem nodup_storedSets {row : Row D} (h : row.descriptor.IsWellFormed) :
    (storedSets row).Nodup := by
  by_cases hnamed : row.descriptor.concreteSets = []
  · rw [storedSets_of_unnamed hnamed]
    exact List.nodup_singleton ∅
  · rw [storedSets_of_named hnamed]
    exact Descriptor.nodup_concreteSets h

/-- Only rows that name no predicates are stored under the empty set. -/
theorem empty_mem_storedSets_iff {row : Row D} :
    ∅ ∈ storedSets row ↔ row.descriptor.any = [] ∧ row.descriptor.all = [] := by
  rw [← Descriptor.concreteSets_eq_nil_iff]
  by_cases hnamed : row.descriptor.concreteSets = []
  · simp [storedSets_of_unnamed hnamed, hnamed]
  · rw [storedSets_of_named hnamed, iff_false_right hnamed]
    exact fun hmem => Descriptor.ne_empty_of_mem_concreteSets hmem rfl

/-- At most two rules are stored under the empty set: one with a condition and one
without. -/
theorem length_holders_empty {rows : List (Row D)} (hkeys : (rows.map Row.key).Nodup)
    (state : D.State) (event : D.Event) : (holders rows ⟨state, event, ∅⟩).length ≤ 2 := by
  have hkey : ∀ row ∈ holders rows ⟨state, event, ∅⟩, row.key =
      ⟨state, event, ⟨PredicateFamily.ofList [], PredicateSet.ofList [],
        row.descriptor.condition.isPresent⟩⟩ := by
    intro row hrow
    obtain ⟨hstate, hevent, hempty⟩ := of_decide_eq_true (List.mem_filter.mp hrow).2
    obtain ⟨hany, hall⟩ := empty_mem_storedSets_iff.mp hempty
    rw [Row.key, Descriptor.key, hstate, hevent, hany, hall]
    rfl
  have hconditions : ((holders rows ⟨state, event, ∅⟩).map
      (fun row => row.descriptor.condition.isPresent)).Nodup := by
    have hsub : ((holders rows ⟨state, event, ∅⟩).map Row.key).Nodup :=
      hkeys.sublist (List.filter_sublist.map Row.key)
    rw [List.map_congr_left hkey] at hsub
    refine List.Nodup.of_map (fun present => (⟨state, event, ⟨PredicateFamily.ofList [],
      PredicateSet.ofList [], present⟩⟩ : RuleKey D)) ?_
    rwa [List.map_map]
  -- The rows are told apart by whether they have a condition, which leaves two of them.
  have hcard := hconditions.length_le_card
  rwa [List.length_map, Fintype.card_bool] at hcard

/-! ## What entries say about rows -/

theorem sets_of_mem_entries {rows : List (Row D)} {entry : Entry D} (h : entry ∈ entries rows) :
    entry.row ∈ rows ∧ entry.sets = storedSets entry.row := by
  obtain ⟨⟨row, position⟩, hmem, rfl⟩ := List.mem_map.mp h
  exact ⟨List.fst_mem_of_mem_zipIdx hmem, rfl⟩

theorem map_row_entries (rows : List (Row D)) : (entries rows).map Entry.row = rows := by
  rw [entries, List.map_map]
  exact List.zipIdx_map_fst 0 rows

/-- The selection that stores every row under every one of its sets. -/
def storage (rows : List (Row D)) : Selection D :=
  rows.flatMap fun row => (storedSets row).map (fun set => (⟨row.state, row.event, set⟩, row))

theorem map_row_puts_entries (rows : List (Row D)) :
    (puts (entries rows)).map (fun (key, entry) => (key, entry.row)) = storage rows := by
  rw [storage, puts, List.map_flatMap]
  conv_rhs => rw [← map_row_entries rows, List.flatMap_map]
  apply List.flatMap_congr
  intro entry hentry
  rw [List.map_map, (sets_of_mem_entries hentry).2]
  rfl

/-- An entry with different sets is put under a key once or not at all. -/
theorem under_sets (entry : Entry D) {sets : List (PredicateSet D)} (h : sets.Nodup)
    (key : TableKey D) :
    under (sets.map (fun set => (⟨entry.row.state, entry.row.event, set⟩, entry))) key =
      if entry.row.state = key.state ∧ entry.row.event = key.event ∧ key.predicates ∈ sets
        then [entry] else [] := by
  obtain ⟨state, event, predicates⟩ := key
  rw [under, List.filter_map, List.map_map]
  by_cases hsubject : entry.row.state = state ∧ entry.row.event = event
  · have hset : sets.filter (fun set => set = predicates) =
        if predicates ∈ sets then [predicates] else [] := by
      rw [List.filter_eq, h.count]
      split <;> rfl
    simp only [Function.comp_def, TableKey.mk.injEq, hsubject, true_and, hset]
    split <;> rfl
  · rw [if_neg fun hstored => hsubject ⟨hstored.1, hstored.2.1⟩]
    rw [List.map_eq_nil_iff, List.filter_eq_nil_iff]
    intro set _ heq
    simp only [Function.comp_apply, decide_eq_true_eq, TableKey.mk.injEq] at heq
    exact hsubject ⟨heq.1, heq.2.1⟩

theorem under_puts {entries : List (Entry D)} (h : ∀ entry ∈ entries, entry.sets.Nodup)
    (key : TableKey D) :
    under (puts entries) key = entries.filter (fun entry => entry.row.state = key.state ∧
      entry.row.event = key.event ∧ key.predicates ∈ entry.sets) := by
  induction entries with
  | nil => rfl
  | cons entry rest ih =>
      obtain ⟨hentry, hrest⟩ := List.forall_mem_cons.mp h
      have hsplit : under (puts (entry :: rest)) key =
          under (entry.sets.map
            (fun set => (⟨entry.row.state, entry.row.event, set⟩, entry))) key ++
            under (puts rest) key := by
        rw [puts, List.flatMap_cons, under, List.filter_append, List.map_append]
        rfl
      rw [hsplit, under_sets entry hentry, ih hrest, List.filter_cons]
      simp only [decide_eq_true_eq]
      split <;> rfl

section Stored

variable {rows : List (Row D)}

theorem nodup_sets_entries (h : ∀ row ∈ rows, row.descriptor.IsWellFormed) :
    ∀ entry ∈ entries rows, entry.sets.Nodup := by
  intro entry hentry
  obtain ⟨hrow, hsets⟩ := sets_of_mem_entries hentry
  rw [hsets]
  exact nodup_storedSets (h entry.row hrow)

/-- The entries put under a key are those of the rows stored under it. -/
theorem map_row_under (h : ∀ row ∈ rows, row.descriptor.IsWellFormed) (key : TableKey D) :
    (under (puts (entries rows)) key).map Entry.row = holders rows key := by
  have hstores : ∀ entry ∈ entries rows, decide (entry.row.state = key.state ∧
      entry.row.event = key.event ∧ key.predicates ∈ entry.sets) =
      ((fun row => decide (Stores key row)) ∘ Entry.row) entry := by
    intro entry hentry
    rw [(sets_of_mem_entries hentry).2]
    rfl
  rw [under_puts (nodup_sets_entries h), List.filter_congr hstores, ← List.filter_map,
    map_row_entries, holders]

/-! ## Clashes -/

/-- Entries dispute a key unless they all lead to one state. -/
theorem dispute?_eq_none_iff {tied : List (Entry D)} :
    dispute? tied = none ↔ ∀ first ∈ tied.map Entry.row, ∀ second ∈ tied.map Entry.row,
      first.next = second.next := by
  cases tied with
  | nil => simp [dispute?]
  | cons owner later =>
      rw [dispute?]
      split
      next hnone =>
        have hsame : ∀ row ∈ (owner :: later).map Entry.row, row.next = owner.row.next := by
          intro row hrow
          obtain ⟨entry, hentry, rfl⟩ := List.mem_map.mp hrow
          rcases List.mem_cons.mp hentry with rfl | hlater
          · rfl
          · by_contra hne
            exact List.filter_eq_nil_iff.mp hnone entry hlater (decide_eq_true hne)
        apply iff_of_true rfl
        intro first hfirst second hsecond
        exact (hsame first hfirst).trans (hsame second hsecond).symm
      next hsome =>
        apply iff_of_false (Option.some_ne_none _)
        intro hall
        apply hsome
        rw [List.filter_eq_nil_iff]
        intro entry hentry hne
        have howner : owner.row ∈ (owner :: later).map Entry.row :=
          List.mem_map_of_mem List.mem_cons_self
        have hmem : entry.row ∈ (owner :: later).map Entry.row :=
          List.mem_map_of_mem (List.mem_cons_of_mem owner hentry)
        exact of_decide_eq_true hne (hall entry.row hmem owner.row howner)

theorem mem_holders {key : TableKey D} {row : Row D} :
    row ∈ holders rows key ↔ row ∈ rows ∧ Stores key row := by
  rw [holders, List.mem_filter, decide_eq_true_eq]

/-- A clash is found for every contested key. -/
theorem mem_map_fst_clashes_iff (h : ∀ row ∈ rows, row.descriptor.IsWellFormed)
    {key : TableKey D} :
    key ∈ (storeAll (entries rows)).clashes.map Prod.fst ↔ Contested rows key := by
  rw [← not_iff_not, ← valueAt_eq_none_iff, (stored_storeAll (entries rows)).clash,
    dispute?_eq_none_iff, map_row_under h, Contested]
  simp only [mem_holders]
  push Not
  exact ⟨fun hall first hfirst second hsecond hleft hright =>
      hall first ⟨hfirst, hleft⟩ second ⟨hsecond, hright⟩,
    fun hall first hfirst second hsecond =>
      hall first hfirst.1 second hsecond.1 hfirst.2 hsecond.2⟩

theorem repeatsOwner_eq_false_iff {tied : List (Entry D)} :
    repeatsOwner tied = false ↔ ∀ owner later, tied.map Entry.row = owner :: later →
      ∀ row ∈ later, owner.next ≠ row.next := by
  cases tied with
  | nil => simp [repeatsOwner]
  | cons owner later =>
      simp only [repeatsOwner, List.any_eq_false, decide_eq_true_eq, List.map_cons,
        List.cons.injEq]
      constructor
      · rintro h _ _ ⟨rfl, rfl⟩ row hrow
        obtain ⟨entry, hentry, rfl⟩ := List.mem_map.mp hrow
        exact h entry hentry
      · intro h entry hentry
        exact h owner.row _ ⟨rfl, rfl⟩ entry.row (List.mem_map_of_mem hentry)

theorem duplicateGroups_eq_nil_iff {entries : List (Entry D)} :
    Lazy.duplicateGroups entries = [] ↔
      (storeAll entries).duplicates = [] ∧ equivalentPairs entries = [] := by
  have hgrows : ∀ (pairs : List (Entry D × Entry D)) (groups : List (List (Entry D))),
      pairs.foldl (fun groups pair => addPair pair.1 pair.2 groups) groups = [] ↔
        groups = [] ∧ pairs = [] := by
    intro pairs
    induction pairs with
    | nil => intro groups; simp
    | cons pair rest ih =>
        intro groups
        rw [List.foldl_cons, ih]
        apply iff_of_false
        · exact fun hnil => addPair_ne_nil _ _ _ hnil.1
        · exact fun hnil => List.cons_ne_nil pair rest hnil.2
  exact hgrows _ _

theorem isEmpty_iff {set : PredicateSet D} : set.isEmpty ↔ set = ∅ := by
  rw [SortedSet.isEmpty, List.isEmpty_iff]
  exact ⟨fun h => SortedSet.ext_toList (show set.toList = (∅ : PredicateSet D).toList from h),
    fun h => congrArg SortedSet.toList h⟩

theorem rivals_iff {left right : PredicateSet D} :
    rivals left right ↔ left ≠ ∅ ∧ right ≠ ∅ ∧ left.size = right.size ∧
      ((∃ value ∈ left, value ∈ right) ∨
        ∀ value ∈ left, ∀ other ∈ right, value.kind ≠ other.kind) := by
  have hempty : ∀ set : PredicateSet D, set = ∅ ↔ set.size = 0 := by
    intro set
    rw [← isEmpty_iff, SortedSet.isEmpty, SortedSet.size, List.isEmpty_iff_length_eq_zero]
  have hshares : PredicateSet.sharesValue left right ↔ ∃ value ∈ left, value ∈ right := by
    simp [PredicateSet.sharesValue, SortedSet.isDisjoint, SortedSet.mem_toList]
  have hkinds : PredicateSet.kindsDisjoint left right ↔
      ∀ value ∈ left, ∀ other ∈ right, value.kind ≠ other.kind := by
    simp only [PredicateSet.kindsDisjoint, List.all_eq_true, decide_eq_true_eq,
      SortedSet.mem_toList]
    exact forall₂_congr fun value _ => forall₂_congr fun other _ => ne_comm
  simp only [rivals, Bool.and_eq_true, Bool.or_eq_true, Bool.not_eq_true', beq_iff_eq, hshares,
    hkinds, ← Bool.not_eq_true, isEmpty_iff, Ne, hempty]
  constructor
  · intro h
    rcases h with ⟨⟨hleft, hsize⟩, hmeet⟩
    exact ⟨hleft, hsize ▸ hleft, hsize, hmeet.symm⟩
  · intro h
    rcases h with ⟨hleft, -, hsize, hmeet⟩
    exact ⟨⟨hleft, hsize⟩, hmeet.symm⟩

theorem equivalent_iff {earlier later : Entry D} (hearlier : earlier.sets = storedSets earlier.row)
    (hlater : later.sets = storedSets later.row) :
    equivalent earlier later ↔ Rival earlier.row later.row ∧ earlier.row.key ≠ later.row.key := by
  simp only [equivalent, Bool.and_eq_true, decide_eq_true_eq, List.any_eq_true, rivals_iff,
    hearlier, hlater, Rival]
  constructor
  · intro h
    rcases h with ⟨⟨⟨⟨hstate, hevent⟩, hnext⟩, hkey⟩, hsets⟩
    exact ⟨⟨hstate, hevent, hnext, hsets⟩, hkey⟩
  · intro h
    rcases h with ⟨⟨hstate, hevent, hnext, hsets⟩, hkey⟩
    exact ⟨⟨⟨⟨hstate, hevent⟩, hnext⟩, hkey⟩, hsets⟩

theorem mem_entries {entry : Entry D} :
    entry ∈ entries rows ↔
      rows[entry.position]? = some entry.row ∧ entry.sets = storedSets entry.row := by
  obtain ⟨position, row, sets⟩ := entry
  simp only [entries, List.mem_map, Prod.exists, Entry.mk.injEq, List.mk_mem_zipIdx_iff_getElem?]
  constructor
  · intro h
    rcases h with ⟨_, _, hrow, rfl, rfl, rfl⟩
    exact ⟨hrow, rfl⟩
  · intro h
    rcases h with ⟨hrow, rfl⟩
    exact ⟨row, position, hrow, rfl, rfl, rfl⟩

/-- Every row is compared with every earlier one. -/
theorem equivalentPairs_eq_nil_iff (hkeys : (rows.map Row.key).Nodup) :
    equivalentPairs (entries rows) = [] ↔
      rows.Pairwise (fun first second => ¬Rival first second) := by
  -- Positions tell entries apart even where rows do not.
  have hpairs : equivalentPairs (entries rows) = [] ↔ ∀ later ∈ entries rows,
      ∀ earlier ∈ entries rows, earlier.position < later.position →
        ¬equivalent earlier later := by
    simp only [equivalentPairs, List.flatMap_eq_nil_iff, List.map_eq_nil_iff,
      List.filter_eq_nil_iff, List.mem_filter, decide_eq_true_eq, and_imp]
  rw [hpairs, List.pairwise_iff_getElem]
  constructor
  · intro h first second hfirst hsecond hlt hrival
    have hmem : ∀ position (hposition : position < rows.length),
        (⟨position, rows[position], storedSets rows[position]⟩ : Entry D) ∈ entries rows :=
      fun position hposition => mem_entries.mpr ⟨List.getElem?_eq_getElem hposition, rfl⟩
    apply h _ (hmem second hsecond) _ (hmem first hfirst) hlt
    refine (equivalent_iff rfl rfl).mpr ⟨hrival, ?_⟩
    exact List.pairwise_iff_getElem.mp (List.pairwise_map.mp hkeys) first second hfirst hsecond hlt
  · intro h later hlater earlier hearlier hlt hequivalent
    obtain ⟨hlater, hlatersets⟩ := mem_entries.mp hlater
    obtain ⟨hearlier, hearliersets⟩ := mem_entries.mp hearlier
    obtain ⟨hsecond, hlater⟩ := List.getElem?_eq_some_iff.mp hlater
    obtain ⟨hfirst, hearlier⟩ := List.getElem?_eq_some_iff.mp hearlier
    apply h earlier.position later.position hfirst hsecond hlt
    rw [hlater, hearlier]
    exact ((equivalent_iff hearliersets hlatersets).mp hequivalent).1

theorem duplicates_storeAll_eq_nil_iff (h : ∀ row ∈ rows, row.descriptor.IsWellFormed) :
    (storeAll (entries rows)).duplicates = [] ↔ ∀ key owner later,
      holders rows key = owner :: later → ∀ row ∈ later, owner.next ≠ row.next := by
  rw [(stored_storeAll (entries rows)).duplicates]
  apply forall_congr'
  intro key
  rw [repeatsOwner_eq_false_iff, map_row_under h]

/-- Rows that share a non-empty set and lead to one state are rivals. -/
theorem rival_of_mem {first second : Row D} {set : PredicateSet D}
    (hstate : first.state = second.state) (hevent : first.event = second.event)
    (hnext : first.next = second.next) (hfirst : set ∈ storedSets first)
    (hsecond : set ∈ storedSets second) (hne : set ≠ ∅) : Rival first second := by
  obtain ⟨value, hvalue⟩ := List.exists_mem_of_ne_nil set.toList fun hnil =>
    hne (isEmpty_iff.mp (List.isEmpty_iff.mpr hnil))
  exact ⟨hstate, hevent, hnext, set, hfirst, set, hsecond, hne, hne, rfl,
    Or.inl ⟨value, hvalue, hvalue⟩⟩

/-- Duplicates are found just when two rows amount to the same rule. -/
theorem duplicateGroups_entries_eq_nil_iff (h : ∀ row ∈ rows, row.descriptor.IsWellFormed)
    (hkeys : (rows.map Row.key).Nodup) :
    Lazy.duplicateGroups (entries rows) = [] ↔
      rows.Pairwise (fun first second => ¬Double first second) := by
  rw [duplicateGroups_eq_nil_iff, duplicates_storeAll_eq_nil_iff h,
    equivalentPairs_eq_nil_iff hkeys]
  constructor
  · intro h
    rcases h with ⟨howners, hrivals⟩
    rw [List.pairwise_iff_forall_sublist] at hrivals ⊢
    rintro first second hsub (⟨⟨hstate, hevent, set, hfirst, hsecond⟩, hnext⟩ | hrival)
    · by_cases hempty : set = ∅
      · -- There is no room for a third row, so the first of the two owns the key.
        subst hempty
        have hholders : [first, second] = holders rows ⟨first.state, first.event, ∅⟩ := by
          have hpair := hsub.filter (fun row => Stores ⟨first.state, first.event, ∅⟩ row)
          rw [List.filter_eq_self.mpr (by simp [Stores, hfirst, hsecond, hstate, hevent])] at hpair
          exact hpair.eq_of_length_le (length_holders_empty hkeys first.state first.event)
        exact howners _ first [second] hholders.symm second List.mem_cons_self hnext
      · exact hrivals hsub (rival_of_mem hstate hevent hnext hfirst hsecond hempty)
    · exact hrivals hsub hrival
  · intro hdouble
    refine ⟨fun key owner later hholders row hrow hnext => ?_,
      hdouble.imp fun hnot hrival => hnot (Or.inr hrival)⟩
    have hstored : ∀ other ∈ owner :: later, Stores key other := fun other hother =>
      (mem_holders.mp (hholders ▸ hother)).2
    obtain ⟨hstate, hevent, hset⟩ := hstored owner List.mem_cons_self
    obtain ⟨hrowState, hrowEvent, hrowSet⟩ := hstored row (List.mem_cons_of_mem owner hrow)
    have hsub : [owner, row].Sublist rows := by
      have hpair : [owner, row].Sublist (owner :: later) :=
        (List.singleton_sublist.mpr hrow).cons_cons owner
      exact (hholders ▸ hpair).trans List.filter_sublist
    refine List.pairwise_iff_forall_sublist.mp hdouble hsub (Or.inl ⟨?_, hnext⟩)
    exact ⟨hstate.trans hrowState.symm, hevent.trans hrowEvent.symm, key.predicates, hset, hrowSet⟩

/-! ## Selecting -/

theorem clashes_eq_nil_iff (h : ∀ row ∈ rows, row.descriptor.IsWellFormed) :
    (storeAll (entries rows)).clashes = [] ↔ ∀ key, ¬Contested rows key := by
  simp only [← mem_map_fst_clashes_iff h, List.eq_nil_iff_forall_not_mem.symm,
    List.map_eq_nil_iff]

/-- What is reported: duplicates before clashes, and nothing that was not found. -/
def faults (rows : List (Row D)) : List (BuildError D) :=
  (if Lazy.duplicateGroups (entries rows) = [] then []
    else [.duplicates ((Lazy.duplicateGroups (entries rows)).map
      (fun group => group.map (fun entry => entry.row.summary)))]) ++
  (if (storeAll (entries rows)).clashes = [] then []
    else [.implicitClashes ((storeAll (entries rows)).clashes.map
      (fun (key, tied) => key.clash (tied.map (fun entry => entry.row))))])

theorem faults_eq_nil_iff : faults rows = [] ↔
    Lazy.duplicateGroups (entries rows) = [] ∧ (storeAll (entries rows)).clashes = [] := by
  rw [faults, List.append_eq_nil_iff]
  apply and_congr
  · split <;> simp [*]
  · split <;> simp [*]

theorem select_eq (rows : List (Row D)) :
    select rows = if faults rows = [] then
      .ok ((storeAll (entries rows)).owners.map (fun (key, entry) => (key, entry.row)))
      else .error (faults rows) := by
  unfold select faults
  simp only [List.isEmpty_map, List.isEmpty_iff]
  split
  next hnone => rw [if_pos hnone]
  next hsome => rw [if_neg hsome]

theorem select_eq_ok_iff {selection : Selection D} :
    select rows = .ok selection ↔ Lazy.duplicateGroups (entries rows) = [] ∧
      (storeAll (entries rows)).clashes = [] ∧ selection = storage rows := by
  rw [select_eq, ← and_assoc, ← faults_eq_nil_iff]
  split
  next hnone =>
    obtain ⟨hgroups, hclashes⟩ := faults_eq_nil_iff.mp hnone
    have hstored := stored_storeAll (entries rows)
    rw [hstored.complete (duplicateGroups_eq_nil_iff.mp hgroups).1 hclashes,
      map_row_puts_entries, Except.ok.injEq, and_iff_right hnone, eq_comm]
  next hsome => exact iff_of_false nofun fun h => hsome h.1

theorem select_eq_error_iff {errors : List (BuildError D)} :
    select rows = .error errors ↔ faults rows ≠ [] ∧ errors = faults rows := by
  rw [select_eq]
  split
  next hnone => exact iff_of_false nofun fun h => h.1 hnone
  next hsome => rw [Except.error.injEq, and_iff_right hsome, eq_comm]

theorem nodup_map_fst_storage (hgroups : Lazy.duplicateGroups (entries rows) = [])
    (hclashes : (storeAll (entries rows)).clashes = []) :
    ((storage rows).map Prod.fst).Nodup := by
  have hstored := stored_storeAll (entries rows)
  have howners := hstored.complete (duplicateGroups_eq_nil_iff.mp hgroups).1 hclashes
  have hkeys := hstored.nodup_owners
  rw [howners] at hkeys
  rw [← map_row_puts_entries, List.map_map]
  exact hkeys

/-- No conflict is left just when no two rows meet and no two are rivals. -/
theorem conflictFree_iff :
    (rows.Pairwise (fun first second => ¬Double first second) ∧ ∀ key, ¬Contested rows key) ↔
      rows.Pairwise (fun first second => ¬Meet first second) ∧
        rows.Pairwise (fun first second => ¬Rival first second) := by
  constructor
  · intro h
    rcases h with ⟨hdouble, hcontested⟩
    rw [List.pairwise_iff_forall_sublist] at hdouble
    simp only [List.pairwise_iff_forall_sublist]
    refine ⟨?_, fun hsub hrival => hdouble hsub (Or.inr hrival)⟩
    intro first second hsub hmeet
    obtain ⟨hstate, hevent, set, hfirst, hsecond⟩ := id hmeet
    refine hcontested ⟨first.state, first.event, set⟩ ⟨first, ?_, second, ?_, ⟨rfl, rfl, hfirst⟩,
      ⟨hstate.symm, hevent.symm, hsecond⟩, fun hnext => hdouble hsub (Or.inl ⟨hmeet, hnext⟩)⟩
    · exact hsub.subset List.mem_cons_self
    · exact hsub.subset (List.mem_cons_of_mem first List.mem_cons_self)
  · intro h
    rcases h with ⟨hmeet, hrival⟩
    refine ⟨(hmeet.and hrival).imp ?_, ?_⟩
    · rintro first second ⟨hnomeet, hnorival⟩ (⟨hmeets, -⟩ | hrivals)
      · exact hnomeet hmeets
      · exact hnorival hrivals
    · rintro key ⟨first, hfirst, second, hsecond, ⟨hstate, hevent, hset⟩,
        ⟨hotherState, hotherEvent, hotherSet⟩, hnext⟩
      have hsymm : Std.Symm (fun first second : Row D => ¬Meet first second) := by
        refine ⟨?_⟩
        rintro first second hnot ⟨hstate, hevent, set, hleft, hright⟩
        exact hnot ⟨hstate.symm, hevent.symm, set, hright, hleft⟩
      refine hmeet.forall hfirst hsecond (fun heq => hnext (heq ▸ rfl)) ?_
      exact ⟨hstate.trans hotherState.symm, hevent.trans hotherEvent.symm, key.predicates, hset,
        hotherSet⟩

end Stored

end Lazy

end RuleMachine
