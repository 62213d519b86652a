import RuleMachine.Proofs.Match.Meaning
import RuleMachine.Proofs.Table.Grouping
import RuleMachine.Proofs.Table.Likeness

/-! # Groups of duplicates

Rows that amount to the same rule are found in pairs: first each row that is stored under the key
of another one, then the rivals. The groups reported are those that these pairs come to, one after
another. So rows that amount to the same rule are reported together, and rows of one group are
linked by such pairs, but a row can be reported in several groups.
-/

namespace RuleMachine

namespace Lazy

variable {D : Domain}

/-! ## Meetings -/

/-- The pair that something put makes with the owner of its key, if both lead to one state. -/
def meeting? (done : List (TableKey D × Entry D)) (put : TableKey D × Entry D) :
    Option (Entry D × Entry D) :=
  match under done put.1 with
  | [] => none
  | owner :: _ =>
    if owner.position < put.2.position ∧ owner.row.next = put.2.row.next then some (owner, put.2)
    else none

/-- The pairs that meet under a key, in the order in which they are put. -/
def meetings (done : List (TableKey D × Entry D)) : List (Entry D × Entry D) :=
  done.filterMap (meeting? done)

/-- The groups that pairs of entries come to, one pair after another. -/
def grouped (pairs : List (Entry D × Entry D)) : List (List (Entry D)) :=
  pairs.foldl (fun groups pair => addPair pair.1 pair.2 groups) []

theorem grouped_append (front back : List (Entry D × Entry D)) :
    back.foldl (fun groups pair => addPair pair.1 pair.2 groups) (grouped front) =
      grouped (front ++ back) :=
  List.foldl_append.symm

section Put

variable {done : List (TableKey D × Entry D)} {put : TableKey D × Entry D} {key : TableKey D}
  {entry owner : Entry D}

theorem mem_under : entry ∈ under done key ↔ (key, entry) ∈ done := by
  simp [under]

/-- What is put later does not change the owner of a key in use. -/
theorem meeting?_append (hput : put ∈ done) (last : TableKey D × Entry D) :
    meeting? (done ++ [last]) put = meeting? done put := by
  have hmem : put.2 ∈ under done put.1 := mem_under.mpr hput
  rw [meeting?, meeting?, under_append]
  cases hunder : under done put.1 with
  | nil => rw [hunder] at hmem; exact absurd hmem List.not_mem_nil
  | cons owner later => rfl

theorem meetings_append (last : TableKey D × Entry D) :
    meetings (done ++ [last]) = meetings done ++ (meeting? (done ++ [last]) last).toList := by
  rw [meetings, List.filterMap_append, meetings,
    List.filterMap_congr fun put hput => meeting?_append hput last]
  cases hlast : meeting? (done ++ [last]) last <;> simp [hlast]

/-- Storing an entry under a key groups it with the owner of the key, if it leads where the owner
leads. -/
theorem Stored.duplicates_put {store : Store D} (h : Stored done store) (entry : Entry D)
    (set : PredicateSet D)
    (hnew : ∀ known ∈ under done ⟨entry.row.state, entry.row.event, set⟩,
      known.position < entry.position)
    (hduplicates : store.duplicates = grouped (meetings done)) :
    (store.put entry set).duplicates =
      grouped (meetings (done ++ [(⟨entry.row.state, entry.row.event, set⟩, entry)])) := by
  have howner := h.owner ⟨entry.row.state, entry.row.event, set⟩
  rw [valueAt] at howner
  rw [meetings_append, ← grouped_append, ← hduplicates, meeting?, under_append, if_pos rfl]
  unfold Store.put
  dsimp only
  split
  next hnone =>
    rw [hnone, eq_comm, Option.map_none, List.head?_eq_none_iff] at howner
    rw [howner]
    simp
  next known owner hsome =>
    rw [hsome, eq_comm, Option.map_some, List.head?_eq_some_iff] at howner
    obtain ⟨later, hunder⟩ := howner
    have hposition := hnew owner (hunder ▸ List.mem_cons_self)
    rw [hunder]
    split
    next hsame => simp [hposition, hsame]
    next hother => simp [hother]

/-- The store after some puts. -/
def storeOf (done : List (TableKey D × Entry D)) : Store D :=
  done.foldl (fun store put => store.put put.2 put.1.predicates) ⟨[], [], []⟩

/-- Each put keeps up what the store says about the puts so far, and groups the pair that it makes.
An entry is put under its own keys, and under one key entries come in the order of their rows. -/
theorem duplicates_storeOf
    (hkeys : ∀ put ∈ done, put.1 = ⟨put.2.row.state, put.2.row.event, put.1.predicates⟩)
    (horder : ∀ key, (under done key).Pairwise fun known later => known.position < later.position) :
    Stored done (storeOf done) ∧ (storeOf done).duplicates = grouped (meetings done) := by
  induction done using List.reverseRec with
  | nil => exact ⟨stored_nil, rfl⟩
  | append_singleton done put ih =>
      obtain ⟨key, entry⟩ := put
      rw [List.forall_mem_append, List.forall_mem_singleton] at hkeys
      obtain ⟨hdone, hkey⟩ := hkeys
      simp only [under_append, List.pairwise_append] at horder
      obtain ⟨hstored, hduplicates⟩ := ih hdone fun other => (horder other).1
      have hnew : ∀ known ∈ under done key, known.position < entry.position := fun known hknown =>
        (horder key).2.2 known hknown entry (by simp)
      rw [storeOf, List.foldl_concat, ← storeOf]
      dsimp only at hkey ⊢
      rw [hkey] at hnew ⊢
      exact ⟨hstored.put entry _, hstored.duplicates_put entry _ hnew hduplicates⟩

end Put

theorem storeAll_eq (entries : List (Entry D)) : storeAll entries = storeOf (puts entries) := by
  rw [storeAll, storeOf, puts, List.foldl_flatMap]
  simp only [List.foldl_map]

section Rows

variable {rows : List (Row D)}

theorem pairwise_position_entries (rows : List (Row D)) :
    (entries rows).Pairwise fun first second => first.position < second.position := by
  have hpositions : (entries rows).map Entry.position = List.range rows.length := by
    rw [entries, List.map_map]
    exact (List.zipIdx_map_snd 0 rows).trans List.range_eq_range'.symm
  rw [← List.pairwise_map, hpositions]
  exact List.pairwise_lt_range

/-- Rows that do not recur have entries that are told apart by position. -/
theorem position_eq_iff (hnodup : rows.Nodup) {first second : Entry D} (hfirst : first ∈ entries rows)
    (hsecond : second ∈ entries rows) :
    first.position = second.position ↔ first.row = second.row := by
  obtain ⟨hfirst, -⟩ := mem_entries.mp hfirst
  obtain ⟨hsecond, -⟩ := mem_entries.mp hsecond
  constructor
  · intro heq
    rw [heq, hsecond] at hfirst
    exact (Option.some.inj hfirst).symm
  · intro heq
    rw [← heq, ← hfirst] at hsecond
    exact (List.getElem?_inj (List.getElem?_eq_some_iff.mp hfirst).1 hnodup).mp hsecond.symm

theorem pairwise_under_puts (h : ∀ row ∈ rows, row.descriptor.IsWellFormed) (key : TableKey D) :
    (under (puts (entries rows)) key).Pairwise
      fun first second => first.position < second.position := by
  rw [under_puts (nodup_sets_entries h)]
  exact (pairwise_position_entries rows).filter _

theorem duplicateGroups_eq_grouped (h : ∀ row ∈ rows, row.descriptor.IsWellFormed) :
    Lazy.duplicateGroups (entries rows) =
      grouped (meetings (puts (entries rows)) ++ equivalentPairs (entries rows)) := by
  have hkeys : ∀ put ∈ puts (entries rows),
      put.1 = ⟨put.2.row.state, put.2.row.event, put.1.predicates⟩ := by
    intro put hput
    obtain ⟨entry, -, hset⟩ := List.mem_flatMap.mp hput
    obtain ⟨set, -, rfl⟩ := List.mem_map.mp hset
    rfl
  have hmeetings := (duplicates_storeOf hkeys (pairwise_under_puts h)).2
  rw [← grouped_append, ← hmeetings, ← storeAll_eq]
  rfl

/-! ## Which pairs are found -/

theorem mem_puts_entries (h : ∀ row ∈ rows, row.descriptor.IsWellFormed) {key : TableKey D}
    {entry : Entry D} :
    (key, entry) ∈ puts (entries rows) ↔ entry ∈ entries rows ∧ Stores key entry.row := by
  rw [← mem_under, under_puts (nodup_sets_entries h), List.mem_filter, decide_eq_true_eq]
  refine and_congr_right fun hentry => ?_
  rw [(sets_of_mem_entries hentry).2, Stores]

theorem mem_meetings {done : List (TableKey D × Entry D)} {first second : Entry D} :
    (first, second) ∈ meetings done ↔ ∃ key later, under done key = first :: later ∧
      (key, second) ∈ done ∧ first.position < second.position ∧
        first.row.next = second.row.next := by
  simp only [meetings, List.mem_filterMap, Prod.exists]
  refine exists_congr fun key => ?_
  constructor
  · rintro ⟨entry, hput, hmeeting⟩
    rw [meeting?] at hmeeting
    split at hmeeting
    next => cases hmeeting
    next owner later hunder =>
      split at hmeeting
      next hmeets => cases hmeeting; exact ⟨later, hunder, hput, hmeets⟩
      next => cases hmeeting
  · rintro ⟨later, hunder, hput, hmeets⟩
    refine ⟨second, hput, ?_⟩
    simp only [meeting?, hunder, if_pos hmeets]

theorem mem_equivalentPairs {entries : List (Entry D)} {first second : Entry D} :
    (first, second) ∈ equivalentPairs entries ↔ first ∈ entries ∧ second ∈ entries ∧
      first.position < second.position ∧ equivalent first second := by
  simp only [equivalentPairs, List.mem_flatMap, List.mem_map, List.mem_filter, decide_eq_true_eq,
    Prod.mk.injEq]
  constructor
  · rintro ⟨_, hsecond, _, ⟨⟨hfirst, hbefore⟩, hequivalent⟩, rfl, rfl⟩
    exact ⟨hfirst, hsecond, hbefore, hequivalent⟩
  · rintro ⟨hfirst, hsecond, hbefore, hequivalent⟩
    exact ⟨second, hsecond, first, ⟨⟨hfirst, hbefore⟩, hequivalent⟩, rfl, rfl⟩

/-- The first of two rules that name no predicates owns the key that they share. -/
theorem exists_under_empty (h : ∀ row ∈ rows, row.descriptor.IsWellFormed)
    (hkeys : (rows.map Row.key).Nodup) {state : D.State} {event : D.Event} {first second : Entry D}
    (hfirst : first ∈ under (puts (entries rows)) ⟨state, event, ∅⟩)
    (hsecond : second ∈ under (puts (entries rows)) ⟨state, event, ∅⟩)
    (hbefore : first.position < second.position) :
    ∃ later, under (puts (entries rows)) ⟨state, event, ∅⟩ = first :: later := by
  have hlength := length_holders_empty hkeys state event
  have horder := pairwise_under_puts h ⟨state, event, ∅⟩
  rw [← map_row_under h, List.length_map] at hlength
  obtain ⟨owner, later, hunder⟩ := List.exists_cons_of_ne_nil (List.ne_nil_of_mem hfirst)
  rw [hunder] at hfirst hsecond hlength horder ⊢
  obtain ⟨howner, hlater⟩ := List.pairwise_cons.mp horder
  rcases List.mem_cons.mp hfirst with rfl | hfirst
  · exact ⟨later, rfl⟩
  · -- Both would come after the owner, where there is room for one.
    have hone : later.length ≤ 1 := Nat.le_of_succ_le_succ hlength
    have hmem : second ∈ later := (List.mem_cons.mp hsecond).resolve_left fun heq =>
      Nat.lt_asymm hbefore (heq ▸ howner first hfirst)
    have hsame := (length_le_one_iff_of_nodup (hlater.imp fun hlt heq =>
      Nat.ne_of_lt hlt (congrArg Entry.position heq))).mp hone first hfirst second hmem
    exact absurd (hsame ▸ hbefore) (Nat.lt_irrefl _)

/-- Entries that meet are those of rows that meet and lead to one state. -/
theorem double_of_mem_meetings (h : ∀ row ∈ rows, row.descriptor.IsWellFormed)
    {first second : Entry D} (hpair : (first, second) ∈ meetings (puts (entries rows))) :
    first ∈ entries rows ∧ second ∈ entries rows ∧ first.position < second.position ∧
      Double first.row second.row := by
  obtain ⟨key, later, hunder, hput, hbefore, hnext⟩ := mem_meetings.mp hpair
  have howner : first ∈ under (puts (entries rows)) key := hunder ▸ List.mem_cons_self
  obtain ⟨hfirst, hstate, hevent, hset⟩ := (mem_puts_entries h).mp (mem_under.mp howner)
  obtain ⟨hsecond, hotherState, hotherEvent, hother⟩ := (mem_puts_entries h).mp hput
  have hmeet : Meet first.row second.row :=
    ⟨hstate.trans hotherState.symm, hevent.trans hotherEvent.symm, key.predicates, hset, hother⟩
  exact ⟨hfirst, hsecond, hbefore, .inl ⟨hmeet, hnext⟩⟩

theorem mem_meetings_of_empty (h : ∀ row ∈ rows, row.descriptor.IsWellFormed)
    (hkeys : (rows.map Row.key).Nodup) {state : D.State} {event : D.Event} {first second : Entry D}
    (hfirst : first ∈ entries rows) (hstores : Stores ⟨state, event, ∅⟩ first.row)
    (hsecond : second ∈ entries rows) (hother : Stores ⟨state, event, ∅⟩ second.row)
    (hbefore : first.position < second.position) (hnext : first.row.next = second.row.next) :
    (first, second) ∈ meetings (puts (entries rows)) := by
  have hput : (⟨state, event, ∅⟩, second) ∈ puts (entries rows) :=
    (mem_puts_entries h).mpr ⟨hsecond, hother⟩
  have howner : (⟨state, event, ∅⟩, first) ∈ puts (entries rows) :=
    (mem_puts_entries h).mpr ⟨hfirst, hstores⟩
  obtain ⟨later, hunder⟩ := exists_under_empty h hkeys (mem_under.mpr howner) (mem_under.mpr hput)
    hbefore
  exact mem_meetings.mpr ⟨_, later, hunder, hput, hbefore, hnext⟩

theorem equivalent_iff_rival (hkeys : (rows.map Row.key).Nodup) {first second : Entry D}
    (hfirst : first ∈ entries rows) (hsecond : second ∈ entries rows)
    (hbefore : first.position < second.position) :
    equivalent first second ↔ Rival first.row second.row := by
  rw [equivalent_iff (sets_of_mem_entries hfirst).2 (sets_of_mem_entries hsecond).2]
  refine and_iff_left fun heq => ?_
  have hrow := List.inj_on_of_nodup_map hkeys (sets_of_mem_entries hfirst).1
    (sets_of_mem_entries hsecond).1 heq
  exact Nat.ne_of_lt hbefore ((position_eq_iff hkeys.of_map hfirst hsecond).mpr hrow)

/-- Two entries are found to be a pair just if their rows amount to the same rule. -/
theorem mem_pairs_iff (h : ∀ row ∈ rows, row.descriptor.IsWellFormed)
    (hkeys : (rows.map Row.key).Nodup) {first second : Entry D} :
    (first, second) ∈ meetings (puts (entries rows)) ++ equivalentPairs (entries rows) ↔
      first ∈ entries rows ∧ second ∈ entries rows ∧ first.position < second.position ∧
        Double first.row second.row := by
  rw [List.mem_append, mem_equivalentPairs]
  constructor
  · rintro (hmeeting | ⟨hfirst, hsecond, hbefore, hequivalent⟩)
    · exact double_of_mem_meetings h hmeeting
    · exact ⟨hfirst, hsecond, hbefore,
        .inr ((equivalent_iff_rival hkeys hfirst hsecond hbefore).mp hequivalent)⟩
  · rintro ⟨hfirst, hsecond, hbefore, hdouble⟩
    have hrivals : Rival first.row second.row → equivalent first second :=
      (equivalent_iff_rival hkeys hfirst hsecond hbefore).mpr
    rcases hdouble with ⟨⟨hstate, hevent, set, hset, hother⟩, hnext⟩ | hrival
    · by_cases hempty : set = ∅
      · -- Rivals have sets that are not empty, so these two are only found where they meet.
        subst hempty
        exact .inl (mem_meetings_of_empty h hkeys hfirst ⟨rfl, rfl, hset⟩ hsecond
          ⟨hstate.symm, hevent.symm, hother⟩ hbefore hnext)
      · exact .inr ⟨hfirst, hsecond, hbefore,
          hrivals (rival_of_mem hstate hevent hnext hset hother hempty)⟩
    · exact .inr ⟨hfirst, hsecond, hbefore, hrivals hrival⟩

/-! ## Groups of rows -/

/-- The pairs of rows found to amount to the same rule, in the order in which they are found. -/
def duplicatePairs (rows : List (Row D)) : List (Row D × Row D) :=
  (meetings (puts (entries rows)) ++ equivalentPairs (entries rows)).map
    (Prod.map Entry.row Entry.row)

/-- The groups of rows that are reported. -/
def duplicateRows (rows : List (Row D)) : List (List (Row D)) :=
  (Lazy.duplicateGroups (entries rows)).map (List.map Entry.row)

theorem any_position_iff (hnodup : rows.Nodup) {group : List (Entry D)} {entry : Entry D}
    (hgroup : group ⊆ entries rows) (hentry : entry ∈ entries rows) :
    group.any (fun other => other.position = entry.position) ↔ entry.row ∈ group.map Entry.row := by
  simp only [List.any_eq_true, decide_eq_true_eq, List.mem_map]
  exact exists_congr fun other => and_congr_right fun hother =>
    position_eq_iff hnodup (hgroup hother) hentry

section Equality

variable {groups : List (List (Entry D))} {earlier later : Entry D}

theorem subset_of_mem_addPair {all : List (Entry D)} (hgroups : ∀ group ∈ groups, group ⊆ all)
    (hearlier : earlier ∈ all) (hlater : later ∈ all) :
    ∀ group ∈ addPair earlier later groups, group ⊆ all := by
  induction groups with
  | nil => simp [addPair, hearlier, hlater]
  | cons group rest ih =>
      obtain ⟨hgroup, hrest⟩ := List.forall_mem_cons.mp hgroups
      rw [addPair]
      split
      · rw [List.forall_mem_cons]
        refine ⟨?_, hrest⟩
        split
        · exact hgroup
        · exact List.append_subset.mpr ⟨hgroup, by simp [hlater]⟩
      · exact List.forall_mem_cons.mpr ⟨hgroup, ih hrest⟩

variable [DecidableEq (Row D)]

theorem map_row_addPair (hnodup : rows.Nodup) (hgroups : ∀ group ∈ groups, group ⊆ entries rows)
    (hearlier : earlier ∈ entries rows) (hlater : later ∈ entries rows) :
    (addPair earlier later groups).map (List.map Entry.row) =
      joinPair earlier.row later.row (groups.map (List.map Entry.row)) := by
  induction groups with
  | nil => rfl
  | cons group rest ih =>
      obtain ⟨hgroup, hrest⟩ := List.forall_mem_cons.mp hgroups
      rw [addPair, List.map_cons, joinPair]
      simp only [any_position_iff hnodup hgroup hearlier, any_position_iff hnodup hgroup hlater]
      split
      · rw [List.map_cons, addMissing, addMissing]
        split <;> simp
      · rw [List.map_cons, ih hrest]

theorem map_row_grouped (hnodup : rows.Nodup) {pairs : List (Entry D × Entry D)}
    (hpairs : ∀ pair ∈ pairs, pair.1 ∈ entries rows ∧ pair.2 ∈ entries rows) :
    (∀ group ∈ grouped pairs, group ⊆ entries rows) ∧
      (grouped pairs).map (List.map Entry.row) =
        groupPairs (pairs.map (Prod.map Entry.row Entry.row)) := by
  induction pairs using List.reverseRec with
  | nil => exact ⟨nofun, rfl⟩
  | append_singleton pairs pair ih =>
      rw [List.forall_mem_append, List.forall_mem_singleton] at hpairs
      obtain ⟨hbefore, hearlier, hlater⟩ := hpairs
      obtain ⟨hgroups, hrows⟩ := ih hbefore
      rw [grouped, List.foldl_concat, ← grouped, List.map_append, List.map_singleton, groupPairs,
        List.foldl_concat, ← groupPairs, ← hrows]
      exact ⟨subset_of_mem_addPair hgroups hearlier hlater,
        map_row_addPair hnodup hgroups hearlier hlater⟩

theorem duplicateRows_eq (h : ∀ row ∈ rows, row.descriptor.IsWellFormed)
    (hkeys : (rows.map Row.key).Nodup) : duplicateRows rows = groupPairs (duplicatePairs rows) := by
  rw [duplicateRows, duplicateGroups_eq_grouped h]
  refine (map_row_grouped hkeys.of_map fun pair hpair => ?_).2
  obtain ⟨hfirst, hsecond, -⟩ := (mem_pairs_iff h hkeys).mp hpair
  exact ⟨hfirst, hsecond⟩

end Equality

/-- The rows are two of those given, and amount to the same rule. -/
def DoubleIn (rows : List (Row D)) (first second : Row D) : Prop :=
  first ∈ rows ∧ second ∈ rows ∧ Double first second

theorem Double.symm {first second : Row D} (h : Double first second) : Double second first :=
  h.imp (fun ⟨hmeet, hnext⟩ => ⟨hmeet.symm, hnext.symm⟩) Rival.symm

section Found

variable (h : ∀ row ∈ rows, row.descriptor.IsWellFormed) (hkeys : (rows.map Row.key).Nodup)
  {first second : Row D}

include h hkeys

theorem doubleIn_of_mem (hpair : (first, second) ∈ duplicatePairs rows) :
    DoubleIn rows first second ∧ first ≠ second := by
  obtain ⟨⟨earlier, later⟩, hfound, heq⟩ := List.mem_map.mp hpair
  cases heq
  obtain ⟨hearlier, hlater, hbefore, hdouble⟩ := (mem_pairs_iff h hkeys).mp hfound
  refine ⟨⟨(sets_of_mem_entries hearlier).1, (sets_of_mem_entries hlater).1, hdouble⟩, ?_⟩
  rw [Ne, ← position_eq_iff hkeys.of_map hearlier hlater]
  exact Nat.ne_of_lt hbefore

theorem mem_of_doubleIn (hdouble : DoubleIn rows first second) (hne : first ≠ second) :
    (first, second) ∈ duplicatePairs rows ∨ (second, first) ∈ duplicatePairs rows := by
  have hentry : ∀ row ∈ rows, ∃ entry ∈ entries rows, entry.row = row := by
    intro row hrow
    rwa [← List.mem_map, map_row_entries]
  obtain ⟨hfirst, hsecond, hdouble⟩ := hdouble
  obtain ⟨left, hleft, rfl⟩ := hentry first hfirst
  obtain ⟨right, hright, rfl⟩ := hentry second hsecond
  rw [Ne, ← position_eq_iff hkeys.of_map hleft hright] at hne
  rcases Nat.lt_or_gt_of_ne hne with hbefore | hafter
  · exact .inl (List.mem_map_of_mem ((mem_pairs_iff h hkeys).mpr ⟨hleft, hright, hbefore, hdouble⟩))
  · exact .inr (List.mem_map_of_mem
      ((mem_pairs_iff h hkeys).mpr ⟨hright, hleft, hafter, hdouble.symm⟩))

/-- The groups are clusters of rows that amount to the same rule. -/
theorem clusters_duplicateRows : Clusters (DoubleIn rows) (duplicateRows rows) := by
  classical
  have hpairs : ∀ pair ∈ duplicatePairs rows, pair.1 ≠ pair.2 := fun pair hpair =>
    (doubleIn_of_mem h hkeys hpair).2
  have hclusters := clusters_groupPairs hpairs
  rw [← duplicateRows_eq h hkeys] at hclusters
  constructor
  · intro group hgroup
    exact (hclusters.cluster group hgroup).mono fun first second hpair =>
      (doubleIn_of_mem h hkeys hpair).1
  · intro first second hdouble hne
    rcases mem_of_doubleIn h hkeys hdouble hne with hpair | hpair
    · exact hclusters.together first second hpair hne
    · obtain ⟨group, hgroup, hsecond, hfirst⟩ := hclusters.together second first hpair hne.symm
      exact ⟨group, hgroup, hfirst, hsecond⟩

theorem pairwise_duplicateRows_iff : (duplicateRows rows).Pairwise List.Disjoint ↔
    ∀ before first second, before ++ [(first, second)] <+: duplicatePairs rows →
      ¬Regroups before first second := by
  classical
  rw [duplicateRows_eq h hkeys]
  exact pairwise_groupPairs_iff fun pair hpair => (doubleIn_of_mem h hkeys hpair).2

end Found

/-- Linked rows lead from one state to one state on one event. -/
theorem course_eq_of_linked {first second : Row D}
    (h : Relation.EqvGen (DoubleIn rows) first second) :
    first.state = second.state ∧ first.event = second.event ∧ first.next = second.next := by
  have hcourse := eq_of_linked (fun row : Row D => (row.state, row.event, row.next)) ?_ h
  · simpa only [Prod.mk.injEq] using hcourse
  · rintro _ _ ⟨-, -, ⟨⟨hstate, hevent, -⟩, hnext⟩ | ⟨hstate, hevent, hnext, -⟩⟩
    · rw [hstate, hevent, hnext]
    · rw [hstate, hevent, hnext]

theorem mem_of_mem_cluster {group : List (Row D)} (h : Cluster (DoubleIn rows) group) {row : Row D}
    (hrow : row ∈ group) : row ∈ rows := by
  obtain ⟨other, -, hdouble | hdouble⟩ := h.occurs hrow
  · exact hdouble.1
  · exact hdouble.2.1

theorem duplicates_mem_faults_iff {groups : List (List RowSummary)} :
    BuildError.duplicates groups ∈ faults rows ↔
      duplicateRows rows ≠ [] ∧ groups = (duplicateRows rows).map (List.map Row.summary) := by
  have hsummaries : (duplicateRows rows).map (List.map Row.summary) =
      (Lazy.duplicateGroups (entries rows)).map (fun group => group.map fun entry =>
        entry.row.summary) := by
    rw [duplicateRows, List.map_map]
    exact List.map_congr_left fun group _ => List.map_map
  have hnil : duplicateRows rows = [] ↔ Lazy.duplicateGroups (entries rows) = [] :=
    List.map_eq_nil_iff
  rw [hsummaries, Ne, hnil, faults, List.mem_append]
  split <;> split <;> simp [*]

end Rows

/-- Rows that amount to the same rule are reported together, and those of one group are linked by
such rows, so they agree on state, event and next state. The groups are the components of linked
rows just if no row is in two of them. That depends on the order in which the pairs of such rows
are found: it fails as soon as a pair comes whose later row came up before, in pairs that do not
link it with the earlier one. Where it holds for two orders of the rows, the groups are the same. -/
theorem duplicates_are_components_iff {declared rows : List (Row D)}
    (hdeclared : ∀ row ∈ declared, row.descriptor.IsWellFormed)
    (hvalidate : Row.validate declared = .ok rows) :
    (∀ errors, select rows = .error errors → ∀ groups, BuildError.duplicates groups ∈ errors ↔
      duplicateRows rows ≠ [] ∧ groups = (duplicateRows rows).map (List.map Row.summary)) ∧
    (∀ group ∈ duplicateRows rows, Cluster (DoubleIn rows) group ∧ ∀ row ∈ group, row ∈ rows ∧
      ∀ other ∈ group, row.state = other.state ∧ row.event = other.event ∧ row.next = other.next) ∧
    (∀ first ∈ rows, ∀ second ∈ rows, Double first second → first ≠ second →
      ∃ group ∈ duplicateRows rows, first ∈ group ∧ second ∈ group) ∧
    (AreComponents (DoubleIn rows) (duplicateRows rows) ↔
      (duplicateRows rows).Pairwise List.Disjoint) ∧
    (AreComponents (DoubleIn rows) (duplicateRows rows) ↔
      ∀ before first second, before ++ [(first, second)] <+: duplicatePairs rows →
        ¬Regroups before first second) ∧
    ∀ others, others.Perm rows → AreComponents (DoubleIn rows) (duplicateRows rows) →
      AreComponents (DoubleIn others) (duplicateRows others) →
        ∀ group ∈ duplicateRows rows, ∃ other ∈ duplicateRows others, group.Perm other := by
  have hkeys : (rows.map Row.key).Nodup := Row.nodup_map_key_of_validate hvalidate
  have hrows : ∀ row ∈ rows, row.descriptor.IsWellFormed := fun row hrow =>
    hdeclared row ((Row.sublist_of_validate hvalidate).subset hrow)
  have hclusters := clusters_duplicateRows hrows hkeys
  refine ⟨fun errors herrors groups => ?_, fun group hgroup => ?_,
    fun first hfirst second hsecond hdouble => ?_, hclusters.areComponents_iff, ?_,
    fun others hperm hcomponents hothers group hgroup => ?_⟩
  · rw [(select_eq_error_iff.mp herrors).2, duplicates_mem_faults_iff]
  · have hcluster := hclusters.cluster group hgroup
    exact ⟨hcluster, fun row hrow => ⟨mem_of_mem_cluster hcluster hrow, fun other hother =>
      course_eq_of_linked (hcluster.linked row hrow other hother)⟩⟩
  · exact hclusters.together first second ⟨hfirst, hsecond, hdouble⟩
  · rw [hclusters.areComponents_iff, pairwise_duplicateRows_iff hrows hkeys]
  · have hsame : DoubleIn others = DoubleIn rows := by
      ext first second
      simp only [DoubleIn, hperm.mem_iff]
    rw [hsame] at hothers
    exact hcomponents.exists_perm hothers hgroup

end Lazy

/-! ## A sample -/

namespace Scenario

/-- The pump runs fast whenever the match applies. -/
def fastUnder (descriptor : Descriptor domain) : Row domain :=
  ⟨⟨"idle", rise, "fast", [], false, ⟨0⟩, default, default, default⟩, descriptor⟩

def opened : Row domain := fastUnder (Descriptor.unconstrained.withAll [phrase "open"])

def numbered : Row domain := fastUnder (Descriptor.unconstrained.withAll [number 0])

def eitherNumber : Row domain := fastUnder (Descriptor.unconstrained.withAny [number 0, number 1])

end Scenario

namespace Lazy

open Scenario

/-- Any two of the three rows amount to the same rule, and they are reported as one group. -/
theorem duplicates_are_components_iff_numbered :
    Row.validate [numbered, eitherNumber, opened] = .ok [numbered, eitherNumber, opened] ∧
      duplicateRows [numbered, eitherNumber, opened] = [[numbered, eitherNumber, opened]] ∧
      AreComponents (DoubleIn [numbered, eitherNumber, opened])
        (duplicateRows [numbered, eitherNumber, opened]) := by
  have hdeclared : ∀ row ∈ [numbered, eitherNumber, opened], row.descriptor.IsWellFormed := by
    simp only [List.forall_mem_cons]
    exact ⟨rfl, rfl, rfl, nofun⟩
  have hgroups : duplicateRows [numbered, eitherNumber, opened] =
      [[numbered, eitherNumber, opened]] := rfl
  obtain ⟨-, -, -, hcomponents, -⟩ := duplicates_are_components_iff hdeclared rfl
  exact ⟨rfl, hgroups, hcomponents.mpr (hgroups ▸ List.pairwise_singleton _ _)⟩

/-- If the phrase comes first, two of the rows are reported twice: the numbers meet under a key
before they are compared with the phrase. -/
theorem duplicates_overlap :
    Row.validate [opened, numbered, eitherNumber] = .ok [opened, numbered, eitherNumber] ∧
      select [opened, numbered, eitherNumber] = .error [.duplicates
        [[numbered.summary, eitherNumber.summary],
          [opened.summary, numbered.summary, eitherNumber.summary]]] ∧
      duplicateRows [opened, numbered, eitherNumber] =
        [[numbered, eitherNumber], [opened, numbered, eitherNumber]] ∧
      ¬AreComponents (DoubleIn [opened, numbered, eitherNumber])
        (duplicateRows [opened, numbered, eitherNumber]) := by
  have hgroups : duplicateRows [opened, numbered, eitherNumber] =
      [[numbered, eitherNumber], [opened, numbered, eitherNumber]] := rfl
  refine ⟨rfl, rfl, hgroups, fun hcomponents => ?_⟩
  have hdisjoint := hcomponents.disjoint
  rw [hgroups, List.pairwise_pair] at hdisjoint
  exact hdisjoint List.mem_cons_self (List.mem_cons_of_mem _ List.mem_cons_self)

end Lazy

end RuleMachine
