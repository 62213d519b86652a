import RuleMachine.Proofs.Repetition
import RuleMachine.Row.Conflict

/-! # Laws of conflicts

The groups of duplicates and of clashing rows are whole classes of rows, in the order in which
the rows were declared. Rows are free of conflicts exactly when each rule is described by one
of them: two rows of one rule are duplicates if they lead to the same state and clash if they
do not.
-/

namespace RuleMachine

namespace Row

variable {D : Domain}

/-- The rows describe the same rule and lead to the same state. -/
def SaysSame (row other : Row D) : Prop :=
  other.key = row.key ∧ other.next = row.next

instance (row other : Row D) : Decidable (SaysSame row other) :=
  inferInstanceAs (Decidable (_ ∧ _))

/-- The rule of the first row is declared before that of the second. -/
def RuleBefore (rows : List (Row D)) (first second : Row D) : Prop :=
  rows.findIdx (fun row => row.key = first.key) < rows.findIdx (fun row => row.key = second.key)

/-- The rule of the first row is declared before that of the second, or the rows are of one
rule and its next state is declared there before that of the second. -/
def GroupBefore (rows : List (Row D)) (first second : Row D) : Prop :=
  RuleBefore rows first second ∨ first.key = second.key ∧
    rows.findIdx (fun row => SaysSame first row) < rows.findIdx (fun row => SaysSame second row)

/-! ## Filing -/

section Filing

variable {values : List (RuleKey D)} {members : RuleKey D → List (Row D)}

/-- The rules filed so far stand in the order of their groups, so a row is added to the group of
its rule, or opens it. -/
theorem Filing.add_map (h : values.Nodup) (row : Row D) :
    Filing.add ⟨values.zipIdx, values.map members⟩ row =
      if row.key ∈ values then
        ⟨values.zipIdx, values.map fun rule =>
          members rule ++ if rule = row.key then [row] else []⟩
      else ⟨(values ++ [row.key]).zipIdx, values.map members ++ [[row]]⟩ := by
  rw [add, place, lookup_zipIdx]
  by_cases hvalue : row.key ∈ values
  · rw [if_pos hvalue, if_pos hvalue]
    dsimp only
    rw [Nat.zero_add, modify_idxOf h hvalue]
    congr 1
    apply List.map_congr_left
    intro rule _
    split
    next => rfl
    next => rw [List.append_nil]
  · rw [if_neg hvalue, if_neg hvalue]
    dsimp only
    have hlast : (values.map members ++ [[]]).modify (values.map members).length (· ++ [row]) =
        values.map members ++ [[row]] :=
      List.modifyTailIdx_add _ 0 _ _
    rw [hlast, List.length_map, List.zipIdx_append]
    simp

/-- What filing has come to after some rows: their rules with positions, and their classes. -/
theorem foldl_add (rows : List (Row D)) :
    rows.foldl Filing.add .empty = ⟨(distinct (rows.map key)).zipIdx, classes key rows⟩ := by
  induction rows using List.reverseRecOn with
  | nil => rfl
  | append_singleton rows row ih =>
      rw [List.foldl_concat, ih, classes, Filing.add_map (nodup_distinct _), classes_concat,
        List.map_append, List.map_singleton, distinct_concat]
      simp only [mem_distinct]
      split
      next => rfl
      next => rfl

theorem byRule_eq_classes (rows : List (Row D)) : byRule rows = classes key rows := by
  rw [byRule, foldl_add]

end Filing

section Splitting

variable {values : List D.State} {members : D.State → List (Row D)}

/-- A row is added to the group that starts with its next state, or starts one itself. -/
theorem addByNext_map (h : values.Nodup)
    (hheads : ∀ state ∈ values, (members state).head?.map (fun first => first.next) = some state)
    (row : Row D) : addByNext row (values.map members) =
      if row.next ∈ values then
        values.map fun state => members state ++ if state = row.next then [row] else []
      else values.map members ++ [[row]] := by
  induction values with
  | nil => rfl
  | cons head rest ih =>
      obtain ⟨hhead, hrest⟩ := List.nodup_cons.mp h
      obtain ⟨hfirst, hheads⟩ := List.forall_mem_cons.mp hheads
      rw [List.map_cons, addByNext, hfirst]
      by_cases heq : head = row.next
      · -- The other groups start with other states.
        have hkept : ∀ state ∈ rest, state ≠ row.next := fun state hstate hsame =>
          hhead (heq.trans hsame.symm ▸ hstate)
        simp +contextual [heq, hkept]
      · rw [if_neg (by simpa using heq), ih hrest hheads]
        by_cases hrow : row.next ∈ rest <;> simp [heq, hrow, Ne.symm heq]

theorem byNext_eq_classes (rows : List (Row D)) :
    byNext rows = classes (fun row => row.next) rows := by
  induction rows using List.reverseRecOn with
  | nil => rfl
  | append_singleton rows row ih =>
      have hheads : ∀ state ∈ distinct (rows.map fun row => row.next),
          (rows.filter fun row => row.next = state).head?.map (fun first => first.next) =
            some state := by
        intro state hstate
        obtain ⟨first, hfirst, hnext⟩ := exists_find?_key (mem_distinct.mp hstate)
        rw [List.head?_filter, hfirst, Option.map_some, hnext]
      rw [byNext, List.foldl_concat, ← byNext, ih, classes, addByNext_map (nodup_distinct _) hheads,
        classes_concat]
      simp only [mem_distinct]
      rfl

end Splitting

/-! ## Groups of rows -/

theorem mem_byRule {rows group : List (Row D)} :
    group ∈ byRule rows ↔ ∃ row ∈ rows, group = rows.filter (fun other => other.key = row.key) := by
  rw [byRule_eq_classes, mem_classes]

/-- The rows that say the same as one of a rule are found among the rows of that rule. -/
theorem filter_next_filter_key (rows : List (Row D)) (row : Row D) :
    (rows.filter (fun other => other.key = row.key)).filter (fun other => other.next = row.next) =
      rows.filter (fun other => SaysSame row other) := by
  rw [List.filter_filter]
  refine List.filter_congr fun other _ => ?_
  rw [Bool.and_comm, ← Bool.decide_and]
  rfl

theorem mem_flatMap_byNext {rows group : List (Row D)} :
    group ∈ (byRule rows).flatMap byNext ↔
      ∃ row ∈ rows, group = rows.filter (fun other => SaysSame row other) := by
  simp only [List.mem_flatMap, mem_byRule, byNext_eq_classes, mem_classes]
  constructor
  · rintro ⟨_, ⟨known, hknown, rfl⟩, row, hrow, rfl⟩
    obtain ⟨hrow, hkey⟩ := List.mem_filter.mp hrow
    rw [← of_decide_eq_true hkey, filter_next_filter_key]
    exact ⟨row, hrow, rfl⟩
  · rintro ⟨row, hrow, rfl⟩
    exact ⟨_, ⟨row, hrow, rfl⟩, row, List.mem_filter.mpr ⟨hrow, decide_eq_true rfl⟩,
      (filter_next_filter_key rows row).symm⟩

theorem mem_duplicateGroups {rows group : List (Row D)} :
    group ∈ duplicateGroups rows ↔
      ∃ row ∈ rows, group = rows.filter (fun other => SaysSame row other) ∧ 1 < group.length := by
  rw [duplicateGroups, List.mem_filter, mem_flatMap_byNext, decide_eq_true_eq]
  simp only [exists_and_right, ← and_assoc]

theorem mem_clashGroups {rows group : List (Row D)} :
    group ∈ clashGroups rows ↔
      ∃ row ∈ rows, group = rows.filter (fun other => other.key = row.key) ∧
        ∃ first ∈ group, ∃ second ∈ group, first.next ≠ second.next := by
  rw [clashGroups, List.mem_filter, mem_byRule, decide_eq_true_eq, byNext_eq_classes,
    one_lt_length_classes_iff]
  simp only [exists_and_right, ← and_assoc]

theorem duplicateGroups_ne_nil_iff {rows : List (Row D)} :
    duplicateGroups rows ≠ [] ↔
      ∃ first second, [first, second].Sublist rows ∧ SaysSame first second := by
  constructor
  · intro h
    obtain ⟨group, hgroup⟩ := List.exists_mem_of_ne_nil _ h
    obtain ⟨row, -, rfl, hmany⟩ := mem_duplicateGroups.mp hgroup
    obtain ⟨first, second, hsub, hfirst, hsecond⟩ := one_lt_length_filter_iff.mp hmany
    have hfirst : SaysSame row first := of_decide_eq_true hfirst
    have hsecond : SaysSame row second := of_decide_eq_true hsecond
    exact ⟨first, second, hsub, hsecond.1.trans hfirst.1.symm, hsecond.2.trans hfirst.2.symm⟩
  · rintro ⟨first, second, hsub, hsame⟩
    have hfirst : SaysSame first first := ⟨rfl, rfl⟩
    have hmany : 1 < (rows.filter (fun other => SaysSame first other)).length :=
      one_lt_length_filter_iff.mpr ⟨first, second, hsub, decide_eq_true hfirst,
        decide_eq_true hsame⟩
    exact List.ne_nil_of_mem (mem_duplicateGroups.mpr
      ⟨first, hsub.subset List.mem_cons_self, rfl, hmany⟩)

theorem clashGroups_ne_nil_iff {rows : List (Row D)} :
    clashGroups rows ≠ [] ↔
      ∃ first ∈ rows, ∃ second ∈ rows, first.key = second.key ∧ first.next ≠ second.next := by
  constructor
  · intro h
    obtain ⟨group, hgroup⟩ := List.exists_mem_of_ne_nil _ h
    obtain ⟨row, -, rfl, first, hfirst, second, hsecond, hnext⟩ := mem_clashGroups.mp hgroup
    obtain ⟨hfirst, hfirstKey⟩ := List.mem_filter.mp hfirst
    obtain ⟨hsecond, hsecondKey⟩ := List.mem_filter.mp hsecond
    exact ⟨first, hfirst, second, hsecond,
      (of_decide_eq_true hfirstKey).trans (of_decide_eq_true hsecondKey).symm, hnext⟩
  · rintro ⟨first, hfirst, second, hsecond, hkey, hnext⟩
    exact List.ne_nil_of_mem (mem_clashGroups.mpr ⟨first, hfirst, rfl,
      first, List.mem_filter.mpr ⟨hfirst, decide_eq_true rfl⟩,
      second, List.mem_filter.mpr ⟨hsecond, decide_eq_true hkey.symm⟩, hnext⟩)

/-! ## The order of groups -/

/-- Among chosen rows, those of one sort come before those of another only if they do so among
all rows. -/
theorem findIdx_lt_of_filter {chosen first second : Row D → Bool} {rows : List (Row D)}
    (h : (rows.filter chosen).findIdx first < (rows.filter chosen).findIdx second) :
    rows.findIdx (fun row => chosen row && first row) <
      rows.findIdx (fun row => chosen row && second row) := by
  induction rows with
  | nil => exact h
  | cons row rest ih =>
      rw [List.findIdx_cons, List.findIdx_cons]
      cases hchosen : chosen row with
      | false =>
          rw [List.filter_cons_of_neg (by simp [hchosen])] at h
          exact Nat.succ_lt_succ (ih h)
      | true =>
          rw [List.filter_cons_of_pos hchosen, List.findIdx_cons, List.findIdx_cons] at h
          cases hfirst : first row <;> cases hsecond : second row <;>
            simp only [hfirst, hsecond, cond_true, cond_false, Bool.true_and] at h ⊢
          · exact Nat.succ_lt_succ (ih (Nat.lt_of_succ_lt_succ h))
          · exact absurd h (Nat.not_lt_zero _)
          · exact Nat.succ_pos _
          · exact absurd h (Nat.lt_irrefl 0)

theorem pairwise_byRule (rows : List (Row D)) :
    (byRule rows).Pairwise fun before after =>
      ∀ first ∈ before, ∀ second ∈ after, RuleBefore rows first second := by
  rw [byRule_eq_classes]
  exact pairwise_classes

theorem pairwise_byNext (rows : List (Row D)) :
    (byNext rows).Pairwise fun before after => ∀ first ∈ before, ∀ second ∈ after,
      rows.findIdx (fun row => row.next = first.next) <
        rows.findIdx (fun row => row.next = second.next) := by
  rw [byNext_eq_classes]
  exact pairwise_classes

theorem subset_of_mem_byNext {rows group : List (Row D)} (h : group ∈ byNext rows) :
    group ⊆ rows := by
  rw [byNext_eq_classes] at h
  obtain ⟨row, -, rfl⟩ := mem_classes.mp h
  exact List.filter_sublist.subset

theorem findIdx_saysSame (rows : List (Row D)) {row : Row D} {rule : RuleKey D}
    (h : row.key = rule) :
    rows.findIdx (fun other => SaysSame row other) =
      rows.findIdx (fun other => decide (other.key = rule) && decide (other.next = row.next)) := by
  subst h
  congr 1
  funext other
  exact Bool.decide_and _ _

/-- Within one rule the groups follow the first rows of their next states, and the rules
follow their own first rows. -/
theorem pairwise_flatMap_byNext (rows : List (Row D)) :
    ((byRule rows).flatMap byNext).Pairwise fun before after =>
      ∀ first ∈ before, ∀ second ∈ after, GroupBefore rows first second := by
  rw [List.pairwise_flatMap]
  constructor
  · intro group hgroup
    obtain ⟨row, -, rfl⟩ := mem_byRule.mp hgroup
    refine (pairwise_byNext _).imp_of_mem ?_
    intro before after hbefore hafter hlt first hfirst second hsecond
    have hkey : ∀ other ∈ rows.filter (fun other => other.key = row.key), other.key = row.key :=
      fun other hother => of_decide_eq_true (List.mem_filter.mp hother).2
    have hfirstKey := hkey first (subset_of_mem_byNext hbefore hfirst)
    have hsecondKey := hkey second (subset_of_mem_byNext hafter hsecond)
    refine .inr ⟨hfirstKey.trans hsecondKey.symm, ?_⟩
    rw [findIdx_saysSame rows hfirstKey, findIdx_saysSame rows hsecondKey]
    exact findIdx_lt_of_filter (hlt first hfirst second hsecond)
  · refine (pairwise_byRule rows).imp ?_
    intro before after hlt front hfront back hback first hfirst second hsecond
    exact .inl (hlt first (subset_of_mem_byNext hfront hfirst) second
      (subset_of_mem_byNext hback hsecond))

/-- No group comes before itself. -/
theorem not_groupBefore_self (rows : List (Row D)) (row : Row D) : ¬GroupBefore rows row row := by
  rintro (hlt | ⟨-, hlt⟩) <;> exact Nat.lt_irrefl _ hlt

/-- Groups of duplicates come one before the other. -/
theorem pairwise_duplicateGroups (rows : List (Row D)) :
    (duplicateGroups rows).Pairwise fun before after =>
      ∀ first ∈ before, ∀ second ∈ after, GroupBefore rows first second :=
  (pairwise_flatMap_byNext rows).sublist List.filter_sublist

theorem pairwise_disjoint_duplicateGroups (rows : List (Row D)) :
    (duplicateGroups rows).Pairwise List.Disjoint :=
  (pairwise_duplicateGroups rows).imp fun hbefore row hfirst hsecond =>
    not_groupBefore_self rows row (hbefore row hfirst row hsecond)

/-! ## Rows without conflicts -/

/-- Two rows of one rule either say the same or lead to different states. -/
theorem conflicts_eq_nil_iff {rows : List (Row D)} :
    conflicts rows = [] ↔ (rows.map key).Nodup := by
  have hgroups : conflicts rows = [] ↔ duplicateGroups rows = [] ∧ clashGroups rows = [] := by
    rw [conflicts, List.append_eq_nil_iff]
    apply and_congr
    · split <;> simp_all
    · split <;> simp_all
  rw [hgroups]
  constructor
  · rintro ⟨hduplicates, hclashes⟩
    rw [List.Nodup, List.pairwise_map, List.pairwise_iff_forall_sublist]
    intro first second hsub hkey
    by_cases hnext : second.next = first.next
    · exact duplicateGroups_ne_nil_iff.mpr ⟨first, second, hsub, hkey.symm, hnext⟩ hduplicates
    · have hmem : first ∈ rows ∧ second ∈ rows := by simpa using hsub.subset
      exact clashGroups_ne_nil_iff.mpr
        ⟨first, hmem.1, second, hmem.2, hkey, Ne.symm hnext⟩ hclashes
  · intro hkeys
    constructor
    · by_contra hduplicates
      obtain ⟨first, second, hsub, hkey, -⟩ := duplicateGroups_ne_nil_iff.mp hduplicates
      rw [List.Nodup, List.pairwise_map, List.pairwise_iff_forall_sublist] at hkeys
      exact hkeys hsub hkey.symm
    · by_contra hclashes
      obtain ⟨first, hfirst, second, hsecond, hkey, hnext⟩ := clashGroups_ne_nil_iff.mp hclashes
      obtain rfl := List.inj_on_of_nodup_map hkeys hfirst hsecond hkey
      exact hnext rfl

end Row

end RuleMachine
