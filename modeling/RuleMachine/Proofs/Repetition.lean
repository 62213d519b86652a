import Mathlib.Data.List.Induction
import Mathlib.Data.List.Nodup
import RuleMachine.Repetition

/-! # Laws of repeated items

Thinning a list keeps every item once, in the order of first occurrence, so that a list
thins to the same items however often it is repeated. A list has recurring items unless it
is free of repetitions. Its classes are the lists of all items that agree on a key, in the
order of their first items, and there are several of them when items differ in the key.
-/

namespace RuleMachine

variable {α β : Type}

/-- A list without repetitions has a second item just when it has different ones. -/
theorem length_le_one_iff_of_nodup {items : List α} (h : items.Nodup) :
    items.length ≤ 1 ↔ ∀ first ∈ items, ∀ second ∈ items, first = second := by
  match items, h with
  | [], _ => simp
  | [item], _ => simp
  | first :: second :: rest, h =>
    refine iff_of_false (by simp) fun hall => (List.nodup_cons.mp h).1 ?_
    rw [hall first List.mem_cons_self second (List.mem_cons_of_mem first List.mem_cons_self)]
    exact List.mem_cons_self

/-- Several items are chosen from a list just when two of them follow one another in it. -/
theorem one_lt_length_filter_iff {chosen : α → Bool} {items : List α} :
    1 < (items.filter chosen).length ↔
      ∃ first second, [first, second].Sublist items ∧ chosen first = true ∧
        chosen second = true := by
  constructor
  · intro h
    match hfilter : items.filter chosen, h with
    | first :: second :: rest, _ =>
      have hchosen : ∀ item ∈ first :: second :: rest, chosen item = true := fun item hitem =>
        (List.mem_filter.mp (hfilter ▸ hitem)).2
      have hsub : [first, second].Sublist (first :: second :: rest) :=
        ((List.nil_sublist rest).cons_cons second).cons_cons first
      rw [← hfilter] at hsub
      exact ⟨first, second, hsub.trans List.filter_sublist, hchosen first List.mem_cons_self,
        hchosen second (List.mem_cons_of_mem first List.mem_cons_self)⟩
  · rintro ⟨first, second, hsub, hfirst, hsecond⟩
    have hpair : [first, second].filter chosen = [first, second] := by simp [hfirst, hsecond]
    exact (hpair ▸ hsub.filter chosen).length_le

section Distinct

variable [DecidableEq α]

theorem mem_addMissing {known items : List α} {item : α} :
    item ∈ addMissing known items ↔ item ∈ known ∨ item ∈ items := by
  induction items generalizing known with
  | nil => simp [addMissing]
  | cons head rest ih =>
      rw [addMissing, ih, List.mem_cons]
      split
      next hknown =>
        refine ⟨Or.imp_right Or.inr, ?_⟩
        rintro (hmem | rfl | hmem)
        · exact Or.inl hmem
        · exact Or.inl hknown
        · exact Or.inr hmem
      next => rw [List.mem_append, List.mem_singleton, or_assoc]

theorem nodup_addMissing {known : List α} (hknown : known.Nodup) (items : List α) :
    (addMissing known items).Nodup := by
  induction items generalizing known with
  | nil => exact hknown
  | cons head rest ih =>
      rw [addMissing]
      split
      next => exact ih hknown
      next hnew => exact ih (hknown.append (List.nodup_singleton head) (by simpa using hnew))

theorem mem_distinct {items : List α} {item : α} : item ∈ distinct items ↔ item ∈ items := by
  rw [distinct, mem_addMissing, or_iff_right List.not_mem_nil]

theorem nodup_distinct (items : List α) : (distinct items).Nodup :=
  nodup_addMissing List.nodup_nil items

theorem addMissing_append (known front back : List α) :
    addMissing known (front ++ back) = addMissing (addMissing known front) back := by
  induction front generalizing known with
  | nil => rfl
  | cons head rest ih => rw [List.cons_append, addMissing, addMissing, ih]

/-- Items that are all known add nothing. -/
theorem addMissing_of_subset {known items : List α} (h : items ⊆ known) :
    addMissing known items = known := by
  induction items with
  | nil => rfl
  | cons head rest ih =>
      obtain ⟨hhead, hrest⟩ := List.cons_subset.mp h
      rw [addMissing, if_pos hhead, ih hrest]

theorem distinct_concat (items : List α) (item : α) :
    distinct (items ++ [item]) =
      if item ∈ items then distinct items else distinct items ++ [item] := by
  rw [distinct, addMissing_append, addMissing, addMissing, ← distinct]
  simp only [mem_distinct]

/-- The distinct items come in the order of first occurrence. -/
theorem pairwise_distinct (items : List α) :
    (distinct items).Pairwise (fun first second => items.idxOf first < items.idxOf second) := by
  induction items using List.reverseRec with
  | nil => exact List.Pairwise.nil
  | append_singleton items item ih =>
      have hkept : ∀ other ∈ items, (items ++ [item]).idxOf other = items.idxOf other :=
        fun other hother => List.idxOf_append_of_mem hother
      have hold : (distinct items).Pairwise (fun first second =>
          (items ++ [item]).idxOf first < (items ++ [item]).idxOf second) := by
        refine ih.imp_of_mem fun hfirst hsecond hlt => ?_
        rwa [hkept _ (mem_distinct.mp hfirst), hkept _ (mem_distinct.mp hsecond)]
      rw [distinct_concat]
      split
      next => exact hold
      next hnew =>
        rw [List.pairwise_append]
        refine ⟨hold, List.pairwise_singleton _ item, fun first hfirst second hsecond => ?_⟩
        rw [List.mem_singleton.mp hsecond, hkept _ (mem_distinct.mp hfirst),
          List.idxOf_append_of_notMem hnew]
        exact Nat.lt_add_right _ (List.idxOf_lt_length_of_mem (mem_distinct.mp hfirst))

/-- Whatever is known already, both lists add the same to it. -/
def AddsAlike (first second : List α) : Prop :=
  ∀ known, addMissing known first = addMissing known second

namespace AddsAlike

variable {first second : List α}

theorem trans {third : List α} (h : AddsAlike first second) (hthird : AddsAlike second third) :
    AddsAlike first third := fun known => by
  rw [h known, hthird known]

theorem distinct_eq (h : AddsAlike first second) : distinct first = distinct second :=
  h []

theorem mem_iff (h : AddsAlike first second) {item : α} : item ∈ first ↔ item ∈ second := by
  rw [← mem_distinct, h.distinct_eq, mem_distinct]

/-- Lists that are put together from parts which add alike add alike. -/
theorem flatMap {front back : β → List α} {labels : List β}
    (h : ∀ label ∈ labels, AddsAlike (front label) (back label)) :
    AddsAlike (labels.flatMap front) (labels.flatMap back) := by
  induction labels with
  | nil => exact fun known => rfl
  | cons label rest ih =>
      obtain ⟨hlabel, hrest⟩ := List.forall_mem_cons.mp h
      intro known
      rw [List.flatMap_cons, List.flatMap_cons, addMissing_append, addMissing_append, hlabel known,
        ih hrest]

/-- Repeating a list any number of times, but at least once, adds what the list adds. -/
theorem flatMap_const {labels : List β} (h : labels ≠ []) (items : List α) :
    AddsAlike (labels.flatMap fun _ => items) items := by
  obtain ⟨label, rest, rfl⟩ := List.exists_cons_of_ne_nil h
  intro known
  rw [List.flatMap_cons, addMissing_append]
  refine addMissing_of_subset fun item hitem => ?_
  obtain ⟨_, _, hitem⟩ := List.mem_flatMap.mp hitem
  exact mem_addMissing.mpr (Or.inr hitem)

end AddsAlike

theorem repeatedFrom_concat (seen known items : List α) (item : α) :
    repeatedFrom seen known (items ++ [item]) =
      if (item ∈ seen ∨ item ∈ items) ∧ item ∉ repeatedFrom seen known items then
        repeatedFrom seen known items ++ [item]
      else repeatedFrom seen known items := by
  induction items generalizing seen known with
  | nil =>
      by_cases hseen : item ∈ seen <;> by_cases hknown : item ∈ known <;>
        simp [repeatedFrom, hseen, hknown]
  | cons head rest ih =>
      rw [List.cons_append, repeatedFrom, repeatedFrom]
      split
      next hseen =>
        have hmem : item ∈ seen ∨ item ∈ head :: rest ↔ item ∈ seen ∨ item ∈ rest := by
          rw [List.mem_cons, ← or_assoc, or_iff_left_of_imp (b := item = head)]
          exact fun heq => heq ▸ hseen
        simp only [ih, hmem]
      next =>
        have hmem : item ∈ seen ∨ item ∈ head :: rest ↔ item ∈ head :: seen ∨ item ∈ rest := by
          rw [List.mem_cons, List.mem_cons, or_left_comm, or_assoc]
        simp only [ih, hmem]

theorem repeated_concat (items : List α) (item : α) :
    repeated (items ++ [item]) =
      if item ∈ items ∧ item ∉ repeated items then repeated items ++ [item] else repeated items := by
  rw [repeated, repeatedFrom_concat]
  simp only [List.not_mem_nil, false_or]
  rfl

theorem mem_repeated {items : List α} {item : α} : item ∈ repeated items ↔ 1 < items.count item := by
  induction items using List.reverseRec with
  | nil => simp [repeated, repeatedFrom]
  | append_singleton items last ih =>
      rw [repeated_concat, List.count_append, List.count_singleton]
      by_cases heq : last = item
      · subst heq
        have hmem : last ∈ items ↔ 0 < items.count last := List.count_pos_iff.symm
        rw [beq_self_eq_true, if_pos rfl]
        split
        next hnew =>
          have hcount := hmem.mp hnew.1
          exact iff_of_true (List.mem_concat_self) (by omega)
        next hold =>
          rw [not_and_not_right, ih, hmem] at hold
          rw [ih]
          omega
      · have hlast : item ∉ [last] := fun h => heq (List.mem_singleton.mp h).symm
        rw [beq_eq_false_iff_ne.mpr heq, if_neg Bool.false_ne_true, Nat.add_zero, ← ih]
        split
        next => rw [List.mem_append, or_iff_left hlast]
        next => exact Iff.rfl

theorem repeated_eq_nil_iff {items : List α} : repeated items = [] ↔ items.Nodup := by
  simp only [List.eq_nil_iff_forall_not_mem, mem_repeated, List.nodup_iff_count, Nat.not_lt]

theorem nodup_repeated (items : List α) : (repeated items).Nodup := by
  induction items using List.reverseRec with
  | nil => exact List.nodup_nil
  | append_singleton items last ih =>
      rw [repeated_concat]
      split
      next hnew => exact ih.append (List.nodup_singleton last) (by simpa using hnew.2)
      next => exact ih

/-- At some point of the list the one item has recurred and the other has not. -/
def RecursBefore (items : List α) (first second : α) : Prop :=
  ∃ front, front <+: items ∧ 1 < front.count first ∧ front.count second ≤ 1

/-- The items that recur come in the order of their first recurrence. -/
theorem pairwise_repeated (items : List α) : (repeated items).Pairwise (RecursBefore items) := by
  induction items using List.reverseRec with
  | nil => exact List.Pairwise.nil
  | append_singleton items last ih =>
      have hold : (repeated items).Pairwise (RecursBefore (items ++ [last])) := by
        refine ih.imp ?_
        rintro first second ⟨front, hfront, hrecurs⟩
        exact ⟨front, hfront.trans (List.prefix_append _ _), hrecurs⟩
      rw [repeated_concat]
      split
      next hnew =>
        refine List.pairwise_append.mpr ⟨hold, List.pairwise_singleton _ _, ?_⟩
        intro first hfirst second hsecond
        refine ⟨items, List.prefix_append _ _, mem_repeated.mp hfirst, ?_⟩
        rw [List.mem_singleton.mp hsecond, ← Nat.not_lt, ← mem_repeated]
        exact hnew.2
      next => exact hold

theorem not_recursBefore_both {items : List α} {first second : α}
    (h : RecursBefore items first second) : ¬RecursBefore items second first := by
  rintro ⟨back, hback, hsecond, hfirst⟩
  obtain ⟨front, hfront, hrecurs, hfresh⟩ := h
  -- Of two points of the list one is before the other, and what has recurred stays so.
  rcases List.prefix_or_prefix_of_prefix hfront hback with hle | hle
  · have hcount := hle.sublist.count_le first
    omega
  · have hcount := hle.sublist.count_le second
    omega

/-- The recurring items in the order of their first recurrence are these and no other list. -/
theorem eq_repeated_iff {items values : List α} :
    values = repeated items ↔ values.Nodup ∧ (∀ item, item ∈ values ↔ 1 < items.count item) ∧
      values.Pairwise (RecursBefore items) := by
  constructor
  · rintro rfl
    exact ⟨nodup_repeated items, fun item => mem_repeated, pairwise_repeated items⟩
  · rintro ⟨hnodup, hmem, horder⟩
    refine List.Perm.eq_of_pairwise ?_ horder (pairwise_repeated items) ?_
    · exact fun first second _ _ hbefore hafter => (not_recursBefore_both hbefore hafter).elim
    · exact (List.perm_ext_iff_of_nodup hnodup (nodup_repeated items)).mpr fun item =>
        (hmem item).trans mem_repeated.symm

end Distinct

section Classes

/-- The items that agree on a key, one class for each key that occurs. Classes
follow the first occurrence of their keys and keep the order of the list. -/
def classes [DecidableEq β] (key : α → β) (items : List α) : List (List α) :=
  (distinct (items.map key)).map (fun value => items.filter (fun item => key item = value))

variable [DecidableEq β] {key : α → β} {items : List α}

/-- A key that occurs has a first item. -/
theorem exists_find?_key {value : β} (h : value ∈ items.map key) :
    ∃ first, items.find? (fun item => key item = value) = some first ∧ key first = value := by
  obtain ⟨item, hitem, rfl⟩ := List.mem_map.mp h
  have hsome : (items.find? fun other => key other = key item).isSome :=
    List.find?_isSome.mpr ⟨item, hitem, decide_eq_true rfl⟩
  obtain ⟨first, hfirst⟩ := Option.isSome_iff_exists.mp hsome
  exact ⟨first, hfirst, by simpa using List.find?_some hfirst⟩

/-- A further item goes to the end of the class with its key, or makes a class of its own. -/
theorem classes_concat (item : α) : classes key (items ++ [item]) =
    if key item ∈ items.map key then
      (distinct (items.map key)).map fun value =>
        items.filter (fun other => key other = value) ++ if value = key item then [item] else []
    else classes key items ++ [[item]] := by
  have hlast : ∀ value, [item].filter (fun other => key other = value) =
      if value = key item then [item] else [] := by
    intro value
    by_cases heq : value = key item
    · simp [heq]
    · simp [heq, Ne.symm heq]
  have hsplit : ∀ value, (items ++ [item]).filter (fun other => key other = value) =
      items.filter (fun other => key other = value) ++ if value = key item then [item] else [] := by
    intro value
    rw [List.filter_append, hlast]
  simp only [classes, hsplit, List.map_append, List.map_singleton, distinct_concat]
  split
  next => rfl
  next hnew =>
    have hnone : items.filter (fun other => key other = key item) = [] := by
      rw [List.filter_eq_nil_iff]
      intro other hother heq
      exact hnew (List.mem_map.mpr ⟨other, hother, of_decide_eq_true heq⟩)
    rw [List.map_append, List.map_singleton, hnone, if_pos rfl]
    congr 1
    apply List.map_congr_left
    intro value hvalue
    have hne : value ≠ key item := fun heq => hnew (heq ▸ mem_distinct.mp hvalue)
    rw [if_neg hne, List.append_nil]

theorem mem_classes {members : List α} :
    members ∈ classes key items ↔
      ∃ item ∈ items, members = items.filter (fun other => key other = key item) := by
  simp only [classes, List.mem_map, mem_distinct]
  constructor
  · intro h
    rcases h with ⟨_, ⟨item, hitem, rfl⟩, rfl⟩
    exact ⟨item, hitem, rfl⟩
  · intro h
    rcases h with ⟨item, hitem, rfl⟩
    exact ⟨key item, ⟨item, hitem, rfl⟩, rfl⟩

/-- The number of items with a key, read off the keys. -/
theorem count_map_key (value : β) :
    (items.map key).count value = (items.filter (fun item => key item = value)).length := by
  rw [List.count, List.countP_map, List.countP_eq_length_filter]
  simp only [Function.comp_def, beq_eq_decide]

/-- A class has all items that agree on a key, and classes come in the order of their first
items. -/
theorem pairwise_classes : (classes key items).Pairwise fun before after =>
    ∀ first ∈ before, ∀ second ∈ after,
      items.findIdx (fun other => key other = key first) <
        items.findIdx (fun other => key other = key second) := by
  have hidx : ∀ value, (items.map key).idxOf value =
      items.findIdx (fun other => key other = value) := by
    intro value
    rw [List.idxOf, List.findIdx_map]
    simp only [Function.comp_def, beq_eq_decide]
  rw [classes, List.pairwise_map]
  refine (pairwise_distinct (items.map key)).imp fun hlt first hfirst second hsecond => ?_
  have hfirst : key first = _ := of_decide_eq_true (List.mem_filter.mp hfirst).2
  have hsecond : key second = _ := of_decide_eq_true (List.mem_filter.mp hsecond).2
  rwa [hfirst, hsecond, ← hidx, ← hidx]

/-- There are several classes just when some items differ in the key. -/
theorem one_lt_length_classes_iff :
    1 < (classes key items).length ↔
      ∃ first ∈ items, ∃ second ∈ items, key first ≠ key second := by
  rw [← Nat.not_le, classes, List.length_map, length_le_one_iff_of_nodup (nodup_distinct _)]
  simp only [mem_distinct, List.forall_mem_map]
  push Not
  exact Iff.rfl

end Classes

section Positions

variable [DecidableEq α] {values : List α}

/-- Values that are listed with their positions are found at their positions. -/
theorem lookup_zipIdx (value : α) (start : Nat) : (values.zipIdx start).lookup value =
    if value ∈ values then some (start + values.idxOf value) else none := by
  induction values generalizing start with
  | nil => rfl
  | cons head rest ih =>
      rw [List.zipIdx_cons, List.lookup_cons, ih]
      by_cases heq : value = head
      · simp [heq]
      · have hne : (value == head) = false := beq_eq_false_iff_ne.mpr heq
        rw [hne, List.idxOf_cons_ne _ (Ne.symm heq)]
        simp [heq, Nat.add_assoc, Nat.add_comm 1]

/-- What is changed at the position of a value is what stands for this value. -/
theorem modify_idxOf {β : Type} (h : values.Nodup) {value : α} (hvalue : value ∈ values)
    (image : α → β) (change : β → β) :
    (values.map image).modify (values.idxOf value) change =
      values.map fun other => if other = value then change (image other) else image other := by
  induction values with
  | nil => exact absurd hvalue List.not_mem_nil
  | cons head rest ih =>
      obtain ⟨hhead, hrest⟩ := List.nodup_cons.mp h
      by_cases heq : head = value
      · subst heq
        have hkept : ∀ other ∈ rest, other ≠ head := fun other hother hsame =>
          hhead (hsame ▸ hother)
        simp +contextual [hkept]
      · rw [List.idxOf_cons_ne _ heq]
        simp [heq, ih hrest ((List.mem_cons.mp hvalue).resolve_left (Ne.symm heq))]

end Positions

end RuleMachine
