import Mathlib.Algebra.Group.Nat.Defs
import Mathlib.Data.List.Forall2
import Mathlib.Data.List.Nodup
import Mathlib.Data.Nat.Choose.Basic
import RuleMachine.Combination

/-! # Laws of choosing

A choice from groups takes one item of each, in order, and there is a choice
unless some group is empty. Choices are told apart by the positions that they are made
at, and come in the lexicographic order of these positions. Where the groups have no
item in common, a choice is determined by its items alone. The choices of so many items
of one list come in the order of their items, if the list does.
-/

namespace RuleMachine

variable {α : Type}

/-- One element from every group, in all possible ways. Without any groups there
is exactly one way, which picks nothing. -/
def product : List (List α) → List (List α)
  | [] => [[]]
  | group :: groups => group.flatMap (fun item => (product groups).map (item :: ·))

/-- The sublists with a given number of elements: first those that keep the head. -/
def choices : Nat → List α → List (List α)
  | 0, _ => [[]]
  | _ + 1, [] => []
  | count + 1, item :: rest => (choices count rest).map (item :: ·) ++ choices (count + 1) rest

/-- Of lists that are alike item by item, each item of the one is like an item of the other. -/
theorem exists_of_mem_of_forall₂ {β : Type} {Like : α → β → Prop} {items : List α}
    {others : List β} (h : List.Forall₂ Like items others) {item : α} (hitem : item ∈ items) :
    ∃ other ∈ others, Like item other := by
  induction h with
  | nil => exact absurd hitem List.not_mem_nil
  | cons hhead _ ih =>
      rcases List.mem_cons.mp hitem with rfl | hrest
      · exact ⟨_, List.mem_cons_self, hhead⟩
      · obtain ⟨other, hother, hlike⟩ := ih hrest
        exact ⟨other, List.mem_cons_of_mem _ hother, hlike⟩

/-! ## One item of every group -/

/-- Lengthening lists group by group appends the choices from the groups to each of them. -/
theorem foldl_lengthen (lists groups : List (List α)) :
    groups.foldl lengthen lists = lists.flatMap fun list => (product groups).map (list ++ ·) := by
  induction groups generalizing lists with
  | nil => simp [product]
  | cons group groups ih =>
      rw [List.foldl_cons, ih, lengthen, List.flatMap_assoc]
      congr 1
      funext list
      simp [product, List.flatMap_map, List.map_flatMap, Function.comp_def]

/-- Unless there are no groups at all, the combinations are the choices from the groups. -/
theorem combinations_eq_product {groups : List (List α)} (h : groups ≠ []) :
    combinations groups = product groups := by
  rw [combinations, if_neg (by simpa using h), foldl_lengthen]
  simp

theorem mem_product {groups : List (List α)} {choice : List α} :
    choice ∈ product groups ↔ List.Forall₂ (fun item group => item ∈ group) choice groups := by
  induction groups generalizing choice with
  | nil => simp [product]
  | cons group groups ih =>
      simp only [product, List.mem_flatMap, List.mem_map, ih, List.forall₂_cons_right_iff]
      constructor
      · intro h
        rcases h with ⟨item, hitem, rest, hrest, rfl⟩
        exact ⟨item, rest, hitem, hrest, rfl⟩
      · intro h
        rcases h with ⟨item, rest, hitem, hrest, rfl⟩
        exact ⟨item, hitem, rest, hrest, rfl⟩

theorem mem_product_cons {group : List α} {groups : List (List α)} {choice : List α} :
    choice ∈ product (group :: groups) ↔
      ∃ item ∈ group, ∃ rest ∈ product groups, choice = item :: rest := by
  simp only [product, List.mem_flatMap, List.mem_map, eq_comm]

theorem product_eq_nil_iff {groups : List (List α)} : product groups = [] ↔ [] ∈ groups := by
  induction groups with
  | nil => simp [product]
  | cons group groups ih =>
      rw [List.mem_cons, ← ih]
      constructor
      · intro h
        by_contra hnone
        rw [not_or] at hnone
        obtain ⟨item, hitem⟩ := List.exists_mem_of_ne_nil group (Ne.symm hnone.1)
        obtain ⟨rest, hrest⟩ := List.exists_mem_of_ne_nil _ hnone.2
        have hmem : item :: rest ∈ product (group :: groups) :=
          mem_product_cons.mpr ⟨item, hitem, rest, hrest, rfl⟩
        rw [h] at hmem
        exact absurd hmem List.not_mem_nil
      · rintro (rfl | hnil)
        · rfl
        · simp [product, hnil]

theorem length_of_mem_product {groups : List (List α)} {choice : List α}
    (h : choice ∈ product groups) : choice.length = groups.length :=
  (mem_product.mp h).length_eq

theorem mem_flatten_of_mem_product {groups : List (List α)} {choice : List α} {item : α}
    (h : choice ∈ product groups) (hitem : item ∈ choice) : item ∈ groups.flatten := by
  obtain ⟨group, hgroup, hmem⟩ := exists_of_mem_of_forall₂ (mem_product.mp h) hitem
  exact List.mem_flatten.mpr ⟨group, hgroup, hmem⟩

/-- If each group has an item of the sort wanted of it, some choice takes such items. -/
theorem exists_mem_product_map {β : Type} {group : β → List α} {labels : List β}
    {Wanted : β → α → Prop} (h : ∀ label ∈ labels, ∃ item ∈ group label, Wanted label item) :
    ∃ choice ∈ product (labels.map group),
      ∀ label ∈ labels, ∃ item ∈ choice, Wanted label item := by
  induction labels with
  | nil => exact ⟨[], List.mem_singleton_self _, nofun⟩
  | cons label rest ih =>
      obtain ⟨⟨item, hitem, hwanted⟩, hrest⟩ := List.forall_mem_cons.mp h
      obtain ⟨choice, hchoice, hkept⟩ := ih hrest
      refine ⟨item :: choice, mem_product_cons.mpr ⟨item, hitem, choice, hchoice, rfl⟩, ?_⟩
      rw [List.forall_mem_cons]
      refine ⟨⟨item, List.mem_cons_self, hwanted⟩, fun other hother => ?_⟩
      obtain ⟨kept, hmem, hother⟩ := hkept other hother
      exact ⟨kept, List.mem_cons_of_mem _ hmem, hother⟩

theorem exists_mem_of_mem_product {groups : List (List α)} {choice group : List α}
    (h : choice ∈ product groups) (hgroup : group ∈ groups) : ∃ item ∈ choice, item ∈ group :=
  exists_of_mem_of_forall₂ (mem_product.mp h).flip hgroup

/-- Unless some group is empty, every item of a group can be chosen. -/
theorem exists_mem_product_of_mem {groups : List (List α)} (hsome : ∀ group ∈ groups, group ≠ [])
    {group : List α} (hgroup : group ∈ groups) {item : α} (hitem : item ∈ group) :
    ∃ choice ∈ product groups, item ∈ choice := by
  induction groups with
  | nil => exact absurd hgroup List.not_mem_nil
  | cons head groups ih =>
      obtain ⟨hhead, hlater⟩ := List.forall_mem_cons.mp hsome
      rcases List.mem_cons.mp hgroup with rfl | hgroup
      · have hrest : product groups ≠ [] := by
          rw [Ne, product_eq_nil_iff]
          exact fun hempty => hlater [] hempty rfl
        obtain ⟨rest, hrest⟩ := List.exists_mem_of_ne_nil _ hrest
        exact ⟨item :: rest, mem_product_cons.mpr ⟨item, hitem, rest, hrest, rfl⟩,
          List.mem_cons_self⟩
      · obtain ⟨first, hfirst⟩ := List.exists_mem_of_ne_nil _ hhead
        obtain ⟨rest, hrest, hmem⟩ := ih hlater hgroup
        exact ⟨first :: rest, mem_product_cons.mpr ⟨first, hfirst, rest, hrest, rfl⟩,
          List.mem_cons_of_mem first hmem⟩

/-- If each group has an item of some sort, a choice takes nothing but such items. -/
theorem exists_mem_product_forall {groups : List (List α)} {Wanted : α → Prop}
    (h : ∀ group ∈ groups, ∃ item ∈ group, Wanted item) :
    ∃ choice ∈ product groups, ∀ item ∈ choice, Wanted item := by
  induction groups with
  | nil => exact ⟨[], List.mem_singleton_self _, nofun⟩
  | cons group groups ih =>
      obtain ⟨⟨item, hitem, hwanted⟩, hlater⟩ := List.forall_mem_cons.mp h
      obtain ⟨choice, hchoice, hall⟩ := ih hlater
      exact ⟨item :: choice, mem_product_cons.mpr ⟨item, hitem, choice, hchoice, rfl⟩,
        List.forall_mem_cons.mpr ⟨hwanted, hall⟩⟩

/-- There are as many choices as the sizes of the groups multiply to. -/
theorem length_product (groups : List (List α)) :
    (product groups).length = (groups.map List.length).prod := by
  induction groups with
  | nil => rfl
  | cons group groups ih =>
      rw [product, List.length_flatMap, List.map_cons, List.prod_cons, ← ih]
      simp only [List.length_map, List.map_const', List.sum_replicate_nat]

/-- Choices from groups without common items are told apart by their items. -/
theorem eq_of_mem_product {groups : List (List α)} (hnodup : groups.flatten.Nodup)
    {first second : List α} (hfirst : first ∈ product groups) (hsecond : second ∈ product groups)
    (hsub : first ⊆ second) : first = second := by
  induction groups generalizing first second with
  | nil => simp_all [product]
  | cons group groups ih =>
      obtain ⟨head, hhead, rest, hrest, rfl⟩ := mem_product_cons.mp hfirst
      obtain ⟨other, hother, others, hothers, rfl⟩ := mem_product_cons.mp hsecond
      rw [List.flatten_cons, List.nodup_append'] at hnodup
      obtain ⟨-, hgroups, hdisjoint⟩ := hnodup
      -- The heads are in the one group, and no later group can account for either of them.
      have heq : head = other := by
        apply (List.mem_cons.mp (hsub List.mem_cons_self)).resolve_right
        intro hmem
        exact hdisjoint hhead (mem_flatten_of_mem_product hothers hmem)
      have htail : rest ⊆ others := by
        intro item hitem
        apply (List.mem_cons.mp (hsub (List.mem_cons_of_mem head hitem))).resolve_left
        rintro rfl
        exact hdisjoint hother (mem_flatten_of_mem_product hrest hitem)
      rw [heq, ih hgroups hrest hothers htail]

theorem nodup_product {groups : List (List α)} (h : ∀ group ∈ groups, group.Nodup) :
    (product groups).Nodup := by
  induction groups with
  | nil => exact List.nodup_singleton []
  | cons group groups ih =>
      have hrest : (product groups).Nodup :=
        ih fun other hother => h other (List.mem_cons_of_mem _ hother)
      rw [product, List.nodup_flatMap]
      refine ⟨fun item _ => hrest.map fun first second heq => (List.cons.inj heq).2, ?_⟩
      apply (h group List.mem_cons_self).imp
      intro first second hne choice hfirst hsecond
      obtain ⟨rest, -, rfl⟩ := List.mem_map.mp hfirst
      obtain ⟨others, -, heq⟩ := List.mem_map.mp hsecond
      exact hne (List.cons.inj heq).1.symm

/-- A group with repetitions makes for repetitions among the choices, if there are any choices. -/
theorem nodup_of_nodup_product {groups : List (List α)} (hsome : [] ∉ groups)
    (h : (product groups).Nodup) : ∀ group ∈ groups, group.Nodup := by
  induction groups with
  | nil => nofun
  | cons group groups ih =>
      rw [List.mem_cons, not_or] at hsome
      obtain ⟨hgroup, hlater⟩ := hsome
      obtain ⟨item, hitem⟩ := List.exists_mem_of_ne_nil group (Ne.symm hgroup)
      obtain ⟨rest, hrest⟩ := List.exists_mem_of_ne_nil _ (mt product_eq_nil_iff.mp hlater)
      rw [product, List.nodup_flatMap] at h
      obtain ⟨hinner, houter⟩ := h
      rw [List.forall_mem_cons]
      constructor
      · -- Equal items would be continued in the same way.
        apply houter.imp
        intro first second hdisjoint heq
        subst heq
        exact hdisjoint (List.mem_map_of_mem hrest) (List.mem_map_of_mem hrest)
      · exact ih hlater (hinner item hitem).of_map

/-- Choices from two runs of groups are the choices from the first, each continued by the choices
from the second. -/
theorem product_append (front back : List (List α)) : product (front ++ back) =
    (product front).flatMap fun choice => (product back).map (choice ++ ·) := by
  have happend := foldl_lengthen [[]] (front ++ back)
  rw [List.foldl_append, foldl_lengthen, foldl_lengthen] at happend
  simpa using happend.symm

/-- Choices come in lexicographic order, if the groups are in order. -/
theorem pairwise_product {Before : α → α → Prop} {groups : List (List α)}
    (h : ∀ group ∈ groups, group.Pairwise Before) :
    (product groups).Pairwise (List.Lex Before) := by
  induction groups with
  | nil => exact List.pairwise_singleton _ []
  | cons group groups ih =>
      obtain ⟨hgroup, hlater⟩ := List.forall_mem_cons.mp h
      rw [product, List.pairwise_flatMap]
      constructor
      · intro item _
        rw [List.pairwise_map]
        exact (ih hlater).imp List.Lex.cons
      · apply hgroup.imp
        intro first second hbefore choice hchoice other hother
        obtain ⟨rest, -, rfl⟩ := List.mem_map.mp hchoice
        obtain ⟨others, -, rfl⟩ := List.mem_map.mp hother
        exact .rel hbefore

/-! ## The positions of a choice -/

theorem map_some_eq_map_range (items : List α) :
    items.map some = (List.range items.length).map (items[·]?) := by
  apply List.ext_getElem <;> simp

/-- The positions at which a choice can be made, one in each group. -/
def picks (groups : List (List α)) : List (List Nat) :=
  product (groups.map fun group => List.range group.length)

theorem mem_picks {groups : List (List α)} {pick : List Nat} :
    pick ∈ picks groups ↔
      List.Forall₂ (fun position group => position < group.length) pick groups := by
  simp only [picks, mem_product, List.forall₂_map_right_iff, List.mem_range]

theorem pairwise_picks (groups : List (List α)) :
    (picks groups).Pairwise (List.Lex (· < ·)) := by
  apply pairwise_product
  intro range hrange
  obtain ⟨group, -, rfl⟩ := List.mem_map.mp hrange
  exact List.pairwise_lt_range

/-- The choices are what stands at the positions at which they can be made. -/
theorem map_some_product (groups : List (List α)) :
    (product groups).map (List.map some) = (picks groups).map fun pick =>
      List.zipWith (fun group position => group[position]?) groups pick := by
  induction groups with
  | nil => rfl
  | cons group groups ih =>
      calc (product (group :: groups)).map (List.map some)
          = (group.map some).flatMap fun item =>
              ((product groups).map (List.map some)).map (item :: ·) := by
            simp [product, List.map_flatMap, List.flatMap_map, Function.comp_def]
        _ = ((List.range group.length).map (group[·]?)).flatMap fun item =>
              ((picks groups).map fun pick =>
                List.zipWith (fun group position => group[position]?) groups pick).map
                  (item :: ·) := by
            rw [map_some_eq_map_range, ih]
        _ = _ := by
            simp [picks, product, List.map_flatMap, List.flatMap_map, Function.comp_def]

/-- From any groups, at least one, the combinations are the lists that take one item of each
group in turn. There is one for every way to pick positions in the groups, in the lexicographic
order of these, so that their number is the product of the sizes and there are none as soon as a
group is empty. They are different from each other just if no group repeats an item, unless there
are none. More groups continue each of them by each combination of these groups. Without any
groups there are no combinations. -/
theorem combinations_are_lexicographic {groups : List (List α)} (h : groups ≠ []) :
    (∀ choice, choice ∈ combinations groups ↔
      List.Forall₂ (fun item group => item ∈ group) choice groups) ∧
    (∃ picked : List (List Nat), picked.Pairwise (List.Lex (· < ·)) ∧
      (∀ pick, pick ∈ picked ↔
        List.Forall₂ (fun position group => position < group.length) pick groups) ∧
      (combinations groups).map (List.map some) = picked.map fun pick =>
        List.zipWith (fun group position => group[position]?) groups pick) ∧
    (combinations groups).length = (groups.map List.length).prod ∧
    (combinations groups = [] ↔ [] ∈ groups) ∧
    ([] ∉ groups → ((combinations groups).Nodup ↔ ∀ group ∈ groups, group.Nodup)) ∧
    (∀ more, more ≠ [] → combinations (groups ++ more) =
      (combinations groups).flatMap fun front => (combinations more).map (front ++ ·)) ∧
    combinations ([] : List (List α)) = [] := by
  rw [combinations_eq_product h]
  refine ⟨fun choice => mem_product, ?_, length_product groups, product_eq_nil_iff, ?_, ?_, rfl⟩
  · exact ⟨picks groups, pairwise_picks groups, fun pick => mem_picks, map_some_product groups⟩
  · intro hsome
    exact ⟨nodup_of_nodup_product hsome, nodup_product⟩
  · intro more hmore
    rw [combinations_eq_product (List.append_ne_nil_of_left_ne_nil h more),
      combinations_eq_product hmore, product_append]

/-- Three groups, the first of which repeats an item: so do the combinations. -/
theorem combinations_are_lexicographic_repeated :
    ([[1, 1], [2], [3, 4]] : List (List Nat)) ≠ [] ∧
      combinations ([[1, 1], [2], [3, 4]] : List (List Nat)) ≠ [] ∧
      ¬(combinations ([[1, 1], [2], [3, 4]] : List (List Nat))).Nodup ∧
      combinations ([[1, 1], [2], [3, 4]] ++ [[5]] : List (List Nat)) =
        [[1, 2, 3, 5], [1, 2, 4, 5], [1, 2, 3, 5], [1, 2, 4, 5]] := by
  have hsome : ([[1, 1], [2], [3, 4]] : List (List Nat)) ≠ [] := List.cons_ne_nil _ _
  obtain ⟨-, -, -, hnone, hnodup, happend, -⟩ := combinations_are_lexicographic hsome
  refine ⟨hsome, mt hnone.mp (by decide), mt (hnodup (by decide)).mp (by decide), ?_⟩
  rw [happend [[5]] (by decide)]
  rfl

/-! ## A number of items of one list -/

theorem mem_choices {count : Nat} {items choice : List α} :
    choice ∈ choices count items ↔ choice.Sublist items ∧ choice.length = count := by
  induction items generalizing count choice with
  | nil =>
      cases count with
      | zero => simp [choices]
      | succ count =>
          simp only [choices, List.not_mem_nil, List.sublist_nil, false_iff, not_and]
          rintro rfl
          exact Nat.succ_ne_zero count ∘ Eq.symm
  | cons item rest ih =>
      cases count with
      | zero =>
          simp only [choices, List.mem_singleton, List.length_eq_zero_iff]
          exact ⟨fun h => ⟨h ▸ List.nil_sublist _, h⟩, And.right⟩
      | succ count =>
          simp only [choices, List.mem_append, List.mem_map, ih, List.sublist_cons_iff]
          constructor
          · rintro (⟨tail, ⟨hsub, hlength⟩, rfl⟩ | ⟨hsub, hlength⟩)
            · exact ⟨Or.inr ⟨tail, rfl, hsub⟩, congrArg Nat.succ hlength⟩
            · exact ⟨Or.inl hsub, hlength⟩
          · intro h
            rcases h with ⟨hsub | ⟨tail, rfl, hsub⟩, hlength⟩
            · exact Or.inr ⟨hsub, hlength⟩
            · exact Or.inl ⟨tail, ⟨hsub, Nat.succ.inj hlength⟩, rfl⟩

theorem choices_eq_nil {count : Nat} {items : List α} (h : items.length < count) :
    choices count items = [] := by
  apply List.eq_nil_iff_forall_not_mem.mpr
  intro choice hchoice
  obtain ⟨hsub, hlength⟩ := mem_choices.mp hchoice
  have hle := hsub.length_le
  omega

/-- There is one way to choose all items. -/
theorem choices_length_self (items : List α) : choices items.length items = [items] := by
  induction items with
  | nil => rfl
  | cons item rest ih =>
      rw [List.length_cons, choices, ih, choices_eq_nil (Nat.lt_succ_self _)]
      rfl

theorem length_choices (count : Nat) (items : List α) :
    (choices count items).length = items.length.choose count := by
  induction items generalizing count with
  | nil => cases count <;> rfl
  | cons item rest ih =>
      cases count with
      | zero => rw [choices, List.length_cons, Nat.choose_zero_right]; rfl
      | succ count =>
          rw [choices, List.length_append, List.length_map, ih, ih, List.length_cons,
            Nat.choose_succ_succ]

theorem choices_map {β : Type} (count : Nat) (f : α → β) (items : List α) :
    choices count (items.map f) = (choices count items).map (List.map f) := by
  induction items generalizing count with
  | nil => cases count <;> rfl
  | cons item rest ih =>
      cases count with
      | zero => rfl
      | succ count => simp [choices, ih]

/-- From items in order, the choices of one number come in lexicographic order: by positions is
by items. -/
theorem pairwise_choices {Before : α → α → Prop} {count : Nat} {items : List α}
    (h : items.Pairwise Before) : (choices count items).Pairwise (List.Lex Before) := by
  induction items generalizing count with
  | nil => cases count <;> simp [choices]
  | cons item rest ih =>
      obtain ⟨hitem, hrest⟩ := List.pairwise_cons.mp h
      cases count with
      | zero => exact List.pairwise_singleton _ []
      | succ count =>
          rw [choices, List.pairwise_append, List.pairwise_map]
          refine ⟨(ih hrest).imp List.Lex.cons, ih hrest, ?_⟩
          -- A choice without the head starts with a later item.
          intro earlier hearlier later hlater
          obtain ⟨tail, -, rfl⟩ := List.mem_map.mp hearlier
          obtain ⟨hsub, hlength⟩ := mem_choices.mp hlater
          obtain ⟨other, others, rfl⟩ := List.exists_cons_of_length_eq_add_one hlength
          exact .rel (hitem other (hsub.subset List.mem_cons_self))

end RuleMachine
