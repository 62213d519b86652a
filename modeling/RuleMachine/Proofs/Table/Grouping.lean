import Mathlib.Data.List.Pairwise
import Mathlib.Logic.Relation
import RuleMachine.Proofs.Repetition

/-! # Groups of linked items

Items that come in pairs are grouped pair by pair: the second item of a pair is put into the
first group that has the first item. So items that are paired end up together, and all items of a
group are linked by pairs. But groups are never united: a pair whose second item has a group
already puts it into another one as well, unless the items of the pair were linked before. The
groups are the classes of linked items just if no pair does that.
-/

namespace RuleMachine

variable {α : Type}

/-! ## Clusters -/

section Relations

variable {related other : α → α → Prop} {groups others : List (List α)} {group : List α}
  {first second : α}

/-- Several items, all of them linked. -/
structure Cluster (related : α → α → Prop) (group : List α) : Prop where
  nodup : group.Nodup
  plural : ∃ first ∈ group, ∃ second ∈ group, first ≠ second
  linked : ∀ first ∈ group, ∀ second ∈ group, Relation.EqvGen related first second

/-- The groups are clusters, and related items have a group in common. -/
structure Clusters (related : α → α → Prop) (groups : List (List α)) : Prop where
  cluster : ∀ group ∈ groups, Cluster related group
  together : ∀ first second, related first second → first ≠ second →
    ∃ group ∈ groups, first ∈ group ∧ second ∈ group

/-- The groups are the classes of linked items, less those of one item alone. -/
structure AreComponents (related : α → α → Prop) (groups : List (List α)) : Prop where
  cluster : ∀ group ∈ groups, Cluster related group
  together : ∀ first second, Relation.EqvGen related first second → first ≠ second →
    ∃ group ∈ groups, first ∈ group ∧ second ∈ group
  disjoint : groups.Pairwise List.Disjoint

/-- The item is related to another one. -/
def Occurs (related : α → α → Prop) (item : α) : Prop :=
  ∃ other, other ≠ item ∧ (related item other ∨ related other item)

theorem eq_or_occurs_of_linked (h : Relation.EqvGen related first second) :
    first = second ∨ (Occurs related first ∧ Occurs related second) := by
  induction h with
  | rel first second h =>
      by_cases heq : first = second
      · exact .inl heq
      · exact .inr ⟨⟨second, Ne.symm heq, .inl h⟩, ⟨first, heq, .inr h⟩⟩
  | refl item => exact .inl rfl
  | symm first second _ ih => exact ih.imp Eq.symm And.symm
  | trans first middle second _ _ ihfirst ihsecond =>
      rcases ihfirst with rfl | hfirst
      · exact ihsecond
      · rcases ihsecond with rfl | hsecond
        · exact .inr hfirst
        · exact .inr ⟨hfirst.1, hsecond.2⟩

/-- Linked items agree on whatever related items agree on. -/
theorem eq_of_linked {β : Sort*} (value : α → β)
    (h : ∀ first second, related first second → value first = value second)
    (hlinked : Relation.EqvGen related first second) : value first = value second :=
  congrArg (Quot.lift value h) (Quot.eqvGen_sound hlinked)

namespace Cluster

theorem exists_ne (h : Cluster related group) (item : α) : ∃ other ∈ group, other ≠ item := by
  obtain ⟨first, hfirst, second, hsecond, hne⟩ := h.plural
  by_cases heq : first = item
  · exact ⟨second, hsecond, fun hsame => hne (heq.trans hsame.symm)⟩
  · exact ⟨first, hfirst, heq⟩

theorem occurs (h : Cluster related group) {item : α} (hitem : item ∈ group) :
    Occurs related item := by
  obtain ⟨other, hother, hne⟩ := h.exists_ne item
  exact ((eq_or_occurs_of_linked (h.linked other hother item hitem)).resolve_left hne).2

theorem mono (h : Cluster related group)
    (himp : ∀ first second, related first second → other first second) : Cluster other group where
  nodup := h.nodup
  plural := h.plural
  linked first hfirst second hsecond :=
    Relation.EqvGen.mono himp _ _ (h.linked first hfirst second hsecond)

/-- It is enough that one item is linked with all of them. -/
theorem linked_of_common (h : ∀ item ∈ group, Relation.EqvGen related first item) :
    ∀ item ∈ group, ∀ other ∈ group, Relation.EqvGen related item other :=
  fun item hitem other hother => .trans _ _ _ (.symm _ _ (h item hitem)) (h other hother)

theorem pair (hne : first ≠ second) (hrelated : related first second) :
    Cluster related [first, second] where
  nodup := by simpa using hne
  plural := ⟨first, List.mem_cons_self, second, by simp, hne⟩
  linked := linked_of_common (by simpa using ⟨.refl first, .rel first second hrelated⟩)

theorem insert [DecidableEq α] (h : Cluster related group) (hfirst : first ∈ group)
    (hrelated : related first second) : Cluster related (addMissing group [second]) where
  nodup := nodup_addMissing h.nodup _
  plural := by
    obtain ⟨item, hitem, other, hother, hne⟩ := h.plural
    exact ⟨item, mem_addMissing.mpr (.inl hitem), other, mem_addMissing.mpr (.inl hother), hne⟩
  linked := by
    apply linked_of_common
    intro item hitem
    rcases mem_addMissing.mp hitem with hold | hnew
    · exact h.linked first hfirst item hold
    · rw [List.mem_singleton.mp hnew]
      exact .rel first second hrelated

end Cluster

theorem eq_of_disjoint (h : groups.Pairwise List.Disjoint) {known found : List α} {item : α}
    (hknown : known ∈ groups) (hfound : found ∈ groups) (hitem : item ∈ known)
    (hother : item ∈ found) : known = found := by
  have hsymm : Std.Symm (@List.Disjoint α) := ⟨fun _ _ => List.disjoint_symm⟩
  by_contra hne
  exact h.forall hknown hfound hne hitem hother

namespace Clusters

theorem exists_mem_iff (h : Clusters related groups) {item : α} :
    (∃ group ∈ groups, item ∈ group) ↔ Occurs related item := by
  constructor
  · rintro ⟨group, hgroup, hitem⟩
    exact (h.cluster group hgroup).occurs hitem
  · rintro ⟨other, hne, hrelated | hrelated⟩
    · obtain ⟨group, hgroup, hitem, -⟩ := h.together item other hrelated hne.symm
      exact ⟨group, hgroup, hitem⟩
    · obtain ⟨group, hgroup, -, hitem⟩ := h.together other item hrelated hne
      exact ⟨group, hgroup, hitem⟩

/-- Where groups do not overlap, they keep linked items together. -/
theorem mem_iff_of_linked (h : Clusters related groups) (hdisjoint : groups.Pairwise List.Disjoint)
    (hgroup : group ∈ groups) (hlinked : Relation.EqvGen related first second) :
    first ∈ group ↔ second ∈ group := by
  refine (eq_of_linked (fun item => item ∈ group) (fun first second hrelated => ?_) hlinked).to_iff
  by_cases hne : first = second
  · rw [hne]
  · obtain ⟨found, hfound, hfirst, hsecond⟩ := h.together first second hrelated hne
    apply propext
    constructor
    · exact fun hitem => eq_of_disjoint hdisjoint hfound hgroup hfirst hitem ▸ hsecond
    · exact fun hitem => eq_of_disjoint hdisjoint hfound hgroup hsecond hitem ▸ hfirst

theorem areComponents_iff (h : Clusters related groups) :
    AreComponents related groups ↔ groups.Pairwise List.Disjoint := by
  refine ⟨AreComponents.disjoint, fun hdisjoint => ⟨h.cluster, fun first second hlinked hne => ?_,
    hdisjoint⟩⟩
  obtain ⟨hoccurs, -⟩ := (eq_or_occurs_of_linked hlinked).resolve_left hne
  obtain ⟨group, hgroup, hfirst⟩ := h.exists_mem_iff.mpr hoccurs
  exact ⟨group, hgroup, hfirst, (h.mem_iff_of_linked hdisjoint hgroup hlinked).mp hfirst⟩

end Clusters

namespace AreComponents

/-- A component is all that is linked with any of its items. -/
theorem mem_iff (h : AreComponents related groups) (hgroup : group ∈ groups)
    (hfirst : first ∈ group) : second ∈ group ↔ Relation.EqvGen related first second := by
  refine ⟨(h.cluster group hgroup).linked first hfirst second, fun hlinked => ?_⟩
  by_cases hne : first = second
  · exact hne ▸ hfirst
  · obtain ⟨found, hfound, hother, hsecond⟩ := h.together first second hlinked hne
    exact eq_of_disjoint h.disjoint hfound hgroup hother hfirst ▸ hsecond

/-- The components are determined by what is related, up to the order of their items. -/
theorem exists_perm (h : AreComponents related groups) (hothers : AreComponents related others)
    (hgroup : group ∈ groups) : ∃ other ∈ others, group.Perm other := by
  have hcluster := h.cluster group hgroup
  obtain ⟨first, hfirst, second, hsecond, hne⟩ := hcluster.plural
  obtain ⟨other, hother, hfound, -⟩ := hothers.together first second
    (hcluster.linked first hfirst second hsecond) hne
  refine ⟨other, hother, ?_⟩
  rw [List.perm_ext_iff_of_nodup hcluster.nodup (hothers.cluster other hother).nodup]
  exact fun item => (h.mem_iff hgroup hfirst).trans (hothers.mem_iff hother hfound).symm

end AreComponents

end Relations

/-! ## Grouping pair by pair -/

section Pairs

variable {pairs : List (α × α)} {groups : List (List α)} {group : List α} {first second : α}

/-- The items are one of the pairs. -/
def Paired (pairs : List (α × α)) (first second : α) : Prop :=
  (first, second) ∈ pairs

/-- The pair gives one more group to an item: its second item came up in pairs before, which did
not link it with the first. -/
def Regroups (before : List (α × α)) (first second : α) : Prop :=
  Occurs (Paired before) second ∧ ¬Relation.EqvGen (Paired before) first second

theorem Clusters.not_regroups_iff (h : Clusters (Paired pairs) groups)
    (hdisjoint : groups.Pairwise List.Disjoint) :
    ¬Regroups pairs first second ↔ ∀ group ∈ groups, second ∈ group → first ∈ group := by
  rw [Regroups, not_and_not_right, ← h.exists_mem_iff]
  constructor
  · intro hlinked group hgroup hsecond
    exact (h.mem_iff_of_linked hdisjoint hgroup (hlinked ⟨group, hgroup, hsecond⟩)).mpr hsecond
  · rintro hfirst ⟨group, hgroup, hsecond⟩
    exact (h.cluster group hgroup).linked first (hfirst group hgroup hsecond) second hsecond

variable [DecidableEq α]

/-- Put the second item of a pair into the first group that has the first one, or open a group. -/
def joinPair (first second : α) : List (List α) → List (List α)
  | [] => [[first, second]]
  | group :: rest =>
    if first ∈ group then addMissing group [second] :: rest else group :: joinPair first second rest

/-- The groups that pairs come to, one pair after another. -/
def groupPairs (pairs : List (α × α)) : List (List α) :=
  pairs.foldl (fun groups pair => joinPair pair.1 pair.2 groups) []

theorem joinPair_cases (first second : α) (groups : List (List α)) :
    (∃ front known back, groups = front ++ known :: back ∧ first ∈ known ∧
      joinPair first second groups = front ++ addMissing known [second] :: back) ∨
    ((∀ group ∈ groups, first ∉ group) ∧
      joinPair first second groups = groups ++ [[first, second]]) := by
  induction groups with
  | nil => exact .inr ⟨nofun, rfl⟩
  | cons group rest ih =>
      rw [joinPair]
      split
      next hfirst => exact .inl ⟨[], group, rest, rfl, hfirst, rfl⟩
      next hother =>
        rcases ih with ⟨front, known, back, rfl, hknown, hjoined⟩ | ⟨hnew, hjoined⟩
        · exact .inl ⟨group :: front, known, back, rfl, hknown, congrArg (group :: ·) hjoined⟩
        · exact .inr ⟨List.forall_mem_cons.mpr ⟨hother, hnew⟩, congrArg (group :: ·) hjoined⟩

theorem exists_mem_joinPair (first second : α) (groups : List (List α)) :
    ∃ group ∈ joinPair first second groups, first ∈ group ∧ second ∈ group := by
  rcases joinPair_cases first second groups with ⟨front, known, back, -, hfirst, hjoined⟩ | ⟨-, hjoined⟩
  · refine ⟨addMissing known [second], by simp [hjoined], mem_addMissing.mpr (.inl hfirst), ?_⟩
    exact mem_addMissing.mpr (.inr List.mem_cons_self)
  · exact ⟨[first, second], by simp [hjoined], by simp, by simp⟩

/-- Groups only grow. -/
theorem exists_subset_joinPair (first second : α) (hgroup : group ∈ groups) :
    ∃ found ∈ joinPair first second groups, group ⊆ found := by
  rcases joinPair_cases first second groups with ⟨front, known, back, rfl, -, hjoined⟩ | ⟨-, hjoined⟩
  · rw [List.perm_middle.mem_iff, List.mem_cons] at hgroup
    rw [hjoined]
    rcases hgroup with rfl | hgroup
    · exact ⟨_, List.mem_append_right _ List.mem_cons_self, fun item hitem =>
        mem_addMissing.mpr (.inl hitem)⟩
    · exact ⟨group, List.perm_middle.mem_iff.mpr (List.mem_cons_of_mem _ hgroup), List.Subset.refl _⟩
  · exact ⟨group, hjoined ▸ List.mem_append_left _ hgroup, List.Subset.refl _⟩

theorem Clusters.joinPair (h : Clusters (Paired pairs) groups) (hne : first ≠ second) :
    Clusters (Paired (pairs ++ [(first, second)])) (joinPair first second groups) where
  cluster := by
    have hpair : Paired (pairs ++ [(first, second)]) first second := List.mem_concat_self
    have hold : ∀ group ∈ groups, Cluster (Paired (pairs ++ [(first, second)])) group :=
      fun group hgroup => (h.cluster group hgroup).mono fun _ _ => List.mem_append_left _
    rcases joinPair_cases first second groups with ⟨front, known, back, rfl, hfirst, hjoined⟩ |
      ⟨-, hjoined⟩
    · simp only [List.forall_mem_append, List.forall_mem_cons] at hold
      simp only [hjoined, List.forall_mem_append, List.forall_mem_cons]
      exact ⟨hold.1, hold.2.1.insert hfirst hpair, hold.2.2⟩
    · rw [hjoined, List.forall_mem_append, List.forall_mem_singleton]
      exact ⟨hold, .pair hne hpair⟩
  together item other hpair hdifferent := by
    rcases List.mem_append.mp hpair with hpair | hpair
    · obtain ⟨group, hgroup, hitem, hother⟩ := h.together item other hpair hdifferent
      obtain ⟨found, hfound, hsub⟩ := exists_subset_joinPair first second hgroup
      exact ⟨found, hfound, hsub hitem, hsub hother⟩
    · cases List.mem_singleton.mp hpair
      exact exists_mem_joinPair first second groups

/-- Where groups do not overlap, a pair makes them overlap just if its second item has a group
that the first one is not in. -/
theorem pairwise_joinPair_iff : (joinPair first second groups).Pairwise List.Disjoint ↔
    groups.Pairwise List.Disjoint ∧ ∀ group ∈ groups, second ∈ group → first ∈ group := by
  rcases joinPair_cases first second groups with ⟨front, known, back, rfl, hfirst, hjoined⟩ |
    ⟨hnew, hjoined⟩
  · have hadded : ∀ other, (addMissing known [second]).Disjoint other ↔
        known.Disjoint other ∧ second ∉ other := by
      simp [List.Disjoint, mem_addMissing, or_imp, forall_and]
    rw [hjoined, List.pairwise_middle List.disjoint_symm, List.pairwise_middle List.disjoint_symm,
      List.pairwise_cons, List.pairwise_cons]
    constructor
    · rintro ⟨hall, hrest⟩
      refine ⟨⟨fun group hgroup => ((hadded group).mp (hall group hgroup)).1, hrest⟩, ?_⟩
      intro group hgroup hsecond
      rcases List.mem_cons.mp (List.perm_middle.mem_iff.mp hgroup) with rfl | hgroup
      · exact hfirst
      · exact absurd hsecond ((hadded group).mp (hall group hgroup)).2
    · rintro ⟨⟨hall, hrest⟩, hfollows⟩
      refine ⟨fun group hgroup => (hadded group).mpr ⟨hall group hgroup, fun hsecond => ?_⟩, hrest⟩
      have hmem := List.perm_middle.mem_iff.mpr (List.mem_cons_of_mem known hgroup)
      exact hall group hgroup hfirst (hfollows group hmem hsecond)
  · have hapart : ∀ group ∈ groups, (group.Disjoint [first, second] ↔
        (second ∈ group → first ∈ group)) := by
      intro group hgroup
      simp [List.disjoint_right, hnew group hgroup]
    rw [hjoined, List.pairwise_append]
    simp only [List.pairwise_singleton, true_and, List.mem_singleton, forall_eq]
    exact and_congr_right fun _ => forall₂_congr hapart

theorem clusters_groupPairs (h : ∀ pair ∈ pairs, pair.1 ≠ pair.2) :
    Clusters (Paired pairs) (groupPairs pairs) := by
  induction pairs using List.reverseRec with
  | nil => exact ⟨nofun, nofun⟩
  | append_singleton pairs pair ih =>
      rw [List.forall_mem_append, List.forall_mem_singleton] at h
      rw [groupPairs, List.foldl_concat]
      exact (ih h.1).joinPair h.2

/-- The groups do not overlap just if no pair gives one more group to an item. -/
theorem pairwise_groupPairs_iff (h : ∀ pair ∈ pairs, pair.1 ≠ pair.2) :
    (groupPairs pairs).Pairwise List.Disjoint ↔
      ∀ before first second, before ++ [(first, second)] <+: pairs →
        ¬Regroups before first second := by
  induction pairs using List.reverseRec with
  | nil => simp [groupPairs]
  | append_singleton pairs pair ih =>
      rw [List.forall_mem_append, List.forall_mem_singleton] at h
      rw [groupPairs, List.foldl_concat, ← groupPairs, pairwise_joinPair_iff,
        and_congr_right fun hdisjoint => ((clusters_groupPairs h.1).not_regroups_iff hdisjoint).symm,
        ih h.1]
      simp only [List.prefix_concat_iff, or_imp, forall_and, List.append_singleton_inj]
      rw [and_comm]
      refine and_congr_left' ⟨?_, fun hlast => hlast pairs pair.1 pair.2 ⟨rfl, rfl⟩⟩
      rintro hlast _ _ _ ⟨rfl, rfl⟩
      exact hlast

end Pairs

end RuleMachine
