import Mathlib.Data.List.Induction
import RuleMachine.Predicate.Grouping
import RuleMachine.Predicate.Set
import RuleMachine.Proofs.Repetition
import RuleMachine.Proofs.SortedSet

/-! # Laws of grouping by kind

Thinning a list keeps a value just if no earlier one is of its kind, so the kinds it has seen
only matter as a filter. Grouping files the values under their kinds one after the other: after
each value, the groups are those of the values so far. As kinds tie only when they are the same,
both find the same kinds, and what thinning keeps is what comes first in its group.
-/

namespace RuleMachine

namespace Predicate

variable {V : Vocabulary}

/-! ## The first value of each kind -/

/-- Kinds that are seen to begin with are left out of what is kept without them. -/
theorem uniqueByKindFrom_eq_filter {seen earlier kinds : List V.Kind}
    (h : ∀ kind, kind ∈ seen ↔ kind ∈ earlier ∨ kind ∈ kinds) (values : List (Predicate V)) :
    uniqueByKindFrom seen values =
      (uniqueByKindFrom earlier values).filter fun value => value.kind ∉ kinds := by
  induction values generalizing seen earlier with
  | nil => rfl
  | cons value rest ih =>
      simp only [uniqueByKindFrom]
      by_cases hearlier : value.kind ∈ earlier
      · rw [if_pos ((h _).mpr (.inl hearlier)), if_pos hearlier, ih h]
      · rw [if_neg hearlier]
        by_cases hkinds : value.kind ∈ kinds
        · rw [if_pos ((h _).mpr (.inr hkinds)), List.filter_cons_of_neg (by simpa using hkinds)]
          apply ih
          intro kind
          rw [h, List.mem_cons]
          -- The kind that is new to the run without `kinds` is one of these.
          constructor
          · exact Or.imp_left .inr
          · rintro ((rfl | hkind) | hkind)
            · exact .inr hkinds
            · exact .inl hkind
            · exact .inr hkind
        · have hseen : value.kind ∉ seen := fun hmem => ((h _).mp hmem).elim hearlier hkinds
          rw [if_neg hseen, List.filter_cons_of_pos (by simpa using hkinds)]
          congr 1
          apply ih
          intro kind
          rw [List.mem_cons, List.mem_cons, h, or_assoc]

theorem uniqueByKind_cons (value : Predicate V) (rest : List (Predicate V)) :
    uniqueByKind (value :: rest) =
      value :: (uniqueByKind rest).filter fun other => other.kind ≠ value.kind := by
  have hrest : uniqueByKindFrom [value.kind] rest =
      (uniqueByKindFrom [] rest).filter fun other => other.kind ∉ [value.kind] :=
    uniqueByKindFrom_eq_filter (by simp) rest
  simpa [uniqueByKind, uniqueByKindFrom] using hrest

theorem uniqueByKind_append (first second : List (Predicate V)) :
    uniqueByKind (first ++ second) = uniqueByKind first ++
      (uniqueByKind second).filter fun value => value.kind ∉ first.map kind := by
  induction first with
  | nil => simp [uniqueByKind, uniqueByKindFrom]
  | cons value rest ih =>
      rw [List.cons_append, uniqueByKind_cons, uniqueByKind_cons, ih, List.filter_append,
        List.filter_filter, List.cons_append]
      simp

/-- What is kept is what has no value of its kind before it. -/
theorem uniqueByKind_eq_filter_zipIdx (values : List (Predicate V)) :
    uniqueByKind values = (values.zipIdx.filter fun entry =>
      entry.1.kind ∉ (values.take entry.2).map kind).map Prod.fst := by
  induction values using List.reverseRecOn with
  | nil => rfl
  | append_singleton values value ih =>
      have hbefore : ∀ entry ∈ values.zipIdx,
          (values ++ [value]).take entry.2 = values.take entry.2 := by
        intro entry hentry
        exact List.take_append_of_le_length (Nat.le_of_lt (List.snd_lt_of_mem_zipIdx hentry))
      rw [uniqueByKind_append, ih, List.zipIdx_append, List.filter_append, List.map_append]
      congr 2
      · apply List.filter_congr
        intro entry hentry
        rw [hbefore entry hentry]
      · by_cases hmem : value.kind ∈ values.map kind <;>
          simp [uniqueByKind, uniqueByKindFrom, -List.mem_map, hmem]

/-- A value is kept just if it is the first one of its kind. -/
theorem mem_uniqueByKind {values : List (Predicate V)} {value : Predicate V} :
    value ∈ uniqueByKind values ↔
      values.find? (fun other => other.kind = value.kind) = some value := by
  induction values with
  | nil => simp [uniqueByKind, uniqueByKindFrom]
  | cons head rest ih =>
      rw [uniqueByKind_cons, List.mem_cons, List.mem_filter, ih, List.find?_cons]
      by_cases hkind : head.kind = value.kind
      · simp [hkind, @eq_comm _ head]
      · have hne : value ≠ head := fun heq => hkind (heq ▸ rfl)
        simp only [hkind, hne, decide_false, false_or, and_iff_left_iff_imp, decide_eq_true_eq]
        exact fun _ => Ne.symm hkind

theorem mem_map_kind_uniqueByKind {values : List (Predicate V)} {kind : V.Kind} :
    kind ∈ (uniqueByKind values).map Predicate.kind ↔ kind ∈ values.map Predicate.kind := by
  constructor
  · intro h
    obtain ⟨value, hvalue, rfl⟩ := List.mem_map.mp h
    exact List.mem_map_of_mem (List.mem_of_find?_eq_some (mem_uniqueByKind.mp hvalue))
  · intro h
    obtain ⟨first, hfirst, rfl⟩ := exists_find?_key h
    exact List.mem_map_of_mem (mem_uniqueByKind.mpr hfirst)

theorem pairwise_uniqueByKind (values : List (Predicate V)) :
    (uniqueByKind values).Pairwise fun first second => first.kind ≠ second.kind := by
  induction values with
  | nil => exact List.Pairwise.nil
  | cons value rest ih =>
      rw [uniqueByKind_cons, List.pairwise_cons]
      constructor
      · intro other hother
        exact Ne.symm (of_decide_eq_true (List.mem_filter.mp hother).2)
      · exact ih.filter _

/-- Of values of different kinds all are kept. -/
theorem uniqueByKind_eq_self {values : List (Predicate V)}
    (h : values.Pairwise fun first second => first.kind ≠ second.kind) :
    uniqueByKind values = values := by
  induction values with
  | nil => rfl
  | cons value rest ih =>
      obtain ⟨hvalue, hrest⟩ := List.pairwise_cons.mp h
      rw [uniqueByKind_cons, ih hrest, List.filter_eq_self.mpr]
      intro other hother
      simpa using (hvalue other hother).symm

/-! ## Groups -/

section Groups

variable {value : Predicate V} {kinds : List V.Kind} {group : V.Kind → List (Predicate V)}

theorem map_group_of_not_mem (h : value.kind ∉ kinds) :
    (kinds.map fun kind => (kind, group kind ++ [value].filter fun other => other.kind = kind)) =
      kinds.map fun kind => (kind, group kind) := by
  apply List.map_congr_left
  intro kind hkind
  have hne : value.kind ≠ kind := fun heq => h (heq ▸ hkind)
  simp [hne]

/-- A value goes to the end of the group of its kind, and the other groups stay as they are. -/
theorem addToGroups_map (hascending : kinds.Pairwise fun low high => compare low high = .lt)
    (hnew : value.kind ∉ kinds → group value.kind = []) :
    addToGroups value (kinds.map fun kind => (kind, group kind)) =
      (SortedSet.place value.kind kinds).map fun kind =>
        (kind, group kind ++ [value].filter fun other => other.kind = kind) := by
  induction kinds with
  | nil => simp [addToGroups, SortedSet.place, hnew]
  | cons head tail ih =>
      rw [List.map_cons, addToGroups, SortedSet.place]
      cases hcompare : compare value.kind head with
      | lt =>
          have hmissing := SortedSet.not_mem_of_lt_head hascending hcompare
          dsimp only
          rw [List.map_cons, map_group_of_not_mem hmissing, hnew hmissing, List.map_cons]
          simp
      | eq =>
          have heq : value.kind = head := Std.LawfulEqCmp.eq_of_compare hcompare
          have hmissing : value.kind ∉ tail := by
            rw [heq]
            exact (List.nodup_cons.mp (SortedSet.nodup_toList ⟨_, hascending⟩)).1
          dsimp only
          rw [List.map_cons, map_group_of_not_mem hmissing]
          simp [heq]
      | gt =>
          have hne := ne_of_compare_gt hcompare
          dsimp only
          rw [List.map_cons, ih hascending.of_cons]
          · simp [hne]
          · intro hmissing
            apply hnew
            rw [List.mem_cons, not_or]
            exact ⟨hne, hmissing⟩

end Groups

theorem groupByKind_concat (values : List (Predicate V)) (value : Predicate V) :
    groupByKind (values ++ [value]) = addToGroups value (groupByKind values) :=
  List.foldl_concat ..

/-- There is one group for each kind, in the order of the kinds, and it has the values of that
kind in the order of the list. -/
theorem groupByKind_eq (values : List (Predicate V)) :
    groupByKind values = (KindSet.ofList (values.map kind)).toList.map fun kind =>
      (kind, values.filter fun value => value.kind = kind) := by
  induction values using List.reverseRecOn with
  | nil => rfl
  | append_singleton values value ih =>
      have hkinds : KindSet.ofList ((values ++ [value]).map kind) =
          (KindSet.ofList (values.map kind)).insert value.kind := by
        apply SortedSet.ext_mem
        intro other
        simp [KindSet.ofList, SortedSet.mem_ofList, SortedSet.mem_insert, or_comm, eq_comm]
      have hnew : value.kind ∉ (KindSet.ofList (values.map kind)).toList →
          values.filter (fun other => other.kind = value.kind) = [] := by
        intro hmissing
        rw [SortedSet.mem_toList, KindSet.ofList, SortedSet.mem_ofList] at hmissing
        rw [List.filter_eq_nil_iff]
        intro other hother heq
        exact hmissing (List.mem_map.mpr ⟨other, hother, by simpa using heq⟩)
      rw [groupByKind_concat, ih,
        addToGroups_map (KindSet.ofList (values.map kind)).ascending hnew, hkinds]
      simp only [List.filter_append]
      rfl

theorem mem_groupByKind {values group : List (Predicate V)} {kind : V.Kind} :
    (kind, group) ∈ groupByKind values ↔
      group = values.filter (fun value => value.kind = kind) ∧ group ≠ [] := by
  rw [groupByKind_eq, List.mem_map]
  simp only [SortedSet.mem_toList, KindSet.ofList, SortedSet.mem_ofList, Prod.mk.injEq]
  constructor
  · rintro ⟨_, hkind, rfl, rfl⟩
    obtain ⟨value, hvalue, rfl⟩ := List.mem_map.mp hkind
    exact ⟨rfl, List.ne_nil_of_mem (List.mem_filter.mpr ⟨hvalue, decide_eq_true rfl⟩)⟩
  · rintro ⟨rfl, hsome⟩
    obtain ⟨value, hvalue⟩ := List.exists_mem_of_ne_nil _ hsome
    obtain ⟨hmem, hkind⟩ := List.mem_filter.mp hvalue
    exact ⟨kind, List.mem_map.mpr ⟨value, hmem, of_decide_eq_true hkind⟩, rfl, rfl⟩

theorem pairwise_groupByKind (values : List (Predicate V)) :
    (groupByKind values).Pairwise fun low high => compare low.1 high.1 = .lt := by
  rw [groupByKind_eq, List.pairwise_map]
  exact (KindSet.ofList (values.map kind)).ascending

theorem addToGroups_perm (value : Predicate V) (groups : List (V.Kind × List (Predicate V))) :
    ((addToGroups value groups).flatMap Prod.snd).Perm (value :: groups.flatMap Prod.snd) := by
  induction groups with
  | nil => exact .refl _
  | cons head rest ih =>
      obtain ⟨kind, group⟩ := head
      rw [addToGroups]
      cases compare value.kind kind with
      | lt => exact .refl _
      | eq => simp
      | gt => exact (ih.append_left group).trans List.perm_middle

/-- Nothing is lost and nothing is added. -/
theorem flatMap_groupByKind_perm (values : List (Predicate V)) :
    ((groupByKind values).flatMap Prod.snd).Perm values := by
  induction values using List.reverseRecOn with
  | nil => exact .refl _
  | append_singleton values value ih =>
      rw [groupByKind_concat]
      exact (addToGroups_perm value _).trans
        ((ih.cons value).trans (List.perm_append_singleton value values).symm)

/-! ## The first values of the groups -/

/-- The values that thinning keeps are the first ones of the groups. -/
theorem uniqueByKind_perm (values : List (Predicate V)) :
    ((uniqueByKind values).map some).Perm
      ((groupByKind values).map fun entry => entry.2.head?) := by
  have hkinds : ((uniqueByKind values).map kind).Perm (KindSet.ofList (values.map kind)).toList := by
    rw [List.perm_ext_iff_of_nodup]
    · intro other
      rw [mem_map_kind_uniqueByKind, SortedSet.mem_toList, KindSet.ofList, SortedSet.mem_ofList]
    · exact List.pairwise_map.mpr (pairwise_uniqueByKind values)
    · exact SortedSet.nodup_toList _
  have hfirsts : (uniqueByKind values).map some = ((uniqueByKind values).map kind).map fun kind =>
      values.find? fun value => value.kind = kind := by
    rw [List.map_map]
    apply List.map_congr_left
    intro value hvalue
    exact (mem_uniqueByKind.mp hvalue).symm
  have hgroups : ((groupByKind values).map fun entry => entry.2.head?) =
      (KindSet.ofList (values.map kind)).toList.map fun kind =>
        values.find? fun value => value.kind = kind := by
    simp only [groupByKind_eq, List.map_map, Function.comp_def, List.head?_filter]
  rw [hfirsts, hgroups]
  exact hkinds.map _

/-- The groups of a list of predicates stand in the order of their kinds, and the group of a kind
has just the values of that kind, in the order of the list; so each value that is given, as often
as it is given, is in one group. Thinning the list keeps just the values that have none of
their kind before them, in their order, which are the first values of the groups. Thinning once
more changes nothing, and a list that is continued by another one is thinned to what either of
them is thinned to, the second without the kinds of the first. -/
theorem grouping_agrees (values others : List (Predicate V)) :
    (groupByKind values).Pairwise (fun low high => compare low.1 high.1 = .lt) ∧
    (∀ kind group, (kind, group) ∈ groupByKind values ↔
      group = values.filter (fun value => value.kind = kind) ∧ group ≠ []) ∧
    ((groupByKind values).flatMap Prod.snd).Perm values ∧
    uniqueByKind values = (values.zipIdx.filter fun entry =>
      entry.1.kind ∉ (values.take entry.2).map kind).map Prod.fst ∧
    ((uniqueByKind values).map some).Perm
      ((groupByKind values).map fun entry => entry.2.head?) ∧
    uniqueByKind (uniqueByKind values) = uniqueByKind values ∧
    uniqueByKind (values ++ others) = uniqueByKind values ++
      (uniqueByKind others).filter fun value => value.kind ∉ values.map kind :=
  ⟨pairwise_groupByKind values, fun _ _ => mem_groupByKind, flatMap_groupByKind_perm values,
    uniqueByKind_eq_filter_zipIdx values, uniqueByKind_perm values,
    uniqueByKind_eq_self (pairwise_uniqueByKind values), uniqueByKind_append values others⟩

end Predicate

end RuleMachine
