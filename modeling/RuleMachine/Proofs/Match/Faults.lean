import RuleMachine.Proofs.Match.Meaning

/-! # The first fault of a descriptor

A descriptor is well formed just if each of its groups has different values of one kind, and no
kind is claimed by two groups or required values. The four checks come to that, although the last
of them only looks at the first value of a group: it is reached when no group is mixed. A
descriptor that is not well formed is blamed for the first sort of fault that it has, with all
values at fault.
-/

namespace RuleMachine

namespace Descriptor

variable {D : Domain}

/-- Values of different kinds stand in the group. -/
def Mixes (group : List (Predicate D)) : Prop :=
  ∃ value ∈ group, ∃ other ∈ group, value.kind ≠ other.kind

instance (group : List (Predicate D)) : Decidable (Mixes group) :=
  inferInstanceAs (Decidable (∃ value ∈ group, ∃ other ∈ group, value.kind ≠ other.kind))

/-- One kind for each group, which all values of the group have. -/
def KindsOf (groups : List (List (Predicate D))) (kinds : List D.Kind) : Prop :=
  List.Forall₂ (fun group kind => ∀ value ∈ group, value.kind = kind) groups kinds

/-- What a descriptor is blamed for: the first sort of fault that it has, with all values at
fault. -/
inductive FirstFault (descriptor : Descriptor D) : MatchErrorKind → List (Predicate D) → Prop where
  /-- The values of all groups that mix kinds. -/
  | mixed (hmixes : ∃ group ∈ descriptor.any, Mixes group) :
      FirstFault descriptor .conflictingAnyTypes
        (descriptor.any.filter (fun group => Mixes group)).flatten
  /-- The alternatives that recur, each once, in the order of their first recurrence. -/
  | recurring {values : List (Predicate D)} (hpure : ∀ group ∈ descriptor.any, ¬Mixes group)
      (hrecurs : ∃ value, 1 < descriptor.anyValues.count value) (hnodup : values.Nodup)
      (hvalues : ∀ value, value ∈ values ↔ 1 < descriptor.anyValues.count value)
      (horder : values.Pairwise (RecursBefore descriptor.anyValues)) :
      FirstFault descriptor .duplicateAnyValues values
  /-- The required values that are alternatives as well. -/
  | shared (hpure : ∀ group ∈ descriptor.any, ¬Mixes group) (hdistinct : descriptor.anyValues.Nodup)
      (hshared : ∃ value ∈ descriptor.all, ∃ group ∈ descriptor.any, value ∈ group) :
      FirstFault descriptor .duplicateAnyAllValues
        (descriptor.all.filter (fun value => ∃ group ∈ descriptor.any, value ∈ group))
  /-- The required values and then the alternatives whose kind is claimed more than once. -/
  | contested {kinds : List D.Kind} (hkinds : KindsOf descriptor.any kinds)
      (hdistinct : descriptor.anyValues.Nodup)
      (hapart : ∀ value ∈ descriptor.all, ∀ group ∈ descriptor.any, value ∉ group)
      (hcontested : ¬(descriptor.all.map Predicate.kind ++ kinds).Nodup) :
      FirstFault descriptor .duplicateMatchTypes
        ((descriptor.all ++ descriptor.anyValues).filter (fun value =>
          1 < (descriptor.all.map Predicate.kind ++ kinds).count value.kind))

/-! ## The kinds of groups -/

theorem isMixed_eq_decide (group : List (Predicate D)) : isMixed group = decide (Mixes group) := by
  rw [Bool.eq_iff_iff, decide_eq_true_eq, ← not_iff_not, Bool.not_eq_true, isMixed_eq_false_iff,
    Mixes]
  push Not
  exact Iff.rfl

theorem KindsOf.not_mixes {groups : List (List (Predicate D))} {kinds : List D.Kind}
    (h : KindsOf groups kinds) : ∀ group ∈ groups, ¬Mixes group := by
  rintro group hgroup ⟨value, hvalue, other, hother, hne⟩
  induction h with
  | nil => exact List.not_mem_nil hgroup
  | cons hkind _ ih =>
      rcases List.mem_cons.mp hgroup with rfl | hlater
      · exact hne ((hkind value hvalue).trans (hkind other hother).symm)
      · exact ih hlater

theorem exists_kindsOf {groups : List (List (Predicate D))} (hsome : ∀ group ∈ groups, group ≠ [])
    (hpure : ∀ group ∈ groups, ¬Mixes group) : ∃ kinds, KindsOf groups kinds := by
  induction groups with
  | nil => exact ⟨[], .nil⟩
  | cons group groups ih =>
      obtain ⟨hgroup, hlater⟩ := List.forall_mem_cons.mp hsome
      obtain ⟨hpureGroup, hpureLater⟩ := List.forall_mem_cons.mp hpure
      obtain ⟨named, hnamed⟩ := List.exists_mem_of_ne_nil group hgroup
      obtain ⟨kinds, hkinds⟩ := ih hlater hpureLater
      refine ⟨named.kind :: kinds, .cons (fun value hvalue => ?_) hkinds⟩
      by_contra hne
      exact hpureGroup ⟨value, hvalue, named, hnamed, hne⟩

/-- No two groups have a value in common if no kind recurs. -/
theorem KindsOf.pairwise_disjoint {groups : List (List (Predicate D))} {kinds : List D.Kind}
    (h : KindsOf groups kinds) (hkinds : kinds.Nodup) : groups.Pairwise List.Disjoint := by
  induction h with
  | nil => exact List.Pairwise.nil
  | @cons group kind groups kinds hkind hlater ih =>
      obtain ⟨hfresh, hrest⟩ := List.nodup_cons.mp hkinds
      refine List.pairwise_cons.mpr ⟨fun other hother value hvalue hmem => hfresh ?_, ih hrest⟩
      obtain ⟨claimed, hclaimed, hkindOther⟩ := exists_of_mem_of_forall₂ hlater hother
      rw [← hkind value hvalue, hkindOther value hmem]
      exact hclaimed

theorem KindsOf.filterMap_head? {groups : List (List (Predicate D))} {kinds : List D.Kind}
    (h : KindsOf groups kinds) (hsome : ∀ group ∈ groups, group ≠ []) :
    groups.filterMap (fun group => group.head?.map Predicate.kind) = kinds := by
  induction h with
  | nil => rfl
  | @cons group kind groups kinds hkind _ ih =>
      obtain ⟨hgroup, hlater⟩ := List.forall_mem_cons.mp hsome
      obtain ⟨named, others, rfl⟩ := List.exists_cons_of_ne_nil hgroup
      rw [List.filterMap_cons, List.head?_cons, Option.map_some, ih hlater,
        hkind named List.mem_cons_self]

variable {descriptor : Descriptor D}

/-- The kinds that are claimed, given the kinds of the groups. -/
theorem KindsOf.claims_eq {kinds : List D.Kind} (h : KindsOf descriptor.any kinds) :
    descriptor.claims = descriptor.all.map Predicate.kind ++ kinds := by
  rw [claims, h.filterMap_head? descriptor.nonempty_of_mem_any]

/-! ## Well-formed descriptors -/

theorem mixedValues_eq (descriptor : Descriptor D) : descriptor.mixedValues =
    (descriptor.any.filter (fun group => Mixes group)).flatten := by
  rw [mixedValues, funext isMixed_eq_decide]

theorem mixedValues_eq_nil_iff :
    descriptor.mixedValues = [] ↔ ∀ group ∈ descriptor.any, ¬Mixes group := by
  rw [mixedValues_eq, List.flatten_eq_nil_iff]
  simp only [List.mem_filter, decide_eq_true_eq]
  exact ⟨fun h group hgroup hmixes =>
      descriptor.nonempty_of_mem_any group hgroup (h group ⟨hgroup, hmixes⟩),
    fun h group hgroup => absurd hgroup.2 (h group hgroup.1)⟩

theorem sharedValues_eq (descriptor : Descriptor D) : descriptor.sharedValues =
    descriptor.all.filter (fun value => ∃ group ∈ descriptor.any, value ∈ group) := by
  simp only [sharedValues, anyValues, List.mem_flatten]

theorem isWellFormed_iff_kindsOf : descriptor.IsWellFormed ↔
    (∀ group ∈ descriptor.any, group.Nodup) ∧ ∃ kinds, KindsOf descriptor.any kinds ∧
      (descriptor.all.map Predicate.kind ++ kinds).Nodup := by
  rw [isWellFormed_iff, fault?_eq_none_iff, mixedValues_eq_nil_iff, contestedValues_eq_nil_iff]
  constructor
  · rintro ⟨hpure, hdistinct, -, hclaims⟩
    obtain ⟨kinds, hkinds⟩ := exists_kindsOf descriptor.nonempty_of_mem_any hpure
    exact ⟨fun group hgroup => hdistinct.sublist (List.sublist_flatten_of_mem hgroup), kinds, hkinds,
      hkinds.claims_eq ▸ hclaims⟩
  · rintro ⟨hgroups, kinds, hkinds, hclaims⟩
    obtain ⟨-, hnodup, hapart⟩ := List.nodup_append'.mp hclaims
    refine ⟨hkinds.not_mixes, ?_, ?_, hkinds.claims_eq.symm ▸ hclaims⟩
    · exact List.nodup_flatten.mpr ⟨hgroups, hkinds.pairwise_disjoint hnodup⟩
    · rw [sharedValues_eq_nil_iff]
      intro value hvalue hany
      obtain ⟨group, hgroup, hmem⟩ := List.mem_flatten.mp hany
      obtain ⟨kind, hkind, hall⟩ := exists_of_mem_of_forall₂ hkinds hgroup
      exact hapart (List.mem_map_of_mem hvalue) (hall value hmem ▸ hkind)

/-! ## Descriptors with a fault -/

theorem firstFault_of_fault? {kind : MatchErrorKind} {values : List (Predicate D)}
    (h : descriptor.fault? = some (kind, values)) : FirstFault descriptor kind values := by
  simp only [fault?, Bool.not_eq_true', List.isEmpty_eq_false_iff] at h
  split at h
  next hmixed =>
    cases h
    rw [Ne, mixedValues_eq_nil_iff] at hmixed
    push Not at hmixed
    exact mixedValues_eq descriptor ▸ .mixed hmixed
  next hpure =>
    rw [not_not, mixedValues_eq_nil_iff] at hpure
    split at h
    next hrecurs =>
      cases h
      obtain ⟨value, hvalue⟩ := List.exists_mem_of_ne_nil _ hrecurs
      exact .recurring hpure ⟨value, mem_repeated.mp hvalue⟩ (nodup_repeated _)
        (fun value => mem_repeated) (pairwise_repeated _)
    next hdistinct =>
      rw [not_not, repeated_eq_nil_iff] at hdistinct
      split at h
      next hshared =>
        cases h
        rw [sharedValues_eq] at hshared ⊢
        obtain ⟨value, hvalue⟩ := List.exists_mem_of_ne_nil _ hshared
        obtain ⟨hall, hany⟩ := List.mem_filter.mp hvalue
        exact .shared hpure hdistinct ⟨value, hall, of_decide_eq_true hany⟩
      next hapart =>
        split at h
        next hcontested =>
          cases h
          obtain ⟨kinds, hkinds⟩ := exists_kindsOf descriptor.nonempty_of_mem_any hpure
          rw [Ne, contestedValues_eq_nil_iff, hkinds.claims_eq] at hcontested
          rw [not_not, sharedValues_eq, List.filter_eq_nil_iff] at hapart
          rw [contestedValues, hkinds.claims_eq]
          exact .contested hkinds hdistinct (by simpa using hapart) hcontested
        next => cases h

theorem fault?_of_firstFault {kind : MatchErrorKind} {values : List (Predicate D)}
    (h : FirstFault descriptor kind values) : descriptor.fault? = some (kind, values) := by
  simp only [fault?, Bool.not_eq_true', List.isEmpty_eq_false_iff]
  cases h with
  | mixed hmixes =>
      have hmixed : descriptor.mixedValues ≠ [] := by
        rw [Ne, mixedValues_eq_nil_iff]
        push Not
        exact hmixes
      rw [if_pos hmixed, mixedValues_eq]
  | recurring hpure hrecurs hnodup hvalues horder =>
      obtain ⟨value, hvalue⟩ := hrecurs
      rw [if_neg (not_not_intro (mixedValues_eq_nil_iff.mpr hpure)),
        if_pos (List.ne_nil_of_mem (mem_repeated.mpr hvalue)),
        eq_repeated_iff.mpr ⟨hnodup, hvalues, horder⟩]
  | shared hpure hdistinct hshared =>
      obtain ⟨value, hall, hany⟩ := hshared
      have hmem : value ∈ descriptor.sharedValues := by
        rw [sharedValues_eq]
        exact List.mem_filter.mpr ⟨hall, decide_eq_true hany⟩
      rw [if_neg (not_not_intro (mixedValues_eq_nil_iff.mpr hpure)),
        if_neg (not_not_intro (repeated_eq_nil_iff.mpr hdistinct)),
        if_pos (List.ne_nil_of_mem hmem), sharedValues_eq]
  | contested hkinds hdistinct hapart hcontested =>
      have hnone : descriptor.sharedValues = [] := by
        rw [sharedValues_eq, List.filter_eq_nil_iff]
        simpa using hapart
      rw [← hkinds.claims_eq] at hcontested ⊢
      rw [if_neg (not_not_intro (mixedValues_eq_nil_iff.mpr hkinds.not_mixes)),
        if_neg (not_not_intro (repeated_eq_nil_iff.mpr hdistinct)), if_neg (not_not_intro hnone),
        if_pos (contestedValues_eq_nil_iff.not.mpr hcontested), contestedValues]

theorem fault?_eq_some_iff {kind : MatchErrorKind} {values : List (Predicate D)} :
    descriptor.fault? = some (kind, values) ↔ FirstFault descriptor kind values :=
  ⟨firstFault_of_fault?, fault?_of_firstFault⟩

theorem validate_eq_error_iff {error : MatchError D} : descriptor.validate = .error error ↔
    descriptor.fault? = some (error.kind, error.predicates) ∧
      error.origins = descriptor.origins := by
  obtain ⟨kind, predicates, origins⟩ := error
  rw [validate]
  split
  next hnone => simp [hnone]
  next hsome => simp [hsome, eq_comm, and_assoc]

/-- Some value is always at fault. -/
theorem FirstFault.ne_nil {kind : MatchErrorKind} {values : List (Predicate D)}
    (h : FirstFault descriptor kind values) : values ≠ [] := by
  cases h with
  | mixed hmixes =>
      obtain ⟨group, hgroup, value, hvalue, hother⟩ := hmixes
      exact List.ne_nil_of_mem (List.mem_flatten.mpr ⟨group,
        List.mem_filter.mpr ⟨hgroup, decide_eq_true ⟨value, hvalue, hother⟩⟩, hvalue⟩)
  | recurring _ hrecurs _ hvalues _ =>
      obtain ⟨value, hvalue⟩ := hrecurs
      exact List.ne_nil_of_mem ((hvalues value).mpr hvalue)
  | shared _ _ hshared =>
      obtain ⟨value, hall, hany⟩ := hshared
      exact List.ne_nil_of_mem (List.mem_filter.mpr ⟨hall, decide_eq_true hany⟩)
  | contested hkinds _ _ hcontested =>
      rw [← hkinds.claims_eq] at hcontested ⊢
      exact contestedValues_eq_nil_iff.not.mpr hcontested

/-- Validation lets a descriptor pass, unchanged, just if each group has different values of one
kind, and no kind is claimed by two required values or groups. Otherwise the error names the
declarations of the descriptor and its first fault, with at least one value. -/
theorem validate_finds_first_fault (descriptor : Descriptor D) :
    (descriptor.validate = .ok descriptor ↔
      (∀ group ∈ descriptor.any, group.Nodup) ∧ ∃ kinds, KindsOf descriptor.any kinds ∧
        (descriptor.all.map Predicate.kind ++ kinds).Nodup) ∧
    (∀ valid, descriptor.validate = .ok valid → valid = descriptor) ∧
    (∀ error, descriptor.validate = .error error ↔
      FirstFault descriptor error.kind error.predicates ∧ error.origins = descriptor.origins) ∧
    ∀ error, descriptor.validate = .error error → error.predicates ≠ [] := by
  refine ⟨isWellFormed_iff_kindsOf, fun valid hvalid => (validate_eq_ok_iff.mp hvalid).1,
    fun error => ?_, fun error herror => ?_⟩
  · rw [validate_eq_error_iff, fault?_eq_some_iff]
  · obtain ⟨hfault, -⟩ := validate_eq_error_iff.mp herror
    exact (firstFault_of_fault? hfault).ne_nil

/-- Alternatives that recur are reported before a number that is required as well, in the order in
which they recur. -/
example : (((Descriptor.declaredAt default).withAll [Scenario.number 1]).withAny
    [Scenario.number 1, Scenario.number 0, Scenario.number 0, Scenario.number 1]).validate =
      .error ⟨.duplicateAnyValues, [Scenario.number 0, Scenario.number 1], [default]⟩ := rfl

end Descriptor

end RuleMachine
