import RuleMachine.Proofs.Combination
import RuleMachine.Proofs.Match.Validity

/-! # Laws of concrete sets

A descriptor has no concrete sets only if it names no predicates: its groups are
never empty, so it cannot contradict itself. The ranks at which it accepts a set
are the sizes of the concrete sets within it, or zero where nothing is named. A
well-formed descriptor lists each concrete set once, and none has two values of one kind.
-/

namespace RuleMachine

namespace PredicateSet

/-- No kind has two values in the set. -/
def SingleValued {V : Vocabulary} (set : PredicateSet V) : Prop :=
  ∀ value ∈ set, ∀ other ∈ set, value.kind = other.kind → value = other

instance {V : Vocabulary} (set : PredicateSet V) : Decidable set.SingleValued :=
  inferInstanceAs (Decidable (∀ value ∈ set.toList, ∀ other ∈ set.toList,
    value.kind = other.kind → value = other))

end PredicateSet

namespace Descriptor

variable {D : Domain}

/-- The descriptor accepts the set with this rank: rank zero if it names no
predicates, and else the size of a concrete set that lies within the set. -/
def AcceptsAt (descriptor : Descriptor D) (set : PredicateSet D) (rank : Nat) : Prop :=
  (descriptor.any = [] ∧ descriptor.all = [] ∧ rank = 0) ∨
    ∃ choice ∈ descriptor.concreteSets, (∀ value ∈ choice, value ∈ set) ∧ rank = choice.size

theorem product_any_ne_nil (descriptor : Descriptor D) : product descriptor.any ≠ [] := by
  rw [Ne, product_eq_nil_iff]
  exact fun hmem => descriptor.nonempty_of_mem_any [] hmem rfl

/-- Without groups there is one choice, which takes nothing: only the required values are left. -/
theorem concreteSets_eq (descriptor : Descriptor D) : descriptor.concreteSets =
    if descriptor.any.isEmpty && descriptor.all.isEmpty then []
    else (product descriptor.any).map fun choice =>
      PredicateSet.ofList (choice ++ descriptor.all) := by
  rw [concreteSets]
  cases hany : descriptor.any with
  | nil => cases descriptor.all <;> rfl
  | cons group groups => rw [combinations_eq_product (List.cons_ne_nil group groups)]; rfl

theorem concreteSets_eq_nil_iff {descriptor : Descriptor D} :
    descriptor.concreteSets = [] ↔ descriptor.any = [] ∧ descriptor.all = [] := by
  rw [concreteSets_eq]
  split
  next h => simpa using h
  next h =>
    rw [List.map_eq_nil_iff, iff_false_left descriptor.product_any_ne_nil]
    simpa using h

/-- A concrete set holds the required values and one value of each group. -/
theorem exists_choice_of_mem_concreteSets {descriptor : Descriptor D} {set : PredicateSet D}
    (h : set ∈ descriptor.concreteSets) :
    ∃ choice ∈ product descriptor.any, set = PredicateSet.ofList (choice ++ descriptor.all) := by
  rw [concreteSets_eq] at h
  split at h
  · exact absurd h List.not_mem_nil
  · obtain ⟨choice, hchoice, rfl⟩ := List.mem_map.mp h
    exact ⟨choice, hchoice, rfl⟩

theorem ne_empty_of_mem_concreteSets {descriptor : Descriptor D} {set : PredicateSet D}
    (h : set ∈ descriptor.concreteSets) : set ≠ ∅ := by
  have hnamed : descriptor.concreteSets ≠ [] := List.ne_nil_of_mem h
  rw [Ne, concreteSets_eq_nil_iff] at hnamed
  obtain ⟨choice, hchoice, rfl⟩ := exists_choice_of_mem_concreteSets h
  have hvalues : choice ++ descriptor.all ≠ [] := by
    rw [Ne, List.append_eq_nil_iff, ← List.length_eq_zero_iff, length_of_mem_product hchoice,
      List.length_eq_zero_iff]
    exact hnamed
  obtain ⟨value, hvalue⟩ := List.exists_mem_of_ne_nil _ hvalues
  intro hempty
  have hmem : value ∈ PredicateSet.ofList (choice ++ descriptor.all) :=
    SortedSet.mem_ofList.mpr hvalue
  rw [hempty] at hmem
  exact SortedSet.not_mem_empty value hmem

/-! ## Ranks -/

theorem mem_ranksIn {descriptor : Descriptor D} {set : PredicateSet D} {rank : Nat} :
    rank ∈ descriptor.ranksIn set ↔ descriptor.AcceptsAt set rank := by
  rw [ranksIn, ranksAmong, AcceptsAt]
  split
  next h =>
    obtain ⟨hany, hall⟩ := concreteSets_eq_nil_iff.mp (List.isEmpty_iff.mp h)
    simp [List.isEmpty_iff.mp h, hany, hall]
  next h =>
    have hnamed : ¬(descriptor.any = [] ∧ descriptor.all = []) := fun hnone =>
      h (List.isEmpty_iff.mpr (concreteSets_eq_nil_iff.mpr hnone))
    rw [← and_assoc, iff_comm, or_iff_right fun hzero => hnamed hzero.1]
    simp only [List.mem_map, List.mem_filter, SortedSet.isSubset_iff, and_assoc, @eq_comm _ rank]

instance (descriptor : Descriptor D) (set : PredicateSet D) (rank : Nat) :
    Decidable (descriptor.AcceptsAt set rank) :=
  decidable_of_iff (rank ∈ descriptor.ranksIn set) mem_ranksIn

/-! ## Repetitions -/

/-- The concrete sets of a well-formed descriptor are different from each other:
what one of them takes from the groups is neither required nor in another group. -/
theorem nodup_concreteSets {descriptor : Descriptor D} (h : descriptor.IsWellFormed) :
    descriptor.concreteSets.Nodup := by
  obtain ⟨-, hany, hshared, -⟩ := fault?_eq_none_iff.mp (isWellFormed_iff.mp h)
  rw [sharedValues_eq_nil_iff] at hshared
  rw [concreteSets_eq]
  split
  · exact List.nodup_nil
  · refine List.Nodup.map_on ?_ (nodup_product fun group hgroup => ?_)
    · -- What a choice takes from the groups cannot be among the required values of the other.
      intro first hfirst second hsecond heq
      apply eq_of_mem_product hany hfirst hsecond
      intro value hvalue
      have hmem : value ∈ PredicateSet.ofList (second ++ descriptor.all) :=
        heq ▸ SortedSet.mem_ofList.mpr (List.mem_append_left _ hvalue)
      apply (List.mem_append.mp (SortedSet.mem_ofList.mp hmem)).resolve_right
      intro hrequired
      exact hshared value hrequired (mem_flatten_of_mem_product hfirst hvalue)
    · exact hany.sublist (List.sublist_flatten_of_mem hgroup)

/-! ## One value of each kind -/

theorem mem_kinds {descriptor : Descriptor D} {kind : D.Kind} :
    kind ∈ descriptor.kinds ↔
      ∃ value ∈ descriptor.anyValues ++ descriptor.all, value.kind = kind := by
  rw [kinds, KindSet.ofList, SortedSet.mem_ofList, List.mem_map]

/-- A concrete set holds nothing but values that the descriptor names. -/
theorem mem_of_mem_concreteSets {descriptor : Descriptor D} {set : PredicateSet D}
    (h : set ∈ descriptor.concreteSets) {value : Predicate D} (hvalue : value ∈ set) :
    value ∈ descriptor.anyValues ++ descriptor.all := by
  obtain ⟨choice, hchoice, rfl⟩ := exists_choice_of_mem_concreteSets h
  rcases List.mem_append.mp (SortedSet.mem_ofList.mp hvalue) with hany | hall
  · exact List.mem_append_left _ (mem_flatten_of_mem_product hchoice hany)
  · exact List.mem_append_right _ hall

theorem isMixed_eq_false_iff {group : List (Predicate D)} :
    isMixed group = false ↔ ∀ value ∈ group, ∀ other ∈ group, value.kind = other.kind := by
  have hmem : ∀ kind, kind ∈ (KindSet.ofList (group.map Predicate.kind)).toList ↔
      kind ∈ group.map Predicate.kind := fun kind => SortedSet.mem_ofList
  rw [isMixed, decide_eq_false_iff_not, Nat.not_lt, SortedSet.size,
    length_le_one_iff_of_nodup (SortedSet.nodup_toList _)]
  simp only [hmem, List.forall_mem_map]

/-- The values of a group that is not mixed are of one kind. -/
theorem kind_eq_of_isMixed_eq_false {group : List (Predicate D)} (h : isMixed group = false)
    {value other : Predicate D} (hvalue : value ∈ group) (hother : other ∈ group) :
    value.kind = other.kind :=
  isMixed_eq_false_iff.mp h value hvalue other hother

/-- A choice claims the kinds that its groups claim. -/
theorem map_kind_of_mem_product {groups : List (List (Predicate D))}
    (hgroups : ∀ group ∈ groups, isMixed group = false) {choice : List (Predicate D)}
    (h : choice ∈ product groups) :
    choice.map Predicate.kind =
      groups.filterMap (fun group => group.head?.map Predicate.kind) := by
  induction groups generalizing choice with
  | nil =>
      rw [List.mem_singleton.mp h]
      rfl
  | cons group groups ih =>
      obtain ⟨value, hvalue, rest, hrest, rfl⟩ := mem_product_cons.mp h
      obtain ⟨hgroup, hlater⟩ := List.forall_mem_cons.mp hgroups
      cases group with
      | nil => exact absurd hvalue List.not_mem_nil
      | cons first later =>
          rw [List.map_cons, ih hlater hrest,
            kind_eq_of_isMixed_eq_false hgroup hvalue List.mem_cons_self]
          rfl

section WellFormed

variable {descriptor : Descriptor D} (hwell : descriptor.IsWellFormed)

include hwell

theorem isMixed_eq_false_of_mem_any {group : List (Predicate D)} (hgroup : group ∈ descriptor.any) :
    isMixed group = false := by
  obtain ⟨hmixed, -⟩ := fault?_eq_none_iff.mp (isWellFormed_iff.mp hwell)
  by_contra hmany
  rw [Bool.not_eq_false] at hmany
  exact descriptor.nonempty_of_mem_any group hgroup
    (List.flatten_eq_nil_iff.mp hmixed group (List.mem_filter.mpr ⟨hgroup, hmany⟩))

/-- A well-formed descriptor claims the kinds of any of its choices. -/
theorem claims_eq_of_mem_product {choice : List (Predicate D)}
    (hchoice : choice ∈ product descriptor.any) :
    descriptor.claims = (descriptor.all ++ choice).map Predicate.kind := by
  rw [claims, List.map_append,
    map_kind_of_mem_product (fun _ => isMixed_eq_false_of_mem_any hwell) hchoice]

/-- No kind is claimed twice by the required values and a choice. -/
theorem nodup_map_kind_of_mem_product {choice : List (Predicate D)}
    (hchoice : choice ∈ product descriptor.any) :
    ((descriptor.all ++ choice).map Predicate.kind).Nodup := by
  obtain ⟨-, -, -, hcontested⟩ := fault?_eq_none_iff.mp (isWellFormed_iff.mp hwell)
  rw [← claims_eq_of_mem_product hwell hchoice]
  exact contestedValues_eq_nil_iff.mp hcontested

/-- A concrete set of a well-formed descriptor has at most one value of each kind. -/
theorem singleValued_of_mem_concreteSets {set : PredicateSet D}
    (h : set ∈ descriptor.concreteSets) : set.SingleValued := by
  intro value hvalue other hother hkind
  obtain ⟨choice, hchoice, rfl⟩ := exists_choice_of_mem_concreteSets h
  have hmem : ∀ named ∈ PredicateSet.ofList (choice ++ descriptor.all),
      named ∈ descriptor.all ++ choice := fun named hnamed =>
    List.mem_append.mpr (List.mem_append.mp (SortedSet.mem_ofList.mp hnamed)).symm
  exact List.inj_on_of_nodup_map (nodup_map_kind_of_mem_product hwell hchoice) (hmem value hvalue)
    (hmem other hother) hkind

end WellFormed

end Descriptor

end RuleMachine
