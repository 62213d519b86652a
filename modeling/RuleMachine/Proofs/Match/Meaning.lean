import RuleMachine.Proofs.Match.Chain
import RuleMachine.Proofs.Match.Concrete

/-! # What concrete sets mean

However a descriptor is put together, its groups are the lists of alternatives that were
asked for, and a list without alternatives leaves no group. So the descriptor lacks concrete
sets only if it names no predicates. If it is well formed as well, its concrete sets have one
value of each kind that it mentions, and a set contains one of them just if it has all that
is required and something of each group.
-/

namespace RuleMachine

variable {D : Domain}

theorem PredicateSet.size_ofList_of_nodup {V : Vocabulary} {values : List (Predicate V)}
    (h : values.Nodup) : (ofList values).size = values.length := by
  have hperm : (ofList values).toList.Perm values :=
    (List.perm_ext_iff_of_nodup (SortedSet.nodup_toList _) h).mpr fun _ => SortedSet.mem_ofList
  exact hperm.length_eq

namespace Descriptor

/-! ## How descriptors come about -/

/-- Descriptors as they can be put together, with all lists of alternatives that were asked
for on the way. -/
inductive Built : List (List (Predicate D)) → Descriptor D → Prop where
  | unconstrained : Built [] unconstrained
  | declaredAt (origin : Origin) : Built [] (declaredAt origin)
  | withAny {requests : List (List (Predicate D))} {descriptor : Descriptor D}
      (h : Built requests descriptor) (values : List (Predicate D)) :
      Built (requests ++ [values]) (descriptor.withAny values)
  | withAll {requests : List (List (Predicate D))} {descriptor : Descriptor D}
      (h : Built requests descriptor) (values : List (Predicate D)) :
      Built requests (descriptor.withAll values)
  | withCondition {requests : List (List (Predicate D))} {descriptor : Descriptor D}
      (h : Built requests descriptor) (condition : Condition D.Check) :
      Built requests (descriptor.withCondition condition)
  | combine {outerRequests innerRequests : List (List (Predicate D))} {outer inner : Descriptor D}
      (houter : Built outerRequests outer) (hinner : Built innerRequests inner) :
      Built (outerRequests ++ innerRequests) (outer.combine inner)
  | validate {requests : List (List (Predicate D))} {descriptor valid : Descriptor D}
      (h : Built requests descriptor) (hvalid : descriptor.validate = .ok valid) :
      Built requests valid
  | resolve {links : List (List (List (Predicate D)) × Descriptor D)} {resolved : Descriptor D}
      (hlinks : ∀ link ∈ links, Built link.1 link.2)
      (hresolved : MatchChain.resolve (links.map Prod.snd) = .ok resolved) :
      Built (links.flatMap Prod.fst) resolved

theorem any_withAny (descriptor : Descriptor D) (values : List (Predicate D)) :
    (descriptor.withAny values).any =
      descriptor.any ++ [values].filter (fun group => !group.isEmpty) := by
  rw [withAny]
  split
  next hnone => simp [hnone]
  next hsome => simp [hsome]

theorem any_combine (outer inner : Descriptor D) :
    (outer.combine inner).any = outer.any ++ inner.any := rfl

/-- The groups are the lists of alternatives that were asked for, without the empty ones. -/
theorem Built.any_eq {requests : List (List (Predicate D))} {descriptor : Descriptor D}
    (h : Built requests descriptor) :
    descriptor.any = requests.filter (fun group => !group.isEmpty) := by
  induction h with
  | unconstrained => rfl
  | declaredAt origin => rfl
  | withAny _ values ih => rw [any_withAny, ih, List.filter_append]
  | withAll _ values ih => exact ih
  | withCondition _ condition ih => exact ih
  | combine _ _ ihouter ihinner => rw [any_combine, ihouter, ihinner, List.filter_append]
  | validate _ hvalid ih =>
      obtain ⟨rfl, -⟩ := validate_eq_ok_iff.mp hvalid
      exact ih
  | resolve _ hresolved ih =>
      obtain ⟨rfl, -⟩ := MatchChain.resolve_eq_ok_iff.mp hresolved
      rw [MatchChain.any_combined, List.flatMap_map, List.filter_flatMap]
      exact List.flatMap_congr ih

/-! ## Concrete sets -/

section Named

variable {descriptor : Descriptor D} (hnamed : descriptor.any ≠ [] ∨ descriptor.all ≠ [])

include hnamed

theorem concreteSets_of_named : descriptor.concreteSets =
    (product descriptor.any).map fun choice =>
      PredicateSet.ofList (choice ++ descriptor.all) := by
  rw [concreteSets_eq, if_neg]
  rwa [Bool.and_eq_true, List.isEmpty_iff, List.isEmpty_iff, not_and_or]

theorem mem_concreteSets {set : PredicateSet D} :
    set ∈ descriptor.concreteSets ↔
      ∃ choice ∈ product descriptor.any, set = PredicateSet.ofList (choice ++ descriptor.all) := by
  rw [concreteSets_of_named hnamed, List.mem_map]
  simp only [eq_comm]

/-- A set contains a concrete set just if it has what the descriptor asks for. -/
theorem exists_concrete_subset_iff {set : PredicateSet D} :
    (∃ concrete ∈ descriptor.concreteSets, ∀ value ∈ concrete, value ∈ set) ↔
      (∀ value ∈ descriptor.all, value ∈ set) ∧
        ∀ group ∈ descriptor.any, ∃ value ∈ group, value ∈ set := by
  constructor
  · intro h
    obtain ⟨concrete, hconcrete, hsubset⟩ := h
    obtain ⟨choice, hchoice, rfl⟩ := (mem_concreteSets hnamed).mp hconcrete
    constructor
    · intro value hvalue
      exact hsubset value (SortedSet.mem_ofList.mpr (List.mem_append_right choice hvalue))
    · intro group hgroup
      obtain ⟨value, hvalue, hmem⟩ := exists_mem_of_mem_product hchoice hgroup
      exact ⟨value, hmem,
        hsubset value (SortedSet.mem_ofList.mpr (List.mem_append_left _ hvalue))⟩
  · intro h
    rcases h with ⟨hall, hgroups⟩
    obtain ⟨choice, hchoice, hmem⟩ := exists_mem_product_forall hgroups
    refine ⟨_, (mem_concreteSets hnamed).mpr ⟨choice, hchoice, rfl⟩, fun value hvalue => ?_⟩
    rcases List.mem_append.mp (SortedSet.mem_ofList.mp hvalue) with hany | hrequired
    · exact hmem value hany
    · exact hall value hrequired

/-- Every value that is named is in some concrete set. -/
theorem exists_concrete_of_mem {value : Predicate D}
    (h : value ∈ descriptor.anyValues ++ descriptor.all) :
    ∃ concrete ∈ descriptor.concreteSets, value ∈ concrete := by
  have hchoice : ∃ choice ∈ product descriptor.any, value ∈ choice ++ descriptor.all := by
    rcases List.mem_append.mp h with hany | hall
    · obtain ⟨group, hgroup, hvalue⟩ := List.mem_flatten.mp hany
      obtain ⟨choice, hchoice, hmem⟩ :=
        exists_mem_product_of_mem descriptor.nonempty_of_mem_any hgroup hvalue
      exact ⟨choice, hchoice, List.mem_append_left _ hmem⟩
    · obtain ⟨choice, hchoice⟩ := List.exists_mem_of_ne_nil _ descriptor.product_any_ne_nil
      exact ⟨choice, hchoice, List.mem_append_right _ hall⟩
  obtain ⟨choice, hchoice, hmem⟩ := hchoice
  exact ⟨_, (mem_concreteSets hnamed).mpr ⟨choice, hchoice, rfl⟩, SortedSet.mem_ofList.mpr hmem⟩

end Named

section WellFormed

variable {descriptor : Descriptor D} (hwell : descriptor.IsWellFormed)

include hwell

theorem size_of_mem_concreteSets {set : PredicateSet D} (h : set ∈ descriptor.concreteSets) :
    set.size = descriptor.any.length + descriptor.all.length := by
  obtain ⟨choice, hchoice, rfl⟩ := exists_choice_of_mem_concreteSets h
  have hnodup : (choice ++ descriptor.all).Nodup :=
    (List.perm_append_comm.nodup_iff).mp (nodup_map_kind_of_mem_product hwell hchoice).of_map
  rw [PredicateSet.size_ofList_of_nodup hnodup, List.length_append, length_of_mem_product hchoice]

/-- The kinds that a descriptor mentions are those of each of its concrete sets. -/
theorem exists_kind_iff_of_mem_concreteSets {set : PredicateSet D}
    (h : set ∈ descriptor.concreteSets) {kind : D.Kind} :
    (∃ value ∈ set, value.kind = kind) ↔ kind ∈ descriptor.kinds := by
  rw [mem_kinds]
  constructor
  · rintro ⟨value, hvalue, rfl⟩
    exact ⟨value, mem_of_mem_concreteSets h hvalue, rfl⟩
  · rintro ⟨value, hvalue, rfl⟩
    obtain ⟨choice, hchoice, rfl⟩ := exists_choice_of_mem_concreteSets h
    rcases List.mem_append.mp hvalue with hany | hall
    · -- The choice may take another value of the group, but it is of the same kind.
      obtain ⟨group, hgroup, hmem⟩ := List.mem_flatten.mp hany
      obtain ⟨chosen, hchosen, hother⟩ := exists_mem_of_mem_product hchoice hgroup
      exact ⟨chosen, SortedSet.mem_ofList.mpr (List.mem_append_left _ hchosen),
        kind_eq_of_isMixed_eq_false (isMixed_eq_false_of_mem_any hwell hgroup) hother hmem⟩
    · exact ⟨value, SortedSet.mem_ofList.mpr (List.mem_append_right _ hall), rfl⟩

theorem kind_mem_of_mem_concreteSets {set : PredicateSet D} (h : set ∈ descriptor.concreteSets)
    {value : Predicate D} (hvalue : value ∈ set) : value.kind ∈ descriptor.kinds :=
  (exists_kind_iff_of_mem_concreteSets hwell h).mp ⟨value, hvalue, rfl⟩

theorem existsUnique_kind_of_mem_concreteSets {set : PredicateSet D}
    (h : set ∈ descriptor.concreteSets) {kind : D.Kind} (hkind : kind ∈ descriptor.kinds) :
    ∃! value, value ∈ set ∧ value.kind = kind := by
  obtain ⟨value, hvalue, hsame⟩ := (exists_kind_iff_of_mem_concreteSets hwell h).mpr hkind
  refine ⟨value, ⟨hvalue, hsame⟩, ?_⟩
  rintro other ⟨hother, rfl⟩
  exact singleValued_of_mem_concreteSets hwell h other hother value hvalue hsame.symm

/-- Of a set with no two values of one kind, a concrete set within it has all values of the
kinds that are mentioned. -/
theorem mem_of_subset_singleValued {set concrete : PredicateSet D} (hset : set.SingleValued)
    (hconcrete : concrete ∈ descriptor.concreteSets) (hsubset : ∀ value ∈ concrete, value ∈ set)
    {value : Predicate D} (hvalue : value ∈ set) (hkind : value.kind ∈ descriptor.kinds) :
    value ∈ concrete := by
  obtain ⟨found, hfound, hsame⟩ :=
    (exists_kind_iff_of_mem_concreteSets hwell hconcrete).mpr hkind
  rwa [hset value hvalue found (hsubset found hfound) hsame.symm]

/-- A set with no two values of one kind contains one concrete set at most. -/
theorem existsUnique_concrete_subset {set : PredicateSet D} (hset : set.SingleValued)
    (h : ∃ concrete ∈ descriptor.concreteSets, ∀ value ∈ concrete, value ∈ set) :
    ∃! concrete, concrete ∈ descriptor.concreteSets ∧ ∀ value ∈ concrete, value ∈ set := by
  obtain ⟨concrete, hconcrete, hsubset⟩ := h
  refine ⟨concrete, ⟨hconcrete, hsubset⟩, ?_⟩
  rintro other ⟨hother, hotherSubset⟩
  refine SortedSet.ext_mem fun value => ⟨fun hvalue => ?_, fun hvalue => ?_⟩
  · exact mem_of_subset_singleValued hwell hset hconcrete hsubset (hotherSubset value hvalue)
      (kind_mem_of_mem_concreteSets hwell hother hvalue)
  · exact mem_of_subset_singleValued hwell hset hother hotherSubset (hsubset value hvalue)
      (kind_mem_of_mem_concreteSets hwell hconcrete hvalue)

/-- The concrete sets of a well-formed descriptor, without mention of choices. -/
theorem mem_concreteSets_iff (hnamed : descriptor.any ≠ [] ∨ descriptor.all ≠ [])
    {set : PredicateSet D} : set ∈ descriptor.concreteSets ↔
      set.SingleValued ∧ (∀ value ∈ set, value ∈ descriptor.anyValues ++ descriptor.all) ∧
        (∀ value ∈ descriptor.all, value ∈ set) ∧
        ∀ group ∈ descriptor.any, ∃ value ∈ group, value ∈ set := by
  constructor
  · intro h
    exact ⟨singleValued_of_mem_concreteSets hwell h, fun _ => mem_of_mem_concreteSets h,
      (exists_concrete_subset_iff hnamed).mp ⟨set, h, fun _ => id⟩⟩
  · intro h
    rcases h with ⟨hset, hvalues, hasked⟩
    obtain ⟨concrete, hconcrete, hsubset⟩ := (exists_concrete_subset_iff hnamed).mpr hasked
    suffices hsame : set = concrete from hsame ▸ hconcrete
    refine SortedSet.ext_mem fun value => ⟨fun hvalue => ?_, hsubset value⟩
    exact mem_of_subset_singleValued hwell hset hconcrete hsubset hvalue
      (mem_kinds.mpr ⟨value, hvalues value hvalue, rfl⟩)

end WellFormed

/-- No group of a descriptor is empty, whatever lists of alternatives were asked for, and so
it only lacks concrete sets if it names no predicates. If it names some and is well formed,
it has one concrete set for every choice of alternatives. They differ from each other, and
each has one value of every kind that is mentioned and nothing else. A set contains one of
them just if it has all required values and one of each group, and then only this one if
none of its kinds has two values. -/
theorem concreteSets_are_meaning {requests : List (List (Predicate D))}
    {descriptor : Descriptor D} (h : Built requests descriptor) :
    descriptor.any = requests.filter (fun group => !group.isEmpty) ∧
    (∀ group ∈ descriptor.any, group ≠ []) ∧
    (descriptor.concreteSets = [] ↔ descriptor.any = [] ∧ descriptor.all = []) ∧
    ((∃ valid, descriptor.validate = .ok valid) → descriptor.any ≠ [] ∨ descriptor.all ≠ [] →
      descriptor.concreteSets.length = (descriptor.any.map List.length).prod ∧
      descriptor.concreteSets.Nodup ∧
      (∀ concrete ∈ descriptor.concreteSets,
        (∀ kind ∈ descriptor.kinds, ∃! value, value ∈ concrete ∧ value.kind = kind) ∧
        (∀ value ∈ concrete, value.kind ∈ descriptor.kinds) ∧
        concrete.size = descriptor.any.length + descriptor.all.length) ∧
      ∀ set : PredicateSet D,
        ((∃ concrete ∈ descriptor.concreteSets, ∀ value ∈ concrete, value ∈ set) ↔
          (∀ value ∈ descriptor.all, value ∈ set) ∧
            ∀ group ∈ descriptor.any, ∃ value ∈ group, value ∈ set) ∧
        (set.SingleValued →
          (∃ concrete ∈ descriptor.concreteSets, ∀ value ∈ concrete, value ∈ set) →
            ∃! concrete, concrete ∈ descriptor.concreteSets ∧
              ∀ value ∈ concrete, value ∈ set)) := by
  refine ⟨h.any_eq, ?_, concreteSets_eq_nil_iff, fun hvalid hnamed => ?_⟩
  · intro group hgroup
    rw [h.any_eq, List.mem_filter] at hgroup
    simpa using hgroup.2
  have hwell : descriptor.IsWellFormed := by
    obtain ⟨valid, hvalid⟩ := hvalid
    exact isWellFormed_iff.mpr (validate_eq_ok_iff.mp hvalid).2
  refine ⟨?_, nodup_concreteSets hwell, fun concrete hconcrete => ⟨fun kind => ?_,
    fun value => ?_, ?_⟩, fun set => ⟨?_, ?_⟩⟩
  · rw [concreteSets_of_named hnamed, List.length_map, length_product]
  · exact existsUnique_kind_of_mem_concreteSets hwell hconcrete
  · exact kind_mem_of_mem_concreteSets hwell hconcrete
  · exact size_of_mem_concreteSets hwell hconcrete
  · exact exists_concrete_subset_iff hnamed
  · exact existsUnique_concrete_subset hwell

end Descriptor

/-! ## A sample -/

namespace Scenario

theorem kindTable_has_numbers : 9 < kindTable.length := by decide

theorem kindTable_has_texts : 10 < kindTable.length := by decide

def number (value : Int) : Predicate domain :=
  ⟨(⟨⟨9, kindTable_has_numbers⟩⟩ : Kind), value⟩

def phrase (value : String) : Predicate domain :=
  ⟨(⟨⟨10, kindTable_has_texts⟩⟩ : Kind), value⟩

/-- Either number will do, under one phrase. Some alternatives were asked for that are none. -/
def lenient : Descriptor domain :=
  (((Descriptor.declaredAt default).withAny [number 0, number 1]).withAny []).withAll
    [phrase "open"]

theorem built_lenient : Descriptor.Built [[number 0, number 1], []] lenient :=
  (((Descriptor.Built.declaredAt default).withAny [number 0, number 1]).withAny []).withAll
    [phrase "open"]

end Scenario

/-- There are two ways to have some number and the phrase, and a set with the phrase and one
number has them in one of these ways only. -/
theorem Descriptor.concreteSets_are_meaning_lenient :
    Built [[Scenario.number 0, Scenario.number 1], []] Scenario.lenient ∧
    Scenario.lenient.any = [[Scenario.number 0, Scenario.number 1]] ∧
    Scenario.lenient.concreteSets.length = 2 ∧
    (∀ concrete ∈ Scenario.lenient.concreteSets, concrete.size = 2) ∧
    ∃! concrete, concrete ∈ Scenario.lenient.concreteSets ∧ ∀ value ∈ concrete,
      value ∈ PredicateSet.ofList [Scenario.number 1, Scenario.phrase "open"] := by
  obtain ⟨hany, -, -, hmeaning⟩ := concreteSets_are_meaning Scenario.built_lenient
  obtain ⟨hlength, -, hsets, hsubset⟩ := hmeaning ⟨_, rfl⟩ (.inr (List.cons_ne_nil _ _))
  have hset : (PredicateSet.ofList [Scenario.number 1, Scenario.phrase "open"]).SingleValued := by
    decide
  obtain ⟨haccepts, hone⟩ := hsubset (.ofList [Scenario.number 1, Scenario.phrase "open"])
  exact ⟨Scenario.built_lenient, hany, hlength, fun concrete h => (hsets concrete h).2.2,
    hone hset (haccepts.mpr (by decide))⟩

end RuleMachine
