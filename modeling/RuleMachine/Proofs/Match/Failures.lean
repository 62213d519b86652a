import RuleMachine.Proofs.Match.Faults

/-! # What a failing chain reports

A chain that does not resolve has a shortest part, from the outside, that cannot be combined. The
errors reported are those of the links that are malformed by themselves, and the error of that
part if all of its links are well formed. Errors of one kind are merged, in the order in which
the kinds first occur, and merging neither loses nor adds a predicate or an origin.
-/

namespace RuleMachine

variable {D : Domain}

/-! ## Merged errors -/

namespace MatchError

variable {V : Vocabulary} {error : MatchError V} {errors merged : List (MatchError V)}

/-- The merged errors account for the errors: there is one for each kind, in the order in which
the kinds first occur, and it has the predicates and origins of all errors of its kind. -/
structure Accounts (errors merged : List (MatchError V)) : Prop where
  kinds : merged.map MatchError.kind = distinct (errors.map MatchError.kind)
  predicates : ∀ found ∈ merged, ∀ value, value ∈ found.predicates ↔
    ∃ error ∈ errors, error.kind = found.kind ∧ value ∈ error.predicates
  origins : ∀ found ∈ merged, ∀ origin, origin ∈ found.origins ↔
    ∃ error ∈ errors, error.kind = found.kind ∧ origin ∈ error.origins

theorem Accounts.nodup_kinds (h : Accounts errors merged) : (merged.map MatchError.kind).Nodup :=
  h.kinds ▸ nodup_distinct _

theorem Accounts.exists_of_mem (h : Accounts errors merged) (herror : error ∈ errors) :
    ∃ found ∈ merged, found.kind = error.kind ∧ error.predicates ⊆ found.predicates ∧
      error.origins ⊆ found.origins := by
  have hkind : error.kind ∈ merged.map MatchError.kind := by
    rw [h.kinds, mem_distinct]
    exact List.mem_map_of_mem herror
  obtain ⟨found, hfound, hsame⟩ := List.mem_map.mp hkind
  exact ⟨found, hfound, hsame,
    fun value hvalue => (h.predicates found hfound value).mpr ⟨error, herror, hsame.symm, hvalue⟩,
    fun origin horigin => (h.origins found hfound origin).mpr ⟨error, herror, hsame.symm, horigin⟩⟩

theorem map_kind_mergeInto (error : MatchError V) (merged : List (MatchError V)) :
    (mergeInto error merged).map MatchError.kind =
      addMissing (merged.map MatchError.kind) [error.kind] := by
  induction merged with
  | nil => rfl
  | cons head rest ih =>
      rw [mergeInto, List.map_cons]
      split
      next hsame =>
        rw [addMissing_of_subset (by simp [hsame])]
        rfl
      next hother =>
        have hmem : error.kind ∈ head.kind :: rest.map MatchError.kind ↔
            error.kind ∈ rest.map MatchError.kind := by simp [Ne.symm hother]
        simp only [List.map_cons, ih, addMissing, hmem]
        split <;> rfl

theorem map_kind_mergeByKind (errors : List (MatchError V)) :
    (mergeByKind errors).map MatchError.kind = distinct (errors.map MatchError.kind) := by
  induction errors using List.reverseRec with
  | nil => rfl
  | append_singleton errors error ih =>
      rw [mergeByKind, List.foldl_concat, ← mergeByKind, map_kind_mergeInto, ih, distinct, distinct,
        List.map_append, List.map_singleton, addMissing_append]

section Parts

variable {α : Type} [DecidableEq α] {part : MatchError V → List α} {kind : MatchErrorKind}
  {item : α}

-- What follows holds of any list in an error that absorbing adds to: of its predicates and of its
-- origins.
variable (habsorb : ∀ known other : MatchError V,
  part (known.absorb other) = addMissing (part known) (part other))

include habsorb

/-- Merging keeps what errors of a kind hold, and adds what the new one holds. -/
theorem exists_mem_mergeInto :
    (∃ found ∈ mergeInto error merged, found.kind = kind ∧ item ∈ part found) ↔
      (∃ found ∈ merged, found.kind = kind ∧ item ∈ part found) ∨
        (error.kind = kind ∧ item ∈ part error) := by
  induction merged with
  | nil => simp [mergeInto]
  | cons head rest ih =>
      rw [mergeInto]
      split
      next hsame =>
        have hkind : (head.absorb error).kind = head.kind := rfl
        rw [List.exists_mem_cons_iff, List.exists_mem_cons_iff, habsorb, mem_addMissing, hkind,
          ← hsame, and_or_left, or_right_comm]
      next hother => rw [List.exists_mem_cons_iff, List.exists_mem_cons_iff, ih, or_assoc]

theorem exists_mem_mergeByKind :
    (∃ found ∈ mergeByKind errors, found.kind = kind ∧ item ∈ part found) ↔
      ∃ error ∈ errors, error.kind = kind ∧ item ∈ part error := by
  induction errors using List.reverseRec with
  | nil => exact Iff.rfl
  | append_singleton errors error ih =>
      rw [mergeByKind, List.foldl_concat, ← mergeByKind, exists_mem_mergeInto habsorb, ih]
      simp [or_and_right, exists_or]

/-- A merged error is the only one of its kind, so it holds what all errors of the kind hold. -/
theorem mem_part_mergeByKind {found : MatchError V} (hfound : found ∈ mergeByKind errors) :
    item ∈ part found ↔ ∃ error ∈ errors, error.kind = found.kind ∧ item ∈ part error := by
  have hnodup : ((mergeByKind errors).map MatchError.kind).Nodup :=
    map_kind_mergeByKind errors ▸ nodup_distinct _
  rw [← exists_mem_mergeByKind habsorb]
  constructor
  · exact fun hitem => ⟨found, hfound, rfl, hitem⟩
  · rintro ⟨known, hknown, hkind, hitem⟩
    exact List.inj_on_of_nodup_map hnodup hknown hfound hkind ▸ hitem

end Parts

/-- Merging by kind accounts for all errors. -/
theorem accounts_mergeByKind (errors : List (MatchError V)) :
    Accounts errors (mergeByKind errors) where
  kinds := map_kind_mergeByKind errors
  predicates _ hfound _ := mem_part_mergeByKind (fun _ _ => rfl) hfound
  origins _ hfound _ := mem_part_mergeByKind (fun _ _ => rfl) hfound

end MatchError

/-! ## Where a chain breaks -/

instance (descriptor : Descriptor D) : Decidable descriptor.IsWellFormed :=
  decidable_of_iff (descriptor.fault?.isNone = true)
    (Option.isNone_iff_eq_none.trans Descriptor.isWellFormed_iff.symm)

namespace MatchChain

variable {chain outer inner : MatchChain D} {link : Descriptor D} {error broken : MatchError D}

theorem isWellFormed_of_combined_append (h : (combined (outer ++ inner)).IsWellFormed) :
    (combined outer).IsWellFormed ∧ (combined inner).IsWellFormed := by
  rw [combined_append] at h
  exact ⟨(Descriptor.partOf_combine_left _ _).isWellFormed h,
    (Descriptor.partOf_combine_right _ _).isWellFormed h⟩

theorem isWellFormed_of_mem_of_combined (h : (combined chain).IsWellFormed) (hlink : link ∈ chain) :
    link.IsWellFormed := by
  obtain ⟨outer, inner, rfl⟩ := List.append_of_mem hlink
  have hinner := (isWellFormed_of_combined_append h).2
  rw [combined_cons] at hinner
  exact (Descriptor.partOf_combine_left _ _).isWellFormed hinner

/-- The scopes from the outside in are well formed together, up to one that does not go with the
scopes around it. -/
structure BreaksAt (outer : MatchChain D) (link : Descriptor D) (broken : MatchError D) : Prop where
  isWellFormed : ∀ part, part <+: outer → (combined part).IsWellFormed
  validate : (combined (outer ++ [link])).validate = .error broken

theorem exists_breaksAt (h : ¬(combined chain).IsWellFormed) :
    ∃ outer link inner broken, chain = outer ++ [link] ++ inner ∧ BreaksAt outer link broken := by
  -- Whichever scope the chain is extended by, it broke before or it breaks there.
  induction chain using List.reverseRec with
  | nil => exact absurd Descriptor.isWellFormed_unconstrained h
  | append_singleton chain link ih =>
      by_cases hwell : (combined chain).IsWellFormed
      · obtain ⟨broken, hbroken⟩ := Descriptor.exists_validate_error h
        refine ⟨chain, link, [], broken, (List.append_nil _).symm, ?_, hbroken⟩
        rintro part ⟨rest, rfl⟩
        exact (isWellFormed_of_combined_append hwell).1
      · obtain ⟨outer, first, inner, broken, rfl, hbreaks⟩ := ih hwell
        exact ⟨outer, first, inner ++ [link], broken, List.append_assoc _ _ _, hbreaks⟩

namespace BreaksAt

theorem isWellFormed_of_mem (h : BreaksAt outer link broken) {part : Descriptor D}
    (hpart : part ∈ outer) : part.IsWellFormed :=
  isWellFormed_of_mem_of_combined (h.isWellFormed outer List.prefix_rfl) hpart

/-- The declarations of all scopes up to the one that the chain breaks at take part. -/
theorem origins_eq (h : BreaksAt outer link broken) :
    broken.origins = (outer ++ [link]).flatMap Descriptor.origins := by
  rw [(Descriptor.validate_eq_error_iff.mp h.validate).2, origins_combined]

end BreaksAt

/-! ## The failures of a chain -/

theorem mem_ownErrors : error ∈ ownErrors chain ↔ ∃ link ∈ chain, link.validate = .error error := by
  rw [ownErrors, List.mem_filterMap]
  refine exists_congr fun link => and_congr_right fun _ => ?_
  cases link.validate <;> simp

theorem ownErrors_append (outer inner : MatchChain D) :
    ownErrors (outer ++ inner) = ownErrors outer ++ ownErrors inner :=
  List.filterMap_append

theorem ownErrors_eq_nil (h : ∀ link ∈ chain, link.IsWellFormed) : ownErrors chain = [] := by
  rw [List.eq_nil_iff_forall_not_mem]
  intro error herror
  obtain ⟨link, hlink, hvalidate⟩ := mem_ownErrors.mp herror
  rw [(h link hlink : link.validate = .ok link)] at hvalidate
  cases hvalidate

theorem ownErrors_singleton (h : link.validate = .error error) : ownErrors [link] = [error] := by
  rw [ownErrors, List.filterMap_cons, h, List.filterMap_nil]

/-- What is wrong with a chain, from the outside in, if it breaks at the last of some scopes. What
is wrong with these scopes together counts only if nothing is wrong with any of them alone. -/
def failures (chain scopes : MatchChain D) (broken : MatchError D) : List (MatchError D) :=
  if ∀ link ∈ scopes, link.IsWellFormed then broken :: ownErrors chain else ownErrors chain

theorem failures_append (chain inner scopes : MatchChain D) (broken : MatchError D) :
    failures (chain ++ inner) scopes broken = failures chain scopes broken ++ ownErrors inner := by
  rw [failures, failures, ownErrors_append]
  split <;> rfl

/-- Up to the scope where a chain breaks there is one failure, which is its own if it has one. -/
theorem exists_extend_of_breaksAt (h : BreaksAt outer link broken) :
    ∃ error, (outer ++ [link]).foldl extend (.ok none) = .error [error] ∧
      failures (outer ++ [link]) (outer ++ [link]) broken = [error] := by
  have hstart : ((none : Option (Descriptor D)).getD .unconstrained).IsWellFormed :=
    Descriptor.isWellFormed_unconstrained
  obtain ⟨last, hlast, hcombined⟩ :=
    (foldl_extend_eq_ok_iff hstart).mpr ⟨rfl, h.isWellFormed outer List.prefix_rfl⟩
  have hown : ownErrors outer = [] := ownErrors_eq_nil fun part => h.isWellFormed_of_mem
  rw [List.foldl_concat, hlast, failures, ownErrors_append, hown, List.nil_append]
  cases hlink : link.validate with
  | ok valid =>
      obtain ⟨rfl, -⟩ := Descriptor.validate_eq_ok_iff.mp hlink
      have hscopes : ∀ part ∈ outer ++ [valid], part.IsWellFormed := by
        rw [List.forall_mem_append, List.forall_mem_singleton]
        exact ⟨fun part => h.isWellFormed_of_mem, hlink⟩
      have hbroken : ((last.getD .unconstrained).combine valid).validate = .error broken := by
        rw [hcombined, ← h.validate, combined_append]
        rfl
      refine ⟨broken, ?_, ?_⟩
      · rw [extend_of_isWellFormed hlink, hbroken]
      · rw [if_pos hscopes, ownErrors_eq_nil (List.forall_mem_singleton.mpr hlink)]
  | error error =>
      have hscopes : ¬∀ part ∈ outer ++ [link], part.IsWellFormed := by
        intro hall
        have hwell : link.validate = .ok link := hall link List.mem_concat_self
        rw [hlink] at hwell
        cases hwell
      refine ⟨error, ?_, ?_⟩
      · simp only [extend, hlink]
      · rw [if_neg hscopes, ownErrors_singleton hlink]

theorem foldl_extend_of_breaksAt (h : BreaksAt outer link broken) (inner : MatchChain D) :
    (outer ++ [link] ++ inner).foldl extend (.ok none) =
      .error (failures (outer ++ [link] ++ inner) (outer ++ [link]) broken) := by
  obtain ⟨error, hfold, hfailures⟩ := exists_extend_of_breaksAt h
  rw [List.foldl_append, hfold, foldl_extend_error, ← hfailures,
    failures_append (outer ++ [link]) inner]

/-- The errors of a chain that does not resolve account for its failures: for every scope that is
malformed by itself, and for the scopes up to where the chain breaks if only their combination is
malformed. There is one error for each kind of failure, in the order of the first failure of its
kind, and it has exactly the predicates and origins of the failures of its kind. If no scope is
malformed by itself, it is the error of the combination. -/
theorem resolve_accounts_for_links {errors : List (MatchError D)}
    (h : resolve chain = .error errors) :
    ∃ outer link inner broken, chain = outer ++ [link] ++ inner ∧ BreaksAt outer link broken ∧
      broken.origins = (outer ++ [link]).flatMap Descriptor.origins ∧
      MatchError.Accounts (failures chain (outer ++ [link]) broken) errors ∧
      (errors.map MatchError.kind).Nodup ∧
      (∀ part ∈ chain, ∀ own, part.validate = .error own → ∃ found ∈ errors,
        found.kind = own.kind ∧ own.predicates ⊆ found.predicates ∧ own.origins ⊆ found.origins) ∧
      ((∀ part ∈ chain, part.IsWellFormed) → errors = [broken]) := by
  have hmalformed : ¬(combined chain).IsWellFormed := by
    intro hwell
    rw [resolve_eq_ok_iff.mpr ⟨rfl, hwell⟩] at h
    cases h
  obtain ⟨outer, link, inner, broken, rfl, hbreaks⟩ := exists_breaksAt hmalformed
  rw [resolve, foldl_extend_of_breaksAt hbreaks inner] at h
  cases h
  have haccounts := MatchError.accounts_mergeByKind
    (failures (outer ++ [link] ++ inner) (outer ++ [link]) broken)
  refine ⟨outer, link, inner, broken, rfl, hbreaks, hbreaks.origins_eq, haccounts,
    haccounts.nodup_kinds, fun part hpart own hown => ?_, fun hall => ?_⟩
  · have hmem := mem_ownErrors.mpr ⟨part, hpart, hown⟩
    refine haccounts.exists_of_mem ?_
    rw [failures]
    split
    · exact List.mem_cons_of_mem broken hmem
    · exact hmem
  · have hscopes : ∀ part ∈ outer ++ [link], part.IsWellFormed := fun part hpart =>
      hall part (List.mem_append_left inner hpart)
    rw [failures, if_pos hscopes, ownErrors_eq_nil hall]
    rfl

end MatchChain

/-! ## A sample -/

namespace Scenario

/-- The matches of four nested scopes. The first two ask for numbers that do not go together, and
each of the others is malformed by itself. -/
def clashing : MatchChain domain :=
  [(Descriptor.declaredAt ⟨"rules", 1, 0⟩).withAny [number 0, number 1],
    (Descriptor.declaredAt ⟨"rules", 2, 0⟩).withAll [number 2],
    (Descriptor.declaredAt ⟨"rules", 3, 0⟩).withAll [phrase "open", phrase "shut"],
    (Descriptor.declaredAt ⟨"rules", 4, 0⟩).withAny [number 3, number 3]]

end Scenario

/-- The numbers and the phrases are contested, which makes one error of the three scopes. -/
theorem MatchChain.resolve_accounts_for_links_clashing :
    ∃ errors, resolve Scenario.clashing = .error errors ∧ (errors.map MatchError.kind).Nodup ∧
      errors.head?.map MatchError.origins =
        some [⟨"rules", 1, 0⟩, ⟨"rules", 2, 0⟩, ⟨"rules", 3, 0⟩] ∧
      ∃ found ∈ errors, found.kind = .duplicateMatchTypes ∧
        [Scenario.phrase "open", Scenario.phrase "shut"] ⊆ found.predicates := by
  have hresolve : resolve Scenario.clashing = .error
      [⟨.duplicateMatchTypes, [Scenario.number 2, Scenario.number 0, Scenario.number 1,
          Scenario.phrase "open", Scenario.phrase "shut"],
          [⟨"rules", 1, 0⟩, ⟨"rules", 2, 0⟩, ⟨"rules", 3, 0⟩]⟩,
        ⟨.duplicateAnyValues, [Scenario.number 3], [⟨"rules", 4, 0⟩]⟩] := rfl
  obtain ⟨_, _, _, _, -, -, -, -, hkinds, hlinks, -⟩ := resolve_accounts_for_links hresolve
  have hphrases : Scenario.clashing[2].validate = .error ⟨.duplicateMatchTypes,
      [Scenario.phrase "open", Scenario.phrase "shut"], [⟨"rules", 3, 0⟩]⟩ := rfl
  obtain ⟨found, hfound, hkind, hpredicates, -⟩ :=
    hlinks _ (List.getElem_mem _) _ hphrases
  exact ⟨_, hresolve, hkinds, rfl, found, hfound, hkind, hpredicates⟩

end RuleMachine
