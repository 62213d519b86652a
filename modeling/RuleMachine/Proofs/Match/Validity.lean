import RuleMachine.Match.Chain
import RuleMachine.Proofs.Repetition
import RuleMachine.Row.Expansion

/-! # Laws of well-formed matches

Validation never changes a descriptor. Whatever resolves from a chain of scopes
is well formed, so every row that declarations come to has a well-formed match.
-/

namespace RuleMachine

variable {D : Domain}

namespace Descriptor

/-- The descriptor passes validation. -/
def IsWellFormed (descriptor : Descriptor D) : Prop :=
  descriptor.validate = .ok descriptor

theorem validate_eq_ok_iff {descriptor valid : Descriptor D} :
    descriptor.validate = .ok valid ↔ valid = descriptor ∧ descriptor.fault? = none := by
  rw [validate]
  split
  next hnone => simp only [Except.ok.injEq, hnone, and_true, eq_comm]
  next hsome => simp only [hsome, reduceCtorEq, and_false]

theorem isWellFormed_iff {descriptor : Descriptor D} :
    descriptor.IsWellFormed ↔ descriptor.fault? = none := by
  rw [IsWellFormed, validate_eq_ok_iff]
  exact and_iff_right rfl

theorem isWellFormed_of_validate {descriptor valid : Descriptor D}
    (h : descriptor.validate = .ok valid) : valid.IsWellFormed := by
  obtain ⟨rfl, hnone⟩ := validate_eq_ok_iff.mp h
  exact isWellFormed_iff.mpr hnone

theorem fault?_eq_none_iff {descriptor : Descriptor D} :
    descriptor.fault? = none ↔
      descriptor.mixedValues = [] ∧ descriptor.anyValues.Nodup ∧
        descriptor.sharedValues = [] ∧ descriptor.contestedValues = [] := by
  rw [fault?, ← repeated_eq_nil_iff]
  simp only [Bool.not_eq_true', List.isEmpty_eq_false_iff]
  split
  next h => simp [h]
  next hmixed =>
    split
    next h => simp [h]
    next hany =>
      split
      next h => simp [h]
      next hshared => split <;> simp_all

theorem sharedValues_eq_nil_iff {descriptor : Descriptor D} :
    descriptor.sharedValues = [] ↔ ∀ value ∈ descriptor.all, value ∉ descriptor.anyValues := by
  simp only [sharedValues, List.filter_eq_nil_iff, decide_eq_true_eq]

/-- Whatever kind is claimed is the kind of some value. -/
theorem exists_value_of_mem_claims {descriptor : Descriptor D} {kind : D.Kind}
    (h : kind ∈ descriptor.claims) :
    ∃ value ∈ descriptor.all ++ descriptor.anyValues, value.kind = kind := by
  rcases List.mem_append.mp h with hall | hany
  · obtain ⟨value, hvalue, rfl⟩ := List.mem_map.mp hall
    exact ⟨value, List.mem_append_left _ hvalue, rfl⟩
  · obtain ⟨group, hgroup, hkind⟩ := List.mem_filterMap.mp hany
    obtain ⟨value, hvalue, rfl⟩ := Option.map_eq_some_iff.mp hkind
    have hmem : value ∈ descriptor.anyValues :=
      List.mem_flatten.mpr ⟨group, hgroup, List.mem_of_head? hvalue⟩
    exact ⟨value, List.mem_append_right _ hmem, rfl⟩

theorem contestedValues_eq_nil_iff {descriptor : Descriptor D} :
    descriptor.contestedValues = [] ↔ descriptor.claims.Nodup := by
  simp only [contestedValues, List.filter_eq_nil_iff, decide_eq_true_eq, Nat.not_lt,
    List.nodup_iff_count]
  refine ⟨fun h kind => ?_, fun h value _ => h value.kind⟩
  by_cases hclaimed : kind ∈ descriptor.claims
  · obtain ⟨value, hvalue, rfl⟩ := exists_value_of_mem_claims hclaimed
    exact h value hvalue
  · rw [List.count_eq_zero_of_not_mem hclaimed]
    exact Nat.zero_le 1

theorem isWellFormed_unconstrained : (unconstrained : Descriptor D).IsWellFormed :=
  isWellFormed_iff.mpr rfl

end Descriptor

namespace MatchChain

/-- Whatever has been combined so far is well formed. -/
def WellFormedSoFar (progress : Progress D) : Prop :=
  ∀ descriptor, progress = .ok (some descriptor) → descriptor.IsWellFormed

theorem wellFormedSoFar_extend (progress : Progress D) (link : Descriptor D) :
    WellFormedSoFar (extend progress link) := by
  intro descriptor h
  rcases progress with errors | outer
  · cases hlink : link.validate <;> simp only [extend, hlink, reduceCtorEq] at h
  · cases hlink : link.validate with
    | error error => simp only [extend, hlink, reduceCtorEq] at h
    | ok valid =>
        simp only [extend, hlink] at h
        split at h
        next resolved hresolved =>
          cases h
          exact Descriptor.isWellFormed_of_validate hresolved
        next => cases h

theorem wellFormedSoFar_foldl (chain : MatchChain D) {progress : Progress D}
    (h : WellFormedSoFar progress) : WellFormedSoFar (chain.foldl extend progress) := by
  -- Every link leaves the progress well formed, whatever it was before.
  induction chain generalizing progress with
  | nil => exact h
  | cons link rest ih => exact ih (wellFormedSoFar_extend progress link)

theorem isWellFormed_of_resolve {chain : MatchChain D} {resolved : Descriptor D}
    (h : resolve chain = .ok resolved) : resolved.IsWellFormed := by
  have hstart : WellFormedSoFar (.ok none : Progress D) := fun descriptor h => by cases h
  have hsofar := wellFormedSoFar_foldl chain hstart
  unfold resolve at h
  split at h
  next descriptor hfold =>
    cases h
    cases descriptor with
    | none => exact Descriptor.isWellFormed_unconstrained
    | some descriptor => exact hsofar descriptor hfold
  next => cases h

/-! ## Failing chains -/

theorem mergeInto_ne_nil (error : MatchError D) (merged : List (MatchError D)) :
    MatchError.mergeInto error merged ≠ [] := by
  cases merged with
  | nil => exact List.cons_ne_nil error []
  | cons head rest =>
      rw [MatchError.mergeInto]
      split <;> exact List.cons_ne_nil _ _

theorem mergeByKind_ne_nil {errors : List (MatchError D)} (h : errors ≠ []) :
    MatchError.mergeByKind errors ≠ [] := by
  rw [← List.dropLast_concat_getLast h, MatchError.mergeByKind, List.foldl_concat]
  exact mergeInto_ne_nil _ _

theorem ne_nil_of_extend {progress : Progress D} (h : progress ≠ .error []) (link : Descriptor D) :
    extend progress link ≠ .error [] := by
  unfold extend
  split
  · dsimp only
    split <;> simp
  · simp
  · exact h
  · simp

/-- A chain that does not resolve has at least one fault to report. -/
theorem ne_nil_of_resolve {chain : MatchChain D} {errors : List (MatchError D)}
    (h : resolve chain = .error errors) : errors ≠ [] := by
  have hfold : ∀ (links : MatchChain D) (progress : Progress D), progress ≠ .error [] →
      links.foldl extend progress ≠ .error [] := by
    intro links
    induction links with
    | nil => exact fun _ => id
    | cons link rest ih => exact fun progress hprogress => ih _ (ne_nil_of_extend hprogress link)
  have hresult := hfold chain (.ok none) nofun
  unfold resolve at h
  split at h
  next => cases h
  next found hfound =>
    cases h
    rw [hfound] at hresult
    exact mergeByKind_ne_nil fun hnil => hresult (hnil ▸ rfl)

end MatchChain

theorem DraftRow.isWellFormed_of_resolve {draft : DraftRow D} {row : Row D}
    (h : draft.resolve = .ok row) : row.descriptor.IsWellFormed := by
  unfold resolve at h
  cases hchain : MatchChain.resolve draft.chain with
  | error => rw [hchain] at h; cases h
  | ok descriptor =>
      rw [hchain] at h
      cases h
      exact MatchChain.isWellFormed_of_resolve hchain

/-- Every row that definitions come to has a well-formed match. -/
theorem Definition.isWellFormed_of_rows {definitions : List (Definition D)} {rows : List (Row D)}
    (h : Definition.rows definitions = .ok rows) : ∀ row ∈ rows, row.descriptor.IsWellFormed := by
  intro row hrow
  unfold Definition.rows at h
  cases hdrafts : Checked.gather (definitions.map Definition.draftRows) with
  | error => rw [hdrafts] at h; cases h
  | ok drafts =>
      rw [hdrafts] at h
      simp only [Except.bind, DraftRow.resolveAll] at h
      split at h
      next =>
        cases h
        obtain ⟨draft, -, hresolved⟩ := List.mem_filterMap.mp hrow
        cases hdraft : draft.resolve with
        | error => rw [hdraft] at hresolved; cases hresolved
        | ok resolved =>
            rw [hdraft] at hresolved
            cases hresolved
            exact draft.isWellFormed_of_resolve hdraft
      next => cases h

end RuleMachine
