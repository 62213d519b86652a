import Mathlib.Data.List.Flatten
import RuleMachine.Proofs.Match.Validity
import RuleMachine.Scenario.Domain

/-! # Chains and their combination

Resolving a chain comes to combining its links and looking at the result once: whatever is
wrong with a link, or with the links up to some scope, is still wrong when more is asked for.
So it does not matter how a match is spread over nested scopes. The condition that results
asks those of the links from the outermost scope inwards, until one of them is not met.
-/

namespace RuleMachine

variable {D : Domain}

/-! ## Conditions one after another -/

namespace Condition

variable {Check : Type} {holds : Check → Bool}

/-- What is asked when conditions are gone through in order, each once, up to the first that
is not met. -/
inductive AskedInTurn (holds : Check → Bool) :
    List (Condition Check) → List (Check × Bool) → Prop where
  | done : AskedInTurn holds [] []
  | met {condition : Condition Check} {rest : List (Condition Check)} {trace : List (Check × Bool)}
      (hmet : condition.isMet holds = true) (hrest : AskedInTurn holds rest trace) :
      AskedInTurn holds (condition :: rest) (condition.asked holds ++ trace)
  /-- A condition that is not met is the last to be asked. -/
  | refused {condition : Condition Check} {rest : List (Condition Check)}
      (hrefused : condition.isMet holds = false) :
      AskedInTurn holds (condition :: rest) (condition.asked holds)

theorem askList_append (first second : List Check) :
    askList holds (first ++ second) =
      askList holds first ++ if first.all holds then askList holds second else [] := by
  induction first with
  | nil => rfl
  | cons check rest ih =>
      rw [List.cons_append, askList, askList, ih, List.all_cons]
      cases holds check <;> simp

/-- The second of two conditions is asked only if the first is met. -/
theorem asked_and (first second : Condition Check) :
    (first.and second).asked holds =
      first.asked holds ++ if first.isMet holds then second.asked holds else [] :=
  askList_append first.checks second.checks

theorem isMet_and (first second : Condition Check) :
    (first.and second).isMet holds = (first.isMet holds && second.isMet holds) :=
  List.all_append

theorem isPresent_and (first second : Condition Check) :
    (first.and second).isPresent = (first.isPresent || second.isPresent) := by
  obtain ⟨checks⟩ := first
  cases checks <;> rfl

/-- All of several conditions at once. -/
def conjunction (conditions : List (Condition Check)) : Condition Check :=
  conditions.foldr and none

theorem askedInTurn_conjunction (conditions : List (Condition Check)) :
    AskedInTurn holds conditions ((conjunction conditions).asked holds) := by
  induction conditions with
  | nil => exact .done
  | cons condition rest ih =>
      rw [conjunction, List.foldr_cons, asked_and]
      split
      next hmet => exact .met hmet ih
      next hrefused =>
        rw [List.append_nil]
        exact .refused (Bool.not_eq_true _ ▸ hrefused)

theorem isMet_conjunction_iff {conditions : List (Condition Check)} :
    (conjunction conditions).isMet holds = true ↔
      ∀ condition ∈ conditions, condition.isMet holds = true := by
  induction conditions with
  | nil => simp [conjunction, isMet, none]
  | cons condition rest ih =>
      rw [conjunction, List.foldr_cons, isMet_and, Bool.and_eq_true, List.forall_mem_cons]
      exact and_congr_right fun _ => ih

theorem isPresent_conjunction_iff {conditions : List (Condition Check)} :
    (conjunction conditions).isPresent = true ↔
      ∃ condition ∈ conditions, condition.isPresent = true := by
  induction conditions with
  | nil => simp [conjunction, isPresent, none]
  | cons condition rest ih =>
      rw [conjunction, List.foldr_cons, isPresent_and, Bool.or_eq_true, List.exists_mem_cons_iff]
      exact or_congr_right ih

end Condition

/-! ## Parts of a well-formed descriptor -/

namespace Descriptor

/-- The groups and required values of one descriptor are among those of another, in order. -/
structure PartOf (inner whole : Descriptor D) : Prop where
  any : inner.any.Sublist whole.any
  all : inner.all.Sublist whole.all

theorem PartOf.anyValues {inner whole : Descriptor D} (h : PartOf inner whole) :
    inner.anyValues.Sublist whole.anyValues :=
  h.any.flatten

theorem PartOf.claims {inner whole : Descriptor D} (h : PartOf inner whole) :
    inner.claims.Sublist whole.claims :=
  (h.all.map Predicate.kind).append (h.any.filterMap _)

theorem exists_validate_error {descriptor : Descriptor D} (h : ¬descriptor.IsWellFormed) :
    ∃ error, descriptor.validate = .error error := by
  cases hvalidate : descriptor.validate with
  | error error => exact ⟨error, rfl⟩
  | ok valid =>
      obtain ⟨rfl, -⟩ := validate_eq_ok_iff.mp hvalidate
      exact absurd hvalidate h

/-- Each of the four faults of a part is a fault of the whole. -/
theorem PartOf.isWellFormed {inner whole : Descriptor D} (h : PartOf inner whole)
    (hwhole : whole.IsWellFormed) : inner.IsWellFormed := by
  rw [isWellFormed_iff, fault?_eq_none_iff] at hwhole ⊢
  obtain ⟨hmixed, hany, hshared, hcontested⟩ := hwhole
  refine ⟨?_, hany.sublist h.anyValues, ?_, ?_⟩
  · have hsub : inner.mixedValues.Sublist whole.mixedValues := (h.any.filter isMixed).flatten
    exact List.sublist_nil.mp (hmixed ▸ hsub)
  · rw [sharedValues_eq_nil_iff] at hshared ⊢
    exact fun value hvalue hmem =>
      hshared value (h.all.subset hvalue) (h.anyValues.subset hmem)
  · rw [contestedValues_eq_nil_iff] at hcontested ⊢
    exact hcontested.sublist h.claims

theorem partOf_combine_left (outer inner : Descriptor D) : PartOf outer (outer.combine inner) where
  any := List.sublist_append_left _ _
  all := List.sublist_append_left _ _

theorem partOf_combine_right (outer inner : Descriptor D) :
    PartOf inner (outer.combine inner) where
  any := List.sublist_append_right _ _
  all := List.sublist_append_right _ _

theorem unconstrained_combine (descriptor : Descriptor D) :
    unconstrained.combine descriptor = descriptor := rfl

theorem combine_unconstrained (descriptor : Descriptor D) :
    descriptor.combine unconstrained = descriptor := by
  simp [combine, unconstrained, Condition.and, Condition.none]

theorem combine_assoc (outer middle inner : Descriptor D) :
    (outer.combine middle).combine inner = outer.combine (middle.combine inner) := by
  simp [combine, Condition.and, List.append_assoc]

end Descriptor

/-! ## Resolving -/

namespace MatchChain

/-- All links of a chain combined, outermost first. -/
def combined (chain : MatchChain D) : Descriptor D :=
  chain.foldl Descriptor.combine .unconstrained

theorem foldl_combine (outer : Descriptor D) (links : MatchChain D) :
    links.foldl Descriptor.combine outer = outer.combine (combined links) := by
  induction links generalizing outer with
  | nil => exact (Descriptor.combine_unconstrained outer).symm
  | cons link rest ih =>
      have hrest : combined (link :: rest) = link.combine (combined rest) := ih link
      rw [List.foldl_cons, ih, Descriptor.combine_assoc, hrest]

theorem combined_cons (link : Descriptor D) (rest : MatchChain D) :
    combined (link :: rest) = link.combine (combined rest) :=
  foldl_combine link rest

theorem combined_append (outer inner : MatchChain D) :
    combined (outer ++ inner) = (combined outer).combine (combined inner) := by
  rw [combined, List.foldl_append]
  exact foldl_combine _ inner

section Contents

variable (chain : MatchChain D)

theorem any_combined : (combined chain).any = chain.flatMap Descriptor.any := by
  induction chain with
  | nil => rfl
  | cons link rest ih => rw [combined_cons, List.flatMap_cons, ← ih]; rfl

theorem all_combined : (combined chain).all = chain.flatMap Descriptor.all := by
  induction chain with
  | nil => rfl
  | cons link rest ih => rw [combined_cons, List.flatMap_cons, ← ih]; rfl

theorem origins_combined : (combined chain).origins = chain.flatMap Descriptor.origins := by
  induction chain with
  | nil => rfl
  | cons link rest ih => rw [combined_cons, List.flatMap_cons, ← ih]; rfl

theorem condition_combined :
    (combined chain).condition = .conjunction (chain.map Descriptor.condition) := by
  induction chain with
  | nil => rfl
  | cons link rest ih =>
      rw [combined_cons, List.map_cons, Condition.conjunction, List.foldr_cons,
        ← Condition.conjunction, ← ih]
      rfl

end Contents

/-- A well-formed link is taken in if its combination with the links outside it is well formed
too. -/
theorem extend_of_isWellFormed {outer : Option (Descriptor D)} {link : Descriptor D}
    (h : link.IsWellFormed) :
    extend (.ok outer) link = match ((outer.getD .unconstrained).combine link).validate with
      | .ok resolved => .ok (some resolved)
      | .error error => .error [error] := by
  rw [Descriptor.IsWellFormed] at h
  cases outer with
  | none => simp only [extend, h, Option.getD_none, Descriptor.unconstrained_combine]
  | some descriptor =>
      rw [Option.getD_some]
      cases hcombined : (descriptor.combine link).validate <;> simp only [extend, h, hcombined]

/-- The combination alone decides about a link, since it is only well formed if the link is. -/
theorem extend_eq_ok_iff {outer next : Option (Descriptor D)} {link : Descriptor D} :
    extend (.ok outer) link = .ok next ↔
      next = some ((outer.getD .unconstrained).combine link) ∧
        ((outer.getD .unconstrained).combine link).IsWellFormed := by
  by_cases hlink : link.IsWellFormed
  · rw [extend_of_isWellFormed hlink]
    by_cases hwell : ((outer.getD .unconstrained).combine link).IsWellFormed
    · rw [Descriptor.IsWellFormed] at hwell
      simp only [hwell, Except.ok.injEq, Descriptor.IsWellFormed, and_true, eq_comm]
    · obtain ⟨error, herror⟩ := Descriptor.exists_validate_error hwell
      simp only [herror, reduceCtorEq, hwell, and_false]
  · obtain ⟨error, herror⟩ := Descriptor.exists_validate_error hlink
    simp only [extend, herror, reduceCtorEq, false_iff, not_and]
    exact fun _ hwell => hlink ((Descriptor.partOf_combine_right _ link).isWellFormed hwell)

/-- The errors of the links that are malformed by themselves, in order. -/
def ownErrors (chain : MatchChain D) : List (MatchError D) :=
  chain.filterMap fun link =>
    match link.validate with
    | .ok _ => none
    | .error error => some error

/-- After a first error nothing is combined any more, but malformed links still count. -/
theorem foldl_extend_error (links : MatchChain D) (errors : List (MatchError D)) :
    links.foldl extend (.error errors) = .error (errors ++ ownErrors links) := by
  induction links generalizing errors with
  | nil => exact congrArg Except.error (List.append_nil errors).symm
  | cons link rest ih =>
      rw [List.foldl_cons, ownErrors, List.filterMap_cons, ← ownErrors]
      cases hlink : link.validate with
      | ok valid => simp only [extend, hlink, ih]
      | error error => simp only [extend, hlink, ih, List.append_assoc, List.singleton_append]

theorem foldl_extend_eq_ok_iff {outer : Option (Descriptor D)} {links : MatchChain D}
    (houter : (outer.getD .unconstrained).IsWellFormed) {resolved : Descriptor D} :
    (∃ last, links.foldl extend (.ok outer) = .ok last ∧ last.getD .unconstrained = resolved) ↔
      resolved = links.foldl Descriptor.combine (outer.getD .unconstrained) ∧
        resolved.IsWellFormed := by
  induction links generalizing outer with
  | nil =>
      simp only [List.foldl_nil, Except.ok.injEq, exists_eq_left']
      constructor
      · rintro rfl
        exact ⟨rfl, houter⟩
      · exact fun h => h.1.symm
  | cons link rest ih =>
      rw [List.foldl_cons, List.foldl_cons]
      cases hextend : extend (.ok outer) link with
      | ok next =>
          obtain ⟨rfl, hwell⟩ := extend_eq_ok_iff.mp hextend
          exact ih hwell
      | error errors =>
          simp only [foldl_extend_error, reduceCtorEq, false_and, exists_false, false_iff, not_and]
          rintro rfl hwell
          -- The links up to here are part of the whole, which would make them well formed.
          rw [foldl_combine] at hwell
          have hlink := (Descriptor.partOf_combine_left _ _).isWellFormed hwell
          rw [extend_eq_ok_iff.mpr ⟨rfl, hlink⟩] at hextend
          cases hextend

/-- A chain resolves to the combination of its links, if that is well formed. -/
theorem resolve_eq_ok_iff {chain : MatchChain D} {resolved : Descriptor D} :
    resolve chain = .ok resolved ↔ resolved = combined chain ∧ (combined chain).IsWellFormed := by
  have hstart : ((none : Option (Descriptor D)).getD .unconstrained).IsWellFormed :=
    Descriptor.isWellFormed_unconstrained
  have hresolve : resolve chain = .ok resolved ↔
      ∃ last, chain.foldl extend (.ok none) = .ok last ∧ last.getD .unconstrained = resolved := by
    rw [resolve]
    cases chain.foldl extend (.ok none) <;> simp
  rw [hresolve, foldl_extend_eq_ok_iff hstart]
  constructor
  · rintro ⟨rfl, hwell⟩
    exact ⟨rfl, hwell⟩
  · rintro ⟨rfl, hwell⟩
    exact ⟨rfl, hwell⟩

/-- A chain resolves just if the combination of all its links, outermost first, passes the one
check, and it resolves to that combination: the groups, the required values and the origins of
the links one after another, nothing if there are no links. It has a condition just if some
link has one. That condition asks those of the links in turn until one is not met, and is met
just if all of them are. So links that follow one another can as well be joined into one. -/
theorem resolve_flattens (chain : MatchChain D) :
    ((∃ resolved, resolve chain = .ok resolved) ↔
      ∃ valid, (combined chain).validate = .ok valid) ∧
    (∀ resolved, resolve chain = .ok resolved →
      resolved = combined chain ∧ (chain = [] → resolved = .unconstrained) ∧
      resolved.any = chain.flatMap Descriptor.any ∧
      resolved.all = chain.flatMap Descriptor.all ∧
      resolved.origins = chain.flatMap Descriptor.origins ∧
      (resolved.condition.isPresent = true ↔
        ∃ link ∈ chain, link.condition.isPresent = true) ∧
      ∀ holds : D.Check → Bool,
        Condition.AskedInTurn holds (chain.map Descriptor.condition)
          (resolved.condition.asked holds) ∧
        (resolved.condition.isMet holds = true ↔
          ∀ link ∈ chain, link.condition.isMet holds = true)) ∧
    ∀ outer scopes inner : MatchChain D, chain = outer ++ scopes ++ inner →
      ∀ resolved, resolve (outer ++ combined scopes :: inner) = .ok resolved ↔
        resolve chain = .ok resolved := by
  refine ⟨?_, fun resolved hresolved => ?_, ?_⟩
  · simp only [resolve_eq_ok_iff, Descriptor.validate_eq_ok_iff, Descriptor.isWellFormed_iff]
  · obtain ⟨rfl, -⟩ := resolve_eq_ok_iff.mp hresolved
    refine ⟨rfl, fun hnone => hnone ▸ rfl, any_combined chain, all_combined chain,
      origins_combined chain, ?_, fun holds => ?_⟩
    · rw [condition_combined, Condition.isPresent_conjunction_iff]
      simp only [List.mem_map, exists_exists_and_eq_and]
    · rw [condition_combined, Condition.isMet_conjunction_iff, List.forall_mem_map]
      exact ⟨Condition.askedInTurn_conjunction _, Iff.rfl⟩
  · rintro outer scopes inner rfl resolved
    have hjoined : combined (outer ++ combined scopes :: inner) =
        combined (outer ++ scopes ++ inner) := by
      rw [combined_append, combined_cons, combined_append, combined_append,
        Descriptor.combine_assoc]
    rw [resolve_eq_ok_iff, resolve_eq_ok_iff, hjoined]

end MatchChain

/-! ## A sample -/

namespace Scenario

/-- The matches of three nested scopes, two of them with conditions. -/
def nested : MatchChain domain :=
  [Descriptor.unconstrained.withCondition (.ofCheck (.flag "armed")),
    Descriptor.unconstrained.withAny
      [⟨(⟨⟨0, by decide⟩⟩ : Kind), (0 : Fin 2)⟩, ⟨(⟨⟨0, by decide⟩⟩ : Kind), (1 : Fin 2)⟩],
    (Descriptor.unconstrained.withAll [⟨(⟨⟨1, by decide⟩⟩ : Kind), (0 : Fin 2)⟩]).withCondition
      (.ofCheck (.flag "calm"))]

end Scenario

/-- The scopes come to one match, which asks both conditions if the outer one is met. -/
theorem MatchChain.resolve_flattens_nested :
    ∃ resolved, resolve Scenario.nested = .ok resolved ∧
      resolved.any = Scenario.nested.flatMap Descriptor.any ∧
      resolved.condition.asked (fun check => check = .flag "armed") =
        [(.flag "armed", true), (.flag "calm", false)] ∧
      resolve [combined Scenario.nested] = .ok resolved := by
  obtain ⟨haccepts, hcontents, hjoins⟩ := resolve_flattens Scenario.nested
  obtain ⟨resolved, hresolved⟩ := haccepts.mpr ⟨_, rfl⟩
  obtain ⟨rfl, -, hany, -⟩ := hcontents resolved hresolved
  have hjoined := hjoins [] Scenario.nested [] (List.append_nil _).symm (combined Scenario.nested)
  exact ⟨_, hresolved, hany, rfl, hjoined.mpr hresolved⟩

end RuleMachine
