import RuleMachine.Proofs.Machine.Dispatch
import RuleMachine.Proofs.Table.Agreement

/-! # Machines of either strategy

Two machines over the same definitions, one for each strategy, are driven alike: they
are in one state and get sets of the closed world. Without conditions each of them
takes its first candidate, and these are the same, so the two answer alike and are in
one state again.
-/

namespace RuleMachine

variable {D : Domain} {World : Type}

/-- What two dispatches have in common: the result, the state entered, and everything
that happened on the way, with what it did to the world. -/
structure Dispatch.Alike (first second : Dispatch D World) : Prop where
  result : first.result = second.result
  state : first.machine.state = second.machine.state
  world : first.world = second.world
  trace : first.trace = second.trace

namespace Machine

/-- The machines are in one state, and each answers events with its table. -/
structure Paired (eager searched : Table D) (first second : Machine D) : Prop where
  eager : first.table? = some eager
  searched : second.table? = some searched
  state : first.state = second.state

/-- Asked for the same, the tables offer the same transition first, and nothing that they
offer has a condition. -/
structure SameOffer (eager searched : Table D) (state : D.State) (event : D.Event)
    (supplied : PredicateSet D) : Prop where
  unconditional : ∀ candidate ∈ eager.candidates state event supplied,
    candidate.condition.isPresent = false
  searchedUnconditional : ∀ candidate ∈ searched.candidates state event supplied,
    candidate.condition.isPresent = false
  first : (eager.candidates state event supplied).map Transition.bare =
    ((searched.candidates state event supplied).take 1).map Transition.bare

section Step

variable {eager searched : Table D} {first second : Machine D}
  (hpaired : Paired eager searched first second) (env : Environment D World) (world : World)

include hpaired

/-- Where the tables offer the same first candidate, machines that go through it alike
respond alike. -/
theorem respond_alike {event : D.Event} {supplied : PredicateSet D}
    (hoffer : SameOffer eager searched first.state event supplied)
    {proceed follow : Transition D → List (Occurrence D) → Dispatch D World}
    (hproceed : ∀ transition other, transition.bare = other.bare →
      (proceed transition []).Alike (follow other [])) :
    (respond env first world event supplied proceed).Alike
      (respond env second world event supplied follow) := by
  -- Only the first candidates matter: nothing stands between them and being taken.
  have hheads := congrArg List.head? hoffer.first
  rw [List.head?_map, List.head?_map, List.head?_take, if_neg Nat.one_ne_zero] at hheads
  rw [respond_of_unconditional hpaired.eager hoffer.unconditional,
    respond_of_unconditional hpaired.searched (hpaired.state ▸ hoffer.searchedUnconditional),
    ← hpaired.state]
  cases hleft : (eager.candidates first.state event supplied).head? with
  | none =>
      cases hright : (searched.candidates first.state event supplied).head? with
      | none => exact ⟨rfl, hpaired.state, rfl, rfl⟩
      | some other => rw [hleft, hright] at hheads; cases hheads
  | some transition =>
      cases hright : (searched.candidates first.state event supplied).head? with
      | none => rw [hleft, hright] at hheads; cases hheads
      | some other =>
          rw [hleft, hright, Option.map_some, Option.map_some, Option.some.injEq] at hheads
          exact hproceed transition other hheads

/-- Going through transitions that differ at most in the predicates under which they are
stored comes to the same. -/
theorem handle_alike (event : D.Event) (predicates : List (Predicate D))
    (hoffer : SameOffer eager searched first.state event (PredicateSet.ofList predicates)) :
    (handle env first world event predicates).Alike
      (handle env second world event predicates) := by
  apply respond_alike hpaired env world hoffer
  intro transition other hbare
  obtain ⟨-, -, hnext, hactions, -, -⟩ := Transition.bare_eq_iff.mp hbare
  have heffect : transition.hasEffect = other.hasEffect := by
    rw [Transition.hasEffect, Transition.hasEffect, hactions]
  rw [heffect, hpaired.state, hnext, hactions]
  split
  · exact ⟨rfl, hpaired.state, rfl, rfl⟩
  · exact ⟨rfl, hnext, rfl, rfl⟩

theorem handleAwaiting_alike (event : D.Event) (predicates : List (Predicate D))
    (hoffer : SameOffer eager searched first.state event (PredicateSet.ofList predicates)) :
    (handleAwaiting env first world event predicates).Alike
      (handleAwaiting env second world event predicates) := by
  apply respond_alike hpaired env world hoffer
  intro transition other hbare
  obtain ⟨hsource, -, hnext, hactions, -, -⟩ := Transition.bare_eq_iff.mp hbare
  rw [hpaired.state, hsource, hnext, hactions]
  exact ⟨rfl, hnext, rfl, rfl⟩

/-- One request leaves the machines paired. -/
theorem answer_alike (request : Request D)
    (hoffer : SameOffer eager searched first.state request.event
      (PredicateSet.ofList request.predicates)) :
    (answer env first world request).Alike (answer env second world request) ∧
      Paired eager searched (answer env first world request).machine
        (answer env second world request).machine := by
  have halike : (answer env first world request).Alike (answer env second world request) := by
    rw [answer, answer]
    split
    · exact handleAwaiting_alike hpaired env world request.event request.predicates hoffer
    · exact handle_alike hpaired env world request.event request.predicates hoffer
  refine ⟨halike, ?_, ?_, halike.state⟩
  · rw [table?_answer, hpaired.eager]
  · rw [table?_answer, hpaired.searched]

end Step

/-- By induction on the requests, each of which finds the machines paired. -/
theorem answers_alike {eager searched : Table D} (env : Environment D World)
    (requests : List (Request D))
    (hoffer : ∀ request ∈ requests, ∀ state, SameOffer eager searched state request.event
      (PredicateSet.ofList request.predicates)) {first second : Machine D}
    (hpaired : Paired eager searched first second) (world : World) :
    List.Forall₂ Dispatch.Alike (answers env first world requests)
      (answers env second world requests) := by
  induction requests generalizing first second world with
  | nil => exact List.Forall₂.nil
  | cons request rest ih =>
      obtain ⟨hrequest, hrest⟩ := List.forall_mem_cons.mp hoffer
      obtain ⟨halike, hnext⟩ := answer_alike hpaired env world request (hrequest first.state)
      rw [answers, answers, ← halike.world]
      exact List.Forall₂.cons halike (ih hrest hnext _)

/-- Compiled under either strategy, definitions offer the same on complete input. On
every set of the closed world the eager candidates are the lazy ones cut to the first,
apart from the predicates under which they are stored. If no surviving rule has a
condition, machines of the two strategies that start in one state and are driven by
the same requests, each with a set of the closed world, answer alike at every step: they
give the same result, enter the same state, and run the same actions with the same
effect on the world. -/
theorem strategies_agree {definitions : List (Definition D)} {policy : HookPolicy}
    {rows : List (Row D)} {eager searched : Table D}
    (hrows : Definition.survivors definitions = .ok rows)
    (heager : Table.compile ⟨.eager, policy⟩ definitions = .ok eager)
    (hsearched : Table.compile ⟨.lazy, policy⟩ definitions = .ok searched) :
    (∀ state event, ∀ set ∈ Eager.pool rows,
      (eager.candidates state event set).map Transition.bare =
        ((searched.candidates state event set).take 1).map Transition.bare) ∧
    ((∀ row ∈ rows, row.descriptor.condition.isPresent = false) →
      ∀ (World : Type) (env : Environment D World) (world : World) (first second : Machine D)
        (requests : List (Request D)),
        first.table? = some eager → second.table? = some searched → first.state = second.state →
        (∀ request ∈ requests, PredicateSet.ofList request.predicates ∈ Eager.pool rows) →
        List.Forall₂ Dispatch.Alike (answers env first world requests)
          (answers env second world requests)) := by
  have hcandidates : ∀ state event, ∀ set ∈ Eager.pool rows,
      (eager.candidates state event set).map Transition.bare =
        ((searched.candidates state event set).take 1).map Transition.bare :=
    fun state event set hset => candidates_agree hrows heager hsearched state event hset
  refine ⟨hcandidates, fun hunconditional World env world first second requests hfirst hsecond
    hstate hsets => ?_⟩
  have hpaired : Paired eager searched first second := ⟨hfirst, hsecond, hstate⟩
  refine answers_alike env requests (fun request hrequest state => ?_) hpaired world
  refine ⟨fun candidate hcandidate => ?_, fun candidate hcandidate => ?_,
    hcandidates state request.event _ (hsets request hrequest)⟩
  · obtain ⟨key, hfind⟩ := Table.exists_find?_of_mem_candidates hcandidate
    obtain ⟨row, hrow, -, -, rfl⟩ := (find?_eager_iff hrows heager).mp hfind
    exact hunconditional row hrow
  · obtain ⟨key, hfind⟩ := Table.exists_find?_of_mem_candidates hcandidate
    obtain ⟨row, hrow, -, rfl⟩ := (find?_lazy_iff hrows hsearched).mp hfind
    exact hunconditional row hrow

/-- The pump has no conditions, and either way a high level makes it run fast. -/
theorem strategies_agree_pump :
    ∃ eager searched : Table Scenario.domain,
      Table.compile ⟨.eager, .onChangeOnly⟩ [Scenario.pump] = .ok eager ∧
      Table.compile ⟨.lazy, .onChangeOnly⟩ [Scenario.pump] = .ok searched ∧
      (∀ row ∈ Scenario.pumpRows, row.descriptor.condition.isPresent = false) ∧
      PredicateSet.ofList [Scenario.level 2] ∈ Eager.pool Scenario.pumpRows ∧
      List.Forall₂ Dispatch.Alike
        (answers Scenario.environment ⟨"idle", .standard, .built eager, .empty⟩ ⟨[], []⟩
          [⟨Scenario.rise, [Scenario.level 2], false⟩])
        (answers Scenario.environment ⟨"idle", .searching, .built searched, .empty⟩ ⟨[], []⟩
          [⟨Scenario.rise, [Scenario.level 2], false⟩]) := by
  have heager : Table.compile ⟨.eager, .onChangeOnly⟩ [Scenario.pump] = .ok _ :=
    Table.compile_eq_ok_iff.mpr ⟨Scenario.pumpRows, _, Scenario.survivors_pump,
      Eager.select_eq_ok_iff.mpr ⟨Eager.ties_eq_nil_iff.mpr (by decide), rfl⟩, rfl⟩
  have hsearched : Table.compile ⟨.lazy, .onChangeOnly⟩ [Scenario.pump] = .ok _ := rfl
  have hunconditional : ∀ row ∈ Scenario.pumpRows, row.descriptor.condition.isPresent = false := by
    simp [Scenario.pumpRows, Descriptor.withAll, Descriptor.unconstrained, Condition.none,
      Condition.isPresent]
  have hset : PredicateSet.ofList [Scenario.level 2] ∈ Eager.pool Scenario.pumpRows := by decide
  refine ⟨_, _, heager, hsearched, hunconditional, hset, ?_⟩
  exact (strategies_agree Scenario.survivors_pump heager hsearched).2 hunconditional _ _ _ _ _ _
    rfl rfl rfl (List.forall_mem_singleton.mpr hset)

end Machine

end RuleMachine
