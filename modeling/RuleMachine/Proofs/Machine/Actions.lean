import RuleMachine.Machine.Dispatch

/-! # Running actions

Actions are carried out in the order of their list. Those that are no effects cannot
fail, and then it makes no difference which way they are run. Among effects the first
that fails breaks the run off: everything before it has been done, and nothing after it is.
-/

namespace RuleMachine

variable {D : Domain} {World : Type}

namespace Action

/-- Carry out one action: what becomes of the world, and a message if the action fails. -/
def carryOut (env : Environment D World) (event : D.Event) (action : Action D) (world : World) :
    World × Option String :=
  if action.isEffect then env.attempt action.task (action.sees event) world
  else (env.perform action.task (action.sees event) world, none)

/-- The actions are carried out one after the other, and none of them fails. -/
inductive Completes (env : Environment D World) (event : D.Event) :
    List (Action D) → World → World → Prop
  | nil (world : World) : Completes env event [] world world
  | cons {action : Action D} {rest : List (Action D)} {world middle final : World} :
      action.carryOut env event world = (middle, none) → Completes env event rest middle final →
        Completes env event (action :: rest) world final

/-- The actions up to some effect are carried out, and then that effect fails. -/
structure BreaksOff (env : Environment D World) (event : D.Event) (actions : List (Action D))
    (world : World) (done : List (Action D)) (failing : Action D) (reason : String)
    (final : World) : Prop where
  split : ∃ skipped, actions = done ++ failing :: skipped
  isEffect : failing.isEffect = true
  fails : ∃ middle, Completes env event done world middle ∧
    env.attempt failing.task (failing.sees event) middle = (final, some reason)

/-- What is left of actions that have been carried out. -/
def marks (event : D.Event) (actions : List (Action D)) : List (Occurrence D) :=
  actions.map (fun action => .ran action event)

section Run

variable {env : Environment D World} {event : D.Event}

theorem carryOut_of_effect {action : Action D} (h : action.isEffect = true) (world : World) :
    action.carryOut env event world = env.attempt action.task (action.sees event) world :=
  if_pos h

theorem carryOut_of_plain {action : Action D} (h : action.isEffect = false) (world : World) :
    action.carryOut env event world =
      (env.perform action.task (action.sees event) world, none) := by
  rw [carryOut, h]
  rfl

theorem isEffect_of_carryOut {action : Action D} {world final : World} {reason : String}
    (h : action.carryOut env event world = (final, some reason)) : action.isEffect = true := by
  cases heffect : action.isEffect with
  | true => rfl
  | false => simp [carryOut_of_plain heffect] at h

theorem runAwaiting_cons_of_done {action : Action D} {world middle : World}
    (h : action.carryOut env event world = (middle, none)) (rest : List (Action D)) :
    runAwaiting env event (action :: rest) world =
      ((runAwaiting env event rest middle).1,
        .ran action event :: (runAwaiting env event rest middle).2.1,
        (runAwaiting env event rest middle).2.2) := by
  cases heffect : action.isEffect with
  | true =>
      rw [carryOut_of_effect heffect] at h
      rw [runAwaiting, if_pos heffect, h]
  | false =>
      rw [carryOut_of_plain heffect, Prod.mk.injEq] at h
      rw [runAwaiting, heffect, ← h.1]
      rfl

theorem runAwaiting_cons_of_failed {action : Action D} {world final : World} {reason : String}
    (h : action.carryOut env event world = (final, some reason)) (rest : List (Action D)) :
    runAwaiting env event (action :: rest) world =
      (final, [.failed action event], some reason) := by
  have heffect := isEffect_of_carryOut h
  rw [carryOut_of_effect heffect] at h
  rw [runAwaiting, if_pos heffect, h]

/-- A run in which nothing fails carries out all actions. -/
theorem runAwaiting_of_completes {actions : List (Action D)} {world final : World}
    (h : Completes env event actions world final) :
    runAwaiting env event actions world = (final, marks event actions, none) := by
  induction h with
  | nil world => rfl
  | cons hcarried hrest ih =>
      rw [runAwaiting_cons_of_done hcarried, ih]
      rfl

/-- A run that breaks off has carried out what stands before the failing effect. -/
theorem runAwaiting_of_breaksOff {actions done : List (Action D)} {failing : Action D}
    {reason : String} {world final : World}
    (h : BreaksOff env event actions world done failing reason final) :
    runAwaiting env event actions world =
      (final, marks event done ++ [.failed failing event], some reason) := by
  obtain ⟨⟨skipped, rfl⟩, heffect, middle, hdone, hfails⟩ := h
  induction hdone with
  | nil world =>
      rw [← carryOut_of_effect heffect] at hfails
      exact runAwaiting_cons_of_failed hfails skipped
  | cons hcarried hrest ih =>
      rw [List.cons_append, runAwaiting_cons_of_done hcarried, ih hfails]
      rfl

/-- Actions either all succeed or break off at some effect. -/
theorem completes_or_breaksOff (env : Environment D World) (event : D.Event)
    (actions : List (Action D)) (world : World) :
    (∃ final, Completes env event actions world final) ∨
      ∃ done failing reason final, BreaksOff env event actions world done failing reason final := by
  induction actions generalizing world with
  | nil => exact Or.inl ⟨world, .nil world⟩
  | cons action rest ih =>
      rcases hcarried : action.carryOut env event world with ⟨middle, _ | reason⟩
      · rcases ih middle with ⟨final, hrest⟩ | ⟨done, failing, reason, final, hbreaks⟩
        · exact Or.inl ⟨final, .cons hcarried hrest⟩
        · obtain ⟨⟨skipped, rfl⟩, heffect, last, hdone, hfails⟩ := hbreaks
          exact Or.inr ⟨action :: done, failing, reason, final, ⟨skipped, rfl⟩, heffect, last,
            .cons hcarried hdone, hfails⟩
      · have heffect := isEffect_of_carryOut hcarried
        rw [carryOut_of_effect heffect] at hcarried
        exact Or.inr ⟨[], action, reason, middle, ⟨rest, rfl⟩, heffect, world, .nil world, hcarried⟩

/-- Without effects nothing can fail, and running in place does what waiting does. -/
theorem completes_runBlocking {actions : List (Action D)}
    (h : ∀ action ∈ actions, action.isEffect = false) (world : World) :
    ∃ final, Completes env event actions world final ∧
      runBlocking env event actions world = (final, marks event actions) := by
  induction actions generalizing world with
  | nil => exact ⟨world, .nil world, rfl⟩
  | cons action rest ih =>
      obtain ⟨haction, hrest⟩ := List.forall_mem_cons.mp h
      obtain ⟨final, hcompletes, hrun⟩ :=
        ih hrest (env.perform action.task (action.sees event) world)
      refine ⟨final, .cons (carryOut_of_plain haction world) hcompletes, ?_⟩
      rw [runBlocking, haction, hrun]
      rfl

end Run

end Action

theorem Transition.hasEffect_eq_false_iff {transition : Transition D} :
    transition.hasEffect = false ↔ ∀ action ∈ transition.actions, action.isEffect = false := by
  simp [hasEffect]

end RuleMachine
