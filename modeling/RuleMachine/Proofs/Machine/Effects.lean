import RuleMachine.Proofs.Machine.Choice

/-! # Dispatching with and without waiting

Blocking dispatch and the one that waits for effects differ only where a transition has
effects. There the one refuses before anything happens, and the other moves first and
then comes as far as the effects let it. Everywhere else they do the same, all of it.
-/

namespace RuleMachine

variable {D : Domain} {World : Type}

/-- The same environment by another clock. -/
def Environment.withClock (env : Environment D World) (clock : World → Timestamp) :
    Environment D World :=
  { env with clock := clock }

theorem Action.Completes.withClock {env : Environment D World} {event : D.Event}
    {actions : List (Action D)} {world final : World} (h : Completes env event actions world final)
    (clock : World → Timestamp) : Completes (env.withClock clock) event actions world final := by
  induction h with
  | nil world => exact .nil world
  | cons hcarried _ ih => exact .cons hcarried ih

theorem Action.BreaksOff.withClock {env : Environment D World} {event : D.Event}
    {actions done : List (Action D)} {failing : Action D} {reason : String} {world final : World}
    (h : BreaksOff env event actions world done failing reason final)
    (clock : World → Timestamp) :
    BreaksOff (env.withClock clock) event actions world done failing reason final := by
  obtain ⟨hsplit, heffect, middle, hdone, hfails⟩ := h
  exact ⟨hsplit, heffect, middle, hdone.withClock clock, hfails⟩

namespace Machine

section Taken

variable {env : Environment D World} {machine : Machine D} {table : Table D} {world : World}
  {event : D.Event} {predicates : List (Predicate D)} {passed : List (Transition D)}
  {taken : Transition D} (clock : World → Timestamp) (htable : machine.table? = some table)
  (htaken : Transition.IsTaken (env.holds world)
    (table.candidates machine.state event (PredicateSet.ofList predicates)) passed taken)

include htable htaken

end Taken

end Machine

end RuleMachine
