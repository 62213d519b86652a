import RuleMachine.Proofs.Machine.Actions
import RuleMachine.Proofs.Machine.Dispatch
import RuleMachine.Proofs.Table.Candidates
import RuleMachine.Proofs.Table.Compilation

/-! # Which candidate is taken

A machine goes through the first candidate whose condition is met. Until it comes to it, the
conditions of the candidates are asked one after the other, and observers are told of
each candidate that is passed over; no candidate behind it is looked at.
-/

namespace RuleMachine

variable {D : Domain} {World : Type}

namespace Transition

/-- A candidate is taken when its condition is met and none of those before it is. -/
structure IsTaken (holds : D.Check → Bool) (candidates passed : List (Transition D))
    (taken : Transition D) : Prop where
  split : ∃ rest, candidates = passed ++ taken :: rest
  refused : ∀ candidate ∈ passed, candidate.condition.isMet holds = false
  met : taken.condition.isMet holds = true

/-- What is asked of a candidate: the checks of its condition, up to the first that fails. -/
def inquiry (holds : D.Check → Bool) (candidate : Transition D) : List (Occurrence D) :=
  (candidate.condition.asked holds).map (fun (check, answer) => .asked check answer)

/-- Passing candidates over: each is asked, and then observers are told. -/
def passOver (holds : D.Check → Bool) (notice : Notice D) (candidates : List (Transition D)) :
    List (Occurrence D) :=
  candidates.flatMap (fun candidate => candidate.inquiry holds ++ [.noticed notice])

section Found

variable {holds : D.Check → Bool} {candidates passed : List (Transition D)} {taken : Transition D}

theorem firstMet_of_isTaken (h : IsTaken holds candidates passed taken) (notice : Notice D) :
    firstMet holds notice candidates =
      (some taken, passOver holds notice passed ++ taken.inquiry holds) := by
  obtain ⟨⟨rest, rfl⟩, hrefused, hmet⟩ := h
  induction passed with
  | nil =>
      rw [List.nil_append, firstMet, if_pos hmet]
      rfl
  | cons candidate passed ih =>
      obtain ⟨hcandidate, hpassed⟩ := List.forall_mem_cons.mp hrefused
      rw [List.cons_append, firstMet, hcandidate, ih hpassed]
      simp [passOver, inquiry]

theorem firstMet_of_refused (h : ∀ candidate ∈ candidates, candidate.condition.isMet holds = false)
    (notice : Notice D) :
    firstMet holds notice candidates = (none, passOver holds notice candidates) := by
  induction candidates with
  | nil => rfl
  | cons candidate rest ih =>
      obtain ⟨hcandidate, hrest⟩ := List.forall_mem_cons.mp h
      rw [firstMet, hcandidate, ih hrest]
      simp [passOver, inquiry]

/-- Either some candidate is taken, or every one of them is refused. -/
theorem exists_isTaken_or_refused (holds : D.Check → Bool) (candidates : List (Transition D)) :
    (∃ passed taken, IsTaken holds candidates passed taken) ∨
      ∀ candidate ∈ candidates, candidate.condition.isMet holds = false := by
  cases hfind : candidates.find? (fun candidate => candidate.condition.isMet holds) with
  | none =>
      right
      simpa using hfind
  | some taken =>
      left
      obtain ⟨hmet, passed, rest, hsplit, hrefused⟩ := List.find?_eq_some_iff_append.mp hfind
      exact ⟨passed, taken, ⟨rest, hsplit⟩, by simpa using hrefused, hmet⟩

theorem IsTaken.mem (h : IsTaken holds candidates passed taken) : taken ∈ candidates := by
  obtain ⟨rest, hsplit⟩ := h.split
  exact hsplit ▸ List.mem_append_right passed List.mem_cons_self

end Found

end Transition

/-- What belongs to going through a transition that has been chosen. -/
def Occurrence.IsPassage : Occurrence D → Prop
  | .noticed (.executed _ _ _ _) | .ran _ _ | .failed _ _ => True
  | .noticed (.notFound _ _ _) | .noticed (.notExecuted _ _ _) | .asked _ _ => False

namespace Machine

/-- What happens before a transition is gone through: the candidates before it are passed
over, and it is asked itself. -/
def approach (env : Environment D World) (machine : Machine D) (world : World) (event : D.Event)
    (supplied : PredicateSet D) (passed : List (Transition D)) (taken : Transition D) :
    List (Occurrence D) :=
  Transition.passOver (env.holds world) (.notExecuted machine.state event supplied) passed ++
    taken.inquiry (env.holds world)

theorem respond_of_no_table {env : Environment D World} {machine : Machine D} {world : World}
    {event : D.Event} {supplied : PredicateSet D}
    {proceed : Transition D → List (Occurrence D) → Dispatch D World}
    (h : machine.table? = none) :
    respond env machine world event supplied proceed =
      ⟨.error .tableNotBuilt, machine, world, []⟩ := by
  rw [respond, h]

section Respond

variable {env : Environment D World} {machine : Machine D} {table : Table D} {world : World}
  {event : D.Event} {supplied : PredicateSet D}
  {proceed : Transition D → List (Occurrence D) → Dispatch D World}
  (htable : machine.table? = some table)

include htable

theorem respond_of_isTaken {passed : List (Transition D)} {taken : Transition D}
    (h : Transition.IsTaken (env.holds world) (table.candidates machine.state event supplied)
      passed taken) :
    respond env machine world event supplied proceed =
      proceed taken (approach env machine world event supplied passed taken) := by
  simp only [respond, htable, Transition.firstMet_of_isTaken h]
  rfl

theorem respond_of_no_candidates (h : table.candidates machine.state event supplied = []) :
    respond env machine world event supplied proceed =
      ⟨.ok .notFound, machine, world, [.noticed (.notFound machine.state event supplied)]⟩ := by
  simp only [respond, htable, h]
  rfl

theorem respond_of_refused (hsome : table.candidates machine.state event supplied ≠ [])
    (h : ∀ candidate ∈ table.candidates machine.state event supplied,
      candidate.condition.isMet (env.holds world) = false) :
    respond env machine world event supplied proceed =
      ⟨.ok .notExecuted, machine, world,
        Transition.passOver (env.holds world) (.notExecuted machine.state event supplied)
          (table.candidates machine.state event supplied)⟩ := by
  simp [respond, htable, Transition.firstMet_of_refused h, hsome]

end Respond

/-- What happens when a machine goes through a transition, up to what the actions leave. -/
def passageTrace (env : Environment D World) (machine : Machine D) (world : World) (event : D.Event)
    (supplied : PredicateSet D) (passed : List (Transition D)) (taken : Transition D)
    (left : List (Occurrence D)) : List (Occurrence D) :=
  approach env machine world event supplied passed taken ++
    .noticed (.executed machine.state taken.next event supplied) :: left

/-- What can become of a transition that is taken: it is refused for its effects, all its
actions are carried out, or the machine has moved when an effect fails. -/
inductive Passage (env : Environment D World) (machine : Machine D) (world : World)
    (event : D.Event) (supplied : PredicateSet D) (passed : List (Transition D))
    (taken : Transition D) : Dispatch D World → Prop
  | refused : taken.hasEffect = true →
      Passage env machine world event supplied passed taken
        ⟨.error (.effectsNotAwaited (D.stateName machine.state) (D.eventName event)), machine,
          world, approach env machine world event supplied passed taken⟩
  | executed {final : World} : Action.Completes env event taken.actions world final →
      Passage env machine world event supplied passed taken
        ⟨.ok (.executed machine.state taken.next), machine.enter taken event (env.clock world),
          final, passageTrace env machine world event supplied passed taken
            (Action.marks event taken.actions)⟩
  | failed {done : List (Action D)} {failing : Action D} {reason : String} {final : World} :
      Action.BreaksOff env event taken.actions world done failing reason final →
      Passage env machine world event supplied passed taken
        ⟨.error (.actionFailed (D.stateName taken.state) (D.stateName taken.next) reason),
          machine.enter taken event (env.clock world), final,
          passageTrace env machine world event supplied passed taken
            (Action.marks event done ++ [.failed failing event])⟩

section Passage

variable {env : Environment D World} {machine : Machine D} {table : Table D} {world : World}
  {event : D.Event} {predicates : List (Predicate D)} {passed : List (Transition D)}
  {taken : Transition D} (htable : machine.table? = some table)
  (htaken : Transition.IsTaken (env.holds world)
    (table.candidates machine.state event (PredicateSet.ofList predicates)) passed taken)

include htable htaken

/-- Blocking dispatch refuses to go through a transition with effects. -/
theorem handle_of_effect (heffect : taken.hasEffect = true) :
    handle env machine world event predicates =
      ⟨.error (.effectsNotAwaited (D.stateName machine.state) (D.eventName event)), machine, world,
        approach env machine world event (PredicateSet.ofList predicates) passed taken⟩ := by
  rw [handle, respond_of_isTaken htable htaken, if_pos heffect]

theorem handle_of_plain (heffect : taken.hasEffect = false) :
    ∃ final, Action.Completes env event taken.actions world final ∧
      handle env machine world event predicates =
        ⟨.ok (.executed machine.state taken.next),
          machine.enter taken event (env.clock world), final,
          passageTrace env machine world event (PredicateSet.ofList predicates) passed taken
            (Action.marks event taken.actions)⟩ := by
  obtain ⟨final, hcompletes, hrun⟩ :=
    Action.completes_runBlocking (Transition.hasEffect_eq_false_iff.mp heffect) world
  refine ⟨final, hcompletes, ?_⟩
  rw [handle, respond_of_isTaken htable htaken, heffect, hrun]
  rfl

theorem handleAwaiting_of_completes {final : World}
    (hcompletes : Action.Completes env event taken.actions world final) :
    handleAwaiting env machine world event predicates =
      ⟨.ok (.executed machine.state taken.next), machine.enter taken event (env.clock world), final,
        passageTrace env machine world event (PredicateSet.ofList predicates) passed taken
          (Action.marks event taken.actions)⟩ := by
  rw [handleAwaiting, respond_of_isTaken htable htaken, Action.runAwaiting_of_completes hcompletes]
  rfl

/-- Where effects are awaited, the machine has moved when one of them fails. -/
theorem handleAwaiting_of_breaksOff {done : List (Action D)} {failing : Action D}
    {reason : String} {final : World}
    (hbreaks : Action.BreaksOff env event taken.actions world done failing reason final) :
    handleAwaiting env machine world event predicates =
      ⟨.error (.actionFailed (D.stateName taken.state) (D.stateName taken.next) reason),
        machine.enter taken event (env.clock world), final,
        passageTrace env machine world event (PredicateSet.ofList predicates) passed taken
          (Action.marks event done ++ [.failed failing event])⟩ := by
  rw [handleAwaiting, respond_of_isTaken htable htaken, Action.runAwaiting_of_breaksOff hbreaks]
  rfl

theorem passage_handle :
    Passage env machine world event (PredicateSet.ofList predicates) passed taken
      (handle env machine world event predicates) := by
  cases heffect : taken.hasEffect with
  | true =>
      rw [handle_of_effect htable htaken heffect]
      exact .refused heffect
  | false =>
      obtain ⟨final, hcompletes, hhandle⟩ := handle_of_plain htable htaken heffect
      rw [hhandle]
      exact .executed hcompletes

theorem passage_handleAwaiting :
    Passage env machine world event (PredicateSet.ofList predicates) passed taken
      (handleAwaiting env machine world event predicates) := by
  rcases Action.completes_or_breaksOff env event taken.actions world with
    ⟨final, hcompletes⟩ | ⟨done, failing, reason, final, hbreaks⟩
  · rw [handleAwaiting_of_completes htable htaken hcompletes]
    exact .executed hcompletes
  · rw [handleAwaiting_of_breaksOff htable htaken hbreaks]
    exact .failed hbreaks

end Passage

/-- However a request is dispatched, what differs is only how a transition is gone through. -/
theorem exists_answer_eq_respond (env : Environment D World) (machine : Machine D) (world : World)
    (request : Request D) :
    ∃ proceed, answer env machine world request =
      respond env machine world request.event (PredicateSet.ofList request.predicates) proceed := by
  rw [answer]
  split
  · exact ⟨_, rfl⟩
  · exact ⟨_, rfl⟩

theorem answer_of_no_table {env : Environment D World} {machine : Machine D} {world : World}
    {request : Request D} (h : machine.table? = none) :
    answer env machine world request = ⟨.error .tableNotBuilt, machine, world, []⟩ := by
  obtain ⟨proceed, hrespond⟩ := exists_answer_eq_respond env machine world request
  rw [hrespond, respond_of_no_table h]

section Answer

variable {env : Environment D World} {machine : Machine D} {table : Table D} {world : World}
  {request : Request D} (htable : machine.table? = some table)

include htable

theorem passage_answer {passed : List (Transition D)} {taken : Transition D}
    (htaken : Transition.IsTaken (env.holds world) (table.candidates machine.state request.event
      (PredicateSet.ofList request.predicates)) passed taken) :
    Passage env machine world request.event (PredicateSet.ofList request.predicates) passed taken
      (answer env machine world request) := by
  rw [answer]
  split
  · exact passage_handleAwaiting htable htaken
  · exact passage_handle htable htaken

theorem answer_of_no_candidates
    (h : table.candidates machine.state request.event
      (PredicateSet.ofList request.predicates) = []) :
    answer env machine world request = ⟨.ok .notFound, machine, world,
      [.noticed (.notFound machine.state request.event
        (PredicateSet.ofList request.predicates))]⟩ := by
  obtain ⟨proceed, hrespond⟩ := exists_answer_eq_respond env machine world request
  rw [hrespond, respond_of_no_candidates htable h]

theorem answer_of_refused
    (hsome : table.candidates machine.state request.event
      (PredicateSet.ofList request.predicates) ≠ [])
    (h : ∀ candidate ∈ table.candidates machine.state request.event
        (PredicateSet.ofList request.predicates),
      candidate.condition.isMet (env.holds world) = false) :
    answer env machine world request = ⟨.ok .notExecuted, machine, world,
      Transition.passOver (env.holds world) (.notExecuted machine.state request.event
        (PredicateSet.ofList request.predicates)) (table.candidates machine.state request.event
          (PredicateSet.ofList request.predicates))⟩ := by
  obtain ⟨proceed, hrespond⟩ := exists_answer_eq_respond env machine world request
  rw [hrespond, respond_of_refused htable hsome h]

end Answer

section Passage

variable {env : Environment D World} {machine : Machine D} {world : World} {event : D.Event}
  {supplied : PredicateSet D} {passed : List (Transition D)} {taken : Transition D}
  {dispatch : Dispatch D World}

/-- Once a transition is taken, nothing more is asked and no candidate is passed over. -/
theorem Passage.exists_trace (h : Passage env machine world event supplied passed taken dispatch) :
    ∃ rest, dispatch.trace = approach env machine world event supplied passed taken ++ rest ∧
      ∀ occurrence ∈ rest, occurrence.IsPassage := by
  have hmarks : ∀ actions : List (Action D),
      ∀ occurrence ∈ Action.marks event actions, occurrence.IsPassage := by
    intro actions occurrence hoccurrence
    obtain ⟨action, -, rfl⟩ := List.mem_map.mp hoccurrence
    trivial
  cases h with
  | refused => exact ⟨[], (List.append_nil _).symm, fun occurrence h => absurd h List.not_mem_nil⟩
  | executed =>
      exact ⟨_, rfl, List.forall_mem_cons.mpr ⟨trivial, hmarks taken.actions⟩⟩
  | @failed done =>
      refine ⟨_, rfl, List.forall_mem_cons.mpr ⟨trivial, ?_⟩⟩
      exact List.forall_mem_append.mpr ⟨hmarks done, List.forall_mem_singleton.mpr trivial⟩

theorem Passage.eq_of_ok (h : Passage env machine world event supplied passed taken dispatch)
    {outcome : Outcome D} (hok : dispatch.result = .ok outcome) :
    outcome = .executed machine.state taken.next ∧
      dispatch.machine = machine.enter taken event (env.clock world) ∧
      dispatch.trace = passageTrace env machine world event supplied passed taken
        (Action.marks event taken.actions) := by
  cases h with
  | refused => cases hok
  | executed =>
      cases hok
      exact ⟨rfl, rfl, rfl⟩
  | failed => cases hok

end Passage

/-- A machine answers with one of the candidates, the first whose condition is met. Each
candidate is asked at most once and in its turn; of every one that is refused before,
observers are told once that it was not executed. If the dispatch gives no error, the
machine goes through the transition taken: it is in its next state, has recorded the move,
and has told observers of it before the actions were run. If there is no candidate, or
none whose condition is met, the machine stays as it is. -/
theorem answer_takes_first_met {machine : Machine D} {table : Table D}
    (htable : machine.table? = some table) (env : Environment D World) (world : World)
    (request : Request D) :
    let supplied := PredicateSet.ofList request.predicates
    let candidates := table.candidates machine.state request.event supplied
    let dispatch := answer env machine world request
    (candidates.map Transition.predicates).Nodup ∧
    (∀ passed taken, Transition.IsTaken (env.holds world) candidates passed taken →
      (∃ rest, dispatch.trace =
          approach env machine world request.event supplied passed taken ++ rest ∧
        ∀ occurrence ∈ rest, occurrence.IsPassage) ∧
      ∀ outcome, dispatch.result = .ok outcome →
        outcome = .executed machine.state taken.next ∧
        dispatch.machine = { machine with
          state := taken.next
          history := ⟨machine.history.records ++
            [⟨machine.state, taken.next, D.eventName request.event, env.clock world⟩]⟩ } ∧
        dispatch.trace = approach env machine world request.event supplied passed taken ++
          .noticed (.executed machine.state taken.next request.event supplied) ::
            taken.actions.map (fun action => .ran action request.event)) ∧
    (candidates = [] →
      dispatch = ⟨.ok .notFound, machine, world,
        [.noticed (.notFound machine.state request.event supplied)]⟩) ∧
    (candidates ≠ [] →
      (∀ candidate ∈ candidates, candidate.condition.isMet (env.holds world) = false) →
      dispatch = ⟨.ok .notExecuted, machine, world,
        Transition.passOver (env.holds world) (.notExecuted machine.state request.event supplied)
          candidates⟩) := by
  refine ⟨Table.nodup_predicates_candidates _ _ _ _, fun passed taken htaken => ?_,
    answer_of_no_candidates htable, answer_of_refused htable⟩
  have hpassage := passage_answer htable htaken
  refine ⟨hpassage.exists_trace, fun outcome hok => ?_⟩
  exact hpassage.eq_of_ok hok

end Machine

/-! ## A sample -/

namespace Scenario

/-- A gate opens at the highest level if it is armed, and otherwise goes ajar. Whenever it
is opened, a siren sounds. -/
def gate : List (Definition domain) := [
  { states := ["shut"]
    scope :=
      { origin := default
        group := ⟨0⟩
        adopted := []
        onEntry := []
        onExit := []
        rules := some [
          .chain (.matching ((Descriptor.unconstrained.withAll [highest]).withCondition
              (.ofCheck (.flag "armed")))) default
            (.chain (.whenEvent [rise]) default (.leaf (.thenState "open") default)),
          .chain (.whenEvent [rise]) default (.chain (.thenState "ajar") default
            (.leaf (.actions [.plainWithEvent (.mark "creak")]) default))] } },
  { states := ["open"]
    scope :=
      { origin := default
        group := ⟨1⟩
        adopted := []
        onEntry := [.plain (.mark "lamp"), .effect (.mark "siren"), .plain (.mark "flag")]
        onExit := []
        rules := none } }]

def gateMachine : Machine domain :=
  ((Machine.create "shut" .searching).build gate).machine

def opening : Transition domain :=
  ⟨"shut", PredicateSet.ofList [highest], rise, "open",
    [.plain (.mark "lamp"), .effect (.mark "siren"), .plain (.mark "flag")],
    .ofCheck (.flag "armed"), default⟩

def creaking : Transition domain :=
  ⟨"shut", ∅, rise, "ajar", [.plainWithEvent (.mark "creak")], .none, default⟩

theorem table?_gateMachine :
    gateMachine.table? = some ⟨.lazy, [opening, creaking]⟩ := rfl

theorem isTaken_creaking :
    Transition.IsTaken (environment.holds ⟨[], []⟩)
      (Table.candidates ⟨.lazy, [opening, creaking]⟩ gateMachine.state rise
        (PredicateSet.ofList [highest])) [opening] creaking where
  split := ⟨[], rfl⟩
  refused := List.forall_mem_singleton.mpr rfl
  met := rfl

end Scenario

/-- Supplied with the highest level, the gate is not armed and so goes ajar. -/
theorem Machine.answer_takes_first_met_gate :
    Scenario.gateMachine.table? = some ⟨.lazy, [Scenario.opening, Scenario.creaking]⟩ ∧
    Transition.IsTaken (Scenario.environment.holds ⟨[], []⟩)
      (Table.candidates ⟨.lazy, [Scenario.opening, Scenario.creaking]⟩ "shut" Scenario.rise
        (PredicateSet.ofList [Scenario.highest])) [Scenario.opening] Scenario.creaking ∧
    ∃ dispatch, dispatch = Machine.answer Scenario.environment Scenario.gateMachine ⟨[], []⟩
        ⟨Scenario.rise, [Scenario.highest], false⟩ ∧
      dispatch.result = .ok (.executed "shut" "ajar") ∧
      dispatch.machine.state = "ajar" ∧
      dispatch.machine.history.records = [⟨"shut", "ajar", "rise", .epoch⟩] ∧
      dispatch.trace = [.asked (.flag "armed") false,
        .noticed (.notExecuted "shut" Scenario.rise (PredicateSet.ofList [Scenario.highest])),
        .noticed (.executed "shut" "ajar" Scenario.rise (PredicateSet.ofList [Scenario.highest])),
        .ran (.plainWithEvent (.mark "creak")) Scenario.rise] := by
  have htaken := Scenario.isTaken_creaking
  obtain ⟨-, htakes, -⟩ := Machine.answer_takes_first_met Scenario.table?_gateMachine
    Scenario.environment ⟨[], []⟩ ⟨Scenario.rise, [Scenario.highest], false⟩
  obtain ⟨-, hmachine, htrace⟩ := (htakes _ _ htaken).2 _ rfl
  refine ⟨Scenario.table?_gateMachine, htaken, _, rfl, rfl, ?_, ?_, htrace⟩
  · rw [hmachine]
    rfl
  · rw [hmachine]
    rfl

end RuleMachine
