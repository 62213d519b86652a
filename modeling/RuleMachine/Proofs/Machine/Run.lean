import Mathlib.Data.List.Chain
import RuleMachine.Proofs.Machine.Choice

/-! # Runs of a machine

A machine is called any number of times: to build its table, or to dispatch events in one
way or the other. Whatever the calls come to, its history is the walk that the machine has
taken: a call either moves the machine along an entry of its table and records just that,
or it leaves both state and history alone.
-/

namespace RuleMachine

variable {D : Domain} {World : Type}

/-- A call of a machine, with what surrounds it at the time. -/
inductive Call (D : Domain) (World : Type) where
  | build (definitions : List (Definition D))
  | fire (env : Environment D World) (world : World) (event : D.Event)
  | handle (env : Environment D World) (world : World) (event : D.Event)
      (predicates : List (Predicate D))
  | fireAwaiting (env : Environment D World) (world : World) (event : D.Event)
  | handleAwaiting (env : Environment D World) (world : World) (event : D.Event)
      (predicates : List (Predicate D))

/-- What a call returns. -/
inductive Returned (D : Domain) where
  | built (result : Checked (BuildError D) Unit)
  | dispatched (result : Except DispatchError (Outcome D))

/-- Whether a transition was gone through, be it that an effect failed after that. -/
def Returned.isMove : Returned D → Bool
  | .dispatched (.ok (.executed _ _)) | .dispatched (.error (.actionFailed _ _ _)) => true
  | _ => false

namespace Machine

/-- What a call returns, and the machine after it. -/
def call (machine : Machine D) : Call D World → Returned D × Machine D
  | .build definitions =>
    let attempt := machine.build definitions
    (.built attempt.result, attempt.machine)
  | .fire env world event =>
    let dispatch := fire env machine world event
    (.dispatched dispatch.result, dispatch.machine)
  | .handle env world event predicates =>
    let dispatch := handle env machine world event predicates
    (.dispatched dispatch.result, dispatch.machine)
  | .fireAwaiting env world event =>
    let dispatch := fireAwaiting env machine world event
    (.dispatched dispatch.result, dispatch.machine)
  | .handleAwaiting env world event predicates =>
    let dispatch := handleAwaiting env machine world event predicates
    (.dispatched dispatch.result, dispatch.machine)

/-- The machine after calls made one after the other. -/
def after (machine : Machine D) : List (Call D World) → Machine D
  | [] => machine
  | call :: rest => (machine.call call).2.after rest

/-- What the calls return, one by one. -/
def returns (machine : Machine D) : List (Call D World) → List (Returned D)
  | [] => []
  | call :: rest => (machine.call call).1 :: (machine.call call).2.returns rest

/-- The states that the machine comes to, one for every call that moves it. -/
def visited (machine : Machine D) : List (Call D World) → List D.State
  | [] => []
  | call :: rest =>
    (if (machine.call call).1.isMove then [(machine.call call).2.state] else []) ++
      (machine.call call).2.visited rest

/-! ## What one call can do -/

/-- Either the call leaves state and history alone, and the table if there is one; or it moves
the machine along an entry of its table and records the move. -/
inductive CallStep (machine : Machine D) : Returned D × Machine D → Prop
  | stays {returned : Returned D} {after : Machine D} : returned.isMove = false →
      after.state = machine.state → after.history = machine.history →
      (∀ table, machine.table? = some table → after.table? = some table) →
      CallStep machine (returned, after)
  | moves {returned : Returned D} {table : Table D} {entry : Transition D} {now : Timestamp} :
      returned.isMove = true → machine.table? = some table → entry ∈ table.transitions →
      entry.state = machine.state →
      CallStep machine (returned, machine.enter entry entry.event now)

/-- Building again is refused and leaves the machine alone. -/
theorem build_of_decided {machine : Machine D} (h : machine.construction ≠ .pending)
    (definitions : List (Definition D)) :
    machine.build definitions = ⟨machine, .error [.alreadyBuilt], none⟩ := by
  rw [build]
  split
  next hpending => exact absurd hpending h
  next => rfl

/-- No attempt to build a table has an effect on anything but the table. -/
theorem build_keeps (machine : Machine D) (definitions : List (Definition D)) :
    (machine.build definitions).machine.state = machine.state ∧
      (machine.build definitions).machine.history = machine.history ∧
      (machine.build definitions).machine.config = machine.config := by
  rw [build]
  split
  · split <;> exact ⟨rfl, rfl, rfl⟩
  · exact ⟨rfl, rfl, rfl⟩

theorem callStep_build (machine : Machine D) (definitions : List (Definition D)) :
    CallStep machine
      (.built (machine.build definitions).result, (machine.build definitions).machine) := by
  obtain ⟨hstate, hhistory, -⟩ := machine.build_keeps definitions
  refine .stays rfl hstate hhistory fun table htable => ?_
  have hdecided : machine.construction ≠ .pending := by
    intro hpending
    rw [table?, hpending] at htable
    cases htable
  rw [build_of_decided hdecided]
  exact htable

theorem callStep_answer (env : Environment D World) (machine : Machine D) (world : World)
    (request : Request D) :
    CallStep machine (.dispatched (answer env machine world request).result,
      (answer env machine world request).machine) := by
  cases htable : machine.table? with
  | none =>
      rw [answer_of_no_table htable]
      exact .stays rfl rfl rfl fun _ => id
  | some table =>
      rcases Transition.exists_isTaken_or_refused (env.holds world)
          (table.candidates machine.state request.event (PredicateSet.ofList request.predicates))
        with ⟨passed, taken, htaken⟩ | hrefused
      · obtain ⟨hentry, hstate, hevent⟩ := Table.mem_of_mem_candidates htaken.mem
        have hpassage := passage_answer htable htaken
        generalize answer env machine world request = dispatch at hpassage
        rw [← hevent] at hpassage
        cases hpassage with
        | refused => exact .stays rfl rfl rfl fun _ => id
        | executed => exact .moves rfl htable hentry hstate
        | failed => exact .moves rfl htable hentry hstate
      · by_cases hnone : table.candidates machine.state request.event
            (PredicateSet.ofList request.predicates) = []
        · rw [answer_of_no_candidates htable hnone]
          exact .stays rfl rfl rfl fun _ => id
        · rw [answer_of_refused htable hnone hrefused]
          exact .stays rfl rfl rfl fun _ => id

theorem callStep (machine : Machine D) (call : Call D World) :
    CallStep machine (machine.call call) := by
  cases call with
  | build definitions => exact callStep_build machine definitions
  | fire env world event => exact callStep_answer env machine world ⟨event, [], false⟩
  | handle env world event predicates =>
      exact callStep_answer env machine world ⟨event, predicates, false⟩
  | fireAwaiting env world event => exact callStep_answer env machine world ⟨event, [], true⟩
  | handleAwaiting env world event predicates =>
      exact callStep_answer env machine world ⟨event, predicates, true⟩

/-! ## What a run keeps -/

/-- The history tells how the machine came from one state to where it is, along entries of its
table and past the states visited. -/
structure Chronicle (initial : D.State) (machine : Machine D) (visited : List D.State) : Prop where
  contiguous : machine.history.records.IsChain (fun record next => record.target = next.source)
  first : ∀ record ∈ machine.history.records.head?, record.source = initial
  last : ∀ record ∈ machine.history.records.getLast?, record.target = machine.state
  unmoved : machine.history.records = [] → machine.state = initial
  targets : machine.history.records.map Record.target = visited
  entries : ∀ record ∈ machine.history.records, ∃ table, machine.table? = some table ∧
    ∃ entry ∈ table.transitions, entry.state = record.source ∧ entry.next = record.target ∧
      D.eventName entry.event = record.event

theorem chronicle_create (initial : D.State) (config : Config) :
    Chronicle initial (create initial config) [] where
  contiguous := .nil
  first _ h := by cases h
  last _ h := by cases h
  unmoved _ := rfl
  targets := rfl
  entries _ h := absurd h List.not_mem_nil

/-- Moving along an entry of the table adds it to the chronicle. -/
theorem Chronicle.enter {initial : D.State} {machine : Machine D} {visited : List D.State}
    (h : Chronicle initial machine visited) {table : Table D} (htable : machine.table? = some table)
    {entry : Transition D} (hentry : entry ∈ table.transitions)
    (hstate : entry.state = machine.state) (now : Timestamp) :
    Chronicle initial (machine.enter entry entry.event now) (visited ++ [entry.next]) where
  contiguous := by
    refine List.isChain_append.mpr ⟨h.contiguous, List.isChain_singleton _, ?_⟩
    rintro record hrecord _ ⟨⟩
    exact h.last record hrecord
  first := by
    intro record hrecord
    change record ∈ (machine.history.records ++ [_]).head? at hrecord
    cases hrecords : machine.history.records with
    | nil =>
        rw [hrecords] at hrecord
        cases hrecord
        exact h.unmoved hrecords
    | cons head rest =>
        rw [hrecords] at hrecord
        cases hrecord
        exact h.first _ (by rw [hrecords]; rfl)
  last := by
    intro record hrecord
    change record ∈ (machine.history.records ++ [_]).getLast? at hrecord
    rw [List.getLast?_concat] at hrecord
    cases hrecord
    rfl
  unmoved hnone := absurd hnone (List.append_ne_nil_of_right_ne_nil _ (List.cons_ne_nil _ _))
  targets := by
    change (machine.history.records ++ [_]).map Record.target = _
    rw [List.map_append, h.targets]
    rfl
  entries := by
    intro record hrecord
    rcases List.mem_append.mp hrecord with hold | hnew
    · exact h.entries record hold
    · rw [List.mem_singleton.mp hnew]
      exact ⟨table, htable, entry, hentry, hstate, rfl, rfl⟩

/-- A call adds to the chronicle the state it moves the machine to, if it moves it. -/
theorem Chronicle.call {initial : D.State} {machine : Machine D} {visited : List D.State}
    (h : Chronicle initial machine visited) (call : Call D World) :
    Chronicle initial (machine.call call).2
      (visited ++ if (machine.call call).1.isMove then [(machine.call call).2.state] else []) := by
  have hstep := callStep machine call
  generalize machine.call call = made at hstep
  cases hstep with
  | stays hmove hstate hhistory htable =>
      rw [hmove, if_neg Bool.false_ne_true, List.append_nil]
      obtain ⟨hcontiguous, hfirst, hlast, hunmoved, htargets, hentries⟩ := h
      rw [← hhistory] at hcontiguous hfirst hlast hunmoved htargets hentries
      rw [← hstate] at hlast hunmoved
      refine ⟨hcontiguous, hfirst, hlast, hunmoved, htargets, fun record hrecord => ?_⟩
      obtain ⟨table, hbuilt, hentry⟩ := hentries record hrecord
      exact ⟨table, htable table hbuilt, hentry⟩
  | moves hmove htable hentry hstate =>
      rw [hmove, if_pos rfl]
      exact h.enter htable hentry hstate _

/-- By induction on the calls, each of which extends the chronicle. -/
theorem Chronicle.after {initial : D.State} {machine : Machine D} {before : List D.State}
    (h : Chronicle initial machine before) (calls : List (Call D World)) :
    Chronicle initial (machine.after calls) (before ++ machine.visited calls) := by
  induction calls generalizing machine before with
  | nil =>
      rw [visited, List.append_nil]
      exact h
  | cons call rest ih =>
      rw [visited, ← List.append_assoc]
      exact ih (h.call call)

section Walk

variable {initial : D.State} {machine : Machine D} {visited : List D.State}
  (h : Chronicle initial machine visited)

include h

theorem Chronicle.path :
    machine.history.path =
      if machine.history.records.isEmpty then [] else initial :: visited := by
  rw [History.path, h.targets]
  have hfirst := h.first
  have htargets := h.targets
  cases hrecords : machine.history.records with
  | nil =>
      rw [hrecords] at htargets
      rw [← htargets]
      rfl
  | cons record rest =>
      rw [hrecords] at hfirst
      rw [List.head?_cons, ← hfirst record rfl]
      rfl

theorem Chronicle.getLast?_visited : (initial :: visited).getLast? = some machine.state := by
  have htargets := h.targets
  have hlast := h.last
  have hunmoved := h.unmoved
  rw [← htargets, List.getLast?_cons, List.getLast?_map]
  cases hrecord : machine.history.records.getLast? with
  | none => rw [hunmoved (List.getLast?_eq_none_iff.mp hrecord)]; rfl
  | some record => rw [← hlast record hrecord]; rfl

end Walk

/-- As many states are visited as calls have moved the machine. -/
theorem length_visited (machine : Machine D) (calls : List (Call D World)) :
    (machine.visited calls).length = (machine.returns calls).countP Returned.isMove := by
  induction calls generalizing machine with
  | nil => rfl
  | cons call rest ih =>
      rw [visited, returns, List.length_append, ih, List.countP_cons, Nat.add_comm]
      cases (machine.call call).1.isMove <;> rfl

/-- The history of a machine is the walk it has taken, whatever the calls were and whatever they
came to. Its records are contiguous, lead from the initial state to the current one, and
each of them is an entry of the table; there is one for each call that went through a
transition. The path lists the initial state and then every state visited, up to the
current one; it is empty as long as nothing is recorded, the state then being the initial
one. -/
theorem history_is_walk (initial : D.State) (config : Config) (calls : List (Call D World)) :
    let start : Machine D := create initial config
    let machine := start.after calls
    let records := machine.history.records
    records.IsChain (fun record next => record.target = next.source) ∧
    (∀ record ∈ records.head?, record.source = initial) ∧
    (∀ record ∈ records.getLast?, record.target = machine.state) ∧
    (records = [] → machine.state = initial) ∧
    machine.history.path =
      (if records.isEmpty then [] else initial :: start.visited calls) ∧
    (initial :: start.visited calls).getLast? = some machine.state ∧
    records.map Record.target = start.visited calls ∧
    records.length = (start.returns calls).countP Returned.isMove ∧
    ∀ record ∈ records, ∃ table, machine.table? = some table ∧
      ∃ entry ∈ table.transitions, entry.state = record.source ∧ entry.next = record.target ∧
        D.eventName entry.event = record.event := by
  have hchronicle := (chronicle_create (D := D) initial config).after calls
  rw [List.nil_append] at hchronicle
  refine ⟨hchronicle.contiguous, hchronicle.first, hchronicle.last, hchronicle.unmoved,
    hchronicle.path, hchronicle.getLast?_visited, hchronicle.targets, ?_, hchronicle.entries⟩
  rw [← length_visited, ← hchronicle.targets, List.length_map]

end Machine

end RuleMachine
