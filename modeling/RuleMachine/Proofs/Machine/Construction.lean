import RuleMachine.Proofs.Machine.Run

/-! # The table of a machine

A machine gets its table from the first call that builds one. If that call fails there is no
table, and no later call makes up for it: building again only says that it is too late. Until
then, and for good after a failure, events are refused before anything happens.
-/

namespace RuleMachine

variable {D : Domain} {World : Type}

namespace Call

/-- What a call is to build a table from, if it is to build one. -/
def definitions? : Call D World → Option (List (Definition D))
  | build definitions => some definitions
  | _ => none

/-- What the first call to build a table builds it from. -/
def firstBuild? (calls : List (Call D World)) : Option (List (Definition D)) :=
  calls.findSome? definitions?

end Call

/-- What has become of the table if this is what it was first to be built from. -/
def Construction.ofFirst (config : Config) : Option (List (Definition D)) → Construction D
  | none => .pending
  | some definitions =>
    match Table.compile config definitions with
    | .ok table => .built table
    | .error _ => .failed

theorem Construction.ofFirst_some_ne_pending (config : Config)
    (definitions : List (Definition D)) : ofFirst config (some definitions) ≠ .pending := by
  rw [ofFirst]
  split
  · exact nofun
  · exact nofun

namespace Machine

/-- Dispatching an event keeps of the machine whatever a move keeps. -/
theorem call_keeps {α : Type} {read : Machine D → α} {machine : Machine D}
    (h : ∀ transition event now, read (machine.enter transition event now) = read machine)
    {call : Call D World} (hdispatch : call.definitions? = none) :
    read (machine.call call).2 = read machine := by
  cases call with
  | build definitions => cases hdispatch
  | fire env world event => exact handle_keeps h env world event []
  | handle env world event predicates => exact handle_keeps h env world event predicates
  | fireAwaiting env world event => exact handleAwaiting_keeps h env world event []
  | handleAwaiting env world event predicates =>
      exact handleAwaiting_keeps h env world event predicates

/-! ## Building -/

theorem result_build_of_pending {machine : Machine D} (h : machine.construction = .pending)
    (definitions : List (Definition D)) :
    (machine.build definitions).result =
      (Table.compile machine.config definitions).map (fun _ => ()) := by
  rw [build, h]
  cases Table.compile machine.config definitions <;> rfl

theorem machine_build_of_pending {machine : Machine D} (h : machine.construction = .pending)
    (definitions : List (Definition D)) :
    (machine.build definitions).machine =
      { machine with construction := .ofFirst machine.config (some definitions) } := by
  rw [build, h, Construction.ofFirst]
  cases Table.compile machine.config definitions <;> rfl

/-! ## What a run comes to -/

/-- The machine has its configuration, and the table that the first attempt to build one came
to under it. -/
structure Settled (config : Config) (first? : Option (List (Definition D)))
    (machine : Machine D) : Prop where
  config_eq : machine.config = config
  construction_eq : machine.construction = .ofFirst config first?

theorem settled_create (initial : D.State) (config : Config) :
    Settled config none (create initial config) := ⟨rfl, rfl⟩

namespace Settled

variable {config : Config} {first? : Option (List (Definition D))} {machine : Machine D}

theorem table?_eq (h : Settled config first? machine) :
    machine.table? =
      first?.bind (fun definitions => (Table.compile config definitions).toOption) := by
  rw [table?, h.construction_eq]
  cases first? with
  | none => rfl
  | some definitions =>
      rw [Construction.ofFirst, Option.bind_some]
      cases Table.compile config definitions <;> rfl

/-- The first attempt decides, and any later one is refused and leaves the machine alone. -/
theorem build (h : Settled config first? machine) (definitions : List (Definition D)) :
    Settled config (first?.or (some definitions)) (machine.build definitions).machine := by
  cases first? with
  | none =>
      rw [machine_build_of_pending h.construction_eq, h.config_eq, Option.none_or]
      exact ⟨rfl, rfl⟩
  | some first =>
      have hdecided : machine.construction ≠ .pending :=
        h.construction_eq ▸ Construction.ofFirst_some_ne_pending config first
      rw [build_of_decided hdecided, Option.some_or]
      exact h

theorem call (h : Settled config first? machine) (call : Call D World) :
    Settled config (first?.or call.definitions?) (machine.call call).2 := by
  cases hdefinitions : call.definitions? with
  | some definitions =>
      cases call with
      | build given =>
          cases hdefinitions
          exact h.build definitions
      | _ => cases hdefinitions
  | none =>
      have hconfig : (machine.call call).2.config = machine.config :=
        call_keeps (fun _ _ _ => rfl) hdefinitions
      have hconstruction : (machine.call call).2.construction = machine.construction :=
        call_keeps (fun _ _ _ => rfl) hdefinitions
      rw [Option.or_none]
      exact ⟨hconfig.trans h.config_eq, hconstruction.trans h.construction_eq⟩

/-- By induction on the calls, of which only the first to build a table matters. -/
theorem after (h : Settled config first? machine) (calls : List (Call D World)) :
    Settled config (first?.or (Call.firstBuild? calls)) (machine.after calls) := by
  induction calls generalizing first? machine with
  | nil =>
      rw [Call.firstBuild?, List.findSome?_nil, Option.or_none]
      exact h
  | cons call rest ih =>
      have hrest := ih (h.call call)
      rw [Option.or_assoc] at hrest
      have hfirst : Call.firstBuild? (call :: rest) =
          call.definitions?.or (Call.firstBuild? rest) := by
        rw [Call.firstBuild?, List.findSome?_cons]
        cases call.definitions? <;> rfl
      rw [hfirst]
      exact hrest

end Settled

/-- Whatever is called in whatever order, the first call to build a table decides. From then on
the machine has the table it compiled to, or none if it did not compile, and every further
call to build one returns the one error that it is too late. Building never touches state,
history or configuration, and dispatching never touches the table. As long as there is no
table, dispatch in either way, with or without predicates, returns that none was built: the
machine and the world stay as they are, nobody is told, and nothing is asked or run. -/
theorem table_is_decided_once (initial : D.State) (config : Config) (calls : List (Call D World)) :
    let start : Machine D := create initial config
    let machine := start.after calls
    machine.config = config ∧
    machine.table? = (Call.firstBuild? calls).bind
      (fun definitions => (Table.compile config definitions).toOption) ∧
    (∀ later : List (Call D World), (Call.firstBuild? calls).isSome →
      (start.after (calls ++ later)).table? = machine.table?) ∧
    (∀ definitions, (machine.build definitions).result =
        match Call.firstBuild? calls with
        | none => (Table.compile config definitions).map (fun _ => ())
        | some _ => .error [.alreadyBuilt]) ∧
    (∀ definitions, (machine.build definitions).machine.state = machine.state ∧
      (machine.build definitions).machine.history = machine.history ∧
      (machine.build definitions).machine.config = machine.config) ∧
    (∀ call : Call D World, call.definitions? = none →
      (machine.call call).2.table? = machine.table?) ∧
    (machine.table? = none → ∀ (env : Environment D World) (world : World) (event : D.Event)
      (predicates : List (Predicate D)),
        fire env machine world event = ⟨.error .tableNotBuilt, machine, world, []⟩ ∧
        handle env machine world event predicates =
          ⟨.error .tableNotBuilt, machine, world, []⟩ ∧
        fireAwaiting env machine world event = ⟨.error .tableNotBuilt, machine, world, []⟩ ∧
        handleAwaiting env machine world event predicates =
          ⟨.error .tableNotBuilt, machine, world, []⟩) := by
  intro start machine
  have hafter : ∀ more : List (Call D World),
      Settled config (Call.firstBuild? more) (start.after more) := by
    intro more
    have hsettled := (settled_create initial config).after more
    rwa [Option.none_or] at hsettled
  have hsettled := hafter calls
  refine ⟨hsettled.config_eq, hsettled.table?_eq, fun later hsome => ?_, fun definitions => ?_,
    machine.build_keeps, fun call hdispatch => call_keeps (fun _ _ _ => rfl) hdispatch,
    fun hnone env world event predicates => ⟨?_, ?_, ?_, ?_⟩⟩
  · obtain ⟨first, hfirst⟩ := Option.isSome_iff_exists.mp hsome
    rw [(hafter (calls ++ later)).table?_eq, hsettled.table?_eq, Call.firstBuild?,
      List.findSome?_append, ← Call.firstBuild?, hfirst, Option.some_or]
  · split
    next hfirst =>
      have hpending : machine.construction = .pending := by
        rw [hsettled.construction_eq, hfirst, Construction.ofFirst]
      rw [result_build_of_pending hpending, hsettled.config_eq]
    next first hfirst =>
      have hdecided : machine.construction ≠ .pending := by
        rw [hsettled.construction_eq, hfirst]
        exact Construction.ofFirst_some_ne_pending config first
      rw [build_of_decided hdecided]
  · exact respond_of_no_table hnone
  · exact respond_of_no_table hnone
  · exact respond_of_no_table hnone
  · exact respond_of_no_table hnone

/-- Nothing was declared at first, and it is too late for the pump. -/
example : (create "idle" .standard : Machine Scenario.domain).returns
    ([.build [], .build [Scenario.pump]] : List (Call Scenario.domain Scenario.World)) =
      [.built (.error [.emptyTable]), .built (.error [.alreadyBuilt])] := rfl

end Machine

end RuleMachine
