import RuleMachine.Proofs.Match.Validity
import RuleMachine.Proofs.Row.Survival
import RuleMachine.Scenario.Domain
import RuleMachine.Table.Basic

/-! # What a table is compiled from

A table comes from the rows that survive validation: one of them is selected for
every key, and its transition is stored under that key. Looking a key up finds the
transition stored under it, since no key is selected twice. The hooks that a transition
carries are collected state by state from the definitions, and are those of the
definitions that list the state.
-/

namespace RuleMachine

variable {D : Domain}

/-- The rows that remain of definitions once overrides are carried out, if nothing
is wrong with them. -/
def Definition.survivors (definitions : List (Definition D)) :
    Checked (BuildError D) (List (Row D)) := do
  let declared ← Definition.rows definitions
  let declared ← Table.requireRows declared
  Row.validate declared

theorem Definition.survivors_eq_ok_iff {definitions : List (Definition D)} {rows : List (Row D)} :
    Definition.survivors definitions = .ok rows ↔
      ∃ declared, Definition.rows definitions = .ok declared ∧ declared ≠ [] ∧
        Row.validate declared = .ok rows := by
  unfold Definition.survivors
  cases Definition.rows definitions with
  | error errors => simp [bind, Except.bind]
  | ok declared => cases declared <;> simp [bind, Except.bind, Table.requireRows]

section Survivors

variable {definitions : List (Definition D)} {rows : List (Row D)}
  (h : Definition.survivors definitions = .ok rows)

include h

theorem Definition.isWellFormed_of_survivors : ∀ row ∈ rows, row.descriptor.IsWellFormed := by
  obtain ⟨declared, hdeclared, -, hvalidate⟩ := Definition.survivors_eq_ok_iff.mp h
  exact fun row hrow => Definition.isWellFormed_of_rows hdeclared row
    ((Row.sublist_of_validate hvalidate).subset hrow)

theorem Definition.nodup_map_key_of_survivors : (rows.map Row.key).Nodup := by
  obtain ⟨declared, -, -, hvalidate⟩ := Definition.survivors_eq_ok_iff.mp h
  exact Row.nodup_map_key_of_validate hvalidate

/-- Some row survives, as the last row of a rule does. -/
theorem Definition.survivors_ne_nil : rows ≠ [] := by
  obtain ⟨declared, -, hsome, hvalidate⟩ := Definition.survivors_eq_ok_iff.mp h
  obtain ⟨-, rfl⟩ := Row.validate_eq_ok_iff.mp hvalidate
  exact Row.lastOfRule_ne_nil hsome

end Survivors

/-! ## The hooks of states -/

/-- The hooks of a state: for every definition, as often as it lists the state. -/
def Definition.hooksOf (definitions : List (Definition D)) (occasion : Occasion)
    (state : D.State) : List (Action D) :=
  definitions.flatMap fun definition =>
    (definition.states.filter (fun listed => listed = state)).flatMap
      (fun _ => definition.scope.hooks occasion)

namespace StateHooks

theorem lookup_extend (state other : D.State) (actions : List (Action D))
    (map : List (D.State × List (Action D))) :
    ((extend state actions map).lookup other).getD [] =
      (map.lookup other).getD [] ++ if state = other then actions else [] := by
  induction map with
  | nil =>
      by_cases heq : state = other
      · simp [extend, heq]
      · simp [extend, List.lookup_cons, heq, beq_eq_false_iff_ne.mpr (Ne.symm heq)]
  | cons entry rest ih =>
      obtain ⟨known, present⟩ := entry
      by_cases hother : known = other
      · subst hother
        by_cases hstate : known = state
        · simp [extend, hstate]
        · simp [extend, hstate, Ne.symm hstate]
      · have hskip : (other == known) = false := beq_eq_false_iff_ne.mpr (Ne.symm hother)
        by_cases hstate : known = state
        · subst hstate
          simp [extend, List.lookup_cons, hskip, hother]
        · simp [extend, List.lookup_cons, hskip, hstate, ih]

theorem on_addState (scope : Scope D) (hooks : StateHooks D) (state : D.State)
    (occasion : Occasion) : (addState scope hooks state).on occasion =
      extend state (scope.hooks occasion) (hooks.on occasion) := by
  cases occasion <;> rfl

/-- One definition adds its hooks to a state as often as it lists the state. -/
theorem actions_foldl_addState (scope : Scope D) (listed : List D.State) (hooks : StateHooks D)
    (occasion : Occasion) (state : D.State) :
    (listed.foldl (addState scope) hooks).actions occasion state =
      hooks.actions occasion state ++
        (listed.filter (fun other => other = state)).flatMap fun _ => scope.hooks occasion := by
  induction listed generalizing hooks with
  | nil => simp
  | cons first rest ih =>
      rw [List.foldl_cons, ih, actions, on_addState, lookup_extend, ← actions, List.append_assoc]
      by_cases heq : first = state <;> simp [heq]

/-- The hooks of a state are those of the definitions that list it. -/
theorem actions_ofDefinitions (definitions : List (Definition D)) (occasion : Occasion)
    (state : D.State) : (ofDefinitions definitions).actions occasion state =
      Definition.hooksOf definitions occasion state := by
  induction definitions using List.reverseRecOn with
  | nil => cases occasion <;> rfl
  | append_singleton definitions definition ih =>
      rw [ofDefinitions, List.foldl_concat, ← ofDefinitions, actions_foldl_addState, ih,
        Definition.hooksOf, Definition.hooksOf, List.flatMap_append, List.flatMap_singleton]

end StateHooks

namespace Table

theorem actionsOf_eq (definitions : List (Definition D)) (policy : HookPolicy) (row : Row D) :
    actionsOf definitions policy row = row.actions ++
      if row.state ≠ row.next ∨ policy = .always then
        Definition.hooksOf definitions .exit row.state ++
          Definition.hooksOf definitions .entry row.next
      else [] := by
  rw [actionsOf, StateHooks.merged, StateHooks.actions_ofDefinitions,
    StateHooks.actions_ofDefinitions]
  split
  · rw [List.append_assoc]
  · rw [List.append_nil]

/-! ## Entries -/

/-- The transitions of a selection. -/
def transitionsOf (definitions : List (Definition D)) (policy : HookPolicy)
    (selection : Selection D) : List (Transition D) :=
  selection.map (fun (key, row) => transitionOf definitions policy key row)

/-- Compiling selects among the surviving rows and stores the transitions. -/
theorem compile_eq_ok_iff {config : Config} {definitions : List (Definition D)}
    {table : Table D} :
    compile config definitions = .ok table ↔
      ∃ rows selection, Definition.survivors definitions = .ok rows ∧
        selectBy config.strategy rows = .ok selection ∧
        table = ⟨config.strategy, transitionsOf definitions config.hookPolicy selection⟩ := by
  have hcompile : compile config definitions = (Definition.survivors definitions).bind fun rows =>
      (selectBy config.strategy rows).bind fun selection =>
        .ok ⟨config.strategy, transitionsOf definitions config.hookPolicy selection⟩ := by
    unfold compile Definition.survivors
    cases Definition.rows definitions with
    | error errors => rfl
    | ok declared => cases declared <;> rfl
  rw [hcompile]
  cases Definition.survivors definitions with
  | error errors => simp [Except.bind]
  | ok rows =>
      cases hselect : selectBy config.strategy rows with
      | error errors => simp [Except.bind, hselect]
      | ok selection => simp [Except.bind, hselect, eq_comm]

theorem exists_survivors_of_compile {config : Config} {definitions : List (Definition D)}
    {table : Table D} (h : compile config definitions = .ok table) :
    ∃ rows, Definition.survivors definitions = .ok rows := by
  obtain ⟨rows, selection, hrows, -, -⟩ := compile_eq_ok_iff.mp h
  exact ⟨rows, hrows⟩

/-- A table is made of a selection among the surviving rows. -/
theorem exists_selection_of_compile {config : Config} {definitions : List (Definition D)}
    {rows : List (Row D)} {table : Table D} (hrows : Definition.survivors definitions = .ok rows)
    (hcompile : compile config definitions = .ok table) :
    ∃ selection, selectBy config.strategy rows = .ok selection ∧
      table = ⟨config.strategy, transitionsOf definitions config.hookPolicy selection⟩ := by
  obtain ⟨survivors, selection, hsurvivors, hselect, rfl⟩ := compile_eq_ok_iff.mp hcompile
  rw [hrows, Except.ok.injEq] at hsurvivors
  exact ⟨selection, hsurvivors ▸ hselect, rfl⟩

theorem strategy_of_compile {config : Config} {definitions : List (Definition D)} {table : Table D}
    (h : compile config definitions = .ok table) : table.strategy = config.strategy := by
  obtain ⟨rows, selection, -, -, rfl⟩ := compile_eq_ok_iff.mp h
  rfl

theorem map_key_transitionsOf (definitions : List (Definition D)) (policy : HookPolicy)
    (selection : Selection D) :
    (transitionsOf definitions policy selection).map Transition.key = selection.map Prod.fst := by
  rw [transitionsOf, List.map_map]
  rfl

theorem mem_transitionsOf {definitions : List (Definition D)} {policy : HookPolicy}
    {selection : Selection D} {transition : Transition D} :
    transition ∈ transitionsOf definitions policy selection ↔
      ∃ key row, (key, row) ∈ selection ∧ transition = transitionOf definitions policy key row := by
  simp only [transitionsOf, List.mem_map, Prod.exists, eq_comm]

/-- Where no key recurs, a lookup finds whatever is stored under the key. -/
theorem find?_eq_some_iff {table : Table D} (h : (table.transitions.map Transition.key).Nodup)
    {key : TableKey D} {transition : Transition D} :
    table.find? key = some transition ↔
      transition ∈ table.transitions ∧ transition.key = key := by
  have hfound : ∀ found, table.find? key = some found →
      found ∈ table.transitions ∧ found.key = key := fun found hfind =>
    ⟨List.mem_of_find?_eq_some hfind, by simpa using List.find?_some hfind⟩
  refine ⟨hfound transition, ?_⟩
  intro h
  rcases h with ⟨hmem, hkey⟩
  cases hfind : table.find? key with
  | none => exact absurd (decide_eq_true hkey) (List.find?_eq_none.mp hfind transition hmem)
  | some found =>
      obtain ⟨hother, hotherKey⟩ := hfound found hfind
      rw [List.inj_on_of_nodup_map h hother hmem (hotherKey.trans hkey.symm)]

/-- A lookup in a table that stores a selection finds the transition of the row
selected for the key. -/
theorem find?_transitionsOf_eq_some_iff {strategy : Strategy} {definitions : List (Definition D)}
    {policy : HookPolicy} {selection : Selection D} (h : (selection.map Prod.fst).Nodup)
    {key : TableKey D} {transition : Transition D} :
    find? ⟨strategy, transitionsOf definitions policy selection⟩ key = some transition ↔
      ∃ row, (key, row) ∈ selection ∧ transition = transitionOf definitions policy key row := by
  have hkeys := map_key_transitionsOf definitions policy selection
  rw [find?_eq_some_iff (hkeys.symm ▸ h), mem_transitionsOf]
  constructor
  · intro h
    rcases h with ⟨⟨key, row, hmem, rfl⟩, rfl⟩
    exact ⟨row, hmem, rfl⟩
  · intro h
    rcases h with ⟨row, hmem, rfl⟩
    exact ⟨⟨key, row, hmem, rfl⟩, rfl⟩

/-- Every candidate is stored under some key. -/
theorem exists_find?_of_mem_candidates {table : Table D} {state : D.State} {event : D.Event}
    {supplied : PredicateSet D} {candidate : Transition D}
    (h : candidate ∈ table.candidates state event supplied) :
    ∃ key, table.find? key = some candidate := by
  rw [candidates] at h
  split at h
  · exact ⟨_, Option.mem_toList.mp h⟩
  · obtain ⟨subset, -, hfind⟩ := List.mem_filterMap.mp h
    exact ⟨_, hfind⟩

end Table

/-! ## A sample -/

namespace Scenario

/-- A value of the kind that has three levels. -/
def level (position : Fin 3) : Predicate domain :=
  ⟨(⟨⟨2, by decide⟩⟩ : Kind), position⟩

def rise : Event := ⟨"rise", none⟩

/-- A pump runs slowly on demand, and fast if the level is the highest. -/
def pump : Definition domain where
  states := ["idle"]
  scope :=
    { origin := default
      group := ⟨0⟩
      adopted := []
      onEntry := []
      onExit := []
      rules := some [
        .chain (.whenEvent [rise]) default (.leaf (.thenState "slow") default),
        .chain (.matching (Descriptor.unconstrained.withAll [level 2])) default
          (.chain (.whenEvent [rise]) default (.leaf (.thenState "fast") default))] }

/-- What the rules of the pump come to. -/
def pumpRows : List (Row domain) :=
  [⟨⟨"idle", rise, "slow", [], false, ⟨0⟩, default, default, default⟩, .unconstrained⟩,
    ⟨⟨"idle", rise, "fast", [], false, ⟨0⟩, default, default, default⟩,
      Descriptor.unconstrained.withAll [level 2]⟩]

/-- The level at which the pump runs fast. -/
def highest : Predicate domain := level 2

theorem rows_pump : Definition.rows [pump] = .ok pumpRows := rfl

theorem validate_pumpRows : Row.validate pumpRows = .ok pumpRows := rfl

theorem survivors_pump : Definition.survivors [pump] = .ok pumpRows :=
  Definition.survivors_eq_ok_iff.mpr ⟨pumpRows, rows_pump, List.cons_ne_nil _ _, validate_pumpRows⟩

end Scenario

end RuleMachine
