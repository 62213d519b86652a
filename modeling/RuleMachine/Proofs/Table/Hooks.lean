import RuleMachine.Proofs.Scope.Desugaring

/-! # What an entry runs

The entry for a key runs the actions of the row that wins the key, and of no other row. If the
state changes, or if the policy asks for it in any case, the exit hooks of the state and the
entry hooks of the next state follow. The hooks of a state are collected from all definitions
that list it: through the lineage of the scope, and as often as the state is listed.
-/

namespace RuleMachine

variable {D : Domain}

namespace Definition

/-- The definitions that list a state, each as often as it does so. -/
def listing (definitions : List (Definition D)) (state : D.State) : List (Definition D) :=
  definitions.flatMap fun definition =>
    List.replicate (definition.states.count state) definition

theorem mem_listing {definitions : List (Definition D)} {state : D.State}
    {definition : Definition D} :
    definition ∈ listing definitions state ↔
      definition ∈ definitions ∧ state ∈ definition.states := by
  simp only [listing, List.mem_flatMap, List.mem_replicate, ne_eq, List.count_eq_zero,
    not_not]
  constructor
  · rintro ⟨_, hmem, hlists, rfl⟩
    exact ⟨hmem, hlists⟩
  · rintro ⟨hmem, hlists⟩
    exact ⟨definition, hmem, hlists, rfl⟩

/-- The hooks of a state, listing by listing. -/
theorem hooksOf_eq (definitions : List (Definition D)) (occasion : Occasion) (state : D.State) :
    hooksOf definitions occasion state =
      (listing definitions state).flatMap
        (fun definition => definition.scope.allHooks occasion) := by
  rw [hooksOf, listing, List.flatMap_assoc]
  refine List.flatMap_congr fun definition _ => ?_
  have hlisted : definition.states.filter (fun listed => listed = state) =
      List.replicate (definition.states.count state) state := List.filter_eq _
  rw [hlisted, List.flatMap_replicate, List.flatMap_replicate, Scope.hooks_eq]

end Definition

namespace Table

/-- The row is the one that a key is for: ahead of time the row that accepts the set at the
highest rank, and in a search the row stored under the set. -/
def Wins (strategy : Strategy) (rows : List (Row D)) (key : TableKey D) (row : Row D) : Prop :=
  match strategy with
  | .eager => Eager.Leads rows key row
  | .lazy => Lazy.Stores key row

section Wins

variable {strategy : Strategy} {rows : List (Row D)} {selection : Selection D} {key : TableKey D}
  {row : Row D}

theorem Wins.state_eq (h : Wins strategy rows key row) : row.state = key.state := by
  cases strategy with
  | eager =>
      obtain ⟨rank, ⟨hstate, -⟩, -⟩ := h
      exact hstate
  | lazy => exact h.1

/-- Among different rows, the one that is selected for a key wins it alone. -/
theorem wins_of_mem_selection (hrows : rows.Nodup)
    (hselect : selectBy strategy rows = .ok selection) (hmem : (key, row) ∈ selection) :
    row ∈ rows ∧ Wins strategy rows key row ∧
      ∀ other ∈ rows, Wins strategy rows key other → other = row := by
  cases strategy with
  | eager =>
      obtain ⟨hties, rfl⟩ := Eager.select_eq_ok_iff.mp hselect
      obtain ⟨hreached, hrow, hleads⟩ := (Eager.mem_winners_slots hties).mp hmem
      refine ⟨hrow, hleads, fun other hother hrival => ?_⟩
      exact (Eager.length_leaders_le_one_iff hrows).mp
        (Eager.ties_slots_eq_nil_iff.mp hties key hreached) other hother row hrow hrival hleads
  | lazy =>
      obtain ⟨hgroups, hclashes, rfl⟩ := Lazy.select_eq_ok_iff.mp hselect
      obtain ⟨hrow, hstores⟩ := Lazy.mem_storage.mp hmem
      refine ⟨hrow, hstores, fun other hother hrival => ?_⟩
      have hkeys := Lazy.nodup_map_fst_storage hgroups hclashes
      have hrival : (key, other) ∈ Lazy.storage rows := Lazy.mem_storage.mpr ⟨hother, hrival⟩
      exact (Prod.mk.inj (List.inj_on_of_nodup_map hkeys hrival hmem rfl)).2

end Wins

/-- Every entry of a table runs the actions of the one surviving row that wins its key, and
after them, just if the state changes or the policy is to run hooks always, the exit hooks of
its state and the entry hooks of its next state. The hooks of a state are those of all
definitions that list it, in order and once for each time it is listed, and of each definition
those of the lineage of its scope: what is adopted comes first, recursively and in the order of
adoption. A state that no definition lists has no hooks. -/
theorem compile_runs_hooks {config : Config} {definitions : List (Definition D)} {table : Table D}
    (hcompile : compile config definitions = .ok table) :
    (∃ rows, Definition.survivors definitions = .ok rows ∧
      ∀ transition ∈ table.transitions, ∃ row ∈ rows,
        (∀ other ∈ rows, Wins config.strategy rows transition.key other ↔ other = row) ∧
        transition.state = row.state ∧ transition.next = row.next ∧
        transition.actions = row.actions ++
          if row.state ≠ row.next ∨ config.hookPolicy = .always then
            Definition.hooksOf definitions .exit row.state ++
              Definition.hooksOf definitions .entry row.next
          else []) ∧
    (∀ occasion state, Definition.hooksOf definitions occasion state =
      (Definition.listing definitions state).flatMap fun definition =>
        definition.scope.lineage.flatMap fun scope => scope.ownHooks occasion) ∧
    ∀ occasion state, (∀ definition ∈ definitions, state ∉ definition.states) →
      Definition.hooksOf definitions occasion state = [] := by
  refine ⟨?_, Definition.hooksOf_eq definitions, fun occasion state hunlisted => ?_⟩
  · obtain ⟨rows, selection, hrows, hselect, rfl⟩ := compile_eq_ok_iff.mp hcompile
    refine ⟨rows, hrows, fun transition hmem => ?_⟩
    obtain ⟨key, row, hselected, rfl⟩ := mem_transitionsOf.mp hmem
    obtain ⟨hrow, hwins, hunique⟩ :=
      wins_of_mem_selection (Definition.nodup_map_key_of_survivors hrows).of_map hselect hselected
    refine ⟨row, hrow, fun other hother => ⟨hunique other hother, ?_⟩, hwins.state_eq.symm, rfl, ?_⟩
    · rintro rfl
      exact hwins
    · rw [transitionOf, actionsOf_eq]
  · have hnone : Definition.listing definitions state = [] := by
      rw [List.eq_nil_iff_forall_not_mem]
      intro definition hlisting
      obtain ⟨hmem, hlists⟩ := Definition.mem_listing.mp hlisting
      exact hunlisted definition hmem hlists
    rw [Definition.hooksOf_eq, hnone, List.flatMap_nil]

end Table

/-! ## A sample -/

namespace Scenario

/-- Whatever is watched is noted. -/
def watched : Scope domain where
  origin := default
  group := ⟨1⟩
  adopted := []
  onEntry := [.plain (.mark "note")]
  onExit := [.plain (.mark "forget")]
  rules := none

/-- A guarded state is watched, and calls for a guard. -/
def guarded : Scope domain where
  origin := default
  group := ⟨2⟩
  adopted := [watched]
  onEntry := [.plain (.mark "call")]
  onExit := []
  rules := none

/-- Hooks for two states, one of them listed twice. -/
def posts : Definition domain where
  states := ["slow", "idle", "slow"]
  scope :=
    { origin := default
      group := ⟨0⟩
      adopted := [guarded]
      onEntry := [.plain (.mark "lock")]
      onExit := []
      rules := none }

/-- A rule that leads to another state, and one that does not. -/
def patrol : Definition domain where
  states := ["idle"]
  scope :=
    { origin := default
      group := ⟨3⟩
      adopted := []
      onEntry := []
      onExit := [.plain (.mark "leave")]
      rules := some [
        .chain (.whenEvent [rise]) default (.chain (.actions [.plain (.mark "count")]) default
          (.leaf (.thenState "slow") default)),
        .chain (.whenEvent [fall]) default (.leaf (.actions [.plain (.mark "rest")]) default)] }

/-- What is run on the way to the state that is listed twice. -/
def patrolActions : List (Action domain) :=
  ["count", "forget", "leave", "note", "call", "lock", "note", "call", "lock"].map
    (fun name => .plain (.mark name))

end Scenario

theorem Table.compile_runs_hooks_patrol :
    ∃ table : Table Scenario.domain,
      compile ⟨.lazy, .onChangeOnly⟩ [Scenario.posts, Scenario.patrol] = .ok table ∧
      table.transitions.map (fun transition => (transition.next, transition.actions)) =
        [("slow", Scenario.patrolActions), ("idle", [.plain (.mark "rest")])] ∧
      ∃ rows, Definition.survivors [Scenario.posts, Scenario.patrol] = .ok rows ∧
        ∀ transition ∈ table.transitions, ∃ row ∈ rows,
          (∀ other ∈ rows, Wins .lazy rows transition.key other ↔ other = row) ∧
          transition.state = row.state ∧ transition.next = row.next ∧
          transition.actions = row.actions ++
            if row.state ≠ row.next ∨ HookPolicy.onChangeOnly = .always then
              Definition.hooksOf [Scenario.posts, Scenario.patrol] .exit row.state ++
                Definition.hooksOf [Scenario.posts, Scenario.patrol] .entry row.next
            else [] := by
  have htable : ∃ table : Table Scenario.domain,
      compile ⟨.lazy, .onChangeOnly⟩ [Scenario.posts, Scenario.patrol] = .ok table ∧
      table.transitions.map (fun transition => (transition.next, transition.actions)) =
        [("slow", Scenario.patrolActions), ("idle", [.plain (.mark "rest")])] := ⟨_, rfl, rfl⟩
  obtain ⟨table, hcompile, hentries⟩ := htable
  exact ⟨table, hcompile, hentries, (compile_runs_hooks hcompile).1⟩

end RuleMachine
