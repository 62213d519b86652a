import RuleMachine.Proofs.Row.Acceptance
import RuleMachine.Proofs.Table.Likeness

/-! # Desugaring

A definition of several states could have been written once for each of them, and what its
scope adopts could have been written into the scope. The rows that come of it are the same,
row by row, apart from the groups, and the states keep their hooks. As groups do not matter
to what survives, a table compiled from the rewritten definitions has the same entries.
-/

namespace RuleMachine

variable {D : Domain}

/-! ## Adopted scopes -/

namespace Scope

/-- The rules that count for a scope: those of what it adopts, then its own. -/
def allRules (scope : Scope D) : List (Rule D) :=
  scope.lineage.flatMap ownRules

def allPaths (scope : Scope D) : List (Path D) :=
  scope.allRules.flatMap Rule.paths

/-- The hooks that count for a scope, in the order in which its rules do. -/
def allHooks (scope : Scope D) (occasion : Occasion) : List (Action D) :=
  scope.lineage.flatMap (fun member => member.ownHooks occasion)

/-- The scope with all that it adopts written into it. It declares rules if any count. -/
def inlined (scope : Scope D) : Scope D where
  origin := scope.origin
  group := scope.group
  adopted := []
  onEntry := scope.allHooks .entry
  onExit := scope.allHooks .exit
  rules := if scope.allRules.isEmpty then none else some scope.allRules

theorem map_snd_groupedPaths (scope : Scope D) :
    scope.groupedPaths.map Prod.snd = scope.allPaths := by
  simp only [groupedPaths, allPaths, allRules, List.map_flatMap, List.flatMap_assoc, List.map_map,
    Function.comp_def, List.map_id']
  rfl

mutual

/-- A scope runs the hooks of its lineage. -/
theorem hooks_eq (occasion : Occasion) :
    ∀ scope : Scope D, scope.hooks occasion = scope.allHooks occasion
  | ⟨origin, group, adopted, onEntry, onExit, rules⟩ => by
    rw [hooks, adoptedHooks_eq occasion adopted, allHooks, lineage, List.flatMap_append,
      List.flatMap_singleton]

theorem adoptedHooks_eq (occasion : Occasion) :
    ∀ scopes : List (Scope D), adoptedHooks occasion scopes =
      (adoptedLineage scopes).flatMap (fun member => member.ownHooks occasion)
  | [] => rfl
  | scope :: rest => by
    rw [adoptedHooks, hooks_eq occasion scope, adoptedHooks_eq occasion rest, adoptedLineage,
      List.flatMap_append, allHooks]

end

theorem lineage_inlined (scope : Scope D) : scope.inlined.lineage = [scope.inlined] := rfl

theorem ownRules_inlined (scope : Scope D) : scope.inlined.ownRules = scope.allRules := by
  rw [ownRules, inlined]
  split
  next hnone => rw [List.isEmpty_iff.mp hnone, Option.getD_none]
  next => rw [Option.getD_some]

theorem allRules_inlined (scope : Scope D) : scope.inlined.allRules = scope.allRules := by
  rw [allRules, lineage_inlined, List.flatMap_singleton, ownRules_inlined]

theorem hooks_inlined (scope : Scope D) (occasion : Occasion) :
    scope.inlined.hooks occasion = scope.hooks occasion := by
  rw [hooks_eq, hooks_eq, allHooks, lineage_inlined, List.flatMap_singleton]
  cases occasion <;> rfl

theorem rules_inlined_ne (scope : Scope D) : scope.inlined.rules ≠ some [] := by
  rw [inlined]
  split
  next => exact (Option.some_ne_none _).symm
  next hsome => exact fun hempty => hsome (List.isEmpty_iff.mpr (Option.some.inj hempty))

end Scope

/-! ## Rows without their groups -/

/-- The row as if there were only one rule list. -/
def Row.ungrouped (row : Row D) : Row D :=
  { row with group := ⟨0⟩ }

namespace DraftRow

/-- The row as if there were only one rule list. -/
def ungrouped (row : DraftRow D) : DraftRow D :=
  { row with group := ⟨0⟩ }

theorem resolved?_ungrouped (row : DraftRow D) :
    row.ungrouped.resolved? = row.resolved?.map Row.ungrouped := by
  rw [resolved?, resolved?, resolve, resolve, ungrouped]
  cases MatchChain.resolve row.chain <;> rfl

end DraftRow

theorem Row.forall₂_sameButGroup_iff {rows others : List (Row D)} :
    List.Forall₂ SameButGroup rows others ↔ rows.map ungrouped = others.map ungrouped := by
  have hsame : ∀ row other : Row D, SameButGroup row other ↔ row.ungrouped = other.ungrouped := by
    intro row other
    constructor
    · intro h
      rw [SameButGroup] at h
      rw [h]
      rfl
    · intro h
      have hother : { other.ungrouped with group := other.group } =
        { row.ungrouped with group := other.group } := by rw [h]
      exact hother
  rw [← List.forall₂_eq_eq_eq, List.forall₂_map_left_iff, List.forall₂_map_right_iff]
  exact ⟨fun h => h.imp fun row other => (hsame row other).mp,
    fun h => h.imp fun row other => (hsame row other).mpr⟩

theorem Path.map_ungrouped_draftRows (stateOrigin : Origin) (group : RuleGroup) (state : D.State)
    (path : Path D) : (path.draftRows stateOrigin group state).map DraftRow.ungrouped =
      path.draftRows stateOrigin ⟨0⟩ state := by
  rw [draftRows, draftRows]
  cases path.innermostWhen with
  | none => rfl
  | some when => rw [List.map_map]; rfl

namespace Definition

/-- The rows of a definition as if there were only one rule list. -/
def plainRows (definition : Definition D) : List (DraftRow D) :=
  definition.states.flatMap fun state =>
    definition.scope.allPaths.flatMap (Path.draftRows definition.scope.origin ⟨0⟩ state)

theorem map_ungrouped_pathRows (definition : Definition D) :
    definition.pathRows.map DraftRow.ungrouped = definition.plainRows := by
  simp only [pathRows, plainRows, ← Scope.map_snd_groupedPaths, List.map_flatMap,
    List.flatMap_map, Path.map_ungrouped_draftRows]

/-! ## Definitions that say the same -/

/-- The lists of definitions expand alike, apart from the groups, and give every state the same
hooks. -/
structure SayTheSame (definitions others : List (Definition D)) : Prop where
  complete : (∀ definition ∈ definitions, definition.IsComplete) ↔
    ∀ other ∈ others, other.IsComplete
  rows : definitions.flatMap plainRows = others.flatMap plainRows
  hooks : ∀ occasion state, hooksOf definitions occasion state = hooksOf others occasion state

namespace SayTheSame

variable {definitions others : List (Definition D)}

theorem symm (h : SayTheSame definitions others) : SayTheSame others definitions :=
  ⟨h.complete.symm, h.rows.symm, fun occasion state => (h.hooks occasion state).symm⟩

theorem trans {third : List (Definition D)} (h : SayTheSame definitions others)
    (hthird : SayTheSame others third) : SayTheSame definitions third :=
  ⟨h.complete.trans hthird.complete, h.rows.trans hthird.rows,
    fun occasion state => (h.hooks occasion state).trans (hthird.hooks occasion state)⟩

theorem append {more further : List (Definition D)} (h : SayTheSame definitions others)
    (hmore : SayTheSame more further) : SayTheSame (definitions ++ more) (others ++ further) where
  complete := by simp only [List.forall_mem_append, h.complete, hmore.complete]
  rows := by rw [List.flatMap_append, List.flatMap_append, h.rows, hmore.rows]
  hooks occasion state := by
    have happend : ∀ first second : List (Definition D), hooksOf (first ++ second) occasion state =
        hooksOf first occasion state ++ hooksOf second occasion state :=
      fun _ _ => List.flatMap_append
    rw [happend, happend, h.hooks, hmore.hooks]

/-- What holds of each definition and what replaces it holds of all of them together. -/
theorem of_flatMap {rewrite : Definition D → List (Definition D)}
    (h : ∀ definition ∈ definitions, SayTheSame [definition] (rewrite definition)) :
    SayTheSame definitions (definitions.flatMap rewrite) := by
  induction definitions with
  | nil => exact ⟨Iff.rfl, rfl, fun _ _ => rfl⟩
  | cons definition rest ih =>
      obtain ⟨hhead, hrest⟩ := List.forall_mem_cons.mp h
      exact hhead.append (ih hrest)

theorem of_forall₂
    (h : List.Forall₂ (fun definition other => SayTheSame [definition] [other])
      definitions others) : SayTheSame definitions others := by
  induction h with
  | nil => exact ⟨Iff.rfl, rfl, fun _ _ => rfl⟩
  | cons hhead _ ih => exact hhead.append ih

theorem exists_rows (h : SayTheSame definitions others) {rows : List (Row D)}
    (hrows : Definition.rows definitions = .ok rows) :
    ∃ otherRows, Definition.rows others = .ok otherRows ∧
      List.Forall₂ Row.SameButGroup rows otherRows := by
  have hplain : ∀ list : List (Definition D),
      (list.flatMap pathRows).map DraftRow.ungrouped = list.flatMap plainRows := by
    intro list
    simp only [List.map_flatMap, map_ungrouped_pathRows]
  have hresolves : ∀ list : List (Definition D),
      (∀ draft ∈ list.flatMap pathRows, draft.resolved? ≠ none) ↔
        ∀ draft ∈ list.flatMap plainRows, draft.resolved? ≠ none := by
    intro list
    simp only [← hplain, List.forall_mem_map, DraftRow.resolved?_ungrouped, ne_eq,
      Option.map_eq_none_iff]
  have hresolved : ∀ list : List (Definition D),
      ((list.flatMap pathRows).filterMap DraftRow.resolved?).map Row.ungrouped =
        (list.flatMap plainRows).filterMap DraftRow.resolved? := by
    intro list
    rw [List.map_filterMap, ← hplain, List.filterMap_map]
    exact congrArg (fun read => (list.flatMap pathRows).filterMap read)
      (funext fun draft => (DraftRow.resolved?_ungrouped draft).symm)
  obtain ⟨⟨hcomplete, hall⟩, rfl⟩ := Definition.rows_eq_ok_iff.mp hrows
  refine ⟨_, Definition.rows_eq_ok_iff.mpr ⟨⟨h.complete.mp hcomplete, ?_⟩, rfl⟩, ?_⟩
  · rw [hresolves, ← h.rows, ← hresolves]
    exact hall
  · rw [Row.forall₂_sameButGroup_iff, hresolved, hresolved, h.rows]

theorem exists_survivors (h : SayTheSame definitions others) {rows : List (Row D)}
    (hrows : Definition.survivors definitions = .ok rows) :
    ∃ otherRows, Definition.survivors others = .ok otherRows ∧
      List.Forall₂ Row.SameButGroup rows otherRows := by
  obtain ⟨declared, hdeclared, hsome, hvalidate⟩ := Definition.survivors_eq_ok_iff.mp hrows
  obtain ⟨hstacked, rfl⟩ := Row.validate_eq_ok_iff.mp hvalidate
  obtain ⟨otherDeclared, hother, hsame⟩ := h.exists_rows hdeclared
  have hotherSome : otherDeclared ≠ [] := by
    rintro rfl
    exact hsome (List.forall₂_nil_right_iff.mp hsame)
  have hotherStacked : Row.WellStacked otherDeclared := by
    rw [Row.wellStacked_iff_stacksOn] at hstacked ⊢
    exact (Row.stacksOn_of_sameButGroup hsame []).mpr hstacked
  exact ⟨_, Definition.survivors_eq_ok_iff.mpr ⟨otherDeclared, hother, hotherSome,
    Row.validate_eq_ok_iff.mpr ⟨hotherStacked, rfl⟩⟩, Row.lastOfRule_of_sameButGroup hsame⟩

theorem exists_compile (h : SayTheSame definitions others) {config : Config} {table : Table D}
    (hcompile : Table.compile config definitions = .ok table) :
    ∃ counterpart, Table.compile config others = .ok counterpart := by
  obtain ⟨rows, hrows⟩ := Table.exists_survivors_of_compile hcompile
  obtain ⟨otherRows, hothers, hsame⟩ := h.exists_survivors hrows
  exact Table.exists_compile_of_alike hrows hothers (.of_forall₂ hsame) hcompile

theorem find?_of_compile (h : SayTheSame definitions others) {config : Config}
    {table counterpart : Table D} (hcompile : Table.compile config definitions = .ok table)
    (hcounterpart : Table.compile config others = .ok counterpart) {key : TableKey D}
    {transition : Transition D} (hfind : table.find? key = some transition) :
    counterpart.find? key = some transition := by
  obtain ⟨rows, hrows⟩ := Table.exists_survivors_of_compile hcompile
  obtain ⟨otherRows, hothers, hrowwise⟩ := h.exists_survivors hrows
  obtain ⟨row, -, other, -, hsame, rfl, hother⟩ := Table.exists_find?_of_alike hrows hothers
    (.of_forall₂ hrowwise) hcompile hcounterpart hfind
  rw [Row.SameButGroup] at hsame
  rw [hother, hsame]
  simp only [Table.transitionOf, Table.actionsOf_eq, h.hooks]

end SayTheSame

/-! ## Rewriting definitions -/

/-- One definition for each state, of the scope with all that it adopts written into it. -/
def desugared (definition : Definition D) : List (Definition D) :=
  definition.states.map fun state => ⟨[state], definition.scope.inlined⟩

/-- The definitions are the same, except that their own rules may form different lists. -/
def SameButGroup (definition other : Definition D) : Prop :=
  other = { definition with scope := { definition.scope with group := other.scope.group } }

/-- What makes a definition complete can be said of the rules that count for its scope. -/
theorem isComplete_iff {definition : Definition D} :
    definition.IsComplete ↔ definition.states ≠ [] ∧
      (∀ scope ∈ definition.scope.lineage, scope.rules ≠ some []) ∧
      (∀ rule ∈ definition.scope.allRules, rule.IsFilled) ∧
      ∀ path ∈ definition.scope.allPaths, path.innermostWhen ≠ none := by
  have hfilled : (∀ scope ∈ definition.scope.lineage, scope.IsFilled) ↔
      (∀ scope ∈ definition.scope.lineage, scope.rules ≠ some []) ∧
        ∀ rule ∈ definition.scope.allRules, rule.IsFilled := by
    rw [Scope.allRules, List.forall_mem_flatMap, ← forall₂_and]
    rfl
  have hevents : (∀ grouped ∈ definition.scope.groupedPaths, grouped.2.innermostWhen ≠ none) ↔
      ∀ path ∈ definition.scope.allPaths, path.innermostWhen ≠ none := by
    rw [← Scope.map_snd_groupedPaths, List.forall_mem_map]
  constructor
  · intro h
    obtain ⟨hrules, hall⟩ := hfilled.mp h.filled
    exact ⟨h.states, hrules, hall, hevents.mp h.events⟩
  · intro h
    rcases h with ⟨hstates, hrules, hall, hnamed⟩
    exact ⟨hstates, hfilled.mpr ⟨hrules, hall⟩, hevents.mpr hnamed⟩

theorem sayTheSame_desugared {definition : Definition D} (hstates : definition.states ≠ [])
    (hrules : ∀ scope ∈ definition.scope.lineage, scope.rules ≠ some []) :
    SayTheSame [definition] definition.desugared where
  complete := by
    have hinlined : ∀ scope ∈ definition.scope.inlined.lineage, scope.rules ≠ some [] := by
      rw [Scope.lineage_inlined, List.forall_mem_singleton]
      exact definition.scope.rules_inlined_ne
    have hpart : ∀ state, IsComplete ⟨[state], definition.scope.inlined⟩ ↔
        (∀ rule ∈ definition.scope.allRules, rule.IsFilled) ∧
          ∀ path ∈ definition.scope.allPaths, path.innermostWhen ≠ none := by
      intro state
      rw [isComplete_iff, and_iff_right (List.cons_ne_nil state []), and_iff_right hinlined,
        Scope.allPaths, Scope.allRules_inlined, Scope.allPaths]
    -- There is a state, so what is asked of all parts is asked of the definition.
    obtain ⟨first, hfirst⟩ := List.exists_mem_of_ne_nil _ hstates
    rw [List.forall_mem_singleton, isComplete_iff, and_iff_right hstates, and_iff_right hrules,
      desugared, List.forall_mem_map]
    simp only [hpart]
    exact ⟨fun h state _ => h, fun h => h first hfirst⟩
  rows := by
    rw [List.flatMap_singleton, desugared, List.flatMap_map, plainRows]
    refine List.flatMap_congr fun state _ => ?_
    rw [plainRows, List.flatMap_singleton, Scope.allPaths, Scope.allPaths, Scope.allRules_inlined]
    rfl
  hooks occasion state := by
    rw [hooksOf, hooksOf, List.flatMap_singleton, desugared, List.flatMap_map]
    simp only [Scope.hooks_inlined]
    induction definition.states with
    | nil => rfl
    | cons listed rest ih =>
        rw [List.flatMap_cons, ← ih, List.filter_cons]
        by_cases heq : listed = state
        · simp [heq]
        · simp [heq]

theorem sayTheSame_of_sameButGroup {definition other : Definition D}
    (h : SameButGroup definition other) : SayTheSame [definition] [other] := by
  obtain ⟨states, origin, group, adopted, onEntry, onExit, rules⟩ := definition
  rw [SameButGroup] at h
  generalize other.scope.group = otherGroup at h
  subst h
  have hrules : ∀ group, Scope.allRules ⟨origin, group, adopted, onEntry, onExit, rules⟩ =
      (Scope.adoptedLineage adopted).flatMap Scope.ownRules ++ rules.getD [] := by
    intro group
    rw [Scope.allRules, Scope.lineage, List.flatMap_append, List.flatMap_singleton, Scope.ownRules]
  refine ⟨?_, ?_, fun occasion state => ?_⟩
  · simp only [List.forall_mem_singleton, isComplete_iff, Scope.allPaths, hrules, Scope.lineage,
      List.forall_mem_append]
  · simp only [List.flatMap_singleton, plainRows, Scope.allPaths, hrules]
  · simp only [hooksOf, List.flatMap_singleton, Scope.hooks]
    cases occasion <;> rfl

/-- Definitions can be rewritten, each into one for every state and without adopted scopes,
and their rules moved to other rule lists. A table can be compiled from what they become
just if one can be compiled from them, and it then has the same entries: under every key
the same next state, actions, condition and origin. -/
theorem compile_desugared {definitions others : List (Definition D)}
    (hstates : ∀ definition ∈ definitions, definition.states ≠ [])
    (hrules : ∀ definition ∈ definitions, ∀ scope ∈ definition.scope.lineage,
      scope.rules ≠ some [])
    (hothers : List.Forall₂ SameButGroup (definitions.flatMap desugared) others)
    (config : Config) :
    ((∃ counterpart, Table.compile config others = .ok counterpart) ↔
      ∃ table, Table.compile config definitions = .ok table) ∧
    ∀ table counterpart, Table.compile config definitions = .ok table →
      Table.compile config others = .ok counterpart →
        counterpart.strategy = table.strategy ∧
          ∀ key, counterpart.find? key = table.find? key := by
  have hsame : SayTheSame definitions others := by
    have hdesugared : SayTheSame definitions (definitions.flatMap desugared) :=
      .of_flatMap fun definition hdefinition =>
        sayTheSame_desugared (hstates definition hdefinition) (hrules definition hdefinition)
    exact hdesugared.trans (.of_forall₂ (hothers.imp fun _ _ => sayTheSame_of_sameButGroup))
  refine ⟨⟨fun ⟨_, h⟩ => hsame.symm.exists_compile h, fun ⟨_, h⟩ => hsame.exists_compile h⟩, ?_⟩
  intro table counterpart hcompile hcounterpart
  constructor
  · rw [Table.strategy_of_compile hcompile, Table.strategy_of_compile hcounterpart]
  · intro key
    refine Option.ext fun transition => ⟨fun h => ?_, fun h => ?_⟩
    · exact hsame.symm.find?_of_compile hcounterpart hcompile h
    · exact hsame.find?_of_compile hcompile hcounterpart h

end Definition

/-! ## A sample -/

namespace Scenario

/-- Wherever somebody attends, a rise raises the alarm. -/
def attended : Scope domain where
  origin := default
  group := ⟨1⟩
  adopted := []
  onEntry := [.plain (.mark "alert")]
  onExit := []
  rules := some [.chain (.whenEvent [rise]) default (.leaf (.thenState "alarm") default)]

/-- A heater is attended in two states. Instead of raising the alarm it slows down. -/
def heater : Definition domain where
  states := ["idle", "slow"]
  scope :=
    { origin := default
      group := ⟨0⟩
      adopted := [attended]
      onEntry := [.plain (.mark "light")]
      onExit := []
      rules := some [
        .override default [
          .chain (.whenEvent [rise]) default (.leaf (.thenState "slow") default)],
        .chain (.whenEvent [fall]) default (.leaf (.thenState "idle") default)] }

/-- What it takes to be a heater, written out in one scope. -/
def heaterScope (group : RuleGroup) : Scope domain where
  origin := default
  group := group
  adopted := []
  onEntry := [.plain (.mark "alert"), .plain (.mark "light")]
  onExit := []
  rules := some [
    .chain (.whenEvent [rise]) default (.leaf (.thenState "alarm") default),
    .override default [
      .chain (.whenEvent [rise]) default (.leaf (.thenState "slow") default)],
    .chain (.whenEvent [fall]) default (.leaf (.thenState "idle") default)]

def plainHeaters : List (Definition domain) :=
  [⟨["idle"], heaterScope ⟨3⟩⟩, ⟨["slow"], heaterScope ⟨4⟩⟩]

end Scenario

/-- Written out state by state, the heater still overrides the alarm. -/
theorem Definition.compile_desugared_heater :
    (∀ definition ∈ [Scenario.heater], definition.states ≠ []) ∧
    (∀ definition ∈ [Scenario.heater], ∀ scope ∈ definition.scope.lineage,
      scope.rules ≠ some []) ∧
    List.Forall₂ SameButGroup ([Scenario.heater].flatMap desugared) Scenario.plainHeaters ∧
    ∃ table counterpart : Table Scenario.domain,
      Table.compile ⟨.lazy, .onChangeOnly⟩ [Scenario.heater] = .ok table ∧
      Table.compile ⟨.lazy, .onChangeOnly⟩ Scenario.plainHeaters = .ok counterpart ∧
      table.transitions.map (fun transition =>
        (transition.state, transition.event.name, transition.next, transition.actions.length)) =
          [("idle", "rise", "slow", 2), ("idle", "fall", "idle", 0),
            ("slow", "rise", "slow", 0), ("slow", "fall", "idle", 2)] ∧
      ∀ key, counterpart.find? key = table.find? key := by
  have hstates : ∀ definition ∈ [Scenario.heater], definition.states ≠ [] :=
    List.forall_mem_singleton.mpr (List.cons_ne_nil _ _)
  have hrules : ∀ definition ∈ [Scenario.heater], ∀ scope ∈ definition.scope.lineage,
      scope.rules ≠ some [] := by
    simp [Scenario.heater, Scenario.attended, Scope.lineage, Scope.adoptedLineage]
  have hplain : List.Forall₂ SameButGroup ([Scenario.heater].flatMap desugared)
      Scenario.plainHeaters := .cons rfl (.cons rfl .nil)
  have htables : ∃ table counterpart : Table Scenario.domain,
      Table.compile ⟨.lazy, .onChangeOnly⟩ [Scenario.heater] = .ok table ∧
      Table.compile ⟨.lazy, .onChangeOnly⟩ Scenario.plainHeaters = .ok counterpart ∧
      table.transitions.map (fun transition =>
        (transition.state, transition.event.name, transition.next, transition.actions.length)) =
          [("idle", "rise", "slow", 2), ("idle", "fall", "idle", 0),
            ("slow", "rise", "slow", 0), ("slow", "fall", "idle", 2)] := ⟨_, _, rfl, rfl, rfl⟩
  obtain ⟨table, counterpart, hcompile, hcounterpart, hentries⟩ := htables
  exact ⟨hstates, hrules, hplain, table, counterpart, hcompile, hcounterpart, hentries,
    ((compile_desugared hstates hrules hplain ⟨.lazy, .onChangeOnly⟩).2 table counterpart
      hcompile hcounterpart).2⟩

end RuleMachine
