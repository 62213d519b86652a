import Mathlib.Data.List.Perm.Basic
import RuleMachine.Proofs.Row.Acceptance
import RuleMachine.Proofs.Table.Likeness

/-! # The order of declaration

Only overrides look at what was declared before them. Where nothing overrides, definitions,
the rules of a scope and those of a block may be put into any order: the rows come in another
order, but they are the same rows and none of them gives way to another. So a table can be
compiled before just if it can be afterwards, and under every key it has the transition of
the same row.
-/

namespace RuleMachine

variable {D : Domain}

/-! ## Rules -/

namespace Rule

/-- The rules differ at most in the order of the rules in their blocks. -/
inductive Rearranged : Rule D → Rule D → Prop where
  | refl (rule : Rule D) : Rearranged rule rule
  | trans {first second third : Rule D} :
      Rearranged first second → Rearranged second third → Rearranged first third
  | chain (step : Step D) (origin : Origin) {next other : Rule D} :
      Rearranged next other → Rearranged (chain step origin next) (chain step origin other)
  | block (step : Step D) (origin : Origin) {rules others : List (Rule D)} :
      rules.Perm others → Rearranged (block step origin rules) (block step origin others)
  | inside (step : Step D) (origin : Origin) (before : List (Rule D)) {rule other : Rule D}
      (after : List (Rule D)) :
      Rearranged rule other → Rearranged (block step origin (before ++ rule :: after))
        (block step origin (before ++ other :: after))

theorem Rearranged.symm {rule other : Rule D} (h : Rearranged rule other) :
    Rearranged other rule := by
  induction h with
  | refl rule => exact .refl rule
  | trans _ _ first second => exact .trans second first
  | chain step origin _ ih => exact .chain step origin ih
  | block step origin hperm => exact .block step origin hperm.symm
  | inside step origin before after _ ih => exact .inside step origin before after ih

theorem Rearranged.isFilled_iff {rule other : Rule D} (h : Rearranged rule other) :
    rule.IsFilled ↔ other.IsFilled := by
  induction h with
  | refl rule => exact Iff.rfl
  | trans _ _ first second => exact first.trans second
  | chain step origin _ ih => rw [IsFilled, IsFilled, ih]
  | block step origin hperm =>
      simp only [IsFilled, eachFilled_iff, hperm.mem_iff, ne_eq, ← List.isEmpty_iff,
        hperm.isEmpty_eq]
  | inside step origin before after _ ih =>
      simp only [IsFilled, eachFilled_iff, List.forall_mem_append, List.forall_mem_cons, ih, ne_eq,
        List.append_eq_nil_iff, reduceCtorEq, and_false]

theorem Rearranged.perm_paths {rule other : Rule D} (h : Rearranged rule other) :
    rule.paths.Perm other.paths := by
  induction h with
  | refl rule => exact List.Perm.refl _
  | trans _ _ first second => exact first.trans second
  | chain step origin _ ih => exact ih.map _
  | block step origin hperm =>
      rw [paths, paths, blockPaths_eq_flatMap, blockPaths_eq_flatMap]
      exact (hperm.flatMap_right paths).map _
  | inside step origin before after _ ih =>
      rw [paths, paths, blockPaths_eq_flatMap, blockPaths_eq_flatMap, List.flatMap_append,
        List.flatMap_append, List.flatMap_cons, List.flatMap_cons]
      exact ((ih.append_right _).append_left _).map _

end Rule

/-! ## Scopes -/

namespace Scope

/-- The scopes differ at most in the order of rules, their own or those of what they adopt. -/
inductive Rearranged : Scope D → Scope D → Prop where
  | refl (scope : Scope D) : Rearranged scope scope
  | trans {first second third : Scope D} :
      Rearranged first second → Rearranged second third → Rearranged first third
  | rules (origin : Origin) (group : RuleGroup) (adopted : List (Scope D))
      (onEntry onExit : List (Action D)) {rules others : List (Rule D)} :
      rules.Perm others → Rearranged ⟨origin, group, adopted, onEntry, onExit, some rules⟩
        ⟨origin, group, adopted, onEntry, onExit, some others⟩
  | rule (origin : Origin) (group : RuleGroup) (adopted : List (Scope D))
      (onEntry onExit : List (Action D)) (before : List (Rule D)) {rule other : Rule D}
      (after : List (Rule D)) :
      Rule.Rearranged rule other →
        Rearranged ⟨origin, group, adopted, onEntry, onExit, some (before ++ rule :: after)⟩
          ⟨origin, group, adopted, onEntry, onExit, some (before ++ other :: after)⟩
  | adopted (origin : Origin) (group : RuleGroup) (onEntry onExit : List (Action D))
      (rules : Option (List (Rule D))) (before : List (Scope D)) {scope other : Scope D}
      (after : List (Scope D)) :
      Rearranged scope other →
        Rearranged ⟨origin, group, before ++ scope :: after, onEntry, onExit, rules⟩
          ⟨origin, group, before ++ other :: after, onEntry, onExit, rules⟩

theorem adoptedLineage_eq_flatMap (scopes : List (Scope D)) :
    adoptedLineage scopes = scopes.flatMap lineage := by
  induction scopes with
  | nil => rfl
  | cons scope rest ih => rw [adoptedLineage, ih, List.flatMap_cons]

variable {scope other : Scope D}

theorem Rearranged.symm (h : Rearranged scope other) : Rearranged other scope := by
  induction h with
  | refl scope => exact .refl scope
  | trans _ _ first second => exact .trans second first
  | rules origin group adopted onEntry onExit hperm =>
      exact .rules origin group adopted onEntry onExit hperm.symm
  | rule origin group adopted onEntry onExit before after hrule =>
      exact .rule origin group adopted onEntry onExit before after hrule.symm
  | adopted origin group onEntry onExit rules before after _ ih =>
      exact .adopted origin group onEntry onExit rules before after ih

theorem Rearranged.origin_eq (h : Rearranged scope other) : scope.origin = other.origin := by
  induction h with
  | trans _ _ first second => exact first.trans second
  | _ => rfl

theorem Rearranged.isFilled_iff (h : Rearranged scope other) :
    (∀ member ∈ scope.lineage, member.IsFilled) ↔ ∀ member ∈ other.lineage, member.IsFilled := by
  induction h with
  | refl scope => exact Iff.rfl
  | trans _ _ first second => exact first.trans second
  | rules origin group adopted onEntry onExit hperm =>
      simp only [lineage, List.forall_mem_append, List.forall_mem_singleton, IsFilled, ownRules,
        Option.getD_some, hperm.mem_iff, ne_eq, Option.some.injEq, ← List.isEmpty_iff,
        hperm.isEmpty_eq]
  | rule origin group adopted onEntry onExit before after hrule =>
      simp only [lineage, List.forall_mem_append, List.forall_mem_singleton, IsFilled, ownRules,
        Option.getD_some, List.forall_mem_cons, hrule.isFilled_iff, ne_eq, Option.some.injEq,
        List.append_eq_nil_iff, reduceCtorEq, and_false]
  | adopted origin group onEntry onExit rules before after _ ih =>
      simp only [lineage, adoptedLineage_eq_flatMap, List.flatMap_append, List.flatMap_cons,
        List.forall_mem_append, ih, List.forall_mem_singleton]
      rfl

theorem groupedPaths_eq (origin : Origin) (group : RuleGroup) (adopted : List (Scope D))
    (onEntry onExit : List (Action D)) (rules : Option (List (Rule D))) :
    groupedPaths ⟨origin, group, adopted, onEntry, onExit, rules⟩ =
      adopted.flatMap groupedPaths ++
        ((rules.getD []).flatMap Rule.paths).map (fun path => (group, path)) := by
  rw [groupedPaths, lineage, adoptedLineage_eq_flatMap, List.flatMap_append, List.flatMap_assoc,
    List.flatMap_singleton]
  rfl

theorem Rearranged.perm_groupedPaths (h : Rearranged scope other) :
    scope.groupedPaths.Perm other.groupedPaths := by
  induction h with
  | refl scope => exact List.Perm.refl _
  | trans _ _ first second => exact first.trans second
  | rules origin group adopted onEntry onExit hperm =>
      rw [groupedPaths_eq, groupedPaths_eq]
      exact ((hperm.flatMap_right Rule.paths).map _).append_left _
  | rule origin group adopted onEntry onExit before after hrule =>
      rw [groupedPaths_eq, groupedPaths_eq, Option.getD_some, Option.getD_some]
      simp only [List.flatMap_append, List.flatMap_cons]
      exact (((hrule.perm_paths.append_right _).append_left _).map _).append_left _
  | adopted origin group onEntry onExit rules before after _ ih =>
      rw [groupedPaths_eq, groupedPaths_eq]
      simp only [List.flatMap_append, List.flatMap_cons]
      exact ((ih.append_right _).append_left _).append_right _

end Scope

/-! ## Rows -/

/-- Where nothing overrides, every row stays where it is. -/
theorem Row.reconcileFrom_of_plain {standing rows : List (Row D)}
    (h : ∀ row ∈ rows, row.overrides = false) :
    reconcileFrom standing rows = (standing.reverse ++ rows, []) := by
  induction rows generalizing standing with
  | nil => rw [reconcileFrom, List.append_nil]
  | cons row later ih =>
      obtain ⟨hrow, hlater⟩ := List.forall_mem_cons.mp h
      simp only [reconcileFrom, settle_of_plain hrow, ih hlater, List.reverse_cons,
        List.append_assoc, List.singleton_append, List.nil_append]

/-- Where nothing overrides, validation only asks that no rule recurs. -/
theorem Row.validate_eq_ok_iff_of_plain {rows kept : List (Row D)}
    (h : ∀ row ∈ rows, row.overrides = false) :
    validate rows = .ok kept ↔ (rows.map key).Nodup ∧ kept = rows := by
  rw [validate_eq_ok_iff_reconcile, reconcile, reconcileFrom_of_plain h, List.reverse_nil,
    List.nil_append, Prod.mk.injEq, and_iff_left rfl]
  constructor
  · intro h
    rcases h with ⟨rfl, hkeys⟩
    exact ⟨hkeys, rfl⟩
  · intro h
    rcases h with ⟨hkeys, rfl⟩
    exact ⟨rfl, hkeys⟩

theorem DraftRow.overrides_of_resolved? {draft : DraftRow D} {row : Row D}
    (h : draft.resolved? = some row) : row.overrides = draft.overrides := by
  rw [resolved?, resolve] at h
  cases hchain : MatchChain.resolve draft.chain with
  | error errors =>
      rw [hchain] at h
      cases h
  | ok descriptor =>
      rw [hchain] at h
      cases h
      rfl

namespace Definition

/-- No path that counts for the definition passes a step that replaces earlier rules. -/
def OverridesNothing (definition : Definition D) : Prop :=
  ∀ scope ∈ definition.scope.lineage, ∀ path ∈ scope.ownPaths, path.overrides = false

instance (definition : Definition D) : Decidable definition.OverridesNothing :=
  inferInstanceAs (Decidable (∀ scope ∈ definition.scope.lineage, ∀ path ∈ scope.ownPaths,
    path.overrides = false))

/-- The definitions differ at most in their order and in the order of their rules. -/
inductive Rearranged : List (Definition D) → List (Definition D) → Prop where
  | perm {definitions others : List (Definition D)} :
      definitions.Perm others → Rearranged definitions others
  | trans {first second third : List (Definition D)} :
      Rearranged first second → Rearranged second third → Rearranged first third
  | scope (before : List (Definition D)) (states : List D.State) {scope other : Scope D}
      (after : List (Definition D)) :
      Scope.Rearranged scope other →
        Rearranged (before ++ ⟨states, scope⟩ :: after) (before ++ ⟨states, other⟩ :: after)

variable {definitions others : List (Definition D)}

theorem Rearranged.symm (h : Rearranged definitions others) : Rearranged others definitions := by
  induction h with
  | perm hperm => exact .perm hperm.symm
  | trans _ _ first second => exact .trans second first
  | scope before states after hscope => exact .scope before states after hscope.symm

theorem Rearranged.isComplete_iff (h : Rearranged definitions others) :
    (∀ definition ∈ definitions, definition.IsComplete) ↔
      ∀ definition ∈ others, definition.IsComplete := by
  induction h with
  | perm hperm => simp only [hperm.mem_iff]
  | trans _ _ first second => exact first.trans second
  | scope before states after hscope =>
      rename_i scope other
      have hmoved : IsComplete ⟨states, scope⟩ ↔ IsComplete ⟨states, other⟩ := by
        constructor
        · intro h
          exact ⟨h.states, hscope.isFilled_iff.mp h.filled, fun grouped hgrouped =>
            h.events grouped (hscope.perm_groupedPaths.mem_iff.mpr hgrouped)⟩
        · intro h
          exact ⟨h.states, hscope.isFilled_iff.mpr h.filled, fun grouped hgrouped =>
            h.events grouped (hscope.perm_groupedPaths.mem_iff.mp hgrouped)⟩
      simp only [List.forall_mem_append, List.forall_mem_cons, hmoved]

theorem Rearranged.perm_pathRows (h : Rearranged definitions others) :
    (definitions.flatMap pathRows).Perm (others.flatMap pathRows) := by
  induction h with
  | perm hperm => exact hperm.flatMap_right pathRows
  | trans _ _ first second => exact first.trans second
  | scope before states after hscope =>
      simp only [List.flatMap_append, List.flatMap_cons]
      refine (List.Perm.append_right _ ?_).append_left _
      rw [pathRows, pathRows, hscope.origin_eq]
      exact List.Perm.flatMap_left _ fun state _ => hscope.perm_groupedPaths.flatMap_right _

theorem Rearranged.exists_rows (h : Rearranged definitions others) {rows : List (Row D)}
    (hrows : Definition.rows definitions = .ok rows) :
    ∃ otherRows, Definition.rows others = .ok otherRows ∧ rows.Perm otherRows := by
  obtain ⟨⟨hcomplete, hresolved⟩, rfl⟩ := Definition.rows_eq_ok_iff.mp hrows
  refine ⟨_, Definition.rows_eq_ok_iff.mpr ⟨⟨h.isComplete_iff.mp hcomplete, ?_⟩, rfl⟩,
    h.perm_pathRows.filterMap _⟩
  exact fun draft hdraft => hresolved draft (h.perm_pathRows.mem_iff.mpr hdraft)

/-- A row overrides only if the path does that it comes from. -/
theorem overrides_pathRows (h : ∀ definition ∈ definitions, definition.OverridesNothing) :
    ∀ draft ∈ definitions.flatMap pathRows, draft.overrides = false := by
  intro draft hdraft
  obtain ⟨definition, hdefinition, hdraft⟩ := List.mem_flatMap.mp hdraft
  obtain ⟨state, -, hdraft⟩ := List.mem_flatMap.mp hdraft
  obtain ⟨⟨group, path⟩, hgrouped, hdraft⟩ := List.mem_flatMap.mp hdraft
  obtain ⟨scope, hscope, hgrouped⟩ := List.mem_flatMap.mp hgrouped
  obtain ⟨own, hown, heq⟩ := List.mem_map.mp hgrouped
  cases heq
  dsimp only at hdraft
  rw [Path.draftRows] at hdraft
  split at hdraft
  next => exact absurd hdraft List.not_mem_nil
  next =>
    obtain ⟨event, -, rfl⟩ := List.mem_map.mp hdraft
    exact h definition hdefinition scope hscope path hown

theorem Rearranged.exists_survivors (h : Rearranged definitions others)
    (hplain : ∀ draft ∈ definitions.flatMap pathRows, draft.overrides = false)
    {rows : List (Row D)} (hrows : Definition.survivors definitions = .ok rows) :
    ∃ otherRows, Definition.survivors others = .ok otherRows ∧ rows.Perm otherRows := by
  obtain ⟨declared, hdeclared, hsome, hvalidate⟩ := Definition.survivors_eq_ok_iff.mp hrows
  have hstays : ∀ row ∈ declared, row.overrides = false := by
    obtain ⟨-, rfl⟩ := Definition.rows_eq_ok_iff.mp hdeclared
    intro row hrow
    obtain ⟨draft, hdraft, hresolved⟩ := List.mem_filterMap.mp hrow
    rw [DraftRow.overrides_of_resolved? hresolved, hplain draft hdraft]
  obtain ⟨hkeys, rfl⟩ := (Row.validate_eq_ok_iff_of_plain hstays).mp hvalidate
  obtain ⟨otherRows, hothers, hperm⟩ := h.exists_rows hdeclared
  refine ⟨otherRows, Definition.survivors_eq_ok_iff.mpr ⟨otherRows, hothers, ?_, ?_⟩, hperm⟩
  · rintro rfl
    exact hsome hperm.eq_nil
  · exact (Row.validate_eq_ok_iff_of_plain fun row hrow => hstays row (hperm.mem_iff.mpr hrow)).mpr
      ⟨(hperm.map Row.key).nodup_iff.mp hkeys, rfl⟩

theorem Rearranged.exists_compile (h : Rearranged definitions others)
    (hplain : ∀ draft ∈ definitions.flatMap pathRows, draft.overrides = false)
    {config : Config} {table : Table D}
    (hcompile : Table.compile config definitions = .ok table) :
    ∃ counterpart, Table.compile config others = .ok counterpart := by
  obtain ⟨rows, hrows⟩ := Table.exists_survivors_of_compile hcompile
  obtain ⟨otherRows, hothers, hperm⟩ := h.exists_survivors hplain hrows
  exact Table.exists_compile_of_alike hrows hothers (.of_perm hperm) hcompile

/-- Under each key, the tables have the transition of a row that survives in both. -/
theorem find?_of_perm {rows otherRows : List (Row D)}
    (hrows : Definition.survivors definitions = .ok rows)
    (hothers : Definition.survivors others = .ok otherRows) (hperm : rows.Perm otherRows)
    {config : Config} {table counterpart : Table D}
    (hcompile : Table.compile config definitions = .ok table)
    (hcounterpart : Table.compile config others = .ok counterpart) {key : TableKey D}
    {transition : Transition D} (hfind : table.find? key = some transition) :
    ∃ row ∈ rows, table.find? key =
        some (Table.transitionOf definitions config.hookPolicy key row) ∧
      counterpart.find? key = some (Table.transitionOf others config.hookPolicy key row) := by
  obtain ⟨row, hrow, other, hother, hsame, rfl, hfound⟩ := Table.exists_find?_of_alike hrows
    hothers (.of_perm hperm) hcompile hcounterpart hfind
  -- No rule recurs among the rows, so the two are one.
  have heq : other = row := List.inj_on_of_nodup_map
    (Definition.nodup_map_key_of_survivors hrows) (hperm.mem_iff.mpr hother) hrow hsame.key_eq
  exact ⟨row, hrow, hfind, heq ▸ hfound⟩

/-- Where nothing overrides, the order of declaration is irrelevant. However the definitions,
the rules of a scope, adopted or not, and the rules of a block are rearranged, a table can be
compiled after it just if one can be compiled before. The same rows survive, and the tables
have entries under the same keys, both those of one row: with the same next state, condition
and origin, and actions that start with the row's own. -/
theorem compile_rearranged (h : Rearranged definitions others)
    (hplain : ∀ definition ∈ definitions, definition.OverridesNothing) (config : Config) :
    ((∃ counterpart, Table.compile config others = .ok counterpart) ↔
      ∃ table, Table.compile config definitions = .ok table) ∧
    ∀ table counterpart, Table.compile config definitions = .ok table →
      Table.compile config others = .ok counterpart →
      ∃ rows otherRows, Definition.survivors definitions = .ok rows ∧
        Definition.survivors others = .ok otherRows ∧ rows.Perm otherRows ∧
        ∀ key, (table.find? key = none ∧ counterpart.find? key = none) ∨
          ∃ row ∈ rows,
            table.find? key = some (Table.transitionOf definitions config.hookPolicy key row) ∧
            counterpart.find? key = some (Table.transitionOf others config.hookPolicy key row) := by
  have hdrafts := overrides_pathRows hplain
  have hotherDrafts : ∀ draft ∈ others.flatMap pathRows, draft.overrides = false :=
    fun draft hdraft => hdrafts draft (h.perm_pathRows.mem_iff.mpr hdraft)
  refine ⟨⟨fun ⟨_, hcompile⟩ => h.symm.exists_compile hotherDrafts hcompile,
    fun ⟨_, hcompile⟩ => h.exists_compile hdrafts hcompile⟩, ?_⟩
  intro table counterpart hcompile hcounterpart
  obtain ⟨rows, hrows⟩ := Table.exists_survivors_of_compile hcompile
  obtain ⟨otherRows, hothers, hperm⟩ := h.exists_survivors hdrafts hrows
  refine ⟨rows, otherRows, hrows, hothers, hperm, fun key => ?_⟩
  cases hfind : table.find? key with
  | some transition =>
      rw [← hfind]
      exact .inr (find?_of_perm hrows hothers hperm hcompile hcounterpart hfind)
  | none =>
      cases hother : counterpart.find? key with
      | none => exact .inl ⟨rfl, rfl⟩
      | some transition =>
          obtain ⟨row, -, -, hfound⟩ :=
            find?_of_perm hothers hrows hperm.symm hcounterpart hcompile hother
          rw [hfound] at hfind
          cases hfind

end Definition

/-! ## A sample -/

namespace Scenario

/-- At the highest level an open valve stays open in a rise, and shuts in a fall. -/
def highRules : List (Rule domain) :=
  [.chain (.whenEvent [rise]) default (.leaf (.thenState "open") default),
    .chain (.whenEvent [fall]) default (.leaf (.thenState "shut") default)]

/-- A valve that says what happens at the highest level by the given rules. -/
def valve (rules : List (Rule domain)) : Definition domain where
  states := ["open"]
  scope :=
    { origin := default
      group := ⟨1⟩
      adopted := []
      onEntry := [.plain (.mark "light")]
      onExit := []
      rules := some [
        .block (.matching (Descriptor.unconstrained.withAll [highest])) default rules,
        .chain (.whenEvent [rise]) default (.leaf (.thenState "shut") default)] }

def plant : List (Definition domain) :=
  [pump, valve highRules]

/-- The same plant with the valve in front and the rules in its block the other way round. -/
def turnedPlant : List (Definition domain) :=
  [valve highRules.reverse, pump]

end Scenario

theorem Definition.compile_rearranged_plant :
    Rearranged Scenario.plant Scenario.turnedPlant ∧
    (∀ definition ∈ Scenario.plant, definition.OverridesNothing) ∧
    ∃ table counterpart : Table Scenario.domain,
      Table.compile ⟨.lazy, .onChangeOnly⟩ Scenario.plant = .ok table ∧
      Table.compile ⟨.lazy, .onChangeOnly⟩ Scenario.turnedPlant = .ok counterpart ∧
      ∃ rows otherRows, Definition.survivors Scenario.plant = .ok rows ∧
        Definition.survivors Scenario.turnedPlant = .ok otherRows ∧ rows.Perm otherRows ∧
        ∀ key, (table.find? key = none ∧ counterpart.find? key = none) ∨
          ∃ row ∈ rows,
            table.find? key =
              some (Table.transitionOf Scenario.plant .onChangeOnly key row) ∧
            counterpart.find? key =
              some (Table.transitionOf Scenario.turnedPlant .onChangeOnly key row) := by
  have hturned : Rearranged Scenario.plant Scenario.turnedPlant := by
    have hscope : Scope.Rearranged (Scenario.valve Scenario.highRules).scope
        (Scenario.valve Scenario.highRules.reverse).scope :=
      .rule default ⟨1⟩ [] _ [] [] _ (.block _ default (List.reverse_perm _).symm)
    exact .trans (.scope [Scenario.pump] ["open"] [] hscope) (.perm (List.Perm.swap _ _ []))
  have hplain : ∀ definition ∈ Scenario.plant, definition.OverridesNothing := by decide
  have htables : ∃ table counterpart : Table Scenario.domain,
      Table.compile ⟨.lazy, .onChangeOnly⟩ Scenario.plant = .ok table ∧
      Table.compile ⟨.lazy, .onChangeOnly⟩ Scenario.turnedPlant = .ok counterpart :=
    ⟨_, _, rfl, rfl⟩
  obtain ⟨table, counterpart, hcompile, hcounterpart⟩ := htables
  exact ⟨hturned, hplain, table, counterpart, hcompile, hcounterpart,
    (compile_rearranged hturned hplain ⟨.lazy, .onChangeOnly⟩).2 table counterpart hcompile
      hcounterpart⟩

end RuleMachine
