import Mathlib.Data.List.Basic
import RuleMachine.Proofs.Match.Validity
import RuleMachine.Proofs.Row.Expansion

/-! # Which declarations expand

Declarations expand unless something in them is missing: a rule list, a block or a step for
events that is there must hold something, every definition needs a state, and every path
an event. The rows are then those of the paths, and each of them needs a match that
resolves. Nothing else is looked at, and what one declaration lacks never depends on the
declarations around it.
-/

namespace RuleMachine

variable {D : Domain}

/-! ## Rules -/

/-- Extending by a step fails only below the step, or if it asks for one of no events. -/
theorem Step.exists_bind_extend_iff {origin : Origin} {step : Step D}
    {below : Checked (BuildError D) (List (OpenRow D))} :
    (∃ rows, below.bind (step.extend origin) = .ok rows) ↔
      (∃ rows, below = .ok rows) ∧ step.events? ≠ some [] := by
  simp only [Checked.bind_eq_ok_iff, extend_eq_ok_iff]
  constructor
  · intro h
    rcases h with ⟨_, rows, hbelow, hevents, -⟩
    exact ⟨⟨rows, hbelow⟩, hevents⟩
  · intro h
    rcases h with ⟨⟨rows, hbelow⟩, hevents⟩
    exact ⟨_, rows, hbelow, hevents, rfl⟩

namespace Rule

mutual

/-- No block in the rule is without rules, and no step in it asks for one of no events. -/
def IsFilled : Rule D → Prop
  | leaf step _ => step.events? ≠ some []
  | chain step _ next => next.IsFilled ∧ step.events? ≠ some []
  | block step _ rules => (rules ≠ [] ∧ EachFilled rules) ∧ step.events? ≠ some []

def EachFilled : List (Rule D) → Prop
  | [] => True
  | rule :: rest => rule.IsFilled ∧ EachFilled rest

end

theorem eachFilled_iff {rules : List (Rule D)} :
    EachFilled rules ↔ ∀ rule ∈ rules, rule.IsFilled := by
  induction rules with
  | nil => simp [EachFilled]
  | cons rule rest ih => rw [EachFilled, ih, List.forall_mem_cons]

mutual

theorem exists_rows_iff (group : RuleGroup) :
    ∀ rule : Rule D, (∃ rows, rule.rows group = .ok rows) ↔ rule.IsFilled
  | leaf step origin => by
    simp only [Rule.rows, Step.extend_eq_ok_iff, exists_and_left, exists_eq, and_true, IsFilled]
  | chain step origin next => by
    simp only [Rule.rows, Step.exists_bind_extend_iff, exists_rows_iff group next, IsFilled]
  | block step origin [] => by
    simp [Rule.rows, IsFilled]
  | block step origin (rule :: rest) => by
    simp only [rows_block_cons, Step.exists_bind_extend_iff,
      exists_eachRows_iff group (rule :: rest), IsFilled, ne_eq, reduceCtorEq, not_false_eq_true,
      true_and]

theorem exists_eachRows_iff (group : RuleGroup) :
    ∀ rules : List (Rule D), (∃ rows, eachRows group rules = .ok rows) ↔ EachFilled rules
  | [] => by
    simp [eachRows, EachFilled]
  | rule :: rest => by
    simp only [eachRows, Checked.exists_append_eq_ok_iff, exists_rows_iff group rule,
      exists_eachRows_iff group rest, EachFilled]

end

theorem exists_listRows_iff {construct : Construct} {origin : Origin} {group : RuleGroup}
    {rules : Option (List (Rule D))} :
    (∃ rows, listRows construct origin group rules = .ok rows) ↔
      rules ≠ some [] ∧ ∀ rule ∈ rules.getD [], rule.IsFilled := by
  match rules with
  | none => simp [listRows]
  | some [] => simp [listRows]
  | some (rule :: rest) =>
      rw [listRows, exists_eachRows_iff, eachFilled_iff]
      · simp
      · exact List.cons_ne_nil rule rest

end Rule

/-! ## Scopes -/

namespace Scope

/-- The rules that the scope itself declares are there if it declares any, and have no gaps. -/
def IsFilled (scope : Scope D) : Prop :=
  scope.rules ≠ some [] ∧ ∀ rule ∈ scope.ownRules, rule.IsFilled

mutual

theorem exists_rows_iff (construct : Construct) :
    ∀ scope : Scope D, (∃ rows, scope.rows construct = .ok rows) ↔
      ∀ member ∈ scope.lineage, member.IsFilled
  | ⟨origin, group, adopted, onEntry, onExit, rules⟩ => by
    simp only [Scope.rows, Checked.exists_append_eq_ok_iff, exists_adoptedRows_iff adopted,
      Rule.exists_listRows_iff, lineage, List.forall_mem_append, List.forall_mem_singleton]
    rfl

theorem exists_adoptedRows_iff :
    ∀ scopes : List (Scope D), (∃ rows, adoptedRows scopes = .ok rows) ↔
      ∀ member ∈ adoptedLineage scopes, member.IsFilled
  | [] => by
    simp [adoptedRows, adoptedLineage]
  | scope :: rest => by
    simp only [adoptedRows, Checked.exists_append_eq_ok_iff, exists_rows_iff .superstate scope,
      exists_adoptedRows_iff rest, adoptedLineage, List.forall_mem_append]

end

theorem rows_eq_ok_iff {construct : Construct} {scope : Scope D} {rows : List (OpenRow D)} :
    scope.rows construct = .ok rows ↔
      (∀ member ∈ scope.lineage, member.IsFilled) ∧ rows = scope.lineage.flatMap ownRows := by
  constructor
  · intro h
    exact ⟨(exists_rows_iff construct scope).mp ⟨rows, h⟩, rows_eq_of_ok h⟩
  · intro h
    rcases h with ⟨hfilled, rfl⟩
    obtain ⟨rows, hrows⟩ := (exists_rows_iff construct scope).mpr hfilled
    rw [hrows, rows_eq_of_ok hrows]

/-- The paths that count for a scope, each in the group it was declared in: those of what it
adopts, then its own. -/
def groupedPaths (scope : Scope D) : List (RuleGroup × Path D) :=
  scope.lineage.flatMap fun member => member.ownPaths.map (fun path => (member.group, path))

theorem flatMap_ownRows (scope : Scope D) :
    scope.lineage.flatMap ownRows =
      scope.groupedPaths.flatMap (fun grouped => grouped.2.openRows grouped.1) := by
  simp only [groupedPaths, List.flatMap_assoc, List.flatMap_map]
  rfl

end Scope

/-! ## Definitions -/

/-- All rows of a path have their event if the path names any. -/
theorem Path.event_ne_none_iff {group : RuleGroup} {path : Path D} :
    (∀ row ∈ path.openRows group, row.event ≠ none) ↔ path.innermostWhen ≠ none := by
  rw [openRows, rowsFrom]
  cases path.innermostWhen with
  | none => simp [openRow]
  | some when => simp [openRow]

namespace Definition

/-- Nothing that the definition needs in order to expand is missing. -/
structure IsComplete (definition : Definition D) : Prop where
  states : definition.states ≠ []
  filled : ∀ scope ∈ definition.scope.lineage, scope.IsFilled
  events : ∀ grouped ∈ definition.scope.groupedPaths, Path.innermostWhen grouped.2 ≠ none

/-- The rows that the paths of a definition come to in its states. -/
def pathRows (definition : Definition D) : List (DraftRow D) :=
  definition.states.flatMap fun state =>
    definition.scope.groupedPaths.flatMap fun grouped =>
      grouped.2.draftRows definition.scope.origin grouped.1 state

theorem draftRows_eq_ok_iff {definition : Definition D} {rows : List (DraftRow D)} :
    definition.draftRows = .ok rows ↔ definition.IsComplete ∧ rows = definition.pathRows := by
  have hevents : (∀ row ∈ definition.scope.lineage.flatMap Scope.ownRows, row.event ≠ none) ↔
      ∀ grouped ∈ definition.scope.groupedPaths, Path.innermostWhen grouped.2 ≠ none := by
    rw [Scope.flatMap_ownRows, List.forall_mem_flatMap]
    exact forall₂_congr fun grouped _ => Path.event_ne_none_iff
  unfold draftRows
  split
  next hnone =>
    exact iff_of_false (by simp) fun h => h.1.states (List.isEmpty_iff.mp hnone)
  next hsome =>
    have hstates : definition.states ≠ [] := fun hnone => hsome (List.isEmpty_iff.mpr hnone)
    constructor
    · intro h
      obtain ⟨openRows, hopen, h⟩ := Checked.bind_eq_ok_iff.mp h
      obtain ⟨complete, hcomplete, h⟩ := Checked.bind_eq_ok_iff.mp h
      obtain ⟨hfilled, rfl⟩ := Scope.rows_eq_ok_iff.mp hopen
      obtain ⟨hnamed, rfl⟩ := OpenRow.gather_requireEvent_eq_ok_iff.mp hcomplete
      cases h
      refine ⟨⟨hstates, hfilled, hevents.mp hnamed⟩, List.flatMap_congr fun state _ => ?_⟩
      simp only [Scope.flatMap_ownRows, List.filterMap_flatMap, List.map_flatMap,
        Path.map_bindTo_openRows]
    · intro h
      rcases h with ⟨hcomplete, rfl⟩
      refine Checked.bind_eq_ok_iff.mpr ⟨_, Scope.rows_eq_ok_iff.mpr ⟨hcomplete.filled, rfl⟩, ?_⟩
      refine Checked.bind_eq_ok_iff.mpr ⟨_, OpenRow.gather_requireEvent_eq_ok_iff.mpr
        ⟨hevents.mpr hcomplete.events, rfl⟩, ?_⟩
      refine congrArg Except.ok (List.flatMap_congr fun state _ => ?_)
      simp only [Scope.flatMap_ownRows, List.filterMap_flatMap, List.map_flatMap,
        Path.map_bindTo_openRows]

end Definition

/-! ## Matches -/

namespace DraftRow

/-- The row with its match resolved, if the match resolves. -/
def resolved? (row : DraftRow D) : Option (Row D) :=
  row.resolve.toOption

theorem errors_resolve_eq_nil_iff {row : DraftRow D} :
    Checked.errors row.resolve = [] ↔ row.resolved? ≠ none := by
  rw [resolved?, resolve]
  cases hchain : MatchChain.resolve row.chain with
  | ok descriptor => simp [Except.map, Checked.errors, Except.toOption]
  | error errors =>
      simpa [Except.map, Checked.errors, Except.toOption] using MatchChain.ne_nil_of_resolve hchain

theorem resolveAll_eq_ok_iff {drafts : List (DraftRow D)} {rows : List (Row D)} :
    resolveAll drafts = .ok rows ↔
      (∀ draft ∈ drafts, draft.resolved? ≠ none) ∧ rows = drafts.filterMap resolved? := by
  simp only [← errors_resolve_eq_nil_iff, ← List.flatMap_eq_nil_iff]
  rw [resolveAll]
  split
  next hnone =>
    rw [hnone, Except.ok.injEq, and_iff_right rfl, eq_comm]
    rfl
  next hsome => exact iff_of_false (by simp) fun h => hsome h.1

end DraftRow

theorem Definition.gather_draftRows_eq_ok_iff {definitions : List (Definition D)}
    {drafts : List (DraftRow D)} : Checked.gather (definitions.map draftRows) = .ok drafts ↔
      (∀ definition ∈ definitions, definition.IsComplete) ∧
        drafts = definitions.flatMap pathRows :=
  Checked.gather_map_eq_ok_iff fun _ _ => draftRows_eq_ok_iff

/-- Definitions come to rows when each of them is complete and every match resolves. The rows
are those of the paths, in the order of declaration. -/
theorem Definition.rows_eq_ok_iff {definitions : List (Definition D)} {rows : List (Row D)} :
    Definition.rows definitions = .ok rows ↔
      ((∀ definition ∈ definitions, definition.IsComplete) ∧
        ∀ draft ∈ definitions.flatMap pathRows, draft.resolved? ≠ none) ∧
      rows = (definitions.flatMap pathRows).filterMap DraftRow.resolved? := by
  simp only [Definition.rows, Checked.bind_eq_ok_iff, gather_draftRows_eq_ok_iff,
    DraftRow.resolveAll_eq_ok_iff]
  constructor
  · intro h
    rcases h with ⟨_, ⟨hcomplete, rfl⟩, hresolved, rfl⟩
    exact ⟨⟨hcomplete, hresolved⟩, rfl⟩
  · intro h
    rcases h with ⟨⟨hcomplete, hresolved⟩, rfl⟩
    exact ⟨_, ⟨hcomplete, rfl⟩, hresolved, rfl⟩

end RuleMachine
