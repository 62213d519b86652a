import Mathlib.Data.List.Basic
import RuleMachine.Proofs.Checked
import RuleMachine.Proofs.Rule.Path
import RuleMachine.Proofs.Table.Compilation
import RuleMachine.Row.Expansion

/-! # What rules expand to

Rules expand from their leaves back to the root, every step filling in what is still
open. What comes out can be said from the root down: each path gives one row for every
event of the innermost step that names any, and what else the row says is read off the
path. A definition has these rows of its whole lineage, once for each of its states.
-/

namespace RuleMachine

variable {D : Domain}

namespace Path

/-- The row of a path for an event that may still be open. -/
def openRow (group : RuleGroup) (leaf : Origin) (path : Path D)
    (event : Option (D.Event × Origin)) : OpenRow D where
  chain := path.chain
  event := event
  next := path.innermostThen
  actions := path.actions
  overrides := path.overrides
  group := group
  origin := leaf

/-- The rows of a path from a leaf written at some place: one for every event that the path
answers, and one without an event if it names none. -/
def rowsFrom (group : RuleGroup) (leaf : Origin) (path : Path D) : List (OpenRow D) :=
  match path.innermostWhen with
  | none => [path.openRow group leaf none]
  | some (events, origin) => events.map fun event => path.openRow group leaf (some (event, origin))

def openRows (group : RuleGroup) (path : Path D) : List (OpenRow D) :=
  path.rowsFrom group path.leafOrigin

theorem rowsFrom_nil (group : RuleGroup) (leaf : Origin) :
    rowsFrom group leaf ([] : Path D) = [.blank group leaf] := rfl

/-- What a row with an event takes over from a step above it. -/
theorem fill_openRow_some (group : RuleGroup) (leaf : Origin) (step : Step D) (origin : Origin)
    (path : Path D) (event : D.Event × Origin) :
    step.fill origin (path.openRow group leaf (some event)) =
      [openRow group leaf ((step, origin) :: path) (some event)] := by
  simp only [openRow, chain_cons, innermostThen_cons, actions_cons, overrides_cons]
  cases step <;>
    simp [Step.fill, Step.descriptor?, Step.next?, Step.ownActions, Step.overrides]

/-- A row whose event is open takes the events of the step above it too, if it names any. -/
theorem fill_openRow_none (group : RuleGroup) (leaf : Origin) (step : Step D) (origin : Origin)
    (path : Path D) :
    step.fill origin (path.openRow group leaf none) =
      match step.events? with
      | none => [openRow group leaf ((step, origin) :: path) none]
      | some events => events.map fun event =>
          openRow group leaf ((step, origin) :: path) (some (event, origin)) := by
  simp only [openRow, chain_cons, innermostThen_cons, actions_cons, overrides_cons]
  cases step <;>
    simp [Step.fill, Step.descriptor?, Step.events?, Step.next?, Step.ownActions, Step.overrides]

/-- What a step fills in below is what the path says once the step is on it. -/
theorem flatMap_fill (group : RuleGroup) (leaf : Origin) (step : Step D) (origin : Origin)
    (path : Path D) :
    (path.rowsFrom group leaf).flatMap (fun row => step.fill origin row) =
      rowsFrom group leaf ((step, origin) :: path) := by
  rw [rowsFrom, rowsFrom, innermostWhen_cons]
  cases path.innermostWhen with
  | none =>
      rw [List.flatMap_singleton, fill_openRow_none]
      cases step.events? <;> rfl
  | some when =>
      -- Every row has its event, so the step adds no row.
      simp only [List.flatMap_map, fill_openRow_some, ← List.map_eq_flatMap, Option.some_or]

end Path

/-- A step that can be extended at all adds to every row what it says. -/
theorem Step.extend_eq_ok_iff {origin : Origin} {step : Step D} {below rows : List (OpenRow D)} :
    step.extend origin below = .ok rows ↔
      step.events? ≠ some [] ∧ rows = below.flatMap (fun row => step.fill origin row) := by
  unfold extend
  split
  next => simp [events?]
  next hnonempty =>
    have hevents : step.events? ≠ some [] := by
      cases step <;> simp_all [events?]
    simp [hevents, eq_comm]

namespace Rule

theorem rows_block_cons (group : RuleGroup) (step : Step D) (origin : Origin) (rule : Rule D)
    (rest : List (Rule D)) : (block step origin (rule :: rest)).rows group =
      (eachRows group (rule :: rest)).bind (step.extend origin) := by
  rw [Rule.rows]
  exact List.cons_ne_nil rule rest

/-- Every path of a rule ends in a leaf. -/
theorem ne_nil_of_mem_paths {rule : Rule D} {path : Path D} (h : path ∈ rule.paths) :
    path ≠ [] := by
  cases rule with
  | leaf step origin =>
      rw [paths, List.mem_singleton] at h
      rw [h]
      exact List.cons_ne_nil _ _
  | chain step origin next =>
      rw [paths] at h
      obtain ⟨below, -, rfl⟩ := List.mem_map.mp h
      exact List.cons_ne_nil _ _
  | block step origin rules =>
      rw [paths] at h
      obtain ⟨below, -, rfl⟩ := List.mem_map.mp h
      exact List.cons_ne_nil _ _

theorem ne_nil_of_mem_blockPaths {rules : List (Rule D)} {path : Path D}
    (h : path ∈ blockPaths rules) : path ≠ [] := by
  rw [blockPaths_eq_flatMap] at h
  obtain ⟨rule, -, hpath⟩ := List.mem_flatMap.mp h
  exact ne_nil_of_mem_paths hpath

/-- Extending the rows of paths by a step gives the rows of the paths with the step on them. -/
theorem flatMap_openRows_map_cons (group : RuleGroup) (step : Step D) (origin : Origin)
    {paths : List (Path D)} (h : ∀ path ∈ paths, path ≠ []) :
    (paths.flatMap (Path.openRows group)).flatMap (fun row => step.fill origin row) =
      (paths.map ((step, origin) :: ·)).flatMap (Path.openRows group) := by
  rw [List.flatMap_assoc, List.flatMap_map]
  refine List.flatMap_congr fun path hpath => ?_
  rw [Path.openRows, Path.flatMap_fill, Path.openRows, Path.leafOrigin_cons _ _ (h path hpath)]

mutual

/-- The rows of a rule are those of its paths. -/
theorem rows_eq_of_ok {group : RuleGroup} :
    ∀ {rule : Rule D} {rows : List (OpenRow D)}, rule.rows group = .ok rows →
      rows = rule.paths.flatMap (Path.openRows group)
  | leaf step origin, rows, h => by
    rw [Rule.rows] at h
    obtain ⟨-, rfl⟩ := Step.extend_eq_ok_iff.mp h
    rw [paths, List.flatMap_singleton _ [(step, origin)], Path.openRows, ← Path.flatMap_fill,
      Path.rowsFrom_nil]
    rfl
  | chain step origin next, rows, h => by
    rw [Rule.rows] at h
    obtain ⟨below, hbelow, h⟩ := Checked.bind_eq_ok_iff.mp h
    obtain ⟨-, rfl⟩ := Step.extend_eq_ok_iff.mp h
    rw [rows_eq_of_ok hbelow, paths,
      flatMap_openRows_map_cons group step origin fun path => ne_nil_of_mem_paths]
  | block step origin [], rows, h => by
    rw [Rule.rows] at h
    cases h
  | block step origin (rule :: rest), rows, h => by
    rw [rows_block_cons] at h
    obtain ⟨below, hbelow, h⟩ := Checked.bind_eq_ok_iff.mp h
    obtain ⟨-, rfl⟩ := Step.extend_eq_ok_iff.mp h
    rw [eachRows_eq_of_ok hbelow, paths,
      flatMap_openRows_map_cons group step origin fun path => ne_nil_of_mem_blockPaths]

theorem eachRows_eq_of_ok {group : RuleGroup} :
    ∀ {rules : List (Rule D)} {rows : List (OpenRow D)}, eachRows group rules = .ok rows →
      rows = (blockPaths rules).flatMap (Path.openRows group)
  | [], rows, h => by
    rw [eachRows] at h
    cases h
    rfl
  | rule :: rest, rows, h => by
    rw [eachRows] at h
    obtain ⟨front, back, hfront, hback, rfl⟩ := Checked.append_eq_ok_iff.mp h
    rw [rows_eq_of_ok hfront, eachRows_eq_of_ok hback, blockPaths, List.flatMap_append]

end

/-- A rule list that is there gives the rows of its paths, and one that is not gives none. -/
theorem listRows_eq_of_ok {construct : Construct} {origin : Origin} {group : RuleGroup}
    {rules : Option (List (Rule D))} {rows : List (OpenRow D)}
    (h : listRows construct origin group rules = .ok rows) :
    rows = ((rules.getD []).flatMap paths).flatMap (Path.openRows group) := by
  rw [← blockPaths_eq_flatMap]
  match rules, h with
  | none, h =>
      cases h
      rfl
  | some (rule :: rest), h => exact eachRows_eq_of_ok h

end Rule

namespace Scope

/-- The rows of a scope's own rules, in the group of the scope. -/
def ownRows (scope : Scope D) : List (OpenRow D) :=
  scope.ownPaths.flatMap (Path.openRows scope.group)

mutual

/-- The rows of a scope are those of its lineage. -/
theorem rows_eq_of_ok {construct : Construct} :
    ∀ {scope : Scope D} {rows : List (OpenRow D)}, scope.rows construct = .ok rows →
      rows = scope.lineage.flatMap ownRows
  | ⟨origin, group, adopted, onEntry, onExit, rules⟩, rows, h => by
    rw [Scope.rows] at h
    obtain ⟨inherited, own, hinherited, hown, rfl⟩ := Checked.append_eq_ok_iff.mp h
    rw [adoptedRows_eq_of_ok hinherited, Rule.listRows_eq_of_ok hown, lineage,
      List.flatMap_append, List.flatMap_singleton]
    rfl

theorem adoptedRows_eq_of_ok :
    ∀ {scopes : List (Scope D)} {rows : List (OpenRow D)}, adoptedRows scopes = .ok rows →
      rows = (adoptedLineage scopes).flatMap ownRows
  | [], rows, h => by
    rw [adoptedRows] at h
    cases h
    rfl
  | scope :: rest, rows, h => by
    rw [adoptedRows] at h
    obtain ⟨front, back, hfront, hback, rfl⟩ := Checked.append_eq_ok_iff.mp h
    rw [rows_eq_of_ok hfront, adoptedRows_eq_of_ok hback, adoptedLineage, List.flatMap_append]

end

end Scope

/-- Rows can be completed when each of them has its event. -/
theorem OpenRow.gather_requireEvent_eq_ok_iff {rows : List (OpenRow D)}
    {complete : List (OpenRow D × D.Event × Origin)} :
    Checked.gather (rows.map requireEvent) = .ok complete ↔
      (∀ row ∈ rows, row.event ≠ none) ∧
        complete = rows.filterMap (fun row => row.event.map (fun event => (row, event))) := by
  induction rows generalizing complete with
  | nil => simp [Checked.gather, eq_comm]
  | cons row rest ih =>
      rw [List.map_cons, Checked.gather, Checked.append_eq_ok_iff]
      cases hevent : row.event with
      | none => simp [requireEvent, hevent]
      | some event =>
          simp [requireEvent, hevent, ih]

namespace Path

/-- The row of a path in a state, for one event. Where the path names no next state, the row
leads back to the state and has the origin of the definition for it. -/
def draftRow (stateOrigin : Origin) (group : RuleGroup) (state : D.State) (path : Path D)
    (event : D.Event) (eventOrigin : Origin) : DraftRow D where
  chain := path.chain
  state := state
  event := event
  next := (path.innermostThen.getD (state, stateOrigin)).1
  actions := path.actions
  overrides := path.overrides
  group := group
  stateOrigin := stateOrigin
  eventOrigin := eventOrigin
  nextOrigin := (path.innermostThen.getD (state, stateOrigin)).2

/-- The rows of a path in a state: one for each event of the innermost step that names any. -/
def draftRows (stateOrigin : Origin) (group : RuleGroup) (state : D.State) (path : Path D) :
    List (DraftRow D) :=
  match path.innermostWhen with
  | none => []
  | some (events, eventOrigin) => events.map fun event =>
      path.draftRow stateOrigin group state event eventOrigin

/-- Completing the rows of a path and binding them to a state gives the rows of the path there. -/
theorem map_bindTo_openRows (stateOrigin : Origin) (group : RuleGroup) (state : D.State)
    (path : Path D) :
    ((path.openRows group).filterMap (fun row => row.event.map (fun event => (row, event)))).map
        (fun (row, event, origin) => row.bindTo event origin state stateOrigin) =
      path.draftRows stateOrigin group state := by
  rw [openRows, rowsFrom, draftRows]
  cases path.innermostWhen with
  | none => rfl
  | some when => simp [openRow, List.filterMap_map, Function.comp_def, OpenRow.bindTo, draftRow]

end Path

namespace Definition

/-- Whatever steps, blocks and adopted scopes a definition is made of, if it expands then its
rows are those of its paths: state by state, through the lineage of its scope, rule by rule
and path by path, one row for each event of the innermost step of the path that names any,
and there always is such a step. -/
theorem draftRows_follow_paths {definition : Definition D} {rows : List (DraftRow D)}
    (h : definition.draftRows = .ok rows) :
    (rows = definition.states.flatMap fun state =>
      definition.scope.lineage.flatMap fun scope =>
        scope.ownRules.flatMap fun rule =>
          rule.paths.flatMap (Path.draftRows definition.scope.origin scope.group state)) ∧
    ∀ scope ∈ definition.scope.lineage, ∀ rule ∈ scope.ownRules, ∀ path ∈ rule.paths,
      Path.innermostWhen path ≠ none := by
  unfold draftRows at h
  split at h
  next => cases h
  next =>
    obtain ⟨openRows, hopen, h⟩ := Checked.bind_eq_ok_iff.mp h
    obtain ⟨complete, hcomplete, h⟩ := Checked.bind_eq_ok_iff.mp h
    cases h
    obtain ⟨hevents, rfl⟩ := OpenRow.gather_requireEvent_eq_ok_iff.mp hcomplete
    rw [Scope.rows_eq_of_ok hopen] at hevents ⊢
    constructor
    · refine List.flatMap_congr fun state _ => ?_
      simp only [List.filterMap_flatMap, List.map_flatMap, Scope.ownRows, Scope.ownPaths,
        List.flatMap_assoc, Path.map_bindTo_openRows]
    · intro scope hscope rule hrule path hpath hnone
      -- A path that names no event would have left a row without one.
      have hown : path ∈ scope.ownPaths := List.mem_flatMap.mpr ⟨rule, hrule, hpath⟩
      have hrow : Path.openRow scope.group (Path.leafOrigin path) path none ∈
          Path.openRows scope.group path := by
        rw [Path.openRows, Path.rowsFrom, hnone]
        exact List.mem_singleton_self _
      exact hevents _ (List.mem_flatMap.mpr ⟨scope, hscope,
        List.mem_flatMap.mpr ⟨path, hown, hrow⟩⟩) rfl

end Definition

/-! ## A sample -/

namespace Scenario

def fall : Event := ⟨"fall", none⟩

/-- Whatever is drained comes to rest when the level falls. -/
def drained : Scope domain where
  origin := default
  group := ⟨1⟩
  adopted := []
  onEntry := []
  onExit := []
  rules := some [.chain (.whenEvent [fall]) default (.leaf (.thenState "idle") default)]

/-- At the highest level a lift runs fast, whichever way the level goes. -/
def lift : Scope domain where
  origin := default
  group := ⟨2⟩
  adopted := [drained]
  onEntry := []
  onExit := []
  rules := some [
    .block (.matching (Descriptor.unconstrained.withAll [highest])) default [
      .chain (.whenEvent [rise, fall]) default (.leaf (.thenState "fast") default),
      .leaf (.whenEvent [rise]) default]]

/-- A station is a lift in two states. It replaces what the lift says of a rise, and a step
inside a block names another event than the step around it. -/
def station : Definition domain where
  states := ["idle", "slow"]
  scope :=
    { origin := default
      group := ⟨0⟩
      adopted := [lift]
      onEntry := []
      onExit := []
      rules := some [
        .override default [
          .chain (.whenEvent [rise]) default (.leaf (.thenState "slow") default)],
        .chain (.whenEvent [fall]) default (.block (.actions [.plain (.mark "count")]) default [
          .leaf (.whenEvent [rise]) default,
          .leaf (.thenState "idle") default])] }

/-- The rows of the station in short: state, event, next state, group, and whether they
override. In either state there is a row from what is drained, and three rows each from the
lift and from the station itself. -/
def stationCourses : List (String × String × String × Nat × Bool) :=
  ["idle", "slow"].flatMap fun state =>
    [(state, "fall", "idle", 1, false), (state, "rise", "fast", 2, false),
      (state, "fall", "fast", 2, false), (state, "rise", state, 2, false),
      (state, "rise", "slow", 0, true), (state, "rise", state, 0, false),
      (state, "fall", "idle", 0, false)]

end Scenario

theorem Definition.draftRows_follow_paths_station :
    ∃ rows, Scenario.station.draftRows = .ok rows ∧
      rows.map (fun row => (row.state, row.event.name, row.next, row.group.id, row.overrides)) =
        Scenario.stationCourses ∧
      rows = ["idle", "slow"].flatMap fun state =>
        [Scenario.drained, Scenario.lift, Scenario.station.scope].flatMap fun scope =>
          scope.ownRules.flatMap fun rule =>
            rule.paths.flatMap (Path.draftRows default scope.group state) := by
  have hexpands : ∃ rows, Scenario.station.draftRows = .ok rows ∧
      rows.map (fun row => (row.state, row.event.name, row.next, row.group.id, row.overrides)) =
        Scenario.stationCourses := ⟨_, rfl, rfl⟩
  obtain ⟨rows, hrows, hcourses⟩ := hexpands
  exact ⟨rows, hrows, hcourses, (Definition.draftRows_follow_paths hrows).1⟩

end RuleMachine
