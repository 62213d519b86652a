import RuleMachine.Proofs.Scope.Desugaring

/-! # What is reported about declarations

Declarations that do not come to rows either have gaps or have matches that do not resolve,
and matches are only looked at when there are no gaps. The faults of the matches are then
those of the paths, each reported once. A path that is bound to several states and events
has the same faults each time, so it does not show how many there are.
-/

namespace RuleMachine

variable {D : Domain}

/-! ## Gaps -/

/-- Something is missing: the content of a block, or the event of a rule. -/
def BuildError.IsGap {V : Vocabulary} : BuildError V → Prop
  | emptyBlock _ _ | missingEvent _ => True
  | _ => False

theorem Step.isGap_of_mem_extend {origin : Origin} {step : Step D} {rows : List (OpenRow D)}
    {error : BuildError D} (h : error ∈ Checked.errors (step.extend origin rows)) :
    error.IsGap := by
  unfold extend at h
  split at h
  next =>
    rw [List.mem_singleton.mp h]
    trivial
  next => exact absurd h List.not_mem_nil

namespace Rule

mutual

theorem isGap_of_mem_rows {group : RuleGroup} {error : BuildError D} :
    ∀ {rule : Rule D}, error ∈ Checked.errors (rule.rows group) → error.IsGap
  | leaf step origin, h => Step.isGap_of_mem_extend h
  | chain step origin next, h => by
    rcases Checked.mem_errors_bind_iff.mp h with hbelow | ⟨rows, -, hstep⟩
    · exact isGap_of_mem_rows hbelow
    · exact Step.isGap_of_mem_extend hstep
  | block step origin [], h => by
    rw [List.mem_singleton.mp h]
    trivial
  | block step origin (rule :: rest), h => by
    rw [rows_block_cons] at h
    rcases Checked.mem_errors_bind_iff.mp h with hbelow | ⟨rows, -, hstep⟩
    · exact isGap_of_mem_eachRows hbelow
    · exact Step.isGap_of_mem_extend hstep

theorem isGap_of_mem_eachRows {group : RuleGroup} {error : BuildError D} :
    ∀ {rules : List (Rule D)}, error ∈ Checked.errors (eachRows group rules) → error.IsGap
  | [], h => absurd h List.not_mem_nil
  | rule :: rest, h => by
    rw [eachRows, Checked.errors_append] at h
    rcases List.mem_append.mp h with hrule | hrest
    · exact isGap_of_mem_rows hrule
    · exact isGap_of_mem_eachRows hrest

end

theorem isGap_of_mem_listRows {construct : Construct} {origin : Origin} {group : RuleGroup}
    {rules : Option (List (Rule D))} {error : BuildError D}
    (h : error ∈ Checked.errors (listRows construct origin group rules)) : error.IsGap := by
  match rules, h with
  | none, h => exact absurd h List.not_mem_nil
  | some [], h =>
    rw [List.mem_singleton.mp h]
    trivial
  | some (rule :: rest), h => exact isGap_of_mem_eachRows h

mutual

/-- In a rule without gaps no path passes a step that asks for one of no events. -/
theorem events_ne_of_mem_paths :
    ∀ {rule : Rule D}, rule.IsFilled → ∀ path ∈ rule.paths, ∀ entry ∈ path,
      entry.1.events? ≠ some []
  | leaf step origin, hfilled, path, hpath, entry, hentry => by
    obtain rfl := List.mem_singleton.mp hpath
    obtain rfl := List.mem_singleton.mp hentry
    exact hfilled
  | chain step origin next, hfilled, path, hpath, entry, hentry => by
    obtain ⟨below, hbelow, rfl⟩ := List.mem_map.mp hpath
    rcases List.mem_cons.mp hentry with rfl | hentry
    · exact hfilled.2
    · exact events_ne_of_mem_paths hfilled.1 below hbelow entry hentry
  | block step origin rules, hfilled, path, hpath, entry, hentry => by
    obtain ⟨below, hbelow, rfl⟩ := List.mem_map.mp hpath
    rcases List.mem_cons.mp hentry with rfl | hentry
    · exact hfilled.2
    · exact events_ne_of_mem_blockPaths hfilled.1.2 below hbelow entry hentry

theorem events_ne_of_mem_blockPaths :
    ∀ {rules : List (Rule D)}, EachFilled rules → ∀ path ∈ blockPaths rules, ∀ entry ∈ path,
      entry.1.events? ≠ some []
  | [], _, path, hpath => absurd hpath List.not_mem_nil
  | rule :: rest, hfilled, path, hpath => by
    rcases List.mem_append.mp hpath with hrule | hrest
    · exact events_ne_of_mem_paths hfilled.1 path hrule
    · exact events_ne_of_mem_blockPaths hfilled.2 path hrest

end

end Rule

namespace Scope

mutual

theorem isGap_of_mem_rows {construct : Construct} {error : BuildError D} :
    ∀ {scope : Scope D}, error ∈ Checked.errors (scope.rows construct) → error.IsGap
  | ⟨origin, group, adopted, onEntry, onExit, rules⟩, h => by
    rw [Scope.rows, Checked.errors_append] at h
    rcases List.mem_append.mp h with hadopted | hown
    · exact isGap_of_mem_adoptedRows hadopted
    · exact Rule.isGap_of_mem_listRows hown

theorem isGap_of_mem_adoptedRows {error : BuildError D} :
    ∀ {scopes : List (Scope D)}, error ∈ Checked.errors (adoptedRows scopes) → error.IsGap
  | [], h => absurd h List.not_mem_nil
  | scope :: rest, h => by
    rw [adoptedRows, Checked.errors_append] at h
    rcases List.mem_append.mp h with hscope | hrest
    · exact isGap_of_mem_rows hscope
    · exact isGap_of_mem_adoptedRows hrest

end

end Scope

theorem OpenRow.isGap_of_mem_requireEvent {row : OpenRow D} {error : BuildError D}
    (h : error ∈ Checked.errors row.requireEvent) : error.IsGap := by
  unfold requireEvent at h
  split at h
  next => exact absurd h List.not_mem_nil
  next =>
    rw [List.mem_singleton.mp h]
    trivial

theorem Definition.isGap_of_mem_draftRows {definition : Definition D} {error : BuildError D}
    (h : error ∈ Checked.errors definition.draftRows) : error.IsGap := by
  unfold draftRows at h
  split at h
  next =>
    rw [List.mem_singleton.mp h]
    trivial
  next =>
    rcases Checked.mem_errors_bind_iff.mp h with hscope | ⟨rows, -, hrest⟩
    · exact Scope.isGap_of_mem_rows hscope
    · rcases Checked.mem_errors_bind_iff.mp hrest with hevent | ⟨complete, -, hnone⟩
      · rw [Checked.errors_gather, List.flatMap_map] at hevent
        obtain ⟨row, -, herror⟩ := List.mem_flatMap.mp hevent
        exact OpenRow.isGap_of_mem_requireEvent herror
      · exact absurd hnone List.not_mem_nil

/-! ## Faults of matches -/

/-- What is wrong with a chain, nothing if it resolves. -/
def MatchChain.faults (chain : MatchChain D) : List (MatchError D) :=
  Checked.errors (resolve chain)

theorem MatchChain.faults_eq_nil_iff {chain : MatchChain D} :
    faults chain = [] ↔ ∃ resolved, resolve chain = .ok resolved := by
  rw [faults]
  cases hresolve : resolve chain with
  | ok resolved => simp [Checked.errors]
  | error errors => simpa [Checked.errors] using ne_nil_of_resolve hresolve

namespace DraftRow

def faults (row : DraftRow D) : List (MatchError D) :=
  MatchChain.faults row.chain

theorem errors_resolve (row : DraftRow D) : Checked.errors row.resolve = row.faults := by
  rw [resolve, faults, MatchChain.faults]
  cases MatchChain.resolve row.chain <;> rfl

theorem errors_resolveAll (rows : List (DraftRow D)) :
    Checked.errors (resolveAll rows) = (distinct (rows.flatMap faults)).map .malformedMatch := by
  simp only [resolveAll, errors_resolve]
  split
  next hnone => rw [hnone]; rfl
  next => rfl

end DraftRow

namespace Path

theorem innermostWhen_ne_none_iff {path : Path D} :
    path.innermostWhen ≠ none ↔
      ∃ events origin, (Step.whenEvent events, origin) ∈ path := by
  have hwhen : ∀ step : Step D, step.events? ≠ none ↔ ∃ events, step = .whenEvent events := by
    intro step
    cases step <;> simp [Step.events?]
  simp only [innermostWhen, ne_eq, List.getLast?_eq_none_iff, whens, List.filterMap_eq_nil_iff,
    Option.map_eq_none_iff]
  push Not
  constructor
  · rintro ⟨⟨step, origin⟩, hentry, hevents⟩
    obtain ⟨events, rfl⟩ := (hwhen step).mp hevents
    exact ⟨events, origin, hentry⟩
  · rintro ⟨events, origin, hentry⟩
    exact ⟨_, hentry, (hwhen _).mpr ⟨events, rfl⟩⟩

/-- If no step asks for one of no events, then neither do those that count. -/
theorem events_ne_of_innermostWhen {path : Path D}
    (hpath : ∀ entry ∈ path, entry.1.events? ≠ some []) {events : List D.Event}
    {origin : Origin} (hwhen : path.innermostWhen = some (events, origin)) : events ≠ [] := by
  obtain ⟨entry, hentry, hevents⟩ := List.mem_filterMap.mp (List.mem_of_getLast? hwhen)
  obtain ⟨_, hnamed, heq⟩ := Option.map_eq_some_iff.mp hevents
  obtain ⟨rfl, -⟩ := Prod.mk.inj heq
  rintro rfl
  exact hpath entry hentry hnamed

/-- All rows of a path in a state have the faults of the path. -/
theorem addsAlike_draftRows {path : Path D} {events : List D.Event} {origin : Origin}
    (hwhen : path.innermostWhen = some (events, origin)) (hevents : events ≠ [])
    (stateOrigin : Origin) (group : RuleGroup) (state : D.State) :
    AddsAlike ((path.draftRows stateOrigin group state).flatMap DraftRow.faults)
      (MatchChain.faults path.chain) := by
  rw [draftRows, hwhen, List.flatMap_map]
  exact AddsAlike.flatMap_const hevents (MatchChain.faults path.chain)

end Path

namespace Definition

/-- The faults of all paths that count for the definitions, path by path. -/
def matchFaults (definitions : List (Definition D)) : List (MatchError D) :=
  definitions.flatMap fun definition =>
    definition.scope.allPaths.flatMap fun path => MatchChain.faults path.chain

/-- What makes a definition complete can be said of the steps on its paths. -/
theorem isComplete_iff_steps {definition : Definition D} :
    definition.IsComplete ↔ definition.states ≠ [] ∧
      (∀ scope ∈ definition.scope.lineage, scope.rules ≠ some []) ∧
      (∀ rule ∈ definition.scope.allRules, rule.IsFilled) ∧
      ∀ path ∈ definition.scope.allPaths,
        ∃ events origin, (Step.whenEvent events, origin) ∈ path := by
  simp only [isComplete_iff, Path.innermostWhen_ne_none_iff]

/-- Each path of a complete definition answers some event. -/
theorem IsComplete.exists_innermostWhen {definition : Definition D}
    (h : definition.IsComplete) {path : Path D} (hpath : path ∈ definition.scope.allPaths) :
    ∃ events origin, path.innermostWhen = some (events, origin) ∧ events ≠ [] := by
  obtain ⟨-, -, hfilled, hnamed⟩ := isComplete_iff.mp h
  obtain ⟨⟨events, origin⟩, hwhen⟩ := Option.ne_none_iff_exists'.mp (hnamed path hpath)
  obtain ⟨rule, hrule, hmem⟩ := List.mem_flatMap.mp hpath
  exact ⟨events, origin, hwhen, Path.events_ne_of_innermostWhen
    (Rule.events_ne_of_mem_paths (hfilled rule hrule) path hmem) hwhen⟩

theorem IsComplete.addsAlike_pathRows {definition : Definition D} (h : definition.IsComplete) :
    AddsAlike (definition.pathRows.flatMap DraftRow.faults)
      (definition.scope.allPaths.flatMap fun path => MatchChain.faults path.chain) := by
  have hpaths : ∀ grouped ∈ definition.scope.groupedPaths, ∀ state,
      AddsAlike ((grouped.2.draftRows definition.scope.origin grouped.1 state).flatMap
        DraftRow.faults) (MatchChain.faults grouped.2.chain) := by
    intro grouped hgrouped state
    have hpath : grouped.2 ∈ definition.scope.allPaths :=
      definition.scope.map_snd_groupedPaths ▸ List.mem_map_of_mem hgrouped
    obtain ⟨events, origin, hwhen, hevents⟩ := h.exists_innermostWhen hpath
    exact Path.addsAlike_draftRows hwhen hevents _ _ _
  simp only [pathRows, List.flatMap_assoc, ← Scope.map_snd_groupedPaths, List.flatMap_map]
  -- Every state repeats what the paths have, and there is some state.
  refine AddsAlike.trans (.flatMap fun state _ => ?_) (.flatMap_const h.states _)
  exact .flatMap fun grouped hgrouped => hpaths grouped hgrouped state

theorem addsAlike_matchFaults {definitions : List (Definition D)}
    (h : ∀ definition ∈ definitions, definition.IsComplete) :
    AddsAlike ((definitions.flatMap pathRows).flatMap DraftRow.faults)
      (matchFaults definitions) := by
  rw [List.flatMap_assoc]
  exact .flatMap fun definition hdefinition => (h definition hdefinition).addsAlike_pathRows

/-- Without gaps only the faults of the matches are left to report. -/
theorem errors_rows_of_isComplete {definitions : List (Definition D)}
    (h : ∀ definition ∈ definitions, definition.IsComplete) :
    Checked.errors (Definition.rows definitions) =
      (distinct (matchFaults definitions)).map .malformedMatch := by
  rw [Definition.rows, gather_draftRows_eq_ok_iff.mpr ⟨h, rfl⟩,
    ← (addsAlike_matchFaults h).distinct_eq]
  exact DraftRow.errors_resolveAll _

/-- As long as there are gaps, nothing but gaps is reported. -/
theorem isComplete_of_mem_errors_rows {definitions : List (Definition D)}
    {error : BuildError D} (h : error ∈ Checked.errors (Definition.rows definitions))
    (hfault : ¬error.IsGap) : ∀ definition ∈ definitions, definition.IsComplete := by
  rcases Checked.mem_errors_bind_iff.mp h with hgaps | ⟨drafts, hdrafts, -⟩
  · rw [Checked.errors_gather, List.flatMap_map] at hgaps
    obtain ⟨definition, -, herror⟩ := List.mem_flatMap.mp hgaps
    exact absurd (isGap_of_mem_draftRows herror) hfault
  · exact (gather_draftRows_eq_ok_iff.mp hdrafts).1

theorem exists_rows_iff_of_isComplete {definitions : List (Definition D)}
    (h : ∀ definition ∈ definitions, definition.IsComplete) :
    (∃ rows, Definition.rows definitions = .ok rows) ↔ matchFaults definitions = [] := by
  simp only [Definition.rows_eq_ok_iff, exists_and_left, exists_eq, and_true]
  rw [and_iff_right h]
  simp only [← DraftRow.errors_resolve_eq_nil_iff, DraftRow.errors_resolve,
    ← List.flatMap_eq_nil_iff]
  rw [List.eq_nil_iff_forall_not_mem, List.eq_nil_iff_forall_not_mem]
  simp only [(addsAlike_matchFaults h).mem_iff]

theorem exists_rows_iff {definitions : List (Definition D)} :
    (∃ rows, Definition.rows definitions = .ok rows) ↔
      (∀ definition ∈ definitions, definition.IsComplete) ∧
      ∀ definition ∈ definitions, ∀ path ∈ definition.scope.allPaths,
        ∃ resolved, MatchChain.resolve path.chain = .ok resolved := by
  have hnone : matchFaults definitions = [] ↔ ∀ definition ∈ definitions,
      ∀ path ∈ definition.scope.allPaths,
        ∃ resolved, MatchChain.resolve path.chain = .ok resolved := by
    simp only [matchFaults, List.flatMap_eq_nil_iff, MatchChain.faults_eq_nil_iff]
  rw [← hnone]
  constructor
  · intro h
    obtain ⟨rows, hrows⟩ := h
    have hcomplete := (Definition.rows_eq_ok_iff.mp hrows).1.1
    exact ⟨hcomplete, (exists_rows_iff_of_isComplete hcomplete).mp ⟨rows, hrows⟩⟩
  · intro h
    exact (exists_rows_iff_of_isComplete h.1).mpr h.2

/-- Without gaps, how many states there are does not matter to what is reported. -/
theorem rows_eq_error_of_map_scope {definitions others : List (Definition D)}
    (hcomplete : ∀ definition ∈ definitions, definition.IsComplete)
    (hscopes : others.map scope = definitions.map scope)
    (hstates : ∀ other ∈ others, other.states ≠ []) {errors : List (BuildError D)}
    (h : Definition.rows definitions = .error errors) :
    Definition.rows others = .error errors := by
  have hsame : matchFaults others = matchFaults definitions := by
    have hscope : ∀ list : List (Definition D), matchFaults list =
        (list.map scope).flatMap fun scope =>
          scope.allPaths.flatMap fun path => MatchChain.faults path.chain := by
      intro list
      rw [matchFaults, List.flatMap_map]
    rw [hscope, hscope, hscopes]
  have hothers : ∀ other ∈ others, other.IsComplete := by
    intro other hother
    have hmem : other.scope ∈ definitions.map scope := hscopes ▸ List.mem_map_of_mem hother
    obtain ⟨definition, hdefinition, hscope⟩ := List.mem_map.mp hmem
    obtain ⟨-, hfilled, hevents⟩ := hcomplete definition hdefinition
    exact ⟨hstates other hother, hscope ▸ hfilled, hscope ▸ hevents⟩
  have hreported : Checked.errors (Definition.rows others) = errors := by
    rw [errors_rows_of_isComplete hothers, hsame, ← errors_rows_of_isComplete hcomplete, h]
    rfl
  cases hrows : Definition.rows others with
  | error found =>
      rw [hrows] at hreported
      exact congrArg Except.error hreported
  | ok rows =>
      have hnone := (exists_rows_iff_of_isComplete hothers).mp ⟨rows, hrows⟩
      obtain ⟨accepted, haccepted⟩ := (exists_rows_iff_of_isComplete hcomplete).mpr (hsame ▸ hnone)
      rw [h] at haccepted
      cases haccepted

/-- Definitions come to rows just if nothing is missing in any of them and the match of every
path resolves. What a definition needs is a state, content in every rule list, block and list
of events, and an event on every path. A fault of a match is only reported if no definition
has a gap, and then the errors are the faults of all paths, each once, in the order in which
they first occur. How many states the definitions have does not matter to that list. -/
theorem rows_accept_wellFormed (definitions : List (Definition D)) :
    ((∃ rows, Definition.rows definitions = .ok rows) ↔
      (∀ definition ∈ definitions, definition.IsComplete) ∧
      ∀ definition ∈ definitions, ∀ path ∈ definition.scope.allPaths,
        ∃ resolved, MatchChain.resolve path.chain = .ok resolved) ∧
    (∀ definition ∈ definitions, definition.IsComplete ↔
      definition.states ≠ [] ∧
      (∀ scope ∈ definition.scope.lineage, scope.rules ≠ some []) ∧
      (∀ rule ∈ definition.scope.allRules, rule.IsFilled) ∧
      ∀ path ∈ definition.scope.allPaths,
        ∃ events origin, (Step.whenEvent events, origin) ∈ path) ∧
    ∀ errors, Definition.rows definitions = .error errors →
      ((∃ fault, .malformedMatch fault ∈ errors) →
        ∀ definition ∈ definitions, definition.IsComplete) ∧
      ((∀ definition ∈ definitions, definition.IsComplete) →
        (∃ faults : List (MatchError D), errors = faults.map .malformedMatch ∧ faults.Nodup ∧
          (∀ fault, fault ∈ faults ↔ ∃ definition ∈ definitions,
            ∃ path ∈ definition.scope.allPaths, ∃ found,
              MatchChain.resolve path.chain = .error found ∧ fault ∈ found) ∧
          faults.Pairwise fun first second =>
            (matchFaults definitions).idxOf first < (matchFaults definitions).idxOf second) ∧
        ∀ others : List (Definition D), others.map scope = definitions.map scope →
          (∀ other ∈ others, other.states ≠ []) → Definition.rows others = .error errors) := by
  refine ⟨exists_rows_iff, fun _ _ => isComplete_iff_steps, fun errors hrows => ⟨?_, ?_⟩⟩
  · rintro ⟨fault, hfault⟩
    have hreported : .malformedMatch fault ∈ Checked.errors (Definition.rows definitions) :=
      hrows ▸ hfault
    exact isComplete_of_mem_errors_rows hreported id
  · intro hcomplete
    have herrors : errors = (distinct (matchFaults definitions)).map .malformedMatch := by
      rw [← errors_rows_of_isComplete hcomplete, hrows]
      rfl
    refine ⟨⟨distinct (matchFaults definitions), herrors, nodup_distinct _, fun fault => ?_,
      pairwise_distinct _⟩, fun others hscopes hstates =>
        rows_eq_error_of_map_scope hcomplete hscopes hstates hrows⟩
    have hfaults : ∀ chain : MatchChain D, fault ∈ MatchChain.faults chain ↔
        ∃ found, MatchChain.resolve chain = .error found ∧ fault ∈ found := by
      intro chain
      rw [MatchChain.faults]
      cases MatchChain.resolve chain <;> simp [Checked.errors]
    simp only [mem_distinct, matchFaults, List.mem_flatMap, hfaults]

end Definition

/-! ## A sample -/

namespace Scenario

def lineAt (line : Nat) : Origin := ⟨"rules", line, 0⟩

/-- A match for the highest level, written in some line. -/
def onHighest (line : Nat) : Step domain :=
  .matching ((Descriptor.declaredAt (lineAt line)).withAll [highest])

/-- Within a match for the highest level a hoist asks for that level again. -/
def hoist (states : List String) : Definition domain where
  states := states
  scope :=
    { origin := default
      group := ⟨0⟩
      adopted := []
      onEntry := []
      onExit := []
      rules := some [
        .block (onHighest 1) (lineAt 1) [
          .chain (onHighest 2) (lineAt 2) (.block (.whenEvent [rise, fall]) (lineAt 3) [
            .leaf (.thenState "slow") (lineAt 4),
            .leaf (.actions [.plain (.mark "count")]) (lineAt 5)])]] }

/-- What is wrong with the match of the hoist. -/
def hoistFault : MatchError domain :=
  ⟨.duplicateMatchTypes, [highest, highest], [lineAt 1, lineAt 2]⟩

theorem rows_hoist :
    Definition.rows [hoist ["idle", "slow"]] = .error [.malformedMatch hoistFault] := rfl

end Scenario

/-- Two states, two paths and two events make eight rows, and the fault that they share is
reported once, as it would be with a single state. -/
theorem Definition.rows_accept_wellFormed_hoist :
    (Scenario.hoist ["idle", "slow"]).pathRows.length = 8 ∧
    Definition.rows [Scenario.hoist ["idle", "slow"]] =
      .error [.malformedMatch Scenario.hoistFault] ∧
    (Scenario.hoist ["idle", "slow"]).IsComplete ∧
    Definition.rows [Scenario.hoist ["idle"]] = .error [.malformedMatch Scenario.hoistFault] := by
  obtain ⟨-, -, hreport⟩ := rows_accept_wellFormed [Scenario.hoist ["idle", "slow"]]
  obtain ⟨hgaps, hfaults⟩ := hreport _ Scenario.rows_hoist
  have hcomplete := hgaps ⟨Scenario.hoistFault, List.mem_singleton_self _⟩
  have hstates : ∀ other ∈ [Scenario.hoist ["idle"]], other.states ≠ [] :=
    List.forall_mem_singleton.mpr (List.cons_ne_nil _ _)
  exact ⟨rfl, Scenario.rows_hoist, hcomplete _ (List.mem_singleton_self _),
    (hfaults hcomplete).2 [Scenario.hoist ["idle"]] rfl hstates⟩

end RuleMachine
