import RuleMachine.Proofs.Row.Override

/-! # What validation reports

Rows of one rule that lead to one state are reported as duplicates, and the rows of a rule
that leads to several states as clashing. The groups are whole classes of rows, they come in
the order in which the rows were declared, and a rule can be among both. Errors of overrides
are reported before either.
-/

namespace RuleMachine

namespace Row

variable {D : Domain}

/-- The errors of overrides in the order of the rows, then the duplicates, then the clashes
among the rows that remain. -/
def reports (rows : List (Row D)) : List (BuildError D) :=
  (rows.zipIdx.filterMap fun (row, position) =>
    overrideFault? (rows.take position) row (rows.drop (position + 1))) ++
  (if duplicateGroups (reconcile rows).1 = [] then []
    else [.duplicates ((duplicateGroups (reconcile rows).1).map (·.map summary))]) ++
  if clashGroups (reconcile rows).1 = [] then []
    else [.clashes ((clashGroups (reconcile rows).1).map (·.map summary))]

theorem reports_eq (rows : List (Row D)) :
    reports rows = (reconcile rows).2 ++ conflicts (reconcile rows).1 := by
  rw [reports, reconcile, reconcileFrom_errors accounts_nil, conflicts, List.append_assoc]
  simp only [List.isEmpty_iff, List.map_eq_nil_iff, List.length_nil, List.nil_append]

theorem validate_eq_error_iff {rows : List (Row D)} {errors : List (BuildError D)} :
    validate rows = .error errors ↔ errors ≠ [] ∧ errors = reports rows := by
  rw [reports_eq, validate]
  obtain ⟨kept, overrideErrors⟩ := reconcile rows
  dsimp only
  split
  next hnone =>
    rw [hnone]
    constructor
    · intro h
      cases h
    · intro h
      exact absurd h.2 h.1
  next hsome =>
    rw [Except.error.injEq, @eq_comm _ errors]
    refine (and_iff_right_of_imp fun heq => ?_).symm
    exact fun hnil => hsome (heq.trans hnil)

/-- Duplicates and clashes are reported exactly. Two rows that say the same are needed for
duplicates, and two rows of one rule with different next states for a clash. The groups are
the classes of such rows, each with all its rows in the order of declaration; no row is in two
of them, and they follow the first rows of their rules and, within a rule, of their next
states. Validation reports the errors of overrides, row by row, then the duplicates if there
are any, and then the clashes if there are any. -/
theorem validate_reports_groups (rows : List (Row D)) :
    (duplicateGroups rows ≠ [] ↔
      ∃ first second, [first, second].Sublist rows ∧ SaysSame first second) ∧
    (∀ group, group ∈ duplicateGroups rows ↔
      ∃ row ∈ rows, group = rows.filter (fun other => SaysSame row other) ∧ 1 < group.length) ∧
    (duplicateGroups rows).Pairwise List.Disjoint ∧
    ((duplicateGroups rows).Pairwise fun before after =>
      ∀ first ∈ before, ∀ second ∈ after, GroupBefore rows first second) ∧
    (clashGroups rows ≠ [] ↔
      ∃ first ∈ rows, ∃ second ∈ rows, first.key = second.key ∧ first.next ≠ second.next) ∧
    (∀ group, group ∈ clashGroups rows ↔
      ∃ row ∈ rows, group = rows.filter (fun other => other.key = row.key) ∧
        ∃ first ∈ group, ∃ second ∈ group, first.next ≠ second.next) ∧
    ((clashGroups rows).Pairwise fun before after =>
      ∀ first ∈ before, ∀ second ∈ after, RuleBefore rows first second) ∧
    ∀ errors, validate rows = .error errors ↔ errors ≠ [] ∧ errors = reports rows :=
  ⟨duplicateGroups_ne_nil_iff, fun _ => mem_duplicateGroups,
    pairwise_disjoint_duplicateGroups rows, pairwise_duplicateGroups rows,
    clashGroups_ne_nil_iff, fun _ => mem_clashGroups,
    (pairwise_byRule rows).sublist List.filter_sublist, fun _ => validate_eq_error_iff⟩

end Row

/-! ## A sample -/

namespace Scenario

/-- Two rows that say the same, and one between them that leads elsewhere. -/
def disputed : List (Row domain) :=
  [course "slow" false 0, course "fast" false 0, course "slow" false 1]

end Scenario

/-- The first and the last row are reported as duplicates, and all three as clashing. -/
theorem Row.validate_reports_groups_disputed :
    [Scenario.course "slow" false 0, Scenario.course "slow" false 1] ∈
      duplicateGroups Scenario.disputed ∧
    Scenario.disputed ∈ clashGroups Scenario.disputed ∧
    validate Scenario.disputed = .error
      [.duplicates [[(Scenario.course "slow" false 0).summary,
          (Scenario.course "slow" false 1).summary]],
        .clashes [Scenario.disputed.map summary]] := by
  obtain ⟨-, hduplicates, -, -, -, hclashes, -, hreports⟩ :=
    validate_reports_groups Scenario.disputed
  have hmem : Scenario.course "slow" false 0 ∈ Scenario.disputed := List.mem_cons_self
  have hother : Scenario.course "fast" false 0 ∈ Scenario.disputed :=
    List.mem_cons_of_mem _ List.mem_cons_self
  refine ⟨(hduplicates _).mpr ⟨_, hmem, rfl, by decide⟩,
    (hclashes _).mpr ⟨_, hmem, rfl, _, hmem, _, hother, by decide⟩, ?_⟩
  exact (hreports _).mpr ⟨List.cons_ne_nil _ _, rfl⟩

end RuleMachine
