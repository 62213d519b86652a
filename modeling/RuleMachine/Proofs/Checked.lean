import RuleMachine.Checked

/-! # Laws of accumulating checks

Checks run side by side succeed when all of them do, and then yield everything that
each of them yields, in order. If they do not, each of their errors is one of theirs.
-/

namespace RuleMachine

namespace Checked

variable {ε α β : Type}

theorem bind_eq_ok_iff {check : Checked ε α} {next : α → Checked ε β} {value : β} :
    check.bind next = .ok value ↔ ∃ first, check = .ok first ∧ next first = .ok value := by
  cases check with
  | error errors => simp [Except.bind]
  | ok first => simp [Except.bind]

theorem append_eq_ok_iff {first second : Checked ε (List α)} {items : List α} :
    append first second = .ok items ↔
      ∃ front back, first = .ok front ∧ second = .ok back ∧ items = front ++ back := by
  cases first <;> cases second <;> simp [append, eq_comm]

/-- Checks run side by side succeed when both do. -/
theorem exists_append_eq_ok_iff {first second : Checked ε (List α)} :
    (∃ items, append first second = .ok items) ↔
      (∃ front, first = .ok front) ∧ ∃ back, second = .ok back := by
  cases first <;> cases second <;> simp [append]

/-- When each check is known to succeed under a condition, and with what, then so are all of
them gathered. -/
theorem gather_map_eq_ok_iff {check : β → Checked ε (List α)} {Condition : β → Prop}
    {value : β → List α}
    (h : ∀ input items, check input = .ok items ↔ Condition input ∧ items = value input)
    {inputs : List β} {items : List α} :
    gather (inputs.map check) = .ok items ↔
      (∀ input ∈ inputs, Condition input) ∧ items = inputs.flatMap value := by
  induction inputs generalizing items with
  | nil => simp [gather, eq_comm]
  | cons input rest ih =>
      simp only [List.map_cons, gather, append_eq_ok_iff, h, ih, List.forall_mem_cons,
        List.flatMap_cons]
      constructor
      · intro hsplit
        rcases hsplit with ⟨_, _, ⟨hinput, rfl⟩, ⟨hrest, rfl⟩, rfl⟩
        exact ⟨⟨hinput, hrest⟩, rfl⟩
      · intro hall
        rcases hall with ⟨⟨hinput, hrest⟩, rfl⟩
        exact ⟨_, _, ⟨hinput, rfl⟩, ⟨hrest, rfl⟩, rfl⟩

/-! ## Errors -/

theorem mem_errors_bind_iff {check : Checked ε α} {next : α → Checked ε β} {error : ε} :
    error ∈ errors (check.bind next) ↔
      error ∈ errors check ∨ ∃ value, check = .ok value ∧ error ∈ errors (next value) := by
  cases check with
  | error found => simp [Except.bind, errors]
  | ok value => simp [Except.bind, errors]

/-- What the second check never reports is reported just by the first one. -/
theorem filter_errors_bind {check : Checked ε α} {next : α → Checked ε β} {concerns : ε → Bool}
    (h : ∀ value, ∀ error ∈ errors (next value), concerns error = false) :
    (errors (check.bind next)).filter concerns = (errors check).filter concerns := by
  cases check with
  | error found => rfl
  | ok value =>
      exact List.filter_eq_nil_iff.mpr fun error herror => Bool.eq_false_iff.mp (h value error herror)

theorem errors_append (first second : Checked ε (List α)) :
    errors (append first second) = errors first ++ errors second := by
  cases first <;> cases second <;> simp [append, errors]

theorem errors_gather (checks : List (Checked ε (List α))) :
    errors (gather checks) = checks.flatMap errors := by
  induction checks with
  | nil => rfl
  | cons check rest ih => rw [gather, errors_append, ih, List.flatMap_cons]

end Checked

end RuleMachine
