import Mathlib.Data.Nat.Find
import RuleMachine.Proofs.Row.Survival
import RuleMachine.Scenario.Domain

/-! # What overrides do

Whether an override is carried out can be read off the declarations around it: no plain row
of its rule may follow in another list, and one has to come before. A plain row opens a
place for its rule, and the overrides that follow, up to the next plain row of the rule, take
the place one after another. What remains is one row for each place, the last to take it. An
override that is rejected leaves no trace but its error.
-/

namespace RuleMachine

namespace Row

variable {D : Domain}

/-- The later plain rows of the rule of a row that are declared in other lists. -/
def laterElsewhere (row : Row D) (later : List (Row D)) : List (Row D) :=
  later.filter fun other =>
    other.overrides = false ∧ other.group ≠ row.group ∧ other.key = row.key

/-- The error of a row, given what is declared before and after it. Rows that override
nothing have none. -/
def overrideFault? (earlier : List (Row D)) (row : Row D) (later : List (Row D)) :
    Option (BuildError D) :=
  if row.overrides = false then none
  else if laterElsewhere row later ≠ [] then
    some (.overrideOutOfOrder row.summary ((laterElsewhere row later).map summary))
  else if ∃ other ∈ earlier, other.overrides = false ∧ other.key = row.key then none
  else some (.nothingToOverride row.summary)

/-- At the position there is a row of the rule that overrides nothing. -/
def PlainAt (rows : List (Row D)) (rule : RuleKey D) (position : Nat) : Prop :=
  ∃ row, rows[position]? = some row ∧ row.overrides = false ∧ row.key = rule

/-- At the position there is an override for the rule, and nothing is wrong with it. -/
def CarriedOutAt (rows : List (Row D)) (rule : RuleKey D) (position : Nat) : Prop :=
  ∃ row, rows[position]? = some row ∧ row.overrides = true ∧ row.key = rule ∧
    overrideFault? (rows.take position) row (rows.drop (position + 1)) = none

/-- The override is carried out after the plain row at the base, and before the next plain
row of the rule. -/
def TakesOver (rows : List (Row D)) (rule : RuleKey D) (base position : Nat) : Prop :=
  base < position ∧ CarriedOutAt rows rule position ∧
    ∀ between, base < between → between < position → ¬PlainAt rows rule between

/-- The row at `top` is what the plain row at `base` has come to in the end: the last override
that took over from it, or the plain row itself if none did. -/
structure StandsFor (rows : List (Row D)) (rule : RuleKey D) (base top : Nat) : Prop where
  plain : PlainAt rows rule base
  takes : top = base ∨ TakesOver rows rule base top
  last : ∀ position, TakesOver rows rule base position → position ≤ top

/-! ## One row -/

/-- The rules of the standing rows are those of the plain rows so far. -/
def Accounts (standing earlier : List (Row D)) : Prop :=
  ∀ rule, rule ∈ standing.map key ↔
    ∃ other ∈ earlier, other.overrides = false ∧ other.key = rule

theorem filter_isMisplacedFor (row : Row D) (later : List (Row D)) :
    later.filter row.isMisplacedFor = laterElsewhere row later := by
  refine List.filter_congr fun other _ => ?_
  rw [isMisplacedFor, Bool.decide_and, Bool.decide_and, Bool.decide_eq_false, Bool.and_assoc]

theorem overrideFault?_of_plain {earlier later : List (Row D)} {row : Row D}
    (h : row.overrides = false) : overrideFault? earlier row later = none :=
  if_pos h

/-- Only an override can be at fault. -/
theorem overrides_of_overrideFault? {earlier later : List (Row D)} {row : Row D}
    {error : BuildError D} (h : overrideFault? earlier row later = some error) :
    row.overrides = true := by
  by_contra hplain
  rw [overrideFault?_of_plain (Bool.not_eq_true _ ▸ hplain)] at h
  cases h

theorem overrideFault?_of_misplaced {earlier later : List (Row D)} {row : Row D}
    (hoverrides : row.overrides = true) (h : laterElsewhere row later ≠ []) :
    overrideFault? earlier row later =
      some (.overrideOutOfOrder row.summary ((laterElsewhere row later).map summary)) := by
  rw [overrideFault?, if_neg (by simp [hoverrides]), if_pos h]

theorem overrideFault?_of_fits {earlier later : List (Row D)} {row : Row D}
    (hoverrides : row.overrides = true) (h : laterElsewhere row later = []) :
    overrideFault? earlier row later =
      if ∃ other ∈ earlier, other.overrides = false ∧ other.key = row.key then none
      else some (.nothingToOverride row.summary) := by
  rw [overrideFault?, if_neg (by simp [hoverrides]), if_neg (not_not.mpr h)]

theorem overrideFault?_eq_none_iff {earlier later : List (Row D)} {row : Row D}
    (hoverrides : row.overrides = true) :
    overrideFault? earlier row later = none ↔ laterElsewhere row later = [] ∧
      ∃ other ∈ earlier, other.overrides = false ∧ other.key = row.key := by
  by_cases hlater : laterElsewhere row later = []
  · rw [overrideFault?_of_fits hoverrides hlater, and_iff_right hlater]
    split <;> simp_all
  · rw [overrideFault?_of_misplaced hoverrides hlater]
    exact iff_of_false nofun fun h => hlater h.1

section Settle

variable {standing earlier later : List (Row D)} {row : Row D}
  (haccounts : Accounts standing earlier)

include haccounts

theorem any_key_iff_of_accounts : standing.any (fun other => other.key = row.key) = true ↔
    ∃ other ∈ earlier, other.overrides = false ∧ other.key = row.key := by
  rw [← haccounts row.key, List.any_eq_true, List.mem_map]
  simp only [decide_eq_true_eq]

/-- An override without fault takes the place of the newest standing row of its rule. -/
theorem settle_of_carriedOut (hoverrides : row.overrides = true)
    (h : overrideFault? earlier row later = none) :
    settle standing row later =
      (row :: standing.eraseP (fun other => other.key = row.key), []) := by
  obtain ⟨hlater, hearlier⟩ := (overrideFault?_eq_none_iff hoverrides).mp h
  rw [settle, filter_isMisplacedFor, hlater]
  simp only [hoverrides, Bool.not_true, Bool.false_eq_true, if_false,
    (any_key_iff_of_accounts haccounts).mpr hearlier, if_true]

/-- An override with a fault changes nothing. -/
theorem settle_of_rejected {error : BuildError D}
    (h : overrideFault? earlier row later = some error) :
    settle standing row later = (standing, [error]) := by
  have hoverrides := overrides_of_overrideFault? h
  by_cases hlater : laterElsewhere row later = []
  · rw [overrideFault?_of_fits hoverrides hlater] at h
    split at h
    next => cases h
    next hnone =>
      cases h
      rw [← any_key_iff_of_accounts haccounts] at hnone
      rw [settle, filter_isMisplacedFor, hlater]
      simp only [hoverrides, Bool.not_true, Bool.false_eq_true, if_false, hnone]
  · rw [overrideFault?_of_misplaced hoverrides hlater, Option.some.injEq] at h
    rw [settle, filter_isMisplacedFor, ← h]
    simp only [hoverrides, Bool.not_true, Bool.false_eq_true, if_false]

end Settle

theorem accounts_nil : Accounts ([] : List (Row D)) [] := fun rule => by simp

theorem Accounts.plain {standing earlier : List (Row D)} (h : Accounts standing earlier)
    {row : Row D} (hplain : row.overrides = false) :
    Accounts (row :: standing) (earlier ++ [row]) := by
  intro rule
  simp only [List.map_cons, List.mem_cons, h rule, List.mem_append, List.not_mem_nil, or_false,
    or_and_right, exists_or, exists_eq_left, hplain, true_and]
  rw [or_comm, @eq_comm _ rule]

theorem Accounts.overriding {standing earlier : List (Row D)} (h : Accounts standing earlier)
    {row : Row D} (hoverrides : row.overrides = true) : Accounts standing (earlier ++ [row]) := by
  intro rule
  simp [h rule, or_and_right, exists_or, hoverrides]

/-- The override is of the rule of the row whose place it takes. -/
theorem Accounts.carriedOut {standing earlier : List (Row D)} (h : Accounts standing earlier)
    {row : Row D} (hoverrides : row.overrides = true)
    (hearlier : ∃ other ∈ earlier, other.overrides = false ∧ other.key = row.key) :
    Accounts (row :: standing.eraseP (fun other => other.key = row.key)) (earlier ++ [row]) := by
  intro rule
  rw [← h.overriding hoverrides rule, mem_map_key_cons_eraseP, List.mem_cons]
  refine or_iff_right_of_imp ?_
  rintro rfl
  exact (h row.key).mpr hearlier

/-- Taking in a row rejects an override that has a fault, adds a plain row, or lets an override
take its place. -/
theorem settle_cases {standing earlier : List (Row D)} (h : Accounts standing earlier)
    (row : Row D) (later : List (Row D)) :
    (∃ error, overrideFault? earlier row later = some error ∧
      settle standing row later = (standing, [error])) ∨
    (overrideFault? earlier row later = none ∧ row.overrides = false ∧
      settle standing row later = (row :: standing, [])) ∨
    (overrideFault? earlier row later = none ∧ row.overrides = true ∧
      settle standing row later =
        (row :: standing.eraseP (fun other => other.key = row.key), [])) := by
  cases hfault : overrideFault? earlier row later with
  | some error => exact .inl ⟨error, rfl, settle_of_rejected h hfault⟩
  | none =>
      cases hoverrides : row.overrides with
      | false => exact .inr (.inl ⟨rfl, rfl, settle_of_plain hoverrides⟩)
      | true => exact .inr (.inr ⟨rfl, rfl, settle_of_carriedOut h hoverrides hfault⟩)

/-- Taking in a row reports its error, if there is one. -/
theorem settle_errors {standing earlier : List (Row D)} (h : Accounts standing earlier)
    (row : Row D) (later : List (Row D)) :
    (settle standing row later).2 = (overrideFault? earlier row later).toList := by
  obtain ⟨error, hfault, hsettle⟩ | ⟨hfault, -, hsettle⟩ | ⟨hfault, -, hsettle⟩ :=
    settle_cases h row later
  all_goals
    rw [hsettle, hfault]
    rfl

/-- The standing rows go on to account for the plain rows, whatever the next row is. -/
theorem Accounts.settle {standing earlier : List (Row D)} (h : Accounts standing earlier)
    (row : Row D) (later : List (Row D)) :
    Accounts (Row.settle standing row later).1 (earlier ++ [row]) := by
  obtain ⟨error, hfault, hsettle⟩ | ⟨-, hplain, hsettle⟩ | ⟨hfault, hoverrides, hsettle⟩ :=
    settle_cases h row later
  all_goals rw [hsettle]
  · exact h.overriding (overrides_of_overrideFault? hfault)
  · exact h.plain hplain
  · exact h.carriedOut hoverrides ((overrideFault?_eq_none_iff hoverrides).mp hfault).2

theorem reconcileFrom_cons_fst (standing later : List (Row D)) (row : Row D) :
    (reconcileFrom standing (row :: later)).1 =
      (reconcileFrom (settle standing row later).1 later).1 := rfl

theorem reconcileFrom_cons_snd (standing later : List (Row D)) (row : Row D) :
    (reconcileFrom standing (row :: later)).2 =
      (settle standing row later).2 ++ (reconcileFrom (settle standing row later).1 later).2 := rfl

/-! ## Positions -/

/-- The newest row of the rule before the position is replaced at the position or later. -/
def ReplacedFrom (rows : List (Row D)) (rule : RuleKey D) (position : Nat) : Prop :=
  ∃ top, position ≤ top ∧ CarriedOutAt rows rule top ∧
    ∀ between, position ≤ between → between < top → ¬PlainAt rows rule between

/-- The row at the position counts, and nothing replaces it. -/
def StandsAt (rows : List (Row D)) (position : Nat) : Prop :=
  ∃ rule, (PlainAt rows rule position ∨ CarriedOutAt rows rule position) ∧
    ¬ReplacedFrom rows rule (position + 1)

section Split

variable {earlier later : List (Row D)} {row : Row D} {rule : RuleKey D}

theorem plainAt_iff : PlainAt (earlier ++ row :: later) rule earlier.length ↔
    row.overrides = false ∧ row.key = rule := by
  simp [PlainAt]

theorem carriedOutAt_iff : CarriedOutAt (earlier ++ row :: later) rule earlier.length ↔
    row.overrides = true ∧ row.key = rule ∧ overrideFault? earlier row later = none := by
  simp [CarriedOutAt]

end Split

variable {rows : List (Row D)} {rule : RuleKey D}

theorem replacedFrom_iff {position : Nat} : ReplacedFrom rows rule position ↔
    CarriedOutAt rows rule position ∨
      ¬PlainAt rows rule position ∧ ReplacedFrom rows rule (position + 1) := by
  constructor
  · rintro ⟨top, hle, htop, hbetween⟩
    rcases Nat.eq_or_lt_of_le hle with rfl | hlt
    · exact .inl htop
    · exact .inr ⟨hbetween position (Nat.le_refl _) hlt, top, hlt, htop,
        fun between hge => hbetween between (Nat.le_of_succ_le hge)⟩
  · rintro (hcarried | ⟨hplain, top, hle, htop, hbetween⟩)
    · exact ⟨position, Nat.le_refl _, hcarried, fun between hge hlt => by omega⟩
    · refine ⟨top, Nat.le_of_succ_le hle, htop, fun between hge hlt => ?_⟩
      rcases Nat.eq_or_lt_of_le hge with rfl | hgt
      · exact hplain
      · exact hbetween between hgt hlt

theorem not_replacedFrom_length : ¬ReplacedFrom rows rule rows.length := by
  rintro ⟨top, hle, ⟨row, hrow, -⟩, -⟩
  rw [List.getElem?_eq_none hle] at hrow
  cases hrow

/-! ## All rows -/

/-- Standing rows, newest first, without the newest one of each rule that is given up. -/
def withoutNewest (given : RuleKey D → Bool) : List (Row D) → List (Row D)
  | [] => []
  | row :: older =>
    let rest := withoutNewest (fun rule => given rule && decide (rule ≠ row.key)) older
    if given row.key then rest else row :: rest

theorem withoutNewest_none (standing : List (Row D)) :
    withoutNewest (fun _ => false) standing = standing := by
  induction standing with
  | nil => rfl
  | cons row older ih =>
      simp only [withoutNewest, Bool.false_and, Bool.false_eq_true, if_false, ih]

/-- The newest row of a rule that is given up can as well be taken out first. -/
theorem withoutNewest_eraseP {given : RuleKey D → Bool} (hgiven : given rule = true)
    {standing : List (Row D)} (hrule : rule ∈ standing.map key) :
    withoutNewest given standing =
      withoutNewest (fun other => given other && decide (other ≠ rule))
        (standing.eraseP (fun row => row.key = rule)) := by
  induction standing generalizing given with
  | nil => exact absurd hrule List.not_mem_nil
  | cons row older ih =>
      by_cases heq : row.key = rule
      · subst heq
        rw [List.eraseP_cons_of_pos (by simp)]
        simp only [withoutNewest, hgiven, if_true]
      · have holder : rule ∈ older.map key :=
          (List.mem_cons.mp hrule).resolve_left (Ne.symm heq)
        have hkept : (fun other => given other && decide (other ≠ row.key)) rule = true := by
          simp [hgiven, Ne.symm heq]
        have hsame : (given row.key && decide (row.key ≠ rule)) = given row.key := by
          simp [heq]
        rw [List.eraseP_cons_of_neg (by simpa using heq), withoutNewest, withoutNewest,
          ih hkept holder, hsame]
        simp only [Bool.and_right_comm]

section Next

variable {earlier later : List (Row D)} {row : Row D} (hrows : rows = earlier ++ row :: later)

include hrows

/-- A row is nothing to the other rules. -/
theorem replacedFrom_of_ne (hne : rule ≠ row.key) :
    ReplacedFrom rows rule earlier.length ↔ ReplacedFrom rows rule (earlier.length + 1) := by
  rw [replacedFrom_iff, hrows, plainAt_iff, carriedOutAt_iff]
  simp [Ne.symm hne]

theorem not_replacedFrom_of_plain (h : row.overrides = false) :
    ¬ReplacedFrom rows row.key earlier.length := by
  rw [replacedFrom_iff, hrows, plainAt_iff, carriedOutAt_iff]
  simp [h]

theorem replacedFrom_of_carriedOut (h : row.overrides = true)
    (hfault : overrideFault? earlier row later = none) :
    ReplacedFrom rows row.key earlier.length := by
  rw [replacedFrom_iff, hrows, carriedOutAt_iff]
  exact .inl ⟨h, rfl, hfault⟩

theorem replacedFrom_of_rejected {error : BuildError D}
    (h : overrideFault? earlier row later = some error) :
    ReplacedFrom rows rule earlier.length ↔ ReplacedFrom rows rule (earlier.length + 1) := by
  rw [replacedFrom_iff, hrows, plainAt_iff, carriedOutAt_iff]
  simp [h, overrides_of_overrideFault? h]

open Classical in
/-- What is given up of the other rules is the same from the next row on. -/
theorem given_others :
    (fun rule => decide (ReplacedFrom rows rule earlier.length) && decide (rule ≠ row.key)) =
      fun rule => decide (ReplacedFrom rows rule (earlier.length + 1)) &&
        decide (rule ≠ row.key) := by
  funext rule
  by_cases hne : rule = row.key
  · simp [hne]
  · simp [hne, replacedFrom_of_ne hrows hne]

open Classical in
/-- Before a plain row nothing of its own rule is given up. -/
theorem given_of_plain (h : row.overrides = false) :
    (fun rule => decide (ReplacedFrom rows rule earlier.length)) =
      fun rule => decide (ReplacedFrom rows rule (earlier.length + 1)) &&
        decide (rule ≠ row.key) := by
  rw [← given_others hrows]
  funext rule
  by_cases heq : rule = row.key
  · simp [heq, not_replacedFrom_of_plain hrows h]
  · simp [heq]

theorem standsAt_iff (h : overrideFault? earlier row later = none) :
    StandsAt rows earlier.length ↔ ¬ReplacedFrom rows row.key (earlier.length + 1) := by
  have hcounts : ∀ rule, PlainAt rows rule earlier.length ∨ CarriedOutAt rows rule earlier.length ↔
      row.key = rule := by
    intro rule
    rw [hrows, plainAt_iff, carriedOutAt_iff]
    cases row.overrides <;> simp [h]
  simp only [StandsAt, hcounts, exists_eq_left']

theorem not_standsAt {error : BuildError D} (h : overrideFault? earlier row later = some error) :
    ¬StandsAt rows earlier.length := by
  simp only [StandsAt, hrows, plainAt_iff, carriedOutAt_iff]
  simp [h, overrides_of_overrideFault? h]

open Classical in
/-- Whether a row that has just come to stand is left in the end is up to what follows. -/
theorem withoutNewest_cons (h : overrideFault? earlier row later = none)
    (standing : List (Row D)) :
    (withoutNewest (fun rule => ReplacedFrom rows rule (earlier.length + 1))
        (row :: standing)).reverse.map some =
      (withoutNewest (fun rule => decide (ReplacedFrom rows rule (earlier.length + 1)) &&
        decide (rule ≠ row.key)) standing).reverse.map some ++
      ([earlier.length].filter (StandsAt rows)).map (rows[·]?) := by
  by_cases hreplaced : ReplacedFrom rows row.key (earlier.length + 1)
  · have hstands : ¬StandsAt rows earlier.length :=
      fun hstands => (standsAt_iff hrows h).mp hstands hreplaced
    simp [withoutNewest, hreplaced, hstands]
  · have hstands : StandsAt rows earlier.length := (standsAt_iff hrows h).mpr hreplaced
    have hrow : rows[earlier.length]? = some row := by simp [hrows]
    simp [withoutNewest, hreplaced, hstands, hrow]

end Next

open Classical in
/-- What remains when overrides are carried out among rows that follow on the standing ones:
of those, all that are not replaced, and of the further rows those that are left. -/
theorem map_some_reconcileFrom {standing earlier later : List (Row D)}
    (haccounts : Accounts standing earlier) (hrows : rows = earlier ++ later) :
    (reconcileFrom standing later).1.map some =
      (withoutNewest (fun rule => ReplacedFrom rows rule earlier.length) standing).reverse.map
        some ++
      ((List.range' earlier.length later.length).filter (StandsAt rows)).map (rows[·]?) := by
  -- Only the rule of the next row changes, and of that rule only the newest standing row.
  induction later generalizing standing earlier with
  | nil =>
      rw [List.append_nil] at hrows
      have hnone : (fun rule => decide (ReplacedFrom rows rule earlier.length)) =
          fun _ => false := by
        funext rule
        rw [← hrows]
        exact decide_eq_false not_replacedFrom_length
      rw [reconcileFrom, hnone, withoutNewest_none]
      simp
  | cons row later ih =>
      have hnext : rows = (earlier ++ [row]) ++ later := by
        rw [hrows, List.append_assoc, List.singleton_append]
      have hlength : (earlier ++ [row]).length = earlier.length + 1 := List.length_append
      rw [reconcileFrom_cons_fst, ih (haccounts.settle row later) hnext, hlength,
        List.length_cons, List.range'_succ, ← List.singleton_append, List.filter_append,
        List.map_append, ← List.append_assoc]
      obtain ⟨error, hfault, hsettle⟩ | ⟨hfault, hplain, hsettle⟩ | ⟨hfault, hoverrides, hsettle⟩ :=
        settle_cases haccounts row later
      all_goals rw [hsettle]
      · have hstands : ¬StandsAt rows earlier.length := not_standsAt hrows hfault
        simp only [replacedFrom_of_rejected hrows hfault, List.filter_singleton, hstands,
          decide_false, cond_false, List.map_nil, List.append_nil]
      · rw [withoutNewest_cons hrows hfault, given_of_plain hrows hplain]
      · have hgiven := decide_eq_true (replacedFrom_of_carriedOut hrows hoverrides hfault)
        have hearlier := ((overrideFault?_eq_none_iff hoverrides).mp hfault).2
        rw [withoutNewest_cons hrows hfault, ← given_others hrows,
          withoutNewest_eraseP hgiven ((haccounts row.key).mpr hearlier)]

/-! ## Errors -/

/-- Each row is at fault or not by what stands around it. -/
theorem reconcileFrom_errors {standing earlier later : List (Row D)}
    (haccounts : Accounts standing earlier) :
    (reconcileFrom standing later).2 =
      (later.zipIdx earlier.length).filterMap fun (row, position) =>
        overrideFault? ((earlier ++ later).take position) row
          ((earlier ++ later).drop (position + 1)) := by
  induction later generalizing standing earlier with
  | nil => rfl
  | cons row later ih =>
      have hrest := ih (haccounts.settle row later)
      rw [List.length_append, List.length_singleton, List.append_assoc,
        List.singleton_append] at hrest
      rw [reconcileFrom_cons_snd, settle_errors haccounts, hrest, List.zipIdx_cons,
        List.filterMap_cons]
      cases hfault : overrideFault? earlier row later <;> simp [hfault]

/-- Whether a row settles depends on the plain rows after it only. -/
theorem settle_insert {row : Row D} (h : row.overrides = true) (standing : List (Row D))
    (head : Row D) (front back : List (Row D)) :
    settle standing head (front ++ row :: back) = settle standing head (front ++ back) := by
  have hfilter : (front ++ row :: back).filter head.isMisplacedFor =
      (front ++ back).filter head.isMisplacedFor := by
    simp [List.filter_append, isMisplacedFor, h]
  rw [settle, settle, hfilter]

/-- A rejected override can be left out: its error goes, and nothing else changes. -/
theorem reconcileFrom_of_rejected {standing known earlier later : List (Row D)} {row : Row D}
    {error : BuildError D} (haccounts : Accounts standing known)
    (h : overrideFault? (known ++ earlier) row later = some error) :
    ∃ front back, (reconcileFrom standing (earlier ++ row :: later)).2 = front ++ error :: back ∧
      reconcileFrom standing (earlier ++ later) =
        ((reconcileFrom standing (earlier ++ row :: later)).1, front ++ back) := by
  induction earlier generalizing standing known with
  | nil =>
      rw [List.append_nil] at h
      refine ⟨[], (reconcileFrom standing later).2, ?_⟩
      simp only [List.nil_append, reconcileFrom_cons_fst, reconcileFrom_cons_snd,
        settle_of_rejected haccounts h, List.singleton_append, true_and]
  | cons head rest ih =>
      have hhead := settle_insert (overrides_of_overrideFault? h) standing head rest later
      rw [List.append_cons] at h
      obtain ⟨front, back, herrors, hrest⟩ := ih (haccounts.settle head (rest ++ row :: later)) h
      refine ⟨(settle standing head (rest ++ later)).2 ++ front, back, ?_, Prod.ext ?_ ?_⟩
      · rw [List.cons_append, reconcileFrom_cons_snd, herrors, hhead, List.append_assoc]
      · rw [List.cons_append, List.cons_append, reconcileFrom_cons_fst, reconcileFrom_cons_fst,
          ← hhead, hrest]
      · rw [List.cons_append, reconcileFrom_cons_snd, ← hhead, hrest, List.append_assoc]

/-! ## Who is left of a plain row -/

/-- Of the positions with a property, if there are any below a bound, one is the last. -/
theorem exists_last {holds : Nat → Prop} {bound first : Nat} (hfirst : holds first)
    (hbound : ∀ position, holds position → position < bound) :
    ∃ last, holds last ∧ ∀ position, holds position → position ≤ last := by
  classical
  have hle : ∀ position, holds position → position ≤ bound := fun position h =>
    Nat.le_of_lt (hbound position h)
  exact ⟨Nat.findGreatest holds bound, Nat.findGreatest_spec (hle first hfirst) hfirst,
    fun position h => Nat.le_findGreatest (hle position h) h⟩

theorem PlainAt.lt_length {position : Nat} (h : PlainAt rows rule position) :
    position < rows.length := by
  obtain ⟨row, hrow, -⟩ := h
  exact (List.getElem?_eq_some_iff.mp hrow).1

theorem CarriedOutAt.lt_length {position : Nat} (h : CarriedOutAt rows rule position) :
    position < rows.length := by
  obtain ⟨row, hrow, -⟩ := h
  exact (List.getElem?_eq_some_iff.mp hrow).1

/-- No row is both plain and an override. -/
theorem CarriedOutAt.not_plainAt {position : Nat} (h : CarriedOutAt rows rule position) :
    ¬PlainAt rows rule position := by
  obtain ⟨row, hrow, hoverrides, -⟩ := h
  rintro ⟨other, hother, hplain, -⟩
  rw [hrow, Option.some.injEq] at hother
  rw [hother, hplain] at hoverrides
  cases hoverrides

/-- An override that is carried out comes after a plain row of its rule. -/
theorem CarriedOutAt.exists_plainAt {position : Nat} (h : CarriedOutAt rows rule position) :
    ∃ base < position, PlainAt rows rule base := by
  obtain ⟨row, hrow, hoverrides, rfl, hfault⟩ := h
  obtain ⟨-, other, hother, hplain, hkey⟩ := (overrideFault?_eq_none_iff hoverrides).mp hfault
  obtain ⟨base, hbase, hget⟩ := List.mem_take_iff_getElem.mp hother
  exact ⟨base, by omega, other, by simp [← hget], hplain, hkey⟩

theorem StandsFor.base_le {base top : Nat} (h : StandsFor rows rule base top) : base ≤ top := by
  rcases h.takes with rfl | hover
  · exact Nat.le_refl _
  · exact Nat.le_of_lt hover.1

/-- Each plain row comes to one row in the end. -/
theorem existsUnique_standsFor {base : Nat} (h : PlainAt rows rule base) :
    ∃! top, StandsFor rows rule base top := by
  have hbound : ∀ position, position = base ∨ TakesOver rows rule base position →
      position < rows.length := by
    rintro position (rfl | ⟨-, hcarried, -⟩)
    · exact h.lt_length
    · exact hcarried.lt_length
  obtain ⟨top, htop, hlast⟩ := exists_last (.inl rfl) hbound
  refine ⟨top, ⟨h, htop, fun position hover => hlast position (.inr hover)⟩, ?_⟩
  intro other hother
  apply Nat.le_antisymm (hlast other hother.takes)
  rcases htop with rfl | hover
  · exact hother.base_le
  · exact hother.last top hover

/-- A row stands just if it is what some plain row has come to. -/
theorem standsAt_iff_exists_standsFor {position : Nat} :
    StandsAt rows position ↔ ∃ rule base, StandsFor rows rule base position := by
  constructor
  · rintro ⟨rule, hcounts, hnone⟩
    have hlast : ∀ base ≤ position, ∀ later, TakesOver rows rule base later → later ≤ position := by
      rintro base hbase later ⟨-, hcarried, hbetween⟩
      by_contra hlater
      exact hnone ⟨later, by omega, hcarried, fun between hge => hbetween between (by omega)⟩
    rcases hcounts with hplain | hcarried
    · exact ⟨rule, position, hplain, .inl rfl, hlast position (Nat.le_refl _)⟩
    · obtain ⟨first, hfirst, hplain⟩ := hcarried.exists_plainAt
      -- The override takes over from the last plain row before it.
      have hnewest : ∃ base, (base < position ∧ PlainAt rows rule base) ∧
          ∀ other, other < position ∧ PlainAt rows rule other → other ≤ base :=
        exists_last ⟨hfirst, hplain⟩ fun base h => h.1
      obtain ⟨base, ⟨hbase, hplain⟩, hnewest⟩ := hnewest
      refine ⟨rule, base, hplain, .inr ⟨hbase, hcarried, fun between hgt hlt hother => ?_⟩,
        hlast base (Nat.le_of_lt hbase)⟩
      exact absurd (hnewest between ⟨hlt, hother⟩) (Nat.not_le_of_lt hgt)
  · rintro ⟨rule, base, hstands⟩
    have hbase := hstands.base_le
    refine ⟨rule, ?_, ?_⟩
    · rcases hstands.takes with rfl | hover
      · exact .inl hstands.plain
      · exact .inr hover.2.1
    · rintro ⟨later, hle, hcarried, hbetween⟩
      -- What replaces the row would itself have taken over from the plain one.
      have hover : TakesOver rows rule base later := by
        refine ⟨by omega, hcarried, fun between hgt hlt => ?_⟩
        rcases hstands.takes with rfl | ⟨-, htop, hfree⟩
        · exact hbetween between hgt hlt
        · rcases Nat.lt_trichotomy between position with hbefore | rfl | hafter
          · exact hfree between hgt hbefore
          · exact htop.not_plainAt
          · exact hbetween between hafter hlt
      have hlater : later ≤ position := hstands.last later hover
      omega

/-- Every override is rejected if a plain row of its rule follows in another list, with all
such rows, or else if no plain row of the rule precedes it, and is carried out otherwise; the
errors come in the order of the rows. Of each rule as many rows remain as it has plain ones:
one for each of them, the last override that was carried out after it and before the next, or
the plain row itself. They remain in the order of declaration, and leaving out an override
that is rejected takes away its error and nothing else. -/
theorem reconcile_keeps_last_overrides (rows : List (Row D)) :
    ((reconcile rows).2 = rows.zipIdx.filterMap fun (row, position) =>
      overrideFault? (rows.take position) row (rows.drop (position + 1))) ∧
    (∀ rule, (reconcile rows).1.countP (fun row => row.key = rule) =
      rows.countP (fun row => !row.overrides && decide (row.key = rule))) ∧
    (∃ kept : List Nat, kept.Pairwise (· < ·) ∧
      (reconcile rows).1.map some = kept.map (rows[·]?) ∧
      ∀ position, position ∈ kept ↔ ∃ rule base, StandsFor rows rule base position) ∧
    (∀ rule base, PlainAt rows rule base → ∃! top, StandsFor rows rule base top) ∧
    ∀ earlier row later error, rows = earlier ++ row :: later →
      overrideFault? earlier row later = some error →
      ∃ front back, (reconcile rows).2 = front ++ error :: back ∧
        reconcile (earlier ++ later) = ((reconcile rows).1, front ++ back) := by
  classical
  refine ⟨reconcileFrom_errors accounts_nil, fun rule => ?_, ?_,
    fun rule base => existsUnique_standsFor, ?_⟩
  · rw [reconcile, countP_reconcileFrom, List.countP_nil, Nat.zero_add]
  · refine ⟨(List.range rows.length).filter (StandsAt rows),
      List.pairwise_lt_range.sublist List.filter_sublist, ?_, fun position => ?_⟩
    · have hkept := map_some_reconcileFrom accounts_nil (List.nil_append rows).symm
      rw [reconcile, hkept, List.length_nil, ← List.range_eq_range']
      rfl
    · rw [List.mem_filter, decide_eq_true_eq, ← standsAt_iff_exists_standsFor, List.mem_range]
      refine and_iff_right_of_imp ?_
      rintro ⟨rule, hplain | hcarried, -⟩
      · exact hplain.lt_length
      · exact hcarried.lt_length
  · rintro earlier row later error rfl hfault
    exact reconcileFrom_of_rejected accounts_nil hfault

end Row

/-! ## A sample -/

namespace Scenario

/-- A row of a rule list, for the one rule that the sample is about. -/
def course (next : String) (overrides : Bool) (group : Nat) : Row domain :=
  ⟨⟨"idle", ⟨"rise", none⟩, next, [], overrides, ⟨group⟩, default, default, default⟩,
    .unconstrained⟩

/-- A plain row that two overrides replace one after the other. -/
def takeovers : List (Row domain) :=
  [course "slow" false 0, course "fast" true 0, course "open" true 1]

/-- An override from another rule list, declared before the row that it is for. -/
def early : Row domain := course "shut" true 2

end Scenario

/-- The early override is rejected, and of the plain row the last override remains. -/
theorem Row.reconcile_keeps_last_overrides_takeovers :
    overrideFault? [] Scenario.early Scenario.takeovers = some (.overrideOutOfOrder
      Scenario.early.summary [(Scenario.course "slow" false 0).summary]) ∧
    PlainAt (Scenario.early :: Scenario.takeovers) Scenario.early.key 1 ∧
    (∃! top, StandsFor (Scenario.early :: Scenario.takeovers) Scenario.early.key 1 top) ∧
    (reconcile (Scenario.early :: Scenario.takeovers)).1 = [Scenario.course "open" true 1] ∧
    (reconcile Scenario.takeovers).1 = [Scenario.course "open" true 1] := by
  obtain ⟨-, -, -, hstands, hrejected⟩ :=
    reconcile_keeps_last_overrides (Scenario.early :: Scenario.takeovers)
  have hfault : overrideFault? [] Scenario.early Scenario.takeovers =
      some (.overrideOutOfOrder Scenario.early.summary
        [(Scenario.course "slow" false 0).summary]) := rfl
  have hplain : PlainAt (Scenario.early :: Scenario.takeovers) Scenario.early.key 1 :=
    ⟨_, rfl, rfl, rfl⟩
  have hkept : (reconcile (Scenario.early :: Scenario.takeovers)).1 =
      [Scenario.course "open" true 1] := rfl
  obtain ⟨_, _, -, hrest⟩ := hrejected [] _ _ _ rfl hfault
  exact ⟨hfault, hplain, hstands _ 1 hplain, hkept, (congrArg Prod.fst hrest).trans hkept⟩

end RuleMachine
