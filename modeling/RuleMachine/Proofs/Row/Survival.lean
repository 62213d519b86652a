import Mathlib.Data.List.Forall2
import RuleMachine.Proofs.Row.Conflict

/-! # Which rows survive

Overrides stack: the first row of a rule stands on nothing, and every further row
of the rule replaces the one before it. Validation accepts the lists that are
stacked in this way and no others, and keeps the topmost row of every rule. The
rule lists that rows were declared in only decide which error is reported.
-/

namespace RuleMachine

namespace Row

variable {D : Domain}

/-- The first row of every rule overrides nothing, and all later rows of the rule
are overrides. -/
def WellStacked (rows : List (Row D)) : Prop :=
  ∀ key first later, rows.filter (fun row => row.key = key) = first :: later →
    first.overrides = false ∧ ∀ row ∈ later, row.overrides = true

/-- The last row of every rule, in the order of declaration. -/
def lastOfRule : List (Row D) → List (Row D)
  | [] => []
  | row :: later =>
    if later.any (fun other => other.key = row.key) then lastOfRule later
    else row :: lastOfRule later

/-- The rows that are not replaced by any of the rows that come later. -/
def unreplaced (standing later : List (Row D)) : List (Row D) :=
  standing.filter (fun row => !later.any (fun other => other.key = row.key))

/-- The rows are the same, except that they may be declared in different lists. -/
def SameButGroup (row other : Row D) : Prop :=
  other = { row with group := other.group }

/-! ## Stacking row by row -/

/-- Every row overrides exactly if its rule is known by then. -/
def StacksOn (known : List (RuleKey D)) : List (Row D) → Prop
  | [] => True
  | row :: later =>
    (row.overrides = true ↔ row.key ∈ known) ∧ StacksOn (row.key :: known) later

theorem StacksOn.congr {known other : List (RuleKey D)} {rows : List (Row D)}
    (h : ∀ key, key ∈ known ↔ key ∈ other) :
    StacksOn known rows ↔ StacksOn other rows := by
  induction rows generalizing known other with
  | nil => exact Iff.rfl
  | cons row later ih =>
      rw [StacksOn, StacksOn, h, ih]
      intro key
      rw [List.mem_cons, List.mem_cons, h]

/-- Rows of a known rule are overrides. -/
theorem StacksOn.overrides_of_mem {known : List (RuleKey D)} {rows : List (Row D)}
    (h : StacksOn known rows) {row : Row D} (hrow : row ∈ rows) (hkey : row.key ∈ known) :
    row.overrides = true := by
  induction rows generalizing known with
  | nil => exact absurd hrow List.not_mem_nil
  | cons head later ih =>
      rcases List.mem_cons.mp hrow with rfl | hlater
      · exact h.1.mpr hkey
      · exact ih h.2 hlater (List.mem_cons_of_mem _ hkey)

/-- The rows of one rule stack: the first is an override just if the rule is known, and
all others are. -/
def Follows (known : Prop) : List (Row D) → Prop
  | [] => True
  | first :: later => (first.overrides = true ↔ known) ∧ ∀ row ∈ later, row.overrides = true

theorem follows_of_known {known : Prop} (h : known) {rows : List (Row D)} :
    Follows known rows ↔ ∀ row ∈ rows, row.overrides = true := by
  cases rows with
  | nil => simp [Follows]
  | cons first later => simp [Follows, h]

/-- Rows stack just when those of each rule do. -/
theorem stacksOn_iff {known : List (RuleKey D)} {rows : List (Row D)} :
    StacksOn known rows ↔
      ∀ rule, Follows (rule ∈ known) (rows.filter (fun row => row.key = rule)) := by
  induction rows generalizing known with
  | nil => simp [StacksOn, Follows]
  | cons head rest ih =>
      -- The head is the first of its own rule, and makes that rule known to the rest.
      have hown : Follows (head.key ∈ known)
          ((head :: rest).filter (fun row => row.key = head.key)) ↔
          (head.overrides = true ↔ head.key ∈ known) ∧ Follows (head.key ∈ head.key :: known)
            (rest.filter (fun row => row.key = head.key)) := by
        rw [List.filter_cons_of_pos (by simp), Follows, follows_of_known List.mem_cons_self]
      have hother : ∀ rule, rule ≠ head.key →
          (Follows (rule ∈ known) ((head :: rest).filter (fun row => row.key = rule)) ↔
            Follows (rule ∈ head.key :: known) (rest.filter (fun row => row.key = rule))) := by
        intro rule hne
        rw [List.filter_cons_of_neg (by simpa using Ne.symm hne), List.mem_cons, or_iff_right hne]
      rw [StacksOn, ih]
      constructor
      · intro h rule
        by_cases heq : rule = head.key
        · rw [heq]
          exact hown.mpr ⟨h.1, h.2 head.key⟩
        · exact (hother rule heq).mpr (h.2 rule)
      · intro h
        refine ⟨(hown.mp (h head.key)).1, fun rule => ?_⟩
        by_cases heq : rule = head.key
        · rw [heq]
          exact (hown.mp (h head.key)).2
        · exact (hother rule heq).mp (h rule)

theorem wellStacked_iff_stacksOn {rows : List (Row D)} : WellStacked rows ↔ StacksOn [] rows := by
  rw [stacksOn_iff]
  apply forall_congr'
  intro rule
  cases rows.filter (fun row => row.key = rule) with
  | nil => simp [Follows]
  | cons first later => simp [Follows]

/-! ## Carrying out overrides on stacked rows -/

/-- Without a later plain row of its rule, no override is misplaced. -/
theorem filter_isMisplacedFor_eq_nil {row : Row D} {later : List (Row D)}
    (h : ∀ other ∈ later, other.key = row.key → other.overrides = true) :
    later.filter row.isMisplacedFor = [] := by
  rw [List.filter_eq_nil_iff]
  intro other hother hmisplaced
  simp only [isMisplacedFor, Bool.and_eq_true, Bool.not_eq_true', decide_eq_true_eq]
    at hmisplaced
  have hoverrides := h other hother hmisplaced.2
  rw [hmisplaced.1.1] at hoverrides
  cases hoverrides

theorem eraseP_key_eq_filter {standing : List (Row D)} (h : (standing.map key).Nodup)
    (rule : RuleKey D) :
    standing.eraseP (fun row => row.key = rule) =
      standing.filter (fun row => !decide (row.key = rule)) := by
  induction standing with
  | nil => rfl
  | cons row rest ih =>
      obtain ⟨hrow, hrest⟩ := List.nodup_cons.mp h
      by_cases heq : row.key = rule
      · rw [List.eraseP_cons_of_pos (by simpa using heq),
          List.filter_cons_of_neg (by simpa using heq), List.filter_eq_self.mpr]
        intro other hother
        have hne : other.key ≠ rule := fun hsame =>
          hrow (heq.trans hsame.symm ▸ List.mem_map_of_mem hother)
        simpa using hne
      · rw [List.eraseP_cons_of_neg (by simpa using heq),
          List.filter_cons_of_pos (by simpa using heq), ih hrest]

theorem settle_of_plain {standing later : List (Row D)} {row : Row D}
    (h : row.overrides = false) : settle standing row later = (row :: standing, []) := by
  simp only [settle, h, Bool.not_false, if_true]

/-- A row that fits onto the standing ones takes the place of those it replaces. -/
theorem settle_of_fits {standing later : List (Row D)} {row : Row D}
    (hnodup : (standing.map key).Nodup)
    (hfits : row.overrides = true ↔ row.key ∈ standing.map key)
    (hlater : ∀ other ∈ later, other.key = row.key → other.overrides = true) :
    settle standing row later = (row :: unreplaced standing [row], []) := by
  have hunreplaced : unreplaced standing [row] =
      standing.filter (fun other => !decide (other.key = row.key)) := by
    simp only [unreplaced, List.any_cons, List.any_nil, Bool.or_false, eq_comm]
  rw [hunreplaced]
  by_cases hoverrides : row.overrides = true
  · have hany : standing.any (fun other => other.key = row.key) = true := by
      obtain ⟨other, hother, hkey⟩ := List.mem_map.mp (hfits.mp hoverrides)
      exact List.any_eq_true.mpr ⟨other, hother, by simpa using hkey⟩
    simp only [settle, hoverrides, Bool.not_true, Bool.false_eq_true, if_false,
      filter_isMisplacedFor_eq_nil hlater, hany, if_true, eraseP_key_eq_filter hnodup]
  · have hkeep : standing.filter (fun other => !decide (other.key = row.key)) = standing := by
      rw [List.filter_eq_self]
      intro other hother
      have hne : other.key ≠ row.key := fun hsame =>
        hoverrides (hfits.mpr (hsame ▸ List.mem_map_of_mem hother))
      simpa using hne
    rw [settle_of_plain (Bool.not_eq_true _ ▸ hoverrides), hkeep]

theorem mem_map_key_unreplaced {standing : List (Row D)} {row : Row D} (key : RuleKey D) :
    key ∈ (row :: unreplaced standing [row]).map Row.key ↔
      key ∈ row.key :: standing.map Row.key := by
  rw [List.map_cons, List.mem_cons, List.mem_cons]
  by_cases heq : key = row.key
  · simp only [heq, true_or]
  · simp only [heq, false_or, unreplaced, List.mem_map, List.mem_filter]
    constructor
    · intro h
      rcases h with ⟨other, ⟨hother, -⟩, rfl⟩
      exact ⟨other, hother, rfl⟩
    · intro h
      rcases h with ⟨other, hother, rfl⟩
      exact ⟨other, ⟨hother, by simpa using Ne.symm heq⟩, rfl⟩

theorem nodup_map_key_cons_unreplaced {standing : List (Row D)} (row : Row D)
    (h : (standing.map key).Nodup) : ((row :: unreplaced standing [row]).map key).Nodup := by
  rw [List.map_cons, List.nodup_cons]
  refine ⟨fun hmem => ?_, h.sublist (List.filter_sublist.map key)⟩
  obtain ⟨other, hother, hkey⟩ := List.mem_map.mp hmem
  simpa [hkey] using (List.mem_filter.mp hother).2

/-- What is left of the standing rows when one more row has been taken in. -/
theorem unreplaced_cons (standing later : List (Row D)) (row : Row D) :
    unreplaced standing (row :: later) = unreplaced (unreplaced standing [row]) later := by
  simp only [unreplaced, List.filter_filter, List.any_cons, List.any_nil, Bool.or_false,
    Bool.not_or, Bool.and_comm]

/-- Stacked rows are reconciled without errors, and each rule keeps its last row. -/
theorem reconcileFrom_of_stacksOn {standing rows : List (Row D)}
    (hnodup : (standing.map key).Nodup) (hrows : StacksOn (standing.map key) rows) :
    reconcileFrom standing rows = ((unreplaced standing rows).reverse ++ lastOfRule rows, []) := by
  -- The standing rows have different rules at every step, so that overrides find the right one.
  induction rows generalizing standing with
  | nil => simp [reconcileFrom, unreplaced, lastOfRule]
  | cons row later ih =>
      have hlater : ∀ other ∈ later, other.key = row.key → other.overrides = true :=
        fun other hother hkey => hrows.2.overrides_of_mem hother (hkey ▸ List.mem_cons_self)
      have hstacked : StacksOn ((row :: unreplaced standing [row]).map key) later :=
        (StacksOn.congr mem_map_key_unreplaced).mpr hrows.2
      rw [reconcileFrom, settle_of_fits hnodup hrows.1 hlater]
      simp only [ih (nodup_map_key_cons_unreplaced row hnodup) hstacked, List.nil_append,
        unreplaced_cons standing later row]
      rw [unreplaced, lastOfRule, List.filter_cons]
      by_cases hreplaced : later.any (fun other => other.key = row.key) = true
      · simp only [hreplaced, Bool.not_true, Bool.false_eq_true, if_false, if_true, unreplaced]
      · simp only [hreplaced, Bool.not_false, if_true, Bool.false_eq_true, if_false, unreplaced,
          List.reverse_cons, List.append_assoc, List.singleton_append]

theorem reconcile_of_stacksOn {rows : List (Row D)} (h : StacksOn [] rows) :
    reconcile rows = (lastOfRule rows, []) := by
  have hnodup : (([] : List (Row D)).map key).Nodup := List.nodup_nil
  exact reconcileFrom_of_stacksOn hnodup h

/-! ## What overrides leave of each rule -/

/-- Taking in a row adds to its rule only if the row is no override: overrides
replace or are rejected. -/
theorem countP_settle (standing later : List (Row D)) (row : Row D) (rule : RuleKey D) :
    (settle standing row later).1.countP (fun other => other.key = rule) =
      standing.countP (fun other => other.key = rule) +
        [row].countP (fun other => !other.overrides && decide (other.key = rule)) := by
  rw [settle, List.countP_singleton]
  by_cases hoverrides : row.overrides = true
  · simp only [hoverrides, Bool.not_true, Bool.false_eq_true, if_false, Bool.false_and,
      Nat.add_zero]
    split
    next =>
      split
      next hany =>
        obtain ⟨other, hother, hkey⟩ := List.any_eq_true.mp hany
        obtain ⟨found, before, after, -, hfound, hstanding, herase⟩ :=
          List.exists_of_eraseP (p := fun other : Row D => decide (other.key = row.key)) hother hkey
        have hsame : found.key = row.key := of_decide_eq_true hfound
        rw [herase, hstanding]
        simp only [List.countP_cons, List.countP_append, hsame]
        omega
      next => rfl
    next => rfl
  · simp only [hoverrides, Bool.not_false, if_true, List.countP_cons, Bool.true_and]

/-- Each rule keeps as many rows as it has rows that are no overrides. -/
theorem countP_reconcileFrom (standing rows : List (Row D)) (rule : RuleKey D) :
    (reconcileFrom standing rows).1.countP (fun row => row.key = rule) =
      standing.countP (fun row => row.key = rule) +
        rows.countP (fun row => !row.overrides && decide (row.key = rule)) := by
  induction rows generalizing standing with
  | nil => rw [reconcileFrom, List.countP_reverse, List.countP_nil, Nat.add_zero]
  | cons row later ih =>
      rw [reconcileFrom, ← List.singleton_append, List.countP_append, ← Nat.add_assoc,
        ← countP_settle standing later]
      exact ih _

/-- A row that takes the place of another one of its rule leaves all rules as they were. -/
theorem mem_map_key_cons_eraseP {standing : List (Row D)} {row : Row D} (rule : RuleKey D) :
    rule ∈ (row :: standing.eraseP (fun other => other.key = row.key)).map key ↔
      rule ∈ row.key :: standing.map key := by
  rw [List.map_cons, List.mem_cons, List.mem_cons]
  by_cases heq : rule = row.key
  · simp only [heq, true_or]
  · simp only [heq, false_or, List.mem_map]
    constructor
    · intro h
      rcases h with ⟨other, hother, rfl⟩
      exact ⟨other, List.mem_of_mem_eraseP hother, rfl⟩
    · intro h
      rcases h with ⟨other, hother, rfl⟩
      exact ⟨other, (List.mem_eraseP_of_neg (by simpa using heq)).mpr hother, rfl⟩

/-- An override is only carried out where a row of its rule stands. -/
theorem mem_standing_of_settle {standing later : List (Row D)} {row : Row D}
    (herrors : (settle standing row later).2 = []) (hoverrides : row.overrides = true) :
    row.key ∈ standing.map key ∧
      (settle standing row later).1 =
        row :: standing.eraseP (fun other => other.key = row.key) := by
  rw [settle] at herrors ⊢
  simp only [hoverrides, Bool.not_true, Bool.false_eq_true, if_false] at herrors ⊢
  split at herrors
  next =>
    split at herrors
    next hany =>
      obtain ⟨other, hother, hkey⟩ := List.any_eq_true.mp hany
      simp only [hany, if_true, and_true]
      exact List.mem_map.mpr ⟨other, hother, of_decide_eq_true hkey⟩
    next => cases herrors
  next => cases herrors

/-- If overrides are carried out without errors and leave one row of each rule at
most, then the rows were stacked. -/
theorem stacksOn_of_reconcileFrom {standing rows : List (Row D)}
    (herrors : (reconcileFrom standing rows).2 = [])
    (hkept : ((reconcileFrom standing rows).1.map key).Nodup) :
    StacksOn (standing.map key) rows := by
  induction rows generalizing standing with
  | nil => trivial
  | cons row later ih =>
      have hcount := countP_reconcileFrom standing (row :: later) row.key
      have hle := List.nodup_iff_count.mp hkept row.key
      rw [count_map_key, ← List.countP_eq_length_filter, hcount] at hle
      simp only [reconcileFrom, List.append_eq_nil_iff] at herrors hkept
      have hrest := ih herrors.2 hkept
      -- A plain row on top of a standing one would leave two rows of its rule in the end.
      by_cases hoverrides : row.overrides = true
      · obtain ⟨hmem, hsettle⟩ := mem_standing_of_settle herrors.1 hoverrides
        refine ⟨iff_of_true hoverrides hmem, (StacksOn.congr fun rule => ?_).mp hrest⟩
        rw [hsettle, mem_map_key_cons_eraseP]
      · refine ⟨iff_of_false hoverrides fun hmem => ?_, ?_⟩
        · have hstands : 0 < standing.countP (fun other => other.key = row.key) := by
            obtain ⟨other, hother, hkey⟩ := List.mem_map.mp hmem
            exact List.countP_pos_iff.mpr ⟨other, hother, by simpa using hkey⟩
          rw [List.countP_cons_of_pos (by simpa using hoverrides)] at hle
          omega
        · rwa [settle_of_plain (Bool.not_eq_true _ ▸ hoverrides), List.map_cons] at hrest

/-! ## Validation -/

theorem lastOfRule_sublist (rows : List (Row D)) : (lastOfRule rows).Sublist rows := by
  induction rows with
  | nil => exact List.Sublist.slnil
  | cons row later ih =>
      rw [lastOfRule]
      split
      · exact ih.cons row
      · exact ih.cons_cons row

theorem lastOfRule_ne_nil {rows : List (Row D)} (h : rows ≠ []) : lastOfRule rows ≠ [] := by
  induction rows with
  | nil => exact absurd rfl h
  | cons row later ih =>
      rw [lastOfRule]
      split
      next hreplaced =>
        obtain ⟨other, hother, -⟩ := List.any_eq_true.mp hreplaced
        exact ih (List.ne_nil_of_mem hother)
      next => exact List.cons_ne_nil row _

theorem nodup_map_key_lastOfRule (rows : List (Row D)) : ((lastOfRule rows).map key).Nodup := by
  induction rows with
  | nil => exact List.nodup_nil
  | cons row later ih =>
      rw [lastOfRule]
      split
      next => exact ih
      next hlast =>
        rw [List.map_cons, List.nodup_cons]
        refine ⟨fun hmem => hlast ?_, ih⟩
        obtain ⟨other, hother, hkey⟩ := List.mem_map.mp hmem
        have hmem : other ∈ later := (lastOfRule_sublist later).subset hother
        exact List.any_eq_true.mpr ⟨other, hmem, by simpa using hkey⟩

theorem validate_eq_ok_iff_reconcile {rows kept : List (Row D)} :
    validate rows = .ok kept ↔
      reconcile rows = (kept, []) ∧ (kept.map key).Nodup := by
  rw [validate]
  obtain ⟨standing, errors⟩ := reconcile rows
  simp only [Prod.mk.injEq]
  split
  next hnil =>
    obtain ⟨rfl, hconflicts⟩ := List.append_eq_nil_iff.mp hnil
    rw [Except.ok.injEq]
    refine ⟨?_, fun h => h.1.1⟩
    rintro rfl
    exact ⟨⟨rfl, rfl⟩, conflicts_eq_nil_iff.mp hconflicts⟩
  next hsome =>
    refine iff_of_false nofun ?_
    intro h
    rcases h with ⟨⟨rfl, rfl⟩, hnodup⟩
    exact hsome (conflicts_eq_nil_iff.mpr hnodup)

/-- Validation accepts the well-stacked lists and keeps the last row of every rule. -/
theorem validate_eq_ok_iff {rows kept : List (Row D)} :
    validate rows = .ok kept ↔ WellStacked rows ∧ kept = lastOfRule rows := by
  rw [validate_eq_ok_iff_reconcile, wellStacked_iff_stacksOn]
  constructor
  · intro h
    rcases h with ⟨hreconcile, hnodup⟩
    have hstacked : StacksOn [] rows := stacksOn_of_reconcileFrom
      (congrArg Prod.snd hreconcile) ((congrArg Prod.fst hreconcile).symm ▸ hnodup)
    rw [reconcile_of_stacksOn hstacked] at hreconcile
    exact ⟨hstacked, (Prod.mk.inj hreconcile).1.symm⟩
  · intro h
    rcases h with ⟨hstacked, rfl⟩
    exact ⟨reconcile_of_stacksOn hstacked, nodup_map_key_lastOfRule rows⟩

/-- Validation only ever drops rows. -/
theorem sublist_of_validate {rows kept : List (Row D)} (h : validate rows = .ok kept) :
    kept.Sublist rows := by
  obtain ⟨-, rfl⟩ := validate_eq_ok_iff.mp h
  exact lastOfRule_sublist rows

theorem nodup_map_key_of_validate {rows kept : List (Row D)} (h : validate rows = .ok kept) :
    (kept.map key).Nodup :=
  (validate_eq_ok_iff_reconcile.mp h).2

/-- Of each rule it is the last row that remains. -/
theorem filter_lastOfRule (rows : List (Row D)) (rule : RuleKey D) :
    (lastOfRule rows).filter (fun row => row.key = rule) =
      (rows.filter (fun row => row.key = rule)).getLast?.toList := by
  induction rows with
  | nil => rfl
  | cons row later ih =>
      have hmore : later.any (fun other => other.key = row.key) = true ↔
          later.filter (fun other => other.key = row.key) ≠ [] := by
        simp only [List.any_eq_true, ne_eq, List.filter_eq_nil_iff, not_forall, not_not,
          exists_prop]
      by_cases heq : row.key = rule
      · subst heq
        rw [lastOfRule, List.filter_cons_of_pos (by simp)]
        split
        next hreplaced =>
          rw [ih, List.getLast?_cons, List.getLast?_eq_some_getLast (hmore.mp hreplaced)]
          rfl
        next hlast =>
          have hnone : later.filter (fun other => other.key = row.key) = [] := by
            by_contra hne
            exact hlast (hmore.mpr hne)
          rw [List.filter_cons_of_pos (by simp), ih, hnone]
          rfl
      · rw [lastOfRule, List.filter_cons_of_neg (by simpa using heq), ← ih]
        split
        · rfl
        · rw [List.filter_cons_of_neg (by simpa using heq)]

/-! ## Groups do not matter -/

theorem SameButGroup.key_eq {row other : Row D} (h : SameButGroup row other) :
    other.key = row.key := by
  rw [SameButGroup] at h
  rw [h]
  rfl

theorem SameButGroup.overrides_eq {row other : Row D} (h : SameButGroup row other) :
    other.overrides = row.overrides := by
  rw [SameButGroup] at h
  rw [h]

theorem any_key_of_sameButGroup {rows others : List (Row D)}
    (h : List.Forall₂ SameButGroup rows others) (rule : RuleKey D) :
    others.any (fun other => other.key = rule) = rows.any (fun row => row.key = rule) := by
  induction h with
  | nil => rfl
  | cons hhead _ ih => rw [List.any_cons, List.any_cons, hhead.key_eq, ih]

theorem stacksOn_of_sameButGroup {rows others : List (Row D)}
    (h : List.Forall₂ SameButGroup rows others) (known : List (RuleKey D)) :
    StacksOn known others ↔ StacksOn known rows := by
  induction h generalizing known with
  | nil => exact Iff.rfl
  | cons hhead _ ih => rw [StacksOn, StacksOn, hhead.key_eq, hhead.overrides_eq, ih]

theorem lastOfRule_of_sameButGroup {rows others : List (Row D)}
    (h : List.Forall₂ SameButGroup rows others) :
    List.Forall₂ SameButGroup (lastOfRule rows) (lastOfRule others) := by
  induction h with
  | nil => exact List.Forall₂.nil
  | cons hhead htail ih =>
      rw [lastOfRule, lastOfRule, hhead.key_eq, any_key_of_sameButGroup htail]
      split
      · exact ih
      · exact List.Forall₂.cons hhead ih

/-- Validation succeeds exactly on the lists in which every rule starts with a
plain row and goes on with overrides. It then keeps, in the order of declaration,
the last row of each rule and nothing else, so that no two rows it keeps describe
the same rule. Moving rows to other rule lists changes neither whether validation
succeeds nor which rows it keeps. -/
theorem validate_accepts_stacked_rules (rows : List (Row D)) :
    ((∃ kept, validate rows = .ok kept) ↔ WellStacked rows) ∧
    (∀ kept, validate rows = .ok kept →
      kept = lastOfRule rows ∧ kept.Sublist rows ∧ (kept.map key).Nodup ∧
        ∀ rule, kept.filter (fun row => row.key = rule) =
          (rows.filter (fun row => row.key = rule)).getLast?.toList) ∧
    ∀ others, List.Forall₂ SameButGroup rows others →
      ((∃ survivors, validate others = .ok survivors) ↔ ∃ kept, validate rows = .ok kept) ∧
      ∀ kept survivors, validate rows = .ok kept → validate others = .ok survivors →
        List.Forall₂ SameButGroup kept survivors := by
  have hsucceeds : ∀ list : List (Row D),
      (∃ kept, validate list = .ok kept) ↔ WellStacked list := by
    intro list
    refine ⟨fun ⟨kept, hkept⟩ => (validate_eq_ok_iff.mp hkept).1, fun hstacked => ?_⟩
    exact ⟨lastOfRule list, validate_eq_ok_iff.mpr ⟨hstacked, rfl⟩⟩
  refine ⟨hsucceeds rows, fun kept hkept => ?_, fun others hothers => ⟨?_, ?_⟩⟩
  · obtain ⟨-, rfl⟩ := validate_eq_ok_iff.mp hkept
    exact ⟨rfl, lastOfRule_sublist rows, nodup_map_key_lastOfRule rows, filter_lastOfRule rows⟩
  · rw [hsucceeds, hsucceeds, wellStacked_iff_stacksOn, wellStacked_iff_stacksOn,
      stacksOn_of_sameButGroup hothers]
  · intro kept survivors hkept hsurvivors
    obtain ⟨-, rfl⟩ := validate_eq_ok_iff.mp hkept
    obtain ⟨-, rfl⟩ := validate_eq_ok_iff.mp hsurvivors
    exact lastOfRule_of_sameButGroup hothers

end Row

end RuleMachine
