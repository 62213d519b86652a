import RuleMachine.Proofs.Row.Acceptance

/-! # Continuing rules

A rule is continued at its open ends, which are its leaves. Every path goes on with every path
of what follows, in document order, while a block that holds no rules stays as it is and takes
nothing up. Continuing in steps or at once makes the same tree, and what follows a block could
as well have been written on each of its rules. All this is said of any change that concerns
the leaves alone; a further rule and an opened block are two such changes.
-/

namespace RuleMachine

variable {D : Domain}

namespace Rule

/-! ## Changes at the leaves -/

/-- The change leaves everything above the leaves of a rule as it is. -/
structure ChangesLeaves (change : Rule D → Rule D) : Prop where
  chain : ∀ step origin next,
    change (.chain step origin next) = .chain step origin (change next)
  block : ∀ step origin rules,
    change (.block step origin rules) = .block step origin (rules.map change)

theorem changesLeaves_append (next : Rule D) :
    ChangesLeaves (fun rule => rule.append next) where
  chain _ _ _ := by rw [append]
  block step origin rules := append_block step origin rules next

theorem changesLeaves_attach (opened : List (Rule D)) :
    ChangesLeaves (fun rule => rule.attach opened) where
  chain _ _ _ := by rw [attach]
  block step origin rules := attach_block step origin rules opened

namespace ChangesLeaves

variable {change first second : Rule D → Rule D}

theorem comp (hsecond : ChangesLeaves second) (hfirst : ChangesLeaves first) :
    ChangesLeaves (fun rule => second (first rule)) where
  chain step origin next := by rw [hfirst.chain, hsecond.chain]
  block step origin rules := by
    rw [hfirst.block, hsecond.block, List.map_map]
    rfl

/-- Changes at the leaves are the same if they make the same of every leaf. -/
theorem eq_of_leaf (hfirst : ChangesLeaves first) (hsecond : ChangesLeaves second)
    (hleaf : ∀ step origin, first (leaf step origin) = second (leaf step origin))
    (rule : Rule D) : first rule = second rule := by
  induction rule using inductionOn with
  | leaf step origin => exact hleaf step origin
  | chain step origin next ih => rw [hfirst.chain, hsecond.chain, ih]
  | block step origin rules ih => rw [hfirst.block, hsecond.block, List.map_congr_left ih]

end ChangesLeaves

/-! ## Continuing in steps -/

theorem append_assoc (rule next last : Rule D) :
    (rule.append next).append last = rule.append (next.append last) :=
  ((changesLeaves_append last).comp (changesLeaves_append next)).eq_of_leaf
    (changesLeaves_append _) (fun _ _ => by simp only [append]) rule

theorem append_attach (rule next : Rule D) (opened : List (Rule D)) :
    (rule.append next).attach opened = rule.append (next.attach opened) :=
  ((changesLeaves_attach opened).comp (changesLeaves_append next)).eq_of_leaf
    (changesLeaves_append _) (fun _ _ => by simp only [append, attach]) rule

/-- What follows an opened block follows each of its rules. -/
theorem attach_append (rule next : Rule D) (opened : List (Rule D)) :
    (rule.attach opened).append next =
      rule.attach (opened.map fun inner => inner.append next) :=
  ((changesLeaves_append next).comp (changesLeaves_attach opened)).eq_of_leaf
    (changesLeaves_attach _) (fun _ _ => by simp only [attach, append_block]) rule

theorem attach_attach (rule : Rule D) (opened further : List (Rule D)) :
    (rule.attach opened).attach further =
      rule.attach (opened.map fun inner => inner.attach further) :=
  ((changesLeaves_attach further).comp (changesLeaves_attach opened)).eq_of_leaf
    (changesLeaves_attach _) (fun _ _ => by simp only [attach, attach_block]) rule

/-! ## Ends -/

/-- How a way down a rule ends. -/
inductive Ending where
  | leaf
  /-- The last step on the way opens a block, and the block holds no rules. -/
  | emptyBlock
deriving DecidableEq, Repr

mutual

/-- All ways down a rule in document order: the steps on each, and how it ends. -/
def ends : Rule D → List (Path D × Ending)
  | leaf step origin => [([(step, origin)], .leaf)]
  | chain step origin next => next.ends.map (Prod.map ((step, origin) :: ·) id)
  | block step origin [] => [([(step, origin)], .emptyBlock)]
  | block step origin (rule :: rest) =>
    (rule.ends ++ eachEnds rest).map (Prod.map ((step, origin) :: ·) id)

def eachEnds : List (Rule D) → List (Path D × Ending)
  | [] => []
  | rule :: rest => rule.ends ++ eachEnds rest

end

/-- The ways on from where a block opens. If it holds no rules there are no further steps. -/
def blockEnds (rules : List (Rule D)) : List (Path D × Ending) :=
  if rules.isEmpty then [([], .emptyBlock)] else rules.flatMap ends

/-- A way down goes on with each of the ways below if it ends in a leaf. An empty block takes
nothing up. -/
def continued (below : List (Path D × Ending)) : Path D × Ending → List (Path D × Ending)
  | (path, .leaf) => below.map (Prod.map (path ++ ·) id)
  | (path, .emptyBlock) => [(path, .emptyBlock)]

theorem eachEnds_eq_flatMap (rules : List (Rule D)) : eachEnds rules = rules.flatMap ends := by
  induction rules with
  | nil => rw [eachEnds, List.flatMap_nil]
  | cons rule rest ih => rw [eachEnds, List.flatMap_cons, ih]

theorem ends_block (step : Step D) (origin : Origin) (rules : List (Rule D)) :
    (block step origin rules).ends =
      (blockEnds rules).map (Prod.map ((step, origin) :: ·) id) := by
  cases rules with
  | nil =>
      rw [ends]
      rfl
  | cons rule rest =>
      rw [ends, eachEnds_eq_flatMap]
      rfl

/-- A step in front of all ways down does not change how they go on. -/
theorem flatMap_continued_map_cons (entry : Step D × Origin) (ways below : List (Path D × Ending)) :
    (ways.map (Prod.map (entry :: ·) id)).flatMap (continued below) =
      (ways.flatMap (continued below)).map (Prod.map (entry :: ·) id) := by
  rw [List.flatMap_map, List.map_flatMap]
  congr 1
  funext way
  match way with
  | (path, .leaf) => simp [continued, Function.comp_def]
  | (path, .emptyBlock) => rfl

theorem blockEnds_map {change : Rule D → Rule D} {rules : List (Rule D)}
    {below : List (Path D × Ending)}
    (h : ∀ rule ∈ rules, (change rule).ends = rule.ends.flatMap (continued below)) :
    blockEnds (rules.map change) = (blockEnds rules).flatMap (continued below) := by
  cases rules with
  | nil => rfl
  | cons rule rest =>
      have hafter : blockEnds ((rule :: rest).map change) =
          ((rule :: rest).map change).flatMap ends := rfl
      have hbefore : blockEnds (rule :: rest) = (rule :: rest).flatMap ends := rfl
      rw [hafter, hbefore, List.flatMap_map, List.flatMap_assoc, List.flatMap_congr h]

theorem ChangesLeaves.ends_eq {change : Rule D → Rule D} (h : ChangesLeaves change)
    {below : List (Path D × Ending)}
    (hleaf : ∀ step origin,
      (change (leaf step origin)).ends = continued below ([(step, origin)], .leaf))
    (rule : Rule D) : (change rule).ends = rule.ends.flatMap (continued below) := by
  induction rule using inductionOn with
  | leaf step origin => rw [hleaf, ends, List.flatMap_singleton]
  | chain step origin next ih => rw [h.chain, ends, ih, ends, flatMap_continued_map_cons]
  | block step origin rules ih =>
      rw [h.block, ends_block, blockEnds_map ih, ends_block, flatMap_continued_map_cons]

theorem ends_append (rule next : Rule D) :
    (rule.append next).ends = rule.ends.flatMap (continued next.ends) :=
  (changesLeaves_append next).ends_eq (fun _ _ => by simp only [append, ends]; rfl) rule

theorem ends_attach (rule : Rule D) (opened : List (Rule D)) :
    (rule.attach opened).ends = rule.ends.flatMap (continued (blockEnds opened)) :=
  (changesLeaves_attach opened).ends_eq
    (fun _ _ => by simp only [attach, ends_block]; rfl) rule

/-! ## Paths -/

/-- The steps on those ways down that end in leaves. -/
def leafPaths (ways : List (Path D × Ending)) : List (Path D) :=
  (ways.filter (fun way => way.2 = .leaf)).map Prod.fst

theorem leafPaths_map_cons (entry : Step D × Origin) (ways : List (Path D × Ending)) :
    leafPaths (ways.map (Prod.map (entry :: ·) id)) = (leafPaths ways).map (entry :: ·) := by
  simp [leafPaths, List.filter_map, Function.comp_def]

theorem leafPaths_flatMap {α : Type} (ways : α → List (Path D × Ending)) (items : List α) :
    leafPaths (items.flatMap ways) = items.flatMap fun item => leafPaths (ways item) := by
  simp only [leafPaths, List.filter_flatMap, List.map_flatMap]

/-- The paths of a rule are its ways down to a leaf. -/
theorem leafPaths_ends (rule : Rule D) : leafPaths rule.ends = rule.paths := by
  induction rule using inductionOn with
  | leaf step origin =>
      rw [ends, paths]
      rfl
  | chain step origin next ih => rw [ends, leafPaths_map_cons, ih, paths]
  | block step origin rules ih =>
      rw [ends_block, leafPaths_map_cons, paths_block, ← List.flatMap_congr ih]
      cases rules with
      | nil => rfl
      | cons rule rest => rw [← leafPaths_flatMap]; rfl

theorem leafPaths_blockEnds (rules : List (Rule D)) :
    leafPaths (blockEnds rules) = rules.flatMap paths := by
  rw [← List.flatMap_congr fun rule _ => leafPaths_ends rule]
  cases rules with
  | nil => rfl
  | cons rule rest => rw [← leafPaths_flatMap]; rfl

theorem leafPaths_flatMap_continued (ways below : List (Path D × Ending)) :
    leafPaths (ways.flatMap (continued below)) =
      (leafPaths ways).flatMap fun path => (leafPaths below).map (path ++ ·) := by
  induction ways with
  | nil => rfl
  | cons way rest ih =>
      rw [leafPaths_flatMap] at ih ⊢
      rw [List.flatMap_cons, ih]
      match way with
      | (path, .leaf) => simp [leafPaths, continued, List.filter_map, Function.comp_def]
      | (path, .emptyBlock) => simp [leafPaths, continued]

theorem paths_append (rule next : Rule D) :
    (rule.append next).paths =
      rule.paths.flatMap fun path => next.paths.map (path ++ ·) := by
  rw [← leafPaths_ends, ends_append, leafPaths_flatMap_continued, leafPaths_ends, leafPaths_ends]

theorem paths_attach (rule : Rule D) (opened : List (Rule D)) :
    (rule.attach opened).paths =
      rule.paths.flatMap fun path => (opened.flatMap paths).map (path ++ ·) := by
  rw [← leafPaths_ends, ends_attach, leafPaths_flatMap_continued, leafPaths_ends,
    leafPaths_blockEnds]

/-! ## Rows -/

theorem isFilled_block {step : Step D} {origin : Origin} {rules : List (Rule D)} :
    (block step origin rules).IsFilled ↔
      (rules ≠ [] ∧ ∀ rule ∈ rules, rule.IsFilled) ∧ step.events? ≠ some [] := by
  rw [IsFilled, eachFilled_iff]

/-- Where the leaves take up something that may have gaps, the rule has no gaps just if it had
none before and there are none in what the leaves take up: without gaps there is a leaf. -/
theorem ChangesLeaves.isFilled_iff {change : Rule D → Rule D} (h : ChangesLeaves change)
    {Below : Prop}
    (hleaf : ∀ step origin,
      (change (leaf step origin)).IsFilled ↔ (leaf step origin).IsFilled ∧ Below)
    (rule : Rule D) : (change rule).IsFilled ↔ rule.IsFilled ∧ Below := by
  induction rule using inductionOn with
  | leaf step origin => exact hleaf step origin
  | chain step origin next ih => rw [h.chain, IsFilled, ih, IsFilled, and_right_comm]
  | block step origin rules ih =>
      have hrules : (rules.map change ≠ [] ∧ ∀ rule ∈ rules, rule.IsFilled ∧ Below) ↔
          (rules ≠ [] ∧ ∀ rule ∈ rules, rule.IsFilled) ∧ Below := by
        cases rules with
        | nil => simp
        | cons rule rest =>
            constructor
            · rintro ⟨-, hall⟩
              exact ⟨⟨List.cons_ne_nil rule rest, fun inner hinner => (hall inner hinner).1⟩,
                (hall rule List.mem_cons_self).2⟩
            · rintro ⟨⟨-, hall⟩, hbelow⟩
              exact ⟨List.cons_ne_nil _ _, fun inner hinner => ⟨hall inner hinner, hbelow⟩⟩
      rw [h.block, isFilled_block, isFilled_block, List.forall_mem_map, forall₂_congr ih, hrules,
        and_right_comm]

theorem isFilled_append (rule next : Rule D) :
    (rule.append next).IsFilled ↔ rule.IsFilled ∧ next.IsFilled :=
  (changesLeaves_append next).isFilled_iff
    (fun _ _ => by rw [append, IsFilled, IsFilled, and_comm]) rule

theorem isFilled_attach (rule : Rule D) (opened : List (Rule D)) :
    (rule.attach opened).IsFilled ↔
      rule.IsFilled ∧ opened ≠ [] ∧ ∀ inner ∈ opened, inner.IsFilled :=
  (changesLeaves_attach opened).isFilled_iff
    (fun _ _ => by rw [attach, isFilled_block, IsFilled, and_comm]) rule

theorem rows_eq_ok_iff {group : RuleGroup} {rule : Rule D} {rows : List (OpenRow D)} :
    rule.rows group = .ok rows ↔
      rule.IsFilled ∧ rows = rule.paths.flatMap (Path.openRows group) := by
  constructor
  · intro h
    exact ⟨(exists_rows_iff group rule).mp ⟨rows, h⟩, rows_eq_of_ok h⟩
  · intro h
    rcases h with ⟨hfilled, rfl⟩
    obtain ⟨rows, hrows⟩ := (exists_rows_iff group rule).mpr hfilled
    rw [hrows, rows_eq_of_ok hrows]

/-- Continuing a rule continues its paths in place: each goes on with every path of what
follows, in document order, and an empty block is left as it is. Rules can be continued in any
order, and what follows a block makes the same tree as if it stood on every rule of the block,
so it expands to the same rows. These are the rows of the continued paths, and there are rows
just if nothing is missing in the rule and in what follows. -/
theorem continuation_extends_paths (rule : Rule D) :
    (∀ next : Rule D,
      (rule.append next).paths = rule.paths.flatMap (fun path => next.paths.map (path ++ ·)) ∧
      (rule.append next).ends = rule.ends.flatMap (continued next.ends)) ∧
    (∀ opened : List (Rule D),
      (rule.attach opened).paths =
        rule.paths.flatMap (fun path => (opened.flatMap paths).map (path ++ ·)) ∧
      (rule.attach opened).ends = rule.ends.flatMap (continued (blockEnds opened))) ∧
    (∀ next last : Rule D, (rule.append next).append last = rule.append (next.append last)) ∧
    (∀ (opened : List (Rule D)) (next : Rule D),
      (rule.append next).attach opened = rule.append (next.attach opened) ∧
      (rule.attach opened).append next = rule.attach (opened.map fun inner => inner.append next)) ∧
    (∀ opened further : List (Rule D),
      (rule.attach opened).attach further =
        rule.attach (opened.map fun inner => inner.attach further)) ∧
    ∀ (group : RuleGroup) (rows : List (OpenRow D)),
      (∀ next : Rule D, (rule.append next).rows group = .ok rows ↔
        (rule.IsFilled ∧ next.IsFilled) ∧
        rows = rule.paths.flatMap fun path =>
          next.paths.flatMap fun rest => Path.openRows group (path ++ rest)) ∧
      ∀ opened : List (Rule D), (rule.attach opened).rows group = .ok rows ↔
        (rule.IsFilled ∧ opened ≠ [] ∧ ∀ inner ∈ opened, inner.IsFilled) ∧
        rows = rule.paths.flatMap fun path =>
          opened.flatMap fun inner =>
            inner.paths.flatMap fun rest => Path.openRows group (path ++ rest) := by
  refine ⟨fun next => ⟨paths_append rule next, ends_append rule next⟩,
    fun opened => ⟨paths_attach rule opened, ends_attach rule opened⟩, append_assoc rule,
    fun opened next => ⟨append_attach rule next opened, attach_append rule next opened⟩,
    attach_attach rule, fun group rows => ⟨fun next => ?_, fun opened => ?_⟩⟩
  · rw [rows_eq_ok_iff, isFilled_append, paths_append]
    simp only [List.flatMap_assoc, List.flatMap_map]
  · rw [rows_eq_ok_iff, isFilled_attach, paths_attach]
    simp only [List.flatMap_assoc, List.flatMap_map]

end Rule

end RuleMachine
