import Mathlib.Data.List.Flatten
import RuleMachine.Proofs.Row.Report
import RuleMachine.Proofs.Scope.Faults
import RuleMachine.Proofs.Table.Specificity
import RuleMachine.Proofs.Table.Storage

/-! # Which empty blocks are reported

A rule is looked at from its leaves back to the root, and no further than to the first step
below which something is empty. So of the empty nodes of a rule the innermost ones are
reported, and a step that asks for one of no events goes unnoticed above any of them. What a
definition without states holds is not looked at either. Everything else that is empty is
reported, in the order of the declarations and beside whatever else is wrong.
-/

namespace RuleMachine

variable {D : Domain}

def BuildError.isEmptyBlock {V : Vocabulary} : BuildError V → Bool
  | emptyBlock _ _ => true
  | _ => false

theorem append_eq_append_iff_of_sublist {α : Type} {first second all others : List α}
    (hfirst : first.Sublist all) (hsecond : second.Sublist others) :
    first ++ second = all ++ others ↔ first = all ∧ second = others := by
  constructor
  · intro heq
    have hlength := congrArg List.length heq
    rw [List.length_append, List.length_append] at hlength
    have hle := hsecond.length_le
    obtain rfl := hfirst.eq_of_length_le (by omega)
    exact ⟨rfl, List.append_cancel_left heq⟩
  · rintro ⟨rfl, rfl⟩
    rfl

/-- What is made of smaller parts is the same as what is made of larger ones only if no part is
smaller. -/
theorem flatMap_eq_flatMap_iff_of_sublist {α β : Type} {part whole : α → List β} {items : List α}
    (h : ∀ item ∈ items, (part item).Sublist (whole item)) :
    items.flatMap part = items.flatMap whole ↔ ∀ item ∈ items, part item = whole item := by
  induction items with
  | nil => simp
  | cons item rest ih =>
      obtain ⟨hitem, hrest⟩ := List.forall_mem_cons.mp h
      rw [List.flatMap_cons, List.flatMap_cons,
        append_eq_append_iff_of_sublist hitem (List.Sublist.flatMap_right rest hrest), ih hrest,
        List.forall_mem_cons]

theorem map_filter_eq_map_filter_iff {α β : Type} {fewer more : α → Bool} {value : α → β}
    {items : List α} (h : ∀ item, fewer item → more item) :
    (items.filter fewer).map value = (items.filter more).map value ↔
      ∀ item ∈ items, more item → fewer item := by
  have hsub : (items.filter fewer).Sublist (items.filter more) :=
    List.monotone_filter_right items h
  constructor
  · intro heq item hitem hmore
    have hlength := congrArg List.length heq
    rw [List.length_map, List.length_map] at hlength
    have hmem : item ∈ items.filter fewer :=
      hsub.eq_of_length hlength ▸ List.mem_filter.mpr ⟨hitem, hmore⟩
    exact (List.mem_filter.mp hmem).2
  · intro hmore
    rw [List.filter_congr fun item hitem => Bool.eq_iff_iff.mpr ⟨h item, hmore item hitem⟩]

/-! ## Rules -/

/-- The step asks for one of no events. -/
def Step.isHollow : Step D → Bool
  | whenEvent [] => true
  | _ => false

namespace Step

theorem isHollow_iff {step : Step D} : step.isHollow ↔ step.events? = some [] := by
  cases step with
  | whenEvent events => cases events <;> simp [isHollow, events?]
  | _ => simp [isHollow, events?]

theorem errors_extend (origin : Origin) (step : Step D) (rows : List (OpenRow D)) :
    Checked.errors (step.extend origin rows) =
      if step.isHollow then [.emptyBlock step.construct origin] else [] := by
  cases step with
  | whenEvent events => cases events <;> rfl
  | _ => rfl

end Step

namespace Rule

/-- What follows directly on the root. -/
def children : Rule D → List (Rule D)
  | leaf _ _ => []
  | chain _ _ next => [next]
  | block _ _ rules => rules

/-- What a rule has if all that follows on its root has it, all rules have. -/
@[elab_as_elim]
theorem childrenInduction {motive : Rule D → Prop}
    (node : ∀ rule, (∀ child ∈ rule.children, motive child) → motive rule) (rule : Rule D) :
    motive rule := by
  induction rule using inductionOn with
  | leaf step origin => exact node _ (List.forall_mem_nil _)
  | chain step origin next ih => exact node _ (List.forall_mem_singleton.mpr ih)
  | block step origin rules ih => exact node _ ih

mutual

/-- The nodes of a rule, each after those below it. -/
def nodes : Rule D → List (Rule D)
  | leaf step origin => [leaf step origin]
  | chain step origin next => next.nodes ++ [chain step origin next]
  | block step origin rules => eachNodes rules ++ [block step origin rules]

def eachNodes : List (Rule D) → List (Rule D)
  | [] => []
  | rule :: rest => rule.nodes ++ eachNodes rest

end

/-- The nodes below the root. -/
def innerNodes (rule : Rule D) : List (Rule D) :=
  rule.children.flatMap nodes

theorem eachNodes_eq_flatMap (rules : List (Rule D)) : eachNodes rules = rules.flatMap nodes := by
  induction rules with
  | nil => rw [eachNodes, List.flatMap_nil]
  | cons rule rest ih => rw [eachNodes, List.flatMap_cons, ih]

theorem nodes_eq (rule : Rule D) : rule.nodes = rule.innerNodes ++ [rule] := by
  cases rule with
  | leaf step origin => rfl
  | chain step origin next => rw [nodes, innerNodes, children, List.flatMap_singleton]
  | block step origin rules => rw [nodes, innerNodes, children, eachNodes_eq_flatMap]

theorem mem_nodes_self (rule : Rule D) : rule ∈ rule.nodes :=
  rule.nodes_eq ▸ List.mem_concat_self

/-- What is below a node of a rule is a node of the rule. -/
theorem nodes_subset {rule node : Rule D} (h : node ∈ rule.nodes) :
    ∀ inner ∈ node.nodes, inner ∈ rule.nodes := by
  induction rule using childrenInduction with
  | node rule ih =>
      rw [nodes_eq, List.mem_append, List.mem_singleton] at h
      rcases h with hbelow | rfl
      · intro inner hinner
        obtain ⟨child, hchild, hnode⟩ := List.mem_flatMap.mp hbelow
        rw [nodes_eq, List.mem_append]
        exact .inl (List.mem_flatMap.mpr ⟨child, hchild, ih child hchild hnode inner hinner⟩)
      · exact fun _ hinner => hinner

/-! ### Empty nodes -/

/-- The root is a block without rules, or its step asks for one of no events. -/
def isHollow : Rule D → Bool
  | leaf step _ | chain step _ _ => step.isHollow
  | block step _ rules => rules.isEmpty || step.isHollow

/-- The root is empty itself, and nothing below it is. -/
def isReported (rule : Rule D) : Bool :=
  rule.isHollow && rule.innerNodes.all (!·.isHollow)

/-- What is reported about the root if it is empty. -/
def emptyRoot (rule : Rule D) : BuildError D :=
  .emptyBlock rule.construct rule.origin

theorem isReported_iff {rule : Rule D} : rule.isReported ↔
    rule.isHollow ∧ ∀ inner ∈ rule.innerNodes, inner.isHollow = false := by
  simp only [isReported, Bool.and_eq_true, List.all_eq_true, Bool.not_eq_true']

/-- Below an empty node of the rule there is no other one. -/
def HidesNothing (rule : Rule D) : Prop :=
  ∀ node ∈ rule.nodes, node.isHollow → ∀ inner ∈ node.innerNodes, inner.isHollow = false

theorem hidesNothing_iff {rule : Rule D} :
    rule.HidesNothing ↔ ∀ node ∈ rule.nodes, node.isHollow → node.isReported := by
  refine forall₂_congr fun node _ => forall_congr' fun hhollow => ?_
  rw [isReported_iff, and_iff_right hhollow]

/-- A rule is filled if its root is not empty and what follows on it is filled. -/
theorem isFilled_iff_children (rule : Rule D) :
    rule.IsFilled ↔ (∀ child ∈ rule.children, child.IsFilled) ∧ rule.isHollow = false := by
  have hstep : ∀ step : Step D, step.events? ≠ some [] ↔ step.isHollow = false := by
    intro step
    rw [← Bool.not_eq_true, Step.isHollow_iff]
  cases rule with
  | leaf step origin => simp [IsFilled, children, isHollow, hstep]
  | chain step origin next => simp [IsFilled, children, isHollow, hstep]
  | block step origin rules =>
      simp only [IsFilled, children, isHollow, eachFilled_iff, hstep, ne_eq,
        Bool.or_eq_false_iff, List.isEmpty_eq_false_iff]
      tauto

/-- A rule is filled if none of its nodes is empty. -/
theorem isFilled_iff_nodes (rule : Rule D) :
    rule.IsFilled ↔ ∀ node ∈ rule.nodes, node.isHollow = false := by
  induction rule using childrenInduction with
  | node rule ih =>
      rw [isFilled_iff_children, nodes_eq, List.forall_mem_append, List.forall_mem_singleton,
        innerNodes, List.forall_mem_flatMap]
      exact and_congr_left fun _ => forall₂_congr ih

/-- A rule with empty nodes has some below which there are none. -/
theorem exists_isReported {rule : Rule D} (h : ∃ node ∈ rule.nodes, node.isHollow) :
    ∃ node ∈ rule.nodes, node.isReported := by
  induction rule using childrenInduction with
  | node rule ih =>
      by_cases hbelow : ∃ inner ∈ rule.innerNodes, inner.isHollow
      · obtain ⟨inner, hinner, hhollow⟩ := hbelow
        obtain ⟨child, hchild, hnode⟩ := List.mem_flatMap.mp hinner
        obtain ⟨node, hnode, hreported⟩ := ih child hchild ⟨inner, hnode, hhollow⟩
        refine ⟨node, ?_, hreported⟩
        rw [nodes_eq, List.mem_append]
        exact .inl (List.mem_flatMap.mpr ⟨child, hchild, hnode⟩)
      · -- Nothing below is empty, so it is the root that is.
        push Not at hbelow
        obtain ⟨node, hnode, hhollow⟩ := h
        rw [nodes_eq, List.mem_append, List.mem_singleton] at hnode
        rcases hnode with hinner | rfl
        · exact absurd hhollow (hbelow node hinner)
        · refine ⟨node, mem_nodes_self node, isReported_iff.mpr ⟨hhollow, fun inner hinner => ?_⟩⟩
          exact Bool.eq_false_iff.mpr (hbelow inner hinner)

/-! ### What is reported -/

theorem eachRows_eq_gather (group : RuleGroup) (rules : List (Rule D)) :
    eachRows group rules = Checked.gather (rules.map (Rule.rows group)) := by
  induction rules with
  | nil => rw [eachRows, List.map_nil, Checked.gather]
  | cons rule rest ih => rw [eachRows, List.map_cons, Checked.gather, ih]

theorem errors_eachRows (group : RuleGroup) (rules : List (Rule D)) :
    Checked.errors (eachRows group rules) =
      rules.flatMap (fun rule => Checked.errors (rule.rows group)) := by
  rw [eachRows_eq_gather, Checked.errors_gather, List.flatMap_map]

theorem exists_eachRows_iff_all (group : RuleGroup) (rules : List (Rule D)) :
    (∃ rows, eachRows group rules = .ok rows) ↔ (rules.flatMap nodes).all (!·.isHollow) := by
  rw [exists_eachRows_iff, eachFilled_iff]
  simp only [isFilled_iff_nodes, List.all_eq_true, Bool.not_eq_true', List.forall_mem_flatMap]

/-- The errors below a step are passed on, and the step is looked at if there are none. -/
theorem errors_bind_extend {check : Checked (BuildError D) (List (OpenRow D))} {step : Step D}
    {origin : Origin} {filled : Bool} (h : (∃ rows, check = .ok rows) ↔ filled) :
    Checked.errors (check.bind (step.extend origin)) =
      Checked.errors check ++
        if step.isHollow && filled then [.emptyBlock step.construct origin] else [] := by
  cases check with
  | error errors =>
      have hopen : filled = false := Bool.eq_false_iff.mpr fun hfilled => nomatch h.mpr hfilled
      rw [hopen, Bool.and_false, if_neg Bool.false_ne_true, List.append_nil]
      rfl
  | ok rows =>
      rw [h.mp ⟨rows, rfl⟩, Bool.and_true]
      exact step.errors_extend origin rows

/-- The root adds to what is reported below it just if nothing is empty there. -/
theorem errors_rows_children (group : RuleGroup) (rule : Rule D) :
    Checked.errors (rule.rows group) =
      rule.children.flatMap (fun child => Checked.errors (child.rows group)) ++
        if rule.isReported then [rule.emptyRoot] else [] := by
  cases rule with
  | leaf step origin =>
      rw [isReported, isHollow, innerNodes, children, List.flatMap_nil, List.flatMap_nil,
        List.all_nil, Bool.and_true]
      exact step.errors_extend origin _
  | chain step origin next =>
      have hbelow : (∃ rows, next.rows group = .ok rows) ↔
          (innerNodes (.chain step origin next)).all (!·.isHollow) := by
        rw [exists_rows_iff, isFilled_iff_nodes, innerNodes, children, List.flatMap_singleton]
        simp only [List.all_eq_true, Bool.not_eq_true']
      rw [Rule.rows, errors_bind_extend hbelow, children, List.flatMap_singleton]
      rfl
  | block step origin rules =>
      cases rules with
      | nil => rfl
      | cons rule rest =>
          rw [rows_block_cons, errors_bind_extend (exists_eachRows_iff_all group (rule :: rest)),
            errors_eachRows]
          rfl

/-- A rule reports its innermost empty nodes. -/
theorem errors_rows (group : RuleGroup) (rule : Rule D) :
    Checked.errors (rule.rows group) = (rule.nodes.filter isReported).map emptyRoot := by
  induction rule using childrenInduction with
  | node rule ih =>
      rw [errors_rows_children, List.flatMap_congr ih, nodes_eq]
      simp only [innerNodes, List.filter_append, List.map_append, List.filter_flatMap,
        List.map_flatMap, List.filter_singleton, Bool.cond_eq_ite]
      split <;> rfl

end Rule

/-! ## Scopes -/

namespace Scope

/-- The empty blocks that a scope itself holds: its list of rules if that is empty, and
otherwise the nodes that count. -/
def ownEmpties (counts : Rule D → Bool) (construct : Construct) (scope : Scope D) :
    List (BuildError D) :=
  match scope.rules with
  | some [] => [.emptyBlock construct scope.origin]
  | _ => ((scope.ownRules.flatMap Rule.nodes).filter counts).map Rule.emptyRoot

/-- The empty blocks of a scope and of all that it adopts. -/
def empties (counts : Rule D → Bool) (construct : Construct) (scope : Scope D) :
    List (BuildError D) :=
  (adoptedLineage scope.adopted).flatMap (ownEmpties counts .superstate) ++
    scope.ownEmpties counts construct

theorem lineage_eq (scope : Scope D) :
    scope.lineage = adoptedLineage scope.adopted ++ [scope] := by
  cases scope
  rw [lineage]

theorem errors_listRows (construct : Construct) (scope : Scope D) :
    Checked.errors (Rule.listRows construct scope.origin scope.group scope.rules) =
      scope.ownEmpties Rule.isReported construct := by
  have hrules : ∀ rules : List (Rule D), Checked.errors (Rule.eachRows scope.group rules) =
      ((rules.flatMap Rule.nodes).filter Rule.isReported).map Rule.emptyRoot := by
    intro rules
    simp only [Rule.errors_eachRows, Rule.errors_rows, List.filter_flatMap, List.map_flatMap]
  rw [ownEmpties, ownRules]
  cases scope.rules with
  | none => rfl
  | some rules =>
      cases rules with
      | nil => rfl
      | cons rule rest => exact hrules (rule :: rest)

mutual

/-- A scope reports the innermost empty nodes of all rules that count for it, and each list of
rules that is empty. -/
theorem errors_rows (construct : Construct) : ∀ scope : Scope D,
    Checked.errors (scope.rows construct) = scope.empties Rule.isReported construct
  | ⟨origin, group, adopted, onEntry, onExit, rules⟩ => by
    rw [Scope.rows, Checked.errors_append, errors_adoptedRows adopted, empties]
    exact congrArg _ (errors_listRows construct ⟨origin, group, adopted, onEntry, onExit, rules⟩)

theorem errors_adoptedRows : ∀ scopes : List (Scope D),
    Checked.errors (adoptedRows scopes) =
      (adoptedLineage scopes).flatMap (ownEmpties Rule.isReported .superstate)
  | [] => rfl
  | scope :: rest => by
    rw [adoptedRows, Checked.errors_append, errors_rows .superstate scope,
      errors_adoptedRows rest, adoptedLineage, lineage_eq, List.flatMap_append,
      List.flatMap_append, List.flatMap_singleton, empties]

end

theorem isEmptyBlock_of_mem_ownEmpties {counts : Rule D → Bool} {construct : Construct}
    {scope : Scope D} {error : BuildError D} (h : error ∈ scope.ownEmpties counts construct) :
    error.isEmptyBlock := by
  rw [ownEmpties] at h
  split at h
  · rw [List.mem_singleton.mp h]
    rfl
  · obtain ⟨node, -, rfl⟩ := List.mem_map.mp h
    rfl

theorem isEmptyBlock_of_mem_empties {counts : Rule D → Bool} {construct : Construct}
    {scope : Scope D} {error : BuildError D} (h : error ∈ scope.empties counts construct) :
    error.isEmptyBlock := by
  rcases List.mem_append.mp h with hadopted | hown
  · obtain ⟨member, -, hmember⟩ := List.mem_flatMap.mp hadopted
    exact isEmptyBlock_of_mem_ownEmpties hmember
  · exact isEmptyBlock_of_mem_ownEmpties hown

theorem emptyRoot_mem_ownEmpties {counts : Rule D → Bool} {construct : Construct}
    {scope : Scope D} {rule node : Rule D} (hrule : rule ∈ scope.ownRules)
    (hnode : node ∈ rule.nodes) (hcounts : counts node) :
    node.emptyRoot ∈ scope.ownEmpties counts construct := by
  rw [ownEmpties]
  split
  next hempty => simp [ownRules, hempty] at hrule
  next =>
    have hmem : node ∈ scope.ownRules.flatMap Rule.nodes :=
      List.mem_flatMap.mpr ⟨rule, hrule, hnode⟩
    exact List.mem_map_of_mem (List.mem_filter.mpr ⟨hmem, hcounts⟩)

/-- The nodes that count are among what is empty, whichever scope of the lineage they are in. -/
theorem emptyRoot_mem_empties {counts : Rule D → Bool} {construct : Construct} {scope : Scope D}
    {rule node : Rule D} (hrule : rule ∈ scope.allRules) (hnode : node ∈ rule.nodes)
    (hcounts : counts node) : node.emptyRoot ∈ scope.empties counts construct := by
  rw [allRules, lineage_eq, List.flatMap_append, List.mem_append, List.flatMap_singleton] at hrule
  rcases hrule with hadopted | hown
  · obtain ⟨member, hmember, hrule⟩ := List.mem_flatMap.mp hadopted
    exact List.mem_append_left _
      (List.mem_flatMap.mpr ⟨member, hmember, emptyRoot_mem_ownEmpties hrule hnode hcounts⟩)
  · exact List.mem_append_right _ (emptyRoot_mem_ownEmpties hown hnode hcounts)

/-! ### What goes unnoticed -/

theorem ownEmpties_sublist (construct : Construct) (scope : Scope D) :
    (scope.ownEmpties Rule.isReported construct).Sublist
      (scope.ownEmpties Rule.isHollow construct) := by
  rw [ownEmpties, ownEmpties]
  split
  · exact List.Sublist.refl _
  · exact (List.monotone_filter_right _ fun _ h => (Rule.isReported_iff.mp h).1).map _

theorem ownEmpties_eq_iff (construct : Construct) (scope : Scope D) :
    scope.ownEmpties Rule.isReported construct = scope.ownEmpties Rule.isHollow construct ↔
      ∀ rule ∈ scope.ownRules, rule.HidesNothing := by
  simp only [Rule.hidesNothing_iff, ← List.forall_mem_flatMap]
  rw [ownEmpties, ownEmpties]
  split
  next hempty => simp [ownRules, hempty]
  next => exact map_filter_eq_map_filter_iff fun _ h => (Rule.isReported_iff.mp h).1

theorem empties_sublist (construct : Construct) (scope : Scope D) :
    (scope.empties Rule.isReported construct).Sublist (scope.empties Rule.isHollow construct) :=
  (List.Sublist.flatMap_right _ fun member _ => member.ownEmpties_sublist .superstate).append
    (scope.ownEmpties_sublist construct)

/-- Everything that is empty in a scope is reported just if nothing is empty below an empty
node. -/
theorem empties_eq_iff (construct : Construct) (scope : Scope D) :
    scope.empties Rule.isReported construct = scope.empties Rule.isHollow construct ↔
      ∀ rule ∈ scope.allRules, rule.HidesNothing := by
  rw [empties, empties, append_eq_append_iff_of_sublist
    (List.Sublist.flatMap_right _ fun member _ => member.ownEmpties_sublist .superstate)
    (scope.ownEmpties_sublist construct),
    flatMap_eq_flatMap_iff_of_sublist fun member _ => member.ownEmpties_sublist .superstate]
  simp only [ownEmpties_eq_iff, allRules, List.forall_mem_flatMap, lineage_eq,
    List.forall_mem_append, List.forall_mem_singleton]

/-- A scope that is empty nowhere has nothing to hide. -/
theorem hidesNothing_of_empties_eq_nil {construct : Construct} {scope : Scope D}
    (h : scope.empties Rule.isHollow construct = []) :
    ∀ rule ∈ scope.allRules, rule.HidesNothing := by
  have hnone := List.sublist_nil.mp (h ▸ scope.empties_sublist construct)
  exact (scope.empties_eq_iff construct).mp (hnone.trans h.symm)

end Scope

/-! ## Definitions -/

theorem OpenRow.isEmptyBlock_eq_false_of_mem_requireEvent {row : OpenRow D} {error : BuildError D}
    (h : error ∈ Checked.errors row.requireEvent) : error.isEmptyBlock = false := by
  unfold requireEvent at h
  split at h
  next => exact absurd h List.not_mem_nil
  next =>
    rw [List.mem_singleton.mp h]
    rfl

namespace Definition

/-- Everything in a definition that is empty: its list of states, and the empty blocks of its
scope. -/
def empties (definition : Definition D) : List (BuildError D) :=
  (if definition.states.isEmpty then [.emptyBlock .define definition.scope.origin] else []) ++
    definition.scope.empties Rule.isHollow .define

/-- What is reported of it. -/
def reportedEmpties (definition : Definition D) : List (BuildError D) :=
  if definition.states.isEmpty then [.emptyBlock .define definition.scope.origin]
  else definition.scope.empties Rule.isReported .define

/-- Nothing that is empty keeps anything else that is empty from being reported. -/
structure HidesNothing (definition : Definition D) : Prop where
  states : definition.states = [] → definition.scope.empties Rule.isHollow .define = []
  rules : ∀ rule ∈ definition.scope.allRules, rule.HidesNothing

theorem reportedEmpties_sublist (definition : Definition D) :
    definition.reportedEmpties.Sublist definition.empties := by
  rw [reportedEmpties, empties]
  split
  · exact List.sublist_append_left _ _
  · exact definition.scope.empties_sublist .define

theorem reportedEmpties_eq_iff (definition : Definition D) :
    definition.reportedEmpties = definition.empties ↔ definition.HidesNothing := by
  rw [reportedEmpties, empties]
  split
  next hnone =>
    rw [List.isEmpty_iff] at hnone
    rw [List.self_eq_append_right]
    exact ⟨fun h => ⟨fun _ => h, Scope.hidesNothing_of_empties_eq_nil h⟩, fun h => h.states hnone⟩
  next hsome =>
    rw [List.isEmpty_iff] at hsome
    rw [List.nil_append, Scope.empties_eq_iff]
    exact ⟨fun h => ⟨fun hnone => absurd hnone hsome, h⟩, fun h => h.rules⟩

/-- Rows without an event come after everything that is empty. -/
theorem filter_errors_draftRows (definition : Definition D) :
    (Checked.errors definition.draftRows).filter BuildError.isEmptyBlock =
      definition.reportedEmpties := by
  rw [draftRows, reportedEmpties]
  split
  next => rfl
  next =>
    refine (Checked.filter_errors_bind fun rows error herror => ?_).trans ?_
    · rcases Checked.mem_errors_bind_iff.mp herror with hevent | ⟨complete, -, hnone⟩
      · rw [Checked.errors_gather, List.flatMap_map] at hevent
        obtain ⟨row, -, hrow⟩ := List.mem_flatMap.mp hevent
        exact OpenRow.isEmptyBlock_eq_false_of_mem_requireEvent hrow
      · exact absurd hnone List.not_mem_nil
    · rw [Scope.errors_rows, List.filter_eq_self]
      exact fun _ herror => Scope.isEmptyBlock_of_mem_empties herror

theorem filter_errors_rows (definitions : List (Definition D)) :
    (Checked.errors (Definition.rows definitions)).filter BuildError.isEmptyBlock =
      definitions.flatMap reportedEmpties := by
  refine (Checked.filter_errors_bind fun drafts error herror => ?_).trans ?_
  · rw [DraftRow.errors_resolveAll] at herror
    obtain ⟨fault, -, rfl⟩ := List.mem_map.mp herror
    rfl
  · simp only [Checked.errors_gather, List.flatMap_map, List.filter_flatMap,
      filter_errors_draftRows]

end Definition

/-! ## Tables -/

namespace Table

theorem isEmptyBlock_eq_false_of_mem_requireRows {rows : List (Row D)} {error : BuildError D}
    (h : error ∈ Checked.errors (requireRows rows)) : error.isEmptyBlock = false := by
  cases rows with
  | nil =>
      rw [List.mem_singleton.mp h]
      rfl
  | cons row rest => exact absurd h List.not_mem_nil

theorem isEmptyBlock_eq_false_of_overrideFault? {earlier later : List (Row D)} {row : Row D}
    {error : BuildError D} (h : Row.overrideFault? earlier row later = some error) :
    error.isEmptyBlock = false := by
  rw [Row.overrideFault?] at h
  split_ifs at h <;> cases h <;> rfl

theorem isEmptyBlock_eq_false_of_mem_validate {rows : List (Row D)} {error : BuildError D}
    (h : error ∈ Checked.errors (Row.validate rows)) : error.isEmptyBlock = false := by
  cases hvalidate : Row.validate rows with
  | ok kept =>
      rw [hvalidate] at h
      exact absurd h List.not_mem_nil
  | error errors =>
      rw [hvalidate, Checked.errors, (Row.validate_eq_error_iff.mp hvalidate).2, Row.reports] at h
      simp only [List.mem_append, List.mem_ite_nil_left, List.mem_singleton] at h
      rcases h with (hoverride | ⟨-, rfl⟩) | ⟨-, rfl⟩
      · obtain ⟨_, -, hfault⟩ := List.mem_filterMap.mp hoverride
        exact isEmptyBlock_eq_false_of_overrideFault? hfault
      · rfl
      · rfl

theorem isEmptyBlock_eq_false_of_mem_selectBy {strategy : Strategy} {rows : List (Row D)}
    {error : BuildError D} (h : error ∈ Checked.errors (selectBy strategy rows)) :
    error.isEmptyBlock = false := by
  cases hselect : selectBy strategy rows with
  | ok selection =>
      rw [hselect] at h
      exact absurd h List.not_mem_nil
  | error errors =>
      rw [hselect, Checked.errors] at h
      cases strategy with
      | eager =>
          rw [(Eager.select_eq_error_iff.mp hselect).2, List.mem_singleton] at h
          rw [h]
          rfl
      | lazy =>
          rw [(Lazy.select_eq_error_iff.mp hselect).2, Lazy.faults] at h
          simp only [List.mem_append, List.mem_ite_nil_left, List.mem_singleton] at h
          rcases h with ⟨-, rfl⟩ | ⟨-, rfl⟩ <;> rfl

/-- Of the errors about empty blocks none comes from a later stage. -/
theorem filter_errors_compile (config : Config) (definitions : List (Definition D)) :
    (Checked.errors (compile config definitions)).filter BuildError.isEmptyBlock =
      definitions.flatMap Definition.reportedEmpties := by
  refine (Checked.filter_errors_bind fun declared error herror => ?_).trans
    (Definition.filter_errors_rows definitions)
  rcases Checked.mem_errors_bind_iff.mp herror with hrequire | ⟨rows, -, hrest⟩
  · exact isEmptyBlock_eq_false_of_mem_requireRows hrequire
  rcases Checked.mem_errors_bind_iff.mp hrest with hvalidate | ⟨kept, -, hrest⟩
  · exact isEmptyBlock_eq_false_of_mem_validate hvalidate
  rcases Checked.mem_errors_bind_iff.mp hrest with hselect | ⟨selection, -, hnone⟩
  · exact isEmptyBlock_eq_false_of_mem_selectBy hselect
  · exact absurd hnone List.not_mem_nil

theorem mem_errors_compile {config : Config} {definitions : List (Definition D)}
    {definition : Definition D} (hdefinition : definition ∈ definitions) {error : BuildError D}
    (herror : error ∈ definition.reportedEmpties) :
    error ∈ Checked.errors (compile config definitions) := by
  have hreported := List.mem_flatMap.mpr ⟨definition, hdefinition, herror⟩
  rw [← filter_errors_compile config] at hreported
  exact List.mem_of_mem_filter hreported

/-- Whatever else is wrong, the errors about empty blocks are those of the definitions, in
order: of a definition without states that it has none, and else every empty list of rules and
the innermost empty nodes of every rule that counts for it. So everything that is empty is
reported just if a definition without states is empty nowhere else, and nothing is empty below
an empty node. Under an empty node that goes unnoticed there is always one that does not. -/
theorem compile_reports_innermost (config : Config) (definitions : List (Definition D)) :
    (Checked.errors (compile config definitions)).filter BuildError.isEmptyBlock =
      definitions.flatMap Definition.reportedEmpties ∧
    ((Checked.errors (compile config definitions)).filter BuildError.isEmptyBlock =
        definitions.flatMap Definition.empties ↔
      ∀ definition ∈ definitions, definition.HidesNothing) ∧
    ∀ definition ∈ definitions,
      (definition.states = [] → .emptyBlock .define definition.scope.origin ∈
        Checked.errors (compile config definitions)) ∧
      (definition.states ≠ [] → ∀ rule ∈ definition.scope.allRules, ∀ node ∈ rule.nodes,
        node.isHollow → ∃ inner ∈ node.nodes, inner.isReported ∧
          inner.emptyRoot ∈ Checked.errors (compile config definitions)) := by
  refine ⟨filter_errors_compile config definitions, ?_, fun definition hdefinition =>
    ⟨fun hnone => ?_, fun hsome rule hrule node hnode hhollow => ?_⟩⟩
  · rw [filter_errors_compile, flatMap_eq_flatMap_iff_of_sublist fun definition _ =>
      definition.reportedEmpties_sublist]
    exact forall₂_congr fun definition _ => definition.reportedEmpties_eq_iff
  · apply mem_errors_compile hdefinition
    rw [Definition.reportedEmpties, if_pos (List.isEmpty_iff.mpr hnone)]
    exact List.mem_singleton_self _
  · obtain ⟨inner, hinner, hreported⟩ :=
      Rule.exists_isReported ⟨node, node.mem_nodes_self, hhollow⟩
    refine ⟨inner, hinner, hreported, mem_errors_compile hdefinition ?_⟩
    rw [Definition.reportedEmpties, if_neg (by rwa [List.isEmpty_iff])]
    exact Scope.emptyRoot_mem_empties hrule (Rule.nodes_subset hnode inner hinner) hreported

end Table

/-! ## A sample -/

namespace Scenario

/-- A lift whose only rule asks for no event, and holds nothing for the highest level. -/
def stalled : Definition domain where
  states := ["idle"]
  scope :=
    { origin := lineAt 3
      group := ⟨0⟩
      adopted := []
      onEntry := []
      onExit := []
      rules := some [.chain (.whenEvent []) (lineAt 4) (.block (onHighest 5) (lineAt 5) [])] }

/-- A lift that is in no state, with a rule that holds nothing. -/
def stateless : Definition domain where
  states := []
  scope :=
    { origin := lineAt 6
      group := ⟨1⟩
      adopted := []
      onEntry := []
      onExit := []
      rules := some [.block (.whenEvent [rise]) (lineAt 7) []] }

end Scenario

/-- Of four empty places two are reported. -/
theorem Table.compile_hides_empties :
    [Scenario.stalled, Scenario.stateless].flatMap Definition.empties =
      [.emptyBlock .matching (Scenario.lineAt 5), .emptyBlock .whenEvent (Scenario.lineAt 4),
        .emptyBlock .define (Scenario.lineAt 6), .emptyBlock .whenEvent (Scenario.lineAt 7)] ∧
    compile .standard [Scenario.stalled, Scenario.stateless] =
      .error [.emptyBlock .matching (Scenario.lineAt 5), .emptyBlock .define (Scenario.lineAt 6)] :=
  ⟨rfl, rfl⟩

end RuleMachine
