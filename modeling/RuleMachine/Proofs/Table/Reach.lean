import RuleMachine.Proofs.Predicate.World
import RuleMachine.Proofs.Table.Agreement
import RuleMachine.Proofs.Table.Candidates

/-! # Which rules a table reaches

A table that searches has an entry for every surviving row, since it stores each of them. A
table made ahead of time only has the sets of the closed world, and so a row is reached there
just if its values are listed as cases, and if no kind that any row mentions is without
cases. A row never loses an entry to another row that is not more specific.
-/

namespace RuleMachine

variable {D : Domain}

namespace Eager

/-- The closed world over the rows leaves room for a row: each kind that is mentioned lists a
case, and one way to satisfy the row takes listed cases only. -/
structure HasPlace (rows : List (Row D)) (row : Row D) : Prop where
  cases : ∀ other ∈ rows, ∀ kind ∈ other.descriptor.kinds, D.cases kind ≠ []
  listed : row.descriptor.concreteSets = [] ∨
    ∃ set ∈ row.descriptor.concreteSets, ∀ value ∈ set, value.IsListed

/-- Every value that the row names is one of the cases of its kind. -/
def IsListed (row : Row D) : Prop :=
  ∀ value ∈ row.descriptor.anyValues ++ row.descriptor.all, value.IsListed

instance (row : Row D) : Decidable (IsListed row) :=
  inferInstanceAs (Decidable (∀ value ∈ row.descriptor.anyValues ++ row.descriptor.all,
    value.IsListed))

variable {rows : List (Row D)} {row : Row D}

/-- The kinds that the rows mention. -/
def mentioned (rows : List (Row D)) : KindSet D :=
  KindSet.ofList (rows.flatMap (fun row => row.descriptor.kinds.toList))

theorem pool_eq_world (rows : List (Row D)) : pool rows = Vocabulary.world (mentioned rows) := rfl

theorem mem_mentioned {kind : D.Kind} :
    kind ∈ mentioned rows ↔ ∃ row ∈ rows, kind ∈ row.descriptor.kinds := by
  rw [mentioned, KindSet.ofList, SortedSet.mem_ofList, List.mem_flatMap]
  rfl

theorem HasPlace.of_accepts {set : PredicateSet D} (hset : set ∈ pool rows) {rank : Nat}
    (haccepts : row.descriptor.AcceptsAt set rank) : HasPlace rows row where
  cases other hother kind hkind :=
    Vocabulary.cases_ne_nil_of_mem_world hset (mem_mentioned.mpr ⟨other, hother, hkind⟩)
  listed := by
    rcases haccepts with ⟨hany, hall, -⟩ | ⟨choice, hchoice, hsubset, -⟩
    · exact .inl (Descriptor.concreteSets_eq_nil_iff.mpr ⟨hany, hall⟩)
    · exact .inr ⟨choice, hchoice, fun value hvalue =>
        Vocabulary.isListed_of_mem_world hset (hsubset value hvalue)⟩

/-- A set of listed cases, one of each kind at most, extends to a set of the closed world. -/
theorem exists_superset_mem_pool (hcases : ∀ kind ∈ mentioned rows, D.cases kind ≠ [])
    {asked : PredicateSet D} (hlisted : ∀ value ∈ asked, value.IsListed)
    (hkinds : ∀ value ∈ asked, value.kind ∈ mentioned rows) (hsingle : asked.SingleValued) :
    ∃ set ∈ pool rows, ∀ value ∈ asked, value ∈ set := by
  -- Of each kind the value that is asked for, if there is one, and any case otherwise.
  have hpick : ∀ kind ∈ mentioned rows, ∃ found ∈ D.cases kind,
      ∀ value ∈ asked, value.kind = kind → value = found := by
    intro kind hkind
    by_cases hasked : ∃ value ∈ asked, value.kind = kind
    · obtain ⟨found, hfound, rfl⟩ := hasked
      exact ⟨found, hlisted found hfound, fun value hvalue hsame =>
        hsingle value hvalue found hfound hsame⟩
    · obtain ⟨found, hfound⟩ := List.exists_mem_of_ne_nil _ (hcases kind hkind)
      exact ⟨found, hfound, fun value hvalue hsame => absurd ⟨value, hvalue, hsame⟩ hasked⟩
  obtain ⟨set, hset, hfound⟩ := Vocabulary.exists_mem_world hpick
  refine ⟨set, pool_eq_world rows ▸ hset, fun value hvalue => ?_⟩
  obtain ⟨found, hmem, hsame⟩ := hfound value.kind (hkinds value hvalue)
  rw [hsame value hvalue rfl]
  exact hmem

theorem HasPlace.exists_accepts (h : HasPlace rows row) (hrow : row ∈ rows)
    (hwell : row.descriptor.IsWellFormed) :
    ∃ set ∈ pool rows, ∃ rank, row.descriptor.AcceptsAt set rank := by
  have hcases : ∀ kind ∈ mentioned rows, D.cases kind ≠ [] := by
    intro kind hkind
    obtain ⟨other, hother, hmentioned⟩ := mem_mentioned.mp hkind
    exact h.cases other hother kind hmentioned
  rcases h.listed with hnone | ⟨choice, hchoice, hlisted⟩
  · obtain ⟨hany, hall⟩ := Descriptor.concreteSets_eq_nil_iff.mp hnone
    have hextends : ∃ set ∈ pool rows, ∀ value ∈ (∅ : PredicateSet D), value ∈ set :=
      exists_superset_mem_pool hcases nofun nofun nofun
    obtain ⟨set, hset, -⟩ := hextends
    exact ⟨set, hset, 0, .inl ⟨hany, hall, rfl⟩⟩
  · have hkinds : ∀ value ∈ choice, value.kind ∈ mentioned rows := fun value hvalue =>
      mem_mentioned.mpr ⟨row, hrow, Descriptor.mem_kinds.mpr
        ⟨value, Descriptor.mem_of_mem_concreteSets hchoice hvalue, rfl⟩⟩
    obtain ⟨set, hset, hsubset⟩ := exists_superset_mem_pool hcases hlisted hkinds
      (Descriptor.singleValued_of_mem_concreteSets hwell hchoice)
    exact ⟨set, hset, choice.size, .inr ⟨choice, hchoice, hsubset, rfl⟩⟩

/-- Where all rows keep to listed cases, there is room for each of them. -/
theorem hasPlace_of_isListed (h : ∀ row ∈ rows, IsListed row) (hrow : row ∈ rows) :
    HasPlace rows row where
  cases other hother kind hkind := by
    obtain ⟨value, hvalue, rfl⟩ := Descriptor.mem_kinds.mp hkind
    exact List.ne_nil_of_mem (h other hother value hvalue)
  listed := by
    by_cases hnone : row.descriptor.concreteSets = []
    · exact .inl hnone
    · obtain ⟨set, hset⟩ := List.exists_mem_of_ne_nil _ hnone
      exact .inr ⟨set, hset, fun value hvalue =>
        h row hrow value (Descriptor.mem_of_mem_concreteSets hset hvalue)⟩

end Eager

/-! ## Stored sets within a set -/

namespace Lazy

variable {key : TableKey D} {row : Row D} {rank : Nat}

/-- A row accepts a set under which it is stored at the full size of the set. -/
theorem contends_size_of_stores (h : Stores key row) :
    Eager.Contends key row key.predicates.size :=
  contends_of_stores h fun _ hvalue => hvalue

/-- No row accepts a set at more than the size of the set. -/
theorem le_size_of_contends (h : Eager.Contends key row rank) : rank ≤ key.predicates.size := by
  obtain ⟨subset, hsubset, rfl, -⟩ := exists_stores_of_contends h
  exact (PredicateSet.toList_sublist_of_subset hsubset).length_le

/-- A row that accepts a set at its full size is stored under it. -/
theorem stores_of_contends (h : Eager.Contends key row key.predicates.size) : Stores key row := by
  obtain ⟨subset, hsubset, hsize, hstores⟩ := exists_stores_of_contends h
  have heq : subset = key.predicates := SortedSet.ext_toList
    ((PredicateSet.toList_sublist_of_subset hsubset).eq_of_length hsize.symm)
  rw [heq] at hstores
  exact hstores

end Lazy

/-! ## Entries -/

namespace Table

theorem transitions_ne_nil_iff {table : Table D} :
    table.transitions ≠ [] ↔ ∃ key transition, table.find? key = some transition := by
  constructor
  · intro h
    obtain ⟨transition, hmem⟩ := List.exists_mem_of_ne_nil _ h
    refine ⟨transition.key, Option.isSome_iff_exists.mp ?_⟩
    rw [find?, List.find?_isSome]
    exact ⟨transition, hmem, decide_eq_true rfl⟩
  · intro h
    rcases h with ⟨key, transition, hfind⟩
    exact List.ne_nil_of_mem (mem_of_find?_eq_some hfind).1

section Compiled

variable {definitions : List (Definition D)} {rows : List (Row D)} {config : Config}
  {table : Table D} (hrows : Definition.survivors definitions = .ok rows)
  (hcompile : Table.compile config definitions = .ok table)

include hrows hcompile

/-- A row accepts the set of some entry just if the table searches or has room for the row. -/
theorem exists_contends_iff {row : Row D} (hrow : row ∈ rows) :
    (∃ key transition rank, table.find? key = some transition ∧ Eager.Contends key row rank) ↔
      config.strategy = .lazy ∨ Eager.HasPlace rows row := by
  obtain ⟨strategy, policy⟩ := config
  cases strategy with
  | eager =>
      rw [or_iff_right nofun]
      constructor
      · intro h
        rcases h with ⟨key, transition, rank, hfind, -, -, haccepts⟩
        obtain ⟨leader, -, hreached, -⟩ := (find?_eager_iff hrows hcompile).mp hfind
        exact .of_accepts hreached.1 haccepts
      · intro h
        obtain ⟨set, hset, rank, haccepts⟩ :=
          h.exists_accepts hrow (Definition.isWellFormed_of_survivors hrows row hrow)
        -- Whichever row leads for the set, it has the entry.
        have hcontends : Eager.Contends ⟨row.state, row.event, set⟩ row rank :=
          ⟨rfl, rfl, haccepts⟩
        obtain ⟨leader, hleader⟩ := List.exists_mem_of_ne_nil _
          (Eager.leaders_ne_nil_iff.mpr ⟨row, hrow, rank, hcontends⟩)
        obtain ⟨hmem, hleads⟩ := Eager.mem_leaders.mp hleader
        exact ⟨_, _, rank, (find?_eager_iff hrows hcompile).mpr
          ⟨leader, hmem, ⟨hset, row, hrow, rank, hcontends⟩, hleads, rfl⟩, hcontends⟩
  | lazy =>
      refine iff_of_true ?_ (.inl rfl)
      obtain ⟨set, hset⟩ := List.exists_mem_of_ne_nil _ (Lazy.storedSets_ne_nil row)
      have hstores : Lazy.Stores ⟨row.state, row.event, set⟩ row := ⟨rfl, rfl, hset⟩
      exact ⟨_, _, _, (find?_lazy_iff hrows hcompile).mpr ⟨row, hrow, hstores, rfl⟩,
        Lazy.contends_size_of_stores hstores⟩

/-- The table is empty only if it is made ahead of time and has room for no row. -/
theorem transitions_ne_nil_iff_of_compile :
    table.transitions ≠ [] ↔ config.strategy = .lazy ∨ ∃ row ∈ rows, Eager.HasPlace rows row := by
  rw [transitions_ne_nil_iff]
  constructor
  · intro h
    rcases h with ⟨key, transition, hfind⟩
    obtain ⟨strategy, policy⟩ := config
    cases strategy with
    | lazy => exact .inl rfl
    | eager =>
        obtain ⟨row, hrow, hreached, ⟨rank, hcontends, -⟩, -⟩ :=
          (find?_eager_iff hrows hcompile).mp hfind
        exact .inr ⟨row, hrow, .of_accepts hreached.1 hcontends.2.2⟩
  · intro h
    have hsome : ∃ row ∈ rows, config.strategy = .lazy ∨ Eager.HasPlace rows row := by
      rcases h with hlazy | ⟨row, hrow, hplace⟩
      · obtain ⟨row, hrow⟩ := List.exists_mem_of_ne_nil _ (Definition.survivors_ne_nil hrows)
        exact ⟨row, hrow, .inl hlazy⟩
      · exact ⟨row, hrow, .inr hplace⟩
    obtain ⟨row, hrow, hreaches⟩ := hsome
    obtain ⟨key, transition, -, hfind, -⟩ :=
      (exists_contends_iff hrows hcompile hrow).mpr hreaches
    exact ⟨key, transition, hfind⟩

/-- A row that accepts the set of an entry has the entry, or loses it to a row that accepts
the set at a higher rank. -/
theorem exists_owner {key : TableKey D} {transition : Transition D}
    (hfind : table.find? key = some transition) {row : Row D} (hrow : row ∈ rows) {rank : Nat}
    (hcontends : Eager.Contends key row rank) :
    ∃ owner ∈ rows, transition = transitionOf definitions config.hookPolicy key owner ∧
      (owner = row ∨ ∃ higher, rank < higher ∧ Eager.Contends key owner higher) := by
  obtain ⟨strategy, policy⟩ := config
  cases strategy with
  | eager =>
      obtain ⟨leader, hleader, hreached, ⟨best, hbest, hmost⟩, htransition⟩ :=
        (find?_eager_iff hrows hcompile).mp hfind
      rcases Nat.lt_or_eq_of_le (hmost row hrow rank hcontends) with hlt | rfl
      · exact ⟨leader, hleader, htransition, .inr ⟨best, hlt, hbest⟩⟩
      · have hown := (find?_eager_iff hrows hcompile).mpr
          ⟨row, hrow, hreached, ⟨rank, hcontends, hmost⟩, rfl⟩
        exact ⟨row, hrow, Option.some.inj (hfind.symm.trans hown), .inl rfl⟩
  | lazy =>
      obtain ⟨owner, howner, hstores, htransition⟩ := (find?_lazy_iff hrows hcompile).mp hfind
      rcases Nat.lt_or_eq_of_le (Lazy.le_size_of_contends hcontends) with hlt | rfl
      · exact ⟨owner, howner, htransition, .inr ⟨_, hlt, Lazy.contends_size_of_stores hstores⟩⟩
      · have hown := (find?_lazy_iff hrows hcompile).mpr
          ⟨row, hrow, Lazy.stores_of_contends hcontends, rfl⟩
        exact ⟨row, hrow, Option.some.inj (hfind.symm.trans hown), .inl rfl⟩

/-- No rule is dropped but for want of cases. A surviving row accepts the set of some entry
for its state and event, unless the table is made ahead of time and the closed world has no
room for the row; and the table is empty only if this is so for every row. Where the rows
name listed cases only, there is room for all. Wherever a row accepts the set of an entry,
the entry is its own or that of a row that accepts the set at a higher rank. -/
theorem compile_reaches_rows :
    (∀ row ∈ rows,
      (∃ key transition rank, table.find? key = some transition ∧ Eager.Contends key row rank) ↔
        config.strategy = .lazy ∨ Eager.HasPlace rows row) ∧
    (table.transitions ≠ [] ↔
      config.strategy = .lazy ∨ ∃ row ∈ rows, Eager.HasPlace rows row) ∧
    ((∀ row ∈ rows, Eager.IsListed row) → table.transitions ≠ [] ∧ ∀ row ∈ rows,
      ∃ key transition rank, table.find? key = some transition ∧ Eager.Contends key row rank) ∧
    ∀ key transition, table.find? key = some transition →
      ∀ row ∈ rows, ∀ rank, Eager.Contends key row rank →
        ∃ owner ∈ rows, transition = transitionOf definitions config.hookPolicy key owner ∧
          (owner = row ∨ ∃ higher, rank < higher ∧ Eager.Contends key owner higher) := by
  refine ⟨fun row hrow => exists_contends_iff hrows hcompile hrow,
    transitions_ne_nil_iff_of_compile hrows hcompile, fun hlisted => ⟨?_, fun row hrow => ?_⟩,
    fun key transition hfind row hrow rank => exists_owner hrows hcompile hfind hrow⟩
  · obtain ⟨row, hrow⟩ := List.exists_mem_of_ne_nil _ (Definition.survivors_ne_nil hrows)
    exact (transitions_ne_nil_iff_of_compile hrows hcompile).mpr
      (.inr ⟨row, hrow, Eager.hasPlace_of_isListed hlisted hrow⟩)
  · exact (exists_contends_iff hrows hcompile hrow).mpr
      (.inr (Eager.hasPlace_of_isListed hlisted hrow))

end Compiled

end Table

/-! ## Samples -/

namespace Scenario

/-- A value of the kind that has all integers but lists three of them as cases. -/
def unlisted : Predicate domain :=
  ⟨(⟨⟨9, by decide⟩⟩ : Kind), (5 : Int)⟩

/-- A definition with a single rule, for a value that is no case. -/
def stray : Definition domain where
  states := ["A"]
  scope :=
    { origin := default
      group := ⟨0⟩
      adopted := []
      onEntry := []
      onExit := []
      rules := some [
        .chain (.matching (Descriptor.unconstrained.withAll [unlisted])) default
          (.chain (.whenEvent [⟨"E", none⟩]) default (.leaf (.thenState "B") default))] }

def strayRow : Row domain :=
  ⟨⟨"A", ⟨"E", none⟩, "B", [], false, ⟨0⟩, default, default, default⟩,
    Descriptor.unconstrained.withAll [unlisted]⟩

theorem survivors_stray : Definition.survivors [stray] = .ok [strayRow] :=
  Definition.survivors_eq_ok_iff.mpr ⟨[strayRow], rfl, List.cons_ne_nil _ _, rfl⟩

end Scenario

namespace Table

/-- Ahead of time, the pump has a place for both of its rules. -/
theorem compile_reaches_rows_pump :
    ∃ table : Table Scenario.domain,
      Definition.survivors [Scenario.pump] = .ok Scenario.pumpRows ∧
      compile ⟨.eager, .onChangeOnly⟩ [Scenario.pump] = .ok table ∧
      (∀ row ∈ Scenario.pumpRows, Eager.IsListed row) ∧ table.transitions ≠ [] ∧
      ∀ row ∈ Scenario.pumpRows, ∃ key transition rank,
        table.find? key = some transition ∧ Eager.Contends key row rank := by
  have hcompile : compile ⟨.eager, .onChangeOnly⟩ [Scenario.pump] = .ok _ :=
    compile_eq_ok_iff.mpr ⟨Scenario.pumpRows, _, Scenario.survivors_pump,
      Eager.select_eq_ok_iff.mpr ⟨Eager.ties_eq_nil_iff.mpr (by decide), rfl⟩, rfl⟩
  have hlisted : ∀ row ∈ Scenario.pumpRows, Eager.IsListed row := by decide
  exact ⟨_, Scenario.survivors_pump, hcompile, hlisted,
    (compile_reaches_rows Scenario.survivors_pump hcompile).2.2.1 hlisted⟩

/-- Made ahead of time, a table can lack every rule that was declared: the rule for a value
that is no case survives and compiles, yet nothing is stored. -/
theorem compile_drops_stray :
    ∃ table : Table Scenario.domain,
      Definition.survivors [Scenario.stray] = .ok [Scenario.strayRow] ∧
      compile ⟨.eager, .onChangeOnly⟩ [Scenario.stray] = .ok table ∧ table.transitions = [] ∧
      ¬∃ key transition rank,
        table.find? key = some transition ∧ Eager.Contends key Scenario.strayRow rank := by
  have hcompile : compile ⟨.eager, .onChangeOnly⟩ [Scenario.stray] = .ok ⟨.eager, []⟩ :=
    compile_eq_ok_iff.mpr ⟨[Scenario.strayRow], _, Scenario.survivors_stray,
      Eager.select_eq_ok_iff.mpr ⟨Eager.ties_eq_nil_iff.mpr (by decide), rfl⟩, rfl⟩
  refine ⟨_, Scenario.survivors_stray, hcompile, rfl, ?_⟩
  rintro ⟨key, transition, -, hfind, -⟩
  cases hfind

end Table

end RuleMachine
