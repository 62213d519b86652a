import RuleMachine.Proofs.Table.Agreement

/-! # Like rows make like tables

A table does not depend on the order of the surviving rows, nor on the lists they were
declared in. When two lists hold the same rows apart from that, a row leads for a key of one
exactly if it does for the other, and rows of one meet or are rivals exactly if those of the
other are. So a selection can be made from both lists or from neither, and under every key
the tables then have transitions of the same row.
-/

namespace RuleMachine

variable {D : Domain}

namespace Row

@[refl]
theorem SameButGroup.refl (row : Row D) : SameButGroup row row := rfl

@[symm]
theorem SameButGroup.symm {row other : Row D} (h : SameButGroup row other) :
    SameButGroup other row := by
  rw [SameButGroup] at h ⊢
  rw [h]

/-- The lists hold the same rows, whatever their order and whatever lists the rows were
declared in. -/
structure Alike (rows others : List (Row D)) : Prop where
  forth : ∀ row ∈ rows, ∃ other ∈ others, SameButGroup row other
  back : ∀ other ∈ others, ∃ row ∈ rows, SameButGroup row other

namespace Alike

variable {rows others : List (Row D)}

theorem symm (h : Alike rows others) : Alike others rows where
  forth other hother := by
    obtain ⟨row, hrow, hsame⟩ := h.back other hother
    exact ⟨row, hrow, hsame.symm⟩
  back row hrow := by
    obtain ⟨other, hother, hsame⟩ := h.forth row hrow
    exact ⟨other, hother, hsame.symm⟩

theorem of_perm (h : rows.Perm others) : Alike rows others where
  forth row hrow := ⟨row, h.mem_iff.mp hrow, .refl row⟩
  back other hother := ⟨other, h.mem_iff.mpr hother, .refl other⟩

theorem of_forall₂ (h : List.Forall₂ SameButGroup rows others) : Alike rows others where
  forth := fun _ => exists_of_mem_of_forall₂ h
  back other hother := by
    obtain ⟨row, hrow, hsame⟩ := exists_of_mem_of_forall₂ h.flip hother
    exact ⟨row, hrow, hsame⟩

end Alike

end Row

/-! ## Rows ahead of time -/

namespace Eager

open Row

variable {rows others : List (Row D)} {row other : Row D} {key : TableKey D}

theorem contends_iff_of_same (h : SameButGroup row other) {rank : Nat} :
    Contends key other rank ↔ Contends key row rank := by
  rw [h]
  exact Iff.rfl

theorem pool_eq_of_alike (h : Alike rows others) : pool others = pool rows := by
  have hkinds : ∀ {first second : List (Row D)}, Alike first second → ∀ kind,
      kind ∈ first.flatMap (fun row => row.descriptor.kinds.toList) →
        kind ∈ second.flatMap (fun row => row.descriptor.kinds.toList) := by
    intro first second halike kind hkind
    obtain ⟨row, hrow, hkind⟩ := List.mem_flatMap.mp hkind
    obtain ⟨other, hother, hsame⟩ := halike.forth row hrow
    rw [SameButGroup] at hsame
    exact List.mem_flatMap.mpr ⟨other, hother, by rw [hsame]; exact hkind⟩
  have hset : KindSet.ofList (others.flatMap (fun row => row.descriptor.kinds.toList)) =
      KindSet.ofList (rows.flatMap (fun row => row.descriptor.kinds.toList)) := by
    apply SortedSet.ext_mem
    intro kind
    exact SortedSet.mem_ofList.trans
      (Iff.trans ⟨hkinds h.symm kind, hkinds h kind⟩ SortedSet.mem_ofList.symm)
  rw [pool, pool, hset]

theorem reached_of_alike (h : Alike rows others) (hreached : Reached rows key) :
    Reached others key := by
  obtain ⟨hpool, row, hrow, rank, hcontends⟩ := hreached
  obtain ⟨other, hother, hsame⟩ := h.forth row hrow
  exact ⟨pool_eq_of_alike h ▸ hpool, other, hother, rank,
    (contends_iff_of_same hsame).mpr hcontends⟩

theorem leads_of_alike (h : Alike rows others) (hsame : SameButGroup row other)
    (hleads : Leads rows key row) : Leads others key other := by
  obtain ⟨rank, hcontends, hmost⟩ := hleads
  refine ⟨rank, (contends_iff_of_same hsame).mpr hcontends, fun rival hrival higher hhigher => ?_⟩
  obtain ⟨known, hknown, hlike⟩ := h.back rival hrival
  exact hmost known hknown higher ((contends_iff_of_same hlike).mp hhigher)

theorem exists_select_iff (hkeys : (rows.map Row.key).Nodup) :
    (∃ selection, select rows = .ok selection) ↔ ∀ key, Reached rows key →
      ∀ first ∈ rows, ∀ second ∈ rows, Leads rows key first → Leads rows key second →
        first = second := by
  simp only [select_eq_ok_iff, exists_and_left, exists_eq, and_true, ties_slots_eq_nil_iff,
    length_leaders_le_one_iff hkeys.of_map]

theorem exists_select_of_alike (h : Alike rows others) (hkeys : (rows.map Row.key).Nodup)
    (hothers : (others.map Row.key).Nodup) (hselect : ∃ selection, select rows = .ok selection) :
    ∃ selection, select others = .ok selection := by
  rw [exists_select_iff hkeys] at hselect
  rw [exists_select_iff hothers]
  intro key hreached first hfirst second hsecond hleads hother
  obtain ⟨row, hrow, hsame⟩ := h.back first hfirst
  obtain ⟨rival, hrival, hlike⟩ := h.back second hsecond
  have heq : row = rival := hselect key (reached_of_alike h.symm hreached) row hrow rival hrival
    (leads_of_alike h.symm hsame.symm hleads) (leads_of_alike h.symm hlike.symm hother)
  -- One row in one list has one counterpart in the other, as rules do not recur there.
  refine List.inj_on_of_nodup_map hothers hfirst hsecond ?_
  rw [hsame.key_eq, hlike.key_eq, heq]

end Eager

/-! ## Rows under their own sets -/

namespace Lazy

open Row

variable {rows others : List (Row D)}

theorem Meet.symm {first second : Row D} (h : Meet first second) : Meet second first := by
  obtain ⟨hstate, hevent, set, hfirst, hsecond⟩ := h
  exact ⟨hstate.symm, hevent.symm, set, hsecond, hfirst⟩

theorem Rival.symm {first second : Row D} (h : Rival first second) : Rival second first := by
  obtain ⟨hstate, hevent, hnext, left, hleft, right, hright, hleftEmpty, hrightEmpty, hsize,
    hsets⟩ := h
  refine ⟨hstate.symm, hevent.symm, hnext.symm, right, hright, left, hleft, hrightEmpty,
    hleftEmpty, hsize.symm, hsets.imp ?_ ?_⟩
  · exact fun ⟨value, hvalue, hother⟩ => ⟨value, hother, hvalue⟩
  · exact fun hkinds value hvalue other hother => (hkinds other hother value hvalue).symm

theorem exists_select_iff (hrows : ∀ row ∈ rows, row.descriptor.IsWellFormed)
    (hkeys : (rows.map Row.key).Nodup) :
    (∃ selection, select rows = .ok selection) ↔ ∀ first ∈ rows, ∀ second ∈ rows,
      first ≠ second → ¬Meet first second ∧ ¬Rival first second := by
  have hsymm : Std.Symm (fun first second : Row D => ¬Meet first second ∧ ¬Rival first second) :=
    ⟨fun _ _ hfree => ⟨fun hmeet => hfree.1 hmeet.symm, fun hrival => hfree.2 hrival.symm⟩⟩
  simp only [select_eq_ok_iff, duplicateGroups_entries_eq_nil_iff hrows hkeys,
    clashes_eq_nil_iff hrows, exists_and_left, exists_eq, and_true]
  rw [conflictFree_iff, ← List.pairwise_and_iff]
  exact ⟨fun hall first hfirst second hsecond hne => hall.forall hfirst hsecond hne,
    fun hall => hkeys.of_map.pairwise_of_forall_ne hall⟩

theorem exists_select_of_alike (h : Alike rows others)
    (hrows : ∀ row ∈ rows, row.descriptor.IsWellFormed)
    (hwell : ∀ other ∈ others, other.descriptor.IsWellFormed)
    (hkeys : (rows.map Row.key).Nodup) (hothers : (others.map Row.key).Nodup)
    (hselect : ∃ selection, select rows = .ok selection) :
    ∃ selection, select others = .ok selection := by
  rw [exists_select_iff hrows hkeys] at hselect
  rw [exists_select_iff hwell hothers]
  intro first hfirst second hsecond hne
  obtain ⟨row, hrow, hsame⟩ := h.back first hfirst
  obtain ⟨rival, hrival, hlike⟩ := h.back second hsecond
  have hdifferent : row ≠ rival := by
    rintro rfl
    apply hne
    exact List.inj_on_of_nodup_map hothers hfirst hsecond (hsame.key_eq.trans hlike.key_eq.symm)
  have hfree := hselect row hrow rival hrival hdifferent
  rw [SameButGroup] at hsame hlike
  rw [hsame, hlike]
  exact hfree

end Lazy

/-! ## Tables -/

section Compiled

open Row

variable {definitions others : List (Definition D)} {rows otherRows : List (Row D)}

variable (hrows : Definition.survivors definitions = .ok rows)
  (hothers : Definition.survivors others = .ok otherRows) (halike : Alike rows otherRows)

include hrows hothers halike

/-- Where a table can be compiled from rows, one can be compiled from like rows. -/
theorem Table.exists_compile_of_alike {config : Config} {table : Table D}
    (hcompile : Table.compile config definitions = .ok table) :
    ∃ counterpart, Table.compile config others = .ok counterpart := by
  have hkeys := Definition.nodup_map_key_of_survivors hrows
  have hotherKeys := Definition.nodup_map_key_of_survivors hothers
  obtain ⟨selection, hselect, -⟩ := Table.exists_selection_of_compile hrows hcompile
  have hexists : ∃ other, Table.selectBy config.strategy otherRows = .ok other := by
    cases hstrategy : config.strategy with
    | eager =>
        rw [hstrategy] at hselect
        exact Eager.exists_select_of_alike halike hkeys hotherKeys ⟨selection, hselect⟩
    | lazy =>
        rw [hstrategy] at hselect
        exact Lazy.exists_select_of_alike halike (Definition.isWellFormed_of_survivors hrows)
          (Definition.isWellFormed_of_survivors hothers) hkeys hotherKeys ⟨selection, hselect⟩
  obtain ⟨other, hother⟩ := hexists
  exact ⟨_, Table.compile_eq_ok_iff.mpr ⟨otherRows, other, hothers, hother, rfl⟩⟩

/-- Under each key, tables of like rows have the transitions of one and the same row. -/
theorem Table.exists_find?_of_alike {config : Config} {table counterpart : Table D}
    (hcompile : Table.compile config definitions = .ok table)
    (hcounterpart : Table.compile config others = .ok counterpart) {key : TableKey D}
    {transition : Transition D} (h : table.find? key = some transition) :
    ∃ row ∈ rows, ∃ other ∈ otherRows, SameButGroup row other ∧
      transition = Table.transitionOf definitions config.hookPolicy key row ∧
      counterpart.find? key = some (Table.transitionOf others config.hookPolicy key other) := by
  obtain ⟨strategy, policy⟩ := config
  cases strategy with
  | eager =>
      obtain ⟨row, hrow, hreached, hleads, rfl⟩ := (find?_eager_iff hrows hcompile).mp h
      obtain ⟨other, hother, hsame⟩ := halike.forth row hrow
      exact ⟨row, hrow, other, hother, hsame, rfl, (find?_eager_iff hothers hcounterpart).mpr
        ⟨other, hother, Eager.reached_of_alike halike hreached,
          Eager.leads_of_alike halike hsame hleads, rfl⟩⟩
  | lazy =>
      obtain ⟨row, hrow, hstores, rfl⟩ := (find?_lazy_iff hrows hcompile).mp h
      obtain ⟨other, hother, hsame⟩ := halike.forth row hrow
      refine ⟨row, hrow, other, hother, hsame, rfl, (find?_lazy_iff hothers hcounterpart).mpr
        ⟨other, hother, ?_, rfl⟩⟩
      rw [SameButGroup] at hsame
      rw [hsame]
      exact hstores

end Compiled

end RuleMachine
