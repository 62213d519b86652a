import Mathlib.Data.List.Basic
import RuleMachine.Proofs.Table.Specificity

/-! # The order of reported ties

The slots of a resolution are not kept in any order, and the sorting of the report is meant to
make up for that. It compares what a clash is headed by: the names of the state and the event,
and the predicates. Sorting is stable, so ties with one heading come in the order in which the
slots happen to be gone through. The report is determined by the rows just if such ties have
nothing to tell them apart. They do as soon as events that differ share their name.
-/

namespace RuleMachine

variable {D : Domain}

/-- What clashes are sorted by: the names of the state and the event, and the predicates. -/
def ImplicitClash.heading {V : Vocabulary} (clash : ImplicitClash V) :
    String × String × PredicateSet V :=
  (clash.state, clash.event, clash.predicates)

/-- What is left of a key in the heading of its clash. -/
def TableKey.heading (key : TableKey D) : String × String × PredicateSet D :=
  (D.stateName key.state, D.eventName key.event, key.predicates)

namespace Eager

/-! ## Sorting by headings -/

section Sorting

variable {first second third : ImplicitClash D}

def compareHeading : ImplicitClash D → ImplicitClash D → Ordering :=
  compareLex (compareOn ImplicitClash.state)
    (compareLex (compareOn ImplicitClash.event) (compareOn ImplicitClash.predicates))

instance : Std.TransCmp (compareHeading (D := D)) :=
  inferInstanceAs (Std.TransCmp (compareLex _ (compareLex _ _)))

theorem clashLe_eq (first second : ImplicitClash D) :
    clashLe first second = (compareHeading first second).isLE := rfl

theorem compareHeading_eq_iff :
    compareHeading first second = .eq ↔ first.heading = second.heading := by
  simp only [compareHeading, compareLex, compareOn, Ordering.then_eq_eq,
    Std.LawfulEqCmp.compare_eq_iff_eq, ImplicitClash.heading, Prod.mk.injEq]

theorem clashLe_trans (first second third : ImplicitClash D) (hfirst : clashLe first second)
    (hsecond : clashLe second third) : clashLe first third := by
  rw [clashLe_eq] at *
  exact Std.TransCmp.isLE_trans hfirst hsecond

theorem clashLe_total (first second : ImplicitClash D) :
    (clashLe first second || clashLe second first) = true := by
  rw [clashLe_eq, clashLe_eq, ← Std.OrientedCmp.isGE_eq_isLE (a := first)]
  cases compareHeading first second <;> rfl

theorem heading_eq_of_clashLe (hle : clashLe first second) (hge : clashLe second first) :
    first.heading = second.heading := by
  rw [clashLe_eq] at *
  exact compareHeading_eq_iff.mp (Std.OrientedCmp.isLE_antisymm hle hge)

theorem clashLe_of_heading_eq (h : first.heading = second.heading) : clashLe first second := by
  rw [clashLe_eq, compareHeading_eq_iff.mpr h]
  rfl

end Sorting

/-- Clashes with one heading stay in the order in which they are given. -/
theorem filter_heading_mergeSort (heading : String × String × PredicateSet D)
    (clashes : List (ImplicitClash D)) :
    (clashes.mergeSort clashLe).filter (fun clash => clash.heading = heading) =
      clashes.filter (fun clash => clash.heading = heading) := by
  have hsorted : (clashes.filter (fun clash => clash.heading = heading)).Pairwise
      (fun first second => clashLe first second) := by
    rw [List.pairwise_filter]
    apply List.pairwise_of_forall
    intro first second hfirst hsecond
    exact clashLe_of_heading_eq
      ((of_decide_eq_true hfirst).trans (of_decide_eq_true hsecond).symm)
  have hsub := (List.sublist_mergeSort clashLe_trans clashLe_total hsorted
    List.filter_sublist).filter (fun clash => clash.heading = heading)
  simp only [List.filter_filter, Bool.and_self] at hsub
  exact (hsub.eq_of_length ((List.mergeSort_perm clashes clashLe).filter _).length_eq.symm).symm

/-! ## Reports -/

/-- The clashes of the slots that several rows hold, in the order of the slots. -/
def clashesOf (order : List (Slot D)) : List (ImplicitClash D) :=
  (order.filter (fun slot => 1 < slot.holders.length)).map
    (fun slot => slot.key.clash slot.holders)

/-- The report comes of going through the slots of the rows in some order. -/
def IsReport (rows : List (Row D)) (report : List (ImplicitClash D)) : Prop :=
  ∃ order, order.Perm (slots rows) ∧ report = ties order

/-- Several rows share the highest rank for the key. -/
def Shared (rows : List (Row D)) (key : TableKey D) : Prop :=
  key.predicates ∈ pool rows ∧ 1 < (leaders rows key).length

variable {rows : List (Row D)} {report : List (ImplicitClash D)}

theorem ties_eq (order : List (Slot D)) : ties order = (clashesOf order).mergeSort clashLe := rfl

theorem perm_clashesOf {order others : List (Slot D)} (h : order.Perm others) :
    (clashesOf order).Perm (clashesOf others) :=
  (h.filter _).map _

theorem Shared.mem_slots {key : TableKey D} (h : Shared rows key) :
    (⟨key, leaders rows key⟩ : Slot D) ∈ slots rows := by
  refine Eager.mem_slots.mpr ⟨⟨h.1, leaders_ne_nil_iff.mp ?_⟩, rfl⟩
  exact List.ne_nil_of_length_pos (Nat.zero_lt_of_lt h.2)

/-- The clashes are those of the keys that several rows share, each once. -/
theorem exists_keys_clashesOf_slots (rows : List (Row D)) :
    ∃ keys : List (TableKey D), keys.Nodup ∧ (∀ key, key ∈ keys ↔ Shared rows key) ∧
      clashesOf (slots rows) = keys.map (fun key => key.clash (leaders rows key)) := by
  let shared := (slots rows).filter (fun slot => 1 < slot.holders.length)
  refine ⟨shared.map Slot.key, ?_, fun key => ?_, ?_⟩
  · exact (nodup_map_key_slots rows).sublist (List.filter_sublist.map Slot.key)
  · simp only [shared, List.mem_map, List.mem_filter, decide_eq_true_eq]
    constructor
    · intro h
      rcases h with ⟨slot, ⟨hslot, hmany⟩, rfl⟩
      obtain ⟨hreached, hholders⟩ := Eager.mem_slots.mp hslot
      exact ⟨hreached.1, hholders ▸ hmany⟩
    · intro h
      exact ⟨_, ⟨h.mem_slots, h.2⟩, rfl⟩
  · rw [clashesOf, List.map_map]
    apply List.map_congr_left
    intro slot hslot
    rw [Function.comp_apply, (Eager.mem_slots.mp (List.mem_of_mem_filter hslot)).2]

theorem IsReport.pairwise (h : IsReport rows report) :
    report.Pairwise (fun first second => clashLe first second) := by
  obtain ⟨order, -, rfl⟩ := h
  exact List.pairwise_mergeSort clashLe_trans clashLe_total _

theorem IsReport.perm (h : IsReport rows report) : report.Perm (clashesOf (slots rows)) := by
  obtain ⟨order, horder, rfl⟩ := h
  exact (List.mergeSort_perm _ _).trans (perm_clashesOf horder)

theorem IsReport.exists_shared (h : IsReport rows report) {clash : ImplicitClash D}
    (hclash : clash ∈ report) :
    ∃ key, Shared rows key ∧ clash = key.clash (leaders rows key) := by
  obtain ⟨keys, -, hkeys, hclashes⟩ := exists_keys_clashesOf_slots rows
  rw [h.perm.mem_iff, hclashes] at hclash
  obtain ⟨key, hkey, rfl⟩ := List.mem_map.mp hclash
  exact ⟨key, (hkeys key).mp hkey, rfl⟩

/-- If shared keys with one heading are reported alike, sorting leaves no choice. -/
theorem IsReport.eq_of_headings
    (hsame : ∀ first second, Shared rows first → Shared rows second →
      first.heading = second.heading →
        first.clash (leaders rows first) = second.clash (leaders rows second))
    {other : List (ImplicitClash D)} (hreport : IsReport rows report)
    (hother : IsReport rows other) : report = other := by
  refine List.Perm.eq_of_pairwise ?_ hreport.pairwise hother.pairwise
    (hreport.perm.trans hother.perm.symm)
  intro first second hfirst hsecond hle hge
  obtain ⟨key, hkey, rfl⟩ := hreport.exists_shared hfirst
  obtain ⟨rival, hrival, rfl⟩ := hother.exists_shared hsecond
  exact hsame key rival hkey hrival (heading_eq_of_clashLe hle hge)

/-- Two slots can be gone through one right after the other, before all others. -/
theorem exists_perm_cons_cons {first second : Slot D} (hfirst : first ∈ slots rows)
    (hsecond : second ∈ slots rows) (hne : second ≠ first) :
    ∃ rest, (first :: second :: rest).Perm (slots rows) := by
  obtain ⟨front, back, hslots⟩ := List.append_of_mem hfirst
  have hrest : second ∈ front ++ back := by
    rw [hslots, List.mem_append, List.mem_cons] at hsecond
    rw [List.mem_append]
    exact hsecond.imp_right fun h => h.resolve_left hne
  obtain ⟨left, right, hsplit⟩ := List.append_of_mem hrest
  refine ⟨left ++ right, ?_⟩
  rw [hslots]
  refine List.Perm.trans ?_ List.perm_middle.symm
  rw [hsplit]
  exact (List.perm_middle.symm).cons first

/-- Of two tied slots with one heading, the one gone through first is reported first. -/
theorem head?_filter_heading_ties (first second : Slot D) (rest : List (Slot D))
    (hfirst : 1 < first.holders.length) :
    ((ties (first :: second :: rest)).filter
      (fun clash => clash.heading = first.key.heading)).head? =
        some (first.key.clash first.holders) := by
  have hheading : (first.key.clash first.holders).heading = first.key.heading := rfl
  rw [ties_eq, filter_heading_mergeSort, clashesOf, List.filter_cons_of_pos (by simpa using hfirst),
    List.map_cons, List.filter_cons_of_pos (by simpa using hheading), List.head?_cons]

/-- Shared keys with one heading that are not reported alike make for different reports. -/
theorem exists_reports_ne {first second : TableKey D} (hfirst : Shared rows first)
    (hsecond : Shared rows second) (hheading : first.heading = second.heading)
    (hne : first.clash (leaders rows first) ≠ second.clash (leaders rows second)) :
    ∃ report other, IsReport rows report ∧ IsReport rows other ∧ report ≠ other := by
  let front : Slot D := ⟨first, leaders rows first⟩
  let back : Slot D := ⟨second, leaders rows second⟩
  have hslots : back ≠ front := by
    rintro heq
    exact hne (by rw [show second = first from congrArg Slot.key heq])
  obtain ⟨rest, hrest⟩ := exists_perm_cons_cons hfirst.mem_slots hsecond.mem_slots hslots
  refine ⟨ties (front :: back :: rest), ties (back :: front :: rest), ⟨_, hrest, rfl⟩,
    ⟨_, (List.Perm.swap front back rest).trans hrest, rfl⟩, fun heq => hne ?_⟩
  -- The first tie with the heading tells which of the two slots came first.
  have hfront := head?_filter_heading_ties front back rest hfirst.2
  have hback := head?_filter_heading_ties back front rest hsecond.2
  rw [heq, show front.key.heading = back.key.heading from hheading, hback] at hfront
  exact (Option.some.inj hfront).symm

theorem clash_eq_iff {first second : TableKey D} (h : first.heading = second.heading)
    {holders others : List (Row D)} :
    first.clash holders = second.clash others ↔
      holders.map Row.summary = others.map Row.summary := by
  simp only [TableKey.heading, Prod.mk.injEq] at h
  obtain ⟨hstate, hevent, hpredicates⟩ := h
  simp only [TableKey.clash, ImplicitClash.mk.injEq, hstate, hevent, hpredicates, true_and]

/-- However the slots are gone through, the report has the keys that several rows share, each
once, with all rows that lead for it, sorted by the names of state and event and by the
predicates. It is one and the same report just if shared keys with the same names and predicates
are reported alike; in particular if there are no two such keys, so that a name stands for a
single state or event. -/
theorem reports_agree_iff (rows : List (Row D)) :
    (∀ errors, select rows = .error errors →
      ∃ report, IsReport rows report ∧ errors = [.implicitClashes report]) ∧
    (∀ report, IsReport rows report →
      report.Pairwise (fun first second => clashLe first second) ∧
      ∃ keys : List (TableKey D), keys.Nodup ∧ (∀ key, key ∈ keys ↔ Shared rows key) ∧
        report.Perm (keys.map fun key => key.clash (leaders rows key))) ∧
    ((∀ report other, IsReport rows report → IsReport rows other → report = other) ↔
      ∀ first second, Shared rows first → Shared rows second → first.heading = second.heading →
        (leaders rows first).map Row.summary = (leaders rows second).map Row.summary) ∧
    ((∀ first second, Shared rows first → Shared rows second → first.heading = second.heading →
        first = second) →
      ∀ report other, IsReport rows report → IsReport rows other → report = other) := by
  refine ⟨fun errors herrors => ?_, fun report hreport => ⟨hreport.pairwise, ?_⟩,
    ⟨fun hagree first second hfirst hsecond hheading => ?_, fun hsame report other hreport hother =>
      ?_⟩, fun hapart report other hreport hother => ?_⟩
  · exact ⟨_, ⟨_, List.Perm.refl _, rfl⟩, (select_eq_error_iff.mp herrors).2⟩
  · obtain ⟨keys, hnodup, hkeys, hclashes⟩ := exists_keys_clashesOf_slots rows
    exact ⟨keys, hnodup, hkeys, hclashes ▸ hreport.perm⟩
  · rw [← clash_eq_iff hheading]
    by_contra hne
    obtain ⟨report, other, hreport, hother, hreports⟩ :=
      exists_reports_ne hfirst hsecond hheading hne
    exact hreports (hagree report other hreport hother)
  · apply hreport.eq_of_headings _ hother
    intro first second hfirst hsecond hheading
    exact (clash_eq_iff hheading).mpr (hsame first second hfirst hsecond hheading)
  · apply hreport.eq_of_headings _ hother
    intro first second hfirst hsecond hheading
    rw [hapart first second hfirst hsecond hheading]

end Eager

/-! ## A sample -/

namespace Scenario

/-- A retry that counts the attempts. -/
def retry (count : Int) : Event := ⟨"retry", some count⟩

/-- A retry leads to the same state with and without a condition. -/
def retryRows (count : Int) (next : String) : List (Row domain) :=
  [Descriptor.unconstrained.withCondition (.ofCheck (Check.flag "open")), .unconstrained].map
    (Row.mk ⟨"idle", retry count, next, [], false, ⟨0⟩, default, default, default⟩)

/-- The first retry runs the pump slowly, and the second one fast. -/
def retries : List (Row domain) :=
  retryRows 1 "slow" ++ retryRows 2 "fast"

def retryKey (count : Int) : TableKey domain :=
  ⟨"idle", retry count, ∅⟩

theorem shared_retryKey : Eager.Shared retries (retryKey 1) ∧ Eager.Shared retries (retryKey 2) :=
  ⟨⟨List.mem_singleton_self _, by decide⟩, ⟨List.mem_singleton_self _, by decide⟩⟩

end Scenario

/-- The two retries tie alike in name and predicates, but not in where they lead. So the report
of the same rows can have either of them first. -/
theorem Eager.reports_differ :
    Row.validate Scenario.retries = .ok Scenario.retries ∧
    (∃ errors, select Scenario.retries = .error errors) ∧
    Scenario.retryKey 1 ≠ Scenario.retryKey 2 ∧
    (Scenario.retryKey 1).heading = (Scenario.retryKey 2).heading ∧
    ∃ report other, IsReport Scenario.retries report ∧ IsReport Scenario.retries other ∧
      report ≠ other := by
  obtain ⟨hfirst, hsecond⟩ := Scenario.shared_retryKey
  have hheading : (Scenario.retryKey 1).heading = (Scenario.retryKey 2).heading := rfl
  refine ⟨rfl, ⟨_, select_eq_error_iff.mpr ⟨fun hnone => ?_, rfl⟩⟩, by decide, hheading,
    exists_reports_ne hfirst hsecond hheading (by decide)⟩
  exact Nat.not_le_of_gt hfirst.2 (ties_eq_nil_iff.mp hnone _ hfirst.mem_slots)

end RuleMachine
