import RuleMachine.Proofs.Match.Meaning
import RuleMachine.Proofs.Row.Survival

/-! # What keys identify

Descriptors with one key ask for the same, up to the order in which they say it: if they are
well formed they have the same concrete sets and rank every set alike, so a row that
overrides another one accepts what that one accepted. The other way round, concrete sets
determine what is required and what the alternatives are, except that they cannot tell a
group of one value from a required value. Once such values are required, the key says no
more than the concrete sets do.
-/

namespace RuleMachine

variable {D : Domain}

theorem SortedSet.ofList_eq_iff {α : Type} [Ord α] [Std.TransOrd α] [Std.LawfulEqOrd α]
    {first second : List α} :
    ofList first = ofList second ↔ ∀ value, value ∈ first ↔ value ∈ second := by
  constructor
  · intro h value
    rw [← mem_ofList, h, mem_ofList]
  · intro h
    refine ext_mem fun value => ?_
    rw [mem_ofList, mem_ofList, h value]

namespace Descriptor

variable {first second descriptor : Descriptor D}

/-! ## Equal keys -/

/-- Each group of the first descriptor has the values of some group of the second. -/
def GroupsWithin (first second : Descriptor D) : Prop :=
  ∀ group ∈ first.any, ∃ other ∈ second.any, ∀ value, value ∈ group ↔ value ∈ other

theorem groupsWithin_iff : GroupsWithin first second ↔
    ∀ set ∈ first.any.map PredicateSet.ofList, set ∈ second.any.map PredicateSet.ofList := by
  rw [List.forall_mem_map]
  refine forall₂_congr fun group _ => ?_
  simp only [List.mem_map, PredicateSet.ofList, SortedSet.ofList_eq_iff]
  exact exists_congr fun other => and_congr_right fun _ => forall_congr' fun value => Iff.comm

/-- Keys are equal when groups and required values are the same apart from order, and both
descriptors have conditions or none has. -/
theorem key_eq_iff : first.key = second.key ↔
    GroupsWithin first second ∧ GroupsWithin second first ∧
      (∀ value, value ∈ first.all ↔ value ∈ second.all) ∧
      first.condition.isPresent = second.condition.isPresent := by
  simp only [key, MatchKey.mk.injEq, PredicateFamily.ofList, PredicateSet.ofList,
    SortedSet.ofList_eq_iff, groupsWithin_iff]
  constructor
  · intro h
    rcases h with ⟨hany, hall, hcondition⟩
    exact ⟨fun set => (hany set).mp, fun set => (hany set).mpr, hall, hcondition⟩
  · intro h
    rcases h with ⟨hfirst, hsecond, hall, hcondition⟩
    exact ⟨fun set => ⟨hfirst set, hsecond set⟩, hall, hcondition⟩

theorem mem_anyValues_of_groupsWithin (h : GroupsWithin first second) {value : Predicate D}
    (hvalue : value ∈ first.anyValues) : value ∈ second.anyValues := by
  obtain ⟨group, hgroup, hmem⟩ := List.mem_flatten.mp hvalue
  obtain ⟨other, hother, hsame⟩ := h group hgroup
  exact List.mem_flatten.mpr ⟨other, hother, (hsame value).mp hmem⟩

theorem named_of_key_eq (h : first.key = second.key) (hnamed : first.any ≠ [] ∨ first.all ≠ []) :
    second.any ≠ [] ∨ second.all ≠ [] := by
  obtain ⟨hwithin, -, hall, -⟩ := key_eq_iff.mp h
  rcases hnamed with hany | hrequired
  · obtain ⟨group, hgroup⟩ := List.exists_mem_of_ne_nil _ hany
    obtain ⟨other, hother, -⟩ := hwithin group hgroup
    exact .inl (List.ne_nil_of_mem hother)
  · obtain ⟨value, hvalue⟩ := List.exists_mem_of_ne_nil _ hrequired
    exact .inr (List.ne_nil_of_mem ((hall value).mp hvalue))

theorem named_of_mem_concreteSets {set : PredicateSet D} (h : set ∈ descriptor.concreteSets) :
    descriptor.any ≠ [] ∨ descriptor.all ≠ [] := by
  have hsome : descriptor.concreteSets ≠ [] := List.ne_nil_of_mem h
  rwa [Ne, concreteSets_eq_nil_iff, not_and_or] at hsome

section Alike

variable (hfirst : first.IsWellFormed) (hsecond : second.IsWellFormed)

include hfirst hsecond

theorem mem_concreteSets_of_key_eq (h : first.key = second.key) {set : PredicateSet D}
    (hset : set ∈ first.concreteSets) : set ∈ second.concreteSets := by
  have hnamed := named_of_mem_concreteSets hset
  obtain ⟨hwithin, hback, hall, -⟩ := key_eq_iff.mp h
  obtain ⟨hsingle, hvalues, hrequired, hgroups⟩ := (mem_concreteSets_iff hfirst hnamed).mp hset
  refine (mem_concreteSets_iff hsecond (named_of_key_eq h hnamed)).mpr
    ⟨hsingle, fun value hvalue => ?_, fun value hvalue => ?_, fun group hgroup => ?_⟩
  · rcases List.mem_append.mp (hvalues value hvalue) with hany | hmem
    · exact List.mem_append_left _ (mem_anyValues_of_groupsWithin hwithin hany)
    · exact List.mem_append_right _ ((hall value).mp hmem)
  · exact hrequired value ((hall value).mpr hvalue)
  · obtain ⟨other, hother, hsame⟩ := hback group hgroup
    obtain ⟨value, hvalue, hmem⟩ := hgroups other hother
    exact ⟨value, (hsame value).mpr hvalue, hmem⟩

/-- With the same concrete sets, descriptors accept a set with the same ranks. -/
theorem ranksIn_eq_of_concreteSets
    (h : ∀ set, set ∈ first.concreteSets ↔ set ∈ second.concreteSets) (set : PredicateSet D) :
    first.ranksIn set = second.ranksIn set := by
  have hperm : first.concreteSets.Perm second.concreteSets :=
    (List.perm_ext_iff_of_nodup (nodup_concreteSets hfirst) (nodup_concreteSets hsecond)).mpr h
  rw [ranksIn, ranksIn, ranksAmong, ranksAmong, hperm.isEmpty_eq]
  split
  next => rfl
  next =>
    -- All concrete sets have one size, so the order of the ranks does not matter.
    have hsizes : ∀ rank ∈
        (first.concreteSets.filter (fun choice => choice.isSubset set)).map SortedSet.size,
        rank = first.any.length + first.all.length := by
      rw [List.forall_mem_map]
      exact fun choice hchoice => size_of_mem_concreteSets hfirst (List.mem_filter.mp hchoice).1
    have hranks := (hperm.filter (fun choice => choice.isSubset set)).map SortedSet.size
    rw [List.eq_replicate_of_mem hsizes] at hranks ⊢
    exact (List.perm_replicate.mp hranks.symm).symm

theorem rankings_eq_of_key_eq (h : first.key = second.key) (pool : List (PredicateSet D)) :
    first.rankings pool = second.rankings pool := by
  have hsets : ∀ set, set ∈ first.concreteSets ↔ set ∈ second.concreteSets := fun set =>
    ⟨mem_concreteSets_of_key_eq hfirst hsecond h, mem_concreteSets_of_key_eq hsecond hfirst h.symm⟩
  simp only [rankings, ranksIn_eq_of_concreteSets hfirst hsecond hsets]

end Alike

/-! ## Equal concrete sets -/

/-- The descriptor that requires every value of which there is no alternative, instead of
having a group for it. -/
def requiringSole (descriptor : Descriptor D) : Descriptor D where
  any := descriptor.any.filter (fun group => group.length ≠ 1)
  all := descriptor.all ++ (descriptor.any.filter (fun group => group.length = 1)).flatten
  condition := descriptor.condition
  origins := descriptor.origins
  nonempty_of_mem_any group hgroup :=
    descriptor.nonempty_of_mem_any group (List.mem_filter.mp hgroup).1

theorem mem_any_requiringSole {group : List (Predicate D)} :
    group ∈ descriptor.requiringSole.any ↔ group ∈ descriptor.any ∧ group.length ≠ 1 := by
  rw [requiringSole, List.mem_filter, decide_eq_true_eq]

theorem mem_all_requiringSole {value : Predicate D} :
    value ∈ descriptor.requiringSole.all ↔
      value ∈ descriptor.all ∨ ∃ group ∈ descriptor.any, group.length = 1 ∧ value ∈ group := by
  simp only [requiringSole, List.mem_append, List.mem_flatten, List.mem_filter, decide_eq_true_eq,
    and_assoc]

section Factors

variable (hwell : descriptor.IsWellFormed) (hnamed : descriptor.any ≠ [] ∨ descriptor.all ≠ [])

include hwell hnamed

/-- A group consists of all values of its kind that occur in concrete sets. -/
theorem mem_group_iff {group : List (Predicate D)} (hgroup : group ∈ descriptor.any)
    {value other : Predicate D} (hvalue : value ∈ group) :
    other ∈ group ↔
      other.kind = value.kind ∧ ∃ concrete ∈ descriptor.concreteSets, other ∈ concrete := by
  have hkinds : ∀ named ∈ group, named.kind = value.kind := fun named hmem =>
    kind_eq_of_isMixed_eq_false (isMixed_eq_false_of_mem_any hwell hgroup) hmem hvalue
  constructor
  · intro hother
    have hmem : other ∈ descriptor.anyValues ++ descriptor.all :=
      List.mem_append_left _ (List.mem_flatten.mpr ⟨group, hgroup, hother⟩)
    exact ⟨hkinds other hother, exists_concrete_of_mem hnamed hmem⟩
  · rintro ⟨hkind, concrete, hconcrete, hmem⟩
    -- The concrete set takes a value from the group, which is the only one of its kind there.
    obtain ⟨hsingle, -, -, hgroups⟩ := (mem_concreteSets_iff hwell hnamed).mp hconcrete
    obtain ⟨taken, htaken, htakenMem⟩ := hgroups group hgroup
    rwa [hsingle other hmem taken htakenMem (hkind.trans (hkinds taken htaken).symm)]

/-- Where there is an alternative to a value, some concrete set does without the value. -/
theorem exists_concrete_without {group : List (Predicate D)} (hgroup : group ∈ descriptor.any)
    (hlength : group.length ≠ 1) {value : Predicate D} (hvalue : value ∈ group) :
    ∃ concrete ∈ descriptor.concreteSets, value ∉ concrete := by
  obtain ⟨-, hany, -⟩ := fault?_eq_none_iff.mp (isWellFormed_iff.mp hwell)
  have hnodup : group.Nodup := hany.sublist (List.sublist_flatten_of_mem hgroup)
  have hother : ∃ other ∈ group, other ≠ value := by
    by_contra hnone
    push Not at hnone
    have hshort : group.length ≤ 1 := (length_le_one_iff_of_nodup hnodup).mpr
      fun one hone other hother => (hnone one hone).trans (hnone other hother).symm
    have hsome : group.length ≠ 0 := fun hzero =>
      descriptor.nonempty_of_mem_any group hgroup (List.length_eq_zero_iff.mp hzero)
    omega
  obtain ⟨other, hother, hne⟩ := hother
  obtain ⟨hkind, concrete, hconcrete, hmem⟩ := (mem_group_iff hwell hnamed hgroup hvalue).mp hother
  exact ⟨concrete, hconcrete, fun hin =>
    hne (singleValued_of_mem_concreteSets hwell hconcrete other hmem value hin hkind)⟩

/-- Values without alternatives are those that all concrete sets share. -/
theorem mem_all_requiringSole_iff {value : Predicate D} :
    value ∈ descriptor.requiringSole.all ↔
      ∀ concrete ∈ descriptor.concreteSets, value ∈ concrete := by
  rw [mem_all_requiringSole]
  constructor
  · intro h concrete hconcrete
    obtain ⟨-, -, hrequired, hgroups⟩ := (mem_concreteSets_iff hwell hnamed).mp hconcrete
    rcases h with hall | ⟨group, hgroup, hlength, hvalue⟩
    · exact hrequired value hall
    · obtain ⟨sole, rfl⟩ := List.length_eq_one_iff.mp hlength
      obtain ⟨taken, htaken, hmem⟩ := hgroups [sole] hgroup
      rwa [List.mem_singleton.mp hvalue, ← List.mem_singleton.mp htaken]
  · intro h
    obtain ⟨concrete, hconcrete⟩ := List.exists_mem_of_ne_nil descriptor.concreteSets (by
      rwa [Ne, concreteSets_eq_nil_iff, not_and_or])
    rcases List.mem_append.mp (mem_of_mem_concreteSets hconcrete (h concrete hconcrete)) with
      hany | hall
    · obtain ⟨group, hgroup, hvalue⟩ := List.mem_flatten.mp hany
      refine .inr ⟨group, hgroup, ?_, hvalue⟩
      by_contra hlength
      obtain ⟨other, hother, hnot⟩ :=
        exists_concrete_without hwell hnamed hgroup hlength hvalue
      exact hnot (h other hother)
    · exact .inl hall

end Factors

/-- The groups with alternatives can be recovered from the concrete sets. -/
theorem groupsWithin_requiringSole (hfirst : first.IsWellFormed) (hsecond : second.IsWellFormed)
    (hfirstNamed : first.any ≠ [] ∨ first.all ≠ [])
    (hsecondNamed : second.any ≠ [] ∨ second.all ≠ [])
    (h : ∀ set, set ∈ first.concreteSets ↔ set ∈ second.concreteSets) :
    GroupsWithin first.requiringSole second.requiringSole := by
  intro group hgroup
  obtain ⟨hgroup, hlength⟩ := mem_any_requiringSole.mp hgroup
  obtain ⟨value, hvalue⟩ :=
    List.exists_mem_of_ne_nil _ (first.nonempty_of_mem_any group hgroup)
  -- The value is in some concrete sets and not in others, so it has alternatives there too.
  obtain ⟨-, concrete, hconcrete, hmem⟩ :=
    (mem_group_iff hfirst hfirstNamed hgroup hvalue).mp hvalue
  obtain ⟨without, hwithout, hnot⟩ :=
    exists_concrete_without hfirst hfirstNamed hgroup hlength hvalue
  have hoptional : value ∉ second.requiringSole.all := by
    rw [mem_all_requiringSole_iff hsecond hsecondNamed]
    exact fun hall => hnot (hall without ((h without).mp hwithout))
  rw [mem_all_requiringSole, not_or] at hoptional
  have hany : value ∈ second.anyValues :=
    (List.mem_append.mp (mem_of_mem_concreteSets ((h concrete).mp hconcrete) hmem)).resolve_right
      hoptional.1
  obtain ⟨other, hother, hvalueOther⟩ := List.mem_flatten.mp hany
  refine ⟨other, mem_any_requiringSole.mpr ⟨hother, fun hsole =>
    hoptional.2 ⟨other, hother, hsole, hvalueOther⟩⟩, fun named => ?_⟩
  rw [mem_group_iff hfirst hfirstNamed hgroup hvalue,
    mem_group_iff hsecond hsecondNamed hother hvalueOther]
  simp only [h]

theorem key_requiringSole_eq (hfirst : first.IsWellFormed) (hsecond : second.IsWellFormed)
    (hcondition : first.condition.isPresent = second.condition.isPresent)
    (h : ∀ set, set ∈ first.concreteSets ↔ set ∈ second.concreteSets) :
    first.requiringSole.key = second.requiringSole.key := by
  have hnone : first.concreteSets = [] ↔ second.concreteSets = [] := by
    rw [List.eq_nil_iff_forall_not_mem, List.eq_nil_iff_forall_not_mem]
    exact forall_congr' fun set => not_congr (h set)
  rw [concreteSets_eq_nil_iff, concreteSets_eq_nil_iff] at hnone
  by_cases hfirstNone : first.any = [] ∧ first.all = []
  · obtain ⟨hany, hall⟩ := hnone.mp hfirstNone
    simp only [key, requiringSole, hfirstNone.1, hfirstNone.2, hany, hall, hcondition]
  · have hfirstNamed := not_and_or.mp hfirstNone
    have hsecondNamed := not_and_or.mp (hnone.not.mp hfirstNone)
    refine key_eq_iff.mpr ⟨groupsWithin_requiringSole hfirst hsecond hfirstNamed hsecondNamed h,
      groupsWithin_requiringSole hsecond hfirst hsecondNamed hfirstNamed fun set => (h set).symm,
      fun value => ?_, hcondition⟩
    rw [mem_all_requiringSole_iff hfirst hfirstNamed,
      mem_all_requiringSole_iff hsecond hsecondNamed]
    simp only [h]

end Descriptor

/-- An override that is carried out takes the place of the newest standing row with its key. -/
theorem Row.exists_replaced_of_settle {standing later : List (Row D)} {row : Row D}
    (herrors : (settle standing row later).2 = []) (hoverrides : row.overrides = true) :
    ∃ front replaced back, standing = front ++ replaced :: back ∧ replaced.key = row.key ∧
      (∀ other ∈ front, other.key ≠ row.key) ∧
      (settle standing row later).1 = row :: (front ++ back) := by
  obtain ⟨hstands, hafter⟩ := mem_standing_of_settle herrors hoverrides
  obtain ⟨known, hknown, hkey⟩ := List.mem_map.mp hstands
  obtain ⟨replaced, front, back, hfront, hreplaced, hstanding, herase⟩ :=
    List.exists_of_eraseP (p := fun other => other.key = row.key) hknown (by simpa using hkey)
  refine ⟨front, replaced, back, hstanding, by simpa using hreplaced, ?_, herase ▸ hafter⟩
  intro other hother
  simpa using hfront other hother

/-- Well-formed descriptors with the same key both have conditions or both have none, have the
same concrete sets, and rank every pool alike. So an override that is carried out accepts
what the row that it replaces accepted, with the same ranks. The other way round, if both
have conditions or none has and the concrete sets are the same, then so are the keys, once
values without alternatives are required. -/
theorem Descriptor.key_identifies_rules (D : Domain) :
    (∀ first second : Descriptor D, first.IsWellFormed → second.IsWellFormed →
      first.key = second.key →
        first.condition.isPresent = second.condition.isPresent ∧
        (∀ set, set ∈ first.concreteSets ↔ set ∈ second.concreteSets) ∧
        ∀ pool, first.rankings pool = second.rankings pool) ∧
    (∀ (standing later after : List (Row D)) (row : Row D), row.overrides = true →
      row.descriptor.IsWellFormed → (∀ other ∈ standing, other.descriptor.IsWellFormed) →
      Row.settle standing row later = (after, []) →
        ∃ front replaced back, standing = front ++ replaced :: back ∧
          (∀ other ∈ front, other.key ≠ row.key) ∧ after = row :: (front ++ back) ∧
          row.descriptor.condition.isPresent = replaced.descriptor.condition.isPresent ∧
          ∀ pool, row.descriptor.rankings pool = replaced.descriptor.rankings pool) ∧
    ∀ first second : Descriptor D, first.IsWellFormed → second.IsWellFormed →
      first.condition.isPresent = second.condition.isPresent →
      (∀ set, set ∈ first.concreteSets ↔ set ∈ second.concreteSets) →
        first.requiringSole.key = second.requiringSole.key := by
  refine ⟨fun first second hfirst hsecond hkey => ?_, ?_, fun first second => key_requiringSole_eq⟩
  · obtain ⟨-, -, -, hcondition⟩ := key_eq_iff.mp hkey
    exact ⟨hcondition, fun set => ⟨mem_concreteSets_of_key_eq hfirst hsecond hkey,
      mem_concreteSets_of_key_eq hsecond hfirst hkey.symm⟩,
      rankings_eq_of_key_eq hfirst hsecond hkey⟩
  · intro standing later after row hoverrides hrow hstanding hsettle
    obtain ⟨front, replaced, back, rfl, hkey, hfront, hafter⟩ :=
      Row.exists_replaced_of_settle (congrArg Prod.snd hsettle) hoverrides
    rw [hsettle] at hafter
    have hsame : row.descriptor.key = replaced.descriptor.key :=
      (congrArg RuleKey.matchKey hkey).symm
    have hreplaced := hstanding replaced (List.mem_append_right front List.mem_cons_self)
    obtain ⟨-, -, -, hcondition⟩ := key_eq_iff.mp hsame
    exact ⟨front, replaced, back, rfl, hfront, hafter, hcondition,
      rankings_eq_of_key_eq hrow hreplaced hsame⟩

/-! ## A sample -/

namespace Scenario

/-- One phrase is required, and a number from a list that may come in any order. -/
def onNumbers (numbers : List (Predicate domain)) : Descriptor domain :=
  (Descriptor.unconstrained.withAll [phrase "open"]).withAny numbers

/-- The same with a group for the only phrase. -/
def solePhrase : Descriptor domain :=
  ((Descriptor.declaredAt default).withAny [phrase "open"]).withAny [number 0, number 1]

/-- A row for one or the other number, in the order given. -/
def startOn (numbers : List (Predicate domain)) (overrides : Bool) : Row domain :=
  ⟨⟨"idle", ⟨"rise", none⟩, "slow", [], overrides, ⟨0⟩, default, default, default⟩,
    onNumbers numbers⟩

theorem settle_startOn :
    Row.settle [startOn [number 0, number 1] false] (startOn [number 1, number 0] true) [] =
      ([startOn [number 1, number 0] true], []) := rfl

end Scenario

/-- An override may name the numbers in another order. The group for the only phrase makes for
another key, and for the same one after all when the phrase is required. -/
theorem Descriptor.key_identifies_rules_numbers :
    (∃ replaced ∈ [Scenario.startOn [Scenario.number 0, Scenario.number 1] false], ∀ pool,
      (Scenario.onNumbers [Scenario.number 1, Scenario.number 0]).rankings pool =
        replaced.descriptor.rankings pool) ∧
    Scenario.solePhrase.key ≠ (Scenario.onNumbers [Scenario.number 1, Scenario.number 0]).key ∧
    Scenario.solePhrase.requiringSole.key =
      (Scenario.onNumbers [Scenario.number 1, Scenario.number 0]).requiringSole.key := by
  obtain ⟨-, hoverride, hconverse⟩ := key_identifies_rules Scenario.domain
  have hwell : (Scenario.onNumbers [Scenario.number 1, Scenario.number 0]).IsWellFormed := rfl
  have hstandingWell : ∀ other ∈ [Scenario.startOn [Scenario.number 0, Scenario.number 1] false],
      other.descriptor.IsWellFormed := List.forall_mem_singleton.mpr rfl
  obtain ⟨front, replaced, back, hstanding, -, -, -, hrankings⟩ :=
    hoverride _ [] _ _ rfl hwell hstandingWell Scenario.settle_startOn
  have hreplaced : replaced ∈ [Scenario.startOn [Scenario.number 0, Scenario.number 1] false] := by
    rw [hstanding]
    exact List.mem_append_right front List.mem_cons_self
  have hsets : Scenario.solePhrase.concreteSets.Perm
      (Scenario.onNumbers [Scenario.number 1, Scenario.number 0]).concreteSets := by decide
  exact ⟨⟨replaced, hreplaced, hrankings⟩, by decide,
    hconverse _ _ rfl rfl rfl fun _ => hsets.mem_iff⟩

end RuleMachine
