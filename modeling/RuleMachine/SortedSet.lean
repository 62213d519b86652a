/-! # Sorted sets

A finite set is kept as the strictly ascending list of its elements. The list
is determined by the members alone, so equality, comparison and display of sets
can read it directly, and sets of sets are sets of the same type.
-/

namespace RuleMachine

/-- A finite set, kept as the strictly ascending list of its elements. -/
structure SortedSet (α : Type) [Ord α] where
  toList : List α
  ascending : toList.Pairwise (fun a b => compare a b = .lt)

namespace SortedSet

variable {α : Type} [Ord α]

theorem ext_toList {first second : SortedSet α} (h : first.toList = second.toList) :
    first = second := by
  cases first
  cases second
  cases h
  rfl

instance [DecidableEq α] : DecidableEq (SortedSet α) := fun first second =>
  if h : first.toList = second.toList then .isTrue (ext_toList h)
  else .isFalse (fun heq => h (heq ▸ rfl))

instance : Membership α (SortedSet α) := ⟨fun set value => value ∈ set.toList⟩

theorem mem_toList {set : SortedSet α} {value : α} : value ∈ set.toList ↔ value ∈ set :=
  Iff.rfl

instance [DecidableEq α] (value : α) (set : SortedSet α) : Decidable (value ∈ set) :=
  inferInstanceAs (Decidable (value ∈ set.toList))

/-- Sets compare as their ascending lists do: lexicographically, a list before
every longer one that starts with it. -/
instance : Ord (SortedSet α) := ⟨fun first second => compare first.toList second.toList⟩

theorem compare_def (first second : SortedSet α) :
    compare first second = compare first.toList second.toList := rfl

instance [Std.TransOrd α] : Std.TransOrd (SortedSet α) where
  eq_swap {first second} := by
    simp only [compare_def]
    exact Std.OrientedCmp.eq_swap
  isLE_trans {first second third} hfirst hsecond := by
    simp only [compare_def] at hfirst hsecond ⊢
    exact Std.TransCmp.isLE_trans hfirst hsecond

instance [Std.LawfulEqOrd α] : Std.LawfulEqOrd (SortedSet α) where
  compare_self {set} := by
    simp only [compare_def]
    exact Std.ReflCmp.compare_self
  eq_of_compare h := ext_toList (Std.LawfulEqCmp.eq_of_compare h)

def empty : SortedSet α := ⟨[], .nil⟩

instance : EmptyCollection (SortedSet α) := ⟨empty⟩

instance : Inhabited (SortedSet α) := ⟨empty⟩

/-- Place a value before the first larger one. A value that is there already
leaves the list as it is. -/
def place (value : α) : List α → List α
  | [] => [value]
  | head :: tail =>
    match compare value head with
    | .lt => value :: head :: tail
    | .eq => head :: tail
    | .gt => head :: place value tail

/-- Placing brings in nothing but the value. -/
theorem eq_or_mem_of_mem_place {value other : α} {list : List α}
    (h : other ∈ place value list) : other = value ∨ other ∈ list := by
  induction list with
  | nil => exact Or.inl (List.mem_singleton.mp h)
  | cons head tail ih =>
      unfold place at h
      split at h
      · exact List.mem_cons.mp h
      · exact Or.inr h
      · cases List.mem_cons.mp h with
        | inl heq => exact Or.inr (heq ▸ List.mem_cons_self)
        | inr htail => exact (ih htail).imp_right (List.mem_cons_of_mem head)

theorem place_ascending [Std.TransOrd α] (value : α) {list : List α}
    (h : list.Pairwise (fun a b => compare a b = .lt)) :
    (place value list).Pairwise (fun a b => compare a b = .lt) := by
  induction list with
  | nil => exact List.pairwise_singleton _ value
  | cons head tail ih =>
      obtain ⟨hhead, htail⟩ := List.pairwise_cons.mp h
      unfold place
      split
      next hlt =>
        refine List.pairwise_cons.mpr ⟨fun other hother => ?_, h⟩
        cases List.mem_cons.mp hother with
        | inl heq => exact heq ▸ hlt
        | inr hmem => exact Std.TransCmp.lt_trans hlt (hhead other hmem)
      next => exact h
      next hgt =>
        refine List.pairwise_cons.mpr ⟨fun other hother => ?_, ih htail⟩
        cases eq_or_mem_of_mem_place hother with
        | inl heq => exact heq ▸ Std.OrientedCmp.lt_of_gt hgt
        | inr hmem => exact hhead other hmem

def insert [Std.TransOrd α] (value : α) (set : SortedSet α) : SortedSet α :=
  ⟨place value set.toList, place_ascending value set.ascending⟩

/-- Whether a value is missing from an ascending list: if it is there, it stands before the
first larger one. -/
def isMissing (value : α) : List α → Bool
  | [] => true
  | head :: tail =>
    match compare value head with
    | .lt => true
    | .eq => false
    | .gt => isMissing value tail

/-- Insert a value, and say whether it is new. -/
def insertNew [Std.TransOrd α] (value : α) (set : SortedSet α) : Bool × SortedSet α :=
  (isMissing value set.toList, set.insert value)

def ofList [Std.TransOrd α] (values : List α) : SortedSet α :=
  values.foldr insert empty

def union [Std.TransOrd α] (first second : SortedSet α) : SortedSet α :=
  first.toList.foldr insert second

def size (set : SortedSet α) : Nat :=
  set.toList.length

def isEmpty (set : SortedSet α) : Bool :=
  set.toList.isEmpty

def isSubset [DecidableEq α] (first second : SortedSet α) : Bool :=
  first.toList.all (fun value => decide (value ∈ second))

def isDisjoint [DecidableEq α] (first second : SortedSet α) : Bool :=
  first.toList.all (fun value => !decide (value ∈ second))

/-! The members of what the operations build. -/

theorem not_mem_empty (value : α) : value ∉ (empty : SortedSet α) :=
  List.not_mem_nil

theorem mem_place [Std.LawfulEqOrd α] {value other : α} {list : List α} :
    other ∈ place value list ↔ other = value ∨ other ∈ list := by
  refine ⟨eq_or_mem_of_mem_place, fun h => ?_⟩
  induction list with
  | nil => exact List.mem_singleton.mpr (h.resolve_right List.not_mem_nil)
  | cons head tail ih =>
      unfold place
      split
      next => exact List.mem_cons.mpr h
      next heq =>
        rw [Std.LawfulEqCmp.eq_of_compare heq] at h
        exact h.elim (fun hhead => hhead ▸ List.mem_cons_self) id
      next =>
        rcases h with hvalue | hmem
        · exact List.mem_cons_of_mem head (ih (Or.inl hvalue))
        · rcases List.mem_cons.mp hmem with hhead | htail
          · exact hhead ▸ List.mem_cons_self
          · exact List.mem_cons_of_mem head (ih (Or.inr htail))

theorem isSubset_iff [DecidableEq α] {first second : SortedSet α} :
    first.isSubset second ↔ ∀ value ∈ first, value ∈ second := by
  simp only [isSubset, List.all_eq_true, decide_eq_true_eq, mem_toList]

section Lawful

variable [Std.TransOrd α] [Std.LawfulEqOrd α]

theorem mem_insert {value other : α} {set : SortedSet α} :
    other ∈ set.insert value ↔ other = value ∨ other ∈ set :=
  mem_place

theorem mem_foldr_insert {values : List α} {set : SortedSet α} {other : α} :
    other ∈ values.foldr insert set ↔ other ∈ values ∨ other ∈ set := by
  induction values with
  | nil => simp
  | cons value rest ih =>
      rw [List.foldr_cons, mem_insert, ih, List.mem_cons, or_assoc]

theorem mem_ofList {values : List α} {other : α} : other ∈ ofList values ↔ other ∈ values := by
  rw [ofList, mem_foldr_insert, or_iff_left (not_mem_empty other)]

theorem mem_union {first second : SortedSet α} {other : α} :
    other ∈ first.union second ↔ other ∈ first ∨ other ∈ second :=
  mem_foldr_insert

/-- An ascending list never stands in the opposite order. -/
theorem not_compare_lt_both {low high : α} (hlt : compare low high = .lt)
    (hgt : compare high low = .lt) : False := by
  have hirrefl := Std.TransCmp.lt_trans hlt hgt
  have hrefl : compare low low = .eq := Std.ReflCmp.compare_self
  rw [hrefl] at hirrefl
  cases hirrefl

theorem nodup_toList (set : SortedSet α) : set.toList.Nodup :=
  set.ascending.imp (fun {low high} (hlt : compare low high = .lt) (heq : low = high) => by
    subst heq
    exact not_compare_lt_both hlt hlt)

/-- Sets with the same members are equal: an ascending list has only one order for
its elements. -/
theorem ext_mem {first second : SortedSet α} (h : ∀ value, value ∈ first ↔ value ∈ second) :
    first = second := by
  refine ext_toList (List.Perm.eq_of_pairwise ?_ first.ascending second.ascending ?_)
  · exact fun low high _ _ hlt hgt => (not_compare_lt_both hlt hgt).elim
  · exact (List.perm_ext_iff_of_nodup first.nodup_toList second.nodup_toList).mpr h

end Lawful

end SortedSet

end RuleMachine
