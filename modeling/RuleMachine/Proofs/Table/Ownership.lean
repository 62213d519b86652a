import Mathlib.Data.List.Nodup
import RuleMachine.Table.Lazy

/-! # Who owns a key

While rows are stored, a key belongs to the first entry put under it. Every later
entry under the key is compared with the owner alone: it is a duplicate if it leads
to the same state, and joins the clash for the key if it does not. Whatever has been
put so far therefore determines the owners, the clashes, and whether there are any
duplicates.
-/

namespace RuleMachine

namespace Lazy

variable {D : Domain}

/-! ## Association lists -/

section ValueAt

variable {α β : Type} [DecidableEq α]

/-- The value first listed for a key. -/
def valueAt (pairs : List (α × β)) (key : α) : Option β :=
  (pairs.find? (fun pair => pair.1 = key)).map Prod.snd

theorem valueAt_cons (head : α × β) (rest : List (α × β)) (key : α) :
    valueAt (head :: rest) key = if head.1 = key then some head.2 else valueAt rest key := by
  rw [valueAt, List.find?_cons]
  by_cases heq : head.1 = key <;> simp [heq, valueAt]

theorem valueAt_append (pairs : List (α × β)) (added : α × β) (key : α) :
    valueAt (pairs ++ [added]) key =
      (valueAt pairs key).or (if added.1 = key then some added.2 else none) := by
  induction pairs with
  | nil => rw [List.nil_append, valueAt_cons]; rfl
  | cons head rest ih =>
      rw [List.cons_append, valueAt_cons, valueAt_cons, ih]
      split <;> rfl

theorem valueAt_eq_none_iff {pairs : List (α × β)} {key : α} :
    valueAt pairs key = none ↔ key ∉ pairs.map Prod.fst := by
  simp only [valueAt, Option.map_eq_none_iff, List.find?_eq_none, decide_eq_true_eq, List.mem_map,
    not_exists, not_and]

end ValueAt

/-! ## The entries under one key -/

/-- What is put, in order: every entry under each of its keys. -/
def puts (entries : List (Entry D)) : List (TableKey D × Entry D) :=
  entries.flatMap fun entry =>
    entry.sets.map (fun set => (⟨entry.row.state, entry.row.event, set⟩, entry))

/-- The entries put under a key. -/
def under (done : List (TableKey D × Entry D)) (key : TableKey D) : List (Entry D) :=
  (done.filter (fun put => put.1 = key)).map Prod.snd

/-- The clash among the entries under one key: the owner and those that lead elsewhere. -/
def dispute? : List (Entry D) → Option (List (Entry D))
  | [] => none
  | owner :: later =>
    match later.filter (fun entry => entry.row.next ≠ owner.row.next) with
    | [] => none
    | others => some (owner :: others)

/-- Whether an entry under one key leads where its owner leads. -/
def repeatsOwner : List (Entry D) → Bool
  | [] => false
  | owner :: later => later.any (fun entry => owner.row.next = entry.row.next)

theorem under_append (done : List (TableKey D × Entry D)) (put : TableKey D × Entry D)
    (key : TableKey D) :
    under (done ++ [put]) key = under done key ++ if put.1 = key then [put.2] else [] := by
  rw [under, under, List.filter_append, List.map_append]
  by_cases heq : put.1 = key <;> simp [heq]

theorem dispute?_append_same {owner entry : Entry D} {later : List (Entry D)}
    (h : owner.row.next = entry.row.next) :
    dispute? (owner :: later ++ [entry]) = dispute? (owner :: later) := by
  simp [dispute?, List.filter_append, h]

theorem dispute?_append_other {owner entry : Entry D} {later : List (Entry D)}
    (h : owner.row.next ≠ entry.row.next) :
    dispute? (owner :: later ++ [entry]) =
      some ((dispute? (owner :: later)).getD [owner] ++ [entry]) := by
  have hentry : [entry].filter (fun other => other.row.next ≠ owner.row.next) = [entry] := by
    simpa using Ne.symm h
  rw [List.cons_append, dispute?, dispute?, List.filter_append, hentry]
  split
  next hnil => simp at hnil
  next hsome => split <;> simp_all

theorem repeatsOwner_append (owner entry : Entry D) (later : List (Entry D)) :
    repeatsOwner (owner :: later ++ [entry]) =
      (repeatsOwner (owner :: later) || decide (owner.row.next = entry.row.next)) := by
  simp [repeatsOwner, List.any_append]

/-! ## Groups and clashes grow -/

theorem addPair_ne_nil (earlier later : Entry D) (groups : List (List (Entry D))) :
    addPair earlier later groups ≠ [] := by
  cases groups with
  | nil => exact List.cons_ne_nil _ _
  | cons group rest =>
      rw [addPair]
      split <;> exact List.cons_ne_nil _ _

theorem addClash_ne_nil (key : TableKey D) (owner later : Entry D)
    (clashes : List (TableKey D × List (Entry D))) : addClash key owner later clashes ≠ [] := by
  cases clashes with
  | nil => exact List.cons_ne_nil _ _
  | cons clash rest =>
      obtain ⟨other, tied⟩ := clash
      rw [addClash]
      split <;> exact List.cons_ne_nil _ _

/-- An entry is added to the clash for its key, which it opens with the owner if
there is none. -/
theorem valueAt_addClash (key other : TableKey D) (owner later : Entry D)
    (clashes : List (TableKey D × List (Entry D))) :
    valueAt (addClash key owner later clashes) other =
      if key = other then some ((valueAt clashes key).getD [owner] ++ [later])
      else valueAt clashes other := by
  induction clashes with
  | nil => rw [addClash, valueAt_cons]; rfl
  | cons clash rest ih =>
      obtain ⟨known, tied⟩ := clash
      rw [addClash]
      split
      next heq =>
        subst heq
        simp only [valueAt_cons, if_true, Option.getD_some]
        split <;> rfl
      next hne =>
        rw [valueAt_cons, ih]
        simp only [valueAt_cons, hne, if_false]
        split
        next heq =>
          have hother : key ≠ other := fun hsame => hne (heq.trans hsame.symm)
          rw [if_neg hother]
        next => rfl

theorem mem_map_fst_addClash {key other : TableKey D} {owner later : Entry D}
    {clashes : List (TableKey D × List (Entry D))} :
    other ∈ (addClash key owner later clashes).map Prod.fst ↔
      other = key ∨ other ∈ clashes.map Prod.fst := by
  rw [← not_iff_not, not_or, ← valueAt_eq_none_iff, ← valueAt_eq_none_iff, valueAt_addClash]
  split
  next heq => simp [heq]
  next hne => exact (and_iff_right (Ne.symm hne)).symm

theorem nodup_map_fst_addClash {key : TableKey D} {owner later : Entry D}
    {clashes : List (TableKey D × List (Entry D))} (h : (clashes.map Prod.fst).Nodup) :
    ((addClash key owner later clashes).map Prod.fst).Nodup := by
  induction clashes with
  | nil => exact List.nodup_singleton key
  | cons clash rest ih =>
      obtain ⟨known, tied⟩ := clash
      obtain ⟨hknown, hrest⟩ := List.nodup_cons.mp h
      rw [addClash]
      split
      next => exact h
      next hne =>
        rw [List.map_cons, List.nodup_cons, mem_map_fst_addClash, not_or]
        exact ⟨⟨hne, hknown⟩, ih hrest⟩

/-! ## The store after any number of puts -/

/-- What a store says about everything that has been put so far. -/
structure Stored (done : List (TableKey D × Entry D)) (store : Store D) : Prop where
  nodup_owners : (store.owners.map Prod.fst).Nodup
  owner : ∀ key, valueAt store.owners key = (under done key).head?
  nodup_clashes : (store.clashes.map Prod.fst).Nodup
  clash : ∀ key, valueAt store.clashes key = dispute? (under done key)
  duplicates : store.duplicates = [] ↔ ∀ key, repeatsOwner (under done key) = false
  /-- Until a conflict occurs, everything put owns its key. -/
  complete : store.duplicates = [] → store.clashes = [] → store.owners = done

theorem stored_nil : Stored ([] : List (TableKey D × Entry D)) ⟨[], [], []⟩ where
  nodup_owners := List.nodup_nil
  owner _ := rfl
  nodup_clashes := List.nodup_nil
  clash _ := rfl
  duplicates := by simp [under, repeatsOwner]
  complete _ _ := rfl

section Put

variable {done : List (TableKey D × Entry D)} {store : Store D} {key : TableKey D}
  {entry owner : Entry D}

/-- The first entry under a key becomes its owner. -/
theorem Stored.claim (h : Stored done store) (hvacant : under done key = []) :
    Stored (done ++ [(key, entry)]) { store with owners := store.owners ++ [(key, entry)] } := by
  have hunder : ∀ other, under (done ++ [(key, entry)]) other =
      if key = other then [entry] else under done other := by
    intro other
    rw [under_append]
    split
    next heq => rw [← heq, hvacant, List.nil_append]
    next => rw [List.append_nil]
  constructor
  case nodup_owners =>
    rw [List.map_append, List.nodup_append']
    refine ⟨h.nodup_owners, List.nodup_singleton key, List.disjoint_singleton.mpr ?_⟩
    rw [← valueAt_eq_none_iff, h.owner, hvacant]
    rfl
  case owner =>
    intro other
    rw [hunder, valueAt_append, h.owner]
    split
    next heq => rw [← heq, hvacant]; rfl
    next => rw [Option.or_none]
  case nodup_clashes => exact h.nodup_clashes
  case clash =>
    intro other
    rw [hunder, h.clash]
    split
    next heq => rw [← heq, hvacant]; rfl
    next => rfl
  case duplicates =>
    rw [h.duplicates]
    apply forall_congr'
    intro other
    rw [hunder]
    split
    next heq => rw [← heq, hvacant]; exact Iff.rfl
    next => exact Iff.rfl
  case complete =>
    intro hduplicates hclashes
    exact congrArg (· ++ [(key, entry)]) (h.complete hduplicates hclashes)

theorem under_append_of_owner {later : List (Entry D)} (howner : under done key = owner :: later)
    (other : TableKey D) :
    under (done ++ [(key, entry)]) other =
      if key = other then owner :: later ++ [entry] else under done other := by
  rw [under_append]
  split
  next heq => rw [← heq, howner]
  next => rw [List.append_nil]

theorem Stored.owner_append (h : Stored done store) {later : List (Entry D)}
    (howner : under done key = owner :: later) (other : TableKey D) :
    valueAt store.owners other = (under (done ++ [(key, entry)]) other).head? := by
  rw [under_append_of_owner howner, h.owner]
  split
  next heq => rw [← heq, howner]; rfl
  next => rfl

/-- An entry that leads where the owner leads is a duplicate. -/
theorem Stored.repeat (h : Stored done store) {later : List (Entry D)}
    (howner : under done key = owner :: later) (hsame : owner.row.next = entry.row.next) :
    Stored (done ++ [(key, entry)])
      { store with duplicates := addPair owner entry store.duplicates } := by
  constructor
  case nodup_owners => exact h.nodup_owners
  case owner => exact h.owner_append howner
  case nodup_clashes => exact h.nodup_clashes
  case clash =>
    intro other
    rw [under_append_of_owner howner, h.clash]
    split
    next heq => rw [← heq, howner, dispute?_append_same hsame]
    next => rfl
  case duplicates =>
    apply iff_of_false (addPair_ne_nil _ _ _)
    intro hnone
    have hkey := hnone key
    rw [under_append_of_owner howner, if_pos rfl, repeatsOwner_append, Bool.or_eq_false_iff,
      decide_eq_false_iff_not] at hkey
    exact hkey.2 hsame
  case complete => exact fun hnone => absurd hnone (addPair_ne_nil _ _ _)

/-- An entry that leads elsewhere clashes with the owner. -/
theorem Stored.contest (h : Stored done store) {later : List (Entry D)}
    (howner : under done key = owner :: later) (hother : owner.row.next ≠ entry.row.next) :
    Stored (done ++ [(key, entry)])
      { store with clashes := addClash key owner entry store.clashes } := by
  constructor
  case nodup_owners => exact h.nodup_owners
  case owner => exact h.owner_append howner
  case nodup_clashes => exact nodup_map_fst_addClash h.nodup_clashes
  case clash =>
    intro other
    rw [under_append_of_owner howner, valueAt_addClash, h.clash, h.clash]
    split
    next => rw [howner, dispute?_append_other hother]
    next => rfl
  case duplicates =>
    rw [h.duplicates]
    apply forall_congr'
    intro other
    rw [under_append_of_owner howner]
    split
    next heq =>
      rw [← heq, howner, repeatsOwner_append, Bool.or_eq_false_iff, decide_eq_false_iff_not]
      exact (and_iff_left hother).symm
    next => exact Iff.rfl
  case complete => exact fun _ hnone => absurd hnone (addClash_ne_nil _ _ _ _)

theorem Stored.put (h : Stored done store) (entry : Entry D) (set : PredicateSet D) :
    Stored (done ++ [(⟨entry.row.state, entry.row.event, set⟩, entry)]) (store.put entry set) := by
  have howner := h.owner ⟨entry.row.state, entry.row.event, set⟩
  rw [valueAt] at howner
  unfold Store.put
  dsimp only
  -- The owner that the store looks up is the first of what has been put under the key.
  split
  next hnone =>
    rw [hnone, eq_comm, Option.map_none, List.head?_eq_none_iff] at howner
    exact h.claim howner
  next known owner hsome =>
    rw [hsome, eq_comm, Option.map_some, List.head?_eq_some_iff] at howner
    obtain ⟨later, hunder⟩ := howner
    split
    next hsame => exact h.repeat hunder hsame
    next hother => exact h.contest hunder hother

end Put

theorem Stored.foldl_put {done : List (TableKey D × Entry D)} {store : Store D}
    (h : Stored done store) (entry : Entry D) (sets : List (PredicateSet D)) :
    Stored (done ++ sets.map (fun set => (⟨entry.row.state, entry.row.event, set⟩, entry)))
      (sets.foldl (Store.put entry) store) := by
  induction sets generalizing done store with
  | nil => simpa using h
  | cons set rest ih =>
      have hrest := ih (h.put entry set)
      rwa [List.append_assoc, List.singleton_append] at hrest

theorem Stored.foldl_entries {done : List (TableKey D × Entry D)} {store : Store D}
    (h : Stored done store) (entries : List (Entry D)) :
    Stored (done ++ puts entries)
      (entries.foldl (fun store entry => entry.sets.foldl (Store.put entry) store) store) := by
  induction entries generalizing done store with
  | nil => simpa [puts] using h
  | cons entry rest ih =>
      have hrest := ih (h.foldl_put entry entry.sets)
      rwa [List.append_assoc] at hrest

/-- The store after all entries have been put under all of their keys. -/
theorem stored_storeAll (entries : List (Entry D)) : Stored (puts entries) (storeAll entries) :=
  stored_nil.foldl_entries entries

end Lazy

end RuleMachine
