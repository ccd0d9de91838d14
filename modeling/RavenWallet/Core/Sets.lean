/-
  Hash tables with linear probing (BRSet.c).

  An item is a pointer: equality of `α` is that of pointers, `eq` that of the
  items.  A bucket is `none` when it is NULL.  An operation without a result has
  read outside of a table or never ends.

  * `probe_stops`: with an empty bucket in the table, every probe ends;
  * `add_spec`, `remove_spec`, `get_spec`: the operations are those on maps of
    classes of equal items;
  * `cleanup_spec`: what is kept while the items after a removed one are put again.
-/
import Mathlib.Data.List.ReduceOption
import RavenWallet.Lib.Probe
import RavenWallet.Lib.Reach

namespace RavenWallet

/-- Starting with 1, multiply by 3/2, round up, then find next largest prime. -/
def tableSizes : List ℕ := [
  1, 3, 7, 13, 23, 37, 59, 97, 149, 227, 347, 523, 787, 1187, 1783, 2677, 4019, 6037, 9059, 13591,
  20389, 30593, 45887, 68863, 103307, 154981, 232487, 348739, 523129, 784697, 1177067, 1765609,
  2648419, 3972643, 5958971, 8938469, 13407707, 20111563, 30167359, 45251077, 67876637, 101814991,
  152722489, 229083739, 343625629, 515438447, 773157683, 1159736527, 1739604799, 2609407319,
  3914111041]

structure BRSet (α : Type) where
  /-- hashtable -/
  table : List (Option α)
  /-- number of buckets in table -/
  size : ℕ
  /-- number of items in set -/
  itemCount : ℕ
  hash : α → ℕ
  eq : α → α → Bool

namespace BRSet

variable {α : Type}

/-! ## Tables -/

/-- The number of buckets that `_SetInit` allocates; it allocates none when `tableSizes` ends. -/
def tableSize (capacity : ℕ) : Option ℕ :=
  tableSizes[tableSizes.findIdx (fun n => ¬ n < capacity) + 1]?

/-- `_SetInit`. -/
def setInit (set : BRSet α) (hash : α → ℕ) (eq : α → α → Bool) (capacity : ℕ) : BRSet α :=
  match tableSize capacity with
  | some size => { table := List.replicate size none, size, itemCount := 0, hash, eq }
  | none => { set with itemCount := 0, hash, eq }

/-- `BRSetNew`. -/
def new (hash : α → ℕ) (eq : α → α → Bool) (capacity : ℕ) : BRSet α :=
  setInit { table := [], size := 0, itemCount := 0, hash, eq } hash eq capacity

/-- The number of items beyond which a table grows. -/
def loadLimit (size : ℕ) : ℕ := (size + 2) / 3 * 2

/-- `BRSetCount`. -/
def count (set : BRSet α) : ℕ := set.itemCount

/-- Puts an item in bucket `i`, which had `t`. -/
def put (set : BRSet α) (i : ℕ) (t : Option α) (item : α) : BRSet α :=
  { set with
    table := set.table.set i (some item)
    itemCount := if t.isNone then set.itemCount + 1 else set.itemCount }

/-- Empties bucket `i`, which had an item. -/
def take (set : BRSet α) (i : ℕ) : BRSet α :=
  { set with
    table := set.table.set i none
    itemCount := set.itemCount - 1 }

/-- The loop over the items of the table that `other` reads in every round. -/
def eachItem {S : Type} (other : S → List (Option α)) (body : S → α → Option S) :
    ℕ → ℕ → S → Option S
  | 0, _, s => some s
  | n + 1, i, s => do
    match ← (other s)[i]? with
    | none => eachItem other body n (i + 1) s
    | some t =>
      let s' ← body s t
      eachItem other body n (i + 1) s'

/-- `BRSetClear`. -/
def clear (set : BRSet α) : BRSet α :=
  { set with
    table := List.replicate set.size none
    itemCount := 0 }

/-- `BRSetAll`. -/
def all (set : BRSet α) (count : ℕ) : List α := set.table.reduceOption.take count

section
variable [DecidableEq α]

/-- Probes from bucket `i` on, and gives the bucket where the probe ends with what is in it.  After
    `size` buckets it is back at the first, and never ends. -/
def probeFrom (set : BRSet α) (item : α) : ℕ → ℕ → Option (ℕ × Option α)
  | 0, _ => none
  | n + 1, i => do
    match ← set.table[i]? with
    | none => some (i, none)
    | some t =>
      if t = item ∨ set.eq t item = true then some (i, some t)
      else set.probeFrom item n ((i + 1) % set.size)

/-- The probe for an item, the same in all functions. -/
def probe (set : BRSet α) (item : α) : Option (ℕ × Option α) :=
  set.probeFrom item set.size (set.hash item % set.size)

/-- `_SetGrow`; `newSet` is on the stack, and without a table what it holds is indeterminate. -/
def setGrow (add : BRSet α → α → Option (BRSet α × Option α)) (set : BRSet α) (capacity : ℕ) :
    Option (BRSet α) := do
  guard (tableSize capacity).isSome
  let newSet ← eachItem (fun _ => set.table) (fun s t => (add s t).map Prod.fst) set.size 0
    (new set.hash set.eq capacity)
  some { set with table := newSet.table, size := newSet.size, itemCount := newSet.itemCount }

/-- `BRSetAdd`, which is called again by `_SetGrow` through `BRSetUnion`, each time for a larger
    table. -/
def addNested : ℕ → BRSet α → α → Option (BRSet α × Option α)
  | 0, _, _ => none
  | depth + 1, set, item => do
    let (i, t) ← set.probe item
    let set' := set.put i t item
    if loadLimit set.size < set'.itemCount then
      let grown ← set'.setGrow (addNested depth) set.size
      some (grown, t)
    else some (set', t)

/-- `BRSetAdd`. -/
def add (set : BRSet α) (item : α) : Option (BRSet α × Option α) :=
  addNested tableSizes.length set item

/-- The cleanup after a removal, from bucket `i` on. -/
def cleanup : ℕ → BRSet α → ℕ → Option (BRSet α)
  | 0, _, _ => none
  | n + 1, set, i => do
    match ← set.table[i]? with
    | none => some set
    | some t =>
      let (set', _) ← (set.take i).add t
      cleanup n set' ((i + 1) % set.size)

/-- `BRSetRemove`. -/
def remove (set : BRSet α) (item : α) : Option (BRSet α × Option α) := do
  let (i, r) ← set.probe item
  match r with
  | none => some (set, none)
  | some r =>
    let set' ← cleanup set.size (set.take i) ((i + 1) % set.size)
    some (set', some r)

/-- `BRSetGet`. -/
def get (set : BRSet α) (item : α) : Option (Option α) := (set.probe item).map Prod.snd

/-- `BRSetContains`. -/
def contains (set : BRSet α) (item : α) : Option Bool := (set.get item).map Option.isSome

/-- `BRSetIterate`. -/
def iterate (set : BRSet α) (previous : Option α) : Option (Option α) := do
  let i ← match previous with
    | none => some 0
    | some item => (set.probe item).map fun b => b.1 + 1
  some ((set.table.drop i).findSome? id)

/-! ## Two sets

The second set is `none` when it is the first one. -/

/-- `BRSetUnion`. -/
def union (set : BRSet α) (otherSet : Option (BRSet α)) : Option (BRSet α) :=
  eachItem (fun s => (otherSet.getD s).table) (fun s t => (s.add t).map Prod.fst)
    (otherSet.getD set).size 0 set

/-- `BRSetMinus`. -/
def minus (set : BRSet α) (otherSet : Option (BRSet α)) : Option (BRSet α) :=
  eachItem (fun s => (otherSet.getD s).table) (fun s t => (s.remove t).map Prod.fst)
    (otherSet.getD set).size 0 set

/-- `BRSetIntersects`. -/
def intersects (set : BRSet α) (otherSet : Option (BRSet α)) : Option Bool :=
  (otherSet.getD set).table.reduceOption.anyM set.contains

/-- The loop of `BRSetIntersect`; a round advances or removes an item. -/
def intersectFrom (otherSet : Option (BRSet α)) (size : ℕ) : ℕ → ℕ → BRSet α → Option (BRSet α)
  | 0, _, _ => none
  | n + 1, i, set =>
    if i < size then do
      match ← set.table[i]? with
      | none => intersectFrom otherSet size n (i + 1) set
      | some t =>
        if ← (otherSet.getD set).contains t then intersectFrom otherSet size n (i + 1) set
        else
          let (set', _) ← set.remove t
          intersectFrom otherSet size n i set'
    else some set

/-- `BRSetIntersect`. -/
def intersect (set : BRSet α) (otherSet : Option (BRSet α)) : Option (BRSet α) :=
  intersectFrom otherSet set.size (set.size + set.itemCount + 1) 0 set

end

/-! ## Shapes -/

/-- What a bucket has; beyond the table there is nothing. -/
def slot (T : List (Option α)) (i : ℕ) : Option α := T[i]?.join

/-- The bucket that is probed after bucket `i`. -/
def next (size i : ℕ) : ℕ := (i + 1) % size

/-- The bucket where the probe for an item begins. -/
def home (hash : α → ℕ) (size : ℕ) (t : α) : ℕ := hash t % size

abbrev Equal (eq : α → α → Bool) (t x : α) : Prop := eq t x = true

/-- Any two items that are equal must also have identical hash values. -/
structure Lawful (hash : α → ℕ) (eq : α → α → Bool) : Prop where
  equivalence : Equivalence (Equal eq)
  hash_eq : ∀ {t x}, eq t x = true → hash t = hash x

/-- What holds of a set at any time. -/
structure Shaped (hash : α → ℕ) (eq : α → α → Bool) (set : BRSet α) : Prop where
  hash_eq : set.hash = hash
  eq_eq : set.eq = eq
  size_mem : set.size ∈ tableSizes.tail
  length_eq : set.table.length = set.size
  count_eq : set.itemCount = set.table.countP Option.isSome

/-- What holds of a set between operations. -/
structure Valid (hash : α → ℕ) (eq : α → α → Bool) (set : BRSet α) : Prop
    extends Shaped hash eq set where
  load : set.itemCount ≤ loadLimit set.size
  probed : Probe.Probed (next set.size) (home hash set.size) (Equal eq) (slot set.table)

/-- The items of the set are those of the map. -/
def Stores (eq : α → α → Bool) (set : BRSet α) (m : α → Option α) : Prop :=
  Probe.Keeps (Equal eq) (slot set.table) m

section
variable {T : List (Option α)} {i j : ℕ} {v : Option α} {t : α}

theorem slot_eq_some : slot T i = some t ↔ T[i]? = some (some t) := by
  rw [slot, Option.join_eq_some_iff]

theorem getElem?_of_lt (h : i < T.length) : T[i]? = some (slot T i) := by
  rw [slot, List.getElem?_eq_getElem h]
  rfl

theorem lt_of_slot (h : slot T i = some t) : i < T.length :=
  (List.getElem?_eq_some_iff.1 (slot_eq_some.1 h)).1

theorem slot_set (h : i < T.length) : slot (T.set i v) = Function.update (slot T) i v := by
  funext j
  by_cases hj : j = i
  · subst hj
    rw [Function.update_self, slot, List.getElem?_set_self h]
    rfl
  · rw [Function.update_of_ne hj, slot, slot, List.getElem?_set_ne fun h => hj h.symm]

theorem slot_replicate (n : ℕ) : slot (List.replicate n (none : Option α)) i = none := by
  rw [slot, List.getElem?_replicate]
  split_ifs <;> rfl

theorem mem_reduceOption : t ∈ T.reduceOption ↔ Probe.Holds (slot T) t := by
  rw [List.reduceOption_mem_iff, List.mem_iff_getElem?]
  exact exists_congr fun i => slot_eq_some.symm

theorem countP_set (h : i < T.length) : (T.set i v).countP Option.isSome =
    T.countP Option.isSome - (if (slot T i).isSome then 1 else 0) + if v.isSome then 1 else 0 := by
  rw [List.countP_set h]
  have hget : T[i] = slot T i := Option.some.inj ((List.getElem?_eq_getElem h).symm.trans
    (getElem?_of_lt h))
  rw [hget]

theorem countP_pos (h : slot T i = some t) : 0 < T.countP Option.isSome :=
  List.countP_pos_iff.2 ⟨some t, List.mem_of_getElem? (slot_eq_some.1 h), rfl⟩

theorem countP_reduceOption : T.reduceOption.length = T.countP Option.isSome := by
  rw [List.reduceOption_length_eq, List.countP_eq_length_filter]

end

/-- Every bucket is probed. -/
theorem exists_step {i e size : ℕ} (hi : i < size) (he : e < size) :
    ∃ k < size, (i + k) % size = e := by
  rcases Nat.lt_or_ge e i with h | h
  · refine ⟨e + size - i, by omega, ?_⟩
    rw [Nat.add_sub_of_le (by omega), Nat.add_mod_right, Nat.mod_eq_of_lt he]
  · exact ⟨e - i, by omega, by rw [Nat.add_sub_of_le h, Nat.mod_eq_of_lt he]⟩

theorem loadLimit_lt : ∀ {n}, n ∈ tableSizes.tail → loadLimit n < n := by decide

theorem tableSize_mem {capacity n : ℕ} (h : tableSize capacity = some n) :
    n ∈ tableSizes.tail := by
  refine List.mem_of_getElem? (i := tableSizes.findIdx fun n => ¬ n < capacity) ?_
  rw [List.getElem?_tail]
  exact h

theorem tableSize_of_le {capacity : ℕ} (h : capacity ≤ 2609407319) :
    (tableSize capacity).isSome := by
  rw [tableSize, Option.isSome_iff_ne_none, ne_eq, List.getElem?_eq_none_iff, not_le]
  have hle : tableSizes.findIdx (fun n => ¬ n < capacity) ≤ 49 := by
    by_contra hlt
    have hlast := List.not_of_lt_findIdx (i := 49) (Nat.not_le.1 hlt)
    simp [tableSizes] at hlast
    omega
  exact Nat.lt_of_le_of_lt (Nat.succ_le_succ hle) (by decide)

/-- The next table has room for the items of a table that grows. -/
theorem loadLimit_next : ∀ n ∈ tableSizes.tail, ∀ n' ∈ tableSize n,
    loadLimit n + 1 ≤ loadLimit n' := by decide

/-- Only the last table does not grow. -/
theorem tableSize_isSome : ∀ n ∈ tableSizes.tail,
    loadLimit n < 2609407362 → (tableSize n).isSome := by decide

section
variable {hash : α → ℕ} {eq : α → α → Bool} {set : BRSet α} {i j : ℕ} {x t : α} {v : Option α}
  {m : α → Option α}

theorem Lawful.compatible (hl : Lawful hash eq) (size : ℕ) :
    Probe.Compatible (home hash size) (Equal eq) := by
  refine ⟨hl.equivalence, ?_⟩
  intro t u h
  rw [home, home, hl.hash_eq h]

namespace Shaped

theorem size_pos (hs : Shaped hash eq set) : 0 < set.size :=
  (Nat.zero_le _).trans_lt (loadLimit_lt hs.size_mem)

theorem next_lt (hs : Shaped hash eq set) (i : ℕ) : next set.size i < set.size :=
  Nat.mod_lt _ hs.size_pos

theorem home_lt (hs : Shaped hash eq set) (t : α) : home hash set.size t < set.size :=
  Nat.mod_lt _ hs.size_pos

theorem getElem?_table (hs : Shaped hash eq set) (hi : i < set.size) :
    set.table[i]? = some (slot set.table i) := getElem?_of_lt (hs.length_eq.symm ▸ hi)

theorem lt_size (hs : Shaped hash eq set) (h : slot set.table i = some t) : i < set.size :=
  hs.length_eq ▸ lt_of_slot h

/-- With fewer items than buckets, a bucket is empty. -/
theorem exists_empty (hs : Shaped hash eq set) (h : set.itemCount < set.size) :
    ∃ e < set.size, slot set.table e = none := by
  by_contra hne
  have hall : ∀ v ∈ set.table, Option.isSome v = true := by
    intro v hv
    obtain ⟨i, hi⟩ := List.mem_iff_getElem?.1 hv
    have hlt : i < set.size := hs.length_eq ▸ (List.getElem?_eq_some_iff.1 hi).1
    rw [hs.getElem?_table hlt, Option.some.injEq] at hi
    rw [← hi, Option.isSome_iff_ne_none]
    exact fun hnone => hne ⟨i, hlt, hnone⟩
  rw [hs.count_eq, List.countP_eq_length.2 hall, hs.length_eq] at h
  exact lt_irrefl _ h

theorem slot_put (hs : Shaped hash eq set) (hi : i < set.size) :
    slot (set.put i v x).table = Function.update (slot set.table) i (some x) :=
  slot_set (hs.length_eq.symm ▸ hi)

theorem slot_take (hs : Shaped hash eq set) (hi : i < set.size) :
    slot (set.take i).table = Function.update (slot set.table) i none :=
  slot_set (hs.length_eq.symm ▸ hi)

theorem put (hs : Shaped hash eq set) (hi : i < set.size) (x : α) :
    Shaped hash eq (set.put i (slot set.table i) x) := by
  have hlt : i < set.table.length := hs.length_eq.symm ▸ hi
  refine ⟨hs.hash_eq, hs.eq_eq, hs.size_mem, (List.length_set ..).trans hs.length_eq, ?_⟩
  rw [BRSet.put, countP_set hlt, hs.count_eq]
  cases hslot : slot set.table i with
  | none => rfl
  | some t =>
    have hpos := countP_pos hslot
    simp only [Option.isNone_some, Option.isSome_some, if_true]
    exact (Nat.sub_add_cancel hpos).symm

theorem take (hs : Shaped hash eq set) (h : slot set.table i = some t) :
    Shaped hash eq (set.take i) := by
  refine ⟨hs.hash_eq, hs.eq_eq, hs.size_mem, (List.length_set ..).trans hs.length_eq, ?_⟩
  rw [BRSet.take, countP_set (lt_of_slot h), hs.count_eq, h]
  rfl

end Shaped

/-! ## Items -/

/-- The items of a table that does not change are given to the loop one by one. -/
theorem eachItem_eq {S : Type} (T : List (Option α)) (body : S → α → Option S) (s : S) :
    eachItem (fun _ => T) body T.length 0 s = T.reduceOption.foldlM body s := by
  have hdrop : ∀ n i s, i + n = T.length →
      eachItem (fun _ => T) body n i s = (T.drop i).reduceOption.foldlM body s := by
    intro n
    induction n with
    | zero =>
      intro i s hi
      rw [Nat.add_zero] at hi
      rw [hi, List.drop_length]
      rfl
    | succ n ih =>
      intro i s hi
      have hlt : i < T.length := by omega
      rw [eachItem, getElem?_of_lt hlt, List.drop_eq_getElem_cons hlt]
      have hget : T[i] = slot T i :=
        Option.some.inj ((List.getElem?_eq_getElem hlt).symm.trans (getElem?_of_lt hlt))
      rw [hget]
      cases slot T i with
      | none => exact ih (i + 1) s (by omega)
      | some t =>
        rw [List.reduceOption_cons_of_some, List.foldlM_cons]
        exact congrArg (Option.bind (body s t)) (funext fun s' => ih (i + 1) s' (by omega))
  exact hdrop T.length 0 s (Nat.zero_add _)

theorem Shaped.items_nodup (hl : Lawful hash eq)
    (hp : Probe.Probed (next set.size) (home hash set.size) (Equal eq) (slot set.table)) :
    set.table.reduceOption.Nodup := by
  rw [List.Nodup, List.reduceOption, List.pairwise_filterMap, List.pairwise_iff_getElem]
  rintro i j hi hj hij t ht u hu rfl
  have hslot : ∀ {k} (hk : k < set.table.length), set.table[k] = slot set.table k := fun hk =>
    Option.some.inj ((List.getElem?_eq_getElem hk).symm.trans (getElem?_of_lt hk))
  rw [id, hslot] at ht hu
  exact absurd (hp.distinct ht hu (hl.equivalence.refl t)) (Nat.ne_of_lt hij)

theorem Stores.mem_items (hl : Lawful hash eq) (hm : Stores eq set m) :
    t ∈ ClassMap.items m ↔ t ∈ set.table.reduceOption :=
  (hm.items hl.equivalence).trans mem_reduceOption.symm

theorem Stores.mem_iff (hm : Stores eq set m) (y t : α) :
    m y = some t ↔ t ∈ set.table.reduceOption ∧ eq t y = true := by
  rw [mem_reduceOption]
  exact hm y t

theorem Valid.exists_empty (hv : Valid hash eq set) : ∃ e < set.size, slot set.table e = none :=
  hv.toShaped.exists_empty (hv.load.trans_lt (loadLimit_lt hv.size_mem))

theorem new_valid {capacity : ℕ} (h : (tableSize capacity).isSome) :
    Valid hash eq (new hash eq capacity) ∧ Stores eq (new hash eq capacity) fun _ => none := by
  obtain ⟨size, hsize⟩ := Option.isSome_iff_exists.1 h
  rw [new, setInit, hsize]
  have hempty : slot (List.replicate size (none : Option α)) = fun _ => none :=
    funext fun _ => slot_replicate size
  refine ⟨⟨⟨rfl, rfl, tableSize_mem hsize, List.length_replicate, ?_⟩, Nat.zero_le _, ?_⟩, ?_⟩
  · simp [List.countP_replicate]
  · dsimp only
    rw [hempty]
    exact .empty
  · rw [Stores]
    dsimp only
    rw [hempty]
    exact .empty

/-- What it is to put an item where the probe for it ends. -/
theorem Valid.put (hl : Lawful hash eq) (hv : Valid hash eq set) (hm : Stores eq set m)
    (hi : i < set.size)
    (hs : Probe.Stops (next set.size) (home hash set.size) (Equal eq) (slot set.table) x i) :
    slot set.table i = m x ∧ Stores eq (set.put i (m x) x) (ClassMap.insert (Equal eq) m x) ∧
      Shaped hash eq (set.put i (m x) x) ∧
      Probe.Probed (next set.size) (home hash set.size) (Equal eq)
        (slot (set.put i (m x) x).table) := by
  have hslot : slot set.table i = m x := (hs.lookup (hl.compatible _) hv.probed hm).symm
  refine ⟨hslot, ?_, hslot ▸ hv.toShaped.put hi x, ?_⟩
  · rw [Stores, hv.slot_put hi]
    exact hm.put (hl.compatible _) hv.probed hs
  · rw [hv.slot_put hi]
    exact hv.probed.put (hl.compatible _) hs

theorem itemCount_put (v : Option α) :
    (set.put i v x).itemCount = if v.isNone then set.itemCount + 1 else set.itemCount := rfl

end

/-! ## Probes -/

section
variable [DecidableEq α] {hash : α → ℕ} {eq : α → α → Bool} {set : BRSet α} {i j e : ℕ}
  {x t u : α} {m m' : α → Option α}

theorem probeFrom_stops (hl : Lawful hash eq) (hs : Shaped hash eq set) {n : ℕ}
    (hi : i < set.size) (he : ∃ k < n, slot set.table ((i + k) % set.size) = none) :
    ∃ j < set.size, set.probeFrom x n i = some (j, slot set.table j) ∧
      Probe.Path (next set.size) (fun k => ∃ t, slot set.table k = some t ∧ ¬ Equal eq t x) i j ∧
      ∀ {t}, slot set.table j = some t → eq t x = true := by
  induction n generalizing i with
  | zero =>
    obtain ⟨k, hk, -⟩ := he
    cases hk
  | succ n ih =>
    rw [probeFrom, hs.getElem?_table hi]
    cases hslot : slot set.table i with
    | none =>
      refine ⟨i, hi, by rw [hslot]; rfl, .refl, ?_⟩
      intro t ht
      rw [hslot] at ht
      cases ht
    | some t =>
      by_cases ht : t = x ∨ eq t x = true
      · have hr : eq t x = true := by
          rcases ht with rfl | hr
          · exact hl.equivalence.refl t
          · exact hr
        refine ⟨i, hi, ?_, .refl, ?_⟩
        · rw [hslot]
          exact if_pos (hs.eq_eq.symm ▸ ht)
        · intro u hu
          rw [hslot] at hu
          cases hu
          exact hr
      · have hnext : ∃ k < n, slot set.table (((i + 1) % set.size + k) % set.size) = none := by
          obtain ⟨k, hk, hempty⟩ := he
          cases k with
          | zero =>
            rw [Nat.add_zero, Nat.mod_eq_of_lt hi, hslot] at hempty
            cases hempty
          | succ k =>
            refine ⟨k, Nat.lt_of_succ_lt_succ hk, ?_⟩
            rw [Nat.mod_add_mod, Nat.add_assoc, Nat.add_comm 1 k]
            exact hempty
        obtain ⟨j, hj, hprobe, hpath, hend⟩ := ih (hs.next_lt i) hnext
        refine ⟨j, hj, ?_, hpath.head ⟨⟨t, hslot, fun h => ht (Or.inr h)⟩, rfl⟩, hend⟩
        exact (if_neg (hs.eq_eq.symm ▸ ht)).trans hprobe

/-- A probe ends when there is an empty bucket. -/
theorem probe_stops (hl : Lawful hash eq) (hs : Shaped hash eq set) (he : e < set.size)
    (hempty : slot set.table e = none) (x : α) :
    ∃ i < set.size, set.probe x = some (i, slot set.table i) ∧
      Probe.Stops (next set.size) (home hash set.size) (Equal eq)
        (slot set.table) x i := by
  obtain ⟨k, hk, hke⟩ := exists_step (hs.home_lt x) he
  obtain ⟨i, hi, hprobe, hpath, hend⟩ :=
    probeFrom_stops (x := x) hl hs (hs.home_lt x) ⟨k, hk, hke.symm ▸ hempty⟩
  refine ⟨i, hi, ?_, hpath, hend⟩
  rw [probe, hs.hash_eq]
  exact hprobe

/-- Where the probe ends, the item is put, unless the table has to grow. -/
theorem addNested_put (hl : Lawful hash eq) (hs : Shaped hash eq set) (he : e < set.size)
    (hempty : slot set.table e = none) (depth : ℕ) (x : α) :
    ∃ i < set.size, Probe.Stops (next set.size) (home hash set.size) (Equal eq)
        (slot set.table) x i ∧
      addNested (depth + 1) set x =
        if loadLimit set.size < (set.put i (slot set.table i) x).itemCount then
          ((set.put i (slot set.table i) x).setGrow (addNested depth) set.size).map
            fun grown => (grown, slot set.table i)
        else some (set.put i (slot set.table i) x, slot set.table i) := by
  obtain ⟨i, hi, hprobe, hstop⟩ := probe_stops hl hs he hempty x
  refine ⟨i, hi, hstop, ?_⟩
  rw [addNested, hprobe]
  simp only [Option.bind_eq_bind, Option.bind_some]
  split_ifs
  · rw [Option.map_eq_bind]
    rfl
  · rfl

/-! ## Numbers of items -/

theorem Stores.items_eq (hl : Lawful hash eq) (hm : Stores eq set m) :
    ClassMap.items m = ↑set.table.reduceOption.toFinset := by
  ext t
  rw [hm.mem_items hl, Finset.mem_coe, List.mem_toFinset]

theorem Stores.finite (hl : Lawful hash eq) (hm : Stores eq set m) : (ClassMap.items m).Finite := by
  rw [hm.items_eq hl]
  exact Finset.finite_toSet _

/-- The number of items is that of the map. -/
theorem Stores.count_eq (hl : Lawful hash eq) (hs : Shaped hash eq set)
    (hp : Probe.Probed (next set.size) (home hash set.size) (Equal eq) (slot set.table))
    (hm : Stores eq set m) : set.itemCount = ClassMap.count m := by
  rw [ClassMap.count, hm.items_eq hl, Set.ncard_coe_finset,
    List.toFinset_card_of_nodup (Shaped.items_nodup hl hp), countP_reduceOption, hs.count_eq]

/-! ## Addition -/

/-- While there is room, the table does not grow. -/
theorem addNested_room (hl : Lawful hash eq) (hv : Valid hash eq set) (hm : Stores eq set m)
    (hroom : set.itemCount + 1 ≤ loadLimit set.size) (depth : ℕ) (x : α) :
    ∃ set', addNested (depth + 1) set x = some (set', m x) ∧ Valid hash eq set' ∧
      Stores eq set' (ClassMap.insert (Equal eq) m x) ∧ set'.size = set.size ∧
      set'.itemCount ≤ set.itemCount + 1 := by
  obtain ⟨e, he, hempty⟩ := hv.exists_empty
  obtain ⟨i, hi, hstop, hadd⟩ := addNested_put hl hv.toShaped he hempty depth x
  obtain ⟨hslot, hstores, hshaped, hprobed⟩ := hv.put hl hm hi hstop
  rw [hslot] at hadd
  have hcount : (set.put i (m x) x).itemCount ≤ set.itemCount + 1 := by
    rw [itemCount_put]
    split_ifs
    · exact le_rfl
    · exact Nat.le_succ _
  rw [if_neg (Nat.not_lt.2 (hcount.trans hroom))] at hadd
  exact ⟨_, hadd, ⟨hshaped, hcount.trans hroom, hprobed⟩, hstores, rfl, hcount⟩

/-- A table that grows keeps its items. -/
theorem setGrow_spec (hl : Lawful hash eq) (hs : Shaped hash eq set) (hm : Stores eq set m)
    (hcount : set.itemCount ≤ loadLimit set.size + 1)
    (hsize : (tableSize set.size).isSome) (depth : ℕ) :
    ∃ set', setGrow (addNested (depth + 1)) set set.size = some set' ∧ Valid hash eq set' ∧
      Stores eq set' m := by
  obtain ⟨size, hnext⟩ := Option.isSome_iff_exists.1 hsize
  obtain ⟨hnew, hnone⟩ := new_valid hsize
  have hnewSize : (new hash eq set.size).size = size := by rw [new, setInit, hnext]
  have hlength : set.table.reduceOption.length ≤ loadLimit size := by
    rw [countP_reduceOption, ← hs.count_eq]
    exact hcount.trans (loadLimit_next _ hs.size_mem _ hnext)
  have hloop := foldlM_isSome_prefix
    (f := fun s t => (addNested (depth + 1) s t).map Prod.fst)
    (P := fun done s => Valid hash eq s ∧ s.size = size ∧ s.itemCount ≤ done.length ∧
      Stores eq s (done.foldl (ClassMap.insert (Equal eq)) fun _ => none))
    (l := set.table.reduceOption) (s := new hash eq set.size) ?_ ⟨hnew, hnewSize, ?_, hnone⟩
  · obtain ⟨s, hrun, hv, -, -, hstores⟩ := hloop
    rw [ClassMap.foldl_insert hm.mem_iff] at hstores
    have hunion : ClassMap.union (fun _ => none) m = m := by
      funext y
      exact Option.or_none
    rw [hunion] at hstores
    refine ⟨s, ?_, hv, hstores⟩
    rw [setGrow, ← hs.length_eq, eachItem_eq, hs.length_eq, hs.hash_eq, hs.eq_eq, hrun]
    have heq : ({ table := s.table, size := s.size, itemCount := s.itemCount, hash, eq } : BRSet α)
        = s := by
      rw [← hv.hash_eq, ← hv.eq_eq]
    simp [hsize, guard, heq]
  · rintro done x s hpre ⟨hv, hsz, hle, hstores⟩
    have hlen := hpre.length_le
    rw [List.length_append, List.length_singleton] at hlen
    have hroom : s.itemCount + 1 ≤ loadLimit s.size := by
      rw [hsz]
      omega
    obtain ⟨s', hadd, hv', hstores', hsz', hle'⟩ := addNested_room hl hv hstores hroom depth x
    refine ⟨s', by rw [hadd]; rfl, hv', hsz'.trans hsz, ?_, ?_⟩
    · rw [List.length_append, List.length_singleton]
      omega
    · rw [List.foldl_concat]
      exact hstores'
  · rw [new, setInit, hnext]
    exact le_rfl

/-- The item is added, in place of an equal one. -/
theorem add_spec (hl : Lawful hash eq) (hv : Valid hash eq set) (hm : Stores eq set m)
    (hcount : ClassMap.count (ClassMap.insert (Equal eq) m x) ≤ 2609407362) :
    ∃ set', set.add x = some (set', m x) ∧ Valid hash eq set' ∧
      Stores eq set' (ClassMap.insert (Equal eq) m x) := by
  obtain ⟨e, he, hempty⟩ := hv.exists_empty
  obtain ⟨i, hi, hstop, hadd⟩ := addNested_put hl hv.toShaped he hempty 50 x
  obtain ⟨hslot, hstores, hshaped, hprobed⟩ := hv.put hl hm hi hstop
  rw [hslot] at hadd
  by_cases hgrow : loadLimit set.size < (set.put i (m x) x).itemCount
  · have hle : (set.put i (m x) x).itemCount ≤ loadLimit set.size + 1 := by
      have hload := hv.load
      rw [itemCount_put]
      split_ifs
      · omega
      · omega
    have hsize : (tableSize set.size).isSome := by
      refine tableSize_isSome _ hv.size_mem ?_
      rw [← hstores.count_eq hl hshaped hprobed] at hcount
      omega
    obtain ⟨set', hset', hv', hstores'⟩ := setGrow_spec hl hshaped hstores hle hsize 49
    refine ⟨set', ?_, hv', hstores'⟩
    rw [if_pos hgrow] at hadd
    exact hadd.trans (congrArg (Option.map fun grown => (grown, m x)) hset')
  · rw [if_neg hgrow] at hadd
    exact ⟨_, hadd, ⟨hshaped, Nat.not_lt.1 hgrow, hprobed⟩, hstores⟩

/-! ## Removal -/

/-- The cleanup puts the items again that follow the bucket that was emptied; `P` is kept when one
    is put. -/
theorem cleanup_spec (hl : Lawful hash eq) {size : ℕ} {P : (ℕ → Option α) → ℕ → Prop}
    (hP : ∀ {T j t q}, P T j → j < size → q < size → T j = some t →
      Function.update T j none q = none →
      Probe.Stops (next size) (home hash size) (Equal eq) (Function.update T j none) t q →
      P (Function.update (Function.update T j none) q (some t)) (next size j))
    {n : ℕ} (hs : Shaped hash eq set) (hsize : set.size = size)
    (hload : set.itemCount ≤ loadLimit set.size) (hj : j < size)
    (hloose : Probe.Loose (next size) (home hash size) (Equal eq) (slot set.table) j)
    (hclear : Probe.Clear (next size) (home hash size) (slot set.table) e) (he : e < size)
    (hreach : ∃ k < n, (j + k) % size = e) (h0 : P (slot set.table) j) :
    ∃ set' j', cleanup n set j = some set' ∧ Valid hash eq set' ∧ set'.size = size ∧
      set'.itemCount = set.itemCount ∧
      (∀ t, Probe.Holds (slot set'.table) t ↔ Probe.Holds (slot set.table) t) ∧
      P (slot set'.table) j' ∧ slot set'.table j' = none := by
  induction n generalizing set j with
  | zero =>
    obtain ⟨k, hk, -⟩ := hreach
    cases hk
  | succ n ih =>
    subst hsize
    rw [cleanup, hs.getElem?_table hj]
    cases hslot : slot set.table j with
    | none =>
      exact ⟨set, j, rfl, ⟨hs, hload, hloose.close hslot⟩, rfl, rfl, fun _ => Iff.rfl, h0, hslot⟩
    | some t =>
      have htake := hs.take hslot
      have hslotTake := hs.slot_take hj
      have hempty := (hclear.erase j).empty
      rw [← hslotTake] at hempty
      obtain ⟨q, hq, hstop, hadd⟩ := addNested_put hl htake he hempty 50 t
      rw [hslotTake] at hstop
      have hqnone := hloose.stops_empty hslot hstop
      have hmoved := htake.put hq t
      have hslotPut := htake.slot_put (v := none) (x := t) hq
      have hcount : ((set.take j).put q none t).itemCount = set.itemCount := by
        have hpos := countP_pos hslot
        rw [← hs.count_eq] at hpos
        exact Nat.sub_add_cancel hpos
      rw [hslotTake, hqnone] at hadd hmoved
      rw [hslotTake] at hslotPut
      have hroom : ¬ loadLimit (set.take j).size < set.itemCount := Nat.not_lt.2 hload
      rw [hcount, if_neg hroom] at hadd
      have hje : j ≠ e := by
        rintro rfl
        rw [hclear.empty] at hslot
        cases hslot
      have hreach' : ∃ k < n, (next set.size j + k) % set.size = e := by
        obtain ⟨k, hk, hke⟩ := hreach
        cases k with
        | zero => exact absurd ((Nat.mod_eq_of_lt hj).symm.trans hke) hje
        | succ k =>
          refine ⟨k, Nat.lt_of_succ_lt_succ hk, ?_⟩
          rw [next, Nat.mod_add_mod, Nat.add_assoc, Nat.add_comm 1 k]
          exact hke
      obtain ⟨set', j', hrun, hv, hsize, hitems, hholds, hPend, hend⟩ :=
        ih hmoved rfl (hcount.trans_le hload) (hs.next_lt j)
          (by rw [hslotPut]; exact hloose.move hslot hstop)
          (by rw [hslotPut]; exact hclear.move hslot hstop) hreach'
          (by rw [hslotPut]; exact hP h0 hj hq hslot hqnone hstop)
      refine ⟨set', j', ?_, hv, hsize, hitems.trans hcount, ?_, hPend, hend⟩
      · simp only [Option.bind_eq_bind, Option.bind_some]
        rw [add, show tableSizes.length = 50 + 1 from rfl, hadd]
        exact hrun
      · intro u
        rw [hholds, hslotPut]
        exact Probe.holds_move hslot hqnone

/-- An item that is in the set is removed; `P` is kept by the cleanup. -/
theorem remove_found (hl : Lawful hash eq) {size : ℕ} {P : (ℕ → Option α) → ℕ → Prop}
    (hP : ∀ {T j t q}, P T j → j < size → q < size → T j = some t →
      Function.update T j none q = none →
      Probe.Stops (next size) (home hash size) (Equal eq) (Function.update T j none) t q →
      P (Function.update (Function.update T j none) q (some t)) (next size j))
    (hv : Valid hash eq set) (hsize : set.size = size) (hi : slot set.table i = some t)
    (hx : Equal eq t x) (h0 : P (Function.update (slot set.table) i none) (next size i)) :
    ∃ set' j', set.remove x = some (set', some t) ∧ Valid hash eq set' ∧ set'.size = size ∧
      set'.itemCount + 1 = set.itemCount ∧
      (∀ u, Probe.Holds (slot set'.table) u ↔
        Probe.Holds (Function.update (slot set.table) i none) u) ∧
      P (slot set'.table) j' ∧ slot set'.table j' = none := by
  subst hsize
  obtain ⟨e, he, hempty⟩ := hv.exists_empty
  obtain ⟨q, hq, hprobe, hstop⟩ := probe_stops hl hv.toShaped he hempty x
  obtain rfl := hv.probed.stop_eq (hl.compatible _) hstop hi hx
  have htake := hv.toShaped.take hi
  have hslotTake := hv.toShaped.slot_take hq
  have hpos := countP_pos hi
  rw [← hv.count_eq] at hpos
  have hclear := hv.probed.clear hempty
  obtain ⟨k, hk, hke⟩ := exists_step (hv.toShaped.next_lt q) he
  obtain ⟨set', j', hrun, hv', hsize', hitems, hholds, hPend, hend⟩ :=
    cleanup_spec hl hP (n := set.size) htake rfl ((Nat.sub_le _ _).trans hv.load)
      (hv.toShaped.next_lt q) (by rw [hslotTake]; exact hv.probed.erase q)
      (by rw [hslotTake]; exact hclear.erase q) he ⟨k, hk, hke⟩ (by rw [hslotTake]; exact h0)
  refine ⟨set', j', ?_, hv', hsize', ?_, ?_, hPend, hend⟩
  · rw [remove, hprobe, hi]
    simp only [Option.bind_eq_bind, Option.bind_some]
    rw [show (q + 1) % set.size = next set.size q from rfl, hrun]
    rfl
  · rw [hitems]
    exact Nat.sub_add_cancel hpos
  · rw [← hslotTake]
    exact hholds

/-- The item that is equal to the given one is removed. -/
theorem remove_spec (hl : Lawful hash eq) (hv : Valid hash eq set) (hm : Stores eq set m) (x : α) :
    ∃ set', set.remove x = some (set', m x) ∧ Valid hash eq set' ∧
      Stores eq set' (ClassMap.erase (Equal eq) m x) := by
  cases hx : m x with
  | some t =>
    obtain ⟨⟨i, hi⟩, ht⟩ := (hm x t).1 hx
    obtain ⟨set', -, hrun, hv', -, -, hholds, -, -⟩ :=
      remove_found hl (P := fun _ _ => True) (fun _ _ _ _ _ _ => trivial) hv rfl hi ht trivial
    exact ⟨set', hrun, hv', (hm.erase (hl.compatible _) hv.probed hi ht).of_holds hholds⟩
  | none =>
    obtain ⟨e, he, hempty⟩ := hv.exists_empty
    obtain ⟨i, hi, hprobe, hstop⟩ := probe_stops hl hv.toShaped he hempty x
    rw [← hstop.lookup (hl.compatible _) hv.probed hm, hx] at hprobe
    have herase : ClassMap.erase (Equal eq) m x = m := by
      funext y
      rw [ClassMap.erase, ite_eq_right_iff]
      intro hxy
      exact hx.symm.trans ((hm.consistent hl.equivalence).congr hxy)
    refine ⟨set, by rw [remove, hprobe]; rfl, hv, ?_⟩
    rw [herase]
    exact hm

/-- `BRSetGet` gives the item of the map. -/
theorem get_spec (hl : Lawful hash eq) (hv : Valid hash eq set) (hm : Stores eq set m) (x : α) :
    set.get x = some (m x) := by
  obtain ⟨e, he, hempty⟩ := hv.exists_empty
  obtain ⟨i, hi, hprobe, hstop⟩ := probe_stops hl hv.toShaped he hempty x
  rw [get, hprobe, hstop.lookup (hl.compatible _) hv.probed hm]
  rfl

theorem contains_spec (hl : Lawful hash eq) (hv : Valid hash eq set) (hm : Stores eq set m)
    (x : α) : set.contains x = some (m x).isSome := by
  rw [contains, get_spec hl hv hm]
  rfl

end

end BRSet

end RavenWallet
