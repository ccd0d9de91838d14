/-
  Maps from keys to finite sets, kept as a list of entries.

  An entry has a key and a list of elements.  The list of entries is searched
  from its end, and so are the elements; entries are added at the end and stay
  when their last element is removed.

  * `entryOf_modify`: a changed entry is found, the others are as before;
  * `setOf_add`, `setOf_remove`, `has_iff`, `count_eq`: on distinct entries the
    operations are those of a map to sets.
-/
import Mathlib.Data.Finset.Card
import Mathlib.Logic.Function.Basic

namespace RavenWallet

namespace SetMap

variable {κ α : Type} [DecidableEq κ]

/-! ## Entries -/

/-- The elements of the last entry for a key. -/
def entryOf (l : List (κ × List α)) (k : κ) : Option (List α) :=
  (l.reverse.find? fun e => e.1 = k).map Prod.snd

/-- Changes the elements of the last entry for a key. -/
def modify (k : κ) (f : List α → List α) : List (κ × List α) → List (κ × List α)
  | [] => []
  | e :: es =>
    if (entryOf es k).isSome then e :: modify k f es
    else if e.1 = k then (k, f e.2) :: es
    else e :: es

/-- Drops the entries for a key. -/
def drop (l : List (κ × List α)) (k : κ) : List (κ × List α) := l.filter fun e => e.1 ≠ k

/-- There is one entry for a key, and an element is in it once. -/
structure Distinct (l : List (κ × List α)) : Prop where
  keys : (l.map Prod.fst).Nodup
  elements : ∀ e ∈ l, e.2.Nodup

section
variable {l : List (κ × List α)} {k k' : κ} {f : List α → List α} {as : List α}

theorem entryOf_cons (e : κ × List α) (es : List (κ × List α)) (k : κ) :
    entryOf (e :: es) k = (entryOf es k).or (if e.1 = k then some e.2 else none) := by
  rw [entryOf, entryOf, List.reverse_cons, List.find?_append, Option.map_or]
  congr 1
  by_cases h : e.1 = k
  · simp [h]
  · simp [h]

theorem entryOf_concat (e : κ × List α) (k : κ) :
    entryOf (l ++ [e]) k = (if e.1 = k then some e.2 else none).or (entryOf l k) := by
  rw [entryOf, entryOf, List.reverse_append, List.reverse_singleton, List.singleton_append]
  by_cases h : e.1 = k
  · simp [h]
  · simp [h]

theorem mem_of_entryOf (h : entryOf l k = some as) : (k, as) ∈ l := by
  simp only [entryOf, Option.map_eq_some_iff] at h
  obtain ⟨e, he, rfl⟩ := h
  have hkey := of_decide_eq_true (List.find?_some (p := fun e : κ × List α => decide (e.1 = k)) he)
  have hmem := List.mem_reverse.1 (List.mem_of_find?_eq_some he)
  rwa [← hkey]

theorem entryOf_eq_none : entryOf l k = none ↔ k ∉ l.map Prod.fst := by
  simp only [entryOf, Option.map_eq_none_iff, List.find?_eq_none, List.mem_reverse,
    decide_eq_true_eq, List.mem_map, not_exists, not_and]

/-- With one entry for each key, it is the one that is found. -/
theorem entryOf_of_mem (hl : (l.map Prod.fst).Nodup) (h : (k, as) ∈ l) : entryOf l k = some as := by
  cases hentry : entryOf l k with
  | none => exact absurd (List.mem_map_of_mem h) (entryOf_eq_none.1 hentry)
  | some bs =>
    have hsame := List.inj_on_of_nodup_map hl (mem_of_entryOf hentry) h rfl
    rw [(Prod.mk.inj hsame).2]

theorem keys_modify : (modify k f l).map Prod.fst = l.map Prod.fst := by
  induction l with
  | nil => rfl
  | cons e es ih =>
    rw [modify]
    split_ifs with hes he
    · rw [List.map_cons, List.map_cons, ih]
    · rw [List.map_cons, List.map_cons, he]
    · rfl

/-- Only the entry for the key changes. -/
theorem entryOf_modify :
    entryOf (modify k f l) k' = if k' = k then (entryOf l k).map f else entryOf l k' := by
  induction l with
  | nil =>
    rw [modify]
    split_ifs <;> rfl
  | cons e es ih =>
    rw [modify]
    split_ifs with hes hk he hk hk
    · rw [entryOf_cons, entryOf_cons, ih, if_pos hk, hk]
      obtain ⟨as, has⟩ := Option.isSome_iff_exists.1 hes
      rw [has]
      rfl
    · rw [entryOf_cons, entryOf_cons, ih, if_neg hk]
    · subst hk
      have hnone := Option.not_isSome_iff_eq_none.1 hes
      rw [entryOf_cons, entryOf_cons, hnone, if_pos rfl, if_pos he]
      rfl
    · have hne : ¬ k = k' := fun h => hk h.symm
      rw [entryOf_cons, entryOf_cons, if_neg hne, if_neg (he ▸ hne)]
    · subst hk
      have hnone := Option.not_isSome_iff_eq_none.1 hes
      rw [entryOf_cons, hnone, if_neg he]
      rfl
    · rfl

theorem mem_modify {e : κ × List α} (h : e ∈ modify k f l) :
    e ∈ l ∨ ∃ as, (k, as) ∈ l ∧ e = (k, f as) := by
  induction l with
  | nil => cases h
  | cons d es ih =>
    rw [modify] at h
    split_ifs at h with hes hd
    · rcases List.mem_cons.1 h with rfl | h
      · exact Or.inl List.mem_cons_self
      · rcases ih h with h | ⟨as, has, he⟩
        · exact Or.inl (List.mem_cons_of_mem _ h)
        · exact Or.inr ⟨as, List.mem_cons_of_mem _ has, he⟩
    · rcases List.mem_cons.1 h with rfl | h
      · refine Or.inr ⟨d.2, ?_, rfl⟩
        rw [← hd]
        exact List.mem_cons_self
      · exact Or.inl (List.mem_cons_of_mem _ h)
    · exact Or.inl h

omit [DecidableEq κ] in
theorem Distinct.nil : Distinct ([] : List (κ × List α)) := by
  refine ⟨List.nodup_nil, ?_⟩
  intro e he
  cases he

theorem Distinct.entry (h : Distinct l) (has : entryOf l k = some as) : as.Nodup :=
  h.elements _ (mem_of_entryOf has)

theorem Distinct.modify (h : Distinct l) (hf : ∀ as, entryOf l k = some as → (f as).Nodup) :
    Distinct (modify k f l) := by
  refine ⟨?_, ?_⟩
  · rw [keys_modify]
    exact h.keys
  · intro e he
    rcases mem_modify he with he | ⟨as, has, rfl⟩
    · exact h.elements e he
    · exact hf as (entryOf_of_mem h.keys has)

theorem Distinct.drop (h : Distinct l) (k : κ) : Distinct (drop l k) := by
  refine ⟨h.keys.sublist (List.filter_sublist.map Prod.fst), ?_⟩
  intro e he
  exact h.elements e (List.mem_of_mem_filter he)

end

/-! ## Operations -/

variable [DecidableEq α]

/-- The element is in the entry for the key. -/
def has (l : List (κ × List α)) (k : κ) (a : α) : Bool := (entryOf l k).any fun as => a ∈ as

/-- The number of elements in the entry for the key. -/
def count (l : List (κ × List α)) (k : κ) : ℕ := (entryOf l k).elim 0 List.length

/-- Adds an element to the entry for the key; also the number of elements in it. -/
def add (l : List (κ × List α)) (k : κ) (a : α) : List (κ × List α) × ℕ :=
  match entryOf l k with
  | none => (l ++ [(k, [a])], 1)
  | some as =>
    if a ∈ as then (l, as.length) else (modify k (fun as => as ++ [a]) l, as.length + 1)

/-- Removes the last occurrence of an element from the entry for the key; also whether it was there. -/
def remove (l : List (κ × List α)) (k : κ) (a : α) : List (κ × List α) × Bool :=
  match entryOf l k with
  | none => (l, false)
  | some as =>
    if a ∈ as then (modify k (fun as => (as.reverse.erase a).reverse) l, true) else (l, false)

/-- Removes an element from all entries. -/
def removeAll (l : List (κ × List α)) (a : α) : List (κ × List α) :=
  l.map fun e => (e.1, e.2.filter fun b => b ≠ a)

/-- The set of a key. -/
def setOf (l : List (κ × List α)) (k : κ) : Finset α := ((entryOf l k).getD []).toFinset

section
variable {l : List (κ × List α)} {k : κ} {a : α} {f : List α → List α} {as : List α}

theorem Distinct.add (h : Distinct l) (k : κ) (a : α) : Distinct (add l k a).1 := by
  rw [SetMap.add]
  cases hentry : entryOf l k with
  | none =>
    have hkey := entryOf_eq_none.1 hentry
    refine ⟨?_, ?_⟩
    · rw [List.map_append, List.map_singleton]
      exact List.nodup_append_comm.1 (List.nodup_cons.2 ⟨hkey, h.keys⟩)
    · intro e he
      rcases List.mem_append.1 he with he | he
      · exact h.elements e he
      · rw [List.mem_singleton.1 he]
        exact List.nodup_singleton a
  | some as =>
    dsimp only
    split_ifs with ha
    · exact h
    · refine h.modify ?_
      intro bs hbs
      cases hentry.symm.trans hbs
      exact List.nodup_append_comm.1 (List.nodup_cons.2 ⟨ha, h.entry hentry⟩)

theorem Distinct.remove (h : Distinct l) (k : κ) (a : α) : Distinct (remove l k a).1 := by
  rw [SetMap.remove]
  cases hentry : entryOf l k with
  | none => exact h
  | some as =>
    dsimp only
    split_ifs with ha
    · refine h.modify ?_
      intro bs hbs
      exact List.nodup_reverse.2 ((List.nodup_reverse.2 (h.entry hbs)).erase a)
    · exact h

omit [DecidableEq κ] in
theorem Distinct.removeAll (h : Distinct l) (a : α) : Distinct (removeAll l a) := by
  refine ⟨?_, ?_⟩
  · rw [SetMap.removeAll, List.map_map]
    exact h.keys
  · intro e he
    obtain ⟨d, hd, rfl⟩ := List.mem_map.1 he
    exact (h.elements d hd).filter _

/-! ## The operations on sets -/

theorem has_iff : has l k a = true ↔ a ∈ setOf l k := by
  rw [has, setOf]
  cases entryOf l k with
  | none => simp
  | some as => simp

theorem Distinct.count_eq (h : Distinct l) (k : κ) : count l k = (setOf l k).card := by
  rw [count, setOf]
  cases hentry : entryOf l k with
  | none => rfl
  | some as => exact (List.toFinset_card_of_nodup (h.entry hentry)).symm

theorem setOf_modify {g : Finset α → Finset α} (hentry : entryOf l k = some as)
    (hg : (f as).toFinset = g as.toFinset) :
    setOf (modify k f l) = Function.update (setOf l) k (g (setOf l k)) := by
  funext k'
  by_cases hk : k' = k
  · subst hk
    rw [Function.update_self, setOf, setOf, entryOf_modify, if_pos rfl, hentry]
    exact hg
  · rw [Function.update_of_ne hk, setOf, setOf, entryOf_modify, if_neg hk]

/-- Adding inserts into the set of the key. -/
theorem setOf_add (l : List (κ × List α)) (k : κ) (a : α) :
    setOf (add l k a).1 = Function.update (setOf l) k (insert a (setOf l k)) := by
  rw [add]
  cases hentry : entryOf l k with
  | none =>
    funext k'
    by_cases hk : k' = k
    · subst hk
      rw [Function.update_self, setOf, setOf, entryOf_concat, if_pos rfl, hentry]
      rfl
    · have hne : ¬ k = k' := fun h => hk h.symm
      rw [Function.update_of_ne hk, setOf, setOf, entryOf_concat, if_neg hne]
      rfl
  | some as =>
    dsimp only
    split_ifs with ha
    · have hmem : a ∈ setOf l k := by
        rw [setOf, hentry]
        exact List.mem_toFinset.2 ha
      rw [Finset.insert_eq_of_mem hmem, Function.update_eq_self]
    · exact setOf_modify (g := fun s => insert a s) hentry (by ext b; simp)

/-- Removing deletes from the set of the key. -/
theorem Distinct.setOf_remove (h : Distinct l) (k : κ) (a : α) :
    setOf (SetMap.remove l k a).1 = Function.update (setOf l) k ((setOf l k).erase a) := by
  rw [SetMap.remove]
  cases hentry : entryOf l k with
  | none =>
    have hempty : setOf l k = ∅ := by
      rw [setOf, hentry]
      rfl
    rw [hempty, Finset.erase_empty, ← hempty, Function.update_eq_self]
  | some as =>
    dsimp only
    split_ifs with ha
    · refine setOf_modify (g := fun s => s.erase a) hentry ?_
      ext b
      rw [List.mem_toFinset, List.mem_reverse, (List.nodup_reverse.2 (h.entry hentry)).mem_erase_iff]
      simp
    · have hmem : a ∉ setOf l k := by
        rw [setOf, hentry]
        exact fun h => ha (List.mem_toFinset.1 h)
      rw [Finset.erase_eq_of_notMem hmem, Function.update_eq_self]

/-- The result of adding is the new number of elements. -/
theorem Distinct.add_count (h : Distinct l) (k : κ) (a : α) :
    (SetMap.add l k a).2 = (setOf (SetMap.add l k a).1 k).card := by
  rw [← (h.add k a).count_eq, SetMap.add, count]
  cases hentry : entryOf l k with
  | none =>
    rw [entryOf_concat, if_pos rfl]
    rfl
  | some as =>
    dsimp only
    split_ifs
    · rw [hentry]
      rfl
    · rw [entryOf_modify, if_pos rfl, hentry]
      simp

/-- The result of removing is whether the element was there. -/
theorem remove_found : (remove l k a).2 = true ↔ a ∈ setOf l k := by
  rw [remove, setOf]
  cases entryOf l k with
  | none => simp
  | some as =>
    dsimp only
    split_ifs with ha
    · simpa using ha
    · simpa using ha

omit [DecidableEq κ] in
theorem not_mem_removeAll {e : κ × List α} (h : e ∈ removeAll l a) : a ∉ e.2 := by
  obtain ⟨d, -, rfl⟩ := List.mem_map.1 h
  simp

end

end SetMap

end RavenWallet
