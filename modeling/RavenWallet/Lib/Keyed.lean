/-
  Finite sets of pointers, keyed by a value of what they point to.

  `Holds s p`: the set has the pointer.  `Keyed f heap s`: what the set has is live,
  and is found under its key.  Each operation on sets and heaps has a lemma for both.
-/
import Mathlib.Data.List.AList
import RavenWallet.Lib.Heap

namespace RavenWallet

variable {α κ : Type} [DecidableEq κ]

/-- The pointer is in the set. -/
def Holds (s : AList fun _ : κ => Ptr) (p : Ptr) : Prop := ∃ k, s.lookup k = some p

/-- The pointers are live, with the keys of their objects. -/
def Keyed (f : α → κ) (heap : Heap α) (s : AList fun _ : κ => Ptr) : Prop :=
  ∀ k p, s.lookup k = some p → ∃ x, heap.load p = some x ∧ f x = k

section
variable {s : AList fun _ : κ => Ptr} {f : α → κ} {heap : Heap α} {k : κ} {p q : Ptr} {x y : α}

theorem not_holds_empty (p : Ptr) : ¬ Holds (∅ : AList fun _ : κ => Ptr) p := by
  rintro ⟨k, hk⟩
  simp at hk

theorem holds_insert (h : Holds (s.insert k p) q) : q = p ∨ Holds s q := by
  obtain ⟨k', hk'⟩ := h
  by_cases hk : k' = k
  · subst hk
    rw [AList.lookup_insert, Option.some.injEq] at hk'
    exact Or.inl hk'.symm
  · rw [AList.lookup_insert_ne hk] at hk'
    exact Or.inr ⟨k', hk'⟩

theorem holds_insert_self (s : AList fun _ : κ => Ptr) (k : κ) (p : Ptr) :
    Holds (s.insert k p) p := ⟨k, AList.lookup_insert s⟩

/-- What is not under the key stays. -/
theorem Holds.insert (h : Holds s q) (hq : s.lookup k ≠ some q) (p : Ptr) :
    Holds (s.insert k p) q := by
  obtain ⟨k', hk'⟩ := h
  refine ⟨k', ?_⟩
  rw [AList.lookup_insert_ne, hk']
  rintro rfl
  exact hq hk'

theorem lookup_of_erase (h : (s.erase k).lookup k' = some p) : s.lookup k' = some p ∧ k' ≠ k := by
  by_cases hk : k' = k
  · subst hk
    rw [AList.lookup_erase] at h
    cases h
  · rw [AList.lookup_erase_ne hk] at h
    exact ⟨h, hk⟩

theorem Holds.of_erase (h : Holds (s.erase k) p) : Holds s p := by
  obtain ⟨k', hk'⟩ := h
  exact ⟨k', (lookup_of_erase hk').1⟩

theorem Holds.erase (h : Holds s q) (hq : s.lookup k ≠ some q) : Holds (s.erase k) q := by
  obtain ⟨k', hk'⟩ := h
  refine ⟨k', ?_⟩
  rw [AList.lookup_erase_ne, hk']
  rintro rfl
  exact hq hk'

theorem insert_erase (s : AList fun _ : κ => Ptr) (k : κ) (p : Ptr) :
    (s.erase k).insert k p = s.insert k p := by
  refine AList.ext ?_
  rw [AList.entries_insert, AList.entries_insert]
  exact congrArg _ (List.kerase_of_notMem_keys (List.notMem_keys_kerase k s.nodupKeys))

theorem Keyed.empty (f : α → κ) (heap : Heap α) : Keyed f heap ∅ := by
  intro k p h
  simp at h

theorem Keyed.live (h : Keyed f heap s) (hp : Holds s p) : heap.Live p := by
  obtain ⟨k, hk⟩ := hp
  obtain ⟨x, hx, -⟩ := h k p hk
  exact ⟨x, hx⟩

theorem Keyed.key (h : Keyed f heap s) (hp : s.lookup k = some p) (hx : heap.load p = some x) :
    f x = k := by
  obtain ⟨y, hy, hk⟩ := h k p hp
  rw [hx, Option.some.injEq] at hy
  rw [hy, hk]

theorem Keyed.insert (h : Keyed f heap s) (hx : heap.load p = some x) (hk : f x = k) :
    Keyed f heap (s.insert k p) := by
  intro k' q hq
  by_cases hk' : k' = k
  · subst hk'
    rw [AList.lookup_insert, Option.some.injEq] at hq
    exact ⟨x, hq ▸ hx, hk⟩
  · rw [AList.lookup_insert_ne hk'] at hq
    exact h k' q hq

theorem Keyed.erase (h : Keyed f heap s) (k : κ) : Keyed f heap (s.erase k) := by
  intro k' q hq
  exact h k' q (lookup_of_erase hq).1

/-- After an erasure its pointer is held no more. -/
theorem Keyed.not_holds_erase (h : Keyed f heap s) (hp : heap.load p = some x) (hk : f x = k) :
    ¬ Holds (s.erase k) p := by
  rintro ⟨k', hk'⟩
  obtain ⟨hlookup, hne⟩ := lookup_of_erase hk'
  exact hne ((h.key hlookup hp).symm.trans hk)

theorem Keyed.free (h : Keyed f heap s) (hp : ¬ Holds s p) : Keyed f (heap.free p) s := by
  intro k q hq
  obtain ⟨x, hx, hk⟩ := h k q hq
  refine ⟨x, ?_, hk⟩
  rw [Heap.load_free_ne, hx]
  rintro rfl
  exact hp ⟨k, hq⟩

theorem Keyed.alloc (h : Keyed f heap s) (x : α) : Keyed f (heap.alloc x) s := by
  intro k q hq
  obtain ⟨y, hy, hk⟩ := h k q hq
  exact ⟨y, Heap.load_alloc x hy, hk⟩

theorem Keyed.store (h : Keyed f heap s) (hp : ¬ Holds s p) (x : α) :
    Keyed f (heap.store p x) s := by
  intro k q hq
  obtain ⟨y, hy, hk⟩ := h k q hq
  refine ⟨y, ?_, hk⟩
  rw [Heap.load_store_ne, hy]
  rintro rfl
  exact hp ⟨k, hq⟩

/-- A pointer that is not allocated yet is not held. -/
theorem Keyed.not_holds_fresh (h : Keyed f heap s) : ¬ Holds s heap.fresh := by
  intro hp
  obtain ⟨x, hx⟩ := h.live hp
  exact absurd (Heap.load_lt hx) (Nat.lt_irrefl _)

/-! ## Freeing all -/

omit [DecidableEq κ] in
theorem load_freeAll {l : List (Sigma fun _ : κ => Ptr)} (hq : ∀ e ∈ l, e.2 ≠ q) :
    (l.foldl (fun heap e => heap.free e.2) heap).load q = heap.load q := by
  induction l generalizing heap with
  | nil => rfl
  | cons e l ih =>
    rw [List.foldl_cons, ih fun d hd => hq d (List.mem_cons_of_mem _ hd),
      Heap.load_free_ne heap (hq e List.mem_cons_self)]

omit [DecidableEq κ] in
theorem load_freeAll_some {l : List (Sigma fun _ : κ => Ptr)}
    (hx : (l.foldl (fun heap e => heap.free e.2) heap).load q = some x) :
    heap.load q = some x := by
  induction l generalizing heap with
  | nil => exact hx
  | cons e l ih => exact (Heap.load_free_some (ih hx)).2

theorem load_freeAll_of_not_holds {t : AList fun _ : κ => Ptr} (hq : ¬ Holds t q) :
    (t.entries.foldl (fun heap e => heap.free e.2) heap).load q = heap.load q := by
  refine load_freeAll ?_
  rintro e he rfl
  exact hq ⟨e.1, AList.mem_lookup_iff.2 he⟩

theorem Keyed.freeAll {κ' : Type} [DecidableEq κ'] {t : AList fun _ : κ' => Ptr}
    (h : Keyed f heap s) (hapart : ∀ p, Holds t p → ¬ Holds s p) :
    Keyed f (t.entries.foldl (fun heap e => heap.free e.2) heap) s := by
  intro k q hq
  obtain ⟨x, hx, hk⟩ := h k q hq
  refine ⟨x, ?_, hk⟩
  rw [load_freeAll_of_not_holds, hx]
  intro ht
  exact hapart q ht ⟨k, hq⟩

end

end RavenWallet
