/-
  A heap of objects that are allocated, written through pointers and freed.

  A pointer is never handed out twice, so a freed pointer stays recognisable:
  `load` of it fails for the rest of the run.  `Retains` is the relation between two
  heaps of a run, for a value that no object changes, and `Frees` the one for a part of
  a run that only frees objects.
-/
import Mathlib.Data.List.Basic

namespace RavenWallet

universe u
variable {α : Type u}

/-- The address of an object. -/
abbrev Ptr := ℕ

/-- The objects in order of allocation, `none` once freed. -/
structure Heap (α : Type u) where
  cells : List (Option α)
  deriving DecidableEq

namespace Heap

def empty : Heap α := ⟨[]⟩

/-- The object at `p`; `none` if `p` was freed or never allocated. -/
def load (h : Heap α) (p : Ptr) : Option α := h.cells[p]?.join

/-- The pointer the next `alloc` returns. -/
def fresh (h : Heap α) : Ptr := h.cells.length

def alloc (h : Heap α) (x : α) : Heap α := ⟨h.cells ++ [some x]⟩

/-- Overwrites the object at a live `p`. -/
def store (h : Heap α) (p : Ptr) (x : α) : Heap α := ⟨h.cells.set p (some x)⟩

def free (h : Heap α) (p : Ptr) : Heap α := ⟨h.cells.set p none⟩

/-- `p` is allocated and not freed. -/
def Live (h : Heap α) (p : Ptr) : Prop := ∃ x, h.load p = some x

@[simp] theorem fresh_store (h : Heap α) (p : Ptr) (x : α) : (h.store p x).fresh = h.fresh := by
  simp [fresh, store]

@[simp] theorem fresh_free (h : Heap α) (p : Ptr) : (h.free p).fresh = h.fresh := by
  simp [fresh, free]

theorem load_lt {h : Heap α} {p : Ptr} {x : α} (hx : h.load p = some x) : p < h.fresh := by
  unfold load at hx
  rcases hp : h.cells[p]? with _ | y
  · simp [hp] at hx
  · exact (List.getElem?_eq_some_iff.1 hp).1

theorem load_alloc_fresh (h : Heap α) (x : α) : (h.alloc x).load h.fresh = some x := by
  simp [load, alloc, fresh]

theorem load_alloc_of_lt {h : Heap α} {p : Ptr} (x : α) (hp : p < h.fresh) :
    (h.alloc x).load p = h.load p := by
  simp only [load, alloc]
  rw [List.getElem?_append_left hp]

theorem load_alloc {h : Heap α} {p : Ptr} {y : α} (x : α) (hy : h.load p = some y) :
    (h.alloc x).load p = some y := by
  rw [load_alloc_of_lt x (load_lt hy), hy]

theorem load_alloc_some {h : Heap α} {p : Ptr} {x y : α} (hy : (h.alloc x).load p = some y) :
    (p = h.fresh ∧ y = x) ∨ h.load p = some y := by
  by_cases hp : p = h.fresh
  · rw [hp, load_alloc_fresh, Option.some.injEq] at hy
    exact Or.inl ⟨hp, hy.symm⟩
  · have hlt : p < h.fresh + 1 := by simpa [alloc, fresh] using load_lt hy
    rw [load_alloc_of_lt x (Nat.lt_of_le_of_ne (Nat.le_of_lt_succ hlt) hp)] at hy
    exact Or.inr hy

theorem load_store_self {h : Heap α} {p : Ptr} {y : α} (x : α) (hy : h.load p = some y) :
    (h.store p x).load p = some x := by
  have hp := load_lt hy
  unfold fresh at hp
  simp [load, store, hp]

theorem load_store_ne (h : Heap α) {p q : Ptr} (x : α) (hq : p ≠ q) :
    (h.store p x).load q = h.load q := by
  simp [load, store, List.getElem?_set_ne hq]

theorem Live.alloc {h : Heap α} {p : Ptr} (hp : h.Live p) (x : α) : (h.alloc x).Live p := by
  obtain ⟨y, hy⟩ := hp
  exact ⟨y, load_alloc x hy⟩

theorem Live.store {h : Heap α} {p q : Ptr} {y : α} (hq : h.Live q) (x : α)
    (hy : h.load p = some y) : (h.store p x).Live q := by
  by_cases hpq : p = q
  · subst hpq
    exact ⟨x, load_store_self x hy⟩
  · obtain ⟨z, hz⟩ := hq
    exact ⟨z, (load_store_ne h x hpq).trans hz⟩

theorem load_free_self (h : Heap α) (p : Ptr) : (h.free p).load p = none := by
  simp only [load, free, List.getElem?_set]
  split_ifs <;> simp

theorem load_free_ne (h : Heap α) {p q : Ptr} (hq : p ≠ q) :
    (h.free p).load q = h.load q := by
  simp [load, free, List.getElem?_set_ne hq]

theorem load_free_some {h : Heap α} {p q : Ptr} {x : α} (hx : (h.free p).load q = some x) :
    p ≠ q ∧ h.load q = some x := by
  by_cases hq : p = q
  · rw [← hq, load_free_self] at hx; cases hx
  · exact ⟨hq, load_free_ne h hq ▸ hx⟩

/-- The objects at a list of pointers; fails if one of them is not live. -/
def loadAll (h : Heap α) (ps : List Ptr) : Option (List α) := ps.mapM h.load

theorem loadAll_cons {h : Heap α} {p : Ptr} {ps : List Ptr} {xs : List α} :
    h.loadAll (p :: ps) = some xs ↔
      ∃ x xs', h.load p = some x ∧ h.loadAll ps = some xs' ∧ xs = x :: xs' := by
  simp only [loadAll, List.mapM_cons, Option.bind_eq_bind, Option.bind_eq_some_iff, Option.pure_def,
    Option.some.injEq]
  constructor
  · rintro ⟨x, hx, xs', hxs, rfl⟩; exact ⟨x, xs', hx, hxs, rfl⟩
  · rintro ⟨x, xs', hx, hxs, rfl⟩; exact ⟨x, hx, xs', hxs, rfl⟩

theorem loadAll_isSome {h : Heap α} {ps : List Ptr} (hl : ∀ p ∈ ps, h.Live p) :
    ∃ xs, h.loadAll ps = some xs := by
  induction ps with
  | nil => exact ⟨[], rfl⟩
  | cons p ps ih =>
    obtain ⟨x, hx⟩ := hl p (by simp)
    obtain ⟨xs, hxs⟩ := ih fun q hq => hl q (by simp [hq])
    exact ⟨x :: xs, loadAll_cons.2 ⟨x, xs, hx, hxs, rfl⟩⟩

theorem mem_of_loadAll {h : Heap α} {ps : List Ptr} {xs : List α} (hl : h.loadAll ps = some xs)
    {x : α} (hx : x ∈ xs) : ∃ p ∈ ps, h.load p = some x := by
  induction ps generalizing xs with
  | nil => simp [loadAll] at hl; subst hl; simp at hx
  | cons p ps ih =>
    obtain ⟨y, ys, hy, hys, rfl⟩ := loadAll_cons.1 hl
    rcases List.mem_cons.1 hx with rfl | hx
    · exact ⟨p, by simp, hy⟩
    · obtain ⟨q, hq, hqx⟩ := ih hys hx; exact ⟨q, by simp [hq], hqx⟩

theorem loadAll_mem {h : Heap α} {ps : List Ptr} {xs : List α} (hl : h.loadAll ps = some xs)
    {p : Ptr} (hp : p ∈ ps) : ∃ x ∈ xs, h.load p = some x := by
  induction ps generalizing xs with
  | nil => simp at hp
  | cons q ps ih =>
    obtain ⟨y, ys, hy, hys, rfl⟩ := loadAll_cons.1 hl
    rcases List.mem_cons.1 hp with rfl | hp
    · exact ⟨y, by simp, hy⟩
    · obtain ⟨x, hx, hpx⟩ := ih hys hp; exact ⟨x, by simp [hx], hpx⟩

/-- A value that can be read off the objects can be read off their pointers. -/
theorem loadAll_map {β : Type*} {h : Heap α} {f : α → β} {g : Ptr → β}
    (hfg : ∀ {p x}, h.load p = some x → f x = g p) {ps : List Ptr} {xs : List α}
    (hl : h.loadAll ps = some xs) : xs.map f = ps.map g := by
  induction ps generalizing xs with
  | nil => simp [loadAll] at hl; simp [hl]
  | cons p ps ih =>
    obtain ⟨x, xs', hx, hxs, rfl⟩ := loadAll_cons.1 hl
    rw [List.map_cons, List.map_cons, hfg hx, ih hxs]

/-- A relation between the pointers gives one between the objects. -/
theorem loadAll_pairwise {R : Ptr → Ptr → Prop} {S : α → α → Prop} {h : Heap α} {ps : List Ptr}
    {xs : List α} (hl : h.loadAll ps = some xs) (hR : ps.Pairwise R)
    (hS : ∀ p q x y, h.load p = some x → h.load q = some y → R p q → S x y) : xs.Pairwise S := by
  induction ps generalizing xs with
  | nil =>
    obtain rfl : [] = xs := by simpa [loadAll] using hl
    exact .nil
  | cons p ps ih =>
    obtain ⟨x, xs, hx, hxs, rfl⟩ := loadAll_cons.1 hl
    obtain ⟨hp, hR⟩ := List.pairwise_cons.1 hR
    refine List.pairwise_cons.2 ⟨fun y hy => ?_, ih hxs hR⟩
    obtain ⟨q, hq, hqy⟩ := mem_of_loadAll hxs hy
    exact hS p q x y hx hqy (hp q hq)

/-- If every object became its image, so did the list. -/
theorem loadAll_update {h h' : Heap α} {f : α → α} {ps : List Ptr} {xs : List α}
    (hf : ∀ p ∈ ps, ∀ x, h.load p = some x → h'.load p = some (f x))
    (hl : h.loadAll ps = some xs) : h'.loadAll ps = some (xs.map f) := by
  induction ps generalizing xs with
  | nil => simp [loadAll] at hl; simp [loadAll, hl]
  | cons p ps ih =>
    obtain ⟨x, xs', hx, hxs, rfl⟩ := loadAll_cons.1 hl
    exact loadAll_cons.2
      ⟨f x, xs'.map f, hf p (by simp) x hx, ih (fun q hq => hf q (by simp [hq])) hxs, rfl⟩

/-- Reading is local: two heaps that agree on the pointers load the same list. -/
theorem loadAll_congr {h h' : Heap α} {ps : List Ptr} (he : ∀ p ∈ ps, h'.load p = h.load p) :
    h'.loadAll ps = h.loadAll ps := by
  induction ps with
  | nil => rfl
  | cons p ps ih =>
    have ih' := ih fun q hq => he q (by simp [hq])
    simp only [loadAll, List.mapM_cons] at ih' ⊢
    rw [he p (by simp), ih']

/-! ## Values that objects keep -/

/-- Objects were allocated, written and freed, and none got another value of `f`. -/
structure Retains {β : Type*} (f : α → β) (h h' : Heap α) : Prop where
  fresh : h.fresh ≤ h'.fresh
  load : ∀ {p x'}, p < h.fresh → h'.load p = some x' → ∃ x, h.load p = some x ∧ f x = f x'

namespace Retains

variable {β : Type*} {f : α → β} {h h' h'' : Heap α} {p : Ptr} {x y : α}

theorem refl (f : α → β) (h : Heap α) : Retains f h h where
  fresh := Nat.le_refl _
  load _ hx := ⟨_, hx, rfl⟩

theorem trans (h₁ : Retains f h h') (h₂ : Retains f h' h'') : Retains f h h'' where
  fresh := Nat.le_trans h₁.fresh h₂.fresh
  load {p x''} hp hx'' := by
    obtain ⟨x', hx', hf'⟩ := h₂.load (Nat.lt_of_lt_of_le hp h₁.fresh) hx''
    obtain ⟨x, hx, hf⟩ := h₁.load hp hx'
    exact ⟨x, hx, hf.trans hf'⟩

theorem alloc (f : α → β) (h : Heap α) (x : α) : Retains f h (h.alloc x) where
  fresh := by simp [Heap.fresh, Heap.alloc]
  load hp hx := ⟨_, load_alloc_of_lt x hp ▸ hx, rfl⟩

theorem store (hy : h.load p = some y) (hf : f y = f x) : Retains f h (h.store p x) where
  fresh := Nat.le_of_eq (fresh_store h p x).symm
  load {q x'} _ hx' := by
    by_cases hq : p = q
    · subst hq
      rw [load_store_self x hy, Option.some.injEq] at hx'
      exact ⟨y, hy, hf.trans (congrArg f hx')⟩
    · rw [load_store_ne h x hq] at hx'
      exact ⟨x', hx', rfl⟩

theorem free (f : α → β) (h : Heap α) (p : Ptr) : Retains f h (h.free p) where
  fresh := Nat.le_of_eq (fresh_free h p).symm
  load _ hx' := ⟨_, (load_free_some hx').2, rfl⟩

end Retains

/-! ## Freed objects -/

/-- The objects of which `F` holds were freed, and nothing else happened. -/
structure Frees (F : Ptr → Prop) (h h' : Heap α) : Prop where
  fresh : h'.fresh = h.fresh
  load : ∀ p, ¬ F p → h'.load p = h.load p
  freed : ∀ p, F p → h'.load p = none

namespace Frees

variable {F G : Ptr → Prop} {h h' h'' : Heap α} {p : Ptr} {x : α}

theorem refl (hF : ∀ p, ¬ F p) (h : Heap α) : Frees F h h where
  fresh := rfl
  load _ _ := rfl
  freed p hp := absurd hp (hF p)

theorem trans (h₁ : Frees F h h') (h₂ : Frees G h' h'') : Frees (fun p => F p ∨ G p) h h'' where
  fresh := h₂.fresh.trans h₁.fresh
  load p hp := by
    rw [not_or] at hp
    rw [h₂.load p hp.2, h₁.load p hp.1]
  freed p hp := by
    by_cases hG : G p
    · exact h₂.freed p hG
    · rw [h₂.load p hG]
      exact h₁.freed p (hp.resolve_right hG)

theorem free (h : Heap α) (p : Ptr) : Frees (fun q => q = p) h (h.free p) where
  fresh := fresh_free h p
  load _ hq := load_free_ne h (Ne.symm hq)
  freed _ hq := by rw [hq, load_free_self]

theorem congr (hf : Frees F h h') (hG : ∀ p, G p ↔ F p) : Frees G h h' where
  fresh := hf.fresh
  load p hp := hf.load p fun hF => hp ((hG p).2 hF)
  freed p hp := hf.freed p ((hG p).1 hp)

theorem load_some (hf : Frees F h h') (hx : h'.load p = some x) : h.load p = some x ∧ ¬ F p := by
  have hF : ¬ F p := by
    intro hF
    rw [hf.freed p hF] at hx
    cases hx
  rw [hf.load p hF] at hx
  exact ⟨hx, hF⟩

theorem live (hf : Frees F h h') (hp : h.Live p) (hF : ¬ F p) : h'.Live p := by
  obtain ⟨x, hx⟩ := hp
  exact ⟨x, (hf.load p hF).trans hx⟩

theorem retains {β : Type*} (hf : Frees F h h') (f : α → β) : Retains f h h' where
  fresh := Nat.le_of_eq hf.fresh.symm
  load _ hx := ⟨_, (hf.load_some hx).1, rfl⟩

end Frees

end Heap

end RavenWallet
