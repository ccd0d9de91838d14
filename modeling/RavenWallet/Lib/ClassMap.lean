/-
  Maps that keep at most one item of each class of an equivalence.

  A map gives for an item the kept item that is equivalent to it.

  * `foldl_insert`, `foldl_erase`: to insert (to erase) the items of a second map
    one by one is the union with it (is to take it away);
  * `count_insert`, `count_le_foldl_insert`: the number of kept items.
-/
import Mathlib.Data.Set.Card
import Mathlib.Order.Defs.Unbundled

namespace RavenWallet

namespace ClassMap

variable {α : Type}

/-- The kept items. -/
def items (m : α → Option α) : Set α := {t | m t = some t}

/-- The number of kept items. -/
noncomputable def count (m : α → Option α) : ℕ := (items m).ncard

/-- The items of the second map are added, in place of equivalent ones. -/
def union (m m' : α → Option α) : α → Option α := fun y => (m' y).or (m y)

/-- Without the items that the second map has. -/
def minus (m m' : α → Option α) : α → Option α := fun y => if (m' y).isSome then none else m y

/-- Only the items that the second map has. -/
def inter (m m' : α → Option α) : α → Option α := fun y => if (m' y).isSome then m y else none

theorem union_self (m : α → Option α) : union m m = m := by
  funext y
  exact Option.or_self

theorem minus_self (m : α → Option α) : minus m m = fun _ => none := by
  funext y
  rw [minus]
  split_ifs with h
  · rfl
  · exact Option.not_isSome_iff_eq_none.1 h

theorem inter_self (m : α → Option α) : inter m m = m := by
  funext y
  rw [inter]
  split_ifs with h
  · rfl
  · exact (Option.not_isSome_iff_eq_none.1 h).symm

variable (r : α → α → Prop)

/-- Equivalent items are given the same item, and it is equivalent to them. -/
structure Consistent (m : α → Option α) : Prop where
  rel : ∀ {x t}, m x = some t → r t x
  congr : ∀ {x y}, r x y → m x = m y

variable [DecidableRel r]

/-- An item is added, in place of an equivalent one. -/
def insert (m : α → Option α) (x : α) : α → Option α := fun y => if r x y then some x else m y

/-- The item that is equivalent to `x` is removed. -/
def erase (m : α → Option α) (x : α) : α → Option α := fun y => if r x y then none else m y

variable {r} {m m' : α → Option α} {x y t : α} {l : List α}

theorem mem_items : t ∈ items m ↔ m t = some t := by simp [items]

omit [DecidableRel r] in
theorem Consistent.empty : Consistent r fun _ => none := by
  constructor
  · intro x t h
    cases h
  · intros
    rfl

/-! ## Sequences -/

theorem foldl_insert_of_not (h : ∀ t ∈ l, ¬ r t y) : l.foldl (insert r) m y = m y := by
  induction l generalizing m with
  | nil => rfl
  | cons a l ih =>
    rw [List.foldl_cons, ih fun t ht => h t (List.mem_cons_of_mem a ht), insert,
      if_neg (h a List.mem_cons_self)]

theorem foldl_insert_of_mem (ht : t ∈ l) (hty : r t y) (hl : ∀ u ∈ l, r u y → u = t) :
    l.foldl (insert r) m y = some t := by
  induction l generalizing m with
  | nil => cases ht
  | cons a l ih =>
    rw [List.foldl_cons]
    by_cases hmem : t ∈ l
    · exact ih hmem fun u hu => hl u (List.mem_cons_of_mem a hu)
    · have hat : a = t := ((List.mem_cons.1 ht).resolve_right hmem).symm
      rw [foldl_insert_of_not, insert, hat, if_pos hty]
      intro u hu huy
      rw [hl u (List.mem_cons_of_mem a hu) huy] at hu
      exact hmem hu

/-- To insert the items of a map one by one is the union. -/
theorem foldl_insert (h : ∀ y t, m' y = some t ↔ t ∈ l ∧ r t y) :
    l.foldl (insert r) m = union m m' := by
  funext y
  rw [union]
  cases hy : m' y with
  | none =>
    refine foldl_insert_of_not ?_
    intro t ht hr
    rw [(h y t).2 ⟨ht, hr⟩] at hy
    cases hy
  | some t =>
    obtain ⟨ht, hr⟩ := (h y t).1 hy
    refine foldl_insert_of_mem ht hr ?_
    intro u hu hur
    rw [(h y u).2 ⟨hu, hur⟩] at hy
    exact Option.some.inj hy

theorem foldl_erase_apply :
    l.foldl (erase r) m y = if ∃ t ∈ l, r t y then none else m y := by
  induction l generalizing m with
  | nil => simp
  | cons a l ih =>
    rw [List.foldl_cons, ih, erase]
    by_cases ha : r a y
    · simp [ha]
    · simp [ha]

/-- To erase the items of a map one by one is to take it away. -/
theorem foldl_erase (h : ∀ y t, m' y = some t ↔ t ∈ l ∧ r t y) :
    l.foldl (erase r) m = minus m m' := by
  funext y
  rw [foldl_erase_apply, minus]
  refine if_congr ?_ rfl rfl
  rw [Option.isSome_iff_exists]
  exact exists_congr fun t => (h y t).symm

/-! ## The number of items -/

theorem items_insert (hr : Equivalence r) :
    items (insert r m x) = Insert.insert x {t ∈ items m | ¬ r t x} := by
  ext t
  simp only [mem_items, insert, Set.mem_insert_iff]
  split_ifs with h
  · constructor
    · intro ht
      exact Or.inl (Option.some.inj ht).symm
    · rintro (rfl | ⟨-, ht⟩)
      · rfl
      · exact absurd (hr.symm h) ht
  · constructor
    · intro ht
      exact Or.inr ⟨ht, fun h' => h (hr.symm h')⟩
    · rintro (rfl | ⟨ht, -⟩)
      · exact absurd (hr.refl t) h
      · exact ht

theorem insert_consistent (hr : Equivalence r) (hm : Consistent r m) (x : α) :
    Consistent r (insert r m x) := by
  refine ⟨?_, ?_⟩
  · intro y t h
    rw [insert] at h
    split_ifs at h with hxy
    · cases h
      exact hxy
    · exact hm.rel h
  · intro y z hyz
    rw [insert, insert, hm.congr hyz]
    refine if_congr ⟨fun h => hr.trans h hyz, fun h => hr.trans h (hr.symm hyz)⟩ rfl rfl

theorem count_insert (hr : Equivalence r) (hm : Consistent r m) (hfin : (items m).Finite) :
    count (insert r m x) = if (m x).isSome then count m else count m + 1 := by
  have hnot : x ∉ {t ∈ items m | ¬ r t x} := fun h => h.2 (hr.refl x)
  rw [count, items_insert hr, Set.ncard_insert_of_notMem hnot (hfin.subset (Set.sep_subset _ _))]
  cases hx : m x with
  | none =>
    have hall : {t ∈ items m | ¬ r t x} = items m := by
      refine Set.sep_eq_self_iff_mem_true.2 ?_
      intro t ht htx
      have hcongr := hm.congr htx
      rw [mem_items.1 ht, hx] at hcongr
      cases hcongr
    rw [hall]
    rfl
  | some u =>
    have hux : r u x := hm.rel hx
    have hu : u ∈ items m := mem_items.2 ((hm.congr hux).trans hx)
    have hone : {t ∈ items m | ¬ r t x} = items m \ {u} := by
      ext t
      simp only [Set.mem_sep_iff, Set.mem_sdiff, Set.mem_singleton_iff]
      refine and_congr_right fun ht => not_congr ⟨?_, ?_⟩
      · intro htx
        have hcongr := hm.congr htx
        rw [mem_items.1 ht, hx] at hcongr
        exact Option.some.inj hcongr
      · rintro rfl
        exact hux
    rw [hone, Set.ncard_sdiff_singleton_of_mem hu]
    have hpos : 0 < (items m).ncard := (Set.ncard_pos hfin).2 ⟨u, hu⟩
    exact Nat.succ_pred_eq_of_pos hpos

theorem count_le_insert (hr : Equivalence r) (hm : Consistent r m) (hfin : (items m).Finite) :
    count m ≤ count (insert r m x) := by
  rw [count_insert hr hm hfin]
  split_ifs
  · exact le_rfl
  · exact Nat.le_succ _

theorem insert_finite (hr : Equivalence r) (hfin : (items m).Finite) :
    (items (insert r m x)).Finite := by
  rw [items_insert hr]
  exact (hfin.subset (Set.sep_subset _ _)).insert x

/-- The number does not decrease when items are inserted. -/
theorem count_le_foldl_insert (hr : Equivalence r) (hm : Consistent r m)
    (hfin : (items m).Finite) : count m ≤ count (l.foldl (insert r) m) := by
  induction l generalizing m with
  | nil => exact le_rfl
  | cons a l ih =>
    exact (count_le_insert hr hm hfin).trans
      (ih (insert_consistent hr hm a) (insert_finite hr hfin))

end ClassMap

end RavenWallet
