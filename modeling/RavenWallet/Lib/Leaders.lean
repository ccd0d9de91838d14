/-
  A scan for the largest entry of a list that also keeps the one that was the
  largest before.

  * `leaders_split`: it ends with the largest entry, and with the largest of those
    that were scanned before it;
  * `leaders_snd_iff`: so it finds the second largest entry exactly if that is
    scanned before the largest one.
-/
import Mathlib.Data.List.Nodup
import Mathlib.Order.BoundedOrder.Basic
import Mathlib.Order.Lattice

namespace RavenWallet

/-- The entries `m` and `a` are the largest and the second largest one. -/
structure Leads {α : Type} [LE α] [LT α] (xs : List α) (m a : α) : Prop where
  largest : m ∈ xs
  second : a ∈ xs
  lt : a < m
  rest : ∀ x ∈ xs, x = m ∨ x ≤ a

variable {α : Type} [LinearOrder α] [OrderBot α]

/-- The scan, from the end of the list on. -/
def leaders : List α → α × α
  | [] => (⊥, ⊥)
  | x :: xs => if x > (leaders xs).1 then (x, (leaders xs).1) else leaders xs

variable {xs front back : List α} {m a x : α}

theorem le_leaders (hx : x ∈ xs) : x ≤ (leaders xs).1 := by
  induction xs with
  | nil => cases hx
  | cons y ys ih =>
    rw [leaders]
    rcases List.mem_cons.1 hx with rfl | hx
    · split_ifs with h
      · exact le_rfl
      · exact not_lt.1 h
    · split_ifs with h
      · exact (ih hx).trans h.le
      · exact ih hx

theorem leaders_mem (xs : List α) : (leaders xs).1 = ⊥ ∨ (leaders xs).1 ∈ xs := by
  induction xs with
  | nil => exact Or.inl rfl
  | cons y ys ih =>
    rw [leaders]
    split_ifs with h
    · exact Or.inr List.mem_cons_self
    · exact ih.imp_right (List.mem_cons_of_mem y)

/-- What the scan keeps once it has come to the largest entry. -/
theorem leaders_split (hfront : ∀ x ∈ front, x ≤ m) (hback : ∀ x ∈ back, x < m) (hm : ⊥ < m) :
    leaders (front ++ m :: back) = (m, (leaders back).1) := by
  induction front with
  | nil =>
    have hlt : (leaders back).1 < m := by
      rcases leaders_mem back with h | h
      · rwa [h]
      · exact hback _ h
    exact if_pos hlt
  | cons y ys ih =>
    have hrest := ih fun x hx => hfront x (List.mem_cons_of_mem y hx)
    rw [List.cons_append, leaders, hrest]
    exact if_neg (not_lt.2 (hfront y List.mem_cons_self))

omit [OrderBot α] in
theorem Leads.unique {m' a' : α} (h : Leads xs m a) (h' : Leads xs m' a') : m = m' ∧ a = a' := by
  obtain rfl : m = m' := by
    rcases h.rest m' h'.largest with heq | hle
    · exact heq.symm
    · rcases h'.rest m h.largest with heq | hle'
      · exact heq
      · exact absurd ((hle.trans_lt h.lt).trans_le hle') (lt_asymm h'.lt)
  refine ⟨rfl, le_antisymm ?_ ?_⟩
  · exact (h'.rest a h.second).resolve_left h.lt.ne
  · exact (h.rest a' h'.second).resolve_left h'.lt.ne

/-- The scan finds the second largest entry exactly if that is nothing, or it is behind the largest
    one in the list. -/
theorem leaders_snd_iff (hnodup : xs.Nodup) (h : Leads xs m a) :
    (leaders xs).2 = a ↔ a = ⊥ ∨ [m, a].Sublist xs := by
  obtain ⟨front, back, rfl⟩ := List.append_of_mem h.largest
  have hdisjoint := List.nodup_append.1 hnodup
  have hm : m ∉ back := (List.nodup_cons.1 hdisjoint.2.1).1
  have hle : ∀ x ∈ back, x ≤ a := fun x hx =>
    (h.rest x (by simp [hx])).resolve_left (ne_of_mem_of_not_mem hx hm)
  have hsplit : leaders (front ++ m :: back) = (m, (leaders back).1) := by
    refine leaders_split (fun x hx => ?_) (fun x hx => (hle x hx).trans_lt h.lt)
      (bot_le.trans_lt h.lt)
    rcases h.rest x (by simp [hx]) with rfl | hxa
    · exact le_rfl
    · exact hxa.trans h.lt.le
  have hsublist : [m, a].Sublist (front ++ m :: back) ↔ a ∈ back := by
    constructor
    · intro hs
      have hfront : m ∉ front := fun hx => hdisjoint.2.2 m hx m List.mem_cons_self rfl
      obtain ⟨l₁, l₂, heq, h₁, h₂⟩ := List.sublist_append_iff.1 hs
      cases l₁ with
      | nil =>
        obtain rfl : [m, a] = l₂ := heq
        rcases List.cons_sublist_cons'.1 h₂ with h₂ | ⟨-, h₂⟩
        · exact absurd (h₂.subset List.mem_cons_self) hm
        · exact List.singleton_sublist.1 h₂
      | cons y ys =>
        obtain rfl : m = y := (List.cons.inj heq).1
        exact absurd (h₁.subset List.mem_cons_self) hfront
    · intro hx
      exact List.Sublist.trans (List.cons_sublist_cons.2 (List.singleton_sublist.2 hx))
        (List.sublist_append_right _ _)
  rw [hsplit, hsublist]
  constructor
  · intro heq
    rcases leaders_mem back with hbot | hmem
    · exact Or.inl (heq.symm.trans hbot)
    · exact Or.inr (heq ▸ hmem)
  · rintro (rfl | hx)
    · rcases leaders_mem back with hbot | hmem
      · exact hbot
      · exact le_antisymm (hle _ hmem) bot_le
    · rcases leaders_mem back with hbot | hmem
      · exact (bot_le.antisymm (hbot ▸ le_leaders hx)).symm ▸ hbot
      · exact le_antisymm (hle _ hmem) (le_leaders hx)

end RavenWallet
