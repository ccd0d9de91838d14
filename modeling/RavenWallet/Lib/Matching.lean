/-
  Lists whose elements can be matched with different elements of another list.

  `matched_concat_iff`: if a list is matched with an extension of it up to its last
  element, that element is matched with one of the extension.
-/
import Mathlib.Data.List.Perm.Subperm
import Mathlib.Order.Defs.Unbundled

namespace RavenWallet

variable {α : Type} {R : α → α → Prop} {p : α → Bool} {xs ys zs : List α} {a : α}

/-- Each element of `xs` is related to an element of `ys`, each of which is taken once. -/
def Matched (R : α → α → Prop) (xs ys : List α) : Prop :=
  ∃ zs, zs.Subperm ys ∧ List.Forall₂ R xs zs

theorem countP_le_of_forall₂ (h : List.Forall₂ R xs zs) (hp : ∀ x z, R x z → p x → p z) :
    xs.countP p ≤ zs.countP p := by
  induction h with
  | nil => exact Nat.le_refl _
  | @cons x z xs zs hxz _ ih =>
    rw [List.countP_cons, List.countP_cons]
    by_cases hx : p x
    · rw [if_pos hx, if_pos (hp x z hxz hx)]
      exact Nat.succ_le_succ ih
    · rw [if_neg hx]
      exact Nat.le_trans ih (Nat.le_add_right _ _)

/-- What the relation preserves is as frequent in the other list. -/
theorem Matched.countP_le (h : Matched R xs ys) (hp : ∀ x z, R x z → p x → p z) :
    xs.countP p ≤ ys.countP p := by
  obtain ⟨zs, hsub, hzs⟩ := h
  exact Nat.le_trans (countP_le_of_forall₂ hzs hp) (hsub.countP_le p)

theorem matched_concat_iff [IsPreorder α R] :
    Matched R (xs ++ [a]) (xs ++ ys) ↔ ∃ y ∈ ys, R a y := by
  classical
  constructor
  · intro h
    -- what is above the last element is more frequent in the first list than in `xs`
    have hcount := h.countP_le (p := fun y => decide (R a y)) fun x z hxz hx => by
      rw [decide_eq_true_eq] at hx ⊢
      exact trans_of R hx hxz
    have hlast : [a].countP (fun y => decide (R a y)) = 1 := by
      rw [List.countP_singleton, if_pos (decide_eq_true (refl_of R a))]
    rw [List.countP_append, List.countP_append, hlast] at hcount
    have hpos : 0 < ys.countP fun y => decide (R a y) := by omega
    obtain ⟨y, hy, hay⟩ := List.countP_pos_iff.1 hpos
    exact ⟨y, hy, of_decide_eq_true hay⟩
  · rintro ⟨y, hy, hay⟩
    refine ⟨xs ++ [y], ?_, ?_⟩
    · exact ((List.singleton_sublist.2 hy).append_left xs).subperm
    · have hsame : List.Forall₂ R xs xs := List.forall₂_same.2 fun x _ => refl_of R x
      exact List.rel_append hsame (.cons hay .nil)

end RavenWallet
