/-
  The Fisher-Yates shuffle, over any source of random numbers.
-/
import Mathlib.Data.List.Basic

namespace RavenWallet

universe u
variable {α : Type u}

/-- Exchanges the elements at `i` and `j`. -/
def swap (l : List α) (i j : ℕ) : List α :=
  match l[i]?, l[j]? with
  | some x, some y => (l.set i y).set j x
  | _, _ => l

/-- Exchanges each element with a random one at or behind it. -/
def shuffle (rand : ℕ → ℕ) (l : List α) : List α :=
  (List.range (l.length - 1)).foldl (fun l i => swap l i (i + rand i % (l.length - i))) l

theorem swap_perm (l : List α) (i j : ℕ) : (swap l i j).Perm l := by
  unfold swap
  rcases hi : l[i]? with _ | x
  · exact .refl l
  · rcases hj : l[j]? with _ | y
    · exact .refl l
    · obtain ⟨hilt, rfl⟩ := List.getElem?_eq_some_iff.1 hi
      obtain ⟨hjlt, rfl⟩ := List.getElem?_eq_some_iff.1 hj
      exact List.set_set_perm hilt hjlt

theorem shuffle_perm (rand : ℕ → ℕ) (l : List α) : (shuffle rand l).Perm l := by
  unfold shuffle
  generalize List.range (l.length - 1) = is
  induction is generalizing l with
  | nil => exact .refl l
  | cons i is ih =>
    rw [List.foldl_cons]
    exact (ih _).trans (swap_perm ..)

end RavenWallet
