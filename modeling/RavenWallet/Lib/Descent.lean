/-
  Lists that go down step by step.

  `Descends f l`: of two neighbours the second is one lower.  So the height of an
  element says where it stands, and a list that is cut off after `n` elements ends
  as much higher as it got shorter.
-/
import Mathlib.Data.List.Chain

namespace RavenWallet

variable {α : Type*} {f : α → ℕ} {l l' : List α} {x y : α}

/-- Each element is one higher than the next one. -/
def Descends (f : α → ℕ) (l : List α) : Prop := l.IsChain fun x y => f x = f y + 1

namespace Descends

theorem tail (h : Descends f (x :: l)) : Descends f l := List.IsChain.tail h

theorem take (h : Descends f l) (n : ℕ) : Descends f (l.take n) := List.IsChain.take h n

/-- The first element is the highest one. -/
theorem lt_head (h : Descends f (x :: l)) (hy : y ∈ l) : f y < f x := by
  induction l generalizing x with
  | nil => cases hy
  | cons z l ih =>
    obtain ⟨hz, hrest⟩ := List.isChain_cons_cons.1 h
    rcases List.mem_cons.1 hy with rfl | hy
    · omega
    · have hlt := ih hrest hy
      omega

/-- What comes first is higher. -/
theorem lt_of_append (h : Descends f (l ++ l')) (hx : x ∈ l) (hy : y ∈ l') : f y < f x := by
  induction l with
  | nil => cases hx
  | cons z l ih =>
    rcases List.mem_cons.1 hx with rfl | hx
    · exact h.lt_head (List.mem_append_right _ hy)
    · exact ih h.tail hx

/-- There is one element at each height. -/
theorem eq_of_height (h : Descends f l) (hx : x ∈ l) (hy : y ∈ l) (heq : f x = f y) : x = y := by
  induction l with
  | nil => cases hx
  | cons z l ih =>
    rcases List.mem_cons.1 hx with rfl | hxl
    · rcases List.mem_cons.1 hy with rfl | hyl
      · rfl
      · exact absurd heq (Nat.ne_of_gt (h.lt_head hyl))
    · rcases List.mem_cons.1 hy with rfl | hyl
      · exact absurd heq (Nat.ne_of_lt (h.lt_head hxl))
      · exact ih h.tail hxl hyl

theorem getLast (h : Descends f l) (hx : l.head? = some x) (hy : l.getLast? = some y) :
    f x + 1 = f y + l.length := by
  induction l generalizing x with
  | nil => cases hx
  | cons z l ih =>
    obtain rfl : z = x := by simpa using hx
    cases l with
    | nil =>
      obtain rfl : z = y := by simpa using hy
      rfl
    | cons w l =>
      obtain ⟨hw, hrest⟩ := List.isChain_cons_cons.1 h
      have hstep := ih hrest rfl (by simpa using hy)
      rw [List.length_cons]
      omega

/-- The end of a part. -/
theorem getLast_take (h : Descends f l) {n : ℕ} (hn : n ≤ l.length) (hy : l.getLast? = some y)
    (hx : (l.take n).getLast? = some x) : f x = f y + (l.length - n) := by
  cases l with
  | nil => cases hy
  | cons z l =>
    cases n with
    | zero => cases hx
    | succ n =>
      have hwhole := h.getLast rfl hy
      have hpart := (h.take (n + 1)).getLast rfl hx
      rw [List.length_take, min_eq_left hn] at hpart
      omega

end Descends

end RavenWallet
