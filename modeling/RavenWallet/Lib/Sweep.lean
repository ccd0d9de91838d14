/-
  Sweeps over arrays.

  A loop runs over arrays from their last index down, and may change or remove the
  elements at the index it is at.  `downLoop` is the loop as it is written, over
  indices into a state, and `sweep` goes over a list instead, last element first.

  * `bind_commutes`, `ite_commutes`, `foldlM_commutes`: how two programs are compared
    step by step, when one works on the representations of the states of the other;
  * `downLoop_sweep`: if the state is some representation of a list, and each step of
    the loop does at its index what `sweep` does with the element there, then the loop
    does what `sweep` does.
-/
import Mathlib.Data.List.Induction

namespace RavenWallet

variable {α β γ σ τ : Type}

/-- `array_rm`, with the bound that it asserts. -/
def arrayRm (xs : List α) (i : ℕ) : Option (List α) :=
  if i < xs.length then some (xs.eraseIdx i) else none

/-- `for (i = n; i > 0; i--)`, with a body that uses `i - 1`. -/
def downLoop (body : ℕ → σ → Option σ) : ℕ → σ → Option σ
  | 0, s => some s
  | i + 1, s => do
    let s ← body i s
    downLoop body i s

/-- Goes over the list, the last element first; `f` may replace the element or drop it. -/
def sweep (f : α → τ → Option (Option α × τ)) : List α → τ → Option (List α × τ)
  | [], t => some ([], t)
  | a :: as, t => do
    let (bs, t) ← sweep f as t
    let (b, t) ← f a t
    some (b.toList ++ bs, t)

/-! ## Steps -/

section
variable {g : α → β}

theorem bind_commutes {x : Option γ} {f : γ → Option β} {f' : γ → Option α}
    (h : ∀ a, f a = (f' a).map g) : x.bind f = (x.bind f').map g := by
  cases x with
  | none => rfl
  | some a => exact h a

theorem bind_map_commutes {r : γ → τ} {x : Option γ} {f : τ → Option β} {f' : γ → Option α}
    (h : ∀ a, f (r a) = (f' a).map g) : (x.map r).bind f = (x.bind f').map g := by
  cases x with
  | none => rfl
  | some a => exact h a

theorem ite_commutes {c : Prop} {i j : Decidable c} {x y : Option β} {x' y' : Option α}
    (hx : x = x'.map g) (hy : y = y'.map g) : @ite _ c i x y = (@ite _ c j x' y').map g := by
  by_cases hc : c
  · rw [if_pos hc, if_pos hc, hx]
  · rw [if_neg hc, if_neg hc, hy]

theorem foldlM_commutes {f : β → γ → Option β} {f' : α → γ → Option α}
    (h : ∀ s x, f (g s) x = (f' s x).map g) (l : List γ) (s : α) :
    l.foldlM f (g s) = (l.foldlM f' s).map g := by
  induction l generalizing s with
  | nil => rfl
  | cons x l ih =>
    rw [List.foldlM_cons, List.foldlM_cons, h]
    exact bind_map_commutes ih

end

/-! ## Loops -/

theorem arrayRm_append (as bs : List α) (a : α) :
    arrayRm (as ++ a :: bs) as.length = some (as ++ bs) := by
  rw [arrayRm, if_pos (by simp), List.eraseIdx_append_of_length_le (Nat.le_refl _)]
  simp

theorem set_append_cons (as bs : List α) (a b : α) :
    (as ++ a :: bs).set as.length b = as ++ b :: bs := by
  simp

theorem sweep_concat (f : α → τ → Option (Option α × τ)) (as : List α) (a : α) (t : τ) :
    sweep f (as ++ [a]) t = (f a t).bind fun r =>
      (sweep f as r.2).map fun s => (s.1 ++ r.1.toList, s.2) := by
  induction as with
  | nil =>
    simp [sweep]
  | cons x as ih =>
    simp only [List.cons_append, sweep, ih, Option.bind_eq_bind]
    cases f a t with
    | none => rfl
    | some r =>
      simp only [Option.bind_some]
      cases sweep f as r.2 with
      | none => rfl
      | some s =>
        simp only [Option.map_some, Option.bind_some, Option.map_bind]
        refine congrArg (fun g => (f x s.2).bind g) ?_
        funext u
        simp

/-- A loop over the indices sweeps the list that the state represents. -/
theorem downLoop_sweep {body : ℕ → σ → Option σ} {f : α → τ → Option (Option α × τ)}
    (rep : List α → τ → σ)
    (hbody : ∀ as a bs t, body as.length (rep (as ++ a :: bs) t) =
      (f a t).map fun r => rep (as ++ (r.1.toList ++ bs)) r.2) (as : List α) (t : τ) :
    downLoop body as.length (rep as t) = (sweep f as t).map fun r => rep r.1 r.2 := by
  have h : ∀ bs t, downLoop body as.length (rep (as ++ bs) t) =
      (sweep f as t).map fun r => rep (r.1 ++ bs) r.2 := by
    induction as using List.reverseRecOn with
    | nil =>
      intro bs t
      rfl
    | append_singleton as a ih =>
      intro bs t
      rw [List.length_append, List.length_singleton, downLoop, List.append_assoc,
        List.singleton_append, hbody, sweep_concat]
      cases f a t with
      | none => rfl
      | some r =>
        simp only [Option.map_some, Option.bind_eq_bind, Option.bind_some, ih, Option.map_map]
        refine congrArg (fun g => (sweep f as r.2).map g) ?_
        funext s
        simp
  simpa using h [] t

end RavenWallet
