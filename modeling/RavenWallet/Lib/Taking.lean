/-
  Taking items one after the other until there is enough.

  `takeUntil` adds the items of a list to a state, and stops when the state is
  enough, when no item is left, or before an item that would make the state too
  large.  `after xs s j` is the state with the first `j` items; `takeUntil_done_iff`
  and `takeUntil_refused_iff` say by these states how it ends.
-/
import Mathlib.Data.List.Basic

namespace RavenWallet

/-- With enough or with all items, or before one that is too much. -/
inductive Taking (S : Type) where
  | done (s : S)
  | refused (s : S)

section
variable {S A : Type} (add : S → A → S) (large enough : S → Prop) [DecidablePred large]
  [DecidablePred enough]

def takeUntil : List A → S → Taking S
  | [], s => .done s
  | x :: xs, s =>
    if large (add s x) then .refused s
    else if enough (add s x) then .done (add s x)
    else takeUntil xs (add s x)

/-- The state with the first `j` items. -/
def after (xs : List A) (s : S) (j : ℕ) : S := (xs.take j).foldl add s

variable {add large enough} {x : A} {xs : List A} {s s' : S} {j : ℕ}

@[simp] theorem after_zero : after add xs s 0 = s := rfl

@[simp] theorem after_succ : after add (x :: xs) s (j + 1) = after add xs (add s x) j := rfl

/-- It is done with the first items that are enough, or with all. -/
theorem takeUntil_done_iff : takeUntil add large enough xs s = .done s' ↔
    ∃ j, j ≤ xs.length ∧ s' = after add xs s j ∧
      (∀ i, i < j → ¬ large (after add xs s (i + 1))) ∧
      (∀ i, i + 1 < j → ¬ enough (after add xs s (i + 1))) ∧
      (j = xs.length ∨ j ≠ 0 ∧ enough (after add xs s j)) := by
  induction xs generalizing s with
  | nil =>
    rw [takeUntil, Taking.done.injEq]
    constructor
    · rintro rfl
      exact ⟨0, Nat.le_refl _, rfl, fun i hi => absurd hi (Nat.not_lt_zero i),
        fun i hi => absurd hi (Nat.not_lt_zero _), Or.inl rfl⟩
    · rintro ⟨j, hj, rfl, -⟩
      obtain rfl := Nat.le_zero.1 hj
      rfl
  | cons x xs ih =>
    rw [takeUntil]
    by_cases hlarge : large (add s x)
    · rw [if_pos hlarge]
      refine iff_of_false (fun h => by cases h) ?_
      rintro ⟨j, -, -, hfit, -, hend⟩
      cases j with
      | zero => exact hend.elim (fun h => by cases h) fun h => h.1 rfl
      | succ j => exact hfit 0 (Nat.succ_pos j) hlarge
    · rw [if_neg hlarge]
      by_cases henough : enough (add s x)
      · rw [if_pos henough, Taking.done.injEq]
        constructor
        · rintro rfl
          refine ⟨1, Nat.succ_pos _, rfl, ?_, ?_, Or.inr ⟨Nat.one_ne_zero, henough⟩⟩
          · intro i hi
            obtain rfl := Nat.lt_one_iff.1 hi
            exact hlarge
          · intro i hi
            omega
        · rintro ⟨j, -, rfl, -, hearlier, hend⟩
          cases j with
          | zero => exact hend.elim (fun h => by cases h) fun h => absurd rfl h.1
          | succ j =>
            cases j with
            | zero => rfl
            | succ j => exact absurd henough (hearlier 0 (by omega))
      · rw [if_neg henough, ih]
        constructor
        · rintro ⟨j, hj, rfl, hfit, hearlier, hend⟩
          refine ⟨j + 1, Nat.succ_le_succ hj, rfl, Nat.forall_lt_succ_left.2 ⟨hlarge, hfit⟩, ?_, ?_⟩
          · intro i hi
            cases i with
            | zero => exact henough
            | succ i => exact hearlier i (by omega)
          · exact hend.imp (congrArg Nat.succ) fun h => ⟨Nat.succ_ne_zero j, h.2⟩
        · rintro ⟨j, hj, rfl, hfit, hearlier, hend⟩
          cases j with
          | zero => exact absurd rfl (hend.elim (fun h => by cases h) fun h => h.1)
          | succ j =>
            refine ⟨j, Nat.le_of_succ_le_succ hj, rfl, (Nat.forall_lt_succ_left.1 hfit).2, ?_, ?_⟩
            · intro i hi
              exact hearlier (i + 1) (by omega)
            · rcases hend with hend | ⟨-, hend⟩
              · exact Or.inl (Nat.succ.inj hend)
              · refine Or.inr ⟨?_, hend⟩
                rintro rfl
                exact henough hend

/-- It stops before the first item that is too much, if there was not enough before. -/
theorem takeUntil_refused_iff : takeUntil add large enough xs s = .refused s' ↔
    ∃ j, j < xs.length ∧ s' = after add xs s j ∧
      (∀ i, i < j → ¬ large (after add xs s (i + 1)) ∧ ¬ enough (after add xs s (i + 1))) ∧
      large (after add xs s (j + 1)) := by
  induction xs generalizing s with
  | nil =>
    refine iff_of_false (fun h => by cases h) ?_
    rintro ⟨j, hj, -⟩
    exact Nat.not_lt_zero j hj
  | cons x xs ih =>
    rw [takeUntil]
    by_cases hlarge : large (add s x)
    · rw [if_pos hlarge, Taking.refused.injEq]
      constructor
      · rintro rfl
        exact ⟨0, Nat.succ_pos _, rfl, fun i hi => absurd hi (Nat.not_lt_zero i), hlarge⟩
      · rintro ⟨j, -, rfl, hearlier, -⟩
        cases j with
        | zero => rfl
        | succ j => exact absurd hlarge (hearlier 0 (Nat.succ_pos j)).1
    · rw [if_neg hlarge]
      by_cases henough : enough (add s x)
      · rw [if_pos henough]
        refine iff_of_false (fun h => by cases h) ?_
        rintro ⟨j, -, -, hearlier, hend⟩
        cases j with
        | zero => exact hlarge hend
        | succ j => exact (hearlier 0 (Nat.succ_pos j)).2 henough
      · rw [if_neg henough, ih]
        constructor
        · rintro ⟨j, hj, rfl, hearlier, hend⟩
          exact ⟨j + 1, Nat.succ_lt_succ hj, rfl,
            Nat.forall_lt_succ_left.2 ⟨⟨hlarge, henough⟩, hearlier⟩, hend⟩
        · rintro ⟨j, hj, rfl, hearlier, hend⟩
          cases j with
          | zero => exact absurd hend hlarge
          | succ j =>
            exact ⟨j, Nat.lt_of_succ_lt_succ hj, rfl, (Nat.forall_lt_succ_left.1 hearlier).2, hend⟩

end

/-- Items are taken until there is enough, and no longer, in one way only. -/
theorem enough_unique {n i j : ℕ} {enough : ℕ → Prop} (hi : i ≤ n) (hj : j ≤ n)
    (hfirst : ∀ k, k + 1 < i → ¬ enough (k + 1)) (hfirst' : ∀ k, k + 1 < j → ¬ enough (k + 1))
    (hstop : i = n ∨ i ≠ 0 ∧ enough i) (hstop' : j = n ∨ j ≠ 0 ∧ enough j) : i = j := by
  have hle : ∀ {a b}, a ≤ n → (∀ k, k + 1 < a → ¬ enough (k + 1)) → (b = n ∨ b ≠ 0 ∧ enough b) →
      a ≤ b := by
    intro a b ha hfirst hstop
    by_contra hlt
    obtain rfl | ⟨hne, henough⟩ := hstop
    · exact hlt ha
    · obtain ⟨b, rfl⟩ := Nat.exists_eq_succ_of_ne_zero hne
      exact hfirst b (Nat.not_le.1 hlt) henough
  exact Nat.le_antisymm (hle hi hfirst hstop') (hle hj hfirst' hstop)

end RavenWallet
