/-
  A function that calls itself at most once, in stages.

  `next` gives the argument of the call, none if there is no call.  `Settles` relates
  an argument to that of the last call.  Often the arguments go through stages: a
  function is applied to a value again and again, until no call is made or the stage
  is left.  If the function has few values in each stage, the last call is found
  within a bounded number of steps (`Follow.settles_iff`).
-/
import Mathlib.Data.Finset.Card
import Mathlib.Data.Finset.Range
import Mathlib.Logic.Function.Iterate

namespace RavenWallet

variable {α β : Type}

/-! ## The last call -/

/-- The last call has the argument `z`, and all calls have allowed arguments. -/
inductive Settles (next : α → Option α) (ok : α → Prop) : α → α → Prop where
  | stop {x : α} (h : next x = none) : Settles next ok x x
  | call {x y z : α} (h : next x = some y) (hok : ok y) (hy : Settles next ok y z) :
      Settles next ok x z

section
variable {next : α → Option α} {ok : α → Prop} {x y z : α}

theorem settles_of_none (h : next x = none) : Settles next ok x z ↔ z = x := by
  constructor
  · intro hs
    cases hs with
    | stop => rfl
    | call hcall => rw [h] at hcall; cases hcall
  · rintro rfl
    exact .stop h

theorem settles_of_some (h : next x = some y) :
    Settles next ok x z ↔ ok y ∧ Settles next ok y z := by
  constructor
  · intro hs
    cases hs with
    | stop hstop => rw [h] at hstop; cases hstop
    | call hcall hok hy =>
      rw [h] at hcall
      obtain rfl := Option.some.inj hcall
      exact ⟨hok, hy⟩
  · rintro ⟨hok, hy⟩
    exact .call h hok hy

theorem Settles.unique {z' : α} (h : Settles next ok x z) (h' : Settles next ok x z') : z = z' := by
  induction h with
  | stop h => exact ((settles_of_none h).1 h').symm
  | call h _ _ ih => exact ih ((settles_of_some h).1 h').2

/-- There is no last call if an argument that is called leads to another one. -/
theorem not_settles (P : α → Prop) (hP : ∀ x, P x → ∃ y, next x = some y ∧ P y) (hx : P x) :
    ¬ Settles next ok x z := by
  intro h
  induction h with
  | stop h =>
    obtain ⟨y, hy, -⟩ := hP _ hx
    rw [h] at hy
    cases hy
  | call h _ _ ih =>
    obtain ⟨y, hy, hPy⟩ := hP _ hx
    rw [h] at hy
    obtain rfl := Option.some.inj hy
    exact ih hPy

end

/-! ## Iterates -/

/-- A function with few values reaches a state within as many steps. -/
theorem exists_iterate_le [DecidableEq α] {f : α → α} {T : Finset α} (hT : ∀ y, f y ∈ T) (x : α)
    (i : ℕ) : ∃ j, j ≤ T.card ∧ j ≤ i ∧ f^[j] x = f^[i] x := by
  induction i using Nat.strong_induction_on with
  | _ i ih =>
    by_cases hi : i ≤ T.card
    · exact ⟨i, hi, le_refl i, rfl⟩
    · -- two of the first states after `x` are equal, and what is between them is cut out
      have hcard : T.card < (Finset.range (T.card + 1)).card := by
        rw [Finset.card_range]
        exact Nat.lt_succ_self _
      have hmaps : ∀ p ∈ Finset.range (T.card + 1), f^[p + 1] x ∈ T := by
        intro p _
        rw [Function.iterate_succ_apply']
        exact hT _
      obtain ⟨p, q, hpq, hq, heq⟩ : ∃ p q, p < q ∧ q < T.card + 1 ∧ f^[p + 1] x = f^[q + 1] x := by
        obtain ⟨p, hp, q, hq, hne, heq⟩ :=
          Finset.exists_ne_map_eq_of_card_lt_of_maps_to hcard hmaps
        rw [Finset.mem_range] at hp hq
        rcases Nat.lt_or_gt_of_ne hne with h | h
        · exact ⟨p, q, h, hq, heq⟩
        · exact ⟨q, p, h, hp, heq.symm⟩
      obtain ⟨d, rfl⟩ : ∃ d, i = d + (q + 1) := ⟨i - (q + 1), by omega⟩
      obtain ⟨j, hj, hle, hjx⟩ := ih (d + (p + 1)) (by omega)
      refine ⟨j, hj, by omega, ?_⟩
      rw [hjx, Function.iterate_add_apply, heq, ← Function.iterate_add_apply]

/-! ## Stages -/

/-- The arguments of a stage come from values.  The first value is `start`; a value stops the calls,
    leaves the stage, or is changed by `step`. -/
structure Stages (α β : Type) where
  call : ℕ → β → α
  start : ℕ → β
  step : ℕ → β → β
  stops : ℕ → β → Prop
  leaves : ℕ → β → Prop

namespace Stages

variable (S : Stages α β)

/-- The value after `i` changes. -/
def value (m i : ℕ) : β := (S.step m)^[i] (S.start m)

/-- The stage goes on until the value after `i` changes. -/
def Reaches (m i : ℕ) : Prop :=
  ∀ j, j < i → ¬ S.stops m (S.value m j) ∧ ¬ S.leaves m (S.value m j)

/-- The stage is left after at most `N` changes. -/
def Left (N m : ℕ) : Prop :=
  ∃ i, i ≤ N ∧ S.Reaches m i ∧ ¬ S.stops m (S.value m i) ∧ S.leaves m (S.value m i)

/-- The stages from `n` down to `m` are left, and stage `m` stops after `i` changes. -/
def EndsAt (N n m i : ℕ) : Prop :=
  (∀ k, m < k → k < n → S.Left N k) ∧ S.Reaches m i ∧ S.stops m (S.value m i)

/-- The calls of `next` go through `n` stages, from the last one to the first one, and then to
    `bottom`.  The values of a stage are changed to at most `N` others. -/
structure Follow (next : α → Option α) (bottom : α) (N n : ℕ) : Prop where
  stops : ∀ m, m < n → ∀ b, S.stops m b → next (S.call m b) = none
  step : ∀ m, m < n → ∀ b, ¬ S.stops m b → ¬ S.leaves m b →
    next (S.call m b) = some (S.call m (S.step m b))
  leaves : ∀ m, m + 1 < n → ∀ b, ¬ S.stops (m + 1) b → S.leaves (m + 1) b →
    next (S.call (m + 1) b) = some (S.call m (S.start m))
  bottom : 0 < n → ∀ b, ¬ S.stops 0 b → S.leaves 0 b → next (S.call 0 b) = some bottom
  few : ∀ m, ∃ T : Finset β, T.card ≤ N ∧ ∀ b, S.step m b ∈ T

variable {S} {next : α → Option α} {ok : α → Prop} {bottom z : α} {N n m i i' : ℕ}

theorem value_succ : S.value m (i + 1) = S.step m (S.value m i) :=
  Function.iterate_succ_apply' ..

theorem Reaches.zero : S.Reaches m 0 := fun _ h => absurd h (Nat.not_lt_zero _)

theorem Reaches.mono (h : S.Reaches m i) (hi : i' ≤ i) : S.Reaches m i' :=
  fun j hj => h j (hj.trans_le hi)

theorem Reaches.succ (h : S.Reaches m i)
    (hend : ¬ (S.stops m (S.value m i) ∨ S.leaves m (S.value m i))) : S.Reaches m (i + 1) := by
  intro j hj
  rcases Nat.lt_succ_iff_lt_or_eq.1 hj with hj | rfl
  · exact h j hj
  · exact not_or.1 hend

/-! ## The last call of the stages -/

namespace Follow

/-- What is reached is reached within `N` changes. -/
theorem exists_le (hS : S.Follow next bottom N n) (h : S.Reaches m i) :
    ∃ j, j ≤ N ∧ S.Reaches m j ∧ S.value m j = S.value m i := by
  classical
  obtain ⟨T, hcard, hT⟩ := hS.few m
  obtain ⟨j, hj, hle, heq⟩ := exists_iterate_le hT (S.start m) i
  exact ⟨j, hj.trans hcard, h.mono hle, heq⟩

theorem next_value (hS : S.Follow next bottom N n) (hm : m < n)
    (hend : ¬ (S.stops m (S.value m i) ∨ S.leaves m (S.value m i))) :
    next (S.call m (S.value m i)) = some (S.call m (S.value m (i + 1))) := by
  rw [value_succ]
  exact hS.step m hm _ (fun h => hend (Or.inl h)) fun h => hend (Or.inr h)

section
variable (hS : S.Follow next bottom N n) (hok : ∀ m b, m < n → ok (S.call m b))
include hS hok

/-- The calls go on to the values that are reached. -/
theorem settles_value (hm : m < n) (h : S.Reaches m i) :
    Settles next ok (S.call m (S.start m)) z ↔ Settles next ok (S.call m (S.value m i)) z := by
  induction i with
  | zero => exact Iff.rfl
  | succ i ih =>
    have hend := not_or.2 (h i (Nat.lt_succ_self i))
    rw [ih (h.mono (Nat.le_succ i)), settles_of_some (hS.next_value hm hend)]
    exact and_iff_right (hok _ _ hm)

/-- A stage that stops has the last call. -/
theorem settles_stop (hm : m < n) (h : S.Reaches m i) (hstops : S.stops m (S.value m i)) :
    Settles next ok (S.call m (S.start m)) z ↔ z = S.call m (S.value m i) := by
  rw [hS.settles_value hok hm h, settles_of_none (hS.stops m hm _ hstops)]

/-- After a stage that is left, the last call is that of the next one. -/
theorem settles_left (hm : m + 1 < n) (hleft : S.Left N (m + 1)) :
    Settles next ok (S.call (m + 1) (S.start (m + 1))) z ↔
      Settles next ok (S.call m (S.start m)) z := by
  obtain ⟨i, -, hreaches, hstops, hleaves⟩ := hleft
  rw [hS.settles_value hok hm hreaches, settles_of_some (hS.leaves m hm _ hstops hleaves)]
  exact and_iff_right (hok _ _ (Nat.lt_of_succ_lt hm))

/-- The first stage is not left. -/
theorem not_settles_left (hbottom : ¬ ok bottom) (hn : 0 < n) (hleft : S.Left N 0) :
    ¬ Settles next ok (S.call 0 (S.start 0)) z := by
  obtain ⟨i, -, hreaches, hstops, hleaves⟩ := hleft
  rw [hS.settles_value hok hn hreaches, settles_of_some (hS.bottom hn _ hstops hleaves)]
  exact fun h => hbottom h.1

omit hok

/-- If there is a last call, the stage ends. -/
theorem exists_end (hm : m < n) {x : α} (hs : Settles next ok x z) (h : S.Reaches m i)
    (hx : x = S.call m (S.value m i)) :
    ∃ j, S.Reaches m j ∧ (S.stops m (S.value m j) ∨ S.leaves m (S.value m j)) := by
  induction hs generalizing i with
  | stop hnone =>
    by_contra hno
    have hnext := hS.next_value hm fun hend => hno ⟨i, h, hend⟩
    rw [← hx, hnone] at hnext
    cases hnext
  | call hsome _ _ ih =>
    by_cases hend : S.stops m (S.value m i) ∨ S.leaves m (S.value m i)
    · exact ⟨i, h, hend⟩
    · have hnext := hS.next_value hm hend
      rw [← hx, hsome] at hnext
      exact ih (h.succ hend) (Option.some.inj hnext)

/-- The stage stops or is left within `N` changes. -/
theorem stops_or_left (hm : m < n) (hs : Settles next ok (S.call m (S.start m)) z) :
    (∃ i, i ≤ N ∧ S.Reaches m i ∧ S.stops m (S.value m i)) ∨ S.Left N m := by
  obtain ⟨j, hj, hend⟩ := hS.exists_end hm hs Reaches.zero rfl
  obtain ⟨i, hi, hreaches, heq⟩ := hS.exists_le hj
  rw [← heq] at hend
  by_cases hstops : S.stops m (S.value m i)
  · exact Or.inl ⟨i, hi, hreaches, hstops⟩
  · exact Or.inr ⟨i, hi, hreaches, hstops, hend.resolve_left hstops⟩

end

end Follow

theorem EndsAt.succ (h : S.EndsAt N n m i) (hleft : S.Left N n) : S.EndsAt N (n + 1) m i := by
  refine ⟨fun k hmk hk => ?_, h.2⟩
  rcases Nat.lt_succ_iff_lt_or_eq.1 hk with hk | rfl
  · exact h.1 k hmk hk
  · exact hleft

theorem EndsAt.pred (h : S.EndsAt N (n + 1) m i) (hm : m < n) : S.EndsAt N n m i ∧ S.Left N n :=
  ⟨⟨fun k hmk hk => h.1 k hmk (Nat.lt_succ_of_lt hk), h.2⟩, h.1 n hm (Nat.lt_succ_self n)⟩

/-- The last call, if all later stages are left. -/
theorem Follow.settles_iff (hS : S.Follow next bottom N n) (hok : ∀ m b, m < n → ok (S.call m b))
    (hbottom : ¬ ok bottom) (hm : m < n) : Settles next ok (S.call m (S.start m)) z ↔
      ∃ k, k ≤ m ∧ ∃ i, i ≤ N ∧ S.EndsAt N (m + 1) k i ∧ z = S.call k (S.value k i) := by
  constructor
  · intro hs
    induction m with
    | zero =>
      rcases hS.stops_or_left hm hs with ⟨i, hi, hreaches, hstops⟩ | hleft
      · exact ⟨0, le_refl 0, i, hi, ⟨fun k hk hk' => by omega, hreaches, hstops⟩,
          (hS.settles_stop hok hm hreaches hstops).1 hs⟩
      · exact absurd hs (hS.not_settles_left hok hbottom hm hleft)
    | succ m ih =>
      rcases hS.stops_or_left hm hs with ⟨i, hi, hreaches, hstops⟩ | hleft
      · exact ⟨m + 1, le_refl _, i, hi, ⟨fun k hk hk' => by omega, hreaches, hstops⟩,
          (hS.settles_stop hok hm hreaches hstops).1 hs⟩
      · obtain ⟨k, hk, i, hi, hend, hz⟩ :=
          ih (Nat.lt_of_succ_lt hm) ((hS.settles_left hok hm hleft).1 hs)
        exact ⟨k, Nat.le_succ_of_le hk, i, hi, hend.succ hleft, hz⟩
  · rintro ⟨k, hk, i, -, hend, rfl⟩
    induction m with
    | zero =>
      obtain rfl := Nat.le_zero.1 hk
      exact (hS.settles_stop hok hm hend.2.1 hend.2.2).2 rfl
    | succ m ih =>
      rcases Nat.lt_succ_iff_lt_or_eq.1 (Nat.lt_succ_of_le hk) with hlt | rfl
      · obtain ⟨hend', hleft⟩ := hend.pred hlt
        rw [hS.settles_left hok hm hleft]
        exact ih (Nat.lt_of_succ_lt hm) (Nat.le_of_lt_succ hlt) hend'
      · exact (hS.settles_stop hok hm hend.2.1 hend.2.2).2 rfl

end Stages

end RavenWallet
