/-
  Gaps in a sequence.

  Some positions of a sequence are taken.  A gap of `g` positions ends at `n` if
  none of the `g` positions before `n` is taken.  A search that counts `n` up needs
  only `trailing n`, where the free positions before `n` begin.

  * `gap_iff`: a gap ends at `n` exactly if the free positions before `n` begin early
    enough;
  * `exists_gap`: where the names of the positions are distinct, few taken ones leave
    a gap.
-/
import Mathlib.Data.Finset.Card
import Mathlib.Order.Bounds.Basic

namespace RavenWallet

/-- None of the `g` positions before `n` is taken. -/
def Gap (taken : ℕ → Prop) (g n : ℕ) : Prop := g ≤ n ∧ ∀ k, n - g ≤ k → k < n → ¬ taken k

/-- Where the free positions before `n` begin. -/
def trailing (taken : ℕ → Prop) [DecidablePred taken] : ℕ → ℕ
  | 0 => 0
  | n + 1 => if taken n then n + 1 else trailing taken n

section
variable {taken : ℕ → Prop} [DecidablePred taken] {g k m n : ℕ}

theorem trailing_le : trailing taken n ≤ n := by
  induction n with
  | zero => exact le_refl _
  | succ n ih =>
    rw [trailing]
    split_ifs
    · exact le_refl _
    · exact ih.trans (Nat.le_succ n)

theorem not_taken_of_trailing_le (hk : trailing taken n ≤ k) (hlt : k < n) : ¬ taken k := by
  induction n with
  | zero => exact absurd hlt (Nat.not_lt_zero k)
  | succ n ih =>
    rw [trailing] at hk
    split_ifs at hk with htaken
    · omega
    · rcases Nat.lt_succ_iff_lt_or_eq.1 hlt with hlt | rfl
      · exact ih hk hlt
      · exact htaken

/-- The position before the free ones is taken. -/
theorem taken_pred_trailing (h : trailing taken n ≠ 0) : taken (trailing taken n - 1) := by
  induction n with
  | zero => exact absurd rfl h
  | succ n ih =>
    rw [trailing] at h ⊢
    split_ifs at h ⊢ with htaken
    · exact htaken
    · exact ih h

theorem gap_iff : Gap taken g n ↔ trailing taken n + g ≤ n := by
  constructor
  · rintro ⟨hle, hfree⟩
    by_contra hlt
    have h0 : trailing taken n ≠ 0 := by omega
    have hn : trailing taken n ≤ n := trailing_le
    exact hfree _ (by omega) (by omega) (taken_pred_trailing h0)
  · intro hle
    refine ⟨by omega, ?_⟩
    intro k hk hlt
    exact not_taken_of_trailing_le (by omega) hlt

omit [DecidablePred taken] in
/-- A search that starts with a gap ends there. -/
theorem isLeast_gap_self (h : Gap taken g m) : IsLeast {n | m ≤ n ∧ Gap taken g n} n ↔ n = m := by
  have hm : IsLeast {n | m ≤ n ∧ Gap taken g n} m := ⟨⟨le_refl m, h⟩, fun n hn => hn.1⟩
  refine ⟨fun hn => hn.unique hm, ?_⟩
  rintro rfl
  exact hm

omit [DecidablePred taken] in
/-- A search that finds no gap at `m` goes on behind it. -/
theorem isLeast_gap_succ (h : ¬ Gap taken g m) :
    IsLeast {n | m + 1 ≤ n ∧ Gap taken g n} n ↔ IsLeast {n | m ≤ n ∧ Gap taken g n} n := by
  have hset : {n | m + 1 ≤ n ∧ Gap taken g n} = {n | m ≤ n ∧ Gap taken g n} := by
    ext n
    refine and_congr_left fun hgap => ⟨fun hle => by omega, fun hle => ?_⟩
    refine lt_of_le_of_ne hle ?_
    rintro rfl
    exact h hgap
  rw [hset]

end

/-- Among `(c + 1) * g` positions with distinct names there is a gap if only `c` names are taken. -/
theorem exists_gap {α : Type} {f : ℕ → α} {used : Finset α} {g m : ℕ}
    (hf : Set.InjOn f {k | m ≤ k ∧ k < m + (used.card + 1) * g}) :
    ∃ n, m ≤ n ∧ n ≤ m + (used.card + 1) * g ∧ Gap (fun k => f k ∈ used) g n := by
  by_contra hno
  -- each of the windows of `g` positions has a taken one
  have hwindow : ∀ j, ∃ k, j < used.card + 1 → m + j * g ≤ k ∧ k < m + (j + 1) * g ∧ f k ∈ used := by
    intro j
    by_contra hk
    push Not at hk
    obtain ⟨hj, -⟩ := hk 0
    have hle : (j + 1) * g ≤ (used.card + 1) * g := Nat.mul_le_mul_right g hj
    have hsucc : (j + 1) * g = j * g + g := Nat.succ_mul j g
    refine hno ⟨m + (j + 1) * g, by omega, by omega, by omega, ?_⟩
    intro k hge hlt
    exact (hk k).2 (by omega) hlt
  choose k hk using hwindow
  have hcard : (Finset.range (used.card + 1)).card ≤ used.card := by
    refine Finset.card_le_card_of_injOn (fun j => f (k j)) ?_ ?_
    · intro j hj
      exact (hk j (Finset.mem_range.1 hj)).2.2
    · intro i hi j hj hij
      have hi := hk i (Finset.mem_range.1 hi)
      have hj' := hk j (Finset.mem_range.1 hj)
      have hile : (i + 1) * g ≤ (used.card + 1) * g :=
        Nat.mul_le_mul_right g (Finset.mem_range.1 ‹_›)
      have hjle : (j + 1) * g ≤ (used.card + 1) * g :=
        Nat.mul_le_mul_right g (Finset.mem_range.1 ‹_›)
      have hkij : k i = k j := hf ⟨by omega, by omega⟩ ⟨by omega, by omega⟩ hij
      -- the windows do not overlap
      rcases Nat.lt_trichotomy i j with hlt | heq | hlt
      · have hsep : (i + 1) * g ≤ j * g := Nat.mul_le_mul_right g hlt
        omega
      · exact heq
      · have hsep : (j + 1) * g ≤ i * g := Nat.mul_le_mul_right g hlt
        omega
  rw [Finset.card_range] at hcard
  omega

end RavenWallet
