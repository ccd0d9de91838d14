/-
  Chains of ancestors.

  `r b c`: `c` is the parent of `b`.  A parent is unique and one lower, so of the
  ancestors of an element there is one at each height.  The rules for two walks that
  go back to a common ancestor: `common_left`, where the first one is higher, and
  `common_both`, where both are at one height.  Where a parent is not unique, it is
  still lower in some ranking if nothing is its own ancestor (`exists_rank`).
-/
import Mathlib.Data.Set.Card
import Mathlib.Logic.Relation

namespace RavenWallet

variable {α : Type}

/-- Each element has one parent at most, which is one lower. -/
structure Graded (r : α → α → Prop) (height : α → ℕ) : Prop where
  unique : ∀ {b c c'}, r b c → r b c' → c = c'
  height : ∀ {b c}, r b c → height b = height c + 1

/-- `c` is `b` or one of its ancestors. -/
def Chain (r : α → α → Prop) (b c : α) : Prop := Relation.ReflTransGen r b c

/-- `c` is `n` parents before `b`. -/
inductive Back (r : α → α → Prop) : ℕ → α → α → Prop
  | refl (b : α) : Back r 0 b b
  | head {n : ℕ} {b b' c : α} : r b b' → Back r n b' c → Back r (n + 1) b c

/-- `x` is on the chains of both. -/
def Common (r : α → α → Prop) (b c x : α) : Prop := Chain r b x ∧ Chain r c x

/-- The highest element on the chains of both. -/
structure Joins (r : α → α → Prop) (height : α → ℕ) (b c j : α) : Prop where
  common : Common r b c j
  last : ∀ x, Common r b c x → height x ≤ height j

section
variable {r : α → α → Prop} {height : α → ℕ} {b b' c c' x y : α}

theorem Chain.refl (b : α) : Chain r b b := Relation.ReflTransGen.refl

theorem Chain.head (h : r b b') (hx : Chain r b' x) : Chain r b x := Relation.ReflTransGen.head h hx

theorem Chain.trans (h : Chain r b c) (hx : Chain r c x) : Chain r b x :=
  Relation.ReflTransGen.trans h hx

theorem Chain.cases (h : Chain r b x) : x = b ∨ ∃ b', r b b' ∧ Chain r b' x := by
  rcases Relation.ReflTransGen.cases_head h with rfl | ⟨b', hb', hx⟩
  · exact Or.inl rfl
  · exact Or.inr ⟨b', hb', hx⟩

theorem Chain.single (h : r b c) : Chain r b c := Relation.ReflTransGen.single h

theorem Chain.mono {r' : α → α → Prop} (h : Chain r b c) (hr : ∀ b c, r b c → r' b c) :
    Chain r' b c :=
  Relation.ReflTransGen.mono hr _ _ h

/-- What holds of an element and is inherited by parents holds of its chain. -/
theorem Chain.induct {P : α → Prop} (h : Chain r b x) (hb : P b)
    (hP : ∀ {b c}, P b → r b c → P c) : P x := by
  induction h with
  | refl => exact hb
  | tail _ hr ih => exact hP ih hr

theorem Back.trans {m n : ℕ} (h : Back r m b c) (hx : Back r n c x) : Back r (m + n) b x := by
  induction h with
  | refl b => rwa [Nat.zero_add]
  | @head m b b' c hb _ ih =>
    rw [Nat.succ_add]
    exact .head hb (ih hx)

theorem Back.split {m n : ℕ} (h : Back r (m + n) b x) : ∃ c, Back r m b c ∧ Back r n c x := by
  induction m generalizing b with
  | zero => exact ⟨b, .refl b, by rwa [Nat.zero_add] at h⟩
  | succ m ih =>
    rw [Nat.succ_add] at h
    cases h with
    | head hb h =>
      obtain ⟨c, hc, hx⟩ := ih h
      exact ⟨c, .head hb hc, hx⟩

namespace Graded

variable (hr : Graded r height)
include hr

theorem back_height {n : ℕ} (h : Back r n b c) : height b = height c + n := by
  induction h with
  | refl b => rfl
  | head hb _ ih =>
    rw [hr.height hb, ih]
    rfl

theorem le (h : Chain r b x) : height x ≤ height b := by
  refine h.induct (P := fun x => height x ≤ height b) (Nat.le_refl _) ?_
  intro c d hc hcd
  have hstep := hr.height hcd
  omega

/-- A proper ancestor is one of the parent. -/
theorem parent (hb : r b b') (h : Chain r b x) (hne : x ≠ b) : Chain r b' x := by
  rcases h.cases with rfl | ⟨c, hc, hx⟩
  · exact absurd rfl hne
  · rwa [hr.unique hb hc]

/-- Of the ancestors of an element one is at each height. -/
theorem eq_of_height (hx : Chain r b x) (hy : Chain r b y) (heq : height x = height y) :
    x = y := by
  induction hx using Relation.ReflTransGen.head_induction_on with
  | refl =>
    rcases hy.cases with rfl | ⟨c, hc, hy⟩
    · rfl
    · have hstep := hr.height hc
      have hle := hr.le hy
      omega
  | @head b c hc hx ih =>
    by_cases hyb : y = b
    · have hstep := hr.height hc
      have hle := hr.le hx
      subst hyb
      omega
    · exact ih (hr.parent hc hy hyb)

/-- An element is on the chain of another one only if it is lower. -/
theorem not_chain (hne : b ≠ c) (heq : height b ≤ height c) : ¬ Chain r b c := by
  intro h
  rcases h.cases with rfl | ⟨b', hb', h⟩
  · exact hne rfl
  · have hstep := hr.height hb'
    have hle := hr.le h
    omega

theorem common_left (hb : r b b') (hle : height c ≤ height b') :
    Common r b c x ↔ Common r b' c x := by
  constructor
  · rintro ⟨hx, hc⟩
    refine ⟨hr.parent hb hx ?_, hc⟩
    rintro rfl
    have hstep := hr.height hb
    have hle' := hr.le hc
    omega
  · rintro ⟨hx, hc⟩
    exact ⟨.head hb hx, hc⟩

theorem common_both (hb : r b b') (hc : r c c') (heq : height b = height c) (hne : b ≠ c) :
    Common r b c x ↔ Common r b' c' x := by
  constructor
  · rintro ⟨hx, hcx⟩
    refine ⟨hr.parent hb hx ?_, hr.parent hc hcx ?_⟩
    · rintro rfl
      exact hr.not_chain (Ne.symm hne) (Nat.le_of_eq heq.symm) hcx
    · rintro rfl
      exact hr.not_chain hne (Nat.le_of_eq heq) hx
  · rintro ⟨hx, hcx⟩
    exact ⟨.head hb hx, .head hc hcx⟩

/-- Below its root a chain has no ancestor, so it does not reach one of another chain. -/
theorem not_common_root (hb : ∀ b', ¬ r b b') (hle : height c ≤ height b) (hne : b ≠ c) :
    ¬ Common r b c x := by
  rintro ⟨hx, hc⟩
  rcases hx.cases with rfl | ⟨b', hb', -⟩
  · exact hr.not_chain (Ne.symm hne) hle hc
  · exact hb b' hb'

theorem joins_self (b : α) : Joins r height b b b :=
  ⟨⟨.refl b, .refl b⟩, fun _ hx => hr.le hx.1⟩

theorem joins_unique {j j' : α} (h : Joins r height b c j) (h' : Joins r height b c j') :
    j = j' :=
  hr.eq_of_height h.common.1 h'.common.1
    (Nat.le_antisymm (h'.last j h.common) (h.last j' h'.common))

end Graded

/-- Finitely many elements, none of which is its own ancestor, can be ranked. -/
theorem exists_rank [Finite α] (h : ∀ b, ¬ Relation.TransGen r b b) :
    ∃ (n : ℕ) (rank : α → ℕ), (∀ b, rank b < n) ∧ ∀ b c, r b c → rank c < rank b := by
  refine ⟨Nat.card α + 1, fun b => Set.ncard {c | Relation.TransGen r b c}, ?_, ?_⟩
  · intro b
    exact Nat.lt_succ_of_le (Set.ncard_le_card _)
  · intro b c hbc
    refine Set.ncard_lt_ncard ⟨?_, ?_⟩ (Set.toFinite _)
    · intro x hx
      exact Relation.TransGen.head hbc hx
    · intro hsub
      exact h c (hsub (Relation.TransGen.single hbc))

theorem Joins.congr {b₁ c₁ j : α} (h : Joins r height b c j)
    (hiff : ∀ x, Common r b₁ c₁ x ↔ Common r b c x) : Joins r height b₁ c₁ j :=
  ⟨(hiff j).2 h.common, fun x hx => h.last x ((hiff x).1 hx)⟩

end

end RavenWallet
