/-
  Results under a condition.

  `Yields x p a`: the computation `x` has the result `a` if `p` holds, and none
  otherwise.  The conditions of the steps of a computation add up: `Yields.bind`
  and `Yields.isSome_bind`.
-/
import Mathlib.Logic.Basic
import Mathlib.Tactic.SplitIfs

namespace RavenWallet

universe u v
variable {α : Type u} {β : Type v}

structure Yields (x : Option α) (p : Prop) (a : α) : Prop where
  some_of : p → x = some a
  none_of : ¬ p → x = none

namespace Yields

variable {x : Option α} {p q : Prop} {a : α} {b : β} {f : α → Option β} {c : Prop} [Decidable c]

theorem of_ite [Decidable p] (h : x = if p then some a else none) : Yields x p a :=
  ⟨fun hp => h.trans (if_pos hp), fun hp => h.trans (if_neg hp)⟩

protected theorem pure (a : α) : Yields (some a) True a := ⟨fun _ => rfl, fun h => absurd trivial h⟩

theorem isSome_iff (h : Yields x p a) : x.isSome ↔ p := by
  by_cases hp : p
  · rw [h.some_of hp]
    exact ⟨fun _ => hp, fun _ => rfl⟩
  · rw [h.none_of hp]
    exact ⟨fun hno => absurd hno Bool.false_ne_true, fun hyes => absurd hyes hp⟩

theorem eq_some_iff (h : Yields x p a) {a' : α} : x = some a' ↔ p ∧ a' = a := by
  by_cases hp : p
  · rw [h.some_of hp, and_iff_right hp, Option.some_inj, eq_comm]
  · rw [h.none_of hp]
    exact ⟨fun hno => (Option.some_ne_none _ hno.symm).elim, fun hyes => absurd hyes.1 hp⟩

theorem congr (h : Yields x p a) (hpq : p ↔ q) : Yields x q a :=
  ⟨fun hq => h.some_of (hpq.2 hq), fun hq => h.none_of fun hp => hq (hpq.1 hp)⟩

theorem bind (h : Yields x p a) (h' : Yields (f a) q b) : Yields (x.bind f) (p ∧ q) b := by
  constructor
  · rintro ⟨hp, hq⟩
    rw [h.some_of hp, Option.bind_some, h'.some_of hq]
  · intro hpq
    by_cases hp : p
    · rw [h.some_of hp, Option.bind_some, h'.none_of fun hq => hpq ⟨hp, hq⟩]
    · rw [h.none_of hp]
      rfl

theorem map (h : Yields x p a) (g : α → β) : Yields (x.map g) p (g a) :=
  ⟨fun hp => by rw [h.some_of hp]; rfl, fun hp => by rw [h.none_of hp]; rfl⟩

theorem ite {y : Option α} {a' : α} (h : Yields x p a) (h' : Yields y q a') :
    Yields (if c then x else y) ((c → p) ∧ (¬ c → q)) (if c then a else a') := by
  by_cases hc : c
  · rw [if_pos hc, if_pos hc]
    exact h.congr ⟨fun hp => ⟨fun _ => hp, fun hno => absurd hc hno⟩, fun hpq => hpq.1 hc⟩
  · rw [if_neg hc, if_neg hc]
    exact h'.congr ⟨fun hq => ⟨fun hyes => absurd hyes hc, fun _ => hq⟩, fun hpq => hpq.2 hc⟩

/-- The rest of a computation, whose result is not needed. -/
theorem isSome_bind (h : Yields x p a) : (x.bind f).isSome ↔ p ∧ (f a).isSome := by
  by_cases hp : p
  · rw [h.some_of hp, Option.bind_some, and_iff_right hp]
  · rw [h.none_of hp]
    exact ⟨fun hno => absurd hno Bool.false_ne_true, fun hyes => absurd hyes.1 hp⟩

end Yields

/-- The parts of a conditional. -/
theorem isSome_ite {x y : Option α} {c : Prop} [Decidable c] :
    (if c then x else y).isSome ↔ (c → x.isSome) ∧ (¬ c → y.isSome) := by
  by_cases hc : c
  · rw [if_pos hc]
    exact ⟨fun h => ⟨fun _ => h, fun hno => absurd hc hno⟩, fun h => h.1 hc⟩
  · rw [if_neg hc]
    exact ⟨fun h => ⟨fun hyes => absurd hyes hc, fun _ => h⟩, fun h => h.2 hc⟩

/-- A conditional whose first part has a result. -/
theorem isSome_ite_right {x y : Option α} {c : Prop} [Decidable c] (h : x.isSome) :
    (if c then x else y).isSome ↔ (¬ c → y.isSome) := by
  rw [isSome_ite, and_iff_right fun _ => h]

/-- A conditional whose second part has a result. -/
theorem isSome_ite_left {x y : Option α} {c : Prop} [Decidable c] (h : y.isSome) :
    (if c then x else y).isSome ↔ (c → x.isSome) := by
  rw [isSome_ite, and_iff_left fun _ => h]

/-- Two computations whose results are both needed at the end. -/
theorem isSome_bind₂ {γ : Type*} {x : Option α} {y : Option β} {g : α → β → γ} :
    (x.bind fun a => y.bind fun b => some (g a b)).isSome ↔ x.isSome ∧ y.isSome := by
  cases x with
  | none => exact ⟨fun h => absurd h Bool.false_ne_true, fun h => h.1⟩
  | some a =>
    cases y with
    | none => exact ⟨fun h => absurd h Bool.false_ne_true, fun h => h.2⟩
    | some b => exact ⟨fun _ => ⟨rfl, rfl⟩, fun _ => rfl⟩

end RavenWallet
