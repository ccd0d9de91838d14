/-
  Arithmetic of machine words that does not overflow, and sizes and offsets
  computed modulo `2 ^ 64`.
-/
import Mathlib.Data.UInt
import Mathlib.Data.List.Basic

namespace RavenWallet

theorem toNat_add_of_lt {a b : UInt64} (h : a.toNat + b.toNat < 2 ^ 64) :
    (a + b).toNat = a.toNat + b.toNat := by
  rw [UInt64.toNat_add, Nat.mod_eq_of_lt h]

theorem toNat_mul_of_lt {a b : UInt64} (h : a.toNat * b.toNat < 2 ^ 64) :
    (a * b).toNat = a.toNat * b.toNat := by
  rw [UInt64.toNat_mul, Nat.mod_eq_of_lt h]

theorem toNat_ofNat_of_lt {n : ℕ} (h : n < 2 ^ 64) : (UInt64.ofNat n).toNat = n := by
  rw [UInt64.toNat_ofNat', Nat.mod_eq_of_lt h]

theorem toNat_sub_of_le {a b : UInt64} (h : b.toNat ≤ a.toNat) :
    (a - b).toNat = a.toNat - b.toNat := UInt64.toNat_sub_of_le a b (UInt64.le_iff_toNat_le.2 h)

theorem toNat_sum_of_lt {l : List UInt64} (h : (l.map UInt64.toNat).sum < 2 ^ 64) :
    l.sum.toNat = (l.map UInt64.toNat).sum := by
  induction l with
  | nil => rfl
  | cons a l ih =>
    rw [List.map_cons, List.sum_cons] at h ⊢
    have hl := ih (by omega)
    rw [List.sum_cons, toNat_add_of_lt (by omega), hl]

theorem forall_uint8 {P : UInt8 → Prop} (h : ∀ n : Fin 256, P (UInt8.ofNat n)) (c : UInt8) :
    P c := by
  have hc := h ⟨c.toNat, c.toNat_lt⟩
  rwa [UInt8.ofNat_toNat] at hc

/-! ## Sizes -/

/-- A size or an offset as it is computed. -/
def wrap64 (n : ℕ) : ℕ := n % 2 ^ 64

def SIZE_MAX : ℕ := 2 ^ 64 - 1

/-- No object is larger than this. -/
def PTRDIFF_MAX : ℕ := 2 ^ 63 - 1

theorem wrap64_of_lt {n : ℕ} (h : n < 2 ^ 64) : wrap64 n = n := Nat.mod_eq_of_lt h

theorem wrap64_le (n : ℕ) : wrap64 n ≤ n := Nat.mod_le _ _

end RavenWallet
