/-
  Checksums that are remainders.

  The shift of a remainder is linear in exclusive or, and moves small numbers up by the
  width of a digit.  The sum of some digits shifts the remainder before it adds the next
  digit.

  * `sum_eq`: the sum of the last digits is that of zeros, plus the number they make;
  * `sum_eq_iff`: so for each sum there is one number for the last digits.
-/
import Mathlib.Data.UInt
import Mathlib.Data.List.Induction
import RavenWallet.Lib.Radix

namespace RavenWallet

/-- The shift of a remainder of `k` digits of width `w`. -/
structure RemainderShift (w k : ℕ) where
  shift : UInt32 → UInt32
  xor : ∀ a b, shift (a ^^^ b) = shift a ^^^ shift b
  small : ∀ n < 2 ^ (w * (k - 1)), shift (UInt32.ofNat n) = UInt32.ofNat (n * 2 ^ w)
  width_pos : 0 < w

namespace RemainderShift

variable {w k : ℕ} (R : RemainderShift w k)

/-- The remainder `s` after the digits `ds`. -/
def sum (s : UInt32) (ds : List ℕ) : UInt32 := ds.foldl (fun s d => R.shift s ^^^ UInt32.ofNat d) s

variable {R} {s t : UInt32} {ds es : List ℕ}

theorem sum_append : R.sum s (ds ++ es) = R.sum (R.sum s ds) es := List.foldl_append

/-- Adding a digit to a shifted number. -/
theorem ofNat_xor_digit {n d : ℕ} (hd : d < 2 ^ w) :
    UInt32.ofNat (n * 2 ^ w) ^^^ UInt32.ofNat d = UInt32.ofNat (n * 2 ^ w + d) := by
  rw [← UInt32.ofNat_xor]
  congr 1
  refine Nat.eq_of_testBit_eq fun i => ?_
  rw [Nat.testBit_xor, Nat.mul_comm, Nat.testBit_two_pow_mul_add _ hd, Nat.testBit_two_pow_mul]
  by_cases hi : i < w
  · rw [if_pos hi, decide_eq_false (by omega), Bool.false_and, Bool.false_xor]
  · have hpow : 2 ^ w ≤ 2 ^ i := Nat.pow_le_pow_right (by decide) (Nat.le_of_not_lt hi)
    rw [if_neg hi, decide_eq_true (Nat.le_of_not_lt hi), Bool.true_and,
      Nat.testBit_lt_two_pow (hd.trans_le hpow), Bool.xor_false]

/-- The sum of at most `k` digits. -/
theorem sum_eq (hlen : ds.length ≤ k) (hds : ∀ d ∈ ds, d < 2 ^ w) :
    R.sum s ds = R.shift^[ds.length] s ^^^ UInt32.ofNat (value (2 ^ w) ds) := by
  induction ds using List.reverseRecOn with
  | nil => simp [sum, value]
  | append_singleton ds d ih =>
    rw [List.length_append, List.length_singleton] at hlen
    obtain ⟨hds, hd⟩ := List.forall_mem_append.1 hds
    have hd := hd d (List.mem_singleton_self d)
    have hsmall : value (2 ^ w) ds < 2 ^ (w * (k - 1)) := by
      refine (value_lt (Nat.one_lt_two_pow R.width_pos.ne') hds).trans_le ?_
      rw [← Nat.pow_mul]
      exact Nat.pow_le_pow_right (by decide) (Nat.mul_le_mul_left w (by omega))
    rw [sum_append, ih (by omega) hds, sum, List.foldl_cons, List.foldl_nil, R.xor,
      R.small _ hsmall, UInt32.xor_assoc, ofNat_xor_digit hd, List.length_append,
      List.length_singleton, Function.iterate_succ_apply', value_concat]

/-- There is one number for the last `k` digits that makes the sum `t`. -/
theorem sum_eq_iff (hlen : ds.length = k) (hds : ∀ d ∈ ds, d < 2 ^ w) :
    R.sum s ds = t ↔ UInt32.ofNat (value (2 ^ w) ds) = R.shift^[k] s ^^^ t := by
  rw [sum_eq hlen.le hds, hlen, ← UInt32.xor_right_inj (R.shift^[k] s), ← UInt32.xor_assoc,
    UInt32.xor_self, UInt32.zero_xor]

end RemainderShift

end RavenWallet
