/-
  Digits regrouped by their bits.

  Digits of width `w` are those in base `2 ^ w`, most significant first, as are
  their bits; `bitAt w ds n` is the `n`-th bit of the digits.  `window` takes a
  digit of another width out of a few of them.

  * `testBit_value`: the bits of a number are those of its digits;
  * `testBit_regroup`: the bits of a digit taken out by `window`;
  * `ext_bitAt`: digits with the same bits are the same.
-/
import RavenWallet.Lib.Radix

namespace RavenWallet

/-- The `n`-th bit of the digits `ds` of width `w`. -/
def bitAt (w : ℕ) (ds : List ℕ) (n : ℕ) : Bool := (ds.getD (n / w) 0).testBit (w - 1 - n % w)

/-- The `m` digits from `j` on. -/
def slice (ds : List ℕ) (j m : ℕ) : List ℕ := (List.range m).map fun k => ds.getD (j + k) 0

/-- `v` bits of the `m` digits from `j` on, without the last `s`. -/
def window (w : ℕ) (ds : List ℕ) (j m s v : ℕ) : ℕ := (value (2 ^ w) (slice ds j m) >>> s) % 2 ^ v

section
variable {w v m i j s t n : ℕ} {ds ds' a b : List ℕ}

theorem bitAt_cons_lt {d : ℕ} (hn : n < w) : bitAt w (d :: ds) n = d.testBit (w - 1 - n) := by
  rw [bitAt, Nat.div_eq_of_lt hn, Nat.mod_eq_of_lt hn, List.getD_cons_zero]

theorem bitAt_cons_add {d : ℕ} (hw : 0 < w) : bitAt w (d :: ds) (w + n) = bitAt w ds n := by
  rw [bitAt, bitAt, Nat.add_div_left n hw, Nat.add_mod_left, List.getD_cons_succ]

/-- The bits of a number are those of its digits. -/
theorem testBit_value (hw : 0 < w) (h : ∀ d ∈ ds, d < 2 ^ w) (hn : n < w * ds.length) :
    (value (2 ^ w) ds).testBit (w * ds.length - 1 - n) = bitAt w ds n := by
  induction ds generalizing n with
  | nil => rw [List.length_nil, Nat.mul_zero] at hn; omega
  | cons d ds ih =>
    have hlt : value (2 ^ w) ds < 2 ^ (w * ds.length) := by
      rw [Nat.pow_mul]
      exact value_lt (Nat.one_lt_two_pow (by omega)) fun x hx => h x (List.mem_cons_of_mem _ hx)
    rw [List.length_cons, Nat.mul_succ] at hn ⊢
    rw [value_cons, ← Nat.pow_mul, Nat.mul_comm d, Nat.testBit_two_pow_mul_add _ hlt]
    by_cases hnw : n < w
    · have hhigh : ¬ w * ds.length + w - 1 - n < w * ds.length := by omega
      have hsub : w * ds.length + w - 1 - n - w * ds.length = w - 1 - n := by omega
      rw [if_neg hhigh, hsub, bitAt_cons_lt hnw]
    · obtain ⟨k, rfl⟩ := Nat.exists_eq_add_of_le (Nat.le_of_not_lt hnw)
      have hlow : w * ds.length + w - 1 - (w + k) < w * ds.length := by omega
      have hsub : w * ds.length + w - 1 - (w + k) = w * ds.length - 1 - k := by omega
      rw [if_pos hlow, hsub, bitAt_cons_add hw]
      exact ih (fun x hx => h x (List.mem_cons_of_mem _ hx)) (by omega)

theorem getD_lt {d : ℕ} (hd : 0 < d) (h : ∀ x ∈ ds, x < d) (k : ℕ) : ds.getD k 0 < d := by
  rw [List.getD_eq_getElem?_getD]
  cases hk : ds[k]? with
  | none => exact hd
  | some x => exact h x (List.mem_of_getElem? hk)

theorem slice_lt (h : ∀ d ∈ ds, d < 2 ^ w) : ∀ d ∈ slice ds j m, d < 2 ^ w := by
  intro d hd
  obtain ⟨k, -, rfl⟩ := List.mem_map.1 hd
  exact getD_lt (Nat.two_pow_pos w) h _

theorem bitAt_slice (hw : 0 < w) (hn : n < w * m) :
    bitAt w (slice ds j m) n = bitAt w ds (w * j + n) := by
  have hk : n / w < m := by rwa [Nat.div_lt_iff_lt_mul hw, Nat.mul_comm]
  have hget : (slice ds j m).getD (n / w) 0 = ds.getD (j + n / w) 0 := by
    rw [List.getD_eq_getElem?_getD, slice, List.getElem?_map, List.getElem?_range hk]
    rfl
  rw [bitAt, bitAt, hget, Nat.mul_add_div hw, Nat.mul_add_mod]

theorem testBit_window (hw : 0 < w) (h : ∀ d ∈ ds, d < 2 ^ w) (hs : s + v ≤ w * m) (ht : t < v) :
    (window w ds j m s v).testBit (v - 1 - t) = bitAt w ds (w * j + (w * m - s - v + t)) := by
  have hv : v - 1 - t < v := by omega
  have hbit : s + (v - 1 - t) = w * (slice ds j m).length - 1 - (w * m - s - v + t) := by
    rw [slice, List.length_map, List.length_range]
    omega
  rw [window, Nat.testBit_mod_two_pow, decide_eq_true hv, Bool.true_and, Nat.testBit_shiftRight,
    hbit, testBit_value hw (slice_lt h), bitAt_slice hw (by omega)]
  rw [slice, List.length_map, List.length_range]
  omega

/-- The `i`-th digit of width `v` is in the digits of width `w` from that on which has its first
    bit. -/
theorem testBit_regroup (hw : 0 < w) (h : ∀ d ∈ ds, d < 2 ^ w) (hm : v * (i + 1) ≤ w * (j + m))
    (hj : j = v * i / w) (ht : t < v) :
    (window w ds j m (w * (j + m) - v * (i + 1)) v).testBit (v - 1 - t) =
      bitAt w ds (v * i + t) := by
  have hle : w * j ≤ v * i := by
    rw [hj]
    exact Nat.mul_div_le _ _
  have hend : v * i + v ≤ w * j + w * m := by
    rwa [← Nat.mul_succ, ← Nat.mul_add]
  rw [Nat.mul_add, Nat.mul_succ v i]
  have hindex : w * j + (w * m - (w * j + w * m - (v * i + v)) - v + t) = v * i + t := by omega
  rw [testBit_window hw h (by omega) ht, hindex]

/-! ## Lists with the same bits -/

theorem bitAt_append_left (hw : 0 < w) (hn : n < w * a.length) :
    bitAt w (a ++ b) n = bitAt w a n := by
  have hk : n / w < a.length := by rwa [Nat.div_lt_iff_lt_mul hw, Nat.mul_comm]
  rw [bitAt, bitAt, List.getD_eq_getElem?_getD, List.getElem?_append_left hk,
    ← List.getD_eq_getElem?_getD]

theorem bitAt_append_right (hw : 0 < w) : bitAt w (a ++ b) (w * a.length + n) = bitAt w b n := by
  rw [bitAt, bitAt, Nat.mul_add_div hw, Nat.mul_add_mod, List.getD_eq_getElem?_getD,
    List.getElem?_append_right (Nat.le_add_right _ _), Nat.add_sub_cancel_left,
    ← List.getD_eq_getElem?_getD]

/-- Digits with the same bits are the same. -/
theorem ext_bitAt (hw : 0 < w) (hlen : ds.length = ds'.length) (h : ∀ d ∈ ds, d < 2 ^ w)
    (h' : ∀ d ∈ ds', d < 2 ^ w) (hbits : ∀ n < w * ds.length, bitAt w ds n = bitAt w ds' n) :
    ds = ds' := by
  refine List.ext_getElem hlen fun k hk hk' => Nat.eq_of_testBit_eq fun i => ?_
  by_cases hi : i < w
  · have hn : w * k + (w - 1 - i) < w * ds.length := by
      have hmul := Nat.mul_le_mul_left w (Nat.succ_le_of_lt hk)
      rw [Nat.mul_succ] at hmul
      omega
    have hbit := hbits _ hn
    have hsub : w - 1 - (w - 1 - i) = i := by omega
    rw [bitAt, bitAt, Nat.mul_add_div hw, Nat.mul_add_mod, Nat.div_eq_of_lt (by omega),
      Nat.mod_eq_of_lt (by omega), hsub, Nat.add_zero, List.getD_eq_getElem?_getD,
      List.getD_eq_getElem?_getD, List.getElem?_eq_getElem hk, List.getElem?_eq_getElem hk'] at hbit
    exact hbit
  · have hpow : 2 ^ w ≤ 2 ^ i := Nat.pow_le_pow_right (by decide) (by omega)
    rw [Nat.testBit_lt_two_pow ((h _ (List.getElem_mem hk)).trans_le hpow),
      Nat.testBit_lt_two_pow ((h' _ (List.getElem_mem hk')).trans_le hpow)]

end

end RavenWallet
