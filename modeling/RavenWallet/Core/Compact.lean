/-
  The codec of compact targets (`getCompact` and `setCompact` of BRInt.h).

  `truncated` is a number cut to its top bytes: to three of them, or to two where the
  first one has its highest bit set.

  * `expand_compact` and `compact_truncated`: what is read back, and that it has the
    compact form of the number;
  * `getCompact_iff`: the numbers whose compact forms are as they should be.
-/
import RavenWallet.Core.DarkGravity

namespace RavenWallet

/-! ## The top bytes -/

def byteLength (n : ℕ) : ℕ := (n.size + 7) / 8

def leadingByte (n : ℕ) : ℕ := n / 256 ^ (byteLength n - 1)

/-- How many bytes are kept. -/
def topBytes (n : ℕ) : ℕ := if 0x80 ≤ leadingByte n then 2 else 3

def truncated (n : ℕ) : ℕ :=
  n / 256 ^ (byteLength n - topBytes n) * 256 ^ (byteLength n - topBytes n)

theorem truncated_le (n : ℕ) : truncated n ≤ n := Nat.div_mul_le_self n _

/-- The bytes that are dropped are those beyond three of the compact form. -/
theorem byteLength_sub {n : ℕ} (h : n ≠ 0) : byteLength n - topBytes n = compactSize n - 3 := by
  have hpos : 0 < n.size := Nat.size_pos.2 (Nat.pos_of_ne_zero h)
  have hleading : 0x80 ≤ leadingByte n ↔ n.size % 8 = 0 := by
    rw [leadingByte, Nat.le_div_iff_mul_le (Nat.pow_pos (by decide)),
      show 0x80 * 256 ^ (byteLength n - 1) = 2 ^ (7 + 8 * (byteLength n - 1)) by
        rw [Nat.pow_add, Nat.pow_mul], ← Nat.lt_size, byteLength]
    omega
  rw [topBytes, compactSize]
  simp only [hleading, byteLength]
  split_ifs
  · omega
  · omega

theorem truncated_eq {n : ℕ} (h : n ≠ 0) :
    truncated n = n / 256 ^ (compactSize n - 3) * 256 ^ (compactSize n - 3) := by
  rw [truncated, byteLength_sub h]

/-- Some byte is kept. -/
theorem div_pos_of_compactSize {n : ℕ} (h : n ≠ 0) : n / 256 ^ (compactSize n - 3) ≠ 0 := by
  have hpos : 0 < n.size := Nat.size_pos.2 (Nat.pos_of_ne_zero h)
  have hle : 2 ^ (8 * (compactSize n - 3)) ≤ n := by
    refine Nat.lt_size.1 ?_
    rw [compactSize]
    omega
  rw [Nat.pow_mul] at hle
  exact (Nat.div_pos hle (Nat.pow_pos (by decide))).ne'

theorem truncated_ne_zero {n : ℕ} (h : n ≠ 0) : truncated n ≠ 0 := by
  rw [truncated_eq h]
  exact Nat.mul_ne_zero (div_pos_of_compactSize h) (Nat.pow_pos (by decide)).ne'

/-! ## Compact forms -/

/-- The mantissa of a compact form, and its size. -/
theorem compact_parts {n : ℕ} (h : n ≠ 0) :
    compact n / 2 ^ 24 = compactSize n ∧ compact n % 2 ^ 23 = mantissa n (compactSize n) := by
  have hlow := mantissa_lt (lt_compactSize n)
  rw [compact, if_neg h]
  omega

/-- **What is read back** is the number, cut to its top bytes. -/
theorem expand_compact (n : ℕ) : expand (compact n) = truncated n := by
  by_cases h : n = 0
  · subst h
    rfl
  obtain ⟨hsize, hword⟩ := compact_parts h
  rw [expand, hsize, hword, mantissa, truncated_eq h]
  split_ifs with h3
  · rw [Nat.mul_div_cancel _ (Nat.pow_pos (by decide)), Nat.sub_eq_zero_of_le h3, Nat.pow_zero,
      Nat.div_one, Nat.mul_one]
  · rfl

/-- **The top bytes** have the compact form of the number. -/
theorem compact_truncated (n : ℕ) : compact (truncated n) = compact n := by
  by_cases h : n = 0
  · subst h
    rfl
  have ht := truncated_ne_zero h
  obtain ⟨k, hk⟩ : ∃ k, compactSize n - 3 = k := ⟨_, rfl⟩
  have hq := div_pos_of_compactSize h
  have htop := truncated_eq h
  rw [hk] at hq htop
  have hpow : 256 ^ k = 2 ^ (8 * k) := (Nat.pow_mul 2 8 k).symm
  have hquotient : truncated n / 256 ^ k = n / 256 ^ k := by
    rw [htop, Nat.mul_div_cancel _ (Nat.pow_pos (by decide))]
  have hsizes : (truncated n).size = n.size := by
    have hsize := Limbs.size_limb (8 * k) (congrArg (n / ·) hpow.symm) hq
    rw [Limbs.size_limb (8 * k) ((congrArg (truncated n / ·) hpow.symm).trans hquotient) hq,
      ← hsize]
  have hcompact : compactSize (truncated n) = compactSize n := by
    rw [compactSize, compactSize, hsizes]
  have hmantissa : mantissa (truncated n) (compactSize n) = mantissa n (compactSize n) := by
    unfold mantissa
    split_ifs with h3
    · rw [htop, ← hk, Nat.sub_eq_zero_of_le h3, Nat.pow_zero, Nat.div_one, Nat.mul_one]
    · rw [hk, hquotient]
  rw [compact, compact, if_neg ht, if_neg h, hcompact, hmantissa]

theorem compact_lt_33 {n : ℕ} (h : n < 2 ^ 255) : compact n < 33 * 2 ^ 24 := by
  have hsize : n.size ≤ 255 := Nat.size_le.2 h
  have hmantissa := mantissa_lt (lt_compactSize n)
  rw [compact]
  split_ifs
  · decide
  · have hle : compactSize n ≤ 32 := by
      rw [compactSize]
      omega
    omega

namespace Limbs

theorem getCompact_of_lt {x : UInt256} (h : x.toNat < 2 ^ 255) :
    ∃ c, getCompact x = some c ∧ c.toNat = compact x.toNat ∧
      (setCompact c.toInt32).toNat = truncated x.toNat := by
  have hlt := compact_lt_33 h
  have hc : (UInt32.ofNat (compact x.toNat)).toNat = compact x.toNat := by
    rw [UInt32.toNat_ofNat']
    omega
  refine ⟨_, (getCompact_eq x).trans (BRInt.getCompact_eq h), hc, ?_⟩
  rw [setCompact_eq, BRInt.setCompact_toNat (by rwa [hc]), hc, expand_compact]

theorem shifted_byte (w : UInt32) :
    (w <<< 24) &&& 0x00800000 = 0 ∧ (w <<< 24) &&& ~~~(0x007fffff : UInt32) = w <<< 24 := by
  have hbytes : ∀ k < 256, UInt32.ofNat (2 ^ 24 * k) &&& 0x00800000 = 0 ∧
      UInt32.ofNat (2 ^ 24 * k) &&& ~~~0x007fffff = UInt32.ofNat (2 ^ 24 * k) := by
    decide +kernel
  have hshift : w <<< 24 = UInt32.ofNat (2 ^ 24 * (w.toNat % 256)) := by
    refine UInt32.toNat_inj.1 ?_
    rw [UInt32.toNat_shiftLeft, UInt32.toNat_ofNat', Nat.shiftLeft_eq]
    show w.toNat * 2 ^ 24 % 2 ^ 32 = _
    omega
  rw [hshift]
  exact hbytes _ (Nat.mod_lt _ (by decide))

/-- Of a number of 256 bits, only the low byte is looked at. -/
theorem getCompact_of_large {x : UInt256} (h : 2 ^ 255 ≤ x.toNat) {c : UInt32}
    (hc : getCompact x = some c) : c = 0 := by
  obtain ⟨hsign, hmask⟩ := shifted_byte (BRInt.low32 x)
  have hsize : x.toNat.size = 256 := le_antisymm (Nat.size_le.2 x.isLt) (Nat.lt_size.2 h)
  have hbits : ((BRInt.bits x).toNat + 7) / 8 = 0 := by
    rw [BRInt.bits, hsize]
    rfl
  rw [getCompact_eq, BRInt.getCompact] at hc
  have h24 : UInt32.ofNat (8 * (3 - 0)) = 24 := rfl
  simp only [hbits, Nat.zero_le, if_true, h24, hsign, ne_eq, not_true, if_false, hmask] at hc
  split_ifs at hc with hzero
  rw [hzero.1] at hc
  exact (Option.some.inj hc).symm

/-- **The codec** is right for the numbers of less than 256 bits: the number of bits, which is
    returned as a byte, is 0 for the others. -/
theorem getCompact_iff (x : UInt256) :
    (∃ c, getCompact x = some c ∧ (setCompact c.toInt32).toNat = truncated x.toNat ∧
      (setCompact c.toInt32).toNat ≤ x.toNat ∧
      (∀ y : UInt256, y ≤ x → ∃ d, getCompact y = some d ∧ d ≤ c) ∧
      getCompact (setCompact c.toInt32) = some c) ↔ x.toNat < 2 ^ 255 := by
  constructor
  · rintro ⟨c, hc, hexpanded, -⟩
    by_contra hlarge
    have hzero := getCompact_of_large (Nat.le_of_not_lt hlarge) hc
    rw [hzero] at hexpanded
    refine truncated_ne_zero (by omega : x.toNat ≠ 0) (hexpanded.symm.trans ?_)
    decide
  · intro h
    obtain ⟨c, hc, hcompact, hexpanded⟩ := getCompact_of_lt h
    refine ⟨c, hc, hexpanded, hexpanded ▸ truncated_le _, fun y hy => ?_, ?_⟩
    · have hle : y.toNat ≤ x.toNat := BitVec.le_def.1 hy
      obtain ⟨d, hd, hcompact', -⟩ := getCompact_of_lt (hle.trans_lt h)
      refine ⟨d, hd, UInt32.le_iff_toNat_le.2 ?_⟩
      rw [hcompact, hcompact']
      exact compact_mono hle
    · have hlt := (truncated_le x.toNat).trans_lt h
      rw [← hexpanded] at hlt
      obtain ⟨d, hd, hcompact', -⟩ := getCompact_of_lt hlt
      rw [hd, Option.some.injEq]
      refine UInt32.toNat_inj.1 ?_
      rw [hcompact', hexpanded, compact_truncated, hcompact]

/-- The assertion on the mantissa fails for the number `2 ^ 255 + 1`. -/
theorem not_getCompact : getCompact (1#256 <<< 255 ||| 1#256) = none := by
  decide +kernel

end Limbs

end RavenWallet
