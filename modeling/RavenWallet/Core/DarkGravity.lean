/-
  Dark Gravity Wave over the integers (BRMerkleBlock.c).

  `Limbs.darkGravityWaveTarget` is the function with the 256-bit arithmetic limb by limb;
  `compact` and `expand` are the compact form of a target, and what it stands for, over
  the integers.

  * `divide_toNat`, `getCompact_eq` and `setCompact_toNat`: the arithmetic is exact where
    it is used; `compact_mono`: compact forms are ordered as targets are;
  * `pastTargets_round` and `pastTargets_sum`: what the loop has summed up;
  * `darkGravityWaveTarget_exact`: the target of a chain of 180 blocks.
-/
import Mathlib.Algebra.Order.BigOperators.Group.List
import Mathlib.Data.Nat.Bitwise
import Mathlib.Tactic.NormNum
import RavenWallet.Core.Limbs

namespace RavenWallet

namespace BRInt

/-! ## Division -/

theorem size_lt {a : UInt256} {n : ℕ} (h : a.toNat < 2 ^ n) (hn : n < 256) :
    (bits a).toNat = a.toNat.size := by
  have hsize : a.toNat.size ≤ n := Nat.size_le.2 h
  rw [bits, UInt8.toNat_ofNat', Nat.mod_eq_of_lt (by omega)]

theorem toNat_setBit {r : UInt256} {n : ℕ} (hn : n < 256) (hr : r.toNat % 2 ^ (n + 1) = 0) :
    (r ||| 1#256 <<< n).toNat = r.toNat + 2 ^ n := by
  have hone : (1#256 <<< n).toNat = 2 ^ n := by
    rw [BitVec.toNat_shiftLeft, BitVec.toNat_ofNat, Nat.shiftLeft_eq]
    exact (congrArg (· % 2 ^ 256) (Nat.one_mul _)).trans
      (Nat.mod_eq_of_lt (Nat.pow_lt_pow_right (by decide) hn))
  have hdvd : 2 ^ (n + 1) * (r.toNat / 2 ^ (n + 1)) = r.toNat :=
    Nat.mul_div_cancel' (Nat.dvd_of_mod_eq_zero hr)
  have hor := Nat.two_pow_add_eq_or_of_lt (Nat.pow_lt_pow_right (by decide) (Nat.lt_succ_self n))
    (r.toNat / 2 ^ (n + 1))
  rw [hdvd] at hor
  rw [BitVec.toNat_or, hone, hor]

/-- From the shift `n - 1` down, the loop divides by `b` what is left, and sets the bits below
    `n`. -/
theorem divideLoop_toNat {n b : ℕ} {num div r : UInt256} (hb : 0 < b)
    (hdiv : 0 < n → div.toNat = b * 2 ^ (n - 1)) (hnum : num.toNat < b * 2 ^ n) (hn : n ≤ 256)
    (hr : r.toNat % 2 ^ n = 0) :
    (divideLoop n num div r).toNat = r.toNat + num.toNat / b := by
  induction n generalizing num div r with
  | zero =>
    rw [Nat.pow_zero, Nat.mul_one] at hnum
    rw [divideLoop, Nat.div_eq_of_lt hnum, Nat.add_zero]
  | succ n ih =>
    have hdiv : div.toNat = b * 2 ^ n := hdiv (Nat.succ_pos n)
    have hnext : 0 < n → (shiftRight div 1).toNat = b * 2 ^ (n - 1) := by
      intro hn
      obtain ⟨m, rfl⟩ : ∃ m, n = m + 1 := ⟨n - 1, by omega⟩
      rw [shiftRight, BitVec.toNat_ushiftRight, hdiv, Nat.shiftRight_eq_div_pow, Nat.pow_succ,
        ← Nat.mul_assoc]
      exact Nat.mul_div_cancel _ (by decide)
    have hlow : r.toNat % 2 ^ n = 0 :=
      Nat.mod_eq_zero_of_dvd ((Nat.pow_dvd_pow 2 (Nat.le_succ n)).trans (Nat.dvd_of_mod_eq_zero hr))
    rw [divideLoop]
    split_ifs with hge
    · have hle : b * 2 ^ n ≤ num.toNat := hdiv ▸ BitVec.le_def.1 hge
      have hsub : (num - div).toNat = num.toNat - b * 2 ^ n := by
        rw [BitVec.toNat_sub_of_le hge, hdiv]
      have hbit := toNat_setBit (by omega) hr
      have hrest : num.toNat / b = 2 ^ n + (num.toNat - b * 2 ^ n) / b := by
        conv_lhs => rw [← Nat.sub_add_cancel hle]
        rw [Nat.add_mul_div_left _ _ hb, Nat.add_comm]
      rw [ih hnext ?_ (by omega) ?_, hsub, hbit, hrest, Nat.add_assoc]
      · rw [hsub]
        rw [Nat.pow_succ, ← Nat.mul_assoc] at hnum
        omega
      · rw [hbit, Nat.add_mod, hlow, Nat.mod_self]
        rfl
    · have hlt : num.toNat < b * 2 ^ n := hdiv ▸ BitVec.lt_def.1 (BitVec.not_le.1 hge)
      exact ih hnext hlt (by omega) hlow

/-- The division is exact for numbers of less than 256 bits. -/
theorem divide_toNat {a b : UInt256} (ha : a.toNat < 2 ^ 255) (hb : b.toNat < 2 ^ 255)
    (h0 : b.toNat ≠ 0) : ∃ q, divide a b = some q ∧ q.toNat = a.toNat / b.toNat := by
  have hbits_a := size_lt ha (by decide)
  have hbits_b := size_lt hb (by decide)
  have hsize_a : a.toNat < 2 ^ a.toNat.size := Nat.lt_size_self _
  have hsize_b : b.toNat < 2 ^ b.toNat.size := Nat.lt_size_self _
  have hle_a : a.toNat.size ≤ 255 := Nat.size_le.2 ha
  obtain ⟨s, hs⟩ : ∃ s, b.toNat.size = s + 1 :=
    Nat.exists_eq_succ_of_ne_zero (by rwa [Ne, Nat.size_eq_zero])
  have hlow : 2 ^ s ≤ b.toNat := Nat.lt_size.1 (by omega)
  have hne : bits b ≠ 0 := by
    intro hzero
    rw [hzero, hs] at hbits_b
    cases hbits_b
  unfold divide
  dsimp only
  rw [if_neg hne]
  split_ifs with hgt
  · refine ⟨0, rfl, ?_⟩
    have hlt : a.toNat.size < b.toNat.size := by
      rw [← hbits_a, ← hbits_b]
      exact UInt8.lt_iff_toNat_lt.1 hgt
    have hab : a.toNat < b.toNat :=
      (hsize_a.trans_le (Nat.pow_le_pow_right (by decide) (by omega))).trans_le hlow
    exact (Nat.div_eq_of_lt hab).symm
  · have hle : bits b ≤ bits a := UInt8.not_lt.1 hgt
    have hshift : (bits a - bits b).toNat = a.toNat.size - b.toNat.size := by
      rw [UInt8.toNat_sub_of_le _ _ hle, hbits_a, hbits_b]
    have hsizes : b.toNat.size ≤ a.toNat.size := by
      rw [← hbits_a, ← hbits_b]
      exact UInt8.le_iff_toNat_le.1 hle
    have hpow : 2 ^ (b.toNat.size + (a.toNat.size - b.toNat.size)) = 2 ^ a.toNat.size := by
      rw [Nat.add_sub_cancel' hsizes]
    have hlt : b.toNat * 2 ^ (a.toNat.size - b.toNat.size) < 2 ^ a.toNat.size := by
      rw [← hpow, Nat.pow_add]
      exact Nat.mul_lt_mul_of_pos_right hsize_b (Nat.two_pow_pos _)
    have h255 : 2 ^ a.toNat.size ≤ 2 ^ 255 := Nat.pow_le_pow_right (by decide) hle_a
    have hdiv : (shiftLeft b (bits a - bits b)).toNat =
        b.toNat * 2 ^ (a.toNat.size - b.toNat.size) := by
      rw [shiftLeft, BitVec.toNat_shiftLeft, hshift, Nat.shiftLeft_eq, Nat.mod_eq_of_lt (by omega)]
    have hnum : a.toNat < b.toNat * 2 ^ (a.toNat.size - b.toNat.size + 1) := by
      refine hsize_a.trans_le ?_
      rw [← hpow, hs, Nat.add_right_comm, Nat.add_assoc, Nat.pow_add]
      exact Nat.mul_le_mul_right _ hlow
    refine ⟨_, rfl, ?_⟩
    rw [hshift, divideLoop_toNat (Nat.pos_of_ne_zero h0) (fun _ => hdiv) hnum (by omega)
      (Nat.zero_mod _)]
    exact Nat.zero_add _

theorem multiplyThis32_toNat {a : UInt256} {b : UInt32} (h : a.toNat * b.toNat < 2 ^ 256) :
    (multiplyThis32 a b).toNat = a.toNat * b.toNat := by
  have hb : b.toNat < 2 ^ 256 := b.toNat_lt.trans (by decide)
  rw [multiplyThis32, BitVec.toNat_mul, BitVec.toNat_ofNat, Nat.mod_eq_of_lt hb, Nat.mod_eq_of_lt h]

end BRInt

/-! ## Compact forms -/

/-- The bytes that a target takes, with a clear highest bit. -/
def compactSize (n : ℕ) : ℕ := n.size / 8 + 1

/-- The three highest of `s` bytes, or as many as there are with zeros behind them. -/
def mantissa (n s : ℕ) : ℕ := if s ≤ 3 then n * 256 ^ (3 - s) else n / 256 ^ (s - 3)

/-- The compact form of a target: its three highest bytes, and its size. -/
def compact (n : ℕ) : ℕ := if n = 0 then 0 else mantissa n (compactSize n) + 2 ^ 24 * compactSize n

/-- The target that a compact form without a sign stands for. -/
def expand (c : ℕ) : ℕ :=
  if c / 2 ^ 24 ≤ 3 then c % 2 ^ 23 / 256 ^ (3 - c / 2 ^ 24)
  else c % 2 ^ 23 * 256 ^ (c / 2 ^ 24 - 3)

theorem lt_compactSize (n : ℕ) : 2 * n < 256 ^ compactSize n := by
  have hlt : n < 2 ^ n.size := Nat.lt_size_self n
  have hle : n.size + 1 ≤ 8 * compactSize n := by
    rw [compactSize]
    omega
  calc 2 * n < 2 * 2 ^ n.size := Nat.mul_lt_mul_of_pos_left hlt (by decide)
    _ = 2 ^ (n.size + 1) := by rw [Nat.pow_succ, Nat.mul_comm]
    _ ≤ 2 ^ (8 * compactSize n) := Nat.pow_le_pow_right (by decide) hle
    _ = 256 ^ compactSize n := by rw [Nat.pow_mul]

theorem pow_low {s : ℕ} (hs : s ≤ 3) : 256 ^ s * 256 ^ (3 - s) = 2 ^ 24 := by
  rw [← Nat.pow_add, Nat.add_sub_cancel' hs]
  rfl

theorem pow_high {s : ℕ} (hs : 3 < s) : 2 ^ 24 * 256 ^ (s - 3) = 256 ^ s := by
  rw [show 2 ^ 24 = 256 ^ 3 from rfl, ← Nat.pow_add, Nat.add_sub_cancel' hs.le]

theorem mantissa_lt {k n s : ℕ} (h : k * n < 256 ^ s) : k * mantissa n s < 2 ^ 24 := by
  unfold mantissa
  split_ifs with hs
  · rw [← pow_low hs, ← Nat.mul_assoc]
    exact Nat.mul_lt_mul_of_pos_right h (Nat.pow_pos (by decide))
  · refine Nat.lt_of_le_of_lt (Nat.mul_div_le_mul_div_assoc k n _) ?_
    rwa [Nat.div_lt_iff_lt_mul (Nat.pow_pos (by decide)), pow_high (Nat.lt_of_not_le hs)]

theorem le_mantissa {n s : ℕ} (h : 256 ^ s ≤ 2 * n) : 2 ^ 23 ≤ mantissa n s := by
  unfold mantissa
  split_ifs with hs
  · have hle : 256 ^ s * 256 ^ (3 - s) ≤ 2 * n * 256 ^ (3 - s) := Nat.mul_le_mul_right _ h
    rw [pow_low hs, Nat.mul_assoc] at hle
    omega
  · rw [← pow_high (Nat.lt_of_not_le hs)] at h
    rw [Nat.le_div_iff_mul_le (Nat.pow_pos (by decide))]
    omega

/-- One byte more, one byte less of the number. -/
theorem mantissa_succ (n s : ℕ) : mantissa n s / 256 = mantissa n (s + 1) := by
  unfold mantissa
  rcases Nat.lt_trichotomy s 3 with hs | rfl | hs
  · obtain ⟨k, hk⟩ : ∃ k, 3 - s = k + 1 := ⟨2 - s, by omega⟩
    rw [if_pos hs.le, if_pos (Nat.succ_le_of_lt hs), hk, show 3 - (s + 1) = k by omega,
      Nat.pow_succ, ← Nat.mul_assoc]
    exact Nat.mul_div_cancel _ (by decide)
  · simp
  · rw [if_neg (by omega), if_neg (by omega), Nat.div_div_eq_div_mul, ← Nat.pow_succ,
      show (s - 3).succ = s + 1 - 3 by omega]

theorem mantissa_mono {m n : ℕ} (h : m ≤ n) (s : ℕ) : mantissa m s ≤ mantissa n s := by
  unfold mantissa
  split_ifs
  · exact Nat.mul_le_mul_right _ h
  · exact Nat.div_le_div_right h

/-- Compact forms are in the order of the targets. -/
theorem compact_mono {m n : ℕ} (h : m ≤ n) : compact m ≤ compact n := by
  unfold compact
  split_ifs with hm hn hn
  · exact Nat.le_refl 0
  · exact Nat.zero_le _
  · omega
  · have hsize : compactSize m ≤ compactSize n :=
      Nat.succ_le_succ (Nat.div_le_div_right (Nat.size_le_size h))
    rcases Nat.lt_or_eq_of_le hsize with hlt | heq
    · have hlow := mantissa_lt (lt_compactSize m)
      omega
    · rw [heq]
      exact Nat.add_le_add_right (mantissa_mono h _) _

theorem compact_min (m n : ℕ) : compact (min m n) = min (compact m) (compact n) :=
  Monotone.map_min (f := compact) fun _ _ h => compact_mono h

namespace BRInt

/-- The sign bit of the mantissa is set if and only if the target fills its bytes. -/
theorem compactSize_cases {n : ℕ} (h0 : n ≠ 0) :
    (mantissa n ((n.size + 7) / 8) < 2 ^ 23 ∧ compactSize n = (n.size + 7) / 8) ∨
      (2 ^ 23 ≤ mantissa n ((n.size + 7) / 8) ∧ compactSize n = (n.size + 7) / 8 + 1) := by
  obtain ⟨b, hb⟩ : ∃ b, n.size = b + 1 :=
    Nat.exists_eq_succ_of_ne_zero (by rwa [Ne, Nat.size_eq_zero])
  by_cases hfull : n.size % 8 = 0
  · have hsize : compactSize n = (n.size + 7) / 8 + 1 := by
      rw [compactSize]
      omega
    refine .inr ⟨le_mantissa ?_, hsize⟩
    have hlow : 2 ^ b ≤ n := Nat.lt_size.1 (by omega)
    calc 256 ^ ((n.size + 7) / 8) = 2 ^ (8 * ((n.size + 7) / 8)) := (Nat.pow_mul 2 8 _).symm
      _ = 2 ^ (b + 1) := by
        congr 1
        omega
      _ ≤ 2 * n := by
        rw [Nat.pow_succ, Nat.mul_comm]
        exact Nat.mul_le_mul_left 2 hlow
  · have hsize : compactSize n = (n.size + 7) / 8 := by
      rw [compactSize]
      omega
    have hlow := mantissa_lt (lt_compactSize n)
    rw [hsize] at hlow
    exact .inl ⟨by omega, hsize⟩

/-- What is shifted and cut to 32 bits is the mantissa. -/
theorem compactWord_toNat {x : UInt256} {s : ℕ} (hx : x.toNat < 256 ^ s) (hs : s ≤ 32) :
    (if s ≤ 3 then low32 x <<< UInt32.ofNat (8 * (3 - s))
      else low32 (shiftRight x (UInt8.ofNat (8 * (s - 3))))).toNat = mantissa x.toNat s := by
  have hlt : mantissa x.toNat s < 2 ^ 24 := by
    have h := @mantissa_lt 1 x.toNat s (by rwa [Nat.one_mul])
    rwa [Nat.one_mul] at h
  unfold mantissa at hlt ⊢
  split_ifs at hlt ⊢ with h3
  · have hshift : (UInt32.ofNat (8 * (3 - s))).toNat % 32 = 8 * (3 - s) := by
      rw [UInt32.toNat_ofNat']
      omega
    have hpow : 2 ^ (8 * (3 - s)) = 256 ^ (3 - s) := Nat.pow_mul 2 8 _
    have hlow : x.toNat < 2 ^ 32 :=
      hx.trans_le ((Nat.pow_le_pow_right (by decide) h3).trans (by decide))
    rw [UInt32.toNat_shiftLeft, hshift, low32, UInt32.toNat_ofNat', Nat.mod_eq_of_lt hlow,
      Nat.shiftLeft_eq, hpow, Nat.mod_eq_of_lt (by omega)]
  · have hshift : (UInt8.ofNat (8 * (s - 3))).toNat = 8 * (s - 3) := by
      rw [UInt8.toNat_ofNat']
      omega
    have hpow : 2 ^ (8 * (s - 3)) = 256 ^ (s - 3) := Nat.pow_mul 2 8 _
    rw [low32, UInt32.toNat_ofNat', shiftRight, BitVec.toNat_ushiftRight, hshift,
      Nat.shiftRight_eq_div_pow, hpow, Nat.mod_eq_of_lt (by omega)]

theorem sign_iff {c : UInt32} (h : c.toNat < 2 ^ 24) : c &&& 0x00800000 ≠ 0 ↔ 2 ^ 23 ≤ c.toNat := by
  have hand : (c &&& 0x00800000).toNat = (c.toNat.testBit 23).toNat * 2 ^ 23 := by
    rw [UInt32.toNat_and]
    exact Nat.and_two_pow c.toNat 23
  rw [Ne, ← UInt32.toNat_inj, hand, Nat.testBit_eq_decide_div_mod_eq]
  by_cases hle : 2 ^ 23 ≤ c.toNat
  · have hbit : c.toNat / 2 ^ 23 % 2 = 1 := by omega
    rw [decide_eq_true hbit]
    exact ⟨fun _ => hle, fun _ => by decide⟩
  · have hbit : ¬ c.toNat / 2 ^ 23 % 2 = 1 := by omega
    rw [decide_eq_false hbit]
    exact ⟨fun hne => absurd rfl hne, fun h => absurd h hle⟩

theorem no_sign {c : UInt32} (h : c.toNat < 2 ^ 23) : c &&& ~~~0x007fffff = 0 := by
  refine UInt32.toNat_inj.1 (Nat.eq_of_testBit_eq fun i => ?_)
  rw [UInt32.toNat_and]
  show (c.toNat &&& 0xff800000).testBit i = (0).testBit i
  rw [Nat.testBit_and, Nat.zero_testBit]
  rcases Nat.lt_or_ge i 23 with hi | hi
  · have hmask : ∀ i < 23, Nat.testBit 0xff800000 i = false := by decide
    rw [hmask i hi, Bool.and_false]
  · rw [Nat.testBit_lt_two_pow (h.trans_le (Nat.pow_le_pow_right (by decide) hi)), Bool.false_and]

theorem join_toNat {c : UInt32} {s : ℕ} (h : c.toNat < 2 ^ 23) (hs : s < 128) :
    (c ||| UInt32.ofNat s <<< 24).toNat = c.toNat + 2 ^ 24 * s := by
  have hshift : (UInt32.ofNat s <<< 24).toNat = 2 ^ 24 * s := by
    rw [UInt32.toNat_shiftLeft, UInt32.toNat_ofNat', Nat.shiftLeft_eq]
    show s % 2 ^ 32 * 2 ^ 24 % 2 ^ 32 = _
    omega
  rw [UInt32.toNat_or, hshift, Nat.or_comm, ← Nat.two_pow_add_eq_or_of_lt (by omega), Nat.add_comm]

/-- The compact form is computed exactly for targets of less than 256 bits. -/
theorem getCompact_eq {x : UInt256} (h : x.toNat < 2 ^ 255) :
    getCompact x = some (UInt32.ofNat (compact x.toNat)) := by
  by_cases h0 : x.toNat = 0
  · have hzero : x = 0#256 := BitVec.eq_of_toNat_eq h0
    subst hzero
    decide
  have hsize : x.toNat.size ≤ 255 := Nat.size_le.2 h
  have hfits : x.toNat < 256 ^ ((x.toNat.size + 7) / 8) := by
    have hpow : 256 ^ ((x.toNat.size + 7) / 8) = 2 ^ (8 * ((x.toNat.size + 7) / 8)) :=
      (Nat.pow_mul 2 8 _).symm
    rw [hpow]
    exact (Nat.lt_size_self _).trans_le (Nat.pow_le_pow_right (by decide) (by omega))
  have hword := compactWord_toNat hfits (by omega)
  have hlt : mantissa x.toNat ((x.toNat.size + 7) / 8) < 2 ^ 24 := by
    have h := @mantissa_lt 1 x.toNat _ (by rwa [Nat.one_mul])
    rwa [Nat.one_mul] at h
  unfold getCompact
  rw [size_lt h (by decide)]
  dsimp only
  generalize (if (x.toNat.size + 7) / 8 ≤ 3 then
      low32 x <<< UInt32.ofNat (8 * (3 - (x.toNat.size + 7) / 8))
    else low32 (shiftRight x (UInt8.ofNat (8 * ((x.toNat.size + 7) / 8 - 3))))) = word at hword ⊢
  rw [← hword] at hlt
  have hresult : ∀ (c : UInt32) (s : ℕ), c.toNat = mantissa x.toNat s → c.toNat < 2 ^ 23 →
      compactSize x.toNat = s → (if c &&& ~~~0x007fffff = 0 ∧ s < 256 then
        some (c ||| UInt32.ofNat s <<< 24) else none) = some (UInt32.ofNat (compact x.toNat)) := by
    intro c s hc hlow hs
    have hle : s ≤ 32 := by
      rw [← hs, compactSize]
      omega
    rw [if_pos ⟨no_sign hlow, by omega⟩, Option.some.injEq]
    refine UInt32.toNat_inj.1 ?_
    rw [join_toNat hlow (by omega), UInt32.toNat_ofNat', compact, if_neg h0, hs, ← hc]
    omega
  rcases compactSize_cases h0 with ⟨hlow, hs⟩ | ⟨hhigh, hs⟩
  · rw [← hword] at hlow
    have hsign : ¬ word &&& 0x00800000 ≠ 0 := fun hne =>
      Nat.not_lt.2 ((sign_iff hlt).1 hne) hlow
    rw [if_neg hsign]
    exact hresult word _ hword hlow hs
  · rw [← hword] at hhigh
    have hshift : (word >>> 8).toNat = mantissa x.toNat ((x.toNat.size + 7) / 8 + 1) := by
      rw [UInt32.toNat_shiftRight, hword, ← mantissa_succ, Nat.shiftRight_eq_div_pow]
      rfl
    rw [if_pos ((sign_iff hlt).2 hhigh)]
    refine hresult (word >>> 8) _ hshift ?_ hs
    rw [hshift, ← mantissa_succ, ← hword]
    omega

theorem toInt_shiftRight_24 {c : UInt32} (h : c.toNat < 2 ^ 31) :
    (c.toInt32 >>> 24).toInt = ((c.toNat / 2 ^ 24 : ℕ) : ℤ) := by
  have hint : c.toBitVec.toInt = c.toNat := by
    rw [BitVec.toInt_eq_toNat_of_lt]
    · rfl
    · show 2 * c.toNat < _
      omega
  show (c.toBitVec.sshiftRight 24).toInt = _
  rw [BitVec.toInt_sshiftRight, hint, Int.shiftRight_eq_div_pow]
  norm_cast

/-- A compact form of a target of less than 256 bits is expanded exactly. -/
theorem setCompact_toNat {c : UInt32} (h : c.toNat < 33 * 2 ^ 24) :
    (setCompact c.toInt32).toNat = expand c.toNat := by
  have hsize := toInt_shiftRight_24 (c := c) (by omega)
  have hword : (BitVec.ofNat 256 (c &&& 0x007fffff).toNat).toNat = c.toNat % 2 ^ 23 := by
    have hand : (c &&& 0x007fffff).toNat = c.toNat % 2 ^ 23 := by
      rw [UInt32.toNat_and]
      exact Nat.and_two_pow_sub_one_eq_mod c.toNat 23
    rw [BitVec.toNat_ofNat, hand]
    omega
  obtain ⟨s, hs⟩ : ∃ s, c.toNat / 2 ^ 24 = s := ⟨_, rfl⟩
  have hle : s ≤ 32 := by omega
  have h8 : ∀ n : ℕ, n < 32 → (UInt8.ofInt (8 * (n : ℤ))).toNat = 8 * n := by decide
  unfold setCompact expand
  dsimp only
  rw [hsize, hs]
  by_cases h3 : s ≤ 3
  · have hshift : (8 : ℤ) * (3 - (s : ℤ)) = 8 * ((3 - s : ℕ) : ℤ) := by omega
    rw [if_pos (by omega), if_pos h3, hshift, shiftRight, BitVec.toNat_ushiftRight, h8 _ (by omega),
      Nat.shiftRight_eq_div_pow, Nat.pow_mul]
    exact congrArg (· / _) hword
  · have hshift : (8 : ℤ) * ((s : ℤ) - 3) = 8 * ((s - 3 : ℕ) : ℤ) := by omega
    have hpow : 256 ^ (s - 3) ≤ 256 ^ 29 := Nat.pow_le_pow_right (by decide) (by omega)
    have hlow : c.toNat % 2 ^ 23 * 256 ^ (s - 3) ≤ 2 ^ 23 * 256 ^ 29 :=
      Nat.mul_le_mul (Nat.mod_lt _ (by decide)).le hpow
    rw [if_neg (by omega), if_neg h3, hshift, shiftLeft, BitVec.toNat_shiftLeft, h8 _ (by omega),
      Nat.shiftLeft_eq, Nat.pow_mul]
    show _ * 256 ^ (s - 3) % 2 ^ 256 = _
    rw [show (BitVec.ofNat 256 (c.toInt32.toUInt32 &&& 8388607).toNat).toNat = c.toNat % 2 ^ 23
      from hword]
    exact Nat.mod_eq_of_lt (hlow.trans_lt (by decide))

end BRInt

/-! ## The function, limb by limb -/

namespace Limbs

open BRMerkleBlock

/-- The loop of `DarkGravityWaveTarget`, for at most as many blocks as the first argument says. -/
def pastTargets (blocks : List (BRMerkleBlock UInt256)) :
    ℕ → Option (BRMerkleBlock UInt256) → PastTargets → PastTargets
  | 0, _, p => p
  | _ + 1, none, p => p
  | n + 1, some block, p =>
    if block.height > 0 ∧ p.blockCount ≤ DGW_PAST_BLOCKS then
      let currentTarget := setCompact block.target.toInt32
      let currentBlockTime := Int64.ofNat block.timestamp.toNat
      pastTargets blocks n (blockFor blocks block.prevBlock)
        { blockCount := p.blockCount + 1
          sumTargets :=
            if p.blockCount = 1 then add currentTarget currentTarget
            else add p.sumTargets currentTarget
          lastBlockTime := currentBlockTime
          nActualTimespan :=
            if p.lastBlockTime > 0 then
              (p.nActualTimespan.toInt64 + (p.lastBlockTime - currentBlockTime)).toInt32
            else p.nActualTimespan }
    else p

/-- A number with `u64[0]` and zeros. -/
def word (n : Int32) : UInt256 := place 256 n.toInt64.toUInt64.toBitVec 0

/-- Where the loop starts. -/
def start : PastTargets :=
  { blockCount := 1, sumTargets := 0, lastBlockTime := 0, nActualTimespan := 0 }

/-- `DarkGravityWaveTarget`. -/
def darkGravityWaveTarget (previous : BRMerkleBlock UInt256)
    (blockSet : List (BRMerkleBlock UInt256)) : Option Int32 :=
  match blockFor blockSet previous.blockHash with
  | none => some MAX_PROOF_OF_WORK.toInt32
  | some previousBlock =>
    if previousBlock.height = 0 ∨ previousBlock.height < DGW_START_BLOCK then
      some MAX_PROOF_OF_WORK.toInt32
    else do
      let p := pastTargets blockSet 180 (some previousBlock) start
      let darkTarget ← divide p.sumTargets (word p.blockCount)
      let nTargetTimespan := (p.blockCount - 1) * DGW_TARGET_TIMESPAN
      let nActualTimespan :=
        if p.nActualTimespan < nTargetTimespan / 3 then nTargetTimespan / 3 else p.nActualTimespan
      let nActualTimespan :=
        if nActualTimespan > nTargetTimespan * 3 then nTargetTimespan * 3 else nActualTimespan
      let darkTarget ← divide (multiplyThis32 darkTarget nActualTimespan.toUInt32)
        (word nTargetTimespan)
      let compact ← getCompact darkTarget
      some (if compact > MAX_PROOF_OF_WORK then MAX_PROOF_OF_WORK else compact).toInt32

theorem pastTargets_eq (blocks : List (BRMerkleBlock UInt256)) (n : ℕ)
    (block : Option (BRMerkleBlock UInt256)) (p : PastTargets) :
    pastTargets blocks n block p = BRMerkleBlock.pastTargets blocks n block p := by
  induction n generalizing block p with
  | zero => rfl
  | succ n ih =>
    cases block with
    | none => rfl
    | some block =>
      simp only [pastTargets, BRMerkleBlock.pastTargets, add_eq, setCompact_eq, ih]

theorem word_eq {n : Int32} (h : 0 ≤ n.toInt) : word n = BitVec.ofInt 256 n.toInt := by
  have hlt : n.toInt < 2 ^ 31 := n.toInt_lt
  have hword : n.toInt64.toUInt64.toBitVec = BitVec.ofInt 64 n.toInt := by
    refine BitVec.eq_of_toInt_eq ?_
    show n.toInt64.toInt = _
    rw [Int32.toInt_toInt64, BitVec.toInt_ofInt, Int.bmod_eq_of_le (by omega) (by omega)]
  refine BitVec.eq_of_toNat_eq ?_
  rw [word, hword, place, BitVec.toNat_shiftLeft, BitVec.toNat_setWidth, BitVec.toNat_ofInt,
    BitVec.toNat_ofInt, Nat.shiftLeft_eq]
  omega

end Limbs

namespace BRMerkleBlock

variable {blocks : List (BRMerkleBlock UInt256)} {block : BRMerkleBlock UInt256} {p : PastTargets}
  {n : ℕ}

/-- What a round of the loop does with a block. -/
def nextTargets (block : BRMerkleBlock UInt256) (p : PastTargets) : PastTargets :=
  let currentTarget := BRInt.setCompact block.target.toInt32
  let currentBlockTime := Int64.ofNat block.timestamp.toNat
  { blockCount := p.blockCount + 1
    sumTargets :=
      if p.blockCount = 1 then currentTarget + currentTarget else p.sumTargets + currentTarget
    lastBlockTime := currentBlockTime
    nActualTimespan :=
      if p.lastBlockTime > 0 then
        (p.nActualTimespan.toInt64 + (p.lastBlockTime - currentBlockTime)).toInt32
      else p.nActualTimespan }

theorem pastTargets_round (hheight : block.height > 0) (hcount : p.blockCount.toInt ≤ 180) :
    pastTargets blocks (n + 1) (some block) p =
      pastTargets blocks n (blockFor blocks block.prevBlock) (nextTargets block p) :=
  if_pos ⟨hheight, Int32.le_iff_toInt_le.2 hcount⟩

theorem count_succ (hpos : 0 ≤ p.blockCount.toInt) (hcount : p.blockCount.toInt ≤ 180) :
    (nextTargets block p).blockCount.toInt = p.blockCount.toInt + 1 := by
  show (p.blockCount + 1).toInt = _
  rw [Int32.toInt_add]
  exact Int.bmod_eq_of_le (by show _ ≤ p.blockCount.toInt + 1; omega)
    (by show p.blockCount.toInt + 1 < _; omega)

/-- The loop counts up to 181. -/
theorem pastTargets_count (previous : Option (BRMerkleBlock UInt256))
    (hpos : 1 ≤ p.blockCount.toInt) (hle : p.blockCount.toInt ≤ 181) :
    1 ≤ (pastTargets blocks n previous p).blockCount.toInt ∧
      (pastTargets blocks n previous p).blockCount.toInt ≤ 181 := by
  induction n generalizing previous p with
  | zero => exact ⟨hpos, hle⟩
  | succ n ih =>
    cases previous with
    | none => exact ⟨hpos, hle⟩
    | some block =>
      by_cases hcond : block.height > 0 ∧ p.blockCount ≤ DGW_PAST_BLOCKS
      · have hcount : p.blockCount.toInt ≤ 180 := Int32.le_iff_toInt_le.1 hcond.2
        have hnext : (nextTargets block p).blockCount.toInt = p.blockCount.toInt + 1 :=
          count_succ (by omega) hcount
        rw [pastTargets_round hcond.1 hcount]
        exact ih _ (by omega) (by omega)
      · rw [pastTargets, if_neg hcond]
        exact ⟨hpos, hle⟩

theorem targetTimespan_toInt {count : Int32} (hpos : 1 ≤ count.toInt) (hle : count.toInt ≤ 181) :
    ((count - 1) * DGW_TARGET_TIMESPAN).toInt = (count.toInt - 1) * 60 := by
  have hsub : (count - 1).toInt = count.toInt - 1 := by
    rw [Int32.toInt_sub]
    exact Int.bmod_eq_of_le (by show _ ≤ count.toInt - 1; omega)
      (by show count.toInt - 1 < _; omega)
  rw [Int32.toInt_mul, hsub]
  exact Int.bmod_eq_of_le (by show _ ≤ (count.toInt - 1) * 60; omega)
    (by show (count.toInt - 1) * 60 < _; omega)

end BRMerkleBlock

namespace Limbs

open BRMerkleBlock

/-- Limb by limb the same target is computed. -/
theorem darkGravityWaveTarget_eq (previous : BRMerkleBlock UInt256)
    (blockSet : List (BRMerkleBlock UInt256)) :
    darkGravityWaveTarget previous blockSet =
      BRMerkleBlock.darkGravityWaveTarget previous blockSet := by
  unfold darkGravityWaveTarget BRMerkleBlock.darkGravityWaveTarget
  cases blockFor blockSet previous.blockHash with
  | none => rfl
  | some block =>
    obtain ⟨hpos, hle⟩ := @pastTargets_count blockSet start 180 (some block) (by decide) (by decide)
    have hspan : 0 ≤ (((BRMerkleBlock.pastTargets blockSet 180 (some block) start).blockCount - 1) *
        DGW_TARGET_TIMESPAN).toInt := by
      rw [targetTimespan_toInt hpos hle]
      omega
    simp only [pastTargets_eq, divide_eq, multiplyThis32_eq, getCompact_eq]
    rw [word_eq (by omega), word_eq hspan]
    rfl

end Limbs

namespace BRMerkleBlock

/-! ## Sums over the integers -/

/-- Stored blocks, each before the one in front of it, from the block with the hash on. -/
def StoredChain (blocks : List (BRMerkleBlock UInt256)) :
    UInt256 → List (BRMerkleBlock UInt256) → Prop
  | _, [] => True
  | hash, block :: chain =>
    blockFor blocks hash = some block ∧ StoredChain blocks block.prevBlock chain

/-- The sum of the targets, the newest counted twice. -/
def targetSum : List (BRMerkleBlock UInt256) → ℕ
  | [] => 0
  | block :: past =>
    2 * expand block.target.toNat + (past.map fun block => expand block.target.toNat).sum

/-- The time from the last block to the first one, which is the newest. -/
def timespan : List (BRMerkleBlock UInt256) → ℤ
  | [] => 0
  | block :: past => block.timestamp.toNat - ((past.getLast?.getD block).timestamp.toNat : ℤ)

/-- The time that is reckoned with: from a third of what the blocks should take to three times of
    it. -/
def countedTimespan (past : List (BRMerkleBlock UInt256)) : ℤ :=
  max (180 * 60 / 3) (min (3 * (180 * 60)) (timespan past))

/-- The next target: the average, by the time that the blocks took. -/
def nextTarget (past : List (BRMerkleBlock UInt256)) : ℕ :=
  targetSum past / 181 * (countedTimespan past).toNat / (180 * 60)

/-- Blocks with canonical positive targets up to the greatest one, and with times that are near to
    each other. -/
structure Regular (past : List (BRMerkleBlock UInt256)) : Prop where
  height : ∀ block ∈ past, DGW_START_BLOCK ≤ block.height
  canonical : ∀ block ∈ past, compact (expand block.target.toNat) = block.target.toNat
  positive : ∀ block ∈ past, 0 < expand block.target.toNat
  le_max : ∀ block ∈ past, expand block.target.toNat ≤ expand MAX_PROOF_OF_WORK.toNat
  time_pos : ∀ block ∈ past, 0 < block.timestamp.toNat
  time_near : ∀ block ∈ past, ∀ block' ∈ past,
    (block.timestamp.toNat : ℤ) - block'.timestamp.toNat < 2 ^ 31

/-- The loop has gone through the blocks `past`. -/
structure Summed (past : List (BRMerkleBlock UInt256)) (p : PastTargets) : Prop where
  count : p.blockCount.toInt = past.length + 1
  sum : p.sumTargets.toNat = targetSum past
  time : p.lastBlockTime.toInt = ((past.getLast?.map fun block => block.timestamp.toNat).getD 0 : ℕ)
  span : p.nActualTimespan.toInt = timespan past

section

variable {past chain : List (BRMerkleBlock UInt256)}

theorem targetSum_concat (h : past ≠ []) (block : BRMerkleBlock UInt256) :
    targetSum (past ++ [block]) = targetSum past + expand block.target.toNat := by
  cases past with
  | nil => exact absurd rfl h
  | cons first past =>
    rw [List.cons_append, targetSum, targetSum, List.map_append, List.sum_append]
    simp [Nat.add_assoc]

theorem timespan_concat (first : BRMerkleBlock UInt256) (past : List (BRMerkleBlock UInt256))
    (block : BRMerkleBlock UInt256) : timespan (first :: past ++ [block]) =
      timespan (first :: past) +
        ((past.getLast?.getD first).timestamp.toNat - (block.timestamp.toNat : ℤ)) := by
  rw [List.cons_append, timespan, timespan, List.getLast?_concat, Option.getD_some]
  ring

theorem expand_max : expand MAX_PROOF_OF_WORK.toNat = 0xffff * 256 ^ 27 := rfl

/-- The greatest target is canonical. -/
theorem compact_max : compact (expand MAX_PROOF_OF_WORK.toNat) = MAX_PROOF_OF_WORK.toNat := by
  decide +kernel

/-- A target up to the greatest one is expanded exactly. -/
theorem Regular.target (h : Regular past) (hblock : block ∈ past) :
    (BRInt.setCompact block.target.toInt32).toNat = expand block.target.toNat := by
  refine BRInt.setCompact_toNat ?_
  have hle := compact_mono (h.le_max block hblock)
  rw [h.canonical block hblock] at hle
  exact Nat.lt_of_le_of_lt hle (by rw [compact_max]; decide)

theorem targetSum_le (h : Regular past) :
    targetSum past ≤ (past.length + 1) * (0xffff * 256 ^ 27) := by
  have hle : ∀ block ∈ past, expand block.target.toNat ≤ 0xffff * 256 ^ 27 := fun block hblock =>
    expand_max ▸ h.le_max block hblock
  cases past with
  | nil => exact Nat.zero_le _
  | cons first past =>
    have hsum : (past.map fun block => expand block.target.toNat).sum ≤
        (past.map fun block => expand block.target.toNat).length * (0xffff * 256 ^ 27) := by
      refine List.sum_le_card_nsmul _ _ fun n hn => ?_
      obtain ⟨block, hblock, rfl⟩ := List.mem_map.1 hn
      exact hle block (List.mem_cons_of_mem _ hblock)
    have hfirst := hle first List.mem_cons_self
    rw [List.length_map] at hsum
    rw [targetSum, List.length_cons]
    calc 2 * expand first.target.toNat + _
        ≤ 2 * (0xffff * 256 ^ 27) + past.length * (0xffff * 256 ^ 27) :=
          Nat.add_le_add (Nat.mul_le_mul_left 2 hfirst) hsum
      _ = (past.length + 1 + 1) * (0xffff * 256 ^ 27) := by ring

theorem Regular.of_subset (h : Regular past) (hsub : ∀ block ∈ chain, block ∈ past) :
    Regular chain where
  height block hblock := h.height block (hsub block hblock)
  canonical block hblock := h.canonical block (hsub block hblock)
  positive block hblock := h.positive block (hsub block hblock)
  le_max block hblock := h.le_max block (hsub block hblock)
  time_pos block hblock := h.time_pos block (hsub block hblock)
  time_near block hblock block' hblock' :=
    h.time_near block (hsub block hblock) block' (hsub block' hblock')

/-- One round. -/
theorem Summed.round (h : Summed past p) (hregular : Regular (past ++ [block]))
    (hlength : past.length < 180) : Summed (past ++ [block]) (nextTargets block p) := by
  have hblock : block ∈ past ++ [block] := List.mem_append_right _ (List.mem_singleton_self block)
  have htarget := hregular.target hblock
  have hsum := targetSum_le hregular
  have htime : (Int64.ofNat block.timestamp.toNat).toInt = block.timestamp.toNat :=
    Int64.toInt_ofNat_of_lt (Nat.lt_trans block.timestamp.toNat_lt (by decide))
  have hcount : (nextTargets block p).blockCount.toInt = p.blockCount.toInt + 1 :=
    count_succ (by rw [h.count]; omega) (by rw [h.count]; omega)
  refine ⟨by rw [hcount, h.count, List.length_append]; rfl, ?_, ?_, ?_⟩
  · -- the newest block counts twice
    have hlt : targetSum (past ++ [block]) < 2 ^ 256 := by
      rw [List.length_append] at hsum
      have hbound : (past.length + 1 + 1) * (0xffff * 256 ^ 27) ≤ 181 * (0xffff * 256 ^ 27) :=
        Nat.mul_le_mul_right _ (by omega)
      exact (hsum.trans hbound).trans_lt (by norm_num)
    show (if p.blockCount = 1 then _ else _ : UInt256).toNat = _
    cases past with
    | nil =>
      have hone : p.blockCount = 1 := Int32.toInt_inj.1 h.count
      have htwo : targetSum ([] ++ [block]) =
          expand block.target.toNat + expand block.target.toNat := by
        simp [targetSum, Nat.two_mul]
      rw [htwo] at hlt ⊢
      rw [if_pos hone, BitVec.toNat_add, htarget, Nat.mod_eq_of_lt hlt]
    | cons first past =>
      have hne : p.blockCount ≠ 1 := by
        intro hone
        have hcount := h.count
        rw [hone, List.length_cons] at hcount
        have hpos : (1 : ℤ) = (past.length + 1 : ℕ) + 1 := hcount
        omega
      rw [targetSum_concat (List.cons_ne_nil first past)] at hlt ⊢
      rw [if_neg hne, BitVec.toNat_add, h.sum, htarget, Nat.mod_eq_of_lt hlt]
  · show (Int64.ofNat block.timestamp.toNat).toInt = _
    rw [htime, List.getLast?_concat]
    rfl
  · show (if p.lastBlockTime > 0 then _ else _ : Int32).toInt = _
    cases past with
    | nil =>
      have hzero : ¬ p.lastBlockTime > 0 := by
        rw [gt_iff_lt, Int64.lt_iff_toInt_lt, h.time]
        exact lt_irrefl _
      rw [if_neg hzero, h.span]
      simp [timespan]
    | cons first past =>
      obtain ⟨last, hlast⟩ : ∃ last, past.getLast?.getD first = last := ⟨_, rfl⟩
      have hmem : last ∈ first :: past := by
        refine List.mem_of_getLast? ?_
        rw [List.getLast?_cons, hlast]
      have hfirst : first ∈ first :: past ++ [block] :=
        List.mem_append_left _ List.mem_cons_self
      have hlastTime : p.lastBlockTime.toInt = last.timestamp.toNat := by
        rw [h.time, List.getLast?_cons, hlast]
        rfl
      have hpos : p.lastBlockTime > 0 := by
        rw [gt_iff_lt, Int64.lt_iff_toInt_lt, hlastTime]
        exact Int.natCast_pos.2 (hregular.time_pos last (List.mem_append_left _ hmem))
      have hspan := h.span
      rw [timespan, hlast] at hspan
      have hnear := hregular.time_near first hfirst block hblock
      have hnear' := hregular.time_near block hblock first hfirst
      have hlt := last.timestamp.toNat_lt
      have hlt' := block.timestamp.toNat_lt
      have hdiff : (p.lastBlockTime - Int64.ofNat block.timestamp.toNat).toInt =
          last.timestamp.toNat - block.timestamp.toNat := by
        rw [Int64.toInt_sub, hlastTime, htime, Int.bmod_eq_of_le (by omega) (by omega)]
      have hsum : (p.nActualTimespan.toInt64 +
          (p.lastBlockTime - Int64.ofNat block.timestamp.toNat)).toInt =
            first.timestamp.toNat - block.timestamp.toNat := by
        rw [Int64.toInt_add, Int32.toInt_toInt64, hdiff, hspan,
          Int.bmod_eq_of_le (by omega) (by omega)]
        omega
      rw [if_pos hpos, Int64.toInt_toInt32, hsum, timespan_concat, timespan, hlast,
        Int.bmod_eq_of_le (by omega) (by omega)]
      omega

/-- As many rounds as there are blocks. -/
theorem Summed.run (h : Summed past p) {hash : UInt256} (hchain : StoredChain blocks hash chain)
    (hregular : Regular (past ++ chain)) (hlength : (past ++ chain).length ≤ 180) :
    Summed (past ++ chain) (pastTargets blocks chain.length (blockFor blocks hash) p) := by
  induction chain generalizing past p hash with
  | nil =>
    rw [List.append_nil]
    exact h
  | cons block chain ih =>
    obtain ⟨hfound, hchain⟩ := hchain
    have hblock : block ∈ past ++ block :: chain := List.mem_append_right _ List.mem_cons_self
    rw [List.length_append, List.length_cons] at hlength
    have hheight : block.height > 0 :=
      UInt32.lt_of_lt_of_le (by decide) (hregular.height block hblock)
    have hround : Summed (past ++ [block]) (nextTargets block p) := h.round
      (hregular.of_subset fun b hb => by
        rw [List.append_cons]
        exact List.mem_append_left _ hb) (by omega)
    have hrest := ih hround hchain (by rwa [← List.append_cons])
      (by rw [← List.append_cons, List.length_append, List.length_cons]; omega)
    rw [hfound, List.length_cons, pastTargets_round hheight (by rw [h.count]; omega),
      List.append_cons]
    exact hrest

theorem start_summed : Summed [] Limbs.start := ⟨rfl, rfl, rfl, rfl⟩

theorem StoredChain.take {hash : UInt256} (h : StoredChain blocks hash chain) (n : ℕ) :
    StoredChain blocks hash (chain.take n) := by
  induction n generalizing hash chain with
  | zero => trivial
  | succ n ih =>
    cases chain with
    | nil => trivial
    | cons block chain => exact ⟨h.1, ih h.2⟩

/-- What the loop has summed up after each of its rounds. -/
theorem pastTargets_sum {hash : UInt256} (hchain : StoredChain blocks hash chain)
    (hlength : 180 ≤ chain.length) (hregular : Regular (chain.take 180)) (hn : n ≤ 180) :
    Summed (chain.take n) (pastTargets blocks n (blockFor blocks hash) Limbs.start) := by
  have htake : (chain.take n).length = n := List.length_take_of_le (hn.trans hlength)
  have hsub : Regular ([] ++ chain.take n) := by
    refine hregular.of_subset fun block hblock => ?_
    rw [List.nil_append] at hblock
    exact List.take_subset_take_left chain hn hblock
  have hrun := start_summed.run (hchain.take n) hsub (by rwa [List.nil_append, htake])
  rwa [htake, List.nil_append] at hrun

/-- The time that is reckoned with, as it is computed. -/
theorem counted_toInt {span : Int32} (hspan : span.toInt = timespan past) :
    (if (if span < 10800 / 3 then 10800 / 3 else span) > 10800 * 3 then 10800 * 3
      else if span < 10800 / 3 then 10800 / 3 else span : Int32).toInt = countedTimespan past := by
  have hlow : (10800 / 3 : Int32).toInt = 3600 := by decide
  have hhigh : (10800 * 3 : Int32).toInt = 32400 := by decide
  rw [countedTimespan, ← hspan]
  simp only [gt_iff_lt, Int32.lt_iff_toInt_lt, hhigh]
  split_ifs <;> omega

theorem toUInt32_toNat {span : Int32} (h : 0 ≤ span.toInt) :
    (span.toUInt32.toNat : ℤ) = span.toInt := by
  have hcond := BitVec.toInt_eq_toNat_cond span.toBitVec
  have hlt := span.toBitVec.isLt
  show (span.toBitVec.toNat : ℤ) = span.toBitVec.toInt
  have h : 0 ≤ span.toBitVec.toInt := h
  split_ifs at hcond <;> omega

theorem countedTimespan_nonneg (past : List (BRMerkleBlock UInt256)) :
    0 ≤ countedTimespan past := by
  rw [countedTimespan]
  omega

theorem targetSum_lt (h : Regular past) (hlength : past.length ≤ 180) :
    targetSum past ≤ 181 * (0xffff * 256 ^ 27) :=
  (targetSum_le h).trans (Nat.mul_le_mul_right _ (Nat.succ_le_succ hlength))

end

end BRMerkleBlock

namespace Limbs

open BRMerkleBlock

/-- From the sum and the time, the computation is exact. -/
theorem target_steps {past : List (BRMerkleBlock UInt256)} (hregular : Regular past)
    (hlength : past.length = 180) {sumTargets : UInt256} {nActualTimespan : UInt32}
    (hsum : sumTargets.toNat = targetSum past)
    (hspan : (nActualTimespan.toNat : ℤ) = countedTimespan past) :
    ∃ average target, divide sumTargets (word 181) = some average ∧
      average.toNat = targetSum past / 181 ∧
      (multiplyThis32 average nActualTimespan).toNat = average.toNat * nActualTimespan.toNat ∧
      divide (multiplyThis32 average nActualTimespan) (word 10800) = some target ∧
      target.toNat = nextTarget past ∧ nextTarget past < 2 ^ 255 ∧
      getCompact target = some (UInt32.ofNat (compact (nextTarget past))) := by
  have hmax := targetSum_lt hregular hlength.le
  have hcount : (word 181).toNat = 181 := by decide
  have hideal : (word 10800).toNat = 10800 := by decide
  have hcounted : nActualTimespan.toNat ≤ 32400 := by
    rw [countedTimespan] at hspan
    omega
  have htoNat : (countedTimespan past).toNat = nActualTimespan.toNat := by
    rw [← hspan, Int.toNat_natCast]
  obtain ⟨average, haverage, haverage_eq⟩ := @BRInt.divide_toNat sumTargets (word 181)
    (by rw [hsum]; exact hmax.trans_lt (by norm_num)) (by rw [hcount]; decide)
    (by rw [hcount]; decide)
  rw [hsum, hcount] at haverage_eq
  have hle : average.toNat ≤ 0xffff * 256 ^ 27 := by
    rw [haverage_eq]
    exact Nat.div_le_of_le_mul hmax
  have hproduct_le : average.toNat * nActualTimespan.toNat ≤ 0xffff * 256 ^ 27 * 32400 :=
    Nat.mul_le_mul hle hcounted
  have hproduct := @BRInt.multiplyThis32_toNat average nActualTimespan
    (hproduct_le.trans_lt (by norm_num))
  obtain ⟨target, htarget, htarget_eq⟩ :=
    @BRInt.divide_toNat (BRInt.multiplyThis32 average nActualTimespan) (word 10800)
      (by rw [hproduct]; exact hproduct_le.trans_lt (by norm_num)) (by rw [hideal]; decide)
      (by rw [hideal]; decide)
  have hnext : target.toNat = nextTarget past := by
    rw [htarget_eq, hproduct, hideal, haverage_eq, nextTarget, htoNat]
  have hlt : target.toNat < 2 ^ 255 := by
    rw [htarget_eq, hproduct]
    exact (Nat.div_le_self _ _).trans_lt (hproduct_le.trans_lt (by norm_num))
  simp only [divide_eq, multiplyThis32_eq, getCompact_eq]
  exact ⟨average, target, haverage, haverage_eq, hproduct, htarget, hnext, hnext ▸ hlt,
    hnext ▸ BRInt.getCompact_eq hlt⟩

/-- The compact form is cut to that of the greatest target. -/
theorem cut_eq (n : ℕ) (h : compact n < 2 ^ 32) :
    (if UInt32.ofNat (compact n) > MAX_PROOF_OF_WORK then MAX_PROOF_OF_WORK
      else UInt32.ofNat (compact n)) = UInt32.ofNat (min MAX_PROOF_OF_WORK.toNat (compact n)) := by
  have htoNat : (UInt32.ofNat (compact n)).toNat = compact n := by
    rw [UInt32.toNat_ofNat', Nat.mod_eq_of_lt h]
  simp only [gt_iff_lt, UInt32.lt_iff_toNat_lt, htoNat]
  split_ifs with hlt
  · rw [Nat.min_eq_left hlt.le, UInt32.ofNat_toNat]
  · rw [Nat.min_eq_right (Nat.le_of_not_lt hlt)]

theorem compact_lt {n : ℕ} (h : n < 2 ^ 255) : compact n < 2 ^ 32 := by
  have hsize : n.size ≤ 255 := Nat.size_le.2 h
  have hmantissa := mantissa_lt (lt_compactSize n)
  rw [compact]
  split_ifs
  · decide
  · have hle : compactSize n ≤ 32 := by
      rw [compactSize]
      omega
    omega

/-- The target after at least 180 linked stored blocks is the average by the time that they took,
    cut to the greatest one.  Nothing overflows on the way, and the order of the compact forms is
    that of the targets. -/
theorem darkGravityWaveTarget_exact (blockSet chain : List (BRMerkleBlock UInt256))
    (previous : BRMerkleBlock UInt256) (hchain : StoredChain blockSet previous.blockHash chain)
    (hlength : 180 ≤ chain.length) (hregular : Regular (chain.take 180)) :
    darkGravityWaveTarget previous blockSet = some (UInt32.ofNat
      (min MAX_PROOF_OF_WORK.toNat (compact (nextTarget (chain.take 180))))).toInt32 ∧
    min MAX_PROOF_OF_WORK.toNat (compact (nextTarget (chain.take 180))) =
      compact (min (expand MAX_PROOF_OF_WORK.toNat) (nextTarget (chain.take 180))) ∧
    (∀ n ≤ 180,
      let p := pastTargets blockSet n (blockFor blockSet previous.blockHash) start
      p.sumTargets.toNat = targetSum (chain.take n) ∧
        p.nActualTimespan.toInt = timespan (chain.take n)) ∧
    ∃ sumTargets average target : UInt256, ∃ nActualTimespan : UInt32,
      sumTargets.toNat = targetSum (chain.take 180) ∧
      divide sumTargets (word 181) = some average ∧
      average.toNat = targetSum (chain.take 180) / 181 ∧
      (nActualTimespan.toNat : ℤ) = countedTimespan (chain.take 180) ∧
      (multiplyThis32 average nActualTimespan).toNat = average.toNat * nActualTimespan.toNat ∧
      divide (multiplyThis32 average nActualTimespan) (word 10800) = some target ∧
      target.toNat = nextTarget (chain.take 180) ∧
      getCompact target = some (UInt32.ofNat (compact (nextTarget (chain.take 180)))) := by
  have hsummed : ∀ n ≤ 180, Summed (chain.take n)
      (pastTargets blockSet n (blockFor blockSet previous.blockHash) start) := by
    intro n hn
    rw [pastTargets_eq]
    exact pastTargets_sum hchain hlength hregular hn
  have htake : (chain.take 180).length = 180 := List.length_take_of_le hlength
  obtain ⟨block, rest, hfirst⟩ : ∃ block rest, chain = block :: rest :=
    List.exists_cons_of_length_pos (by omega)
  have hblock : blockFor blockSet previous.blockHash = some block := by
    rw [hfirst] at hchain
    exact hchain.1
  have hheight : DGW_START_BLOCK ≤ block.height :=
    hregular.height block (by rw [hfirst]; exact List.mem_cons_self)
  obtain ⟨hcount, hsum, -, hspan⟩ := hsummed 180 (Nat.le_refl 180)
  rw [hblock] at hcount hsum hspan
  obtain ⟨p, hp⟩ : ∃ p, pastTargets blockSet 180 (some block) start = p := ⟨_, rfl⟩
  rw [hp] at hcount hsum hspan
  have hcounted := counted_toInt hspan
  have hword := toUInt32_toNat (hcounted ▸ countedTimespan_nonneg (chain.take 180))
  rw [hcounted] at hword
  obtain ⟨average, target, haverage, haverage_eq, hproduct, htarget, hnext, hlt, hcompact⟩ :=
    target_steps hregular htake hsum hword
  have h181 : p.blockCount = 181 := Int32.toInt_inj.1 (by rw [hcount, htake]; rfl)
  refine ⟨?_, ?_, fun n hn => ⟨(hsummed n hn).sum, (hsummed n hn).span⟩, p.sumTargets, average,
    target, _, hsum, haverage, haverage_eq, hword, hproduct, htarget, hnext, hcompact⟩
  · have hheight' : ¬ (block.height = 0 ∨ block.height < DGW_START_BLOCK) := by
      rintro (hzero | hlt)
      · rw [hzero] at hheight
        exact absurd hheight (by decide)
      · exact UInt32.not_le.2 hlt hheight
    have hideal : (p.blockCount - 1) * DGW_TARGET_TIMESPAN = 10800 := by
      rw [h181]
      rfl
    unfold darkGravityWaveTarget
    rw [hblock]
    dsimp only
    rw [if_neg hheight', hp, hideal, h181, haverage, Option.bind_eq_bind, Option.bind_some, htarget,
      Option.bind_some, hcompact, Option.bind_eq_bind, Option.bind_some,
      cut_eq _ (compact_lt hlt)]
  · rw [compact_min, compact_max]

/-- The stored block number `i` of a chain with a block each minute. -/
def minuteBlock (i : ℕ) : BRMerkleBlock UInt256 :=
  { blockHash := BitVec.ofNat 256 (i + 1), prevBlock := BitVec.ofNat 256 (i + 2), merkleRoot := 0
    mixHash := 0, timestamp := UInt32.ofNat (1600000000 - 60 * i), target := 0x1b07cf3a
    height := UInt32.ofNat (1000000 - i) }

def minuteChain : List (BRMerkleBlock UInt256) := (List.range 180).map minuteBlock

theorem blockFor_minuteChain {i : ℕ} (h : i < 180) :
    blockFor minuteChain (BitVec.ofNat 256 (i + 1)) = some (minuteBlock i) := by
  have hall : ∀ i < 180,
      blockFor minuteChain (BitVec.ofNat 256 (i + 1)) = some (minuteBlock i) := by
    decide +kernel
  exact hall i h

theorem stored_minuteChain {n i : ℕ} (h : i + n ≤ 180) :
    StoredChain minuteChain (BitVec.ofNat 256 (i + 1)) ((List.range' i n).map minuteBlock) := by
  induction n generalizing i with
  | zero => trivial
  | succ n ih => exact ⟨blockFor_minuteChain (by omega), ih (by omega)⟩

theorem regular_minuteChain : Regular minuteChain := by
  have hmem : ∀ block ∈ minuteChain, ∃ i < 180, block = minuteBlock i := by
    intro block hblock
    obtain ⟨i, hi, rfl⟩ := List.mem_map.1 hblock
    exact ⟨i, List.mem_range.1 hi, rfl⟩
  have htime : ∀ i < 180, (minuteBlock i).timestamp.toNat = 1600000000 - 60 * i := by
    intro i hi
    exact (UInt32.toNat_ofNat').trans (Nat.mod_eq_of_lt (by omega))
  refine ⟨?_, ?_, ?_, ?_, ?_, ?_⟩
  · intro block hblock
    obtain ⟨i, hi, rfl⟩ := hmem block hblock
    have hheight : (minuteBlock i).height.toNat = 1000000 - i :=
      (UInt32.toNat_ofNat').trans (Nat.mod_eq_of_lt (by omega))
    rw [UInt32.le_iff_toNat_le, hheight]
    show 338778 ≤ _
    omega
  · intro block hblock
    obtain ⟨i, hi, rfl⟩ := hmem block hblock
    show compact (expand 0x1b07cf3a) = 0x1b07cf3a
    decide +kernel
  · intro block hblock
    obtain ⟨i, hi, rfl⟩ := hmem block hblock
    show 0 < expand 0x1b07cf3a
    decide +kernel
  · intro block hblock
    obtain ⟨i, hi, rfl⟩ := hmem block hblock
    show expand 0x1b07cf3a ≤ expand MAX_PROOF_OF_WORK.toNat
    decide +kernel
  · intro block hblock
    obtain ⟨i, hi, rfl⟩ := hmem block hblock
    rw [htime i hi]
    omega
  · intro block hblock block' hblock'
    obtain ⟨i, hi, rfl⟩ := hmem block hblock
    obtain ⟨j, hj, rfl⟩ := hmem block' hblock'
    rw [htime i hi, htime j hj]
    omega

/-- After 180 blocks, one each minute. -/
theorem darkGravityWaveTarget_exact_minutes :
    darkGravityWaveTarget (minuteBlock 0) minuteChain = some (UInt32.ofNat
      (min MAX_PROOF_OF_WORK.toNat (compact (nextTarget minuteChain)))).toInt32 := by
  have htake : minuteChain.take 180 = minuteChain := List.take_of_length_le (by simp [minuteChain])
  have hchain : StoredChain minuteChain (minuteBlock 0).blockHash minuteChain := by
    have h := @stored_minuteChain 180 0 (Nat.le_refl _)
    rwa [← List.range_eq_range'] at h
  have h := darkGravityWaveTarget_exact minuteChain minuteChain (minuteBlock 0) hchain
    (by simp [minuteChain]) (htake.symm ▸ regular_minuteChain)
  rw [htake] at h
  exact h.1

end Limbs

end RavenWallet
