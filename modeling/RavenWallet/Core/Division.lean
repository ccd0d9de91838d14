/-
  The division of BRInt.h, with every shift checked.

  A shift of a word by its width or more is undefined in C: here it has no result, as has
  a failed assertion.  The loop of `divide` has fuel; without any left there is no result
  either.

  * `shiftLeft_eq`, `shiftRight_eq` and `bits_eq`: no amount is out of range;
  * `divide_eq`: nor is one in `divide`, and its loop ends;
  * `divide_iff`: which quotients are exact.
-/
import RavenWallet.Core.DarkGravity
import RavenWallet.Lib.Checked

namespace RavenWallet

namespace CheckedInt

open Limbs (u32 u64)

/-! ## The functions -/

/-- The inner loop of `bits`, from the bit `b` down to 1. -/
def topBit (x : BitVec 32) : ℕ → Option ℕ
  | 0 => some 1
  | b + 1 => do
    let mask ← shl 1#32 (b + 1)
    if x &&& mask ≠ 0 then some (b + 2) else topBit x b

/-- The outer loop of `bits`, from the limb `pos - 1` down. -/
def bitsLoop (number : UInt256) : ℕ → Option ℕ
  | 0 => some 0
  | pos + 1 =>
    if u32 number pos ≠ 0 then (topBit (u32 number pos) 31).map fun b => 32 * pos + b
    else bitsLoop number pos

/-- `bits`, which returns a `uint8_t`. -/
def bits (number : UInt256) : Option UInt8 := (bitsLoop number 8).map UInt8.ofNat

/-- The loop over the limbs of a shift: what it sets at each of them is combined by `|=`. -/
def orEach (x : ℕ → Option UInt256) : ℕ → Option UInt256
  | 0 => some 0
  | i + 1 => do
    let r ← orEach x i
    let y ← x i
    some (r ||| y)

/-- `shiftLeft` -/
def shiftLeft (a : UInt256) (bits : UInt8) : Option UInt256 :=
  let k := bits.toNat / 64
  let b := bits.toNat % 64
  orEach (fun i => do
    let carry ← if i + k + 1 < 4 ∧ b ≠ 0 then
        (shr (u64 a i) (64 - b)).map fun x => place 256 x (i + k + 1)
      else some 0
    let rest ← if i + k < 4 then (shl (u64 a i) b).map fun x => place 256 x (i + k) else some 0
    some (carry ||| rest)) 4

/-- `shiftRight` -/
def shiftRight (a : UInt256) (bits : UInt8) : Option UInt256 :=
  let k := bits.toNat / 64
  let b := bits.toNat % 64
  orEach (fun i => do
    let carry ← if k + 1 ≤ i ∧ b ≠ 0 then
        (shl (u64 a i) (64 - b)).map fun x => place 256 x (i - k - 1)
      else some 0
    let rest ← if k ≤ i then (shr (u64 a i) b).map fun x => place 256 x (i - k) else some 0
    some (carry ||| rest)) 4

/-- The loop of `divide`. -/
def divideLoop : ℕ → ℤ → UInt256 → UInt256 → UInt256 → Option UInt256
  | 0, _, _, _, _ => none
  | fuel + 1, shift, num, div, r =>
    if shift ≥ 0 then do
      let bit ← shl 1#32 (shift.toNat % 32)
      let next ← shiftRight div 1
      if Limbs.supEq num div then
        divideLoop fuel (shift - 1) (Limbs.subtract num div) next
          (r ||| place 256 bit (shift.toNat / 32))
      else divideLoop fuel (shift - 1) num next r
    else some r

/-- `divide` -/
def divide (fuel : ℕ) (a b : UInt256) : Option UInt256 := do
  let num_bits ← bits a
  let div_bits ← bits b
  if div_bits = 0 then none
  else if div_bits > num_bits then some 0
  else
    let shift : ℤ := num_bits.toNat - div_bits.toNat
    let div ← shiftLeft b (UInt8.ofInt shift)
    divideLoop fuel shift a div 0

/-! ## The shifts -/

theorem and_bit (x : BitVec 32) (b : ℕ) : x &&& 1#32 <<< b ≠ 0 ↔ x.getLsbD b := by
  have hbit : x &&& 1#32 <<< b = if x.getLsbD b then BitVec.twoPow 32 b else 0#32 :=
    BitVec.and_twoPow x b
  rw [hbit]
  split_ifs with h
  · have hlt : b < 32 := BitVec.lt_of_getLsbD h
    have hne : BitVec.twoPow 32 b ≠ 0#32 := fun hzero => by
      have htest := congrArg (fun y : BitVec 32 => y.getLsbD b) hzero
      simp [hlt] at htest
    exact ⟨fun _ => h, fun _ => hne⟩
  · exact ⟨fun hne => absurd rfl hne, fun hb => absurd hb h⟩

theorem topBit_eq {x : BitVec 32} {b : ℕ} (hb : b < 32) : topBit x b = some (Limbs.topBit x b) := by
  induction b with
  | zero => rfl
  | succ b ih =>
    rw [topBit, shl_of_lt _ hb, Option.bind_eq_bind, Option.bind_some, Limbs.topBit]
    simp only [and_bit, ih (by omega)]
    split_ifs
    · rfl
    · rfl

theorem bitsLoop_eq (number : UInt256) (pos : ℕ) :
    bitsLoop number pos = some (Limbs.bitsLoop number pos) := by
  induction pos with
  | zero => rfl
  | succ pos ih =>
    rw [bitsLoop, Limbs.bitsLoop, topBit_eq (by decide), ih]
    split_ifs
    · rfl
    · rfl

theorem bits_eq (number : UInt256) : bits number = some (Limbs.bits number) := by
  rw [bits, bitsLoop_eq]
  rfl

theorem orEach_eq {x : ℕ → Option UInt256} {y : ℕ → UInt256} {n : ℕ}
    (h : ∀ i < n, x i = some (y i)) : orEach x n = some (orAll y n) := by
  induction n with
  | zero => rfl
  | succ n ih =>
    rw [orEach, ih fun i hi => h i (by omega), h n (Nat.lt_succ_self n)]
    rfl

/-- The amounts are below 64, since a shift by none at all is left out. -/
theorem shiftLeft_eq (a : UInt256) (bits : UInt8) :
    shiftLeft a bits = some (Limbs.shiftLeft a bits) := by
  have hlt : bits.toNat % 64 < 64 := Nat.mod_lt _ (by decide)
  unfold shiftLeft Limbs.shiftLeft
  dsimp only
  refine orEach_eq fun i _ => ?_
  split_ifs with hcarry hrest hrest
  · rw [shr_of_lt _ (by omega), shl_of_lt _ hlt]
    rfl
  · rw [shr_of_lt _ (by omega)]
    rfl
  · rw [shl_of_lt _ hlt]
    rfl
  · rfl

theorem shiftRight_eq (a : UInt256) (bits : UInt8) :
    shiftRight a bits = some (Limbs.shiftRight a bits) := by
  have hlt : bits.toNat % 64 < 64 := Nat.mod_lt _ (by decide)
  unfold shiftRight Limbs.shiftRight
  dsimp only
  refine orEach_eq fun i _ => ?_
  split_ifs with hcarry hrest hrest
  · rw [shl_of_lt _ (by omega), shr_of_lt _ hlt]
    rfl
  · rw [shl_of_lt _ (by omega)]
    rfl
  · rw [shr_of_lt _ hlt]
    rfl
  · rfl

/-! ## The division -/

theorem divideLoop_eq {fuel n : ℕ} (h : n < fuel) (num div r : UInt256) :
    divideLoop fuel ((n : ℤ) - 1) num div r = some (Limbs.divideLoop n num div r) := by
  induction n generalizing fuel num div r with
  | zero =>
    obtain ⟨fuel, rfl⟩ : ∃ k, fuel = k + 1 := ⟨fuel - 1, by omega⟩
    rfl
  | succ shift ih =>
    obtain ⟨fuel, rfl⟩ : ∃ k, fuel = k + 1 := ⟨fuel - 1, by omega⟩
    have hshift : ((shift + 1 : ℕ) : ℤ) - 1 = shift := by omega
    rw [hshift, divideLoop, if_pos (Int.natCast_nonneg shift), Int.toNat_natCast,
      shl_of_lt _ (Nat.mod_lt _ (by decide)), shiftRight_eq, Limbs.divideLoop]
    simp only [Option.bind_eq_bind, Option.bind_some, ih (by omega : shift < fuel)]
    split_ifs
    · rfl
    · rfl

/-- **No shift is out of range, and the loop ends.** -/
theorem divide_eq {fuel : ℕ} (h : 256 < fuel) (a b : UInt256) :
    divide fuel a b = Limbs.divide a b := by
  rw [divide, bits_eq, bits_eq, Option.bind_eq_bind, Option.bind_some, Option.bind_some,
    Limbs.divide]
  split_ifs with hzero hgt
  · rfl
  · rfl
  · have hle : Limbs.bits b ≤ Limbs.bits a := UInt8.not_lt.1 hgt
    have hsub := UInt8.toNat_sub_of_le _ _ hle
    have hlt := (Limbs.bits a).toNat_lt
    have hcast : ((Limbs.bits a).toNat : ℤ) - (Limbs.bits b).toNat =
        ((Limbs.bits a - Limbs.bits b).toNat : ℤ) := by
      rw [hsub, Int.ofNat_sub (UInt8.le_iff_toNat_le.1 hle)]
    have hshift : UInt8.ofInt ((Limbs.bits a - Limbs.bits b).toNat : ℤ) =
        Limbs.bits a - Limbs.bits b := by
      have hmod : ((Limbs.bits a - Limbs.bits b).toNat : ℤ) % 2 ^ 8 =
          ((Limbs.bits a - Limbs.bits b).toNat : ℤ) := by
        have := (Limbs.bits a - Limbs.bits b).toNat_lt
        omega
      rw [UInt8.ofInt, hmod, Int.toNat_natCast, UInt8.ofNat_toNat]
    have hloop : ((Limbs.bits a - Limbs.bits b).toNat : ℤ) =
        (((Limbs.bits a - Limbs.bits b).toNat + 1 : ℕ) : ℤ) - 1 := by omega
    dsimp only
    rw [hcast, hshift, shiftLeft_eq, Option.bind_eq_bind, Option.bind_some, hloop,
      divideLoop_eq (by omega)]

theorem bits_eq_zero {a : UInt256} (h : 2 ^ 255 ≤ a.toNat) : BRInt.bits a = 0 := by
  have hsize : a.toNat.size = 256 :=
    le_antisymm (Nat.size_le.2 a.isLt) (Nat.lt_size.2 h)
  rw [BRInt.bits, hsize]
  rfl

theorem divide_of_large {a b : UInt256} (ha : 2 ^ 255 ≤ a.toNat) (hb : b.toNat < 2 ^ 255)
    (h0 : b.toNat ≠ 0) : BRInt.divide a b = some 0 := by
  have hsize := BRInt.size_lt hb (by decide)
  have hpos : 0 < b.toNat.size := Nat.size_pos.2 (Nat.pos_of_ne_zero h0)
  have hne : BRInt.bits b ≠ 0 := by
    intro hzero
    rw [hzero] at hsize
    exact absurd hsize hpos.ne
  rw [BRInt.divide, bits_eq_zero ha, if_neg hne, if_pos (UInt8.pos_iff_ne_zero.2 hne)]

/-- **Quotients are exact** just if both numbers have less than 256 bits: `bits` returns a byte,
    which is 0 for 256 of them. -/
theorem divide_iff {fuel : ℕ} (hfuel : 256 < fuel) (a b : UInt256) (hb : b.toNat ≠ 0) :
    (∃ q, divide fuel a b = some q ∧ q.toNat = a.toNat / b.toNat) ↔
      a.toNat < 2 ^ 255 ∧ b.toNat < 2 ^ 255 := by
  rw [divide_eq hfuel, Limbs.divide_eq]
  constructor
  · rintro ⟨q, hq, hquotient⟩
    have hbBits : b.toNat < 2 ^ 255 := by
      by_contra hlarge
      rw [BRInt.divide, bits_eq_zero (Nat.le_of_not_lt hlarge)] at hq
      cases hq
    refine ⟨?_, hbBits⟩
    by_contra hlarge
    rw [divide_of_large (Nat.le_of_not_lt hlarge) hbBits hb, Option.some.injEq] at hq
    subst hq
    have hone : 1 ≤ a.toNat / b.toNat :=
      (Nat.one_le_div_iff (Nat.pos_of_ne_zero hb)).2 (by omega)
    rw [← hquotient] at hone
    exact absurd hone (by decide)
  · rintro ⟨ha, hbBits⟩
    exact BRInt.divide_toNat ha hbBits hb

/-- Seven divided by two. -/
theorem divide_iff_seven : ∃ q, divide 257 7 2 = some q ∧ q.toNat = 7 / 2 :=
  (divide_iff (by decide) 7 2 (by decide)).2 ⟨by decide, by decide⟩

/-- The number `2 ^ 255` is not divided by one. -/
theorem not_divide :
    ¬ ∃ q, divide 257 (1#256 <<< 255) 1#256 = some q ∧
      q.toNat = (1#256 <<< 255).toNat / (1#256).toNat := by
  rintro ⟨q, hq, hquotient⟩
  rw [divide_eq (by decide), Limbs.divide_eq,
    divide_of_large (by decide) (by decide) (by decide), Option.some.injEq] at hq
  subst hq
  exact absurd hquotient (by decide)

end CheckedInt

end RavenWallet
