/-
  The 256-bit arithmetic of BRInt.h, limb by limb.

  A `UInt256` is a union of 32-bit and of 64-bit limbs; loops go over the ones or the
  others.  Each function computes the operation of bit vectors by which `BRInt` stands for
  it: `add_eq`, `subtract_eq`, `shiftLeft_eq`, `shiftRight_eq`, `supEq_iff`, `bits_eq`,
  `divide_eq`, `multiplyThis32_eq`, `setCompact_eq` and `getCompact_eq`.
-/
import RavenWallet.Lib.Limbs
import RavenWallet.Core.Difficulty

namespace RavenWallet.Limbs

/-- The limbs `u32`. -/
def u32s (a : UInt256) : List ℕ := toLimbs 32 8 a.toNat

def ofU32s (limbs : List ℕ) : UInt256 := BitVec.ofNat 256 (ofLimbs 32 limbs)

def u32 (a : UInt256) (i : ℕ) : BitVec 32 := limb 32 a i

def u64 (a : UInt256) (i : ℕ) : BitVec 64 := limb 64 a i

/-- The inner loop of `bits`, from the bit `b` down to 1. -/
def topBit (x : BitVec 32) : ℕ → ℕ
  | 0 => 1
  | b + 1 => if x.getLsbD (b + 1) then b + 2 else topBit x b

/-- The outer loop of `bits`, from the limb `pos - 1` down. -/
def bitsLoop (number : UInt256) : ℕ → ℕ
  | 0 => 0
  | pos + 1 =>
    if u32 number pos ≠ 0 then 32 * pos + topBit (u32 number pos) 31 else bitsLoop number pos

/-- `bits` -/
def bits (number : UInt256) : UInt8 := UInt8.ofNat (bitsLoop number 8)

def addLoop : List ℕ → List ℕ → ℕ → List ℕ
  | a :: as, b :: bs, carry =>
    let sum := (a + b + carry) % 2 ^ 64
    sum % 2 ^ 32 :: addLoop as bs (sum / 2 ^ 32)
  | _, _, _ => []

/-- `add` -/
def add (a b : UInt256) : UInt256 := ofU32s (addLoop (u32s a) (u32s b) 0)

/-- `addOne` -/
def addOne (a : UInt256) : UInt256 := add a 1

/-- `neg` -/
def neg (a : UInt256) : UInt256 := orAll (fun i => place 256 (~~~ u64 a i) i) 4

/-- `subtract` -/
def subtract (a b : UInt256) : UInt256 := add a (addOne (neg b))

/-- `shiftLeft` -/
def shiftLeft (a : UInt256) (bits : UInt8) : UInt256 :=
  let k := bits.toNat / 64
  let b := bits.toNat % 64
  orAll (fun i =>
    (if i + k + 1 < 4 ∧ b ≠ 0 then place 256 (u64 a i >>> (64 - b)) (i + k + 1) else 0#256) |||
    (if i + k < 4 then place 256 (u64 a i <<< b) (i + k) else 0#256)) 4

/-- `shiftRight` -/
def shiftRight (a : UInt256) (bits : UInt8) : UInt256 :=
  let k := bits.toNat / 64
  let b := bits.toNat % 64
  orAll (fun i =>
    (if k + 1 ≤ i ∧ b ≠ 0 then place 256 (u64 a i <<< (64 - b)) (i - k - 1) else 0#256) |||
    (if k ≤ i then place 256 (u64 a i >>> b) (i - k) else 0#256)) 4

/-- `UInt256SupEq` -/
def supEq (a b : UInt256) : Bool :=
  decide ((u64 a 3 > u64 b 3) ∨ (u64 a 3 = u64 b 3 ∧ ((u64 a 2 > u64 b 2) ∨
    (u64 a 2 = u64 b 2 ∧ ((u64 a 1 > u64 b 1) ∨ (u64 a 1 = u64 b 1 ∧ u64 a 0 ≥ u64 b 0))))))

/-- The loop of `divide`, from the shift `n - 1` down. -/
def divideLoop : ℕ → UInt256 → UInt256 → UInt256 → UInt256
  | 0, _, _, r => r
  | shift + 1, num, div, r =>
    if supEq num div then
      divideLoop shift (subtract num div) (shiftRight div 1)
        (r ||| place 256 (1#32 <<< (shift % 32)) (shift / 32))
    else divideLoop shift num (shiftRight div 1) r

/-- `divide` -/
def divide (a b : UInt256) : Option UInt256 :=
  let num_bits := bits a
  let div_bits := bits b
  if div_bits = 0 then none
  else if div_bits > num_bits then some 0
  else
    let shift := num_bits - div_bits
    some (divideLoop (shift.toNat + 1) a (shiftLeft b shift) 0)

def multiplyLoop (b : ℕ) : List ℕ → ℕ → List ℕ
  | [], _ => []
  | a :: as, carry =>
    let n := (carry + b * a) % 2 ^ 64
    n % 2 ^ 32 :: multiplyLoop b as (n / 2 ^ 32)

/-- `multiplyThis32` -/
def multiplyThis32 (a : UInt256) (b : UInt32) : UInt256 := ofU32s (multiplyLoop b.toNat (u32s a) 0)

/-- `setCompact` -/
def setCompact (nCompact : Int32) : UInt256 :=
  let nSize := (nCompact >>> 24).toInt
  let nWord := place 256 (nCompact.toUInt32 &&& 0x007fffff).toBitVec 0
  if nSize ≤ 3 then shiftRight nWord (UInt8.ofInt (8 * (3 - nSize)))
  else shiftLeft nWord (UInt8.ofInt (8 * (nSize - 3)))

/-- `getCompact` -/
def getCompact (number : UInt256) : Option UInt32 :=
  let nSize := ((bits number).toNat + 7) / 8
  let nCompact :=
    if nSize ≤ 3 then (⟨u32 number 0⟩ : UInt32) <<< UInt32.ofNat (8 * (3 - nSize))
    else ⟨u32 (shiftRight number (UInt8.ofNat (8 * (nSize - 3)))) 0⟩
  let (nCompact, nSize) :=
    if nCompact &&& 0x00800000 ≠ 0 then (nCompact >>> 8, nSize + 1) else (nCompact, nSize)
  if nCompact &&& ~~~0x007fffff = 0 ∧ nSize < 256 then
    some (nCompact ||| UInt32.ofNat nSize <<< 24)
  else none

/-! ## Addition and multiplication -/

theorem addLoop_eq {as bs : List ℕ} {carry : ℕ} (ha : ∀ a ∈ as, a < 2 ^ 32)
    (hb : ∀ b ∈ bs, b < 2 ^ 32) (hcarry : carry < 2 ^ 32) :
    addLoop as bs carry = carryLoop 32 (List.zipWith (· + ·) as bs) carry := by
  induction as generalizing bs carry with
  | nil => rfl
  | cons a as ih =>
    cases bs with
    | nil => rfl
    | cons b bs =>
      have ha0 := ha a List.mem_cons_self
      have hb0 := hb b List.mem_cons_self
      have hsum : (a + b + carry) % 2 ^ 64 = carry + (a + b) := by omega
      rw [addLoop, List.zipWith_cons_cons, carryLoop, hsum,
        ih (fun a h => ha a (List.mem_cons_of_mem _ h))
        (fun b h => hb b (List.mem_cons_of_mem _ h)) (by omega)]

theorem multiplyLoop_eq {as : List ℕ} {b carry : ℕ} (ha : ∀ a ∈ as, a < 2 ^ 32)
    (hb : b < 2 ^ 32) (hcarry : carry < 2 ^ 32) :
    multiplyLoop b as carry = carryLoop 32 (as.map fun a => b * a) carry := by
  induction as generalizing carry with
  | nil => rfl
  | cons a as ih =>
    have ha0 := ha a List.mem_cons_self
    have hproduct : b * a ≤ (2 ^ 32 - 1) * (2 ^ 32 - 1) :=
      Nat.mul_le_mul (Nat.le_pred_of_lt hb) (Nat.le_pred_of_lt ha0)
    have hsum : (carry + b * a) % 2 ^ 64 = carry + b * a := by omega
    rw [multiplyLoop, List.map_cons, carryLoop, hsum,
      ih (fun a h => ha a (List.mem_cons_of_mem _ h)) (by omega)]

theorem ofLimbs_u32s (a : UInt256) : ofLimbs 32 (u32s a) = a.toNat :=
  ofLimbs_toLimbs_of_lt a.isLt

theorem u32s_lt (a : UInt256) : ∀ x ∈ u32s a, x < 2 ^ 32 := toLimbs_lt

@[simp] theorem length_u32s (a : UInt256) : (u32s a).length = 8 := length_toLimbs 8 a.toNat

theorem ofNat_mod (n : ℕ) : BitVec.ofNat 256 (n % 2 ^ (32 * 8)) = BitVec.ofNat 256 n := by
  rw [show 32 * 8 = 256 from rfl]
  exact BitVec.eq_of_toNat_eq (by simp)

theorem add_eq (a b : UInt256) : add a b = a + b := by
  have hlen : (u32s a).length = (u32s b).length := by rw [length_u32s, length_u32s]
  have hzip : (List.zipWith (· + ·) (u32s a) (u32s b)).length = 8 := by
    rw [List.length_zipWith, ← hlen, Nat.min_self, length_u32s]
  rw [add, addLoop_eq (u32s_lt a) (u32s_lt b) (by decide), ofU32s, ofLimbs_carryLoop, hzip,
    ofNat_mod, Nat.zero_add, ofLimbs_zipWith_add hlen, ofLimbs_u32s, ofLimbs_u32s, BitVec.ofNat_add,
    BitVec.ofNat_toNat, BitVec.ofNat_toNat, BitVec.setWidth_eq, BitVec.setWidth_eq]

theorem multiplyThis32_eq (a : UInt256) (b : UInt32) :
    multiplyThis32 a b = BRInt.multiplyThis32 a b := by
  have hlen : ((u32s a).map fun x => b.toNat * x).length = 8 := by
    rw [List.length_map, length_u32s]
  rw [multiplyThis32, multiplyLoop_eq (u32s_lt a) b.toNat_lt (by decide), ofU32s, ofLimbs_carryLoop,
    hlen, ofNat_mod, Nat.zero_add, ofLimbs_map_mul, ofLimbs_u32s, BRInt.multiplyThis32,
    BitVec.mul_comm, BitVec.ofNat_mul, BitVec.ofNat_toNat, BitVec.setWidth_eq]

theorem neg_eq (a : UInt256) : neg a = ~~~a := by
  have hlimb : ∀ i < 4, place 256 (~~~ u64 a i) i = place 256 (limb 64 (~~~a) i) i := by
    intro i hi
    rw [u64, limb_not (by omega)]
  rw [neg, orAll_congr hlimb, orAll_limb (by decide) (by decide)]

theorem subtract_eq (a b : UInt256) : subtract a b = a - b := by
  rw [subtract, addOne, add_eq, add_eq, neg_eq, BitVec.sub_eq_add_neg, BitVec.neg_eq_not_add]
  rfl

/-! ## Shifts -/

theorem orAll_u64 (a : UInt256) : orAll (fun i => place 256 (u64 a i) i) 4 = a :=
  orAll_limb (by decide) (by decide) a

theorem shiftLeft_eq (a : UInt256) (bits : UInt8) : shiftLeft a bits = BRInt.shiftLeft a bits := by
  have hbits : 64 * (bits.toNat / 64) + bits.toNat % 64 = bits.toNat := Nat.div_add_mod _ _
  have hlt : bits.toNat % 64 < 64 := Nat.mod_lt _ (by decide)
  unfold shiftLeft BRInt.shiftLeft
  dsimp only
  generalize bits.toNat / 64 = k at hbits ⊢
  generalize bits.toNat % 64 = b at hbits hlt ⊢
  rw [← hbits]
  have hlimb : ∀ i < 4,
      (if i + k + 1 < 4 ∧ b ≠ 0 then place 256 (u64 a i >>> (64 - b)) (i + k + 1) else 0#256) |||
        (if i + k < 4 then place 256 (u64 a i <<< b) (i + k) else 0#256) =
      place 256 (u64 a i) i <<< (64 * k + b) := by
    intro i hi
    have hcarry : (if i + k + 1 < 4 ∧ b ≠ 0 then
        place 256 (u64 a i >>> (64 - b)) (i + k + 1) else 0#256) =
          place 256 (u64 a i >>> (64 - b)) (i + k + 1) := by
      split_ifs with hcond
      · rfl
      · by_cases hb : b = 0
        · rw [BitVec.ushiftRight_eq_zero (by omega), place_zero]
        · exact (place_of_le (by omega)).symm
    have hrest : (if i + k < 4 then place 256 (u64 a i <<< b) (i + k) else 0#256) =
        place 256 (u64 a i <<< b) (i + k) := by
      split_ifs with hcond
      · rfl
      · exact (place_of_le (by omega)).symm
    rw [hcarry, hrest, place_shiftLeft hlt, place_add, BitVec.shiftLeft_add]
  rw [orAll_congr hlimb, orAll_map (f := fun x => x <<< (64 * k + b)) (by simp)
    fun x y => BitVec.shiftLeft_or_distrib x y _]
  rw [orAll_u64]

theorem shiftRight_eq (a : UInt256) (bits : UInt8) :
    shiftRight a bits = BRInt.shiftRight a bits := by
  have hbits : 64 * (bits.toNat / 64) + bits.toNat % 64 = bits.toNat := Nat.div_add_mod _ _
  have hlt : bits.toNat % 64 < 64 := Nat.mod_lt _ (by decide)
  unfold shiftRight BRInt.shiftRight
  dsimp only
  generalize bits.toNat / 64 = k at hbits ⊢
  generalize bits.toNat % 64 = b at hbits hlt ⊢
  rw [← hbits]
  have hlimb : ∀ i < 4,
      (if k + 1 ≤ i ∧ b ≠ 0 then place 256 (u64 a i <<< (64 - b)) (i - k - 1) else 0#256) |||
        (if k ≤ i then place 256 (u64 a i >>> b) (i - k) else 0#256) =
      place 256 (u64 a i) i >>> (64 * k + b) := by
    intro i hi
    rw [BitVec.shiftRight_add]
    rcases Nat.lt_trichotomy k i with hki | rfl | hki
    · obtain ⟨j, rfl⟩ : ∃ j, i = j + 1 + k := ⟨i - k - 1, by omega⟩
      have hcarry : (if k + 1 ≤ j + 1 + k ∧ b ≠ 0 then
          place 256 (u64 a (j + 1 + k) <<< (64 - b)) (j + 1 + k - k - 1) else 0#256) =
            place 256 (u64 a (j + 1 + k) <<< (64 - b)) j := by
        rw [Nat.add_sub_cancel, Nat.add_sub_cancel]
        split_ifs with hcond
        · rfl
        · have hb : b = 0 := by omega
          simp [hb]
      rw [hcarry, if_pos (by omega), ← place_sub _ (by omega) (by omega), Nat.add_sub_cancel,
        place_shiftRight hlt _ (by omega)]
    · rw [if_neg (by omega), if_pos (Nat.le_refl k), ← place_sub _ (Nat.le_refl k) (by omega),
        Nat.sub_self, place_zero_shiftRight b _ (by decide), BitVec.zero_or]
    · rw [if_neg (by omega), if_neg (by omega), place_shiftRight_whole _ hki]
      simp
  rw [orAll_congr hlimb, orAll_map (f := fun x => x >>> (64 * k + b)) (by simp)
    fun x y => BitVec.ushiftRight_or_distrib x y _]
  rw [orAll_u64]

/-! ## Comparison -/

/-- The four limbs of a number. -/
theorem exists_limbs (a : UInt256) : ∃ x₀ < 2 ^ 64, ∃ x₁ < 2 ^ 64, ∃ x₂ < 2 ^ 64, ∃ x₃ < 2 ^ 64,
    (u64 a 0).toNat = x₀ ∧ (u64 a 1).toNat = x₁ ∧ (u64 a 2).toNat = x₂ ∧ (u64 a 3).toNat = x₃ ∧
      a.toNat = x₀ + 2 ^ 64 * (x₁ + 2 ^ 64 * (x₂ + 2 ^ 64 * x₃)) := by
  have ha := a.isLt
  have h₁ := Nat.mod_add_div a.toNat (2 ^ 64)
  have h₂ := Nat.mod_add_div (a.toNat / 2 ^ 64) (2 ^ 64)
  have h₃ := Nat.mod_add_div (a.toNat / 2 ^ 64 / 2 ^ 64) (2 ^ 64)
  have h₄ : a.toNat / 2 ^ 64 / 2 ^ 64 / 2 ^ 64 % 2 ^ 64 = a.toNat / 2 ^ 64 / 2 ^ 64 / 2 ^ 64 := by
    refine Nat.mod_eq_of_lt ?_
    omega
  refine ⟨_, (u64 a 0).isLt, _, (u64 a 1).isLt, _, (u64 a 2).isLt, _, (u64 a 3).isLt, rfl, rfl, rfl,
    rfl, ?_⟩
  simp only [u64, toNat_limb]
  rw [show 2 ^ (64 * 2) = 2 ^ 64 * 2 ^ 64 from rfl,
    show 2 ^ (64 * 3) = 2 ^ 64 * 2 ^ 64 * 2 ^ 64 from rfl,
    ← Nat.div_div_eq_div_mul, ← Nat.div_div_eq_div_mul, ← Nat.div_div_eq_div_mul, h₄, h₃, h₂]
  simpa using h₁.symm

theorem supEq_iff (a b : UInt256) : supEq a b = true ↔ a ≥ b := by
  obtain ⟨x₀, hx₀, x₁, hx₁, x₂, hx₂, x₃, hx₃, ha₀, ha₁, ha₂, ha₃, ha⟩ := exists_limbs a
  obtain ⟨y₀, hy₀, y₁, hy₁, y₂, hy₂, y₃, hy₃, hb₀, hb₁, hb₂, hb₃, hb⟩ := exists_limbs b
  simp only [supEq, decide_eq_true_eq, gt_iff_lt, ge_iff_le, BitVec.lt_def, BitVec.le_def,
    ← BitVec.toNat_inj, ha, hb, ha₀, ha₁, ha₂, ha₃, hb₀, hb₁, hb₂, hb₃]
  omega

/-! ## Bits -/

theorem topBit_eq {x : BitVec 32} {b : ℕ} (hx : x.toNat ≠ 0) (hb : x.toNat < 2 ^ (b + 1)) :
    topBit x b = x.toNat.size := by
  induction b with
  | zero =>
    have hone : x.toNat = 1 := by omega
    rw [hone, topBit, Nat.size_one]
  | succ b ih =>
    rw [topBit]
    split_ifs with hbit
    · have hle : 2 ^ (b + 1) ≤ x.toNat := Nat.ge_two_pow_of_testBit hbit
      exact le_antisymm (Nat.lt_size.2 hle) (Nat.size_le.2 hb)
    · refine ih (Nat.lt_pow_two_of_testBit _ fun i hi => ?_)
      rcases Nat.lt_or_eq_of_le hi with hi | rfl
      · exact Nat.testBit_lt_two_pow (Nat.lt_of_lt_of_le hb (Nat.pow_le_pow_right (by decide) hi))
      · exact Bool.eq_false_of_not_eq_true hbit

/-- The size of a number by that of its highest limb that is not zero. -/
theorem size_limb {n q : ℕ} (k : ℕ) (hq : n / 2 ^ k = q) (h0 : q ≠ 0) : n.size = k + q.size := by
  subst hq
  refine le_antisymm (Nat.size_le.2 ?_) ?_
  · rw [Nat.pow_add, Nat.mul_comm]
    exact (Nat.div_lt_iff_lt_mul (Nat.two_pow_pos k)).1 (Nat.lt_size_self _)
  · obtain ⟨s, hs⟩ : ∃ s, (n / 2 ^ k).size = s + 1 :=
      Nat.exists_eq_succ_of_ne_zero (by rwa [Ne, Nat.size_eq_zero])
    have hle : 2 ^ s ≤ n / 2 ^ k := Nat.lt_size.1 (by omega)
    have hpow : 2 ^ (k + s) ≤ n := by
      rw [Nat.pow_add]
      exact (Nat.mul_le_mul_left _ hle).trans (Nat.mul_div_le n (2 ^ k))
    rw [hs]
    exact Nat.lt_size.2 hpow

theorem bitsLoop_eq {number : UInt256} {pos : ℕ} (h : number.toNat < 2 ^ (32 * pos)) :
    bitsLoop number pos = number.toNat.size := by
  induction pos with
  | zero =>
    rw [Nat.mul_zero, Nat.pow_zero, Nat.lt_one_iff] at h
    rw [h, bitsLoop, Nat.size_zero]
  | succ pos ih =>
    have hlimb : (u32 number pos).toNat = number.toNat / 2 ^ (32 * pos) := by
      rw [u32, toNat_limb, Nat.mod_eq_of_lt]
      rw [Nat.mul_succ, Nat.pow_add] at h
      exact Nat.div_lt_of_lt_mul h
    rw [bitsLoop]
    split_ifs with h0
    · have h0 : (u32 number pos).toNat ≠ 0 := by simpa [← BitVec.toNat_inj] using h0
      rw [topBit_eq h0 (u32 number pos).isLt]
      exact (size_limb _ hlimb.symm h0).symm
    · rw [Decidable.not_not] at h0
      rw [h0] at hlimb
      exact ih (Nat.lt_of_div_eq_zero (Nat.two_pow_pos _) hlimb.symm)

theorem bits_eq (number : UInt256) : bits number = BRInt.bits number := by
  rw [bits, bitsLoop_eq number.isLt, BRInt.bits]

/-! ## Division -/

theorem setBit_eq (shift : ℕ) :
    place 256 (1#32 <<< (shift % 32)) (shift / 32) = 1#256 <<< shift := by
  have hlt : shift % 32 < 32 := Nat.mod_lt _ (by decide)
  have hout : 1#32 >>> (32 - shift % 32) = 0#32 := by
    refine BitVec.eq_of_toNat_eq ?_
    rw [BitVec.toNat_ushiftRight, Nat.shiftRight_eq_div_pow]
    exact Nat.div_eq_of_lt (Nat.one_lt_two_pow (by omega))
  have hshift := @place_shiftLeft 32 256 _ hlt 1#32 (shift / 32)
  rw [hout, place_zero, BitVec.zero_or] at hshift
  rw [hshift, place, ← BitVec.shiftLeft_add, Nat.div_add_mod]
  rfl

theorem divideLoop_eq {n : ℕ} (hn : n ≤ 256) (num div r : UInt256) :
    divideLoop n num div r = BRInt.divideLoop n num div r := by
  induction n generalizing num div r with
  | zero => rfl
  | succ shift ih =>
    rw [divideLoop, BRInt.divideLoop, subtract_eq, shiftRight_eq, setBit_eq,
      ih (by omega), ih (by omega)]
    simp only [supEq_iff]

theorem divide_eq (a b : UInt256) : divide a b = BRInt.divide a b := by
  have hshift : (BRInt.bits a - BRInt.bits b).toNat + 1 ≤ 256 :=
    (BRInt.bits a - BRInt.bits b).toNat_lt
  unfold divide BRInt.divide
  simp only [bits_eq, shiftLeft_eq, divideLoop_eq hshift]

/-! ## Compact numbers -/

theorem place_word (x : UInt32) : place 256 x.toBitVec 0 = BitVec.ofNat 256 x.toNat := by
  refine BitVec.eq_of_toNat_eq ?_
  simp [place]

theorem setCompact_eq (nCompact : Int32) : setCompact nCompact = BRInt.setCompact nCompact := by
  unfold setCompact BRInt.setCompact
  simp only [place_word, shiftLeft_eq, shiftRight_eq]

theorem u32_zero (a : UInt256) : (⟨u32 a 0⟩ : UInt32) = BRInt.low32 a := by
  refine UInt32.toNat_inj.1 ?_
  rw [BRInt.low32, UInt32.toNat_ofNat']
  show (u32 a 0).toNat = _
  rw [u32, toNat_limb, Nat.mul_zero, Nat.pow_zero, Nat.div_one]

theorem getCompact_eq (number : UInt256) : getCompact number = BRInt.getCompact number := by
  unfold getCompact BRInt.getCompact
  simp only [bits_eq, shiftRight_eq, u32_zero]

end RavenWallet.Limbs
