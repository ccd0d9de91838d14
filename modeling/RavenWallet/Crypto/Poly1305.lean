/-
  The Poly1305 authenticator (BRCrypto.c).

  `h` and `r` are kept in five limbs of 26 bits.  The numbers are those in the variables
  of 32 and 64 bits; what is cut off on purpose is cut off here, and `fits` is `none`
  where a carry would be lost.

  * `addBlock_eq`, `mulKey_eq`, `carry_eq`: what a round does, with the bounds of the limbs
    that the next round needs (`Reduced`);
  * `foldlM_absorb`: a whole loop, modulo `2 ^ 130 - 5`;
  * `finish_eq`: the final reduction and the tag;
  * `poly1305_exact`: the tag is that of RFC 7539, in one call or several.
-/
import Mathlib.Algebra.BigOperators.Ring.List
import Mathlib.Data.Nat.ModEq
import Mathlib.Tactic.Ring
import RavenWallet.Crypto.Hashes

namespace RavenWallet

/-! ## The code -/

/-- The result of an addition or a multiplication in `w` bits, if it fits. -/
def fits (w n : ℕ) : Option ℕ := if n < 2 ^ w then some n else none

/-- `t << n` in 32 bits. -/
def shl32 (t n : ℕ) : ℕ := t <<< n % 2 ^ 32

/-- The `i`-th word of `x`. -/
def polyWord (x : Bytes) (i : ℕ) : ℕ := (le32 (wordAt x i)).toNat

/-- Five limbs (`h`, `r` or `d`). -/
structure Limbs5 where
  l0 : ℕ
  l1 : ℕ
  l2 : ℕ
  l3 : ℕ
  l4 : ℕ
  deriving DecidableEq

/-- `r &= 0xffffffc0ffffffc0ffffffc0fffffff` -/
def clampedKey (key32 : Bytes) : Limbs5 :=
  let t0 := polyWord key32 0
  let t1 := polyWord key32 1
  let t2 := polyWord key32 2
  let t3 := polyWord key32 3
  { l0 := t0 &&& 0x03ffffff
    l1 := ((t0 >>> 26) ||| shl32 t1 6) &&& 0x03ffff03
    l2 := ((t1 >>> 20) ||| shl32 t2 12) &&& 0x03ffc0ff
    l3 := ((t2 >>> 14) ||| shl32 t3 18) &&& 0x03f03fff
    l4 := (t3 >>> 8) &&& 0x000fffff }

/-- The 16 bytes of `x` for the data from `i` on. -/
def polyBlock (data : Bytes) (i : ℕ) (x : Bytes) : Option Bytes :=
  if i + 16 > data.length then do
    let rest ← peek data i (data.length - i)
    let x ← poke x 0 rest
    let x ← poke x (data.length - i) (List.replicate (16 - (data.length - i)) 0)
    poke x (data.length - i) [1]
  else do
    let block ← peek data i 16
    poke x 0 block

namespace Limbs5

/-- `h += x` -/
def addBlock (h : Limbs5) (x : Bytes) (whole : Bool) : Option Limbs5 := do
  let t0 := polyWord x 0
  let t1 := polyWord x 1
  let t2 := polyWord x 2
  let t3 := polyWord x 3
  let h0 ← fits 32 (h.l0 + (t0 &&& 0x03ffffff))
  let h1 ← fits 32 (h.l1 + (((t0 >>> 26) ||| shl32 t1 6) &&& 0x03ffffff))
  let h2 ← fits 32 (h.l2 + (((t1 >>> 20) ||| shl32 t2 12) &&& 0x03ffffff))
  let h3 ← fits 32 (h.l3 + (((t2 >>> 14) ||| shl32 t3 18) &&& 0x03ffffff))
  let h4 ← fits 32 (h.l4 + ((t3 >>> 8) ||| if whole then 1 <<< 24 else 0))
  some ⟨h0, h1, h2, h3, h4⟩

/-- `h *= r` -/
def mulKey (h r : Limbs5) : Option Limbs5 := do
  let d0 ← fits 64
    (h.l0 * r.l0 + h.l1 * r.l4 * 5 + h.l2 * r.l3 * 5 + h.l3 * r.l2 * 5 + h.l4 * r.l1 * 5)
  let d1 ← fits 64
    (h.l0 * r.l1 + h.l1 * r.l0 + h.l2 * r.l4 * 5 + h.l3 * r.l3 * 5 + h.l4 * r.l2 * 5)
  let d2 ← fits 64
    (h.l0 * r.l2 + h.l1 * r.l1 + h.l2 * r.l0 + h.l3 * r.l4 * 5 + h.l4 * r.l3 * 5)
  let d3 ← fits 64
    (h.l0 * r.l3 + h.l1 * r.l2 + h.l2 * r.l1 + h.l3 * r.l0 + h.l4 * r.l4 * 5)
  let d4 ← fits 64
    (h.l0 * r.l4 + h.l1 * r.l3 + h.l2 * r.l2 + h.l3 * r.l1 + h.l4 * r.l0)
  some ⟨d0, d1, d2, d3, d4⟩

/-- `(partial) h %= p` -/
def carry (d : Limbs5) : Option Limbs5 := do
  let c0 ← fits 32 (d.l0 >>> 26)
  let d1 ← fits 64 (d.l1 + c0)
  let c1 ← fits 32 (d1 >>> 26)
  let d2 ← fits 64 (d.l2 + c1)
  let c2 ← fits 32 (d2 >>> 26)
  let d3 ← fits 64 (d.l3 + c2)
  let c3 ← fits 32 (d3 >>> 26)
  let d4 ← fits 64 (d.l4 + c3)
  let c4 ← fits 32 (d4 >>> 26)
  let c5 ← fits 32 (c4 * 5)
  let h0 ← fits 32 ((d.l0 &&& 0x03ffffff) + c5)
  let h1 ← fits 32 ((d1 &&& 0x03ffffff) + (h0 >>> 26))
  some ⟨h0 &&& 0x03ffffff, h1, d2 &&& 0x03ffffff, d3 &&& 0x03ffffff, d4 &&& 0x03ffffff⟩

/-- The body of the loop, once `x` is copied. -/
def round (r h : Limbs5) (x : Bytes) (whole : Bool) : Option Limbs5 := do
  let h ← h.addBlock x whole
  let d ← h.mulKey r
  d.carry

/-- `fully carry h` -/
def carryAll (h : Limbs5) : Option Limbs5 := do
  let h2 ← fits 32 (h.l2 + (h.l1 >>> 26))
  let h1 := h.l1 &&& 0x03ffffff
  let h3 ← fits 32 (h.l3 + (h2 >>> 26))
  let h2 := h2 &&& 0x03ffffff
  let h4 ← fits 32 (h.l4 + (h3 >>> 26))
  let h3 := h3 &&& 0x03ffffff
  let h0 ← fits 32 (h.l0 + (h4 >>> 26) * 5)
  let h4 := h4 &&& 0x03ffffff
  let h1 ← fits 32 (h1 + (h0 >>> 26))
  let h0 := h0 &&& 0x03ffffff
  some ⟨h0, h1, h2, h3, h4⟩

/-- `compute h + -p`, where the highest limb wraps around -/
def subPrime (h : Limbs5) : Option Limbs5 := do
  let t0 ← fits 32 (h.l0 + 5)
  let t1 ← fits 32 (h.l1 + (t0 >>> 26))
  let t2 ← fits 32 (h.l2 + (t1 >>> 26))
  let t3 ← fits 32 (h.l3 + (t2 >>> 26))
  let t4 := (h.l4 + (t3 >>> 26) + (2 ^ 32 - 1 <<< 26)) % 2 ^ 32
  some ⟨t0 &&& 0x03ffffff, t1 &&& 0x03ffffff, t2 &&& 0x03ffffff, t3 &&& 0x03ffffff, t4⟩

/-- `select h if h < p, or h + -p if h >= p` -/
def select (h t : Limbs5) : Limbs5 :=
  let b := ((t.l4 >>> 31) + (2 ^ 32 - 1)) % 2 ^ 32
  let pick (h t : ℕ) : ℕ := (h &&& (0xffffffff - b)) ||| (t &&& b)
  ⟨pick h.l0 t.l0, pick h.l1 t.l1, pick h.l2 t.l2, pick h.l3 t.l3, pick h.l4 t.l4⟩

/-- `h = h % (2^128)`, in words of 32 bits -/
def mod128 (h : Limbs5) : Limbs5 where
  l0 := (h.l0 ||| shl32 h.l1 26) &&& 0xffffffff
  l1 := ((h.l1 >>> 6) ||| shl32 h.l2 20) &&& 0xffffffff
  l2 := ((h.l2 >>> 12) ||| shl32 h.l3 14) &&& 0xffffffff
  l3 := ((h.l3 >>> 18) ||| shl32 h.l4 8) &&& 0xffffffff
  l4 := h.l4

/-- `mac = (h + pad) % (2^128)` -/
def addPad (h : Limbs5) (key32 : Bytes) : Option Limbs5 := do
  let x := key32.drop 16
  let d0 ← fits 64 (h.l0 + polyWord x 0)
  let d1 ← fits 64 (h.l1 + polyWord x 1 + (d0 >>> 32))
  let d2 ← fits 64 (h.l2 + polyWord x 2 + (d1 >>> 32))
  let d3 ← fits 64 (h.l3 + polyWord x 3 + (d2 >>> 32))
  some ⟨d0 % 2 ^ 32, d1 % 2 ^ 32, d2 % 2 ^ 32, d3 % 2 ^ 32, h.l4⟩

/-- What is done in the final call after the loop. -/
def finish (h : Limbs5) (key32 : Bytes) : Option Limbs5 := do
  let h ← h.carryAll
  let t ← h.subPrime
  (h.select t).mod128.addPad key32

/-- The first four words. -/
def mac (h : Limbs5) : Bytes := toLE 4 h.l0 ++ toLE 4 h.l1 ++ toLE 4 h.l2 ++ toLE 4 h.l3

end Limbs5

/-- The loop over the data; the first argument is the number of rounds that are left. -/
def polyLoop (r : Limbs5) (data : Bytes) : ℕ → ℕ → Bytes → Limbs5 → Option Limbs5
  | 0, _, _, _ => none
  | rounds + 1, i, x, h =>
    if i < data.length then do
      let x ← polyBlock data i x
      let h ← r.round h x (i + 16 ≤ data.length)
      polyLoop r data rounds (i + 16) x h
    else some h

/-- `_Poly1305Compress`. -/
def poly1305Compress (h : Limbs5) (key32 data : Bytes) (final : Bool) : Option Limbs5 := do
  let h ← polyLoop (clampedKey key32) data (data.length / 16 + 2) 0 (key32.take 16) h
  if final then h.finish key32 else some h

def Poly1305 (key32 data : Bytes) : Option Bytes :=
  (poly1305Compress ⟨0, 0, 0, 0, 0⟩ key32 data true).map Limbs5.mac

/-! ## Limbs -/

theorem fits_of_lt {w n : ℕ} (h : n < 2 ^ w) : fits w n = some n := if_pos h

/-- A step whose result fits, with a name for it. -/
theorem fits_bind {α : Type} {w n : ℕ} {f : ℕ → Option α} {P : α → Prop} (h : n < 2 ^ w)
    (hf : ∀ m, m = n → ∃ a, f m = some a ∧ P a) : ∃ a, (fits w n >>= f) = some a ∧ P a := by
  rw [fits_of_lt h]
  exact hf n rfl

theorem and_mask (n : ℕ) : n &&& 0x03ffffff = n % 2 ^ 26 := Nat.and_two_pow_sub_one_eq_mod n 26

/-- A mask of at most 26 bits. -/
theorem and_mask_of_lt {n m : ℕ} (hm : m < 2 ^ 26) : n &&& m = n % 2 ^ 26 &&& m := by
  have hlt : n &&& m < 2 ^ 26 := Nat.and_lt_two_pow n hm
  rw [← Nat.mod_eq_of_lt hlt, Nat.and_mod_two_pow, Nat.mod_eq_of_lt hm]

/-- Bits below `k`, and bits that are shifted by `k`. -/
theorem or_shl32 {a k : ℕ} (b : ℕ) (ha : a < 2 ^ k) (hk : k ≤ 32) :
    a ||| shl32 b k = a + 2 ^ k * (b % 2 ^ (32 - k)) := by
  have hshift : shl32 b k = 2 ^ k * (b % 2 ^ (32 - k)) := by
    have hpow : 2 ^ 32 = 2 ^ k * 2 ^ (32 - k) := by rw [← Nat.pow_add, Nat.add_sub_cancel' hk]
    rw [shl32, Nat.shiftLeft_eq, Nat.mul_comm, hpow, Nat.mul_mod_mul_left]
  rw [hshift, Nat.or_comm, ← Nat.two_pow_add_eq_or_of_lt ha, Nat.add_comm]

theorem polyWord_lt (x : Bytes) (i : ℕ) : polyWord x i < 2 ^ 32 := UInt32.toNat_lt _

theorem polyWord_eq (x : Bytes) (i : ℕ) : polyWord x i = ofLE ((x.drop (4 * i)).take 4) := by
  have hlt := ofLE_lt ((x.drop (4 * i)).take 4)
  have hpow := Nat.pow_le_pow_right (n := 256) (by omega)
    (List.length_take_le 4 (x.drop (4 * i)))
  rw [polyWord, le32, wordAt, UInt32.toNat_ofNat', Nat.mod_eq_of_lt (by omega)]

/-- 16 bytes as four words. -/
theorem ofLE_words {x : Bytes} (hx : x.length = 16) :
    ofLE x = polyWord x 0 + 2 ^ 32 * polyWord x 1 + 2 ^ 64 * polyWord x 2 +
      2 ^ 96 * polyWord x 3 := by
  have hsplit (l : Bytes) (h : 4 ≤ l.length) :
      ofLE l = ofLE (l.take 4) + 2 ^ 32 * ofLE (l.drop 4) := by
    conv_lhs => rw [← List.take_append_drop 4 l]
    rw [ofLE_append, List.length_take_of_le h]
    norm_num
  have h0 := hsplit x (by omega)
  have h1 := hsplit (x.drop 4) (by rw [List.length_drop]; omega)
  have h2 := hsplit ((x.drop 4).drop 4) (by rw [List.length_drop, List.length_drop]; omega)
  have h3 : ((x.drop 4).drop 4).drop 4 = (x.drop 12).take 4 := by
    rw [List.drop_drop, List.drop_drop, List.take_of_length_le]
    rw [List.length_drop]
    omega
  rw [h3] at h2
  rw [List.drop_drop] at h1 h2
  simp only [polyWord_eq, Nat.mul_zero, List.drop_zero]
  norm_num only at h0 h1 h2 ⊢
  omega

section
variable {t0 t1 t2 t3 : ℕ}

/-- The limbs of four words. -/
theorem limbs_of_words (h0 : t0 < 2 ^ 32) (h1 : t1 < 2 ^ 32) (h2 : t2 < 2 ^ 32) :
    let n := t0 + 2 ^ 32 * t1 + 2 ^ 64 * t2 + 2 ^ 96 * t3
    t0 % 2 ^ 26 = n % 2 ^ 26 ∧
      ((t0 >>> 26) ||| shl32 t1 6) % 2 ^ 26 = n / 2 ^ 26 % 2 ^ 26 ∧
      ((t1 >>> 20) ||| shl32 t2 12) % 2 ^ 26 = n / 2 ^ 52 % 2 ^ 26 ∧
      ((t2 >>> 14) ||| shl32 t3 18) % 2 ^ 26 = n / 2 ^ 78 % 2 ^ 26 ∧
      t3 >>> 8 = n / 2 ^ 104 := by
  simp only [Nat.shiftRight_eq_div_pow]
  rw [or_shl32 t1 (by omega) (by decide), or_shl32 t2 (by omega) (by decide),
    or_shl32 t3 (by omega) (by decide)]
  refine ⟨?_, ?_, ?_, ?_, ?_⟩ <;> omega

end

namespace Limbs5

/-- The number with these limbs. -/
def value (h : Limbs5) : ℕ :=
  h.l0 + 2 ^ 26 * h.l1 + 2 ^ 52 * h.l2 + 2 ^ 78 * h.l3 + 2 ^ 104 * h.l4

/-- The limbs between two rounds. -/
structure Reduced (h : Limbs5) : Prop where
  l0_lt : h.l0 < 2 ^ 26
  l1_lt : h.l1 < 2 ^ 26 + 2 ^ 6
  l2_lt : h.l2 < 2 ^ 26
  l3_lt : h.l3 < 2 ^ 26
  l4_lt : h.l4 < 2 ^ 26

/-- The limbs that are multiplied. -/
structure Small (h : Limbs5) : Prop where
  l0_lt : h.l0 < 2 ^ 27 + 2 ^ 6
  l1_lt : h.l1 < 2 ^ 27 + 2 ^ 6
  l2_lt : h.l2 < 2 ^ 27 + 2 ^ 6
  l3_lt : h.l3 < 2 ^ 27 + 2 ^ 6
  l4_lt : h.l4 < 2 ^ 27 + 2 ^ 6

/-- The limbs of a clamped key. -/
structure Clamped (r : Limbs5) : Prop where
  l0_lt : r.l0 < 2 ^ 26
  l1_lt : r.l1 < 2 ^ 26
  l2_lt : r.l2 < 2 ^ 26
  l3_lt : r.l3 < 2 ^ 26
  l4_lt : r.l4 < 2 ^ 20

/-- The sums before the carries. -/
structure Summed (d : Limbs5) : Prop where
  l0_lt : d.l0 < 2 ^ 57 + 2 ^ 51
  l1_lt : d.l1 < 2 ^ 57
  l2_lt : d.l2 < 2 ^ 57
  l3_lt : d.l3 < 2 ^ 57
  l4_lt : d.l4 < 2 ^ 55 + 2 ^ 49

end Limbs5

/-- The modulus. -/
def polyPrime : ℕ := 2 ^ 130 - 5

/-- The clamped key. -/
def polyKey (key32 : Bytes) : ℕ := ofLE (key32.take 16) &&& 0x0ffffffc0ffffffc0ffffffc0fffffff

section
variable {h r d : Limbs5} {x key32 : Bytes}

open Limbs5

/-- The limbs of a mask are masks of the limbs. -/
theorem and_limb (n m j k : ℕ) :
    (n &&& m) / 2 ^ k % 2 ^ j = (n / 2 ^ k % 2 ^ j) &&& (m / 2 ^ k % 2 ^ j) := by
  rw [Nat.and_div_two_pow, Nat.and_mod_two_pow]

theorem polyKey_lt (key32 : Bytes) : polyKey key32 < 2 ^ 124 := Nat.and_lt_two_pow _ (by norm_num)

/-- The masks of the limbs clamp the key. -/
theorem clampedKey_limbs (hkey : key32.length = 32) :
    (clampedKey key32).l0 = polyKey key32 % 2 ^ 26 ∧
      (clampedKey key32).l1 = polyKey key32 / 2 ^ 26 % 2 ^ 26 ∧
      (clampedKey key32).l2 = polyKey key32 / 2 ^ 52 % 2 ^ 26 ∧
      (clampedKey key32).l3 = polyKey key32 / 2 ^ 78 % 2 ^ 26 ∧
      (clampedKey key32).l4 = polyKey key32 / 2 ^ 104 % 2 ^ 26 := by
  set x := key32.take 16 with hx
  have hlength : x.length = 16 := by rw [hx, List.length_take]; omega
  have hword (i : ℕ) (hi : i < 4) : polyWord key32 i = polyWord x i := by
    rw [polyWord_eq, polyWord_eq, hx, List.drop_take, List.take_take, Nat.min_eq_left (by omega)]
  have hlimbs := @limbs_of_words _ _ _ (polyWord x 3) (polyWord_lt x 0) (polyWord_lt x 1)
    (polyWord_lt x 2)
  rw [← ofLE_words hlength] at hlimbs
  obtain ⟨h0, h1, h2, h3, h4⟩ := hlimbs
  rw [clampedKey, hword 0 (by omega), hword 1 (by omega), hword 2 (by omega), hword 3 (by omega)]
  dsimp only
  rw [and_mask_of_lt (m := 0x03ffffff) (by norm_num), h0,
    and_mask_of_lt (m := 0x03ffff03) (by norm_num), h1,
    and_mask_of_lt (m := 0x03ffc0ff) (by norm_num), h2,
    and_mask_of_lt (m := 0x03f03fff) (by norm_num), h3, h4,
    and_mask_of_lt (m := 0x000fffff) (by norm_num), polyKey, ← hx, and_limb, and_limb, and_limb,
    and_limb, Nat.and_mod_two_pow]
  norm_num only
  exact ⟨trivial, trivial, trivial, trivial, trivial⟩

theorem clampedKey_eq (hkey : key32.length = 32) :
    (clampedKey key32).value = polyKey key32 ∧ (clampedKey key32).Clamped := by
  obtain ⟨h0, h1, h2, h3, h4⟩ := clampedKey_limbs hkey
  have hlt := polyKey_lt key32
  refine ⟨?_, ?_, ?_, ?_, ?_, ?_⟩
  · rw [Limbs5.value, h0, h1, h2, h3, h4]
    omega
  all_goals omega

/-! ## A round -/

/-- A block is added, with the bit above it if it is whole. -/
theorem addBlock_eq (hh : h.Reduced) (hx : x.length = 16) (whole : Bool) :
    ∃ h', h.addBlock x whole = some h' ∧ h'.Small ∧
      h'.value = h.value + ofLE x + if whole then 2 ^ 128 else 0 := by
  have hlt := polyWord_lt x 3
  have hlimbs := @limbs_of_words _ _ _ (polyWord x 3) (polyWord_lt x 0) (polyWord_lt x 1)
    (polyWord_lt x 2)
  have hbound := ofLE_lt x
  rw [hx] at hbound
  rw [← ofLE_words hx] at hlimbs
  obtain ⟨h0, h1, h2, h3, h4⟩ := hlimbs
  obtain ⟨b0, b1, b2, b3, b4⟩ := hh
  have htop : ((polyWord x 3 >>> 8) ||| if whole then 1 <<< 24 else 0) =
      ofLE x / 2 ^ 104 + if whole then 2 ^ 24 else 0 := by
    rw [h4]
    split_ifs
    · have hor := Nat.two_pow_add_eq_or_of_lt (i := 24) (b := ofLE x / 2 ^ 104) (by omega) 1
      rw [Nat.mul_one] at hor
      rw [Nat.one_shiftLeft, Nat.or_comm, ← hor, Nat.add_comm]
    · rw [Nat.or_zero]
      rfl
  have hbit : (if whole then 2 ^ 24 else 0) ≤ 2 ^ 24 := by split_ifs <;> omega
  have hvalue : 2 ^ 104 * (if whole then 2 ^ 24 else 0) = if whole then 2 ^ 128 else 0 := by
    split_ifs <;> norm_num
  unfold addBlock
  dsimp only
  simp only [and_mask, h0, h1, h2, h3, htop]
  refine fits_bind (by omega) fun n0 e0 => fits_bind (by omega) fun n1 e1 => ?_
  refine fits_bind (by omega) fun n2 e2 => fits_bind (by omega) fun n3 e3 => ?_
  refine fits_bind (by omega) fun n4 e4 => ⟨_, rfl, ⟨?_, ?_, ?_, ?_, ?_⟩, ?_⟩
  · dsimp only; omega
  · dsimp only; omega
  · dsimp only; omega
  · dsimp only; omega
  · dsimp only; omega
  · rw [Limbs5.value, Limbs5.value]
    dsimp only
    omega

/-- The product, whose limbs above the fifth are taken times 5. -/
theorem mulKey_eq (hh : h.Small) (hr : r.Clamped) :
    ∃ d, h.mulKey r = some d ∧ d.Summed ∧
      d.value % polyPrime = h.value * r.value % polyPrime := by
  obtain ⟨a0, a1, a2, a3, a4⟩ := hh
  obtain ⟨b0, b1, b2, b3, b4⟩ := hr
  have hmul {a b : ℕ} (ha : a < 2 ^ 27 + 2 ^ 6) (hb : b < 2 ^ 26) : a * b ≤ 2 ^ 53 + 2 ^ 32 :=
    (Nat.mul_le_mul ha.le hb.le).trans (by norm_num)
  have hmul4 {a : ℕ} (ha : a < 2 ^ 27 + 2 ^ 6) : a * r.l4 ≤ 2 ^ 47 + 2 ^ 26 :=
    (Nat.mul_le_mul ha.le b4.le).trans (by norm_num)
  have p00 := hmul a0 b0
  have p01 := hmul a0 b1
  have p02 := hmul a0 b2
  have p03 := hmul a0 b3
  have p04 := hmul4 a0
  have p10 := hmul a1 b0
  have p11 := hmul a1 b1
  have p12 := hmul a1 b2
  have p13 := hmul a1 b3
  have p14 := hmul4 a1
  have p20 := hmul a2 b0
  have p21 := hmul a2 b1
  have p22 := hmul a2 b2
  have p23 := hmul a2 b3
  have p24 := hmul4 a2
  have p30 := hmul a3 b0
  have p31 := hmul a3 b1
  have p32 := hmul a3 b2
  have p33 := hmul a3 b3
  have p34 := hmul4 a3
  have p40 := hmul a4 b0
  have p41 := hmul a4 b1
  have p42 := hmul a4 b2
  have p43 := hmul a4 b3
  have p44 := hmul4 a4
  unfold mulKey
  refine fits_bind (by omega) fun n0 e0 => fits_bind (by omega) fun n1 e1 => ?_
  refine fits_bind (by omega) fun n2 e2 => fits_bind (by omega) fun n3 e3 => ?_
  refine fits_bind (by omega) fun n4 e4 => ⟨_, rfl, ⟨?_, ?_, ?_, ?_, ?_⟩, ?_⟩
  · dsimp only; omega
  · dsimp only; omega
  · dsimp only; omega
  · dsimp only; omega
  · dsimp only; omega
  · set above := h.l1 * r.l4 + h.l2 * r.l3 + h.l3 * r.l2 + h.l4 * r.l1 +
      2 ^ 26 * (h.l2 * r.l4 + h.l3 * r.l3 + h.l4 * r.l2) +
      2 ^ 52 * (h.l3 * r.l4 + h.l4 * r.l3) + 2 ^ 78 * (h.l4 * r.l4) with habove
    have hproduct : h.value * r.value + 5 * above =
        (Limbs5.mk n0 n1 n2 n3 n4).value + 2 ^ 130 * above := by
      rw [habove, Limbs5.value, Limbs5.value, Limbs5.value, e0, e1, e2, e3, e4]
      ring
    have hprime : h.value * r.value = (Limbs5.mk n0 n1 n2 n3 n4).value + polyPrime * above := by
      rw [polyPrime]
      omega
    rw [hprime, Nat.add_mul_mod_self_left]

/-- The carries keep the number modulo `2 ^ 130 - 5`. -/
theorem carry_eq (hd : d.Summed) :
    ∃ h, d.carry = some h ∧ h.Reduced ∧ h.value % polyPrime = d.value % polyPrime := by
  obtain ⟨b0, b1, b2, b3, b4⟩ := hd
  unfold carry
  simp only [and_mask, Nat.shiftRight_eq_div_pow]
  refine fits_bind (by omega) fun c0 f0 => fits_bind (by omega) fun d1 e1 => ?_
  refine fits_bind (by omega) fun c1 f1 => fits_bind (by omega) fun d2 e2 => ?_
  refine fits_bind (by omega) fun c2 f2 => fits_bind (by omega) fun d3 e3 => ?_
  refine fits_bind (by omega) fun c3 f3 => fits_bind (by omega) fun d4 e4 => ?_
  refine fits_bind (by omega) fun c4 f4 => fits_bind (by omega) fun c5 f5 => ?_
  refine fits_bind (by omega) fun h0 g0 => fits_bind (by omega) fun h1 g1 => ?_
  refine ⟨_, rfl, ⟨?_, ?_, ?_, ?_, ?_⟩, ?_⟩
  · dsimp only; omega
  · dsimp only; omega
  · dsimp only; omega
  · dsimp only; omega
  · dsimp only; omega
  · have hprime : d.value =
        (Limbs5.mk (h0 % 2 ^ 26) h1 (d2 % 2 ^ 26) (d3 % 2 ^ 26) (d4 % 2 ^ 26)).value +
          polyPrime * c4 := by
      rw [Limbs5.value, Limbs5.value, polyPrime]
      dsimp only
      omega
    rw [hprime, Nat.add_mul_mod_self_left]

/-- A round absorbs a block. -/
theorem round_eq (hr : r.Clamped) (hh : h.Reduced) (hx : x.length = 16) (whole : Bool) :
    ∃ h', r.round h x whole = some h' ∧ h'.Reduced ∧
      h'.value % polyPrime =
        (h.value + (ofLE x + if whole then 2 ^ 128 else 0)) * r.value % polyPrime := by
  obtain ⟨a, ha, hsmall, hvalue⟩ := addBlock_eq hh hx whole
  obtain ⟨d, hd, hsummed, hproduct⟩ := mulKey_eq hsmall hr
  obtain ⟨h', hcarry, hreduced, hmod⟩ := carry_eq hsummed
  refine ⟨h', ?_, hreduced, ?_⟩
  · rw [Limbs5.round, ha, Option.bind_eq_bind, Option.bind_some, hd, Option.bind_some, hcarry]
  · rw [hmod, hproduct, hvalue, Nat.add_assoc]

/-! ## The final reduction -/

/-- All limbs have 26 bits. -/
structure Limbs5.Carried (h : Limbs5) : Prop where
  l0_lt : h.l0 < 2 ^ 26
  l1_lt : h.l1 < 2 ^ 26
  l2_lt : h.l2 < 2 ^ 26
  l3_lt : h.l3 < 2 ^ 26
  l4_lt : h.l4 < 2 ^ 26

/-- One pass is enough: if a carry comes back to the lowest limbs, the second one is small. -/
theorem carryAll_eq (hh : h.Reduced) :
    ∃ h', h.carryAll = some h' ∧ h'.Carried ∧ h'.value % polyPrime = h.value % polyPrime := by
  obtain ⟨b0, b1, b2, b3, b4⟩ := hh
  unfold carryAll
  simp only [and_mask, Nat.shiftRight_eq_div_pow]
  refine fits_bind (by omega) fun n2 e2 => fits_bind (by omega) fun n3 e3 => ?_
  refine fits_bind (by omega) fun n4 e4 => fits_bind (by omega) fun n0 e0 => ?_
  refine fits_bind (by omega) fun n1 e1 => ⟨_, rfl, ⟨?_, ?_, ?_, ?_, ?_⟩, ?_⟩
  · dsimp only; omega
  · dsimp only; omega
  · dsimp only; omega
  · dsimp only; omega
  · dsimp only; omega
  · have hprime : h.value =
        (Limbs5.mk (n0 % 2 ^ 26) n1 (n2 % 2 ^ 26) (n3 % 2 ^ 26) (n4 % 2 ^ 26)).value +
          polyPrime * (n4 / 2 ^ 26) := by
      rw [Limbs5.value, Limbs5.value, polyPrime]
      dsimp only
      omega
    rw [hprime, Nat.add_mul_mod_self_left]

/-- The masks that select. -/
theorem pick_zero {a b : ℕ} (ha : a < 2 ^ 32) : (a &&& (0xffffffff - 0)) ||| (b &&& 0) = a := by
  rw [Nat.sub_zero, Nat.and_zero, Nat.or_zero, Nat.and_two_pow_sub_one_eq_mod a 32,
    Nat.mod_eq_of_lt ha]

theorem pick_ones {a b : ℕ} (hb : b < 2 ^ 32) :
    (a &&& (0xffffffff - 0xffffffff)) ||| (b &&& 0xffffffff) = b := by
  rw [Nat.sub_self, Nat.and_zero, Nat.zero_or, Nat.and_two_pow_sub_one_eq_mod b 32,
    Nat.mod_eq_of_lt hb]

theorem select_of_borrow {t : Limbs5} (hh : h.Carried) (ht : t.l4 / 2 ^ 31 = 1) :
    h.select t = h := by
  obtain ⟨b0, b1, b2, b3, b4⟩ := hh
  have hb : (1 + (2 ^ 32 - 1)) % 2 ^ 32 = 0 := by norm_num
  rw [select, Nat.shiftRight_eq_div_pow, ht, hb]
  dsimp only
  rw [pick_zero (by omega), pick_zero (by omega), pick_zero (by omega), pick_zero (by omega),
    pick_zero (by omega)]

theorem select_of_carried {t : Limbs5} (ht : t.Carried) : h.select t = t := by
  obtain ⟨b0, b1, b2, b3, b4⟩ := ht
  have hzero : t.l4 / 2 ^ 31 = 0 := by omega
  have hb : (0 + (2 ^ 32 - 1)) % 2 ^ 32 = 0xffffffff := by norm_num
  rw [select, Nat.shiftRight_eq_div_pow, hzero, hb]
  dsimp only
  rw [pick_ones (by omega), pick_ones (by omega), pick_ones (by omega), pick_ones (by omega),
    pick_ones (by omega)]

/-- The limbs of `h % p`. -/
theorem select_eq (hh : h.Carried) :
    ∃ t, h.subPrime = some t ∧ (h.select t).Carried ∧
      (h.select t).value = h.value % polyPrime := by
  obtain ⟨b0, b1, b2, b3, b4⟩ := hh
  unfold subPrime
  simp only [and_mask, Nat.shiftRight_eq_div_pow]
  refine fits_bind (by omega) fun t0 e0 => fits_bind (by omega) fun t1 e1 => ?_
  refine fits_bind (by omega) fun t2 e2 => fits_bind (by omega) fun t3 e3 => ⟨_, rfl, ?_⟩
  have hwrap : (2 ^ 32 - 1 <<< 26 : ℕ) = 2 ^ 32 - 2 ^ 26 := by decide
  have hvalue : h.value =
      h.l0 + 2 ^ 26 * h.l1 + 2 ^ 52 * h.l2 + 2 ^ 78 * h.l3 + 2 ^ 104 * h.l4 := rfl
  rw [hwrap]
  by_cases hlt : h.value < polyPrime
  · have hborrow : (h.l4 + t3 / 2 ^ 26 + (2 ^ 32 - 2 ^ 26)) % 2 ^ 32 / 2 ^ 31 = 1 := by
      rw [hvalue, polyPrime] at hlt
      omega
    have hselect : h.select ⟨t0 % 2 ^ 26, t1 % 2 ^ 26, t2 % 2 ^ 26, t3 % 2 ^ 26,
        (h.l4 + t3 / 2 ^ 26 + (2 ^ 32 - 2 ^ 26)) % 2 ^ 32⟩ = h :=
      select_of_borrow ⟨b0, b1, b2, b3, b4⟩ hborrow
    rw [hselect]
    exact ⟨⟨b0, b1, b2, b3, b4⟩, (Nat.mod_eq_of_lt hlt).symm⟩
  · rw [not_lt] at hlt
    have htop : (h.l4 + t3 / 2 ^ 26 + (2 ^ 32 - 2 ^ 26)) % 2 ^ 32 =
        h.l4 + t3 / 2 ^ 26 - 2 ^ 26 ∧ h.l4 + t3 / 2 ^ 26 = 2 ^ 26 := by
      rw [hvalue, polyPrime] at hlt
      omega
    have hcarried : Carried ⟨t0 % 2 ^ 26, t1 % 2 ^ 26, t2 % 2 ^ 26, t3 % 2 ^ 26,
        (h.l4 + t3 / 2 ^ 26 + (2 ^ 32 - 2 ^ 26)) % 2 ^ 32⟩ := by
      refine ⟨?_, ?_, ?_, ?_, ?_⟩ <;> dsimp only <;> omega
    have hless : h.value - polyPrime < polyPrime := by
      rw [hvalue, polyPrime]
      omega
    rw [select_of_carried hcarried, Nat.mod_eq_sub_mod hlt, Nat.mod_eq_of_lt hless]
    refine ⟨hcarried, ?_⟩
    rw [hvalue, Limbs5.value, polyPrime]
    dsimp only
    omega

/-- The words of `h % 2 ^ 128`. -/
theorem mod128_eq (hh : h.Carried) :
    h.mod128.l0 = h.value % 2 ^ 32 ∧ h.mod128.l1 = h.value / 2 ^ 32 % 2 ^ 32 ∧
      h.mod128.l2 = h.value / 2 ^ 64 % 2 ^ 32 ∧ h.mod128.l3 = h.value / 2 ^ 96 % 2 ^ 32 := by
  obtain ⟨b0, b1, b2, b3, b4⟩ := hh
  have hmask (n : ℕ) : n &&& 0xffffffff = n % 2 ^ 32 := Nat.and_two_pow_sub_one_eq_mod n 32
  unfold mod128
  simp only [hmask, Nat.shiftRight_eq_div_pow]
  rw [or_shl32 h.l1 (by omega) (by decide), or_shl32 h.l2 (by omega) (by decide),
    or_shl32 h.l3 (by omega) (by decide), or_shl32 h.l4 (by omega) (by decide), Limbs5.value]
  refine ⟨?_, ?_, ?_, ?_⟩ <;> omega

/-- A number in words is divided by one. -/
theorem word_div {s d a : ℕ} (h : s = d + 2 ^ 32 * a) :
    s % 2 ^ 32 = d % 2 ^ 32 ∧ s / 2 ^ 32 = d / 2 ^ 32 + a := by omega

/-- The addition of four words with carries. -/
theorem add_words {n x0 x1 x2 x3 d0 d1 d2 d3 : ℕ} (e0 : d0 = n % 2 ^ 32 + x0)
    (e1 : d1 = n / 2 ^ 32 % 2 ^ 32 + x1 + d0 / 2 ^ 32)
    (e2 : d2 = n / 2 ^ 64 % 2 ^ 32 + x2 + d1 / 2 ^ 32)
    (e3 : d3 = n / 2 ^ 96 % 2 ^ 32 + x3 + d2 / 2 ^ 32) :
    let m := (n + (x0 + 2 ^ 32 * x1 + 2 ^ 64 * x2 + 2 ^ 96 * x3)) % 2 ^ 128
    d0 % 2 ^ 32 = m % 2 ^ 32 ∧ d1 % 2 ^ 32 = m / 2 ^ 32 % 2 ^ 32 ∧
      d2 % 2 ^ 32 = m / 2 ^ 64 % 2 ^ 32 ∧ d3 % 2 ^ 32 = m / 2 ^ 96 % 2 ^ 32 := by
  set s := n + (x0 + 2 ^ 32 * x1 + 2 ^ 64 * x2 + 2 ^ 96 * x3) with hs
  obtain ⟨m0, q0⟩ := word_div (s := s) (d := d0)
    (a := n / 2 ^ 32 + x1 + 2 ^ 32 * x2 + 2 ^ 64 * x3) (by omega)
  obtain ⟨m1, q1⟩ := word_div (s := s / 2 ^ 32) (d := d1)
    (a := n / 2 ^ 64 + x2 + 2 ^ 32 * x3) (by clear hs m0; omega)
  obtain ⟨m2, q2⟩ := word_div (s := s / 2 ^ 32 / 2 ^ 32) (d := d2)
    (a := n / 2 ^ 96 + x3) (by clear hs m0 q0 m1; omega)
  obtain ⟨m3, -⟩ := word_div (s := s / 2 ^ 32 / 2 ^ 32 / 2 ^ 32) (d := d3) (a := n / 2 ^ 128)
    (by clear hs m0 q0 m1 q1 m2; omega)
  clear hs q0 q1 q2 e0 e1 e2 e3
  refine ⟨?_, ?_, ?_, ?_⟩
  · rw [← m0]; omega
  · rw [← m1]; omega
  · rw [← m2]; omega
  · rw [← m3]; omega
/-- Four words, one behind the other. -/
theorem toLE_words {w0 w1 w2 w3 n : ℕ} (h0 : w0 = n % 2 ^ 32) (h1 : w1 = n / 2 ^ 32 % 2 ^ 32)
    (h2 : w2 = n / 2 ^ 64 % 2 ^ 32) (h3 : w3 = n / 2 ^ 96 % 2 ^ 32) :
    toLE 4 w0 ++ toLE 4 w1 ++ toLE 4 w2 ++ toLE 4 w3 = toLE 16 n := by
  have hword (m : ℕ) : toLE 4 (m % 2 ^ 32) = toLE 4 m := toLE_mod 4 m
  have h4 : toLE 16 n = toLE 4 n ++ toLE 12 (n / 2 ^ 32) := toLE_add 4 12 n
  have h8 : toLE 12 (n / 2 ^ 32) = toLE 4 (n / 2 ^ 32) ++ toLE 8 (n / 2 ^ 32 / 2 ^ 32) :=
    toLE_add 4 8 _
  have h12 : toLE 8 (n / 2 ^ 64) = toLE 4 (n / 2 ^ 64) ++ toLE 4 (n / 2 ^ 64 / 2 ^ 32) :=
    toLE_add 4 4 _
  have d2 : n / 2 ^ 32 / 2 ^ 32 = n / 2 ^ 64 := by omega
  have d3 : n / 2 ^ 64 / 2 ^ 32 = n / 2 ^ 96 := by omega
  rw [h0, h1, h2, h3, hword, hword, hword, hword, List.append_assoc, List.append_assoc, h4, h8, d2,
    h12, d3]

end

/-- The pad that is added to the tag. -/
def polyPad (key32 : Bytes) : ℕ := ofLE ((key32.drop 16).take 16)

section
variable {h : Limbs5} {key32 : Bytes}

open Limbs5

/-- The tag from the accumulator. -/
theorem finish_eq (hkey : key32.length = 32) (hh : h.Reduced) :
    ∃ h', h.finish key32 = some h' ∧
      h'.mac = toLE 16 ((h.value % polyPrime + polyPad key32) % 2 ^ 128) := by
  obtain ⟨a, ha, hcarried, hmod⟩ := carryAll_eq hh
  obtain ⟨t, ht, hselected, hvalue⟩ := select_eq hcarried
  obtain ⟨m0, m1, m2, m3⟩ := mod128_eq hselected
  have hpad : polyPad key32 = polyWord (key32.drop 16) 0 + 2 ^ 32 * polyWord (key32.drop 16) 1 +
      2 ^ 64 * polyWord (key32.drop 16) 2 + 2 ^ 96 * polyWord (key32.drop 16) 3 := by
    have hlength : (key32.drop 16).length = 16 := by rw [List.length_drop]; omega
    rw [polyPad, List.take_of_length_le hlength.le, ofLE_words hlength]
  have w0 := polyWord_lt (key32.drop 16) 0
  have w1 := polyWord_lt (key32.drop 16) 1
  have w2 := polyWord_lt (key32.drop 16) 2
  have w3 := polyWord_lt (key32.drop 16) 3
  have hnext : ∃ h', ((a.select t).mod128.addPad key32) = some h' ∧
      h'.mac = toLE 16 (((a.select t).value + polyPad key32) % 2 ^ 128) := by
    unfold addPad
    dsimp only
    rw [m0, m1, m2, m3, hpad]
    simp only [Nat.shiftRight_eq_div_pow]
    refine fits_bind (by omega) fun d0 e0 => fits_bind (by omega) fun d1 e1 => ?_
    refine fits_bind (by omega) fun d2 e2 => fits_bind (by omega) fun d3 e3 => ⟨_, rfl, ?_⟩
    obtain ⟨s0, s1, s2, s3⟩ := add_words e0 e1 e2 e3
    exact toLE_words s0 s1 s2 s3
  rw [hvalue, hmod] at hnext
  obtain ⟨h', haddPad, hmac⟩ := hnext
  refine ⟨h', ?_, hmac⟩
  rw [finish, ha, Option.bind_eq_bind, Option.bind_some, ht, Option.bind_some, haddPad]

end

/-! ## The loop -/

/-- The 16 bytes that are copied to `x` for a piece of the data. -/
def padPiece (piece : Bytes) : Bytes :=
  if piece.length < 16 then piece ++ 1 :: List.replicate (15 - piece.length) 0 else piece

/-- The number of a piece, with a bit above it. -/
def pieceNumber (piece : Bytes) : ℕ := ofLE (piece ++ [1])

/-- A round for a piece of the data. -/
def Limbs5.absorb (r h : Limbs5) (piece : Bytes) : Option Limbs5 :=
  r.round h (padPiece piece) (16 ≤ piece.length)

theorem length_padPiece {piece : Bytes} (h : piece.length ≤ 16) : (padPiece piece).length = 16 := by
  unfold padPiece
  split_ifs with hlt
  · rw [List.length_append, List.length_cons, List.length_replicate]
    omega
  · omega

theorem ofLE_padPiece {piece : Bytes} (h : piece.length ≤ 16) :
    (ofLE (padPiece piece) + if 16 ≤ piece.length then 2 ^ 128 else 0) = pieceNumber piece := by
  rw [pieceNumber, ofLE_append, padPiece]
  by_cases hlt : piece.length < 16
  · rw [if_pos hlt, if_neg (by omega), ofLE_append, ofLE, ofLE_zeros]
    rfl
  · have heq : piece.length = 16 := by omega
    rw [if_neg hlt, if_pos (by omega), heq]
    rfl

theorem polyBlock_eq {data x : Bytes} {i : ℕ} (hx : x.length = 16) (hi : i < data.length) :
    polyBlock data i x = some (padPiece ((data.drop i).take 16)) := by
  have hlength : (data.drop i).length = data.length - i := List.length_drop
  have hpiece : ((data.drop i).take 16).length = min 16 (data.length - i) := by
    rw [List.length_take, hlength]
  unfold polyBlock padPiece
  split_ifs with hend hwhole hwhole
  · have hrest : (data.drop i).take 16 = data.drop i := List.take_of_length_le (by omega)
    have hpeek : peek data i (data.length - i) = some (data.drop i) := by
      rw [peek, if_pos (by omega), ← hlength, List.take_length]
    have hcopy : poke x 0 (data.drop i) = some (data.drop i ++ x.drop (data.length - i)) := by
      rw [poke, if_pos (by omega), List.take_zero, List.nil_append, Nat.zero_add, hlength]
    have hclear : poke (data.drop i ++ x.drop (data.length - i)) (data.length - i)
        (List.replicate (16 - (data.length - i)) 0) =
          some (data.drop i ++ (List.replicate (16 - (data.length - i)) 0 ++ [])) := by
      refine poke_parts (b := x.drop (data.length - i)) ?_ hlength ?_
      · rw [List.append_nil]
      · rw [List.length_drop, List.length_replicate]
        omega
    have hmark : poke (data.drop i ++ (List.replicate (16 - (data.length - i)) 0 ++ []))
        (data.length - i) [1] =
          some (data.drop i ++ ([1] ++ List.replicate (15 - (data.length - i)) 0)) := by
      refine poke_parts (b := [0]) ?_ hlength rfl
      have hcons : 16 - (data.length - i) = 15 - (data.length - i) + 1 := by omega
      rw [List.append_nil, hcons, List.replicate_succ, List.singleton_append]
    rw [hpeek, Option.bind_eq_bind, Option.bind_some, hcopy, Option.bind_some, hclear,
      Option.bind_some, hmark, hrest, hlength, List.singleton_append]
  · omega
  · omega
  · have hpeek : peek data i 16 = some ((data.drop i).take 16) := by
      rw [peek, if_pos (by omega)]
    have hdrop : x.drop (0 + ((data.drop i).take 16).length) = [] :=
      List.drop_eq_nil_of_le (by omega)
    rw [hpeek, Option.bind_eq_bind, Option.bind_some, poke, if_pos (by omega), List.take_zero,
      List.nil_append, hdrop, List.append_nil]

/-- The loop goes over the pieces of the data. -/
theorem polyLoop_eq (r : Limbs5) (data : Bytes) {rounds i : ℕ} {x : Bytes} (h : Limbs5)
    (hx : x.length = 16) (hrounds : (data.length - i + 15) / 16 < rounds) :
    polyLoop r data rounds i x h = (piecesOf 16 (data.drop i)).foldlM r.absorb h := by
  induction rounds generalizing i x h with
  | zero => omega
  | succ rounds ih =>
    rw [polyLoop]
    by_cases hi : i < data.length
    · have hlength : (data.drop i).length = data.length - i := List.length_drop
      have hpiece : ((data.drop i).take 16).length = min 16 (data.length - i) := by
        rw [List.length_take, hlength]
      have hwhole : (i + 16 ≤ data.length) = (16 ≤ ((data.drop i).take 16).length) := by
        rw [hpiece]
        refine propext ⟨fun _ => ?_, fun _ => ?_⟩ <;> omega
      rw [if_pos hi, polyBlock_eq hx hi, Option.bind_eq_bind, Option.bind_some,
        piecesOf_of_pos (by decide) (by omega), List.foldlM_cons, List.drop_drop,
        Limbs5.absorb]
      simp only [hwhole]
      refine congrArg _ (funext fun h' => ?_)
      exact ih h' (length_padPiece (by omega)) (by omega)
    · rw [if_neg hi, List.drop_eq_nil_of_le (by omega), piecesOf_nil (by decide)]
      rfl

/-! ## The tag -/

/-- The sum of the numbers times descending powers of `r`. -/
def powerSum (r : ℕ) : List ℕ → ℕ
  | [] => 0
  | c :: cs => c * r ^ (cs.length + 1) + powerSum r cs

/-- The tag of RFC 7539. -/
def poly1305Tag (key32 data : Bytes) : ℕ :=
  (powerSum (polyKey key32) ((piecesOf 16 data).map pieceNumber) % polyPrime + polyPad key32) %
    2 ^ 128

section
variable {r h : Limbs5} {key32 : Bytes}

open Limbs5

/-- The loop computes the sum, and keeps the limbs between two rounds. -/
theorem foldlM_absorb (hr : r.Clamped) (hh : h.Reduced) {pieces : List Bytes}
    (hpieces : ∀ piece ∈ pieces, piece.length ≤ 16) :
    ∃ h', pieces.foldlM r.absorb h = some h' ∧ h'.Reduced ∧
      h'.value % polyPrime =
        (h.value * r.value ^ pieces.length + powerSum r.value (pieces.map pieceNumber)) %
          polyPrime := by
  induction pieces generalizing h with
  | nil => exact ⟨h, rfl, hh, by simp [powerSum]⟩
  | cons piece pieces ih =>
    have hpiece := hpieces piece List.mem_cons_self
    obtain ⟨h₁, hround, hreduced, hvalue⟩ :=
      round_eq hr hh (length_padPiece hpiece) (16 ≤ piece.length)
    obtain ⟨h', hfold, hreduced', hvalue'⟩ :=
      ih hreduced fun p hp => hpieces p (List.mem_cons_of_mem _ hp)
    refine ⟨h', ?_, hreduced', ?_⟩
    · rw [List.foldlM_cons, absorb, hround, Option.bind_eq_bind, Option.bind_some, hfold]
    · simp only [decide_eq_true_eq, ofLE_padPiece hpiece] at hvalue
      have hstep : h₁.value * r.value ^ pieces.length ≡
          (h.value + pieceNumber piece) * r.value * r.value ^ pieces.length [MOD polyPrime] :=
        Nat.ModEq.mul_right _ hvalue
      have hsum : h.value * r.value ^ (pieces.length + 1) +
          (pieceNumber piece * r.value ^ (pieces.length + 1) +
            powerSum r.value (pieces.map pieceNumber)) =
          (h.value + pieceNumber piece) * r.value * r.value ^ pieces.length +
            powerSum r.value (pieces.map pieceNumber) := by
        rw [pow_succ]
        ring
      rw [hvalue', List.length_cons, List.map_cons, powerSum, List.length_map, hsum]
      exact hstep.add_right _

/-- A call goes over the pieces of its data; the final one computes the tag. -/
theorem poly1305Compress_eq (hkey : key32.length = 32) (h : Limbs5) (data : Bytes) (final : Bool) :
    poly1305Compress h key32 data final =
      ((piecesOf 16 data).foldlM (clampedKey key32).absorb h).bind fun h =>
        if final then h.finish key32 else some h := by
  have hx : (key32.take 16).length = 16 := by rw [List.length_take]; omega
  rw [poly1305Compress, polyLoop_eq _ _ _ hx (by omega), List.drop_zero]
  rfl

theorem reduced_zero : Reduced ⟨0, 0, 0, 0, 0⟩ := by
  refine ⟨?_, ?_, ?_, ?_, ?_⟩ <;> norm_num

theorem poly1305_eq (hkey : key32.length = 32) (data : Bytes) :
    Poly1305 key32 data = some (toLE 16 (poly1305Tag key32 data)) := by
  obtain ⟨hvalue, hclamped⟩ := clampedKey_eq hkey
  obtain ⟨h, hfold, hreduced, hsum⟩ := @foldlM_absorb _ _ hclamped reduced_zero
    (piecesOf 16 data) fun piece => length_of_mem_piecesOf
  obtain ⟨h', hfinish, hmac⟩ := finish_eq hkey hreduced
  have hzero : Limbs5.value ⟨0, 0, 0, 0, 0⟩ = 0 := rfl
  rw [hzero, Nat.zero_mul, Nat.zero_add, hvalue] at hsum
  rw [Poly1305, poly1305Compress_eq hkey, hfold, Option.bind_some, if_pos rfl, hfinish,
    Option.map_some, hmac, hsum, poly1305Tag]

/-- Calls for whole blocks. -/
theorem foldlM_calls (hkey : key32.length = 32) {calls : List Bytes}
    (hcalls : ∀ call ∈ calls, 16 ∣ call.length) (h : Limbs5) :
    calls.foldlM (fun h call => poly1305Compress h key32 call false) h =
      (piecesOf 16 calls.flatten).foldlM (clampedKey key32).absorb h := by
  induction calls generalizing h with
  | nil => rfl
  | cons call calls ih =>
    rw [List.foldlM_cons, List.flatten_cons,
      piecesOf_append (by decide) (hcalls call List.mem_cons_self), List.foldlM_append,
      poly1305Compress_eq hkey]
    simp only [Bool.false_eq_true, if_false, Option.bind_eq_bind, Option.bind_fun_some]
    refine congrArg _ (funext fun h' => ?_)
    exact ih (fun c hc => hcalls c (List.mem_cons_of_mem _ hc)) h'

/-- No carry is lost and the tag is that of RFC 7539, in one call or in several. -/
theorem poly1305_exact (hkey : key32.length = 32) (data : Bytes) :
    Poly1305 key32 data = some (toLE 16 (poly1305Tag key32 data)) ∧
      ∀ (calls : List Bytes) (last : Bytes), (∀ call ∈ calls, 16 ∣ call.length) →
        calls.flatten ++ last = data →
        ((calls.foldlM (fun h call => poly1305Compress h key32 call false) ⟨0, 0, 0, 0, 0⟩).bind
          fun h => poly1305Compress h key32 last true).map mac = Poly1305 key32 data := by
  refine ⟨poly1305_eq hkey data, ?_⟩
  rintro calls last hcalls rfl
  have hflatten : 16 ∣ calls.flatten.length := by
    rw [List.length_flatten]
    refine List.dvd_sum fun n hn => ?_
    obtain ⟨call, hcall, rfl⟩ := List.mem_map.1 hn
    exact hcalls call hcall
  rw [foldlM_calls hkey hcalls, Poly1305, poly1305Compress_eq hkey,
    piecesOf_append (by decide) hflatten, List.foldlM_append]
  simp only [poly1305Compress_eq hkey, Option.bind_eq_bind, Option.bind_assoc]

end

/-- A message of two blocks and a piece. -/
def keyForum : Bytes :=
  [0x85, 0xd6, 0xbe, 0x78, 0x57, 0x55, 0x6d, 0x33, 0x7f, 0x44, 0x52, 0xfe, 0x42, 0xd5, 0x06, 0xa8,
   0x01, 0x03, 0x80, 0x8a, 0xfb, 0x0d, 0xb2, 0xfd, 0x4a, 0xbf, 0xf6, 0xaf, 0x41, 0x49, 0xf5, 0x1b]

def messageForum : Bytes := "Cryptographic Forum Research Group".toList.map fun c =>
  UInt8.ofNat c.toNat

theorem poly1305_exact_forum :
    Poly1305 keyForum messageForum = some (toLE 16 (poly1305Tag keyForum messageForum)) ∧
      (([messageForum.take 16].foldlM (fun h call => poly1305Compress h keyForum call false)
          ⟨0, 0, 0, 0, 0⟩).bind fun h =>
        poly1305Compress h keyForum (messageForum.drop 16) true).map Limbs5.mac =
          Poly1305 keyForum messageForum := by
  obtain ⟨htag, hcalls⟩ := @poly1305_exact keyForum (by decide) messageForum
  exact ⟨htag, hcalls [messageForum.take 16] (messageForum.drop 16) (by decide) (by decide)⟩

example : Poly1305 keyForum messageForum = some
    [0xa8, 0x06, 0x1d, 0xc1, 0x30, 0x51, 0x36, 0xc6, 0xc2, 0x2b, 0x8b, 0xaf, 0x0c, 0x01, 0x27,
     0xa9] := by decide +kernel

end RavenWallet
