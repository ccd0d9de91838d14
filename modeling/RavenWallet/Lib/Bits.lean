/-
  Bytes as flags, lowest bit first.

  `bitsOf` are the bits of a list of bytes; `packBits` packs bits into bytes,
  the last of which is padded with zeros (`bitsOf_packBits`).  `setBit` and `bitSet`
  set and test one bit.
-/
import Mathlib.Data.UInt
import Mathlib.Data.Nat.Bitwise
import Mathlib.Data.List.Basic

namespace RavenWallet

/-- The eight bits of a byte. -/
def byteBits (b : UInt8) : List Bool := (List.range 8).map b.toNat.testBit

def bitsOf (bytes : List UInt8) : List Bool := bytes.flatMap byteBits

/-- The number with the bits `bs`. -/
def ofBits : List Bool → ℕ
  | [] => 0
  | b :: bs => b.toNat + 2 * ofBits bs

/-- The bytes with the bits `bs`. -/
def packBits : ℕ → List Bool → List UInt8
  | 0, _ => []
  | n + 1, bs => UInt8.ofNat (ofBits (bs.take 8)) :: packBits n (bs.drop 8)

@[simp] theorem length_packBits (n : ℕ) (bs : List Bool) : (packBits n bs).length = n := by
  induction n generalizing bs with
  | zero => rfl
  | succ n ih => rw [packBits, List.length_cons, ih]

@[simp] theorem length_byteBits (b : UInt8) : (byteBits b).length = 8 := by
  simp [byteBits]

@[simp] theorem length_bitsOf (bytes : List UInt8) : (bitsOf bytes).length = 8 * bytes.length := by
  induction bytes with
  | nil => rfl
  | cons b bytes ih =>
    rw [bitsOf, List.flatMap_cons, List.length_append, length_byteBits, ← bitsOf, ih,
      List.length_cons]
    omega

theorem getElem?_bitsOf (bytes : List UInt8) (i : ℕ) :
    (bitsOf bytes)[i]? = bytes[i / 8]?.map fun b => b.toNat.testBit (i % 8) := by
  induction bytes generalizing i with
  | nil => simp [bitsOf]
  | cons b bytes ih =>
    rw [bitsOf, List.flatMap_cons, ← bitsOf]
    by_cases hi : i < 8
    · have hdiv : i / 8 = 0 := by omega
      have hmod : i % 8 = i := by omega
      rw [List.getElem?_append_left (by simpa using hi), hdiv, hmod]
      simp [byteBits, hi]
    · have hdiv : i / 8 = (i - 8) / 8 + 1 := by omega
      have hmod : i % 8 = (i - 8) % 8 := by omega
      rw [List.getElem?_append_right (by simpa using Nat.le_of_not_lt hi), length_byteBits, ih,
        hdiv, hmod, List.getElem?_cons_succ]

theorem ofBits_lt (bs : List Bool) : ofBits bs < 2 ^ bs.length := by
  induction bs with
  | nil => simp [ofBits]
  | cons b bs ih =>
    have hb : b.toNat ≤ 1 := Bool.toNat_le b
    rw [ofBits, List.length_cons, Nat.pow_succ]
    omega

theorem testBit_ofBits (bs : List Bool) (i : ℕ) : (ofBits bs).testBit i = bs[i]?.getD false := by
  induction bs generalizing i with
  | nil => simp [ofBits]
  | cons b bs ih =>
    cases i with
    | zero =>
      rw [Nat.testBit_zero, ofBits]
      cases b <;> simp
    | succ i =>
      have hdiv : (b.toNat + 2 * ofBits bs) / 2 = ofBits bs := by
        have hb : b.toNat ≤ 1 := Bool.toNat_le b
        omega
      rw [ofBits, Nat.testBit_succ, hdiv, ih, List.getElem?_cons_succ]

theorem getElem?_padded (bs : List Bool) (m i : ℕ) : (bs ++ List.replicate m false)[i]? =
    if i < bs.length + m then some (bs[i]?.getD false) else none := by
  by_cases hi : i < bs.length
  · rw [List.getElem?_append_left hi, if_pos (by omega), List.getElem?_eq_getElem hi,
      Option.getD_some]
  · rw [List.getElem?_append_right (by omega), List.getElem?_replicate,
      List.getElem?_eq_none (Nat.le_of_not_lt hi), Option.getD_none]
    split_ifs with h₁ h₂ h₂
    · rfl
    · omega
    · omega
    · rfl

theorem byteBits_ofBits {bs : List Bool} (h : bs.length ≤ 8) :
    byteBits (UInt8.ofNat (ofBits bs)) = bs ++ List.replicate (8 - bs.length) false := by
  have hlt : ofBits bs < 2 ^ 8 :=
    lt_of_lt_of_le (ofBits_lt _) (Nat.pow_le_pow_right (by decide) h)
  have hbyte : (UInt8.ofNat (ofBits bs)).toNat = ofBits bs := by
    rw [UInt8.toNat_ofNat', Nat.mod_eq_of_lt hlt]
  refine List.ext_getElem? fun j => ?_
  rw [byteBits, hbyte, getElem?_padded, List.getElem?_map]
  by_cases hj : j < 8
  · rw [List.getElem?_range hj, Option.map_some, testBit_ofBits, if_pos (by omega)]
  · rw [List.getElem?_eq_none (by simpa using hj), Option.map_none, if_neg (by omega)]

/-- Packed bits are read back, followed by zeros. -/
theorem bitsOf_packBits {n : ℕ} {bs : List Bool} (h : bs.length ≤ 8 * n) :
    bitsOf (packBits n bs) = bs ++ List.replicate (8 * n - bs.length) false := by
  induction n generalizing bs with
  | zero =>
    obtain rfl : bs = [] := List.length_eq_zero_iff.1 (by omega)
    rfl
  | succ n ih =>
    rw [packBits, bitsOf, List.flatMap_cons, ← bitsOf, ih (by rw [List.length_drop]; omega),
      byteBits_ofBits (by rw [List.length_take]; omega), List.length_take, List.length_drop]
    by_cases hl : bs.length < 8
    · have htake : bs.take 8 = bs := List.take_of_length_le hl.le
      have hdrop : bs.drop 8 = [] := List.drop_of_length_le hl.le
      rw [htake, hdrop, List.nil_append, List.append_assoc, List.replicate_append_replicate]
      congr 2
      omega
    · have hfull : 8 - min 8 bs.length = 0 := by omega
      rw [hfull, List.replicate_zero, List.append_nil, ← List.append_assoc,
        List.take_append_drop]
      congr 2
      omega

/-! ## Setting bits -/

/-- Sets bit `i`; no result beyond the end. -/
def setBit (bytes : List UInt8) (i : ℕ) : Option (List UInt8) :=
  bytes[i / 8]?.map fun b => bytes.set (i / 8) (b ||| 1 <<< UInt8.ofNat (i % 8))

/-- Whether bit `i` is set; no result beyond the end. -/
def bitSet (bytes : List UInt8) (i : ℕ) : Option Bool :=
  bytes[i / 8]?.map fun b => b &&& 1 <<< UInt8.ofNat (i % 8) ≠ 0

section
variable {bytes bytes' : List UInt8} {i j : ℕ}

theorem testBit_shift {k m : ℕ} (hk : k < 8) (hm : m < 8) :
    ((1 : UInt8) <<< UInt8.ofNat k).toNat.testBit m = decide (k = m) := by
  have hall : ∀ k m : Fin 8,
      ((1 : UInt8) <<< UInt8.ofNat k).toNat.testBit m = decide (k = m) := by decide
  have h := hall ⟨k, hk⟩ ⟨m, hm⟩
  simpa only [Fin.mk.injEq] using h

theorem toNat_shift {k : ℕ} (hk : k < 8) : ((1 : UInt8) <<< UInt8.ofNat k).toNat = 2 ^ k := by
  have hall : ∀ k : Fin 8, ((1 : UInt8) <<< UInt8.ofNat k).toNat = 2 ^ (k : ℕ) := by decide
  exact hall ⟨k, hk⟩

theorem bitSet_eq (bytes : List UInt8) (i : ℕ) : bitSet bytes i = (bitsOf bytes)[i]? := by
  rw [bitSet, getElem?_bitsOf]
  congr 1
  funext b
  have hk : i % 8 < 8 := Nat.mod_lt i (by decide)
  rw [Bool.eq_iff_iff, decide_eq_true_iff, ne_eq, ← UInt8.toNat_inj, UInt8.toNat_and,
    toNat_shift hk, Nat.and_two_pow]
  cases hbit : b.toNat.testBit (i % 8) <;> simp

theorem setBit_isSome (hi : i < 8 * bytes.length) : ∃ bytes', setBit bytes i = some bytes' := by
  have hdiv : i / 8 < bytes.length := by omega
  rw [setBit, List.getElem?_eq_getElem hdiv]
  exact ⟨_, rfl⟩

/-- Setting a bit changes only this bit. -/
theorem bitsOf_setBit (h : setBit bytes i = some bytes') :
    bitsOf bytes' = (bitsOf bytes).set i true := by
  obtain ⟨b, hb, rfl⟩ := Option.map_eq_some_iff.1 h
  obtain ⟨hlt, hget⟩ := List.getElem?_eq_some_iff.1 hb
  refine List.ext_getElem? fun j => ?_
  have hk : i % 8 < 8 := Nat.mod_lt i (by decide)
  have hm : j % 8 < 8 := Nat.mod_lt j (by decide)
  rw [getElem?_bitsOf, List.getElem?_set, List.getElem?_set, getElem?_bitsOf, length_bitsOf]
  by_cases hdiv : i / 8 = j / 8
  · have hi : i < 8 * bytes.length := by omega
    rw [if_pos hdiv, if_pos hlt, ← hdiv, hb, Option.map_some, Option.map_some, UInt8.toNat_or,
      Nat.testBit_or, testBit_shift hk hm]
    by_cases hij : i = j
    · subst hij
      simp [hi]
    · have hmod : i % 8 ≠ j % 8 := by omega
      simp [hij, hmod]
  · have hij : i ≠ j := by
      rintro rfl
      exact hdiv rfl
    rw [if_neg hdiv, if_neg hij]

theorem length_setBit (h : setBit bytes i = some bytes') : bytes'.length = bytes.length := by
  obtain ⟨b, -, rfl⟩ := Option.map_eq_some_iff.1 h
  exact List.length_set

/-- Setting several bits adds them to those that are set. -/
theorem foldlM_setBit {is : List ℕ} (h : ∀ i ∈ is, i < 8 * bytes.length) :
    ∃ bytes', is.foldlM setBit bytes = some bytes' ∧ bytes'.length = bytes.length ∧
      ∀ j, bitSet bytes' j = some true ↔ bitSet bytes j = some true ∨ j ∈ is := by
  induction is generalizing bytes with
  | nil => exact ⟨bytes, rfl, rfl, fun j => by simp⟩
  | cons i is ih =>
    obtain ⟨hi, his⟩ := List.forall_mem_cons.1 h
    obtain ⟨next, hnext⟩ := setBit_isSome hi
    have hlen := length_setBit hnext
    obtain ⟨last, hlast, hlen', hbits⟩ := ih (show ∀ i ∈ is, i < 8 * next.length by rwa [hlen])
    refine ⟨last, ?_, hlen'.trans hlen, fun j => ?_⟩
    · rw [List.foldlM_cons, hnext]
      exact hlast
    · rw [hbits, bitSet_eq, bitsOf_setBit hnext, List.getElem?_set, ← bitSet_eq, List.mem_cons]
      by_cases hij : i = j
      · subst hij
        simp [hi]
      · simp [hij, Ne.symm hij]

end

end RavenWallet
