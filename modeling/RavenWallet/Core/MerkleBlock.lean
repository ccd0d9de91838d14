/-
  Merkle blocks (BRMerkleBlock.c).

  A block is over any type of hashes: the walks over its partial tree only
  compare and combine them.  The arrays `hashes` and `flags` are kept apart from
  their counts, which a parsed block may have larger than the arrays; a walk
  that reads beyond an array has no result.

  * `rootR_eq` and `txHashesR_eq`: both recursions walk the partial tree that
    the flags and hashes of the block encode, the first one up to a failure.
-/
import Mathlib.Tactic.SplitIfs
import RavenWallet.Lib.Bits
import RavenWallet.Lib.Buffer
import RavenWallet.Lib.Merkle
import RavenWallet.Lib.Word
import RavenWallet.Core.Types

namespace RavenWallet

def MAX_PROOF_OF_WORK : UInt32 := 0x1e00ffff
def BLOCK_UNKNOWN_HEIGHT : UInt32 := 0x7fffffff
def BLOCK_MAX_TIME_DRIFT : UInt32 := 2 * 60 * 60
def X16RV2ActivationTime : UInt32 := 1569945600
def KAWPOW_ActivationTime : UInt32 := 1588788000

structure BRMerkleBlock (α : Type) where
  blockHash : α
  version : UInt32 := 0
  prevBlock : α
  merkleRoot : α
  timestamp : UInt32 := 0
  target : UInt32 := 0
  nonce : UInt32 := 0
  nonce64 : UInt64 := 0
  mixHash : α
  totalTx : UInt32 := 0
  hashes : List α := []
  hashesCount : ℕ := 0
  flags : Bytes := []
  flagsLen : ℕ := 0
  height : UInt32 := BLOCK_UNKNOWN_HEIGHT
  deriving DecidableEq

/-- What the walks and the validity check need of hashes: `UINT256_ZERO`, the double SHA-256 of two
    of them, and their bytes. -/
structure MerkleHash (α : Type) where
  zero : α
  sha256_2 : α → α → α
  bytes : α → Bytes

/-- The loop of `_ceil_log2`; no result if it needs more steps than the first argument. -/
def ceilLog2Loop : ℕ → BitVec 32 → ℕ → Option ℕ
  | 0, _, _ => none
  | fuel + 1, x, r =>
    if x.sshiftRight 1 ≠ 0 then ceilLog2Loop fuel (x.sshiftRight 1) (r + 1) else some r

/-- `_ceil_log2` of an `int`: no result for a negative one, on which the loop does not end. -/
def ceilLog2 (x : UInt32) : Option ℕ :=
  ceilLog2Loop 32 x.toBitVec (if x.toBitVec &&& (x.toBitVec - 1) ≠ 0 then 1 else 0)

namespace BRMerkleBlock

variable {α : Type} (block : BRMerkleBlock α)

/-- The arrays hold what the counts say, which are of type `size_t`. -/
structure Held : Prop where
  hashes : block.hashes.length = block.hashesCount
  flags : block.flags.length = block.flagsLen
  hashes_le : block.hashesCount ≤ SIZE_MAX
  flags_le : block.flagsLen ≤ SIZE_MAX

/-- The flag at `flagIdx`. -/
def flag (flagIdx : ℕ) : Option Bool :=
  block.flags[flagIdx / 8]?.map fun b => b.toNat.testBit (flagIdx % 8)

/-- There are flags and hashes left. -/
def More (hashIdx flagIdx : ℕ) : Prop :=
  flagIdx / 8 < block.flagsLen ∧ hashIdx < block.hashesCount

instance (hashIdx flagIdx : ℕ) : Decidable (block.More hashIdx flagIdx) :=
  inferInstanceAs (Decidable (_ ∧ _))

/-- The recursion does not get deeper than the largest `_ceil_log2`. -/
def maxDepth : ℕ := 33

/-- `_MerkleBlockTxHashesR`: the hashes written, their number, and the next indices.  With `null`
    nothing is written. -/
def txHashesR (null : Bool) (hashesCount : ℕ) :
    ℕ → ℕ → List α → ℕ → ℕ → ℕ → Option (List α × ℕ × ℕ × ℕ)
  | 0, _, _, _, _, _ => none
  | fuel + 1, depth, txHashes, idx, hashIdx, flagIdx =>
    if block.More hashIdx flagIdx then do
      let flag ← block.flag flagIdx
      let leaf ← if flag then (ceilLog2 block.totalTx).map (fun d => decide (depth = d))
        else some true
      if leaf then
        if flag ∧ idx < hashesCount then
          if null then some (txHashes, idx + 1, hashIdx + 1, flagIdx + 1)
          else do
            let hash ← block.hashes[hashIdx]?
            some (txHashes ++ [hash], idx + 1, hashIdx + 1, flagIdx + 1)
        else some (txHashes, idx, hashIdx + 1, flagIdx + 1)
      else do
        let (txHashes, idx, hashIdx, flagIdx) ←
          txHashesR null hashesCount fuel (depth + 1) txHashes idx hashIdx (flagIdx + 1)
        txHashesR null hashesCount fuel (depth + 1) txHashes idx hashIdx flagIdx
    else some (txHashes, idx, hashIdx, flagIdx)

/-- `BRMerkleBlockTxHashes` into a buffer of `hashesCount` hashes. -/
def txHashes (hashesCount : ℕ) : Option (List α) :=
  (block.txHashesR false hashesCount maxDepth 0 [] 0 0 0).map fun r => r.1

/-- `BRMerkleBlockTxHashes` of `NULL`: the number of hashes. -/
def txHashesCount : Option ℕ :=
  (block.txHashesR true SIZE_MAX maxDepth 0 [] 0 0 0).map fun r => r.2.1

variable [DecidableEq α] (M : MerkleHash α)

/-- `_MerkleBlockRootR`: the root, and the next indices. -/
def rootR : ℕ → ℕ → ℕ → ℕ → Option (α × ℕ × ℕ)
  | 0, _, _, _ => none
  | fuel + 1, depth, hashIdx, flagIdx =>
    if block.More hashIdx flagIdx then do
      let flag ← block.flag flagIdx
      let inner ← if flag then (ceilLog2 block.totalTx).map (fun d => decide (depth ≠ d))
        else some false
      if inner then do
        let (left, hashIdx, flagIdx) ← rootR fuel (depth + 1) hashIdx (flagIdx + 1)
        let (right, hashIdx, flagIdx) ← rootR fuel (depth + 1) hashIdx flagIdx
        if left ≠ M.zero ∧ left ≠ right then
          -- if the right branch is missing, the left one is duplicated
          some (M.sha256_2 left (if right = M.zero then left else right), hashIdx, flagIdx)
        else some (M.zero, SIZE_MAX, flagIdx)
      else do
        let hash ← block.hashes[hashIdx]?
        some (hash, hashIdx + 1, flagIdx + 1)
    else some (M.zero, hashIdx, flagIdx)

/-- The root that the partial tree has. -/
def root : Option α := (block.rootR M maxDepth 0 0 0).map fun r => r.1

/-- The number `hash` is at most `t`, both given from the most significant byte on. -/
def workLE : Bytes → Bytes → Bool
  | b :: bs, t :: ts => if b < t then true else if b > t then false else workLE bs ts
  | _, _ => true

/-- The target that `BRMerkleBlockIsValid` writes into 32 bytes. -/
def targetBytes (size target : UInt32) : Option Bytes :=
  if size > 3 then poke (List.replicate 32 0) (size.toNat - 3) (toLE 4 target.toNat)
  else poke (List.replicate 32 0) 0 (toLE 4 (target >>> ((3 - size) * 8)).toNat)

/-- `BRMerkleBlockIsValid`; no result if the target is written outside of its 32 bytes. -/
def isValid (currentTime : UInt32) : Option Bool := do
  let maxsize := MAX_PROOF_OF_WORK >>> 24
  let maxtarget := MAX_PROOF_OF_WORK &&& 0x00ffffff
  let size := block.target >>> 24
  let target := block.target &&& 0x00ffffff
  let merkleRoot ← block.root M
  let t ← targetBytes size target
  some (!decide (block.totalTx > 0 ∧ merkleRoot ≠ block.merkleRoot) &&
    !decide (block.timestamp > currentTime + BLOCK_MAX_TIME_DRIFT) &&
    !decide (target = 0 ∨ target &&& 0x00800000 ≠ 0 ∨ size > maxsize ∨
      (size = maxsize ∧ target > maxtarget)) &&
    workLE (M.bytes block.blockHash).reverse t.reverse)

end BRMerkleBlock

/-! ## The height of the tree -/

theorem ceilLog2Loop_eq {fuel : ℕ} {x : BitVec 32} (hx : x.msb = false)
    (hf : x.toNat < 2 ^ (fuel + 1)) (r : ℕ) :
    ceilLog2Loop (fuel + 1) x r = some (r + Nat.log2 x.toNat) := by
  have hshift : (x.sshiftRight 1).toNat = x.toNat / 2 := by
    rw [BitVec.sshiftRight_eq_of_msb_false hx, BitVec.toNat_ushiftRight, Nat.shiftRight_succ,
      Nat.shiftRight_zero]
  have hmsb : (x.sshiftRight 1).msb = false := by rw [BitVec.msb_sshiftRight, hx]
  induction fuel generalizing x r with
  | zero =>
    have hzero : x.sshiftRight 1 = 0 := BitVec.eq_of_toNat_eq (by rw [hshift]; simp; omega)
    rw [ceilLog2Loop, if_neg (not_not_intro hzero), Nat.log2_def, if_neg (by omega), Nat.add_zero]
  | succ fuel ih =>
    rw [ceilLog2Loop, Nat.log2_def]
    by_cases h2 : x.toNat ≥ 2
    · have hne : x.sshiftRight 1 ≠ 0 := by
        intro hzero
        rw [hzero] at hshift
        simp at hshift
        omega
      have hlt : (x.sshiftRight 1).toNat < 2 ^ (fuel + 1) := by
        rw [hshift]
        rw [Nat.pow_succ] at hf
        omega
      rw [if_pos hne, if_pos h2, ih hmsb hlt _ (by
        rw [BitVec.sshiftRight_eq_of_msb_false hmsb, BitVec.toNat_ushiftRight, Nat.shiftRight_succ,
          Nat.shiftRight_zero]) (by rw [BitVec.msb_sshiftRight, hmsb]), hshift]
      congr 1
      omega
    · have hzero : x.sshiftRight 1 = 0 := BitVec.eq_of_toNat_eq (by rw [hshift]; simp; omega)
      rw [if_neg (not_not_intro hzero), if_neg h2, Nat.add_zero]

/-- On a negative number the loop does not end. -/
theorem ceilLog2Loop_neg {x : BitVec 32} (hx : x.msb = true) (fuel r : ℕ) :
    ceilLog2Loop fuel x r = none := by
  induction fuel generalizing x r with
  | zero => rfl
  | succ fuel ih =>
    have hmsb : (x.sshiftRight 1).msb = true := by rw [BitVec.msb_sshiftRight, hx]
    have hne : x.sshiftRight 1 ≠ 0 := by
      intro hzero
      rw [hzero] at hmsb
      exact absurd hmsb (by decide)
    rw [ceilLog2Loop, if_pos hne, ih hmsb]

theorem clog_eq (n : ℕ) :
    Nat.clog 2 n = (if n &&& (n - 1) ≠ 0 then 1 else 0) + Nat.log2 n := by
  rcases Nat.eq_zero_or_pos n with rfl | hpos
  · simp
  have hlow : 2 ^ n.log2 ≤ n := Nat.log2_self_le hpos.ne'
  have hhigh : n < 2 ^ (n.log2 + 1) := Nat.lt_log2_self
  by_cases hp : n &&& (n - 1) = 0
  · rw [if_neg (not_not_intro hp), Nat.zero_add]
    obtain ⟨k, rfl⟩ := (Nat.and_sub_one_eq_zero_iff_isPowerOfTwo hpos.ne').1 hp
    rw [Nat.clog_pow _ _ (by decide), Nat.log2_two_pow]
  · rw [if_pos hp, Nat.add_comm]
    refine le_antisymm ((Nat.clog_le_iff_le_pow (by decide)).2 hhigh.le) ?_
    by_contra hlt
    have hle : n ≤ 2 ^ n.log2 := (Nat.clog_le_iff_le_pow (by decide)).1 (by omega)
    exact hp ((Nat.and_sub_one_eq_zero_iff_isPowerOfTwo hpos.ne').2
      ⟨n.log2, le_antisymm hle hlow⟩)

theorem ceilLog2_eq {x : UInt32} (h : x.toNat < 2 ^ 31) :
    ceilLog2 x = some (Nat.clog 2 x.toNat) := by
  have hmsb : x.toBitVec.msb = false := by
    rw [BitVec.msb_eq_false_iff_two_mul_lt]
    change 2 * x.toNat < _
    omega
  have hbit : (x.toBitVec &&& (x.toBitVec - 1) ≠ 0) ↔ (x.toNat &&& (x.toNat - 1) ≠ 0) := by
    rcases Nat.eq_zero_or_pos x.toNat with h0 | hpos
    · have hx : x.toBitVec = 0 := BitVec.eq_of_toNat_eq h0
      rw [hx, h0]
      simp
    · have hsub : (x.toBitVec - 1).toNat = x.toNat - 1 := by
        have hle : (1 : BitVec 32) ≤ x.toBitVec := BitVec.le_def.2 hpos
        rw [BitVec.toNat_sub_of_le hle]
        rfl
      have hand : (x.toBitVec &&& (x.toBitVec - 1)).toNat = x.toNat &&& (x.toNat - 1) := by
        rw [BitVec.toNat_and, hsub]
        rfl
      rw [← hand, not_iff_not, ← BitVec.toNat_inj]
      rfl
  rw [ceilLog2, ceilLog2Loop_eq hmsb (lt_of_lt_of_le h (by decide)), clog_eq]
  simp only [hbit]
  rfl

theorem ceilLog2_none {x : UInt32} (h : 2 ^ 31 ≤ x.toNat) : ceilLog2 x = none := by
  refine ceilLog2Loop_neg ?_ _ _
  rw [BitVec.msb_eq_true_iff_two_mul_ge]
  change 2 * x.toNat ≥ _
  omega

theorem ceilLog2_le {x : UInt32} {d : ℕ} (h : ceilLog2 x = some d) : d ≤ 31 := by
  by_cases hx : x.toNat < 2 ^ 31
  · rw [ceilLog2_eq hx] at h
    obtain rfl := Option.some.inj h
    exact (Nat.clog_le_iff_le_pow (by decide)).2 hx.le
  · rw [ceilLog2_none (Nat.le_of_not_lt hx)] at h
    cases h

/-! ## The walks and the partial tree -/

namespace BRMerkleBlock

open Merkle Merkle.Partial

variable {α : Type} {block : BRMerkleBlock α} {hashIdx flagIdx : ℕ}

/-- The flag bits. -/
def bits (block : BRMerkleBlock α) : List Bool := bitsOf block.flags

/-- The partial tree of a block of height `d`. -/
def tree (block : BRMerkleBlock α) (d : ℕ) : Partial α :=
  (Partial.read d block.bits block.hashes).1

/-- What the walks read where there is something left. -/
theorem Held.more (hw : block.Held) (hm : block.More hashIdx flagIdx) : ∃ b x,
    block.flag flagIdx = some b ∧ block.hashes[hashIdx]? = some x ∧
    block.bits.drop flagIdx = b :: block.bits.drop (flagIdx + 1) ∧
    block.hashes.drop hashIdx = x :: block.hashes.drop (hashIdx + 1) := by
  obtain ⟨hf, hh⟩ := hm
  rw [← hw.flags] at hf
  rw [← hw.hashes] at hh
  have hlen : flagIdx < block.bits.length := by
    rw [bits, length_bitsOf]
    omega
  have hflag : block.flag flagIdx = some block.bits[flagIdx] := by
    rw [← List.getElem?_eq_getElem hlen, bits, getElem?_bitsOf]
    rfl
  exact ⟨_, _, hflag, List.getElem?_eq_getElem hh, List.drop_eq_getElem_cons hlen,
    List.drop_eq_getElem_cons hh⟩

theorem Held.not_more (hw : block.Held) (hm : ¬ block.More hashIdx flagIdx) :
    block.bits.drop flagIdx = [] ∨ block.hashes.drop hashIdx = [] := by
  rw [List.drop_eq_nil_iff, List.drop_eq_nil_iff, bits, length_bitsOf, hw.flags, hw.hashes]
  by_contra hne
  exact hm ⟨by omega, by omega⟩

theorem read_missing {bs : List Bool} {hs : List α} (h : bs = [] ∨ hs = []) (k : ℕ) :
    Partial.read k bs hs = (.missing, bs, hs) := by
  rcases h with rfl | rfl
  · cases k <;> rfl
  · exact read_nil bs

/-- The recursion for the hashes walks the whole partial tree. -/
theorem txHashesR_eq (hw : block.Held) {d : ℕ} (hd : ceilLog2 block.totalTx = some d)
    (null : Bool) (count : ℕ) {k fuel depth : ℕ} (hk : k < fuel) (hdep : depth + k = d)
    (out : List α) (idx hashIdx flagIdx : ℕ) :
    let r := Partial.read k (block.bits.drop flagIdx) (block.hashes.drop hashIdx)
    let found := r.1.matched.take (count - idx)
    ∃ hashIdx' flagIdx', block.txHashesR null count fuel depth out idx hashIdx flagIdx =
        some (if null then out else out ++ found, idx + found.length, hashIdx', flagIdx') ∧
      (block.bits.drop flagIdx', block.hashes.drop hashIdx') = r.2 := by
  induction k generalizing fuel depth out idx hashIdx flagIdx with
  | zero =>
    obtain ⟨fuel, rfl⟩ : ∃ n, fuel = n + 1 := ⟨fuel - 1, by omega⟩
    have hdep' : depth = d := by omega
    by_cases hm : block.More hashIdx flagIdx
    · obtain ⟨b, x, hflag, hx, hbits, hhashes⟩ := hw.more hm
      rw [hbits, hhashes]
      refine ⟨hashIdx + 1, flagIdx + 1, ?_, rfl⟩
      rw [txHashesR, if_pos hm, hflag, hd, hx]
      rcases Nat.lt_or_ge idx count with hlt | hle
      · obtain ⟨n, hroom⟩ : ∃ n, count - idx = n + 1 := ⟨count - idx - 1, by omega⟩
        cases b <;> cases null <;>
          simp [hdep', Partial.read, Partial.matched, hlt, hroom, List.take_succ_cons]
      · have hfull : count - idx = 0 := by omega
        cases b <;> simp [hdep', Partial.read, Partial.matched, hfull, Nat.not_lt.2 hle]
    · rw [read_missing (hw.not_more hm)]
      exact ⟨hashIdx, flagIdx, by rw [txHashesR, if_neg hm]; simp [Partial.matched], rfl⟩
  | succ k ih =>
    obtain ⟨fuel, rfl⟩ : ∃ n, fuel = n + 1 := ⟨fuel - 1, by omega⟩
    by_cases hm : block.More hashIdx flagIdx
    · obtain ⟨b, x, hflag, hx, hbits, hhashes⟩ := hw.more hm
      cases b with
      | false =>
        rw [hbits, hhashes]
        refine ⟨hashIdx + 1, flagIdx + 1, ?_, rfl⟩
        rw [txHashesR, if_pos hm, hflag]
        simp [Partial.read, Partial.matched]
      | true =>
        have hinner : depth ≠ d := by omega
        have hne : block.hashes.drop hashIdx ≠ [] := by simp [hhashes]
        rcases hread₁ : Partial.read k (block.bits.drop (flagIdx + 1)) (block.hashes.drop hashIdx)
          with ⟨l, bs₁, hs₁⟩
        rcases hread₂ : Partial.read k bs₁ hs₁ with ⟨r, bs₂, hs₂⟩
        obtain ⟨h₁, f₁, hleft, hrest₁⟩ := ih (by omega : k < fuel)
          (by omega : depth + 1 + k = d) out idx hashIdx (flagIdx + 1)
        simp only [hread₁] at hleft hrest₁
        obtain ⟨hbs₁, hhs₁⟩ := Prod.mk.inj hrest₁
        obtain ⟨h₂, f₂, hright, hrest₂⟩ := ih (by omega : k < fuel)
          (by omega : depth + 1 + k = d) (if null then out else out ++ l.matched.take (count - idx))
          (idx + (l.matched.take (count - idx)).length) h₁ f₁
        simp only [hbs₁, hhs₁, hread₂] at hright hrest₂
        simp only [hbits, read_true _ _ hne, hread₁, hread₂]
        have hfound : (l.node r).matched.take (count - idx) = l.matched.take (count - idx) ++
            r.matched.take (count - (idx + (l.matched.take (count - idx)).length)) := by
          rw [Partial.matched, List.take_append, List.length_take]
          congr 2
          omega
        refine ⟨h₂, f₂, ?_, hrest₂⟩
        rw [txHashesR, if_pos hm, hflag, hd, hfound, List.length_append, ← Nat.add_assoc]
        simp only [Option.bind_eq_bind, Option.bind_some, if_true, Option.map_some, hinner,
          decide_false, Bool.false_eq_true, if_false, hleft, hright]
        cases null with
        | true => rfl
        | false => simp only [Bool.false_eq_true, if_false, List.append_assoc]
    · rw [read_missing (hw.not_more hm)]
      exact ⟨hashIdx, flagIdx, by rw [txHashesR, if_neg hm]; simp [Partial.matched], rfl⟩

/-- `BRMerkleBlockTxHashes` writes the flagged leaves, as many as there is room for. -/
theorem txHashes_eq (hw : block.Held) {d : ℕ} (hd : ceilLog2 block.totalTx = some d) (n : ℕ) :
    block.txHashes n = some ((block.tree d).matched.take n) := by
  have hmax : d < maxDepth := Nat.lt_of_le_of_lt (ceilLog2_le hd) (by decide)
  obtain ⟨h', f', hwalk, -⟩ := txHashesR_eq hw hd false n hmax (Nat.zero_add d) [] 0 0 0
  rw [txHashes, hwalk]
  rfl

/-- The sizing pass counts the flagged leaves. -/
theorem txHashesCount_eq (hw : block.Held) {d : ℕ} (hd : ceilLog2 block.totalTx = some d) :
    block.txHashesCount = some (block.tree d).matched.length := by
  have hmax : d < maxDepth := Nat.lt_of_le_of_lt (ceilLog2_le hd) (by decide)
  have hle : (block.tree d).matched.length ≤ SIZE_MAX := by
    have hread := Partial.length_matched_read d block.bits block.hashes
    rw [hw.hashes] at hread
    exact (Nat.le_of_add_right_le hread).trans hw.hashes_le
  obtain ⟨h', f', hwalk, -⟩ := txHashesR_eq hw hd true SIZE_MAX hmax (Nat.zero_add d) [] 0 0 0
  rw [txHashesCount, hwalk]
  change some (0 + ((block.tree d).matched.take (SIZE_MAX - 0)).length) = _
  rw [Nat.sub_zero, List.take_of_length_le hle, Nat.zero_add]

variable [DecidableEq α] {M : MerkleHash α}

theorem rootR_not_more {fuel depth : ℕ} (hm : ¬ block.More hashIdx flagIdx) :
    block.rootR M (fuel + 1) depth hashIdx flagIdx = some (M.zero, hashIdx, flagIdx) := by
  rw [rootR, if_neg hm]

/-- The recursion at an inner node. -/
theorem rootR_inner {d fuel depth : ℕ} (hm : block.More hashIdx flagIdx)
    (hflag : block.flag flagIdx = some true) (hd : ceilLog2 block.totalTx = some d)
    (hdep : depth ≠ d) {a b : α} {h₁ f₁ h₂ f₂ : ℕ}
    (hl : block.rootR M fuel (depth + 1) hashIdx (flagIdx + 1) = some (a, h₁, f₁))
    (hr : block.rootR M fuel (depth + 1) h₁ f₁ = some (b, h₂, f₂)) :
    block.rootR M (fuel + 1) depth hashIdx flagIdx =
      if a ≠ M.zero ∧ a ≠ b then some (M.sha256_2 a (if b = M.zero then a else b), h₂, f₂)
      else some (M.zero, SIZE_MAX, f₂) := by
  rw [rootR, if_pos hm, hflag, hd]
  simp [hdep, hl, hr]

/-- The recursion for the root walks the partial tree up to a failure. -/
theorem rootR_eq (hw : block.Held) {d : ℕ} (hd : ceilLog2 block.totalTx = some d)
    {k fuel depth : ℕ} (hk : k < fuel) (hdep : depth + k = d) (hashIdx flagIdx : ℕ) :
    let r := Partial.read k (block.bits.drop flagIdx) (block.hashes.drop hashIdx)
    let v := r.1.root M.zero M.sha256_2 false
    ∃ hashIdx' flagIdx', block.rootR M fuel depth hashIdx flagIdx = some (v.1, hashIdx', flagIdx') ∧
      (v.2 = true → hashIdx' = SIZE_MAX) ∧
      (v.2 = false → (block.bits.drop flagIdx', block.hashes.drop hashIdx') = r.2) := by
  induction k generalizing fuel depth hashIdx flagIdx with
  | zero =>
    obtain ⟨fuel, rfl⟩ : ∃ n, fuel = n + 1 := ⟨fuel - 1, by omega⟩
    by_cases hm : block.More hashIdx flagIdx
    · obtain ⟨b, x, hflag, hx, hbits, hhashes⟩ := hw.more hm
      rw [hbits, hhashes]
      refine ⟨hashIdx + 1, flagIdx + 1, ?_, fun h => (Bool.false_ne_true h).elim, fun _ => rfl⟩
      rw [rootR, if_pos hm, hflag, hd, hx]
      cases b <;> simp [← hdep, Partial.read, Partial.root]
    · rw [read_missing (hw.not_more hm)]
      exact ⟨hashIdx, flagIdx, rootR_not_more hm, fun h => (Bool.false_ne_true h).elim,
        fun _ => rfl⟩
  | succ k ih =>
    obtain ⟨fuel, rfl⟩ : ∃ n, fuel = n + 1 := ⟨fuel - 1, by omega⟩
    by_cases hm : block.More hashIdx flagIdx
    · obtain ⟨b, x, hflag, hx, hbits, hhashes⟩ := hw.more hm
      cases b with
      | false =>
        rw [hbits, hhashes]
        refine ⟨hashIdx + 1, flagIdx + 1, ?_, fun h => (Bool.false_ne_true h).elim, fun _ => rfl⟩
        rw [rootR, if_pos hm, hflag, hx]
        rfl
      | true =>
        have hinner : depth ≠ d := by omega
        have hne : block.hashes.drop hashIdx ≠ [] := by simp [hhashes]
        rcases hread₁ : Partial.read k (block.bits.drop (flagIdx + 1)) (block.hashes.drop hashIdx)
          with ⟨l, bs₁, hs₁⟩
        rcases hread₂ : Partial.read k bs₁ hs₁ with ⟨r, bs₂, hs₂⟩
        obtain ⟨h₁, f₁, hleft, hfail₁, hrest₁⟩ :=
          ih (by omega : k < fuel) (by omega : depth + 1 + k = d) hashIdx (flagIdx + 1)
        simp only [hread₁] at hleft hfail₁ hrest₁
        simp only [hbits, read_true _ _ hne, hread₁, hread₂]
        rcases hl : l.root M.zero M.sha256_2 false with ⟨a, _ | _⟩
        · rw [hl] at hleft hrest₁
          obtain ⟨hbs₁, hhs₁⟩ := Prod.mk.inj (hrest₁ rfl)
          obtain ⟨h₂, f₂, hright, hfail₂, hrest₂⟩ :=
            ih (by omega : k < fuel) (by omega : depth + 1 + k = d) h₁ f₁
          simp only [hbs₁, hhs₁, hread₂] at hright hfail₂ hrest₂
          rw [rootR_inner hm hflag hd hinner hleft hright, root_node_eq hl rfl]
          by_cases hab : a ≠ M.zero ∧ a ≠ (r.root M.zero M.sha256_2 false).1
          · rw [if_pos hab, if_pos hab]
            exact ⟨h₂, f₂, rfl, hfail₂, hrest₂⟩
          · rw [if_neg hab, if_neg hab]
            exact ⟨SIZE_MAX, f₂, rfl, fun _ => rfl, fun h => (Bool.false_ne_true h.symm).elim⟩
        · -- after a failure no hash is read any more
          rw [hl] at hleft hfail₁
          obtain rfl := hfail₁ rfl
          have hend : ¬ block.More SIZE_MAX f₁ := fun h => absurd h.2 (Nat.not_lt.2 hw.hashes_le)
          obtain ⟨fuel', rfl⟩ : ∃ n, fuel = n + 1 := ⟨fuel - 1, by omega⟩
          rw [rootR_inner hm hflag hd hinner hleft (rootR_not_more hend),
            root_node_eq hl (root_failed _)]
          by_cases hab : a ≠ M.zero ∧ a ≠ M.zero
          · rw [if_pos hab, if_pos hab]
            exact ⟨SIZE_MAX, f₁, rfl, fun _ => rfl, fun h => (Bool.false_ne_true h.symm).elim⟩
          · rw [if_neg hab, if_neg hab]
            exact ⟨SIZE_MAX, f₁, rfl, fun _ => rfl, fun h => (Bool.false_ne_true h.symm).elim⟩
    · rw [read_missing (hw.not_more hm)]
      exact ⟨hashIdx, flagIdx, rootR_not_more hm, fun h => (Bool.false_ne_true h).elim,
        fun _ => rfl⟩

theorem root_eq (hw : block.Held) {d : ℕ} (hd : ceilLog2 block.totalTx = some d) :
    block.root M = some ((block.tree d).root M.zero M.sha256_2 false).1 := by
  have hmax : d < maxDepth := Nat.lt_of_le_of_lt (ceilLog2_le hd) (by decide)
  obtain ⟨h', f', hroot, -, -⟩ := rootR_eq (M := M) hw hd hmax (Nat.zero_add d) 0 0
  rw [root, hroot]
  rfl

end BRMerkleBlock

end RavenWallet
