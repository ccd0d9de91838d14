/-
  Difficulty targets (BRInt.h, BRMerkleBlock.c), for the main network.

  The 256-bit operations that the source computes limb by limb are those of bit
  vectors.  A failed assertion has no result.

  * `darkGravityWaveTarget` is the target after a block, `verifyDifficulty` the
    check of a block, with the count that it keeps from call to call;
  * `steady_iff`: the blocks on which the verdict does not depend on the calls
    before, and is true only if the block is linked to the previous one.
-/
import Mathlib.Data.Nat.Size
import RavenWallet.Core.MerkleBlock

namespace RavenWallet

def DGW_PAST_BLOCKS : Int32 := 180
def DGW_START_BLOCK : UInt32 := 338778
def DGW_TARGET_TIMESPAN : Int32 := 1 * 60

/-! ## 256-bit numbers -/

namespace BRInt

/-- `bits`, which returns a `uint8_t`. -/
def bits (number : UInt256) : UInt8 := UInt8.ofNat number.toNat.size

def shiftLeft (a : UInt256) (bits : UInt8) : UInt256 := a <<< bits.toNat

def shiftRight (a : UInt256) (bits : UInt8) : UInt256 := a >>> bits.toNat

/-- The loop of `divide`, from the shift `n - 1` down. -/
def divideLoop : ℕ → UInt256 → UInt256 → UInt256 → UInt256
  | 0, _, _, r => r
  | shift + 1, num, div, r =>
    if num ≥ div then divideLoop shift (num - div) (shiftRight div 1) (r ||| 1#256 <<< shift)
    else divideLoop shift num (shiftRight div 1) r

def divide (a b : UInt256) : Option UInt256 :=
  let num_bits := bits a
  let div_bits := bits b
  if div_bits = 0 then none
  else if div_bits > num_bits then some 0
  else
    let shift := num_bits - div_bits
    some (divideLoop (shift.toNat + 1) a (shiftLeft b shift) 0)

def multiplyThis32 (a : UInt256) (b : UInt32) : UInt256 := a * BitVec.ofNat 256 b.toNat

/-- The low 32 bits, `u32[0]`. -/
def low32 (number : UInt256) : UInt32 := UInt32.ofNat number.toNat

def setCompact (nCompact : Int32) : UInt256 :=
  let nSize := (nCompact >>> 24).toInt
  let nWord := BitVec.ofNat 256 (nCompact.toUInt32 &&& 0x007fffff).toNat
  if nSize ≤ 3 then shiftRight nWord (UInt8.ofInt (8 * (3 - nSize)))
  else shiftLeft nWord (UInt8.ofInt (8 * (nSize - 3)))

def getCompact (number : UInt256) : Option UInt32 :=
  let nSize := ((bits number).toNat + 7) / 8
  let nCompact :=
    if nSize ≤ 3 then low32 number <<< UInt32.ofNat (8 * (3 - nSize))
    else low32 (shiftRight number (UInt8.ofNat (8 * (nSize - 3))))
  let (nCompact, nSize) :=
    if nCompact &&& 0x00800000 ≠ 0 then (nCompact >>> 8, nSize + 1) else (nCompact, nSize)
  if nCompact &&& ~~~0x007fffff = 0 ∧ nSize < 256 then
    some (nCompact ||| UInt32.ofNat nSize <<< 24)
  else none

end BRInt

namespace BRMerkleBlock

/-! ## The target -/

/-- `BRSetGet` of a block set: the block with the hash. -/
def blockFor (blocks : List (BRMerkleBlock UInt256)) (hash : UInt256) :
    Option (BRMerkleBlock UInt256) :=
  blocks.find? fun block => block.blockHash = hash

/-- What the loop over the past blocks computes. -/
structure PastTargets where
  blockCount : Int32
  sumTargets : UInt256
  lastBlockTime : Int64
  nActualTimespan : Int32

/-- The loop of `DarkGravityWaveTarget`, for at most as many blocks as the first argument says. -/
def pastTargets (blocks : List (BRMerkleBlock UInt256)) :
    ℕ → Option (BRMerkleBlock UInt256) → PastTargets → PastTargets
  | 0, _, p => p
  | _ + 1, none, p => p
  | n + 1, some block, p =>
    if block.height > 0 ∧ p.blockCount ≤ DGW_PAST_BLOCKS then
      let currentTarget := BRInt.setCompact block.target.toInt32
      let currentBlockTime := Int64.ofNat block.timestamp.toNat
      pastTargets blocks n (blockFor blocks block.prevBlock)
        { blockCount := p.blockCount + 1
          sumTargets :=
            if p.blockCount = 1 then currentTarget + currentTarget else p.sumTargets + currentTarget
          lastBlockTime := currentBlockTime
          nActualTimespan :=
            if p.lastBlockTime > 0 then
              (p.nActualTimespan.toInt64 + (p.lastBlockTime - currentBlockTime)).toInt32
            else p.nActualTimespan }
    else p

/-- `DarkGravityWaveTarget`. -/
def darkGravityWaveTarget (previous : BRMerkleBlock UInt256)
    (blockSet : List (BRMerkleBlock UInt256)) : Option Int32 :=
  match blockFor blockSet previous.blockHash with
  | none => some MAX_PROOF_OF_WORK.toInt32
  | some previousBlock =>
    if previousBlock.height = 0 ∨ previousBlock.height < DGW_START_BLOCK then
      some MAX_PROOF_OF_WORK.toInt32
    else do
      let p := pastTargets blockSet 180 (some previousBlock)
        { blockCount := 1, sumTargets := 0, lastBlockTime := 0, nActualTimespan := 0 }
      let darkTarget ← BRInt.divide p.sumTargets (BitVec.ofInt 256 p.blockCount.toInt)
      let nTargetTimespan := (p.blockCount - 1) * DGW_TARGET_TIMESPAN
      let nActualTimespan :=
        if p.nActualTimespan < nTargetTimespan / 3 then nTargetTimespan / 3 else p.nActualTimespan
      let nActualTimespan :=
        if nActualTimespan > nTargetTimespan * 3 then nTargetTimespan * 3 else nActualTimespan
      let darkTarget ← BRInt.divide (BRInt.multiplyThis32 darkTarget nActualTimespan.toUInt32)
        (BitVec.ofInt 256 nTargetTimespan.toInt)
      let compact ← BRInt.getCompact darkTarget
      some (if compact > MAX_PROOF_OF_WORK then MAX_PROOF_OF_WORK else compact).toInt32

/-! ## The check -/

/-- The block follows the previous one. -/
def linked (block previous : BRMerkleBlock UInt256) : Bool :=
  decide (block.prevBlock = previous.blockHash ∧ block.height = previous.height + 1)

/-- `BRMerkleBlockVerifyDifficulty`: the verdict, and the new value of its static `pastCount`. -/
def verifyDifficulty (block previous : BRMerkleBlock UInt256)
    (blocks : List (BRMerkleBlock UInt256)) (pastCount : Int32) : Option (Bool × Int32) :=
  let r := linked block previous
  if block.height ≥ DGW_START_BLOCK then do
    let DGWTarget ← darkGravityWaveTarget previous blocks
    let diff := (block.target - DGWTarget.toUInt32).toInt32
    if pastCount < DGW_PAST_BLOCKS then
      let r := if block.height = 338778 then decide (block.target = 0x1b07cf3a) else r
      some (r, pastCount + 1)
    else if block.height ≥ 1219736 ∧ block.height ≤ 1219916 then some (true, pastCount)
    else some (decide (diff.abs < 2), pastCount + 1)
  else some (r, pastCount)

/-- The arguments of a call. -/
structure DifficultyCall where
  block : BRMerkleBlock UInt256
  previous : BRMerkleBlock UInt256
  blocks : List (BRMerkleBlock UInt256)

namespace DifficultyCall

/-- The verdict of a call with `pastCount`; none if an assertion fails. -/
def verify (c : DifficultyCall) (pastCount : Int32) : Option (Bool × Int32) :=
  verifyDifficulty c.block c.previous c.blocks pastCount

/-- `pastCount` after a history of calls, none of which fails an assertion. -/
def pastCount (history : List DifficultyCall) : Option Int32 :=
  history.foldlM (fun n c => (c.verify n).map fun r => r.2) 0

/-- The verdict of a call after a history of calls. -/
def verdict (history : List DifficultyCall) (c : DifficultyCall) : Option Bool :=
  (pastCount history).bind fun n => (c.verify n).map fun r => r.1

/-- The verdict does not depend on the calls before, and is true only for a linked block. -/
structure Steady (c : DifficultyCall) : Prop where
  independent : ∀ h h' n n', pastCount h = some n → pastCount h' = some n' →
    verdict h c = verdict h' c
  linked : ∀ h, verdict h c = some true →
    c.block.prevBlock = c.previous.blockHash ∧ c.block.height = c.previous.height + 1

/-- What the first 180 calls check: the link, but for the first block with the new difficulty its
    target. -/
def early (c : DifficultyCall) : Prop :=
  if c.block.height = DGW_START_BLOCK then c.block.target = 0x1b07cf3a
  else c.block.prevBlock = c.previous.blockHash ∧ c.block.height = c.previous.height + 1

/-- What the later calls check: the target, but not at some heights. -/
def late (c : DifficultyCall) (DGWTarget : Int32) : Prop :=
  (c.block.height ≥ 1219736 ∧ c.block.height ≤ 1219916) ∨
    (c.block.target - DGWTarget.toUInt32).toInt32.abs < 2

/-- Before the new difficulty only the link is checked.  From then on the early and the late checks
    agree, and an accepted block is linked. -/
def Agrees (c : DifficultyCall) : Prop :=
  c.block.height ≥ DGW_START_BLOCK → ∀ t, darkGravityWaveTarget c.previous c.blocks = some t →
    (c.early ↔ c.late t) ∧ (c.late t →
      c.block.prevBlock = c.previous.blockHash ∧ c.block.height = c.previous.height + 1)

instance (c : DifficultyCall) : Decidable c.early := by
  unfold early
  infer_instance

instance (c : DifficultyCall) (t : Int32) : Decidable (c.late t) :=
  inferInstanceAs (Decidable (_ ∨ _))

variable {c : DifficultyCall} {t n : Int32}

theorem verify_old (h : ¬ c.block.height ≥ DGW_START_BLOCK) :
    c.verify n = some (BRMerkleBlock.linked c.block c.previous, n) := by
  rw [verify, verifyDifficulty, if_neg h]

theorem verify_none (h : c.block.height ≥ DGW_START_BLOCK)
    (ht : darkGravityWaveTarget c.previous c.blocks = none) : c.verify n = none := by
  rw [verify, verifyDifficulty, if_pos h, ht]
  rfl

theorem verify_early (h : c.block.height ≥ DGW_START_BLOCK)
    (ht : darkGravityWaveTarget c.previous c.blocks = some t) (hn : n < DGW_PAST_BLOCKS) :
    c.verify n = some (decide c.early, n + 1) := by
  rw [verify, verifyDifficulty, if_pos h, ht]
  simp only [Option.bind_eq_bind, Option.bind_some]
  rw [if_pos hn]
  by_cases hs : c.block.height = DGW_START_BLOCK
  · have hs' : c.block.height = 338778 := hs
    rw [if_pos hs']
    simp only [early, if_pos hs]
  · have hs' : ¬ c.block.height = 338778 := hs
    rw [if_neg hs']
    simp only [early, if_neg hs, BRMerkleBlock.linked]

theorem verify_late (h : c.block.height ≥ DGW_START_BLOCK)
    (ht : darkGravityWaveTarget c.previous c.blocks = some t) (hn : ¬ n < DGW_PAST_BLOCKS) :
    (c.verify n).map (fun r => r.1) = some (decide (c.late t)) := by
  rw [verify, verifyDifficulty, if_pos h, ht]
  simp only [Option.bind_eq_bind, Option.bind_some]
  rw [if_neg hn]
  by_cases hw : c.block.height ≥ 1219736 ∧ c.block.height ≤ 1219916
  · have hl : c.late t := Or.inl hw
    rw [if_pos hw, decide_eq_true hl]
    rfl
  · rw [if_neg hw]
    simp only [late, hw, false_or, Option.map_some]

/-- A call that counts, with no block stored. -/
def first : DifficultyCall where
  block := { blockHash := 0, prevBlock := 0, merkleRoot := 0, mixHash := 0
             height := DGW_START_BLOCK }
  previous := { blockHash := 0, prevBlock := 0, merkleRoot := 0, mixHash := 0 }
  blocks := []

theorem pastCount_concat (h : List DifficultyCall) (c : DifficultyCall) :
    pastCount (h ++ [c]) = (pastCount h).bind fun n => (c.verify n).map fun r => r.2 := by
  rw [pastCount, List.foldlM_append]
  simp only [List.foldlM_cons, List.foldlM_nil, Option.pure_def, Option.bind_eq_bind,
    Option.bind_fun_some]
  rfl

/-- The count goes up to any number of calls. -/
theorem pastCount_first {k : ℕ} (hk : k ≤ 180) :
    pastCount (List.replicate k first) = some (Int32.ofNat k) := by
  induction k with
  | zero => rfl
  | succ k ih =>
    have hlt : Int32.ofNat k < DGW_PAST_BLOCKS := by
      rw [Int32.lt_iff_toInt_lt, Int32.toInt_ofNat_of_lt (by omega)]
      change (k : ℤ) < 180
      omega
    rw [List.replicate_succ', pastCount_concat, ih (by omega), Option.bind_some,
      verify_early (by decide) rfl hlt, Int32.ofNat_add]
    rfl

theorem Steady.agrees (hs : c.Steady) : c.Agrees := by
  intro h t ht
  have hlate : pastCount (List.replicate 180 first) = some 180 := pastCount_first (le_refl 180)
  have hv₀ : verdict [] c = some (decide c.early) := by
    rw [verdict]
    change (c.verify 0).map (fun r => r.1) = _
    rw [verify_early h ht (by decide)]
    rfl
  have hv₁ : verdict (List.replicate 180 first) c = some (decide (c.late t)) := by
    rw [verdict, hlate, Option.bind_some, verify_late h ht (by decide)]
  have heq := hs.independent [] (List.replicate 180 first) 0 180 rfl hlate
  rw [hv₀, hv₁, Option.some.injEq, decide_eq_decide] at heq
  exact ⟨heq, fun hl => hs.linked (List.replicate 180 first) (by rw [hv₁, decide_eq_true hl])⟩

theorem Agrees.steady (ha : c.Agrees) : c.Steady := by
  by_cases h : c.block.height ≥ DGW_START_BLOCK
  · cases ht : darkGravityWaveTarget c.previous c.blocks with
    | none =>
      have hv : ∀ h', verdict h' c = none := fun h' => by
        rw [verdict]
        cases pastCount h' with
        | none => rfl
        | some n => rw [Option.bind_some, verify_none h ht]; rfl
      exact ⟨fun h₁ h₂ _ _ _ _ => by rw [hv, hv], fun h₁ hv' => by rw [hv] at hv'; cases hv'⟩
    | some t =>
      obtain ⟨hiff, hlinked⟩ := ha h t ht
      -- early or late, the verdict is the same
      have hv : ∀ h' n, pastCount h' = some n → verdict h' c = some (decide (c.late t)) := by
        intro h' n hn
        rw [verdict, hn, Option.bind_some]
        by_cases hlt : n < DGW_PAST_BLOCKS
        · rw [verify_early h ht hlt, Option.map_some, decide_eq_decide.2 hiff]
        · rw [verify_late h ht hlt]
      refine ⟨fun h₁ h₂ n₁ n₂ hn₁ hn₂ => by rw [hv _ _ hn₁, hv _ _ hn₂], fun h₁ hv' => ?_⟩
      obtain ⟨n, hn, -⟩ := Option.bind_eq_some_iff.1 hv'
      rw [hv _ _ hn] at hv'
      exact hlinked (of_decide_eq_true (Option.some.inj hv'))
  · have hv : ∀ h' n, pastCount h' = some n →
        verdict h' c = some (BRMerkleBlock.linked c.block c.previous) := by
      intro h' n hn
      rw [verdict, hn, Option.bind_some, verify_old h]
      rfl
    refine ⟨fun h₁ h₂ n₁ n₂ hn₁ hn₂ => by rw [hv _ _ hn₁, hv _ _ hn₂], fun h₁ hv' => ?_⟩
    obtain ⟨n, hn, -⟩ := Option.bind_eq_some_iff.1 hv'
    rw [hv _ _ hn] at hv'
    exact of_decide_eq_true (Option.some.inj hv')

/-- Exactly on the blocks on which the early and the late checks agree, and accept only what is
    linked, the verdict is independent of the calls before and true only for a linked block. -/
theorem steady_iff (c : DifficultyCall) : c.Steady ↔ c.Agrees :=
  ⟨Steady.agrees, Agrees.steady⟩

/-- After 180 calls the link of a block is not checked any more. -/
theorem not_steady : ¬ ∀ c : DifficultyCall, c.Steady := by
  intro h
  let c : DifficultyCall := { first with block :=
    { first.block with height := DGW_START_BLOCK + 1, target := MAX_PROOF_OF_WORK } }
  obtain ⟨hiff, -⟩ := (h c).agrees (by decide) MAX_PROOF_OF_WORK.toInt32 rfl
  have hearly : ¬ c.early := by decide
  have hlate : c.late MAX_PROOF_OF_WORK.toInt32 := by decide
  exact hearly (hiff.2 hlate)

end DifficultyCall

end BRMerkleBlock

end RavenWallet
