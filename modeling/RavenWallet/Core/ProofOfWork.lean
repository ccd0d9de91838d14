/-
  What the validity check of a block decides (`BRMerkleBlockIsValid` of
  BRMerkleBlock.c).

  The target is written into 32 bytes at an offset that the block gives, and
  compared with the hash from the last byte on.

  * `workLE_iff`: the comparison is that of the numbers;
  * `targetBytes_eq`: the bytes of the target are those of the mantissa times a
    power of 256;
  * `decides_iff`: a block is valid exactly if it meets the conditions of
    `Valid`, unless the target is written outside of its bytes, the time
    overflows or the arrays of the block are missing.
-/
import RavenWallet.Core.MerkleBlock
import RavenWallet.Core.Script

namespace RavenWallet

namespace BRMerkleBlock

/-- The comparison of the bytes is that of the numbers. -/
theorem workLE_iff {bs ts : Bytes} (h : bs.length = ts.length) :
    workLE bs ts = true ↔ ofBE bs ≤ ofBE ts := by
  induction bs generalizing ts with
  | nil =>
    obtain rfl := List.length_eq_zero_iff.1 h.symm
    simp [workLE]
  | cons b bs ih =>
    obtain ⟨t, ts, rfl⟩ := List.exists_cons_of_length_eq_add_one h.symm
    have hlen : bs.length = ts.length := Nat.succ.inj h
    have hbs := ofBE_lt bs
    have hts := ofBE_lt ts
    rw [hlen] at hbs
    rw [workLE, ofBE_cons, ofBE_cons, hlen]
    rcases Nat.lt_trichotomy b.toNat t.toNat with hlt | heq | hgt
    · rw [if_pos (UInt8.lt_iff_toNat_lt.2 hlt)]
      have hmul : (b.toNat + 1) * 256 ^ ts.length ≤ t.toNat * 256 ^ ts.length :=
        Nat.mul_le_mul_right _ hlt
      rw [Nat.add_mul] at hmul
      simp only [true_iff]
      omega
    · obtain rfl := UInt8.toNat_inj.1 heq
      rw [if_neg (UInt8.lt_irrefl b), if_neg (UInt8.lt_irrefl b), ih hlen]
      exact (Nat.add_le_add_iff_left).symm
    · have hmul : (t.toNat + 1) * 256 ^ ts.length ≤ b.toNat * 256 ^ ts.length :=
        Nat.mul_le_mul_right _ hgt
      have hnot : ¬ b < t := UInt8.not_lt.2 (UInt8.le_iff_toNat_le.2 (Nat.le_of_lt hgt))
      rw [Nat.add_mul] at hmul
      rw [if_neg hnot, if_pos (UInt8.lt_iff_toNat_lt.2 hgt)]
      simp only [Bool.false_eq_true, false_iff, Nat.not_le]
      omega

/-! ## The target -/

/-- The exponent of a compact target. -/
def compactSize (target : UInt32) : UInt32 := target >>> 24

/-- The mantissa of a compact target, with its sign bit. -/
def mantissa (target : UInt32) : UInt32 := target &&& 0x00ffffff

/-- The indices that the target is written to. -/
def targetWrites (size : UInt32) : List ℕ :=
  (List.range 4).map fun i => (if size > 3 then size.toNat - 3 else 0) + i

theorem targetWrites_lt_iff {size : UInt32} :
    (∀ i ∈ targetWrites size, i < 32) ↔ size.toNat < 32 := by
  rw [targetWrites, List.forall_mem_map]
  by_cases hs : size > 3
  · have h3 : 3 < size.toNat := UInt32.lt_iff_toNat_lt.1 hs
    rw [if_pos hs]
    constructor
    · intro h
      have := h 3 (by decide)
      omega
    · intro h i hi
      rw [List.mem_range] at hi
      omega
  · have h3 : size.toNat ≤ 3 := UInt32.le_iff_toNat_le.1 (UInt32.not_lt.1 hs)
    rw [if_neg hs]
    constructor
    · intro
      omega
    · intro _ i hi
      rw [List.mem_range] at hi
      omega

/-- A number written at `k` among zeros. -/
theorem poke_zeros {k n : ℕ} (hk : k + 4 ≤ 32) (hn : n < 256 ^ 4) :
    ∃ t, poke (List.replicate 32 0) k (toLE 4 n) = some t ∧ t.length = 32 ∧
      ofLE t = 256 ^ k * n := by
  have hsplit : List.replicate 32 (0 : UInt8) = List.replicate k 0 ++
      (List.replicate 4 0 ++ List.replicate (32 - k - 4) 0) := by
    rw [List.replicate_append_replicate, List.replicate_append_replicate]
    congr 1
    omega
  refine ⟨_, poke_parts hsplit (List.length_replicate ..) (by simp), ?_, ?_⟩
  · simp
    omega
  · rw [ofLE_append, ofLE_append, ofLE_zeros, ofLE_zeros, ofLE_toLE hn, List.length_replicate]
    ring

/-- The written bytes are a number that a hash does not exceed exactly if it is at most the
    mantissa times a power of 256. -/
theorem targetBytes_eq {size target : UInt32} (hs : size.toNat < 32)
    (ht : target.toNat < 2 ^ 24) : ∃ t, targetBytes size target = some t ∧ t.length = 32 ∧
      ∀ h, h ≤ ofLE t ↔ h * 256 ^ 3 ≤ target.toNat * 256 ^ size.toNat := by
  by_cases h3 : size > 3
  · have hlow : 3 < size.toNat := UInt32.lt_iff_toNat_lt.1 h3
    obtain ⟨t, hpoke, hlen, hval⟩ :=
      poke_zeros (k := size.toNat - 3) (n := target.toNat) (by omega) (by omega)
    refine ⟨t, by rw [targetBytes, if_pos h3, hpoke], hlen, fun h => ?_⟩
    have hpow : 256 ^ size.toNat = 256 ^ (size.toNat - 3) * 256 ^ 3 := by
      rw [← Nat.pow_add, Nat.sub_add_cancel (Nat.le_of_lt hlow)]
    rw [hval, hpow, Nat.mul_comm, ← Nat.mul_assoc, Nat.mul_comm h,
      Nat.mul_comm (target.toNat * _), Nat.mul_comm target.toNat]
    exact (Nat.mul_le_mul_left_iff (by decide)).symm
  · have hlow : size.toNat ≤ 3 := UInt32.le_iff_toNat_le.1 (UInt32.not_lt.1 h3)
    have hshift : (target >>> ((3 - size) * 8)).toNat = target.toNat / 256 ^ (3 - size.toNat) := by
      have hbits : ((3 - size) * 8).toNat % 32 = 8 * (3 - size.toNat) := by
        rw [UInt32.toNat_mul, UInt32.toNat_sub_of_le _ _ (UInt32.not_lt.1 h3)]
        change (3 - size.toNat) * 8 % 2 ^ 32 % 32 = _
        omega
      rw [UInt32.toNat_shiftRight, hbits, Nat.shiftRight_eq_div_pow, Nat.pow_mul]
    have hlt : (target >>> ((3 - size) * 8)).toNat < 256 ^ 4 := by
      rw [hshift]
      exact lt_of_le_of_lt (Nat.div_le_self _ _) (ht.trans (by decide))
    obtain ⟨t, hpoke, hlen, hval⟩ := poke_zeros (k := 0) (by decide) hlt
    refine ⟨t, by rw [targetBytes, if_neg h3, hpoke], hlen, fun h => ?_⟩
    have hpow : 256 ^ 3 = 256 ^ (3 - size.toNat) * 256 ^ size.toNat := by
      rw [← Nat.pow_add, Nat.sub_add_cancel hlow]
    rw [hval, hshift, Nat.pow_zero, Nat.one_mul, Nat.le_div_iff_mul_le (Nat.pow_pos (by decide)),
      hpow, ← Nat.mul_assoc]
    exact (Nat.mul_le_mul_right_iff (Nat.pow_pos (by decide))).symm

theorem toNat_compactSize (target : UInt32) :
    (compactSize target).toNat = target.toNat / 2 ^ 24 := by
  rw [compactSize, UInt32.toNat_shiftRight, Nat.shiftRight_eq_div_pow]
  rfl

theorem toNat_mantissa (target : UInt32) : (mantissa target).toNat = target.toNat % 2 ^ 24 := by
  rw [mantissa, UInt32.toNat_and]
  exact Nat.and_two_pow_sub_one_eq_mod _ 24

/-- Compact targets are compared by their exponents first. -/
theorem le_max_iff (target : UInt32) : target ≤ MAX_PROOF_OF_WORK ↔
    ¬ (compactSize target > MAX_PROOF_OF_WORK >>> 24 ∨
      (compactSize target = MAX_PROOF_OF_WORK >>> 24 ∧
        mantissa target > MAX_PROOF_OF_WORK &&& 0x00ffffff)) := by
  have hsize := toNat_compactSize target
  have hmantissa := toNat_mantissa target
  have hmaxsize : (MAX_PROOF_OF_WORK >>> 24).toNat = 30 := rfl
  have hmaxtarget : (MAX_PROOF_OF_WORK &&& 0x00ffffff).toNat = 0xffff := rfl
  have hmax : MAX_PROOF_OF_WORK.toNat = 0x1e00ffff := rfl
  rw [UInt32.le_iff_toNat_le, gt_iff_lt, gt_iff_lt, UInt32.lt_iff_toNat_lt,
    UInt32.lt_iff_toNat_lt, ← UInt32.toNat_inj, hsize, hmantissa, hmaxsize, hmaxtarget, hmax]
  omega

/-! ## Validity -/

/-- The 256-bit hashes, with any double hash of two of them. -/
def hash256 (sha256_2 : UInt256 → UInt256 → UInt256) : MerkleHash UInt256 := ⟨0, sha256_2, set256⟩

variable (sha256_2 : UInt256 → UInt256 → UInt256) (block : BRMerkleBlock UInt256)
  (currentTime : UInt32)

/-- What makes a block valid at a time. -/
structure Valid : Prop where
  merkleRoot : block.totalTx = 0 ∨ block.root (hash256 sha256_2) = some block.merkleRoot
  timestamp : block.timestamp.toNat ≤ currentTime.toNat + BLOCK_MAX_TIME_DRIFT.toNat
  ne_zero : mantissa block.target ≠ 0
  nonneg : mantissa block.target &&& 0x00800000 = 0
  le_max : block.target ≤ MAX_PROOF_OF_WORK
  work : block.blockHash.toNat * 256 ^ 3 ≤
    (mantissa block.target).toNat * 256 ^ (compactSize block.target).toNat

/-- The check accepts exactly the valid blocks, and writes the target into its 32 bytes. -/
def Decides : Prop :=
  (block.isValid (hash256 sha256_2) currentTime = some true ↔
    block.Valid sha256_2 currentTime) ∧
  ∀ i ∈ targetWrites (compactSize block.target), i < 32

/-- The target fits into 32 bytes.  If the block is valid, the time does not overflow below its
    timestamp, and without transactions its arrays are there if they are counted. -/
structure WellPosed : Prop where
  size : (compactSize block.target).toNat < 32
  time : block.Valid sha256_2 currentTime →
    block.timestamp ≤ currentTime + BLOCK_MAX_TIME_DRIFT
  arrays : block.Valid sha256_2 currentTime → block.totalTx = 0 → block.More 0 0 →
    block.flags ≠ [] ∧ block.hashes ≠ []

variable {sha256_2 block currentTime}

/-- What the check returns if the target is written into its bytes. -/
theorem isValid_iff (hs : (compactSize block.target).toNat < 32) :
    block.isValid (hash256 sha256_2) currentTime = some true ↔
      ∃ v, block.root (hash256 sha256_2) = some v ∧
        (block.totalTx = 0 ∨ v = block.merkleRoot) ∧
        block.timestamp ≤ currentTime + BLOCK_MAX_TIME_DRIFT ∧
        mantissa block.target ≠ 0 ∧ mantissa block.target &&& 0x00800000 = 0 ∧
        block.target ≤ MAX_PROOF_OF_WORK ∧
        block.blockHash.toNat * 256 ^ 3 ≤
          (mantissa block.target).toNat * 256 ^ (compactSize block.target).toNat := by
  have hmantissa : (mantissa block.target).toNat < 2 ^ 24 := by
    rw [toNat_mantissa]
    exact Nat.mod_lt _ (by decide)
  obtain ⟨t, ht, hlen, hle⟩ := targetBytes_eq hs hmantissa
  have hhash : ofBE (set256 block.blockHash).reverse = block.blockHash.toNat := by
    rw [ofBE, List.reverse_reverse, set256, ofLE_toLE]
    exact lt_of_lt_of_le block.blockHash.isLt (by decide)
  have hwork : workLE ((hash256 sha256_2).bytes block.blockHash).reverse t.reverse = true ↔
      block.blockHash.toNat * 256 ^ 3 ≤
        (mantissa block.target).toNat * 256 ^ (compactSize block.target).toNat := by
    have hsame : (set256 block.blockHash).reverse.length = t.reverse.length := by
      rw [List.length_reverse, List.length_reverse, length_set256, hlen]
    rw [← hle, ← hhash]
    refine (workLE_iff hsame).trans ?_
    rw [ofBE, ofBE, List.reverse_reverse, List.reverse_reverse]
  have hmax := le_max_iff block.target
  rw [isValid, Option.bind_eq_bind, Option.bind_eq_some_iff]
  refine exists_congr fun v => and_congr_right fun _ => ?_
  simp only [mantissa, compactSize] at ht hwork hmax ⊢
  rw [ht, hmax]
  simp only [Option.bind_eq_bind, Option.bind_some, Option.some.injEq, Bool.and_eq_true,
    Bool.not_eq_true', decide_eq_false_iff_not, hwork, gt_iff_lt, not_or, not_and,
    Classical.not_not, UInt32.not_lt, UInt32.pos_iff_ne_zero, ne_eq]
  constructor
  · rintro ⟨⟨⟨hroot, htime⟩, hne, hsign, hmax⟩, hw⟩
    exact ⟨or_iff_not_imp_left.2 hroot, htime, hne, hsign, hmax, hw⟩
  · rintro ⟨hroot, htime, hne, hsign, hmax, hw⟩
    exact ⟨⟨⟨or_iff_not_imp_left.1 hroot, htime⟩, hne, hsign, hmax⟩, hw⟩

/-- Without transactions the walk reads at most one hash. -/
theorem root_of_empty {α : Type} [DecidableEq α] {M : MerkleHash α} {block : BRMerkleBlock α}
    (h : block.totalTx = 0) : (∃ v, block.root M = some v) ↔
      (block.More 0 0 → block.flags ≠ [] ∧ block.hashes ≠ []) := by
  have hlog : ceilLog2 block.totalTx = some 0 := by
    rw [h]
    rfl
  rw [root, maxDepth, rootR]
  by_cases hm : block.More 0 0
  · simp only [hm, if_true, forall_const]
    rcases hf : block.flags with _ | ⟨b, bs⟩
    · simp [flag, hf]
    · have hflag : block.flag 0 = some (b.toNat.testBit 0) := by
        rw [flag, hf]
        rfl
      rcases hh : block.hashes with _ | ⟨x, xs⟩
      · cases hb : b.toNat.testBit 0 <;> simp [hflag, hb, hlog]
      · cases hb : b.toNat.testBit 0 <;> simp [hflag, hb, hlog]
  · simp [hm]

/-- Where the target is written into its bytes, only the time and missing arrays make a difference
    to the conditions. -/
theorem isValid_iff_valid (hs : (compactSize block.target).toNat < 32) :
    block.isValid (hash256 sha256_2) currentTime = some true ↔
      (∃ v, block.root (hash256 sha256_2) = some v) ∧
        block.timestamp ≤ currentTime + BLOCK_MAX_TIME_DRIFT ∧
        block.Valid sha256_2 currentTime := by
  have hdrift : BLOCK_MAX_TIME_DRIFT.toNat = 7200 := rfl
  rw [isValid_iff hs]
  constructor
  · rintro ⟨v, hv, hroot, htime, hne, hsign, hmax, hwork⟩
    refine ⟨⟨v, hv⟩, htime, ⟨hroot.imp_right fun heq => by rw [hv, heq], ?_, hne, hsign, hmax,
      hwork⟩⟩
    have hle := UInt32.le_iff_toNat_le.1 htime
    rw [UInt32.toNat_add] at hle
    exact hle.trans (Nat.mod_le _ _)
  · rintro ⟨⟨v, hv⟩, htime, h⟩
    refine ⟨v, hv, h.merkleRoot.imp_right fun hroot => ?_, htime, h.ne_zero, h.nonneg, h.le_max,
      h.work⟩
    rw [hv] at hroot
    exact Option.some.inj hroot

/-- The check accepts exactly the valid blocks, and stays in its bytes, exactly on the well-posed
    blocks. -/
theorem decides_iff (sha256_2 : UInt256 → UInt256 → UInt256) (block : BRMerkleBlock UInt256)
    (currentTime : UInt32) :
    block.Decides sha256_2 currentTime ↔ block.WellPosed sha256_2 currentTime := by
  constructor
  · rintro ⟨hiff, hwrites⟩
    have hs := targetWrites_lt_iff.1 hwrites
    rw [isValid_iff_valid hs] at hiff
    exact ⟨hs, fun hv => (hiff.2 hv).2.1, fun hv h0 => (root_of_empty h0).1 (hiff.2 hv).1⟩
  · rintro ⟨hs, htime, harrays⟩
    refine ⟨?_, targetWrites_lt_iff.2 hs⟩
    rw [isValid_iff_valid hs]
    constructor
    · exact fun h => h.2.2
    · intro hv
      refine ⟨?_, htime hv, hv⟩
      by_cases h0 : block.totalTx = 0
      · exact (root_of_empty h0).2 (harrays hv h0)
      · exact ⟨block.merkleRoot, hv.merkleRoot.resolve_left h0⟩

/-- A header whose target has an exponent of 255. -/
def oversized : BRMerkleBlock UInt256 where
  blockHash := 0
  prevBlock := 0
  merkleRoot := 0
  mixHash := 0
  target := 0xff00ffff

/-- The target of such a header is written behind the 32 bytes. -/
theorem not_decides : ¬ ∀ (sha256_2 : UInt256 → UInt256 → UInt256) (block : BRMerkleBlock UInt256)
    (currentTime : UInt32), block.Held → block.Decides sha256_2 currentTime := by
  intro h
  have hwrites := (h (fun _ _ => 0) oversized 0 ⟨rfl, rfl, by decide, by decide⟩).2
  exact absurd (hwrites 252 (by decide)) (by decide)

end BRMerkleBlock

end RavenWallet
