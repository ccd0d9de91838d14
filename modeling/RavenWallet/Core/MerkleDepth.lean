/-
  How deep the walks over a merkle block recurse (BRMerkleBlock.c).

  The arguments that limit the loop of `_ceil_log2` and the recursions have no
  counterpart in the source; a walk of `n` levels has no result if it goes
  deeper.

  * `txHashesR_levels` and `rootR_levels`: more levels than the tree has make no
    difference;
  * `bounded_iff`: `_ceil_log2` ends, and with it the walks stay within that many
    levels and one, exactly if its argument is not negative as an `int`.
-/
import RavenWallet.Core.MerkleBlock

namespace RavenWallet

/-- `_ceil_log2` ends after some number of steps, with `d`. -/
def CeilLog2Ends (x : UInt32) (d : ℕ) : Prop :=
  ∃ steps, ceilLog2Loop steps x.toBitVec
    (if x.toBitVec &&& (x.toBitVec - 1) ≠ 0 then 1 else 0) = some d

/-- The loop ends with one number, whatever the limits. -/
theorem ceilLog2Loop_unique {m n : ℕ} {y : BitVec 32} {r a b : ℕ}
    (ha : ceilLog2Loop m y r = some a) (hb : ceilLog2Loop n y r = some b) : a = b := by
  induction m generalizing n y r with
  | zero => cases ha
  | succ m ih =>
    cases n with
    | zero => cases hb
    | succ n =>
      rw [ceilLog2Loop] at ha hb
      split_ifs at ha hb
      · exact ih ha hb
      · exact (Option.some.inj ha).symm.trans (Option.some.inj hb)

theorem not_ceilLog2Ends {x : UInt32} (h : 2 ^ 31 ≤ x.toNat) (d : ℕ) : ¬ CeilLog2Ends x d := by
  rintro ⟨steps, hsteps⟩
  have hmsb : x.toBitVec.msb = true := by
    rw [BitVec.msb_eq_true_iff_two_mul_ge]
    change 2 * x.toNat ≥ _
    omega
  rw [ceilLog2Loop_neg hmsb] at hsteps
  cases hsteps

theorem ceilLog2Ends_iff {x : UInt32} {d : ℕ} :
    CeilLog2Ends x d ↔ x.toNat < 2 ^ 31 ∧ d = Nat.clog 2 x.toNat := by
  constructor
  · intro hd
    have hlt : x.toNat < 2 ^ 31 := Nat.lt_of_not_le fun hle => not_ceilLog2Ends hle d hd
    obtain ⟨steps, hsteps⟩ := hd
    exact ⟨hlt, ceilLog2Loop_unique hsteps (ceilLog2_eq hlt)⟩
  · rintro ⟨hlt, rfl⟩
    exact ⟨32, ceilLog2_eq hlt⟩

namespace BRMerkleBlock

variable {α : Type} {block : BRMerkleBlock α} {d : ℕ}

/-! ## Levels -/

theorem txHashesR_levels (hd : ceilLog2 block.totalTx = some d) (null : Bool) (count : ℕ)
    {k depth : ℕ} (hdep : depth + k = d) (more : ℕ) (out : List α) (idx hashIdx flagIdx : ℕ) :
    block.txHashesR null count (k + 1 + more) depth out idx hashIdx flagIdx =
      block.txHashesR null count (k + 1) depth out idx hashIdx flagIdx := by
  induction k generalizing depth out idx hashIdx flagIdx with
  | zero =>
    have hleaf : depth = d := hdep
    rw [Nat.zero_add, Nat.add_comm 1 more, txHashesR, txHashesR]
    by_cases hm : block.More hashIdx flagIdx
    · rw [if_pos hm, if_pos hm]
      cases block.flag flagIdx with
      | none => rfl
      | some flag => cases flag <;> simp [hd, hleaf]
    · rw [if_neg hm, if_neg hm]
  | succ k ih =>
    have hnext : depth + 1 + k = d := by omega
    rw [Nat.add_right_comm, txHashesR, txHashesR]
    simp only [ih hnext]

variable [DecidableEq α] {M : MerkleHash α}

theorem rootR_levels (hd : ceilLog2 block.totalTx = some d) {k depth : ℕ} (hdep : depth + k = d)
    (more hashIdx flagIdx : ℕ) :
    block.rootR M (k + 1 + more) depth hashIdx flagIdx =
      block.rootR M (k + 1) depth hashIdx flagIdx := by
  induction k generalizing depth hashIdx flagIdx with
  | zero =>
    have hleaf : depth = d := hdep
    rw [Nat.zero_add, Nat.add_comm 1 more, rootR, rootR]
    by_cases hm : block.More hashIdx flagIdx
    · rw [if_pos hm, if_pos hm]
      cases block.flag flagIdx with
      | none => rfl
      | some flag => cases flag <;> simp [hd, hleaf]
    · rw [if_neg hm, if_neg hm]
  | succ k ih =>
    have hnext : depth + 1 + k = d := by omega
    rw [Nat.add_right_comm, rootR, rootR]
    simp only [ih hnext]

/-! ## The bound -/

variable (M block)

/-- `_ceil_log2` of `totalTx` ends, with `d`, and the walks recurse no deeper than `d + 1` levels:
    with more they give the same, and if the arrays of the block are there, they give a result. -/
def Bounded : Prop :=
  ∃ d, CeilLog2Ends block.totalTx d ∧
    (∀ null count levels, d + 1 ≤ levels → block.txHashesR null count levels 0 [] 0 0 0 =
      block.txHashesR null count (d + 1) 0 [] 0 0 0) ∧
    (∀ levels, d + 1 ≤ levels → block.rootR M levels 0 0 0 = block.rootR M (d + 1) 0 0 0) ∧
    (block.Held → (∀ null count, (block.txHashesR null count (d + 1) 0 [] 0 0 0).isSome) ∧
      (block.rootR M (d + 1) 0 0 0).isSome)

variable {M block}

theorem bounded_of_lt (h : block.totalTx.toNat < 2 ^ 31) : block.Bounded M := by
  have hd := ceilLog2_eq h
  refine ⟨Nat.clog 2 block.totalTx.toNat, ceilLog2Ends_iff.2 ⟨h, rfl⟩, ?_, ?_, ?_⟩
  · intro null count levels hle
    obtain ⟨more, rfl⟩ := Nat.exists_eq_add_of_le hle
    exact txHashesR_levels hd null count (Nat.zero_add _) more [] 0 0 0
  · intro levels hle
    obtain ⟨more, rfl⟩ := Nat.exists_eq_add_of_le hle
    exact rootR_levels hd (Nat.zero_add _) more 0 0
  · intro hw
    refine ⟨fun null count => ?_, ?_⟩
    · obtain ⟨h', f', heq, -⟩ :=
        txHashesR_eq hw hd null count (Nat.lt_succ_self _) (Nat.zero_add _) [] 0 0 0
      rw [heq]
      rfl
    · obtain ⟨h', f', heq, -, -⟩ :=
        rootR_eq (M := M) hw hd (Nat.lt_succ_self _) (Nat.zero_add _) 0 0
      rw [heq]
      rfl

variable (M block) in
/-- The walks are bounded by the height of the tree exactly if there are less than `2 ^ 31`
    transactions. -/
theorem bounded_iff : block.Bounded M ↔ block.totalTx.toNat < 2 ^ 31 := by
  constructor
  · rintro ⟨d, hd, -⟩
    exact (ceilLog2Ends_iff.1 hd).1
  · exact bounded_of_lt

/-- A block whose only flag is set and which claims `2 ^ 31` transactions. -/
def endless : BRMerkleBlock UInt256 where
  blockHash := 0
  prevBlock := 0
  merkleRoot := 1
  mixHash := 0
  totalTx := 0x80000000
  hashes := [1]
  hashesCount := 1
  flags := [1]
  flagsLen := 1

theorem endless_held : endless.Held := ⟨rfl, rfl, by decide, by decide⟩

/-- The walk asks for the height of the tree, which is not returned. -/
theorem endless_rootR (M : MerkleHash UInt256) (levels : ℕ) :
    endless.rootR M levels 0 0 0 = none := by
  cases levels with
  | zero => rfl
  | succ levels =>
    have hmore : endless.More 0 0 := by decide
    have hflag : endless.flag 0 = some true := by decide
    rw [rootR, if_pos hmore, hflag, ceilLog2_none (by decide)]
    rfl

theorem not_bounded : ¬ ∀ (M : MerkleHash UInt256) (block : BRMerkleBlock UInt256),
    block.Held → block.Bounded M := by
  intro h
  obtain ⟨d, -, -, -, hsome⟩ := h ⟨0, fun _ _ => 0, fun _ => []⟩ endless endless_held
  have hroot := (hsome endless_held).2
  rw [endless_rootR] at hroot
  cases hroot

end BRMerkleBlock

end RavenWallet
