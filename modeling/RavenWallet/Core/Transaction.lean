/-
  Building transactions (BRTransaction.c), their size and their fee (`_txFee`).
-/
import Mathlib.Algebra.BigOperators.Group.List.Basic
import Mathlib.Order.MinMax
import RavenWallet.Lib.Shuffle
import RavenWallet.Lib.Word
import RavenWallet.Core.Script

namespace RavenWallet

namespace BRTransaction

variable (H : Hashes) (tx : BRTransaction)

/-- `BRTransactionAddInput` without a signature. -/
def addInput (txHash : UInt256) (index : UInt32) (amount : UInt64) (script : Option Bytes)
    (sequence : UInt32) : BRTransaction :=
  { tx with inputs := tx.inputs ++ [{ txHash, index, amount, script, sequence
                                      address := (script.map (BRAddress.fromScriptPubKey H)).getD [] }] }

/-- `BRTransactionAddOutput`. -/
def addOutput (amount : UInt64) (script : Option Bytes) : BRTransaction :=
  { tx with outputs := tx.outputs ++ [{ amount, script
                                        address := (script.map (BRAddress.fromScriptPubKey H)).getD [] }] }

/-- `BRTransactionShuffleOutputs`. -/
def shuffleOutputs (rand : ℕ → ℕ) : BRTransaction :=
  { tx with outputs := shuffle rand tx.outputs }

variable {H tx}

/-- An output makes the transaction larger by its size, and by the encoding of the output count. -/
theorem size_addOutput (amount : UInt64) (script : Bytes) :
    (tx.addOutput H amount (some script)).size + varIntSize tx.outputs.length =
      tx.size + varIntSize (tx.outputs.length + 1) +
        (8 + varIntSize script.length + script.length) := by
  simp only [size, addOutput, List.length_append, List.length_cons, List.length_nil, List.map_append,
    List.map_cons, List.map_nil, List.sum_append, List.sum_cons, List.sum_nil, outputSize, scriptLen,
    Option.getD_some, Nat.zero_add]
  omega

theorem varIntSize_mono {m n : ℕ} (h : m ≤ n) : varIntSize m ≤ varIntSize n := by
  unfold varIntSize
  split_ifs <;> omega

/-- An input makes the transaction larger. -/
theorem size_addInput_le (txHash : UInt256) (index : UInt32) (amount : UInt64)
    (script : Option Bytes) (sequence : UInt32) :
    tx.size ≤ (tx.addInput H txHash index amount script sequence).size := by
  have hcount : varIntSize tx.inputs.length ≤ varIntSize (tx.inputs.length + 1) :=
    varIntSize_mono (Nat.le_succ _)
  simp only [size, addInput, List.length_append, List.length_cons, List.length_nil, List.map_append,
    List.sum_append, Nat.zero_add]
  omega

/-- The estimated size of unsigned inputs. -/
theorem sum_inputSize {inputs : List BRTxInput} (h : ∀ i ∈ inputs, i.signature = none) :
    (inputs.map inputSize).sum = TX_INPUT_SIZE * inputs.length := by
  have hconst : inputs.map inputSize = List.replicate inputs.length TX_INPUT_SIZE := by
    rw [List.eq_replicate_iff, List.length_map]
    refine ⟨rfl, fun n hn => ?_⟩
    obtain ⟨i, hi, rfl⟩ := List.mem_map.1 hn
    rw [inputSize, h i hi]
  rw [hconst, List.sum_replicate_nat, Nat.mul_comm]

theorem size_shuffleOutputs (rand : ℕ → ℕ) : (tx.shuffleOutputs rand).size = tx.size := by
  have hp := shuffle_perm rand tx.outputs
  simp only [size, shuffleOutputs]
  rw [hp.length_eq, (hp.map outputSize).sum_eq]

/-- The sum of the input amounts. -/
def inAmount (tx : BRTransaction) : ℕ := (tx.inputs.map fun i => i.amount.toNat).sum

/-- The sum of the output amounts. -/
def outAmount (tx : BRTransaction) : ℕ := (tx.outputs.map fun o => o.amount.toNat).sum

theorem inAmount_addInput (txHash : UInt256) (index : UInt32) (amount : UInt64)
    (script : Option Bytes) (sequence : UInt32) :
    (tx.addInput H txHash index amount script sequence).inAmount = tx.inAmount + amount.toNat := by
  simp [inAmount, addInput]

theorem outAmount_addOutput (amount : UInt64) (script : Option Bytes) :
    (tx.addOutput H amount script).outAmount = tx.outAmount + amount.toNat := by
  simp [outAmount, addOutput]

theorem outAmount_shuffleOutputs (rand : ℕ → ℕ) :
    (tx.shuffleOutputs rand).outAmount = tx.outAmount :=
  ((shuffle_perm rand tx.outputs).map _).sum_eq

end BRTransaction

/-! ## Fees -/

/-- `_txFee`. -/
def txFee (feePerKb : UInt64) (size : ℕ) : UInt64 :=
  let size := UInt64.ofNat size
  let standardFee := (size + 999) / 1000 * TX_FEE_PER_KB
  let fee := (size * feePerKb / 1000 + 99) / 100 * 100
  if fee > standardFee then fee else standardFee

/-- The fee of a transaction of `size` bytes: the standard fee for each started kilobyte, or the
    rate rounded up to hundreds. -/
def feeOf (feePerKb size : ℕ) : ℕ :=
  max ((size + 999) / 1000 * 1000000) ((size * feePerKb / 1000 + 99) / 100 * 100)

/-- No product of the fee overflows up to `size` bytes. -/
def FeeFits (feePerKb size : ℕ) : Prop :=
  size * feePerKb + 99000 < 2 ^ 64 ∧ 1000 * (size + 999) < 2 ^ 64

theorem feeOf_mono {k s s' : ℕ} (h : s ≤ s') : feeOf k s ≤ feeOf k s' := by
  have hmul : s * k ≤ s' * k := Nat.mul_le_mul_right k h
  have hstd : (s + 999) / 1000 ≤ (s' + 999) / 1000 := Nat.div_le_div_right (by omega)
  have hdiv : s * k / 1000 ≤ s' * k / 1000 := Nat.div_le_div_right hmul
  have hround : (s * k / 1000 + 99) / 100 ≤ (s' * k / 1000 + 99) / 100 :=
    Nat.div_le_div_right (by omega)
  exact max_le_max (Nat.mul_le_mul_right _ hstd) (Nat.mul_le_mul_right _ hround)

theorem FeeFits.mono {k s s' : ℕ} (hf : FeeFits k s') (h : s ≤ s') : FeeFits k s := by
  have hmul : s * k ≤ s' * k := Nat.mul_le_mul_right k h
  obtain ⟨h₁, h₂⟩ := hf
  exact ⟨Nat.lt_of_le_of_lt (Nat.add_le_add_right hmul _) h₁,
    Nat.lt_of_le_of_lt (Nat.mul_le_mul_left _ (Nat.add_le_add_right h _)) h₂⟩

/-- Without an overflow, `txFee` is the fee. -/
theorem txFee_toNat {k : UInt64} {s : ℕ} (h : FeeFits k.toNat s) :
    (txFee k s).toNat = feeOf k.toNat s := by
  obtain ⟨h₁, h₂⟩ := h
  have hs : (UInt64.ofNat s).toNat = s := toNat_ofNat_of_lt (by omega)
  have h99 : (99 : UInt64).toNat = 99 := rfl
  have h100 : (100 : UInt64).toNat = 100 := rfl
  have h999 : (999 : UInt64).toNat = 999 := rfl
  have h1000 : (1000 : UInt64).toNat = 1000 := rfl
  have hstd : ((UInt64.ofNat s + 999) / 1000 * TX_FEE_PER_KB).toNat =
      (s + 999) / 1000 * 1000000 := by
    have hadd : (UInt64.ofNat s + 999).toNat = s + 999 := by
      rw [toNat_add_of_lt (by rw [hs, h999]; omega), hs, h999]
    have hdiv : ((UInt64.ofNat s + 999) / 1000).toNat = (s + 999) / 1000 := by
      rw [UInt64.toNat_div, hadd, h1000]
    have hle : (s + 999) / 1000 * 1000000 ≤ 1000 * (s + 999) := by
      have hq : 1000 * ((s + 999) / 1000 * 1000) ≤ 1000 * (s + 999) :=
        Nat.mul_le_mul_left _ (Nat.div_mul_le_self _ _)
      rwa [Nat.mul_left_comm] at hq
    have hlt : (s + 999) / 1000 * 1000000 < 2 ^ 64 := Nat.lt_of_le_of_lt hle h₂
    have hkb : TX_FEE_PER_KB.toNat = 1000000 := rfl
    rw [toNat_mul_of_lt (by rw [hdiv, hkb]; exact hlt), hdiv, hkb]
  have hfee : ((UInt64.ofNat s * k / 1000 + 99) / 100 * 100).toNat =
      (s * k.toNat / 1000 + 99) / 100 * 100 := by
    have hmul : (UInt64.ofNat s * k).toNat = s * k.toNat := by
      rw [toNat_mul_of_lt (by rw [hs]; omega), hs]
    have hdiv : (UInt64.ofNat s * k / 1000).toNat = s * k.toNat / 1000 := by
      rw [UInt64.toNat_div, hmul, h1000]
    have hadd : (UInt64.ofNat s * k / 1000 + 99).toNat = s * k.toNat / 1000 + 99 := by
      rw [toNat_add_of_lt (by rw [hdiv, h99]; omega), hdiv, h99]
    have hround : ((UInt64.ofNat s * k / 1000 + 99) / 100).toNat =
        (s * k.toNat / 1000 + 99) / 100 := by
      rw [UInt64.toNat_div, hadd, h100]
    rw [toNat_mul_of_lt (by rw [hround, h100]; omega), hround, h100]
  unfold txFee feeOf
  simp only [gt_iff_lt, UInt64.lt_iff_toNat_lt, hstd, hfee]
  split_ifs with hgt
  · rw [hfee, Nat.max_eq_right (Nat.le_of_lt hgt)]
  · rw [hstd, Nat.max_eq_left (Nat.le_of_not_lt hgt)]

end RavenWallet
