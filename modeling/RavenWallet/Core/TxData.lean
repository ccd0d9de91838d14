/-
  The bytes of a transaction (`_TransactionData` of BRTransaction.c), written
  into a buffer with room for all of them.

  The witness data of `SIGHASH_FORKID`, a hash type of another currency, are left
  out.
-/
import RavenWallet.Core.Script

namespace RavenWallet

def SIGHASH_ALL : UInt32 := 0x01
def SIGHASH_NONE : UInt32 := 0x02
def SIGHASH_SINGLE : UInt32 := 0x03
def SIGHASH_ANYONECANPAY : UInt32 := 0x80

/-- `_TxInputData`. -/
def txInputData (input : BRTxInput) : Bytes :=
  set256 input.txHash ++ (toLE 4 input.index.toNat ++ (varIntBytes (scriptLen input.signature) ++
    (input.signature.getD [] ++ ((if input.amount ≠ 0 then toLE 8 input.amount.toNat else []) ++
      toLE 4 input.sequence.toNat))))

/-- An output in `_TransactionOutputData`. -/
def txOutputData (output : BRTxOutput) : Bytes :=
  toLE 8 output.amount.toNat ++ (varIntBytes (scriptLen output.script) ++ output.script.getD [])

/-- An output before the one that `SIGHASH_SINGLE` signs. -/
def blankOutputData : Bytes := toLE 8 (2 ^ 64 - 1) ++ varIntBytes 0

namespace BRTransaction

variable (tx : BRTransaction)

/-- The input at `i` as it is written to sign the one at `index`, or, with `none` for `SIZE_MAX`,
    in the signed transaction: what is not signed is written with its script and its amount. -/
def signInput (index : Option ℕ) (sigHash : UInt32) (i : ℕ) (input : BRTxInput) : BRTxInput :=
  if index = some i then { input with signature := input.script, amount := 0 }
  else if index = none ∧ input.signature = none then { input with signature := input.script }
  else if index ≠ none then
    { input with signature := none
                 sequence := if sigHash = SIGHASH_NONE ∨ sigHash = SIGHASH_SINGLE then 0
                   else input.sequence
                 amount := 0 }
  else { input with amount := 0 }

/-- The inputs that are written, with their number; none for an index that has no input. -/
def inputsData (index : Option ℕ) (hashType : UInt32) : Option Bytes :=
  if hashType &&& SIGHASH_ANYONECANPAY ≠ 0 then
    (index.bind fun i => tx.inputs[i]?).map fun input =>
      varIntBytes 1 ++ txInputData { input with signature := input.script, amount := 0 }
  else
    some (varIntBytes tx.inputs.length ++
      (tx.inputs.mapIdx fun i input =>
        txInputData (signInput index (hashType &&& 0x1f) i input)).flatten)

/-- The outputs that are written, with their number. -/
def outputsData (index : Option ℕ) (sigHash : UInt32) : Bytes :=
  if sigHash ≠ SIGHASH_SINGLE ∧ sigHash ≠ SIGHASH_NONE then
    varIntBytes tx.outputs.length ++ tx.outputs.flatMap txOutputData
  else
    match index.bind fun i => tx.outputs[i]?.map fun output => (i, output) with
    | some (i, output) =>
      if sigHash = SIGHASH_SINGLE then
        varIntBytes (i + 1) ++ ((List.replicate i blankOutputData).flatten ++ txOutputData output)
      else varIntBytes 0
    | none => varIntBytes 0

/-- `_TransactionData`. -/
def transactionData (index : Option ℕ) (hashType : UInt32) : Bytes :=
  match tx.inputsData index hashType with
  | none => []
  | some inputs =>
    toLE 4 tx.version.toNat ++ (inputs ++ (tx.outputsData index (hashType &&& 0x1f) ++
      (toLE 4 tx.lockTime.toNat ++ if index = none then [] else toLE 4 hashType.toNat)))

/-- `BRTransactionSerialize`. -/
def serialize : Bytes := tx.transactionData none SIGHASH_ALL

/-! ## The signed transaction -/

/-- An input as it is serialized. -/
def inputData (input : BRTxInput) : Bytes :=
  txInputData (if input.signature = none then { input with signature := input.script }
    else { input with amount := 0 })

theorem signInput_none (sigHash : UInt32) (i : ℕ) (input : BRTxInput) :
    signInput none sigHash i input =
      if input.signature = none then { input with signature := input.script }
      else { input with amount := 0 } := by
  rw [signInput, if_neg (by simp)]
  by_cases hs : input.signature = none
  · rw [if_pos ⟨rfl, hs⟩, if_pos hs]
  · rw [if_neg (fun h => hs h.2), if_neg (by simp), if_neg hs]

variable {tx}

theorem serialize_eq : tx.serialize = toLE 4 tx.version.toNat ++
    (varIntBytes tx.inputs.length ++ (tx.inputs.flatMap inputData ++
      (varIntBytes tx.outputs.length ++ (tx.outputs.flatMap txOutputData ++
        toLE 4 tx.lockTime.toNat)))) := by
  have hinputs : (tx.inputs.mapIdx fun i input =>
      txInputData (signInput none (SIGHASH_ALL &&& 0x1f) i input)).flatten =
        tx.inputs.flatMap inputData := by
    rw [List.flatMap]
    congr 1
    refine List.ext_getElem (by simp) fun i h₁ h₂ => ?_
    rw [List.getElem_mapIdx, List.getElem_map, signInput_none, inputData]
  have hall : ¬ SIGHASH_ALL &&& SIGHASH_ANYONECANPAY ≠ 0 := by decide
  have hout : SIGHASH_ALL &&& 0x1f ≠ SIGHASH_SINGLE ∧ SIGHASH_ALL &&& 0x1f ≠ SIGHASH_NONE := by
    decide
  rw [serialize, transactionData, inputsData, if_neg hall, hinputs, outputsData, if_pos hout,
    if_pos rfl]
  simp only [List.append_assoc, List.append_nil]

end BRTransaction

end RavenWallet
