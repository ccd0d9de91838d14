/-
  Serializing a transaction into a buffer, or for its length (BRTransaction.c).

  `transactionData` of `TxData` are the bytes that are written where there is room
  for all of them; here the writers are given a buffer, or none.

  * `transactionDataInto_writes`: they write these bytes, and count them without a
    buffer;
  * `serialize_size`: `BRTransactionSize` of a signed transaction is their number.
-/
import RavenWallet.Core.TxData
import RavenWallet.Lib.Writer

namespace RavenWallet

open Writer WriteStep

/-- `BRVarIntSet`. -/
def varIntSetInto (i : ℕ) : Writer UInt8 := run [field (varIntBytes i)]

/-- `_TxInputData`. -/
def txInputDataInto (input : BRTxInput) : Writer UInt8 := run
  ([field (set256 input.txHash), field (toLE 4 input.index.toNat),
    sub (varIntSetInto (scriptLen input.signature)), field (input.signature.getD [])] ++
  (if input.amount ≠ 0 then [field (toLE 8 input.amount.toNat)] else []) ++
  [field (toLE 4 input.sequence.toNat)])

/-- `_TransactionOutputData` of these outputs. -/
def txOutputDataInto (outputs : List BRTxOutput) : Writer UInt8 := run <| outputs.flatMap fun o =>
  [field (toLE 8 o.amount.toNat), sub (varIntSetInto (scriptLen o.script)),
    field (o.script.getD [])]

namespace BRTransaction

variable (tx : BRTransaction)

/-- The loop over the inputs of `_TransactionData`, or the single input that anyone can pay. -/
def inputSteps (index : Option ℕ) (hashType : UInt32) : Option (List (WriteStep UInt8)) :=
  if hashType &&& SIGHASH_ANYONECANPAY ≠ 0 then
    (index.bind fun i => tx.inputs[i]?).map fun input =>
      [sub (varIntSetInto 1),
        sub (txInputDataInto { input with signature := input.script, amount := 0 })]
  else
    some (sub (varIntSetInto tx.inputs.length) :: tx.inputs.mapIdx fun i input =>
      sub (txInputDataInto (signInput index (hashType &&& 0x1f) i input)))

/-- The outputs in `_TransactionData`. -/
def outputSteps (index : Option ℕ) (sigHash : UInt32) : List (WriteStep UInt8) :=
  if sigHash ≠ SIGHASH_SINGLE ∧ sigHash ≠ SIGHASH_NONE then
    [sub (varIntSetInto tx.outputs.length), sub (txOutputDataInto tx.outputs)]
  else
    match index.bind fun i => tx.outputs[i]?.map fun output => (i, output) with
    | some (i, output) =>
      if sigHash = SIGHASH_SINGLE then
        sub (varIntSetInto (i + 1)) ::
          ((List.replicate i [field (toLE 8 (2 ^ 64 - 1)), sub (varIntSetInto 0)]).flatten ++
            [sub (txOutputDataInto [output])])
      else [sub (varIntSetInto 0)]
    | none => [sub (varIntSetInto 0)]

/-- `_TransactionData` into a buffer. -/
def transactionDataInto (index : Option ℕ) (hashType : UInt32) : Writer UInt8 :=
  match tx.inputSteps index hashType with
  | none => fun data => (data, 0)
  | some steps => run ([field (toLE 4 tx.version.toNat)] ++ steps ++
      tx.outputSteps index (hashType &&& 0x1f) ++ [field (toLE 4 tx.lockTime.toNat)] ++
      if index = none then [] else [field (toLE 4 hashType.toNat)])

/-- `BRTransactionSerialize`. -/
def serializeInto : Writer UInt8 := tx.transactionDataInto none SIGHASH_ALL

end BRTransaction

/-! ## What the writers write -/

theorem varIntSetInto_writes (i : ℕ) : (varIntSetInto i).Writes (varIntBytes i) := by
  have h := writes_run (.cons (puts_field (varIntBytes i)) .nil)
  rwa [List.flatten_cons, List.flatten_nil, List.append_nil] at h

theorem txInputDataInto_writes (input : BRTxInput) :
    (txInputDataInto input).Writes (txInputData input) := by
  have hamount : List.Forall₂ Puts
      (if input.amount ≠ 0 then [field (toLE 8 input.amount.toNat)] else [])
      (if input.amount ≠ 0 then [toLE 8 input.amount.toNat] else []) := by
    split_ifs
    · exact .cons (puts_field _) .nil
    · exact .nil
  have hhead : List.Forall₂ Puts
      [field (set256 input.txHash), field (toLE 4 input.index.toNat),
        sub (varIntSetInto (scriptLen input.signature)), field (input.signature.getD [])]
      [set256 input.txHash, toLE 4 input.index.toNat, varIntBytes (scriptLen input.signature),
        input.signature.getD []] :=
    .cons (puts_field _) (.cons (puts_field _) (.cons (varIntSetInto_writes _).puts
      (.cons (puts_field _) .nil)))
  have hlast : List.Forall₂ Puts [field (toLE 4 input.sequence.toNat)]
      [toLE 4 input.sequence.toNat] := .cons (puts_field _) .nil
  have h := writes_run (List.rel_append (List.rel_append hhead hamount) hlast)
  have heq : txInputData input = ([set256 input.txHash, toLE 4 input.index.toNat,
      varIntBytes (scriptLen input.signature), input.signature.getD []] ++
      (if input.amount ≠ 0 then [toLE 8 input.amount.toNat] else []) ++
      [toLE 4 input.sequence.toNat]).flatten := by
    rw [txInputData]
    split_ifs <;> simp
  rw [heq]
  exact h

theorem txOutputDataInto_writes (outputs : List BRTxOutput) :
    (txOutputDataInto outputs).Writes (outputs.flatMap txOutputData) := by
  have h := writes_run (forall₂_puts_flatMap (fun o : BRTxOutput =>
    .cons (puts_field (toLE 8 o.amount.toNat))
      (.cons (varIntSetInto_writes (scriptLen o.script)).puts
        (.cons (puts_field (o.script.getD [])) .nil))) outputs)
  have heq : outputs.flatMap txOutputData = (outputs.flatMap fun o => [toLE 8 o.amount.toNat,
      varIntBytes (scriptLen o.script), o.script.getD []]).flatten := by
    rw [List.flatten_eq_flatMap, List.flatMap_assoc]
    refine List.flatMap_congr fun o _ => ?_
    simp [txOutputData]
  rw [heq]
  exact h

namespace BRTransaction

variable {tx : BRTransaction} {index : Option ℕ} {hashType : UInt32}

/-- The steps put the inputs, or there is no input to sign. -/
theorem inputSteps_puts : (tx.inputSteps index hashType = none ∧
    tx.inputsData index hashType = none) ∨
    ∃ steps pieces, tx.inputSteps index hashType = some steps ∧
      tx.inputsData index hashType = some pieces.flatten ∧ List.Forall₂ Puts steps pieces := by
  rw [inputSteps, inputsData]
  by_cases hany : hashType &&& SIGHASH_ANYONECANPAY ≠ 0
  · rw [if_pos hany, if_pos hany]
    cases index.bind fun i => tx.inputs[i]? with
    | none => exact Or.inl ⟨rfl, rfl⟩
    | some input =>
      refine Or.inr ⟨_, [varIntBytes 1,
        txInputData { input with signature := input.script, amount := 0 }], rfl, ?_,
        .cons (varIntSetInto_writes 1).puts (.cons (txInputDataInto_writes _).puts .nil)⟩
      simp
  · rw [if_neg hany, if_neg hany]
    have hinputs : List.Forall₂ Puts
        (tx.inputs.mapIdx fun i input =>
          sub (txInputDataInto (signInput index (hashType &&& 0x1f) i input)))
        (tx.inputs.mapIdx fun i input =>
          txInputData (signInput index (hashType &&& 0x1f) i input)) := by
      rw [List.mapIdx_eq_zipIdx_map, List.mapIdx_eq_zipIdx_map]
      exact forall₂_puts_map (fun p => (txInputDataInto_writes _).puts) _
    exact Or.inr ⟨_, _, rfl, rfl, .cons (varIntSetInto_writes _).puts hinputs⟩

theorem outputSteps_puts (sigHash : UInt32) : ∃ pieces,
    List.Forall₂ Puts (tx.outputSteps index sigHash) pieces ∧
      pieces.flatten = tx.outputsData index sigHash := by
  rw [outputSteps, outputsData]
  have hnone : ∃ pieces, List.Forall₂ Puts [sub (varIntSetInto 0)] pieces ∧
      pieces.flatten = varIntBytes 0 :=
    ⟨_, .cons (varIntSetInto_writes 0).puts .nil, List.append_nil _⟩
  by_cases hall : sigHash ≠ SIGHASH_SINGLE ∧ sigHash ≠ SIGHASH_NONE
  · rw [if_pos hall, if_pos hall]
    refine ⟨_, .cons (varIntSetInto_writes _).puts
      (.cons (txOutputDataInto_writes tx.outputs).puts .nil), ?_⟩
    simp
  · rw [if_neg hall, if_neg hall]
    cases index.bind fun i => tx.outputs[i]?.map fun output => (i, output) with
    | none => exact hnone
    | some signed =>
      obtain ⟨i, output⟩ := signed
      dsimp only
      by_cases hsingle : sigHash = SIGHASH_SINGLE
      · rw [if_pos hsingle, if_pos hsingle]
        have hblank : List.Forall₂ Puts
            (List.replicate i [field (toLE 8 (2 ^ 64 - 1)), sub (varIntSetInto 0)]).flatten
            (List.replicate i [toLE 8 (2 ^ 64 - 1), varIntBytes 0]).flatten := by
          induction i with
          | zero => exact .nil
          | succ i ih =>
            rw [List.replicate_succ, List.replicate_succ]
            exact .cons (puts_field _) (.cons (varIntSetInto_writes 0).puts ih)
        refine ⟨_, .cons (varIntSetInto_writes (i + 1)).puts
          (List.rel_append hblank (.cons (txOutputDataInto_writes [output]).puts .nil)), ?_⟩
        simp [blankOutputData, List.flatten_flatten]
      · rw [if_neg hsingle, if_neg hsingle]
        exact hnone

/-- Where there is room, the bytes of the transaction are written. -/
theorem transactionDataInto_writes (tx : BRTransaction) (index : Option ℕ) (hashType : UInt32) :
    (tx.transactionDataInto index hashType).Writes (tx.transactionData index hashType) := by
  rw [transactionDataInto, transactionData]
  rcases @inputSteps_puts tx index hashType with
    ⟨hsteps, hdata⟩ | ⟨steps, inputs, hsteps, hdata, hinputs⟩
  · rw [hsteps, hdata]
    exact ⟨rfl, fun buf _ => rfl⟩
  · rw [hsteps, hdata]
    obtain ⟨outputs, houtputs, heq⟩ := @outputSteps_puts tx index (hashType &&& 0x1f)
    have htype : List.Forall₂ Puts (if index = none then [] else [field (toLE 4 hashType.toNat)])
        (if index = none then [] else [toLE 4 hashType.toNat]) := by
      split_ifs
      · exact .nil
      · exact .cons (puts_field _) .nil
    have h := writes_run (List.rel_append (List.rel_append (List.rel_append (List.rel_append
      (.cons (puts_field (toLE 4 tx.version.toNat)) .nil) hinputs) houtputs)
      (.cons (puts_field (toLE 4 tx.lockTime.toNat)) .nil)) htype)
    have hbytes : toLE 4 tx.version.toNat ++ (inputs.flatten ++
        (tx.outputsData index (hashType &&& 0x1f) ++ (toLE 4 tx.lockTime.toNat ++
          if index = none then [] else toLE 4 hashType.toNat))) =
        ([toLE 4 tx.version.toNat] ++ inputs ++ outputs ++ [toLE 4 tx.lockTime.toNat] ++
          if index = none then [] else [toLE 4 hashType.toNat]).flatten := by
      rw [← heq]
      split_ifs <;> simp
    dsimp only
    rw [hbytes]
    exact h

/-! ## The size -/

theorem length_serialize_of_signed (h : tx.isSigned) : tx.serialize.length = tx.size := by
  have hinput : ∀ input ∈ tx.inputs, (inputData input).length = inputSize input := by
    intro input hi
    obtain ⟨signature, hsig⟩ := Option.isSome_iff_exists.1 (List.all_eq_true.1 h input hi)
    have hne : input.signature ≠ none := by
      rw [hsig]
      exact Option.some_ne_none _
    rw [inputData, if_neg hne, inputSize, hsig]
    simp [txInputData, scriptLen]
    omega
  have hinputs : (tx.inputs.flatMap inputData).length = (tx.inputs.map inputSize).sum := by
    rw [List.length_flatMap]
    exact congrArg List.sum (List.map_congr_left hinput)
  have houtputs : (tx.outputs.flatMap txOutputData).length = (tx.outputs.map outputSize).sum := by
    rw [List.length_flatMap]
    refine congrArg List.sum (List.map_congr_left fun output _ => ?_)
    simp [txOutputData, outputSize, scriptLen]
    omega
  rw [serialize_eq, size]
  simp only [List.length_append, length_toLE, length_varIntBytes, hinputs, houtputs]
  omega

/-- The size of a signed transaction is what its serialization needs, and fills. -/
theorem serialize_size (tx : BRTransaction) (h : tx.isSigned) :
    tx.serializeInto none = (none, tx.size) ∧
    (∀ buf, tx.size ≤ buf.length →
      tx.serializeInto (some buf) = (some (tx.serialize ++ buf.drop tx.size), tx.size)) ∧
    tx.serialize.length = tx.size := by
  have hwrites : tx.serializeInto.Writes tx.serialize :=
    transactionDataInto_writes tx none SIGHASH_ALL
  have hsize := length_serialize_of_signed h
  rw [← hsize]
  exact ⟨hwrites.null, hwrites.fits, rfl⟩

/-- A transaction with an input and an output. -/
def signedTx : BRTransaction where
  inputs := [{ txHash := 1, index := 0, amount := 5, signature := some [1, 2, 3] }]
  outputs := [{ amount := 7, script := some [4, 5] }]

theorem serialize_size_signedTx : signedTx.serializeInto none = (none, 65) ∧
    signedTx.serialize.length = 65 :=
  ⟨(serialize_size signedTx (by decide)).1, (serialize_size signedTx (by decide)).2.2⟩

end BRTransaction

end RavenWallet
