/-
  Transactions that are serialized and parsed.

  An unsigned input is written with its amount only if the amount is not zero, and
  always read with one.

  * `parseInput_encoded` and `parseOutput_encoded`: what is written is read back;
  * `roundTrips_iff`: when a transaction is.
-/
import Mathlib.Algebra.Order.BigOperators.Group.List
import RavenWallet.Core.TxBounds

namespace RavenWallet.BRTransaction

/-- An input that can be told apart when it is read: signed, with a signature that is no
    scriptPubKey, or with a scriptPubKey. -/
def ValidInput (input : BRTxInput) : Prop :=
  (∃ signature, input.signature = some signature ∧ BRAddress.isScriptPubKey signature = false) ∨
    input.signature = none ∧ ∃ script, input.script = some script ∧
      BRAddress.isScriptPubKey script = true

structure SameInput (input copy : BRTxInput) : Prop where
  txHash : copy.txHash = input.txHash
  index : copy.index = input.index
  sequence : copy.sequence = input.sequence
  signature : copy.signature = input.signature
  script : input.signature = none → copy.script = input.script
  amount : input.signature = none → copy.amount = input.amount

/-- Scripts are the same if their bytes are. -/
structure SameOutput (output copy : BRTxOutput) : Prop where
  amount : copy.amount = output.amount
  script : copy.script.getD [] = output.script.getD []
  address : copy.address = output.address

structure Same (tx copy : BRTransaction) : Prop where
  version : copy.version = tx.version
  inputs : List.Forall₂ SameInput tx.inputs copy.inputs
  outputs : List.Forall₂ SameOutput tx.outputs copy.outputs
  lockTime : copy.lockTime = tx.lockTime

/-- The arrays of a transaction and the buffer for its bytes are objects in memory. -/
structure Held (tx : BRTransaction) : Prop where
  inputs : tx.inputs.length * TX_INPUT_STRUCT_SIZE + 16 ≤ PTRDIFF_MAX
  outputs : tx.outputs.length * TX_OUTPUT_STRUCT_SIZE + 16 ≤ PTRDIFF_MAX
  bytes : tx.serialize.length ≤ PTRDIFF_MAX

/-- The serialized transaction is parsed to the same transaction. -/
def RoundTrips (H : Hashes) (tx : BRTransaction) : Prop :=
  ∃ copy, parse H tx.serialize = some (some copy) ∧ Same tx copy

variable {H : Hashes} {buf rest : Bytes} {off : ℕ}

/-! ## Reading what was written -/

theorem fieldAt_at {k n : ℕ} (h : At buf off (toLE k n ++ rest)) (hn : n < 256 ^ k) :
    fieldAt buf off k = n := by
  have hlen : off + k ≤ buf.length := h.toLE.le
  have hget := h.getLE hn
  rw [getLE_of_le hlen] at hget
  rw [fieldAt, if_pos hlen]
  exact Option.some.inj hget

theorem varInt_at {n : ℕ} (h : At buf off (varIntBytes n ++ rest)) (hn : n < 2 ^ 64) :
    varInt (buf.drop off) = (n, varIntSize n) := by
  rw [h.drop_eq, varInt_varIntBytes hn]

/-- A script is read behind its length. -/
theorem script_at {s : Bytes} (h : At buf off (varIntBytes s.length ++ (s ++ rest)))
    (hbuf : buf.length ≤ PTRDIFF_MAX) : scriptAt buf off = s ∧
      scriptEnd buf off = off + varIntSize s.length + s.length ∧ At buf (scriptEnd buf off) rest := by
  have hmax : PTRDIFF_MAX < 2 ^ 63 := by decide
  have hs := h.varInt
  have hle := hs.next.le
  have hint := varInt_at h (by omega)
  have hstart : scriptStart buf off = off + varIntSize s.length := by rw [scriptStart, hint]
  have hend : scriptEnd buf off = off + varIntSize s.length + s.length := by
    rw [scriptEnd, hstart, hint]
  refine ⟨?_, hend, ?_⟩
  · rw [scriptAt, hstart, hint, hs.drop_eq, List.take_left]
  · rw [hend]
    exact hs.next

/-- The script that an input is serialized with. -/
def inputScript (input : BRTxInput) : Bytes :=
  (if input.signature = none then input.script else input.signature).getD []

/-- What an input is read as. -/
def readInput (H : Hashes) (input : BRTxInput) : BRTxInput :=
  match input.signature with
  | some signature =>
    { txHash := input.txHash, index := input.index, sequence := input.sequence
      signature := some signature, address := BRAddress.fromScriptSig H signature }
  | none =>
    { txHash := input.txHash, index := input.index, sequence := input.sequence
      amount := input.amount, script := some (inputScript input)
      address := BRAddress.fromScriptPubKey H (inputScript input) }

/-- What an output is read as. -/
def readOutput (H : Hashes) (output : BRTxOutput) : BRTxOutput :=
  { amount := output.amount, script := some (output.script.getD [])
    address := BRAddress.fromScriptPubKey H (output.script.getD []) }

theorem inputData_eq (input : BRTxInput) : inputData input = toLE 32 input.txHash.toNat ++
    (toLE 4 input.index.toNat ++ (varIntBytes (inputScript input).length ++ (inputScript input ++
      ((if input.signature = none ∧ input.amount ≠ 0 then toLE 8 input.amount.toNat else []) ++
        toLE 4 input.sequence.toNat)))) := by
  rw [inputData, inputScript]
  by_cases hs : input.signature = none
  · rw [if_pos hs, if_pos hs, txInputData]
    by_cases hamount : input.amount ≠ 0
    · rw [if_pos hamount, if_pos ⟨hs, hamount⟩]
      rfl
    · rw [if_neg hamount, if_neg (fun h => hamount h.2)]
      rfl
  · rw [if_neg hs, if_neg hs, txInputData, if_neg (fun h => h rfl), if_neg (fun h => hs h.1)]
    rfl

theorem parseInput_encoded {input : BRTxInput} (hbuf : buf.length ≤ PTRDIFF_MAX)
    (hvalid : ValidInput input) (hamount : input.signature = none → input.amount ≠ 0)
    (h : At buf off (inputData input ++ rest)) :
    parseInput H buf off = some (readInput H input, off + (inputData input).length) := by
  have hmax : PTRDIFF_MAX < 2 ^ 63 := by decide
  have hle := h.le
  have hlen := h.next.le
  rw [inputData_eq] at h hlen ⊢
  simp only [List.append_assoc, List.length_append, length_toLE, length_varIntBytes] at h hlen ⊢
  have h36 := h.toLE.toLE
  obtain ⟨hscript, hend, hrest⟩ := script_at h36 hbuf
  have hoff : off + 32 + 4 = off + 36 := rfl
  rw [hoff] at hscript hend hrest
  have htxHash := fieldAt_at h (lt_of_lt_of_le input.txHash.isLt (by decide))
  have hindex := fieldAt_at h.toLE input.index.toNat_lt
  have hfits : scriptEnd buf (off + 36) ≤ buf.length := hrest.le
  rw [parseInput_eq hbuf hle, if_pos (by omega), inputAt, inputEnd, hscript, htxHash, hindex,
    if_pos hfits, BitVec.ofNat_toNat, BitVec.setWidth_eq, UInt32.ofNat_toNat, readInput]
  rcases hvalid with ⟨signature, hsig, hpub⟩ | ⟨hsig, script, hs, hpub⟩
  · have hbytes : inputScript input = signature := by
      rw [inputScript, hsig]
      rfl
    have hne : ¬ input.signature = none := by
      rw [hsig]
      exact Option.some_ne_none _
    have hno : ¬ BRAddress.isScriptPubKey (inputScript input) = true := by
      rw [hbytes, hpub]
      exact Bool.false_ne_true
    have hnone : ¬ (input.signature = none ∧ input.amount ≠ 0) := fun h => hne h.1
    rw [if_neg hnone] at hrest
    have hsequence := fieldAt_at hrest input.sequence.toNat_lt
    rw [if_neg hno, if_neg (fun h => hno h.2), if_neg hnone, hsequence, UInt32.ofNat_toNat, hend,
      hbytes, hsig]
    refine congrArg some (Prod.ext rfl ?_)
    simp only [List.length_nil]
    omega
  · have hbytes : inputScript input = script := by
      rw [inputScript, if_pos hsig, hs]
      rfl
    have hyes : BRAddress.isScriptPubKey (inputScript input) = true := by rw [hbytes, hpub]
    have hsome : input.signature = none ∧ input.amount ≠ 0 := ⟨hsig, hamount hsig⟩
    rw [if_pos hsome] at hrest
    have hvalue := fieldAt_at hrest input.amount.toNat_lt
    have hsequence := fieldAt_at hrest.toLE input.sequence.toNat_lt
    rw [if_pos hyes, if_pos ⟨hfits, hyes⟩, if_pos hsome, hvalue, hsequence, UInt32.ofNat_toNat,
      UInt64.ofNat_toNat, hend, hsig]
    refine congrArg some (Prod.ext rfl ?_)
    simp only [length_toLE]
    omega

theorem parseOutput_encoded {output : BRTxOutput} (hbuf : buf.length ≤ PTRDIFF_MAX)
    (h : At buf off (txOutputData output ++ rest)) :
    parseOutput H buf off = some (readOutput H output, off + (txOutputData output).length) := by
  have hmax : PTRDIFF_MAX < 2 ^ 63 := by decide
  have hle := h.le
  have hlen := h.next.le
  rw [txOutputData] at h hlen ⊢
  simp only [List.append_assoc, List.length_append, length_toLE, length_varIntBytes] at h hlen ⊢
  obtain ⟨hscript, hend, hrest⟩ := script_at h.toLE hbuf
  have hamount := fieldAt_at h output.amount.toNat_lt
  have hfits : scriptEnd buf (off + 8) ≤ buf.length := hrest.le
  rw [parseOutput_eq hbuf hle, if_pos (by omega), outputAt, if_pos hfits, hscript, hamount,
    UInt64.ofNat_toNat, hend]
  refine congrArg some (Prod.ext rfl ?_)
  dsimp only
  rw [scriptLen]
  omega

theorem readInputs_encoded {inputs : List BRTxInput} (hbuf : buf.length ≤ PTRDIFF_MAX)
    (hvalid : ∀ input ∈ inputs, ValidInput input)
    (hamount : ∀ input ∈ inputs, input.signature = none → input.amount ≠ 0)
    (h : At buf off (inputs.flatMap inputData ++ rest)) :
    Items.readAll buf.length (parseInput H buf) blankInput inputs.length off =
      some (inputs.map (readInput H), off + (inputs.flatMap inputData).length) :=
  Items.readAll_encoded (le_refl _)
    (fun input hi _ _ hoff => parseInput_encoded hbuf (hvalid input hi) (hamount input hi) hoff) h

theorem readOutputs_encoded {outputs : List BRTxOutput} (hbuf : buf.length ≤ PTRDIFF_MAX)
    (h : At buf off (outputs.flatMap txOutputData ++ rest)) :
    Items.readAll buf.length (parseOutput H buf) ({} : BRTxOutput) outputs.length off =
      some (outputs.map (readOutput H), off + (outputs.flatMap txOutputData).length) :=
  Items.readAll_encoded (le_refl _) (fun _ _ _ _ hoff => parseOutput_encoded hbuf hoff) h

/-- What a transaction is read as, up to the assets and the hash. -/
def readFields (H : Hashes) (tx : BRTransaction) : BRTransaction where
  version := tx.version
  inputs := tx.inputs.map (readInput H)
  outputs := tx.outputs.map (readOutput H)
  lockTime := tx.lockTime

theorem parseFields_serialize {tx : BRTransaction} (h : tx.Held)
    (hvalid : ∀ input ∈ tx.inputs, ValidInput input)
    (hamount : ∀ input ∈ tx.inputs, input.signature = none → input.amount ≠ 0) :
    parseFields H tx.serialize = some (readFields H tx, tx.serialize.length) := by
  have hmax : PTRDIFF_MAX < 2 ^ 63 := by decide
  have hin := h.inputs
  have hout := h.outputs
  have hbuf := h.bytes
  have hat := At.zero tx.serialize
  have hlen : tx.serialize.length = 4 + (varIntSize tx.inputs.length +
      ((tx.inputs.flatMap inputData).length + (varIntSize tx.outputs.length +
        ((tx.outputs.flatMap txOutputData).length + 4)))) := by
    rw [serialize_eq]
    simp only [List.length_append, length_toLE, length_varIntBytes]
  rw [TX_INPUT_STRUCT_SIZE] at hin
  rw [TX_OUTPUT_STRUCT_SIZE] at hout
  nth_rewrite 2 [serialize_eq] at hat
  generalize tx.serialize = buf at hbuf hat hlen ⊢
  have hversion := fieldAt_at hat tx.version.toNat_lt
  have hcount := hat.toLE
  have hincount := varInt_at hcount (by omega)
  have hinputs := hcount.varInt
  have hcount' := hinputs.next
  have houtcount := varInt_at hcount' (by omega)
  have houtputs := hcount'.varInt
  have hlock := houtputs.next
  rw [← List.append_nil (toLE 4 tx.lockTime.toNat)] at hlock
  have hlockTime := fieldAt_at hlock tx.lockTime.toNat_lt
  have hread : Items.readAll _ (parseInput H buf) _ _ _ = _ :=
    readInputs_encoded hbuf hvalid hamount hinputs
  have hread' : Items.readAll _ (parseOutput H buf) _ _ _ = _ := readOutputs_encoded hbuf houtputs
  rw [Nat.zero_add] at *
  rw [parseFields, getField_eq (by decide), hversion]
  simp only [Option.bind_eq_bind, Option.bind_some]
  rw [hincount]
  dsimp only
  rw [arraySetCount, TX_INPUT_STRUCT_SIZE, if_pos hin, Option.bind_some, hread, Option.bind_some]
  dsimp only
  rw [houtcount]
  dsimp only
  rw [arraySetCount, TX_OUTPUT_STRUCT_SIZE, if_pos hout, wrap64_of_lt (by omega), Option.bind_some,
    hread', Option.bind_some]
  dsimp only
  rw [getField_eq (by omega), hlockTime, Option.bind_some, wrap64_of_lt (by omega)]
  rw [UInt32.ofNat_toNat, UInt32.ofNat_toNat]
  refine congrArg some (Prod.ext rfl ?_)
  dsimp only
  omega

theorem sameInput_readInput {input : BRTxInput} (h : ValidInput input) :
    SameInput input (readInput H input) := by
  rcases h with ⟨signature, hsig, -⟩ | ⟨hsig, script, hs, -⟩
  · have hne : input.signature ≠ none := by
      rw [hsig]
      exact Option.some_ne_none _
    rw [readInput, hsig]
    exact ⟨rfl, rfl, rfl, hsig.symm, fun h => absurd h hne, fun h => absurd h hne⟩
  · have hbytes : inputScript input = script := by
      rw [inputScript, if_pos hsig, hs]
      rfl
    rw [readInput, hsig, hbytes]
    exact ⟨rfl, rfl, rfl, hsig.symm, fun _ => hs.symm, fun _ => rfl⟩

theorem same_readFields {tx : BRTransaction} (hvalid : ∀ input ∈ tx.inputs, ValidInput input)
    (haddr : ∀ output ∈ tx.outputs,
      output.address = BRAddress.fromScriptPubKey H (output.script.getD [])) :
    Same tx (readFields H tx) := by
  refine ⟨rfl, ?_, ?_, rfl⟩
  · refine List.forall₂_map_right_iff.2 (List.forall₂_same.2 fun input hi => ?_)
    exact sameInput_readInput (hvalid input hi)
  · refine List.forall₂_map_right_iff.2 (List.forall₂_same.2 fun output ho => ?_)
    exact ⟨rfl, rfl, (haddr output ho).symm⟩

/-! ## What a read needs -/

/-- The bytes that an input takes when it is read. -/
def readSize (input : BRTxInput) : ℕ :=
  32 + (4 + (varIntSize (inputScript input).length + ((inputScript input).length +
    ((if input.signature = none then 8 else 0) + 4))))

theorem length_inputData_le (input : BRTxInput) : (inputData input).length ≤ readSize input := by
  rw [inputData_eq, readSize]
  simp only [List.length_append, length_toLE, length_varIntBytes]
  by_cases hs : input.signature = none
  · rw [if_pos hs]
    split_ifs
    · simp only [length_toLE]
      omega
    · simp only [List.length_nil]
      omega
  · rw [if_neg hs, if_neg fun h => hs h.1]
    simp

/-- An amount that is zero is not written. -/
theorem length_inputData_lt {input : BRTxInput} (hs : input.signature = none)
    (hamount : input.amount = 0) : (inputData input).length < readSize input := by
  rw [inputData_eq, readSize, if_pos hs, if_neg fun h => h.2 hamount]
  simp only [List.length_append, length_toLE, length_varIntBytes, List.length_nil]
  omega

theorem readSize_congr (input copy : BRTxInput) (h : SameInput input copy) :
    readSize input = readSize copy := by
  have hscript : inputScript input = inputScript copy := by
    rw [inputScript, inputScript, h.signature]
    by_cases hs : input.signature = none
    · rw [if_pos hs, if_pos hs, h.script hs]
    · rw [if_neg hs, if_neg hs]
  rw [readSize, readSize, h.signature, hscript]

theorem length_outputData_congr (output copy : BRTxOutput) (h : SameOutput output copy) :
    (txOutputData output).length = (txOutputData copy).length := by
  rw [txOutputData, txOutputData, scriptLen, scriptLen, h.script]
  simp only [List.length_append, length_toLE]

theorem readSize_inputAt {s : ℕ} (h : scriptEnd buf (s + 36) ≤ buf.length) :
    s + readSize (inputAt H buf s) ≤ inputEnd buf s := by
  have hsize := varIntSize_le_snd (buf.drop (s + 36))
  have hlen := length_scriptAt h
  have hend : scriptEnd buf (s + 36) =
    s + 36 + (varInt (buf.drop (s + 36))).2 + (varInt (buf.drop (s + 36))).1 := rfl
  rw [inputAt, inputEnd, if_pos h]
  by_cases hp : BRAddress.isScriptPubKey (scriptAt buf (s + 36)) = true
  · rw [if_pos hp, if_pos ⟨h, hp⟩]
    show s + (32 + (4 + (varIntSize (scriptAt buf (s + 36)).length +
      ((scriptAt buf (s + 36)).length + (8 + 4))))) ≤ _
    rw [hlen]
    omega
  · rw [if_neg hp, if_neg fun h => hp h.2]
    show s + (32 + (4 + (varIntSize (scriptAt buf (s + 36)).length +
      ((scriptAt buf (s + 36)).length + (0 + 4))))) ≤ _
    rw [hlen]
    omega

theorem length_outputAt {s : ℕ} (h : scriptEnd buf (s + 8) ≤ buf.length) :
    s + (txOutputData (outputAt H buf s)).length ≤ outputEnd buf s := by
  have hsize := varIntSize_le_snd (buf.drop (s + 8))
  have hlen := length_scriptAt h
  have hend : scriptEnd buf (s + 8) =
    s + 8 + (varInt (buf.drop (s + 8))).2 + (varInt (buf.drop (s + 8))).1 := rfl
  rw [outputAt, if_pos h, outputEnd, txOutputData]
  show s + (_ ++ (varIntBytes (scriptAt buf (s + 8)).length ++ scriptAt buf (s + 8))).length ≤ _
  simp only [List.length_append, length_toLE, length_varIntBytes]
  rw [hlen]
  omega

theorem exists_of_mem_forall₂ {α β : Type} {R : α → β → Prop} {l : List α} {m : List β}
    (h : List.Forall₂ R l m) {b : β} (hb : b ∈ m) : ∃ a ∈ l, R a b := by
  induction h with
  | nil => cases hb
  | cons hab _ ih =>
    rcases List.mem_cons.1 hb with rfl | hb
    · exact ⟨_, List.mem_cons_self, hab⟩
    · obtain ⟨a, ha, hr⟩ := ih hb
      exact ⟨a, List.mem_cons_of_mem _ ha, hr⟩

theorem map_eq_of_forall₂ {α β γ : Type} {R : α → β → Prop} {f : α → γ} {g : β → γ}
    (hfg : ∀ a b, R a b → f a = g b) {l : List α} {m : List β} (h : List.Forall₂ R l m) :
    l.map f = m.map g := by
  induction h with
  | nil => rfl
  | cons hab _ ih => rw [List.map_cons, List.map_cons, hfg _ _ hab, ih]

/-- A transaction of which every input is read back takes at least the bytes that are read. -/
theorem readSize_le {tx : BRTransaction} (h : Complete tx.serialize)
    (hread : ∀ s ∈ inputStarts tx.serialize, scriptEnd tx.serialize (s + 36) ≤ tx.serialize.length)
    (hinputs : List.Forall₂ SameInput tx.inputs (fieldsAt tx.serialize H).inputs)
    (houtputs : List.Forall₂ SameOutput tx.outputs (fieldsAt tx.serialize H).outputs) :
    (tx.inputs.map readSize).sum ≤ (tx.inputs.map fun input => (inputData input).length).sum := by
  have hin : (tx.inputs.map readSize).sum =
      ((inputStarts tx.serialize).map fun s => readSize (inputAt H tx.serialize s)).sum := by
    rw [map_eq_of_forall₂ readSize_congr hinputs, h.inputs_eq, List.map_map]
    rfl
  have hout : (tx.outputs.map fun o => (txOutputData o).length).sum =
      ((outputStarts tx.serialize).map fun s =>
        (txOutputData (outputAt H tx.serialize s)).length).sum := by
    rw [map_eq_of_forall₂ length_outputData_congr houtputs, h.outputs_eq,
      List.map_map]
    rfl
  have hincount : inCount tx.serialize = tx.inputs.length := by
    rw [hinputs.length_eq, h.inputs_eq, List.length_map, h.length_inputStarts]
  have houtcount : outCount tx.serialize = tx.outputs.length := by
    rw [houtputs.length_eq, h.outputs_eq, List.length_map, h.length_outputStarts]
  have hincount' := varIntSize_le_snd (tx.serialize.drop 4)
  have houtcount' := varIntSize_le_snd (tx.serialize.drop (inputsEnd tx.serialize))
  rw [← inCount, hincount] at hincount'
  rw [← outCount, houtcount] at houtcount'
  have hstart : 4 + (varInt (tx.serialize.drop 4)).2 + ((inputStarts tx.serialize).map fun s =>
      readSize (inputAt H tx.serialize s)).sum ≤ inputsEnd tx.serialize :=
    Items.stop_sum fun s hs => readSize_inputAt (hread s hs)
  have hstart' : inputsEnd tx.serialize +
      (varInt (tx.serialize.drop (inputsEnd tx.serialize))).2 +
        ((outputStarts tx.serialize).map fun s =>
          (txOutputData (outputAt H tx.serialize s)).length).sum ≤ outputsEnd tx.serialize :=
    Items.stop_sum fun s hs => length_outputAt (h.outputEnd_le hs)
  have hcomplete : outputsEnd tx.serialize + 4 ≤ tx.serialize.length := h
  have hlen : tx.serialize.length = 4 + (varIntSize tx.inputs.length +
      ((tx.inputs.map fun input => (inputData input).length).sum + (varIntSize tx.outputs.length +
        ((tx.outputs.map fun o => (txOutputData o).length).sum + 4)))) := by
    rw [serialize_eq]
    simp only [List.length_append, length_toLE, length_varIntBytes, List.length_flatMap]
  omega

/-- An input that is read as one that it is the same as is read with its script. -/
theorem scriptEnd_le_of_same {input : BRTxInput} {s : ℕ} (hvalid : ValidInput input)
    (hsame : SameInput input (inputAt H buf s)) : scriptEnd buf (s + 36) ≤ buf.length := by
  by_contra hgt
  have hblank : (inputAt H buf s).signature = none ∧ (inputAt H buf s).script = none := by
    rw [inputAt, if_neg hgt]
    exact ⟨rfl, rfl⟩
  rcases hvalid with ⟨signature, hsig, -⟩ | ⟨hsig, script, hs, -⟩
  · have hsome := hsame.signature
    rw [hsig, hblank.1] at hsome
    cases hsome
  · have hsome := hsame.script hsig
    rw [hs, hblank.2] at hsome
    cases hsome

theorem roundTrips_iff (H : Hashes) (tx : BRTransaction) (h : tx.Held)
    (hvalid : ∀ input ∈ tx.inputs, ValidInput input) :
    RoundTrips H tx ↔ tx.inputs ≠ [] ∧
      (∀ input ∈ tx.inputs, input.signature = none → input.amount ≠ 0) ∧
      (∀ output ∈ tx.outputs,
        output.address = BRAddress.fromScriptPubKey H (output.script.getD [])) ∧
      ∀ script ∈ scannedScripts tx.scripts, AssetFits script := by
  have hbuf := h.bytes
  constructor
  · rintro ⟨copy, hparse, hsame⟩
    have hfit := sizesFit_of_parse hbuf hparse
    have hassets := assetsFit_of_parse hbuf hparse
    obtain ⟨hne, hle, asset, txHash, rfl⟩ := parse_eq_some hbuf hparse
    have hinputs : List.Forall₂ SameInput tx.inputs (fieldsAt tx.serialize H).inputs := hsame.inputs
    have houtputs : List.Forall₂ SameOutput tx.outputs (fieldsAt tx.serialize H).outputs :=
      hsame.outputs
    have hread : ∀ s ∈ inputStarts tx.serialize,
        scriptEnd tx.serialize (s + 36) ≤ tx.serialize.length := by
      intro s hs
      obtain ⟨input, hi, hcopy⟩ := exists_of_mem_forall₂ hinputs
        (List.mem_append.2 (Or.inl (List.mem_map_of_mem hs)))
      exact scriptEnd_le_of_same (hvalid input hi) hcopy
    have hcomplete := complete_of_parse hbuf hfit hle hread
    refine ⟨?_, ?_, ?_, ?_⟩
    · intro hnil
      rw [hnil] at hinputs
      exact hne (List.forall₂_nil_left_iff.1 hinputs)
    · intro input hi hsig hzero
      -- the input is read with eight bytes more than it was written with
      have hlt := List.sum_lt_sum (fun input => (inputData input).length) readSize
        (fun input _ => length_inputData_le input) ⟨input, hi, length_inputData_lt hsig hzero⟩
      exact absurd (readSize_le hcomplete hread hinputs houtputs) (Nat.not_le.2 hlt)
    · intro output ho
      obtain ⟨copy, hc, hcopy⟩ := exists_of_mem_forall₂ houtputs.flip ho
      rw [hcomplete.outputs_eq] at hc
      obtain ⟨s, hs, rfl⟩ := List.mem_map.1 hc
      have haddr := hcopy.address
      have hscript := hcopy.script
      rw [hcomplete.outputAt_eq hs] at haddr hscript
      rw [← haddr, ← hscript]
      rfl
    · have hscripts : tx.scripts = (fieldsAt tx.serialize H).scripts :=
        map_eq_of_forall₂ (fun _ _ hcopy => hcopy.script.symm) houtputs
      rw [hscripts]
      exact hassets (by decide : TX_UNCONFIRMED ≥ ASSET_ACTIVATION)
  · rintro ⟨hne, hamount, haddr, hassets⟩
    have hscripts : (readFields H tx).scripts = tx.scripts := by
      rw [scripts, readFields, List.map_map]
      rfl
    have hfits : (readFields H tx).AssetsFit := by
      intro _
      rw [hscripts]
      exact hassets
    obtain ⟨asset, hasset⟩ := Option.isSome_iff_exists.1 (parseAssets_isSome.2 hfits)
    have hend : ¬ ((readFields H tx).inputs = [] ∨ tx.serialize.length > tx.serialize.length) := by
      rintro (hnil | hgt)
      · exact hne (List.map_eq_nil_iff.1 hnil)
      · exact lt_irrefl _ hgt
    have hparse : parse H tx.serialize = some (some { readFields H tx with
        asset
        txHash := if (readFields H tx).inputs.all fun i => i.script.isNone then
          get256 (H.sha256_2 (tx.serialize.take tx.serialize.length)) else 0 }) := by
      rw [parse, parseFields_serialize h hvalid hamount]
      simp only [Option.bind_eq_bind, Option.bind_some]
      rw [hasset, Option.bind_some, if_neg hend]
    have hsame := same_readFields hvalid haddr
    exact ⟨_, hparse, hsame.version, hsame.inputs, hsame.outputs, hsame.lockTime⟩

/-- The script of an address whose hash is zero. -/
def zeroScript : Bytes := [0x76, 0xa9, 20] ++ List.replicate 20 0 ++ [0x88, 0xac]

/-- An unsigned transaction with an input of the given amount. -/
def unsignedTx (amount : UInt64) : BRTransaction where
  inputs := [{ txHash := 7, index := 0, script := some zeroScript, amount := amount
               sequence := TXIN_SEQUENCE }]
  outputs := [{ amount := 100000, script := some zeroScript
                address := BRAddress.fromScriptPubKey lengthHashes zeroScript }]

theorem unsignedTx_valid (amount : UInt64) :
    ∀ input ∈ (unsignedTx amount).inputs, ValidInput input := by
  intro input hi
  obtain rfl := List.mem_singleton.1 hi
  exact Or.inr ⟨rfl, zeroScript, rfl, by decide +kernel⟩

theorem unsignedTx_held (amount : UInt64) (h : (unsignedTx amount).serialize.length ≤ 200) :
    (unsignedTx amount).Held :=
  ⟨(by decide : 1 * TX_INPUT_STRUCT_SIZE + 16 ≤ PTRDIFF_MAX),
    (by decide : 1 * TX_OUTPUT_STRUCT_SIZE + 16 ≤ PTRDIFF_MAX), h.trans (by decide)⟩

/-- As with the input of an asset, the number of outputs is read as a part of the amount. -/
theorem not_roundTrips : ¬ ∀ (H : Hashes) (tx : BRTransaction), tx.Held →
    (∀ input ∈ tx.inputs, ValidInput input) → RoundTrips H tx := by
  intro h
  obtain ⟨copy, hparse, hsame⟩ := h lengthHashes (unsignedTx 0)
    (unsignedTx_held 0 (by decide +kernel)) (unsignedTx_valid 0)
  have hread : (parse lengthHashes (unsignedTx 0).serialize).join.map
      (fun tx => tx.outputs.length) = some 0 := by decide +kernel
  rw [hparse, Option.join_some, Option.map_some] at hread
  have hlen : 1 = copy.outputs.length := hsame.outputs.length_eq
  rw [Option.some.inj hread] at hlen
  cases hlen

theorem roundTrips_unsignedTx : RoundTrips lengthHashes (unsignedTx 5000) := by
  refine (roundTrips_iff lengthHashes (unsignedTx 5000) (unsignedTx_held _ (by decide +kernel))
    (unsignedTx_valid _)).2 ⟨by decide, ?_, ?_, ?_⟩
  · intro input hi _
    obtain rfl := List.mem_singleton.1 hi
    exact (by decide : (5000 : UInt64) ≠ 0)
  · intro output ho
    rw [List.mem_singleton.1 ho, Option.getD_some]
  · intro script hs hasset
    have hnone : ∀ script ∈ scannedScripts (unsignedTx 5000).scripts,
        isScriptAsset script = false := by decide +kernel
    rw [hnone script hs] at hasset
    cases hasset

end RavenWallet.BRTransaction
