/-
  Parsing transactions (`BRTransactionParse` of BRTransaction.c).

  Offsets and sizes are computed modulo 2^64.  A read or a copy beyond the end of
  the buffer has no result, and neither has an array that cannot be allocated.
  `inputEnd` and `outputEnd` are where an input or an output at an offset ends
  without wrapping around.

  * `parseFields` reads all but the assets, which `parseAssets` reads from the
    copies of the output scripts;
  * `parseInput_eq` and `parseOutput_eq`: what is read at an offset, and when the
    read leaves the buffer.
-/
import RavenWallet.Lib.Items
import RavenWallet.Lib.Word
import RavenWallet.Core.Assets
import RavenWallet.Core.TxData

namespace RavenWallet

/-- `sizeof(BRTxInput)`. -/
def TX_INPUT_STRUCT_SIZE : ℕ := 120

/-- `sizeof(BRTxOutput)`. -/
def TX_OUTPUT_STRUCT_SIZE : ℕ := 64

def ASSET_ACTIVATION : UInt32 := 435456

/-- `array_set_count` of an array of items of the given size, which has its header of two sizes in
    front; it goes beyond what is allocated if the size wraps around or no memory is that large. -/
def arraySetCount (size count : ℕ) : Option Unit :=
  if count * size + 16 ≤ PTRDIFF_MAX then some () else none

/-- The number in `k` bytes at `off`, zero if the buffer ends before. -/
def getField (buf : Bytes) (off k : ℕ) : Option ℕ :=
  if wrap64 (off + k) ≤ buf.length then getLE buf off k else some 0

/-- An entry of the input array that is not filled. -/
def blankInput : BRTxInput := { txHash := 0, index := 0, sequence := 0 }

namespace BRTransaction

variable (H : Hashes) (buf : Bytes)

/-- The script of an input or its signature; an amount behind a script moves the offset on. -/
def parseInputScript (off sLen : ℕ) (input : BRTxInput) : Option (BRTxInput × ℕ) :=
  if wrap64 (off + sLen) ≤ buf.length then
    (peek buf off sLen).bind fun script =>
      if BRAddress.isScriptPubKey script then
        (getField buf (wrap64 (off + sLen)) 8).map fun amount =>
          ({ input with script := some script
                        address := BRAddress.fromScriptPubKey H script
                        amount := UInt64.ofNat amount }, wrap64 (off + 8))
      else
        some ({ input with signature := some script
                           address := BRAddress.fromScriptSig H script }, off)
  else some (input, off)

/-- An input, and the offset behind it. -/
def parseInput (off : ℕ) : Option (BRTxInput × ℕ) := do
  let txHash ← getField buf off 32
  let off := wrap64 (off + 32)
  let index ← getField buf off 4
  let off := wrap64 (off + 4)
  let (sLen, len) := varInt (buf.drop off)
  let off := wrap64 (off + len)
  let (input, off) ← parseInputScript H buf off sLen
    { blankInput with txHash := BitVec.ofNat 256 txHash, index := UInt32.ofNat index }
  let off := wrap64 (off + sLen)
  let sequence ← getField buf off 4
  some ({ input with sequence := UInt32.ofNat sequence }, wrap64 (off + 4))

/-- The script of an output. -/
def parseOutputScript (off sLen : ℕ) (output : BRTxOutput) : Option BRTxOutput :=
  if wrap64 (off + sLen) ≤ buf.length then
    (peek buf off sLen).map fun script =>
      { output with script := some script, address := BRAddress.fromScriptPubKey H script }
  else some output

/-- An output, and the offset behind it. -/
def parseOutput (off : ℕ) : Option (BRTxOutput × ℕ) := do
  let amount ← getField buf off 8
  let off := wrap64 (off + 8)
  let (sLen, len) := varInt (buf.drop off)
  let off := wrap64 (off + len)
  let output ← parseOutputScript H buf off sLen { amount := UInt64.ofNat amount }
  some (output, wrap64 (off + sLen))

/-- All but the assets and the hash, and the offset behind the transaction. -/
def parseFields : Option (BRTransaction × ℕ) := do
  let version ← getField buf 0 4
  let (inCount, len) := varInt (buf.drop 4)
  arraySetCount TX_INPUT_STRUCT_SIZE inCount
  let (inputs, off) ← Items.readAll buf.length (parseInput H buf) blankInput inCount (4 + len)
  let (outCount, len) := varInt (buf.drop off)
  let off := wrap64 (off + len)
  arraySetCount TX_OUTPUT_STRUCT_SIZE outCount
  let (outputs, off) ← Items.readAll buf.length (parseOutput H buf) {} outCount off
  let lockTime ← getField buf off 4
  some ({ version := UInt32.ofNat version, inputs, outputs, lockTime := UInt32.ofNat lockTime },
    wrap64 (off + 4))

/-- The loop that reads the assets: the output looked at last, whose script is looked at before the
    next one is taken, and how many assets are still to be read. -/
def assetLoop : BRTxOutput → ℕ → List BRTxOutput → Option (List BRAsset)
  | _, 0, _ => some []
  | _, n + 1, [] => some (List.replicate (n + 1) {})
  | output, n + 1, next :: outputs =>
    if scriptLen output.script = 0 then assetLoop output (n + 1) outputs
    else if isScriptAsset (next.script.getD []) then do
      let (asset, _) ← getAssetData (next.script.getD []) {}
      let assets ← assetLoop next n outputs
      some (asset :: assets)
    else assetLoop next (n + 1) outputs

/-- The assets of a transaction; no result if the data of one leave its script. -/
def parseAssets (tx : BRTransaction) : Option (List BRAsset) :=
  if tx.blockHeight ≥ ASSET_ACTIVATION then
    -- the output that was read last; if there are blank ones behind it, it has no script either
    match tx.outputs.getLast? with
    | none => some []
    | some output => assetLoop output
        (tx.outputs.filter fun o => isScriptAsset (o.script.getD [])).length tx.outputs
  else some []

/-- `BRTransactionParse`. -/
def parse : Option (Option BRTransaction) := do
  let (tx, off) ← parseFields H buf
  let asset ← tx.parseAssets
  if tx.inputs = [] ∨ off > buf.length then some none
  else
    -- no input was read with a scriptPubKey
    let isSigned := tx.inputs.all fun i => i.script.isNone
    some (some { tx with asset
                         txHash := if isSigned then get256 (H.sha256_2 (buf.take off)) else 0 })

/-! ## The layout -/

/-- The number in `k` bytes at `off`, zero if the buffer ends before. -/
def fieldAt (off k : ℕ) : ℕ :=
  if off + k ≤ buf.length then ofLE ((buf.drop off).take k) else 0

/-- Where the script behind the length at `off` begins, -/
def scriptStart (off : ℕ) : ℕ := off + (varInt (buf.drop off)).2

/-- and where it ends. -/
def scriptEnd (off : ℕ) : ℕ := scriptStart buf off + (varInt (buf.drop off)).1

def scriptAt (off : ℕ) : Bytes := (buf.drop (scriptStart buf off)).take (varInt (buf.drop off)).1

/-- The input at `off`; its script is left out if it does not end with the buffer at the latest. -/
def inputAt (off : ℕ) : BRTxInput :=
  let input := { blankInput with txHash := BitVec.ofNat 256 (fieldAt buf off 32)
                                 index := UInt32.ofNat (fieldAt buf (off + 32) 4) }
  let sLen := scriptEnd buf (off + 36)
  let script := scriptAt buf (off + 36)
  if sLen ≤ buf.length then
    if BRAddress.isScriptPubKey script then
      { input with script := some script
                   address := BRAddress.fromScriptPubKey H script
                   amount := UInt64.ofNat (fieldAt buf sLen 8)
                   sequence := UInt32.ofNat (fieldAt buf (sLen + 8) 4) }
    else
      { input with signature := some script
                   address := BRAddress.fromScriptSig H script
                   sequence := UInt32.ofNat (fieldAt buf sLen 4) }
  else input

def inputEnd (off : ℕ) : ℕ :=
  scriptEnd buf (off + 36) + if scriptEnd buf (off + 36) ≤ buf.length ∧
    BRAddress.isScriptPubKey (scriptAt buf (off + 36)) then 12 else 4

/-- The output at `off`. -/
def outputAt (off : ℕ) : BRTxOutput :=
  let output : BRTxOutput := { amount := UInt64.ofNat (fieldAt buf off 8) }
  let script := scriptAt buf (off + 8)
  if scriptEnd buf (off + 8) ≤ buf.length then
    { output with script := some script, address := BRAddress.fromScriptPubKey H script }
  else output

variable {H buf} {off : ℕ}

theorem getField_eq {k : ℕ} (h : off + k < 2 ^ 64) :
    getField buf off k = some (fieldAt buf off k) := by
  rw [getField, fieldAt, wrap64_of_lt h]
  by_cases hle : off + k ≤ buf.length
  · rw [if_pos hle, if_pos hle, getLE_of_le hle]
  · rw [if_neg hle, if_neg hle]

/-- A number that ends where the offset has wrapped around to a part of the buffer. -/
theorem getField_wrapped {k : ℕ} (hbuf : buf.length < 2 ^ 64) (h : 2 ^ 64 ≤ off + k)
    (hw : off + k - 2 ^ 64 ≤ buf.length) : getField buf off k = none := by
  have hle := wrap64_le (off + k)
  rw [getField, if_pos, getLE_eq_none]
  · omega
  · have hmod : wrap64 (off + k) ≤ off + k - 2 ^ 64 := by
      rw [wrap64, Nat.mod_eq_sub_mod h]
      exact Nat.mod_le _ _
    exact hmod.trans hw

theorem scriptStart_le (hbuf : buf.length ≤ PTRDIFF_MAX) (hoff : off ≤ buf.length + 36) :
    scriptStart buf off < 2 ^ 64 := by
  have hmax : PTRDIFF_MAX < 2 ^ 63 := by decide
  have hle := varInt_snd_le (buf.drop off)
  rw [scriptStart]
  omega

/-- A script of any length begins in the buffer. -/
theorem scriptStart_le_length (h : (varInt (buf.drop off)).1 ≠ 0) :
    scriptStart buf off ≤ buf.length := by
  have hfits := varInt_fits h
  have hpos := varInt_snd_pos (buf.drop off)
  rw [List.length_drop] at hfits
  rw [scriptStart]
  omega

/-- A script that ends beyond the buffer is not read, unless its end has wrapped around. -/
theorem peek_scriptAt (h : scriptEnd buf off ≤ buf.length) :
    peek buf (scriptStart buf off) (varInt (buf.drop off)).1 = some (scriptAt buf off) := by
  rw [peek, if_pos (by rw [← scriptEnd]; exact h), scriptAt]

theorem peek_beyond (h : buf.length < scriptEnd buf off) :
    peek buf (scriptStart buf off) (varInt (buf.drop off)).1 = none := by
  rw [peek, if_neg]
  rw [← scriptEnd]
  omega

/-- A script that ends beyond any size has an end that wraps around to a part of the buffer. -/
theorem wrap64_scriptEnd (hbuf : buf.length ≤ PTRDIFF_MAX) (hoff : off ≤ buf.length + 36)
    (h : 2 ^ 64 ≤ scriptEnd buf off) : wrap64 (scriptEnd buf off) ≤ buf.length := by
  have hstart := scriptStart_le hbuf hoff
  have hlt : (varInt (buf.drop off)).1 < 2 ^ 64 := varInt_fst_lt _
  have hne : (varInt (buf.drop off)).1 ≠ 0 := by
    rw [scriptEnd] at h
    omega
  have hle := scriptStart_le_length hne
  rw [wrap64, Nat.mod_eq_sub_mod h]
  refine (Nat.mod_le _ _).trans ?_
  rw [scriptEnd]
  omega

theorem parseOutput_eq (hbuf : buf.length ≤ PTRDIFF_MAX) (hoff : off ≤ buf.length) :
    parseOutput H buf off = if scriptEnd buf (off + 8) < 2 ^ 64 then
      some (outputAt H buf off, scriptEnd buf (off + 8)) else none := by
  have hmax : PTRDIFF_MAX < 2 ^ 63 := by decide
  have hstart : scriptStart buf (off + 8) < 2 ^ 64 := scriptStart_le hbuf (by omega)
  have hs : off + 8 + (varInt (buf.drop (off + 8))).2 = scriptStart buf (off + 8) := rfl
  have he : scriptStart buf (off + 8) + (varInt (buf.drop (off + 8))).1 = scriptEnd buf (off + 8) :=
    rfl
  rw [parseOutput, getField_eq (by omega), wrap64_of_lt (by omega : off + 8 < 2 ^ 64)]
  simp only [Option.bind_eq_bind, Option.bind_some]
  rw [hs, wrap64_of_lt hstart, he, parseOutputScript, he, outputAt]
  rcases Nat.lt_or_ge (scriptEnd buf (off + 8)) (2 ^ 64) with hlt | hge
  · rw [if_pos hlt, wrap64_of_lt hlt]
    by_cases hle : scriptEnd buf (off + 8) ≤ buf.length
    · rw [if_pos hle, if_pos hle, peek_scriptAt hle]
      rfl
    · rw [if_neg hle, if_neg hle]
      rfl
  · rw [if_neg (Nat.not_lt.2 hge), if_pos (wrap64_scriptEnd hbuf (by omega) hge),
      peek_beyond (by omega)]
    rfl

theorem parseInput_eq (hbuf : buf.length ≤ PTRDIFF_MAX) (hoff : off ≤ buf.length) :
    parseInput H buf off = if scriptEnd buf (off + 36) + 4 < 2 ^ 64 then
      some (inputAt H buf off, inputEnd buf off) else none := by
  have hmax : PTRDIFF_MAX < 2 ^ 63 := by decide
  have hstart : scriptStart buf (off + 36) < 2 ^ 64 := scriptStart_le hbuf (by omega)
  have h36 : off + 32 + 4 = off + 36 := rfl
  have hs : off + 36 + (varInt (buf.drop (off + 36))).2 = scriptStart buf (off + 36) := rfl
  have he : scriptStart buf (off + 36) + (varInt (buf.drop (off + 36))).1 =
      scriptEnd buf (off + 36) := rfl
  rw [parseInput, getField_eq (by omega), wrap64_of_lt (by omega : off + 32 < 2 ^ 64)]
  simp only [Option.bind_eq_bind, Option.bind_some]
  rw [getField_eq (by omega), wrap64_of_lt (by omega : off + 32 + 4 < 2 ^ 64)]
  simp only [Option.bind_some]
  rw [h36, hs, wrap64_of_lt hstart, parseInputScript, he, inputAt, inputEnd]
  rcases Nat.lt_or_ge (scriptEnd buf (off + 36)) (2 ^ 64) with hlt | hge
  · rw [wrap64_of_lt hlt]
    by_cases hle : scriptEnd buf (off + 36) ≤ buf.length
    · have hlt' : scriptEnd buf (off + 36) + 4 < 2 ^ 64 := by omega
      rw [if_pos hle, if_pos hlt', if_pos hle, peek_scriptAt hle, Option.bind_some]
      by_cases hp : BRAddress.isScriptPubKey (scriptAt buf (off + 36)) = true
      · have h12 : scriptEnd buf (off + 36) + 8 + 4 = scriptEnd buf (off + 36) + 12 := rfl
        have hmove : scriptStart buf (off + 36) + 8 + (varInt (buf.drop (off + 36))).1 =
            scriptEnd buf (off + 36) + 8 := by
          rw [← he]
          omega
        have hstart' : scriptStart buf (off + 36) + 8 < 2 ^ 64 := by omega
        rw [if_pos hp, if_pos hp, if_pos ⟨hle, hp⟩, getField_eq (by omega), Option.map_some,
          Option.bind_some, wrap64_of_lt hstart']
        dsimp only
        rw [hmove, wrap64_of_lt (by omega), getField_eq (by omega), Option.bind_some, h12,
          wrap64_of_lt (by omega)]
      · rw [if_neg hp, if_neg hp, if_neg (fun h => hp h.2), Option.bind_some]
        dsimp only
        rw [he, wrap64_of_lt hlt, getField_eq (by omega), Option.bind_some,
          wrap64_of_lt (by omega)]
    · rcases Nat.lt_or_ge (scriptEnd buf (off + 36) + 4) (2 ^ 64) with hlt' | hge'
      · have hzero : fieldAt buf (scriptEnd buf (off + 36)) 4 = 0 := by
          rw [fieldAt, if_neg (by omega)]
        rw [if_neg hle, if_pos hlt', if_neg hle, if_neg (fun h => hle h.1), Option.bind_some]
        dsimp only
        rw [he, wrap64_of_lt hlt, getField_eq hlt', hzero, Option.bind_some, wrap64_of_lt hlt']
        rfl
      · -- the sequence is read where the offset has wrapped around
        have hlen := varInt_snd_le (buf.drop (off + 36))
        have hne : (varInt (buf.drop (off + 36))).1 ≠ 0 := by omega
        have hpos := scriptStart_le_length hne
        have hstart' : 36 ≤ scriptStart buf (off + 36) := by
          rw [← hs]
          omega
        rw [if_neg hle, if_neg (Nat.not_lt.2 hge'), Option.bind_some]
        dsimp only
        rw [he, wrap64_of_lt hlt, getField_wrapped (by omega) hge' (by omega)]
        rfl
  · have hno : ¬ scriptEnd buf (off + 36) + 4 < 2 ^ 64 := by omega
    rw [if_pos (wrap64_scriptEnd hbuf (by omega) hge), if_neg hno, peek_beyond (by omega)]
    rfl

/-! ## The whole transaction -/

section
variable (buf : Bytes)

def inCount : ℕ := (varInt (buf.drop 4)).1

/-- The offsets of the inputs. -/
def inputStarts : List ℕ :=
  Items.starts buf.length (inputEnd buf) (inCount buf) (4 + (varInt (buf.drop 4)).2)

def inputsEnd : ℕ :=
  Items.stop buf.length (inputEnd buf) (inCount buf) (4 + (varInt (buf.drop 4)).2)

def outCount : ℕ := (varInt (buf.drop (inputsEnd buf))).1

/-- Where an output at `off` ends. -/
def outputEnd (off : ℕ) : ℕ := scriptEnd buf (off + 8)

/-- The offsets of the outputs. -/
def outputStarts : List ℕ :=
  Items.starts buf.length (outputEnd buf) (outCount buf)
    (inputsEnd buf + (varInt (buf.drop (inputsEnd buf))).2)

def outputsEnd : ℕ :=
  Items.stop buf.length (outputEnd buf) (outCount buf)
    (inputsEnd buf + (varInt (buf.drop (inputsEnd buf))).2)

/-- The transaction in the buffer; inputs and outputs beyond its end are blank. -/
def fieldsAt (H : Hashes) : BRTransaction where
  version := UInt32.ofNat (fieldAt buf 0 4)
  inputs := (inputStarts buf).map (inputAt H buf) ++
    List.replicate (inCount buf - (inputStarts buf).length) blankInput
  outputs := (outputStarts buf).map (outputAt H buf) ++
    List.replicate (outCount buf - (outputStarts buf).length) ({} : BRTxOutput)
  lockTime := UInt32.ofNat (fieldAt buf (wrap64 (outputsEnd buf)) 4)

/-- The arrays have sizes that can be allocated, and no offset wraps around at a place where
    something is read from it. -/
structure SizesFit : Prop where
  inCount : inCount buf * TX_INPUT_STRUCT_SIZE + 16 ≤ PTRDIFF_MAX
  inputs : ∀ s ∈ inputStarts buf, scriptEnd buf (s + 36) + 4 < 2 ^ 64
  outCount : outCount buf * TX_OUTPUT_STRUCT_SIZE + 16 ≤ PTRDIFF_MAX
  outputs : ∀ s ∈ outputStarts buf, scriptEnd buf (s + 8) < 2 ^ 64
  lockTime : outputsEnd buf + 4 < 2 ^ 64 ∨ outputsEnd buf = 2 ^ 64

end

theorem inputEnd_lt (hbuf : buf.length ≤ PTRDIFF_MAX) (h : scriptEnd buf (off + 36) + 4 < 2 ^ 64) :
    inputEnd buf off < 2 ^ 64 := by
  have hmax : PTRDIFF_MAX < 2 ^ 63 := by decide
  rw [inputEnd]
  split_ifs with hle
  · have hle := hle.1
    omega
  · exact h

/-- The inputs are read, or one of them is not. -/
theorem readInputs_eq (H : Hashes) (hbuf : buf.length ≤ PTRDIFF_MAX) :
    Items.readAll buf.length (parseInput H buf) blankInput (inCount buf)
        (4 + (varInt (buf.drop 4)).2) =
      if ∀ s ∈ inputStarts buf, scriptEnd buf (s + 36) + 4 < 2 ^ 64 then
        some ((inputStarts buf).map (inputAt H buf) ++
          List.replicate (inCount buf - (inputStarts buf).length) blankInput, inputsEnd buf)
      else none :=
  Items.readAll_of_fits (fun _ hs => parseInput_eq hbuf hs) _ _

/-- The number of outputs is read in the buffer, or it is zero. -/
theorem inputsEnd_cases (hbuf : buf.length ≤ PTRDIFF_MAX)
    (h : ∀ s ∈ inputStarts buf, scriptEnd buf (s + 36) + 4 < 2 ^ 64) :
    inputsEnd buf ≤ buf.length ∨ outCount buf = 0 ∧ outputsEnd buf = inputsEnd buf + 1 ∧
      inputsEnd buf + 1 ≤ 2 ^ 64 := by
  have hmax : PTRDIFF_MAX < 2 ^ 63 := by decide
  by_cases hle : inputsEnd buf ≤ buf.length
  · exact Or.inl hle
  · have hlt : inputsEnd buf < 2 ^ 64 := by
      refine Items.stop_lt ?_ fun s hs => inputEnd_lt hbuf (h s hs)
      have hlen := varInt_snd_le (buf.drop 4)
      omega
    have hnil : varInt (buf.drop (inputsEnd buf)) = (0, 1) := by
      rw [List.drop_of_length_le (by omega)]
      rfl
    refine Or.inr ⟨by rw [outCount, hnil], ?_, hlt⟩
    rw [outputsEnd, outCount, hnil]
    rfl

/-- The outputs are read, or one of them is not. -/
theorem readOutputs_eq (H : Hashes) (hbuf : buf.length ≤ PTRDIFF_MAX)
    (h : ∀ s ∈ inputStarts buf, scriptEnd buf (s + 36) + 4 < 2 ^ 64) :
    Items.readAll buf.length (parseOutput H buf) ({} : BRTxOutput) (outCount buf)
        (wrap64 (inputsEnd buf + (varInt (buf.drop (inputsEnd buf))).2)) =
      if ∀ s ∈ outputStarts buf, scriptEnd buf (s + 8) < 2 ^ 64 then
        some ((outputStarts buf).map (outputAt H buf) ++
          List.replicate (outCount buf - (outputStarts buf).length) ({} : BRTxOutput),
          wrap64 (outputsEnd buf))
      else none := by
  have hmax : PTRDIFF_MAX < 2 ^ 63 := by decide
  rcases inputsEnd_cases hbuf h with hle | ⟨hzero, hend, -⟩
  · have hlen := varInt_snd_le (buf.drop (inputsEnd buf))
    have hread : Items.readAll buf.length (parseOutput H buf) ({} : BRTxOutput) (outCount buf)
        (inputsEnd buf + (varInt (buf.drop (inputsEnd buf))).2) =
          if ∀ s ∈ outputStarts buf, scriptEnd buf (s + 8) < 2 ^ 64 then
            some ((outputStarts buf).map (outputAt H buf) ++
              List.replicate (outCount buf - (outputStarts buf).length) ({} : BRTxOutput),
              outputsEnd buf)
          else none :=
      Items.readAll_of_fits (fun _ hs => parseOutput_eq hbuf hs) _ _
    rw [wrap64_of_lt (by omega), hread]
    by_cases hall : ∀ s ∈ outputStarts buf, scriptEnd buf (s + 8) < 2 ^ 64
    · have hlt : outputsEnd buf < 2 ^ 64 :=
        Items.stop_lt (by omega) fun s hs => hall s hs
      rw [if_pos hall, if_pos hall, wrap64_of_lt hlt]
    · rw [if_neg hall, if_neg hall]
  · have hnone : outputStarts buf = [] := by
      rw [outputStarts, hzero]
      rfl
    have hone : (varInt (buf.drop (inputsEnd buf))).2 = 1 := by
      rw [outputsEnd, hzero] at hend
      exact Nat.add_left_cancel hend
    have hall : ∀ s ∈ outputStarts buf, scriptEnd buf (s + 8) < 2 ^ 64 := by
      intro s hs
      rw [hnone] at hs
      cases hs
    rw [if_pos hall, hnone, hzero, hend, hone]
    rfl

/-- Behind the outputs of a short buffer no offset wraps around. -/
theorem outputsEnd_lt_of_short (h : buf.length < 9) : outputsEnd buf < 2 ^ 63 := by
  have hscript : ∀ s ≤ buf.length, ∀ k ≤ 36, scriptEnd buf (s + k) < 2 ^ 62 := by
    intro s hs k hk
    have hval : (varInt (buf.drop (s + k))).1 < 2 ^ 32 :=
      varInt_lt_of_short (by rw [List.length_drop]; omega)
    have hlen := varInt_snd_le (buf.drop (s + k))
    rw [scriptEnd, scriptStart]
    omega
  have hinputs : inputsEnd buf < 2 ^ 62 + 12 := by
    refine Items.stop_lt ?_ fun s hs => ?_
    · have hlen := varInt_snd_le (buf.drop 4)
      omega
    · have hlt := hscript s (Items.le_of_mem_starts hs) 36 (le_refl _)
      rw [inputEnd]
      split_ifs <;> omega
  refine Items.stop_lt ?_ fun s hs => ?_
  · have hlen := varInt_snd_le (buf.drop (inputsEnd buf))
    omega
  · have hlt := hscript s (Items.le_of_mem_starts hs) 8 (by decide)
    rw [outputEnd]
    omega

theorem readLockTime_eq (hbuf : buf.length ≤ PTRDIFF_MAX)
    (h : ∀ s ∈ inputStarts buf, scriptEnd buf (s + 36) + 4 < 2 ^ 64)
    (h' : ∀ s ∈ outputStarts buf, scriptEnd buf (s + 8) < 2 ^ 64) :
    getField buf (wrap64 (outputsEnd buf)) 4 =
      if outputsEnd buf + 4 < 2 ^ 64 ∨ outputsEnd buf = 2 ^ 64 then
        some (fieldAt buf (wrap64 (outputsEnd buf)) 4) else none := by
  have hmax : PTRDIFF_MAX < 2 ^ 63 := by decide
  have hle : outputsEnd buf ≤ 2 ^ 64 := by
    rcases inputsEnd_cases hbuf h with hle | ⟨-, hend, hle⟩
    · have hlen := varInt_snd_le (buf.drop (inputsEnd buf))
      exact (Items.stop_lt (by omega) fun s hs => h' s hs).le
    · rw [hend]
      exact hle
  by_cases hlt : outputsEnd buf + 4 < 2 ^ 64
  · rw [if_pos (Or.inl hlt), wrap64_of_lt (by omega), getField_eq hlt]
  · by_cases hend : outputsEnd buf = 2 ^ 64
    · have hzero : wrap64 (outputsEnd buf) = 0 := by rw [hend]; rfl
      rw [if_pos (Or.inr hend), hzero, getField_eq (by decide)]
    · have hlen : 9 ≤ buf.length := by
        by_contra hshort
        have hsmall := outputsEnd_lt_of_short (Nat.lt_of_not_le hshort)
        omega
      rw [if_neg (not_or.2 ⟨hlt, hend⟩), wrap64_of_lt (by omega)]
      exact getField_wrapped (by omega) (by omega) (by omega)

/-- Everything is read in the buffer, or something is not. -/
theorem parseFields_of_fits (H : Hashes) (hbuf : buf.length ≤ PTRDIFF_MAX) (h : SizesFit buf) :
    parseFields H buf = some (fieldsAt buf H, wrap64 (wrap64 (outputsEnd buf) + 4)) := by
  have hin : arraySetCount TX_INPUT_STRUCT_SIZE (inCount buf) = some () := if_pos h.inCount
  have hout : arraySetCount TX_OUTPUT_STRUCT_SIZE (outCount buf) = some () := if_pos h.outCount
  have hinputs := readInputs_eq H hbuf
  have houtputs := readOutputs_eq H hbuf h.inputs
  have hlock := readLockTime_eq hbuf h.inputs h.outputs
  rw [if_pos h.inputs] at hinputs
  rw [if_pos h.outputs] at houtputs
  rw [if_pos h.lockTime] at hlock
  rw [inCount] at hin hinputs
  rw [outCount] at hout houtputs
  rw [parseFields, getField_eq (by decide)]
  simp only [Option.bind_eq_bind, Option.bind_some]
  rw [hin, Option.bind_some, hinputs, Option.bind_some]
  dsimp only
  rw [hout, Option.bind_some, houtputs, Option.bind_some]
  dsimp only
  rw [hlock]
  rfl

theorem parseFields_of_not_fits (H : Hashes) (hbuf : buf.length ≤ PTRDIFF_MAX)
    (h : ¬ SizesFit buf) : parseFields H buf = none := by
  rw [parseFields, getField_eq (by decide)]
  simp only [Option.bind_eq_bind, Option.bind_some]
  have hinputs := readInputs_eq H hbuf
  rw [inCount] at hinputs
  rw [hinputs]
  by_cases hin : inCount buf * TX_INPUT_STRUCT_SIZE + 16 ≤ PTRDIFF_MAX
  swap
  · have hfail : arraySetCount TX_INPUT_STRUCT_SIZE (varInt (buf.drop 4)).1 = none := if_neg hin
    rw [hfail]
    rfl
  have hok : arraySetCount TX_INPUT_STRUCT_SIZE (varInt (buf.drop 4)).1 = some () := if_pos hin
  rw [hok, Option.bind_some]
  by_cases hstarts : ∀ s ∈ inputStarts buf, scriptEnd buf (s + 36) + 4 < 2 ^ 64
  swap
  · rw [if_neg hstarts]
    rfl
  have houtputs := readOutputs_eq H hbuf hstarts
  rw [outCount] at houtputs
  rw [if_pos hstarts, Option.bind_some]
  dsimp only
  rw [houtputs]
  by_cases hout : outCount buf * TX_OUTPUT_STRUCT_SIZE + 16 ≤ PTRDIFF_MAX
  swap
  · have hfail : arraySetCount TX_OUTPUT_STRUCT_SIZE (varInt (buf.drop (inputsEnd buf))).1 = none :=
      if_neg hout
    rw [hfail]
    rfl
  have hok : arraySetCount TX_OUTPUT_STRUCT_SIZE (varInt (buf.drop (inputsEnd buf))).1 = some () :=
    if_pos hout
  rw [hok, Option.bind_some]
  by_cases hstarts' : ∀ s ∈ outputStarts buf, scriptEnd buf (s + 8) < 2 ^ 64
  swap
  · rw [if_neg hstarts']
    rfl
  rw [if_pos hstarts', Option.bind_some]
  dsimp only
  have hlock : ¬ (outputsEnd buf + 4 < 2 ^ 64 ∨ outputsEnd buf = 2 ^ 64) := fun hlock =>
    h ⟨hin, hstarts, hout, hstarts', hlock⟩
  rw [readLockTime_eq hbuf hstarts hstarts', if_neg hlock]
  rfl

end BRTransaction

end RavenWallet
