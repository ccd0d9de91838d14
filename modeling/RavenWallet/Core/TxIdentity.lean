/-
  The hash of a parsed transaction.

  A signed transaction is hashed as the bytes it was read from.
  `canonical_iff`: these are the bytes it is serialized to if and only if each of
  its lengths has the shortest form.
-/
import RavenWallet.Core.TxBounds

namespace RavenWallet.BRTransaction

variable (H : Hashes) (buf : Bytes)

/-- The integer at `off` has the shortest form. -/
def MinimalAt (off : ℕ) : Prop := (varInt (buf.drop off)).2 = varIntSize (varInt (buf.drop off)).1

instance (off : ℕ) : Decidable (MinimalAt buf off) := inferInstanceAs (Decidable (_ = _))

/-- The numbers of inputs and outputs and the lengths of the scripts have the shortest form. -/
structure Minimal : Prop where
  inCount : MinimalAt buf 4
  inputs : ∀ s ∈ inputStarts buf, MinimalAt buf (s + 36)
  outCount : MinimalAt buf (inputsEnd buf)
  outputs : ∀ s ∈ outputStarts buf, MinimalAt buf (s + 8)

/-- The buffer begins with a signed transaction. -/
structure HoldsSigned : Prop where
  fits : SizesFit buf
  assets : (fieldsAt buf H).AssetsFit
  inCount_ne : inCount buf ≠ 0
  complete : Complete buf
  signed : ∀ s ∈ inputStarts buf, BRAddress.isScriptPubKey (scriptAt buf (s + 36)) = false

/-- A signed transaction that is parsed is serialized to the bytes it was read from, which are
    those of its hash. -/
def Canonical : Prop :=
  ∀ tx off, parse H buf = some (some tx) → (parseFields H buf).map Prod.snd = some off →
    tx.isSigned → tx.serialize = buf.take off ∧ tx.txHash = get256 (H.sha256_2 tx.serialize)

variable {H buf} {off : ℕ}

/-! ## The signed transaction -/

section
variable (h : HoldsSigned H buf)
include h

/-- An input of a signed transaction has its signature. -/
theorem HoldsSigned.inputEnd_eq {s : ℕ} (hs : s ∈ inputStarts buf) :
    inputEnd buf s = scriptEnd buf (s + 36) + 4 := by
  rw [inputEnd, if_neg]
  rintro ⟨-, hp⟩
  rw [h.signed s hs] at hp
  cases hp

theorem HoldsSigned.inputAt_eq {s : ℕ} (hs : s ∈ inputStarts buf) : inputAt H buf s =
    { txHash := BitVec.ofNat 256 (fieldAt buf s 32)
      index := UInt32.ofNat (fieldAt buf (s + 32) 4)
      signature := some (scriptAt buf (s + 36))
      address := BRAddress.fromScriptSig H (scriptAt buf (s + 36))
      sequence := UInt32.ofNat (fieldAt buf (scriptEnd buf (s + 36)) 4) } := by
  have hend := h.complete.inputEnd_le hs
  rw [h.inputEnd_eq hs] at hend
  have hle : scriptEnd buf (s + 36) ≤ buf.length := by omega
  rw [inputAt, if_pos hle, h.signed s hs]
  rfl

end

theorem HoldsSigned.isSigned (h : HoldsSigned H buf) : (fieldsAt buf H).isSigned := by
  rw [BRTransaction.isSigned, h.complete.inputs_eq, List.all_eq_true]
  intro input hinput
  obtain ⟨s, hs, rfl⟩ := List.mem_map.1 hinput
  rw [h.inputAt_eq hs]
  rfl

/-! ## What is parsed -/

theorem parse_of_holdsSigned (hbuf : buf.length ≤ PTRDIFF_MAX) (h : HoldsSigned H buf) :
    ∃ asset, parse H buf = some (some { fieldsAt buf H with
        asset, txHash := get256 (H.sha256_2 (buf.take (outputsEnd buf + 4))) }) := by
  have hmax : PTRDIFF_MAX < 2 ^ 63 := by decide
  have hcomplete : outputsEnd buf + 4 ≤ buf.length := h.complete
  obtain ⟨asset, hassets⟩ := Option.isSome_iff_exists.1 (parseAssets_isSome.2 h.assets)
  have hne : (fieldsAt buf H).inputs ≠ [] := by
    intro hnil
    rw [h.complete.inputs_eq, List.map_eq_nil_iff] at hnil
    have hlen := h.complete.length_inputStarts
    rw [hnil] at hlen
    exact h.inCount_ne hlen.symm
  have hsigned : ((fieldsAt buf H).inputs.all fun i => i.script.isNone) = true := by
    rw [h.complete.inputs_eq, List.all_eq_true]
    intro input hinput
    obtain ⟨s, hs, rfl⟩ := List.mem_map.1 hinput
    rw [h.inputAt_eq hs]
    rfl
  refine ⟨asset, ?_⟩
  rw [parse_of_fits H hbuf h.fits, hassets, Option.map_some,
    wrap64_of_lt (by omega : outputsEnd buf < 2 ^ 64), wrap64_of_lt (by omega),
    if_neg (by rintro (hnil | hgt); exacts [hne hnil, by omega]), if_pos hsigned]

theorem holdsSigned_of_parse (hbuf : buf.length ≤ PTRDIFF_MAX) {tx : BRTransaction}
    (h : parse H buf = some (some tx)) (hs : tx.isSigned) : HoldsSigned H buf := by
  have hmax : PTRDIFF_MAX < 2 ^ 63 := by decide
  have hfit := sizesFit_of_parse hbuf h
  have hassets := assetsFit_of_parse hbuf h
  obtain ⟨hne, hle, asset, txHash, rfl⟩ := parse_eq_some hbuf h
  have hall : ∀ input ∈ (fieldsAt buf H).inputs, input.signature.isSome := List.all_eq_true.1 hs
  have hcount : inCount buf ≠ 0 := by
    intro hzero
    refine hne ?_
    rw [fieldsAt, inputStarts, hzero]
    rfl
  have hread : ∀ s ∈ inputStarts buf, scriptEnd buf (s + 36) ≤ buf.length ∧
      BRAddress.isScriptPubKey (scriptAt buf (s + 36)) = false := by
    intro s hs
    have hsig := hall _ (List.mem_append.2 (Or.inl (List.mem_map_of_mem hs)))
    rw [inputAt] at hsig
    split_ifs at hsig with hend hp
    · cases hsig
    · exact ⟨hend, Bool.eq_false_iff.2 hp⟩
    · cases hsig
  have hcomplete := complete_of_parse hbuf hfit hle fun s hs => (hread s hs).1
  exact ⟨hfit, hassets, hcount, hcomplete, fun s hs => (hread s hs).2⟩

/-! ## What is serialized -/

/-- The bytes of a script and its length. -/
theorem drop_script (h : scriptEnd buf off ≤ buf.length) (hmin : MinimalAt buf off) :
    buf.drop off = varIntBytes (scriptAt buf off).length ++ (scriptAt buf off ++
      buf.drop (scriptEnd buf off)) := by
  have hfits : (varInt (buf.drop off)).2 ≤ (buf.drop off).length := by
    rw [scriptEnd, scriptStart] at h
    rw [List.length_drop]
    omega
  have hlen : (scriptAt buf off).length = (varInt (buf.drop off)).1 := by
    rw [scriptAt]
    refine List.length_take_of_le ?_
    rw [scriptEnd] at h
    rw [List.length_drop]
    omega
  have hint := varIntBytes_varInt hfits hmin
  rw [List.drop_drop, ← scriptStart] at hint
  rw [hlen, scriptAt, scriptEnd, ← List.drop_drop, List.take_append_drop, hint]

/-- The bytes of a varint at which the buffer goes on. -/
theorem drop_varInt (h : off + (varInt (buf.drop off)).2 ≤ buf.length) (hmin : MinimalAt buf off) :
    buf.drop off = varIntBytes (varInt (buf.drop off)).1 ++
      buf.drop (off + (varInt (buf.drop off)).2) := by
  have hfits : (varInt (buf.drop off)).2 ≤ (buf.drop off).length := by
    rw [List.length_drop]
    omega
  have hint := varIntBytes_varInt hfits hmin
  rw [List.drop_drop] at hint
  exact hint.symm

section
variable (h : HoldsSigned H buf)
include h

theorem HoldsSigned.inputData_eq {s : ℕ} (hs : s ∈ inputStarts buf) :
    inputData (inputAt H buf s) = toLE 32 (fieldAt buf s 32) ++ (toLE 4 (fieldAt buf (s + 32) 4) ++
      (varIntBytes (scriptAt buf (s + 36)).length ++ (scriptAt buf (s + 36) ++
        toLE 4 (fieldAt buf (scriptEnd buf (s + 36)) 4)))) := by
  have hhash : (fieldAt buf s 32) < 2 ^ 256 := fieldAt_lt s 32
  have hindex : (fieldAt buf (s + 32) 4) < 2 ^ 32 := fieldAt_lt (s + 32) 4
  have hseq : (fieldAt buf (scriptEnd buf (s + 36)) 4) < 2 ^ 32 := fieldAt_lt _ 4
  rw [h.inputAt_eq hs, inputData, if_neg (by simp), txInputData, set256, BitVec.toNat_ofNat,
    Nat.mod_eq_of_lt hhash, UInt32.toNat_ofNat_of_lt' hindex, UInt32.toNat_ofNat_of_lt' hseq]
  rfl

theorem HoldsSigned.outputData_eq {s : ℕ} (hs : s ∈ outputStarts buf) :
    txOutputData (outputAt H buf s) = toLE 8 (fieldAt buf s 8) ++
      (varIntBytes (scriptAt buf (s + 8)).length ++ scriptAt buf (s + 8)) := by
  have hamount : (fieldAt buf s 8) < 2 ^ 64 := fieldAt_lt s 8
  rw [h.complete.outputAt_eq hs, txOutputData, UInt64.toNat_ofNat_of_lt' hamount]
  rfl

theorem HoldsSigned.drop_input {s : ℕ} (hs : s ∈ inputStarts buf) (hmin : MinimalAt buf (s + 36)) :
    buf.drop s = inputData (inputAt H buf s) ++ buf.drop (inputEnd buf s) := by
  have hend := h.complete.inputEnd_le hs
  have heq := h.inputEnd_eq hs
  have hstart : s + 36 ≤ scriptEnd buf (s + 36) := by
    rw [scriptEnd, scriptStart]
    omega
  have h36 : s + 32 + 4 = s + 36 := rfl
  rw [heq] at hend
  rw [h.inputData_eq hs, heq, drop_field (by omega : s + 32 ≤ buf.length),
    drop_field (by omega : s + 32 + 4 ≤ buf.length), h36, drop_script (by omega) hmin,
    drop_field hend]
  simp only [List.append_assoc]

theorem HoldsSigned.drop_output {s : ℕ} (hs : s ∈ outputStarts buf) (hmin : MinimalAt buf (s + 8)) :
    buf.drop s = txOutputData (outputAt H buf s) ++ buf.drop (outputEnd buf s) := by
  have hend : scriptEnd buf (s + 8) ≤ buf.length := h.complete.outputEnd_le hs
  have hstart : s + 8 ≤ scriptEnd buf (s + 8) := by
    rw [scriptEnd, scriptStart]
    omega
  rw [h.outputData_eq hs, drop_field (by omega : s + 8 ≤ buf.length), drop_script hend hmin]
  simp only [List.append_assoc]
  rfl

theorem HoldsSigned.length_input {s : ℕ} (hs : s ∈ inputStarts buf) :
    s + (inputData (inputAt H buf s)).length ≤ inputEnd buf s ∧
      (s + (inputData (inputAt H buf s)).length = inputEnd buf s ↔ MinimalAt buf (s + 36)) := by
  have hend := h.complete.inputEnd_le hs
  have hle := varIntSize_le_snd (buf.drop (s + 36))
  rw [h.inputEnd_eq hs] at hend ⊢
  rw [h.inputData_eq hs, MinimalAt]
  simp only [List.length_append, length_toLE, length_varIntBytes]
  rw [length_scriptAt (by omega), scriptEnd, scriptStart]
  omega

theorem HoldsSigned.length_output {s : ℕ} (hs : s ∈ outputStarts buf) :
    s + (txOutputData (outputAt H buf s)).length ≤ outputEnd buf s ∧
      (s + (txOutputData (outputAt H buf s)).length = outputEnd buf s ↔ MinimalAt buf (s + 8)) := by
  have hend : scriptEnd buf (s + 8) ≤ buf.length := h.complete.outputEnd_le hs
  have hle := varIntSize_le_snd (buf.drop (s + 8))
  rw [h.outputData_eq hs, MinimalAt, outputEnd]
  simp only [List.length_append, length_toLE, length_varIntBytes]
  rw [length_scriptAt hend, scriptEnd, scriptStart]
  omega

theorem HoldsSigned.serialize_eq (hbuf : buf.length ≤ PTRDIFF_MAX) : (fieldsAt buf H).serialize = toLE 4 (fieldAt buf 0 4) ++
    (varIntBytes (inCount buf) ++
      ((inputStarts buf).flatMap (fun s => inputData (inputAt H buf s)) ++
        (varIntBytes (outCount buf) ++
          ((outputStarts buf).flatMap (fun s => txOutputData (outputAt H buf s)) ++
            toLE 4 (fieldAt buf (outputsEnd buf) 4))))) := by
  have hend : outputsEnd buf < 2 ^ 64 := by
    have hmax : PTRDIFF_MAX < 2 ^ 63 := by decide
    have hcomplete : outputsEnd buf + 4 ≤ buf.length := h.complete
    omega
  have hversion : fieldAt buf 0 4 < 2 ^ 32 := fieldAt_lt 0 4
  have hlock : fieldAt buf (outputsEnd buf) 4 < 2 ^ 32 := fieldAt_lt _ 4
  have hv : (fieldsAt buf H).version.toNat = fieldAt buf 0 4 :=
    UInt32.toNat_ofNat_of_lt' hversion
  have hl : (fieldsAt buf H).lockTime.toNat = fieldAt buf (outputsEnd buf) 4 := by
    rw [fieldsAt, wrap64_of_lt hend]
    exact UInt32.toNat_ofNat_of_lt' hlock
  rw [BRTransaction.serialize_eq, h.complete.inputs_eq, h.complete.outputs_eq, List.length_map, List.length_map,
    h.complete.length_inputStarts, h.complete.length_outputStarts, List.flatMap_map, List.flatMap_map, hv, hl]

/-- The serialized transaction is as long as the one in the buffer only if nothing gets shorter. -/
theorem HoldsSigned.minimal_of_length (hbuf : buf.length ≤ PTRDIFF_MAX)
    (hlen : (fieldsAt buf H).serialize.length = outputsEnd buf + 4) : Minimal buf := by
  have hin : ∀ s ∈ inputStarts buf, s + (inputData (inputAt H buf s)).length ≤ inputEnd buf s :=
    fun s hs => (h.length_input hs).1
  have hout : ∀ s ∈ outputStarts buf,
      s + (txOutputData (outputAt H buf s)).length ≤ outputEnd buf s :=
    fun s hs => (h.length_output hs).1
  have hinputs : 4 + (varInt (buf.drop 4)).2 +
      ((inputStarts buf).map fun s => (inputData (inputAt H buf s)).length).sum ≤ inputsEnd buf :=
    Items.stop_sum hin
  have houtputs : inputsEnd buf + (varInt (buf.drop (inputsEnd buf))).2 +
      ((outputStarts buf).map fun s => (txOutputData (outputAt H buf s)).length).sum ≤
        outputsEnd buf :=
    Items.stop_sum hout
  have hincount : varIntSize (inCount buf) ≤ (varInt (buf.drop 4)).2 := varIntSize_le_snd _
  have houtcount : varIntSize (outCount buf) ≤ (varInt (buf.drop (inputsEnd buf))).2 :=
    varIntSize_le_snd _
  rw [h.serialize_eq hbuf] at hlen
  simp only [List.length_append, length_toLE, length_varIntBytes, List.length_flatMap] at hlen
  have hin_eq : 4 + (varInt (buf.drop 4)).2 +
      ((inputStarts buf).map fun s => (inputData (inputAt H buf s)).length).sum =
        inputsEnd buf := by omega
  have hout_eq : inputsEnd buf + (varInt (buf.drop (inputsEnd buf))).2 +
      ((outputStarts buf).map fun s => (txOutputData (outputAt H buf s)).length).sum =
        outputsEnd buf := by omega
  refine ⟨?_, fun s hs => ?_, ?_, fun s hs => ?_⟩
  · exact (by omega : (varInt (buf.drop 4)).2 = varIntSize (inCount buf))
  · exact (h.length_input hs).2.1 ((Items.stop_sum_iff hin).1 hin_eq s hs)
  · exact (by omega : (varInt (buf.drop (inputsEnd buf))).2 = varIntSize (outCount buf))
  · exact (h.length_output hs).2.1 ((Items.stop_sum_iff hout).1 hout_eq s hs)

theorem HoldsSigned.serialize_of_minimal (hbuf : buf.length ≤ PTRDIFF_MAX) (hmin : Minimal buf) :
    (fieldsAt buf H).serialize = buf.take (outputsEnd buf + 4) := by
  have hcomplete : outputsEnd buf + 4 ≤ buf.length := h.complete
  have hle : inputsEnd buf ≤ outputsEnd buf := inputsEnd_le
  have hstart : 4 + (varInt (buf.drop 4)).2 + ((inputStarts buf).map fun _ => 0).sum ≤
      inputsEnd buf := Items.stop_sum fun s _ => le_inputEnd s
  have hstart' : inputsEnd buf + (varInt (buf.drop (inputsEnd buf))).2 +
      ((outputStarts buf).map fun _ => 0).sum ≤ outputsEnd buf :=
    Items.stop_sum fun s _ => le_outputEnd s
  have hversion : buf = toLE 4 (fieldAt buf 0 4) ++ buf.drop 4 := by
    have := drop_field (by omega : 0 + 4 ≤ buf.length)
    rwa [List.drop_zero] at this
  have hincount := drop_varInt (by omega : 4 + (varInt (buf.drop 4)).2 ≤ buf.length) hmin.inCount
  have hinputs : buf.drop (4 + (varInt (buf.drop 4)).2) =
      (inputStarts buf).flatMap (fun s => inputData (inputAt H buf s)) ++ buf.drop (inputsEnd buf) :=
    Items.drop_starts fun s hs => h.drop_input hs (hmin.inputs s hs)
  have houtcount := drop_varInt (by omega : inputsEnd buf + _ ≤ buf.length) hmin.outCount
  have houtputs : buf.drop (inputsEnd buf + (varInt (buf.drop (inputsEnd buf))).2) =
      (outputStarts buf).flatMap (fun s => txOutputData (outputAt H buf s)) ++
        buf.drop (outputsEnd buf) :=
    Items.drop_starts fun s hs => h.drop_output hs (hmin.outputs s hs)
  have hlock := drop_field hcomplete
  rw [← inCount] at hincount
  rw [← outCount] at houtcount
  have hall : (fieldsAt buf H).serialize ++ buf.drop (outputsEnd buf + 4) = buf := by
    rw [h.serialize_eq hbuf]
    simp only [List.append_assoc]
    rw [← hlock, ← houtputs, ← houtcount, ← hinputs, ← hincount, ← hversion]
  have htake := List.take_append_drop (outputsEnd buf + 4) buf
  exact List.append_cancel_right (hall.trans htake.symm)

end

theorem canonical_iff (H : Hashes) (buf : Bytes) (hbuf : buf.length ≤ PTRDIFF_MAX) :
    Canonical H buf ↔ (HoldsSigned H buf → Minimal buf) := by
  have hmax : PTRDIFF_MAX < 2 ^ 63 := by decide
  have hoff : ∀ h : HoldsSigned H buf,
      (parseFields H buf).map Prod.snd = some (outputsEnd buf + 4) := by
    intro h
    have hcomplete : outputsEnd buf + 4 ≤ buf.length := h.complete
    rw [parseFields_of_fits H hbuf h.fits, wrap64_of_lt (by omega : outputsEnd buf < 2 ^ 64),
      wrap64_of_lt (by omega)]
    rfl
  constructor
  · intro hcanon h
    obtain ⟨asset, hparse⟩ := parse_of_holdsSigned hbuf h
    obtain ⟨hser, -⟩ := hcanon _ _ hparse (hoff h) h.isSigned
    have hlen : (fieldsAt buf H).serialize.length = outputsEnd buf + 4 := by
      have htake := congrArg List.length hser
      rwa [List.length_take_of_le h.complete] at htake
    exact h.minimal_of_length hbuf hlen
  · intro hmin tx off hparse hoff' hs
    have h := holdsSigned_of_parse hbuf hparse hs
    obtain ⟨asset, hparse'⟩ := parse_of_holdsSigned hbuf h
    obtain rfl := Option.some.inj ((hoff h).symm.trans hoff')
    obtain rfl := Option.some.inj (Option.some.inj (hparse.symm.trans hparse'))
    have hser := h.serialize_of_minimal hbuf (hmin h)
    exact ⟨hser, congrArg (fun bytes => get256 (H.sha256_2 bytes)) hser.symm⟩

/-- `smallTx` with its number of inputs in three bytes. -/
def longCountTx : Bytes := smallTx.take 4 ++ ([0xfd, 1, 0] ++ smallTx.drop 5)

theorem not_canonical : ¬ ∀ (H : Hashes) (buf : Bytes), buf.length ≤ PTRDIFF_MAX →
    ∀ tx, parse H buf = some (some tx) → tx.isSigned →
      tx.txHash = get256 (H.sha256_2 tx.serialize) := by
  intro h
  have hparse : ((parse lengthHashes longCountTx).join.any fun tx => tx.isSigned &&
      decide (tx.txHash ≠ get256 (lengthHashes.sha256_2 tx.serialize))) = true := by decide +kernel
  obtain ⟨hsome, hbad⟩ := (Option.any_eq_true_iff_get _ _).1 hparse
  rw [Bool.and_eq_true, decide_eq_true_eq] at hbad
  exact hbad.2 (h lengthHashes longCountTx (by decide) _
    (Option.join_eq_some_iff.1 (Option.some_get hsome).symm) hbad.1)

theorem canonical_smallTx : Canonical lengthHashes smallTx :=
  (canonical_iff lengthHashes smallTx (by decide)).2 fun _ =>
    ⟨by decide +kernel, by decide +kernel, by decide +kernel, by decide +kernel⟩

end RavenWallet.BRTransaction
