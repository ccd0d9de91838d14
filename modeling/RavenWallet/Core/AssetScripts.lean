/-
  What the asset script builders write, against the rest of the script code.

  `assetScript_canonical`: the builders write the push length as a single
  byte, which is the canonical push of the asset data exactly if these are
  shorter than 76 bytes.
-/
import RavenWallet.Core.Assets

namespace RavenWallet

/-- A name of the length that is recorded, from 1 to 31 bytes. -/
structure BRAsset.Named (asset : BRAsset) : Prop where
  length : asset.name.length = asset.nameLen
  pos : 0 < asset.nameLen
  le : asset.nameLen ≤ 31

/-- The hash of the asset, if it has one, is the encoding of 34 bytes. -/
def BRAsset.ValidIPFS (asset : BRAsset) : Prop :=
  asset.hasIPFS = 1 → (decodeIPFS asset.IPFSHash).length = IPFS_HASH_LENGTH

namespace BRAddress

variable (H : Hashes)

/-- A valid pay-to-pubkey-hash address. -/
def IsP2PKH (addr : BRAddress) : Prop :=
  isValid H addr = true ∧ (decode H addr).headD 0 = RAVENCOIN_PUBKEY_ADDRESS

/-- An address is canonical if it is the encoding of what it decodes to. -/
def Canonical (addr : BRAddress) : Prop :=
  base58CheckEncode H ADDRESS_SIZE (decode H addr) = addr

instance (addr : BRAddress) : Decidable (IsP2PKH H addr) :=
  inferInstanceAs (Decidable (_ ∧ _))

instance (addr : BRAddress) : Decidable (Canonical H addr) :=
  inferInstanceAs (Decidable (_ = _))

variable {H} {addr : BRAddress}

theorem IsP2PKH.decode_eq (h : IsP2PKH H addr) : ∃ h20, h20.length = 20 ∧
    decode H addr = RAVENCOIN_PUBKEY_ADDRESS :: h20 ∧ scriptPubKey H addr = p2pkh h20 := by
  obtain ⟨hv, hh⟩ := h
  have hl : (decode H addr).length = 21 := by
    simp only [isValid, Bool.and_eq_true, decide_eq_true_eq] at hv
    exact hv.1
  rcases hd : decode H addr with _ | ⟨v, h20⟩
  · rw [hd] at hl; cases hl
  · rw [hd, List.headD_cons] at hh
    rw [hd, List.length_cons] at hl
    subst hh
    refine ⟨h20, by omega, rfl, ?_⟩
    have hlen : (RAVENCOIN_PUBKEY_ADDRESS :: h20).length = 21 := hl
    unfold scriptPubKey
    simp only [hd, if_pos hlen, List.headD_cons, if_true, List.tail_cons]

end BRAddress

namespace AssetWriter

variable {H : Hashes} {b : AssetWriter} {asset : BRAsset} {addr : BRAddress}

/-- Applied to the script of `addr` in a buffer of the announced size, the builder adds a canonical
    push of the asset data, and the result is a script of `addr`. -/
def WritesCanonical (H : Hashes) (b : AssetWriter) (asset : BRAsset) (addr : BRAddress) : Prop :=
  ∀ rest : Bytes, 25 + rest.length = b.size asset → ∃ script n,
    b.set asset (addr.scriptPubKey H ++ rest) = some (script, n) ∧
    script.take n = addr.scriptPubKey H ++
      (OP_RVN_ASSET :: (scriptPushData (b.payload asset) ++ [OP_DROP])) ∧
    BRAddress.fromScriptPubKey H (script.take n) = addr

/-- Below 76 bytes a push is a length byte and the data. -/
theorem assetSuffix_eq_iff {payload : Bytes} :
    assetSuffix payload = OP_RVN_ASSET :: (scriptPushData payload ++ [OP_DROP]) ↔
      payload.length < OP_PUSHDATA1.toNat := by
  constructor
  · intro h
    by_contra hlong
    have hlen := congrArg List.length h
    simp only [assetSuffix, List.length_cons, List.length_append, List.length_nil, scriptPushData,
      if_neg hlong] at hlen
    split_ifs at hlen
    · simp only [List.length_cons] at hlen; omega
    · simp only [List.length_cons, List.length_append, length_toLE] at hlen; omega
    · simp only [List.length_cons, List.length_append, length_toLE] at hlen; omega
  · intro h
    rw [assetSuffix, scriptPushData, if_pos h]
    rfl

/-- The three elements of the suffix. -/
theorem elements_assetSuffix {payload : Bytes} (h : payload.length < OP_PUSHDATA1.toNat) :
    ∃ elems, elements 3 (assetSuffix payload) = some elems ∧ elems.length = 3 := by
  have hdrop : elements 1 [OP_DROP] = some [[OP_DROP]] := elements_op (by decide) rfl
  exact ⟨_, elements_op (by decide) (elements_push h hdrop), rfl⟩

/-- A builder that fills its buffer up to the announced size writes a canonical push exactly if the
    asset data are short. -/
theorem writesCanonical_iff (hname : asset.Named) (hp : BRAddress.IsP2PKH H addr)
    (hs : (b.payload asset).length + 28 ≤ b.size asset) (hm : b.size asset ≤ MAX_SCRIPT_LENGTH) :
    WritesCanonical H b asset addr ↔
      (b.payload asset).length < OP_PUSHDATA1.toNat ∧ BRAddress.Canonical H addr := by
  obtain ⟨h20, hl, hdecode, hscript⟩ := hp.decode_eq
  have hset : ∀ rest : Bytes, 25 + rest.length = b.size asset → ∃ script n,
      b.set asset (addr.scriptPubKey H ++ rest) = some (script, n) ∧
      script.take n = addr.scriptPubKey H ++ assetSuffix (b.payload asset) := by
    intro rest hrest
    refine ⟨_, _, set_eq ?_ (Nat.le_of_eq hname.length.symm) (by omega) (by omega), ?_⟩
    · rw [hscript, BRAddress.length_p2pkh hl]
    · rw [← List.append_assoc]
      refine List.take_left' ?_
      rw [List.length_append, hscript, BRAddress.length_p2pkh hl]
      simp only [assetSuffix, List.length_cons, List.length_append, List.length_nil]
  have haddr : (b.payload asset).length < OP_PUSHDATA1.toNat →
      BRAddress.fromScriptPubKey H (addr.scriptPubKey H ++ assetSuffix (b.payload asset)) =
        base58CheckEncode H ADDRESS_SIZE (addr.decode H) := by
    intro hshort
    obtain ⟨elems, helems, hcount⟩ := elements_assetSuffix hshort
    have hlen : (assetSuffix (b.payload asset)).length = (b.payload asset).length + 3 := by
      simp [assetSuffix]
    rw [hscript, hdecode]
    exact BRAddress.fromScriptPubKey_p2pkh hl helems (by omega) (by omega) (Or.inr hcount)
  constructor
  · intro h
    obtain ⟨script, n, hw, htake, ha⟩ :=
      h (List.replicate (b.size asset - 25) 0) (by rw [List.length_replicate]; omega)
    obtain ⟨script', n', hw', htake'⟩ :=
      hset (List.replicate (b.size asset - 25) 0) (by rw [List.length_replicate]; omega)
    rw [hw, Option.some.injEq, Prod.mk.injEq] at hw'
    obtain ⟨rfl, rfl⟩ := hw'
    have hshort := assetSuffix_eq_iff.1 (List.append_cancel_left (htake'.symm.trans htake))
    refine ⟨hshort, ?_⟩
    rw [htake', haddr hshort] at ha
    exact ha
  · rintro ⟨hshort, hcanon⟩ rest hrest
    obtain ⟨script, n, hw, htake⟩ := hset rest hrest
    refine ⟨script, n, hw, ?_, ?_⟩
    · rw [htake, assetSuffix_eq_iff.2 hshort]
    · rw [htake, haddr hshort]
      exact hcanon

end AssetWriter

/-! ## Lengths of the asset data -/

namespace AssetScript

variable {asset : BRAsset}

/-- The bytes of the hash that a builder adds, whatever it decodes to. -/
def hashLength (asset : BRAsset) : ℕ :=
  if asset.hasIPFS = 1 then (decodeIPFS asset.IPFSHash).length else 0

theorem length_ipfsBytes : asset.ipfsBytes.flatten.length = hashLength asset := by
  unfold BRAsset.ipfsBytes hashLength
  split_ifs with h
  · simp
  · rfl

/-- The bytes that a builder adds to the name, with a hash of any length. -/
def added (asset : BRAsset) : AssetScript → ℕ
  | newAsset => 16 + hashLength asset
  | transfer => 13
  | reissue => 15 + hashLength asset
  | owner => 6
  | transferOwner => 13
  | transferOwnerWithoutTag => 14

/-- The asset data, as long as the length of the name takes one byte. -/
theorem length_payload_added (hname : asset.nameLen ≤ asset.name.length)
    (hsmall : asset.nameLen + 1 < 0xfd) (b : AssetScript) :
    (b.writer.payload asset).length = asset.nameLen + b.added asset := by
  have hvarInt : ∀ i, i < 0xfd → (varIntSet (25 + 6) i).length = 1 := fun i hi => by
    rw [varIntSet_small (by omega) hi]; rfl
  have hn : asset.nameBytes.length = asset.nameLen := List.length_take_of_le hname
  have hi := @length_ipfsBytes asset
  have h₁ := hvarInt asset.nameLen (by omega)
  have h₂ := hvarInt (asset.nameLen + 1) (by omega)
  rw [AssetWriter.length_payload]
  cases b with
  | newAsset =>
    simp only [writer, BRTxOutput.setNewAssetScript, List.flatten_append, List.flatten_cons,
      List.flatten_nil, List.length_append, List.length_cons, List.length_nil, h₁, hn, hi,
      BRAsset.amountBytes, length_toLE, added]
    omega
  | reissue =>
    simp only [writer, BRTxOutput.setReissueAssetScript, List.flatten_append, List.flatten_cons,
      List.flatten_nil, List.length_append, List.length_cons, List.length_nil, h₁, hn, hi,
      BRAsset.amountBytes, length_toLE, added]
    omega
  | owner =>
    simp only [writer, BRTxOutput.setOwnerAssetScript, List.flatten_cons, List.flatten_nil,
      List.length_append, List.length_nil, h₂, hn, added, OWNER_TAG, List.length_cons]
    omega
  | transferOwnerWithoutTag =>
    simp only [writer, BRTxOutput.setTransferOwnerAssetScriptWithoutTag, List.flatten_cons,
      List.flatten_nil, List.length_append, List.length_nil, h₂, hn, added, OWNER_TAG,
      OWNER_LENGTH, length_toLE, List.length_cons]
    omega
  | _ =>
    simp only [writer, BRTxOutput.setTransferAssetScript, BRTxOutput.setTransferOwnerAssetScript,
      List.flatten_cons, List.flatten_nil, List.length_append, List.length_nil, h₁, hn,
      BRAsset.amountBytes, length_toLE, added]
    omega

/-- The bytes that a builder adds to the name. -/
def overhead (asset : BRAsset) : AssetScript → ℕ
  | newAsset => 16 + if asset.hasIPFS = 1 then IPFS_HASH_LENGTH else 0
  | transfer => 13
  | reissue => 15 + if asset.hasIPFS = 1 then IPFS_HASH_LENGTH else 0
  | owner => 6
  | transferOwner => 13
  | transferOwnerWithoutTag => 14

theorem added_eq (hv : asset.ValidIPFS) (b : AssetScript) : b.added asset = b.overhead asset := by
  have hhash : hashLength asset = if asset.hasIPFS = 1 then IPFS_HASH_LENGTH else 0 := by
    unfold hashLength
    split_ifs with h
    · exact hv h
    · rfl
  cases b with
  | newAsset => rw [added, overhead, hhash]
  | reissue => rw [added, overhead, hhash]
  | _ => rfl

theorem length_payload (hname : asset.Named) (hv : asset.ValidIPFS) (b : AssetScript) :
    (b.writer.payload asset).length = asset.nameLen + b.overhead asset := by
  have hle := hname.le
  rw [length_payload_added (Nat.le_of_eq hname.length.symm) (by omega), added_eq hv]

/-- The announced size has room for the suffix. -/
theorem size_le (hname : asset.Named) (b : AssetScript) :
    asset.nameLen + b.overhead asset + 28 ≤ b.writer.size asset ∧
      b.writer.size asset ≤ MAX_SCRIPT_LENGTH := by
  have hle := hname.le
  have hmax : MAX_SCRIPT_LENGTH = 256 := rfl
  have hipfs : IPFS_HASH_LENGTH = 34 := rfl
  cases b with
  | newAsset =>
    simp only [overhead, writer, BRTxOutput.setNewAssetScript]
    split_ifs with h₁ h₀ <;> simp_all <;> omega
  | reissue =>
    simp only [overhead, writer, BRTxOutput.setReissueAssetScript]
    split_ifs with h₁ h₀ <;> simp_all <;> omega
  | owner =>
    simp only [overhead, writer, BRTxOutput.setOwnerAssetScript, OWNER_LENGTH]
    omega
  | transferOwnerWithoutTag =>
    simp only [overhead, writer, BRTxOutput.setTransferOwnerAssetScriptWithoutTag, OWNER_LENGTH]
    omega
  | _ =>
    simp only [overhead, writer, BRTxOutput.setTransferAssetScript,
      BRTxOutput.setTransferOwnerAssetScript]
    omega

end AssetScript

/-- The builders write canonical pushes, and scripts of the address, exactly for canonical addresses
    and assets without a hash or with a name short enough for it. -/
theorem assetScript_canonical {H : Hashes} {asset : BRAsset} {addr : BRAddress}
    (hname : asset.Named) (hv : asset.ValidIPFS) (hp : BRAddress.IsP2PKH H addr)
    (b : AssetScript) : AssetWriter.WritesCanonical H b.writer asset addr ↔
      (asset.hasIPFS = 1 → (b = .newAsset → asset.nameLen < 26) ∧
        (b = .reissue → asset.nameLen < 27)) ∧ BRAddress.Canonical H addr := by
  have hlen := b.length_payload hname hv
  obtain ⟨hs, hm⟩ := b.size_le hname
  rw [AssetWriter.writesCanonical_iff hname hp (by omega) hm, hlen]
  refine and_congr_left fun _ => ?_
  have hle := hname.le
  have h76 : OP_PUSHDATA1.toNat = 76 := rfl
  have hipfs : IPFS_HASH_LENGTH = 34 := rfl
  by_cases hi : asset.hasIPFS = 1
  · cases b <;> simp [AssetScript.overhead, hi] <;> omega
  · cases b <;> simp [AssetScript.overhead, hi] <;> omega

/-- What the burn address encodes: the version and the hash. -/
def burnData : Bytes :=
  [60, 240, 83, 37, 233, 13, 82, 17, 222, 248, 107, 133, 108, 149, 105, 229, 72, 8, 32, 18, 144]

/-- Hash functions that are right on `burnData`. -/
def sampleHashes : Hashes where
  sha256_2 data :=
    if data = burnData then
      [146, 211, 91, 232, 59, 235, 235, 131, 252, 50, 54, 107, 132, 40, 254, 125, 132, 219, 199, 80,
        82, 150, 17, 101, 57, 250, 5, 219, 46, 109, 169, 144]
    else List.replicate 32 0
  hash160 _ := List.replicate 20 0
  length_sha256_2 data := by split_ifs <;> rfl
  length_hash160 _ := rfl

/-- A new asset with a hash and a name of 26 bytes. -/
def longAsset : BRAsset :=
  { name := List.replicate 26 65, nameLen := 26, amount := 500000000, hasIPFS := 1
    IPFSHash := "QmNxU3eoXFGo8tPm1SZB6tnC7w8JMzTkgKvWkrh7a3E3oq".toList.map fun c =>
      UInt8.ofNat c.toNat }

theorem longAsset_named : longAsset.Named := ⟨rfl, by decide, by decide⟩

theorem longAsset_validIPFS : longAsset.ValidIPFS := fun _ => by decide +kernel

theorem isP2PKH_burn : BRAddress.IsP2PKH sampleHashes strGlobalBurnAddressMainNet := by
  decide +kernel

/-- The asset data of `longAsset` take 76 bytes, which is `OP_PUSHDATA1`. -/
theorem not_assetScript_canonical :
    ¬ ∀ (H : Hashes) (asset : BRAsset) (addr : BRAddress) (b : AssetScript), asset.Named →
      asset.ValidIPFS → BRAddress.IsP2PKH H addr → BRAddress.Canonical H addr →
      AssetWriter.WritesCanonical H b.writer asset addr := by
  intro h
  have hw := h sampleHashes longAsset strGlobalBurnAddressMainNet .newAsset longAsset_named
    longAsset_validIPFS isP2PKH_burn (by decide +kernel)
  have hlen := AssetScript.length_payload longAsset_named longAsset_validIPFS .newAsset
  have h76 : longAsset.nameLen + AssetScript.newAsset.overhead longAsset = 76 := rfl
  have hsize : AssetScript.newAsset.writer.size longAsset = 104 := rfl
  have hmax : MAX_SCRIPT_LENGTH = 256 := rfl
  have hshort := ((AssetWriter.writesCanonical_iff longAsset_named isP2PKH_burn
    (by omega) (by omega)).1 hw).1
  rw [hlen, h76] at hshort
  exact absurd hshort (by decide)

theorem assetScript_canonical_burn :
    AssetWriter.WritesCanonical sampleHashes AssetScript.transfer.writer longAsset
      strGlobalBurnAddressMainNet :=
  (assetScript_canonical longAsset_named longAsset_validIPFS isP2PKH_burn .transfer).2
    ⟨fun _ => ⟨by decide, by decide⟩, by decide +kernel⟩

end RavenWallet
