/-
  Recognising issues and reissues (`IsNewAsset` and `IsReissueAsset` of BRAssets.c).

  Both look at the last outputs, and with `foreach` for the output that burns
  coins.  The macro divides the size of what it is given by that of an element,
  which is the length of an array; it is given a pointer.

  * `issues_unrecognised`: no transaction that creates or reissues an asset is
    recognised;
  * `creation_recognised_iff`, `reissue_recognised_iff`: a loop over all outputs
    would recognise it, wherever the burn output is.
-/
import RavenWallet.Core.AssetRoundTrip
import RavenWallet.Core.AssetSizes
import RavenWallet.Core.TxSign
import RavenWallet.Wallet.AssetFees

namespace RavenWallet

/-- `sizeof(BRTxOutput *)`. -/
def SIZEOF_TX_OUTPUT_PTR : ℕ := 8

/-- `sizeof(BRTxOutput)`. -/
def SIZEOF_TX_OUTPUT : ℕ := 64

/-- The number of elements that `foreach` visits. -/
def foreachSize : ℕ := SIZEOF_TX_OUTPUT_PTR / SIZEOF_TX_OUTPUT

def IssueAssetBurnAmount : UInt64 := 500 * COIN
def ReissueAssetBurnAmount : UInt64 := 100 * COIN

namespace BRTxOutput

/-- The amount is paid to the burn address. -/
def checkBurnTx (H : Hashes) (amount : UInt64) (burnAddress : BRAddress) (txOut : BRTxOutput) :
    Bool :=
  decide (txOut.amount = amount) && BRAddress.isValid H txOut.address &&
    decide (txOut.address = burnAddress)

/-- `CheckIssueBurnTx`. -/
def checkIssueBurnTx (H : Hashes) : BRTxOutput → Bool :=
  checkBurnTx H IssueAssetBurnAmount strIssueAssetBurnAddressMainNet

/-- `CheckReissueBurnTx`. -/
def checkReissueBurnTx (H : Hashes) : BRTxOutput → Bool :=
  checkBurnTx H ReissueAssetBurnAmount strReissueAssetBurnAddressMainNet

/-- `CheckIssueDataTx`. -/
def checkIssueDataTx (txOut : BRTxOutput) : Bool := isScriptAsset (txOut.script.getD [])

/-- `CheckOwnerDataTx`. -/
def checkOwnerDataTx (txOut : BRTxOutput) : Bool := isScriptOwnerAsset (txOut.script.getD [])

/-- `CheckReissueDataTx`. -/
def checkReissueDataTx (txOut : BRTxOutput) : Bool := isScriptReissueAsset (txOut.script.getD [])

/-- `CheckTransferOwnerTx`. -/
def checkTransferOwnerTx (txOut : BRTxOutput) : Bool :=
  isScriptTransferAsset (txOut.script.getD [])

end BRTxOutput

namespace BRTransaction

variable (H : Hashes) (size : ℕ) (tx : BRTransaction)

/-- `IsNewAsset`, with a loop over the first `size` outputs. -/
def isNewAssetIn : Bool :=
  decide (3 ≤ tx.outputs.length) &&
    tx.outputs[tx.outputs.length - 1]?.any BRTxOutput.checkIssueDataTx &&
    tx.outputs[tx.outputs.length - 2]?.any BRTxOutput.checkOwnerDataTx &&
    (tx.outputs.take size).any (BRTxOutput.checkIssueBurnTx H)

/-- `IsReissueAsset`, with loops over the first `size` outputs. -/
def isReissueAssetIn : Bool :=
  decide (3 ≤ tx.outputs.length) &&
    tx.outputs[tx.outputs.length - 1]?.any BRTxOutput.checkReissueDataTx &&
    (tx.outputs.take size).any BRTxOutput.checkTransferOwnerTx &&
    (tx.outputs.take size).any (BRTxOutput.checkReissueBurnTx H)

/-- `IsNewAsset`. -/
def isNewAsset : Bool := tx.isNewAssetIn H foreachSize

/-- `IsReissueAsset`. -/
def isReissueAsset : Bool := tx.isReissueAssetIn H foreachSize

variable {H size tx}

/-- A loop over a pointer visits no output. -/
theorem isNewAsset_eq_false : tx.isNewAsset H = false := by
  have hnone : tx.outputs.take foreachSize = [] := List.take_zero
  rw [isNewAsset, isNewAssetIn, hnone, List.any_nil, Bool.and_false]

theorem isReissueAsset_eq_false : tx.isReissueAsset H = false := by
  have hnone : tx.outputs.take foreachSize = [] := List.take_zero
  rw [isReissueAsset, isReissueAssetIn, hnone, List.any_nil, List.any_nil, Bool.and_false]

/-- What burns coins has another amount than an output for an asset. -/
theorem not_checkBurnTx {o : BRTxOutput} {amount : UInt64} {burnAddress : BRAddress}
    (hzero : o.amount = 0) (hne : amount ≠ 0) : o.checkBurnTx H amount burnAddress = false := by
  rw [BRTxOutput.checkBurnTx, hzero, decide_eq_false hne.symm]
  rfl

/-- So two outputs for assets add nothing that burns coins. -/
theorem any_checkBurnTx_append (outs : List BRTxOutput) {o o' : BRTxOutput} {amount : UInt64}
    {burnAddress : BRAddress} (hzero : o.amount = 0 ∧ o'.amount = 0) (hne : amount ≠ 0) :
    (outs ++ [o, o']).any (BRTxOutput.checkBurnTx H amount burnAddress) =
      outs.any (BRTxOutput.checkBurnTx H amount burnAddress) := by
  rw [List.any_append, List.any_cons, List.any_cons, not_checkBurnTx hzero.1 hne,
    not_checkBurnTx hzero.2 hne]
  simp

/-- With a loop over all outputs, an owner and an asset at the end are recognised if there is what
    burns coins before them. -/
theorem isNewAssetIn_append {outs : List BRTxOutput} {owner new : BRTxOutput}
    (h : tx.outputs = outs ++ [owner, new]) (howner : owner.checkOwnerDataTx)
    (hnew : new.checkIssueDataTx) (hzero : owner.amount = 0 ∧ new.amount = 0) :
    tx.isNewAssetIn H tx.outputs.length ↔ ∃ o ∈ outs, o.checkIssueBurnTx H := by
  have hlen : tx.outputs.length = outs.length + 2 := by rw [h]; simp
  have hlast : tx.outputs[tx.outputs.length - 1]? = some new := by
    rw [hlen, h, List.getElem?_append_right (by omega)]
    simp
  have hnext : tx.outputs[tx.outputs.length - 2]? = some owner := by
    rw [hlen, h, List.getElem?_append_right (by omega)]
    simp
  have hburn : tx.outputs.any (BRTxOutput.checkIssueBurnTx H) =
      outs.any (BRTxOutput.checkIssueBurnTx H) := by
    rw [h]
    exact any_checkBurnTx_append outs hzero (by decide)
  rw [isNewAssetIn, List.take_length, hlast, hnext, Option.any_some, Option.any_some, howner, hnew,
    hburn, hlen, ← List.any_eq_true]
  cases outs with
  | nil => simp
  | cons o outs => simp

/-- The same for a reissue, with the owner token that is sent back before the asset. -/
theorem isReissueAssetIn_append {outs : List BRTxOutput} {owner asset : BRTxOutput}
    (h : tx.outputs = outs ++ [owner, asset]) (howner : owner.checkTransferOwnerTx)
    (hasset : asset.checkReissueDataTx) (hzero : owner.amount = 0 ∧ asset.amount = 0) :
    tx.isReissueAssetIn H tx.outputs.length ↔ ∃ o ∈ outs, o.checkReissueBurnTx H := by
  have hlen : tx.outputs.length = outs.length + 2 := by rw [h]; simp
  have hlast : tx.outputs[tx.outputs.length - 1]? = some asset := by
    rw [hlen, h, List.getElem?_append_right (by omega)]
    simp
  have htransfer : tx.outputs.any BRTxOutput.checkTransferOwnerTx = true :=
    List.any_eq_true.2 ⟨owner, by rw [h]; simp, howner⟩
  have hburn : tx.outputs.any (BRTxOutput.checkReissueBurnTx H) =
      outs.any (BRTxOutput.checkReissueBurnTx H) := by
    rw [h]
    exact any_checkBurnTx_append outs hzero (by decide)
  rw [isReissueAssetIn, List.take_length, hlast, Option.any_some, hasset, htransfer, hburn, hlen,
    ← List.any_eq_true]
  cases outs with
  | nil => simp
  | cons o outs => simp

end BRTransaction

/-! ## The scripts of an issue -/

namespace AssetWriter

/-- The buffer of the announced size has room for what is written, and is not too long. -/
structure Fits (b : AssetWriter) (asset : BRAsset) : Prop where
  name : asset.nameLen ≤ asset.name.length
  room : (b.payload asset).length + 28 ≤ b.size asset
  max : b.size asset ≤ MAX_SCRIPT_LENGTH

end AssetWriter

namespace BRWallet

section
variable {H : Hashes} {env : Env} {fuel : ℕ} {fill : ℕ → ℕ → UInt8} {w w' : BRWallet}
  {asst : BRAsset} {rand : ℕ → ℕ} {amount : UInt64} {addr : BRAddress} {tx : BRTransaction}
  {b : AssetWriter}

/-- A script that is built for an address starts with the script of the address, and the suffix of
    the builder follows. -/
theorem builtScript_written {fill : ℕ → UInt8} {r : Bytes × ℕ} (hfits : b.Fits asst)
    (haddr : BRAddress.IsP2PKH H addr) (h : builtScript H asst b fill addr = some r) :
    ∃ head tail, head.length = 25 ∧ r.1 = writtenScript b asst head tail ∧
      r.2 = (b.payload asst).length + 28 := by
  obtain ⟨h20, hlen, -, hscript⟩ := haddr.decode_eq
  obtain ⟨hname, hroom, hmax⟩ := hfits
  have hhead : (BRAddress.scriptPubKey H addr).length = 25 := by
    rw [hscript, BRAddress.length_p2pkh hlen]
  rw [builtScript, Option.bind_eq_some_iff] at h
  obtain ⟨buf, hbuf, h⟩ := h
  obtain ⟨rest, hrest, rfl⟩ : ∃ rest : Bytes, 25 + rest.length = b.size asst ∧
      buf = BRAddress.scriptPubKey H addr ++ rest := by
    have hfill : ((List.range (b.size asst)).map fill).length = b.size asst := by simp
    refine ⟨((List.range (b.size asst)).map fill).drop 25, ?_, ?_⟩
    · rw [List.length_drop, hfill]
      omega
    · rw [poke, if_pos (by rw [hfill, hhead]; omega), hhead] at hbuf
      exact (Option.some.inj hbuf).symm
  rw [AssetWriter.set_eq hhead hname (by omega) (by omega)] at h
  obtain rfl := Option.some.inj h
  refine ⟨_, _, hhead, rfl, ?_⟩
  dsimp only
  omega

/-- What creates an asset: the transaction that burns coins, the owner and the asset. -/
theorem creation_outputs
    (h : w.createTxForRootAssetCreation H env fuel fill asst rand amount addr =
      some (w', some tx)) :
    ∃ w₁ base owner new,
      w.payForBurn H env fuel rand amount strIssueAssetBurnAddressMainNet = some (w₁, some base) ∧
      builtScript H asst BRTxOutput.setOwnerAssetScript (fill 0) addr = some owner ∧
      builtScript H asst BRTxOutput.setNewAssetScript (fill 1) addr = some new ∧
      tx.outputs = base.outputs ++ [
        { script := some owner.1, address := BRAddress.fromScriptPubKey H owner.1 },
        { script := some new.1, address := BRAddress.fromScriptPubKey H new.1 }] := by
  obtain ⟨⟨w₁, r⟩, hpaid, h⟩ := Option.bind_eq_some_iff.1 h
  cases r with
  | none => cases h
  | some base =>
    obtain ⟨owner, howner, h⟩ := Option.bind_eq_some_iff.1 h
    obtain ⟨new, hnew, h⟩ := Option.map_eq_some_iff.1 h
    obtain rfl := Option.some.inj (Prod.mk.inj h).2
    exact ⟨w₁, base, owner, new, hpaid, howner, hnew, List.append_assoc _ _ _⟩

/-- With a loop over all outputs, what creates an asset would be recognised if the output that burns
    coins was paid for as it was requested. -/
theorem creation_recognised_iff (howner : BRTxOutput.setOwnerAssetScript.Fits asst)
    (hnew : BRTxOutput.setNewAssetScript.Fits asst) (haddr : BRAddress.IsP2PKH H addr)
    (h : w.createTxForRootAssetCreation H env fuel fill asst rand amount addr =
      some (w', some tx)) :
    ∃ w₁ base,
      w.payForBurn H env fuel rand amount strIssueAssetBurnAddressMainNet = some (w₁, some base) ∧
      (tx.isNewAssetIn H tx.outputs.length ↔ ∃ o ∈ base.outputs, o.checkIssueBurnTx H) := by
  obtain ⟨w₁, base, owner, new, hpaid, hbuilt, hbuilt', houts⟩ := creation_outputs h
  obtain ⟨head, tail, hlen, hscript, -⟩ := builtScript_written howner haddr hbuilt
  obtain ⟨head', tail', hlen', hscript', -⟩ := builtScript_written hnew haddr hbuilt'
  refine ⟨w₁, base, hpaid, BRTransaction.isNewAssetIn_append houts ?_ ?_ ⟨rfl, rfl⟩⟩
  · change isScriptOwnerAsset owner.1 = true
    rw [hscript]
    exact (isScriptOf_written hlen (by omega)).trans rfl
  · have hfields : 39 < (BRTxOutput.setNewAssetScript.fields asst).flatten.length + 32 := by
      simp [BRTxOutput.setNewAssetScript, BRAsset.amountBytes]
      omega
    have hnewAsset : isScriptNewAsset new.1 = true := by
      rw [hscript']
      exact (isScriptOf_written hlen' hfields).trans rfl
    change isScriptAsset new.1 = true
    rw [isScriptAsset, hnewAsset, Bool.or_true]

/-- What reissues an asset: the transaction that burns coins, the owner token and the asset. -/
theorem reissue_outputs
    (h : w.createTxForAssetsReissue H env fuel fill asst rand amount addr = some (w', some tx)) :
    ∃ w₁ base w₂ addrs owner reissue,
      w.payForBurn H env fuel rand amount strReissueAssetBurnAddressMainNet =
        some (w₁, some base) ∧
      w₁.unusedAddrs env fuel 1 true = some (w₂, addrs) ∧
      builtScript H asst BRTxOutput.setTransferOwnerAssetScriptWithoutTag (fill 0)
        (addrs.headD []) = some owner ∧
      builtScript H asst BRTxOutput.setReissueAssetScript (fill 1) addr = some reissue ∧
      tx.outputs = base.outputs ++ [
        { script := some owner.1, address := BRAddress.fromScriptPubKey H owner.1 },
        { script := some (reissue.1.take reissue.2)
          address := BRAddress.fromScriptPubKey H (reissue.1.take reissue.2) }] := by
  obtain ⟨⟨w₁, r⟩, hpaid, h⟩ := Option.bind_eq_some_iff.1 h
  cases r with
  | none => cases h
  | some base =>
    obtain ⟨⟨w₂, addrs⟩, haddrs, h⟩ := Option.bind_eq_some_iff.1 h
    obtain ⟨owner, howner, h⟩ := Option.bind_eq_some_iff.1 h
    obtain ⟨tx₂, htoken, h⟩ := Option.bind_eq_some_iff.1 h
    obtain ⟨reissue, hreissue, h⟩ := Option.map_eq_some_iff.1 h
    obtain rfl := Option.some.inj (Prod.mk.inj h).2
    obtain ⟨outs, houts, hnone, -⟩ := (addOwnerToken_extends htoken).outputs
    obtain rfl := List.map_eq_nil_iff.1 hnone
    rw [List.append_nil] at houts
    refine ⟨w₁, base, w₂, addrs, owner, reissue, hpaid, haddrs, howner, hreissue, ?_⟩
    rw [BRTransaction.addOutput, houts]
    exact List.append_assoc _ _ _

/-- The same for a reissue, if the address for the owner token has a script. -/
theorem reissue_recognised_iff
    (howner : BRTxOutput.setTransferOwnerAssetScriptWithoutTag.Fits asst)
    (hreissue : BRTxOutput.setReissueAssetScript.Fits asst) (haddr : BRAddress.IsP2PKH H addr)
    (hunused : ∀ (w₁ w₂ : BRWallet) (addrs : List BRAddress),
      w₁.unusedAddrs env fuel 1 true = some (w₂, addrs) → BRAddress.IsP2PKH H (addrs.headD []))
    (h : w.createTxForAssetsReissue H env fuel fill asst rand amount addr = some (w', some tx)) :
    ∃ w₁ base,
      w.payForBurn H env fuel rand amount strReissueAssetBurnAddressMainNet =
        some (w₁, some base) ∧
      (tx.isReissueAssetIn H tx.outputs.length ↔ ∃ o ∈ base.outputs, o.checkReissueBurnTx H) := by
  obtain ⟨w₁, base, w₂, addrs, owner, reissue, hpaid, haddrs, hbuilt, hbuilt', houts⟩ :=
    reissue_outputs h
  obtain ⟨head, tail, hlen, hscript, -⟩ :=
    builtScript_written howner (hunused _ _ _ haddrs) hbuilt
  obtain ⟨head', tail', hlen', hscript', hsize⟩ := builtScript_written hreissue haddr hbuilt'
  have htake : reissue.1.take reissue.2 =
      writtenScript BRTxOutput.setReissueAssetScript asst head' [] := by
    rw [hscript', hsize, writtenScript, writtenScript, List.append_nil, ← List.append_assoc]
    refine List.take_left' ?_
    rw [List.length_append, hlen', assetSuffix]
    simp
    omega
  refine ⟨w₁, base, hpaid, BRTransaction.isReissueAssetIn_append houts ?_ ?_ ⟨rfl, rfl⟩⟩
  · change isScriptTransferAsset owner.1 = true
    rw [hscript]
    exact (isScriptOf_written hlen (by omega)).trans rfl
  · change isScriptReissueAsset (reissue.1.take reissue.2) = true
    rw [htake]
    exact (isScriptOf_written hlen' (by omega)).trans rfl

end

end BRWallet

/-! ## Two issues -/

/-- The hashes of the two burn addresses and of the address of the key 1. -/
def issueHashes : Hashes where
  sha256_2 data :=
    if data = [60, 246, 46, 99, 185, 51, 149, 58, 104, 15, 60, 58, 99, 50, 73, 72, 41, 59, 164, 125,
        22] then
      [79, 102, 186, 25, 98, 34, 169, 218, 157, 181, 134, 93, 23, 126, 41, 75, 243, 153, 156, 107,
        180, 120, 94, 239, 5, 164, 56, 130, 125, 246, 245, 232]
    else if data = [60, 242, 236, 86, 28, 119, 67, 94, 30, 106, 67, 225, 25, 32, 54, 140, 156, 138,
        65, 197, 164] then
      [95, 147, 123, 10, 203, 23, 15, 182, 14, 170, 75, 82, 201, 166, 94, 81, 118, 65, 103, 31, 133,
        50, 139, 90, 11, 208, 16, 174, 79, 116, 122, 73]
    else hashesOne.sha256_2 data
  hash160 := hashesOne.hash160
  length_sha256_2 data := by
    split_ifs
    · rfl
    · rfl
    · exact hashesOne.length_sha256_2 data
  length_hash160 := hashesOne.length_hash160

def addressOne : BRAddress :=
  base58CheckEncode issueHashes ADDRESS_SIZE (RAVENCOIN_PUBKEY_ADDRESS :: hashOne)

def envOne : Env := ⟨fun _ _ => some addressOne, fun _ _ => false⟩

/-- A wallet with a coin of 600, and with the owner token of `ABC`. -/
def richWallet : BRWallet where
  balance := 600 * COIN
  utxos := [⟨1, 0⟩, ⟨1, 1⟩]
  transactions := [0]
  allTx := AList.singleton 1 0
  heap := ⟨[some {
    txHash := 1
    outputs := [{ address := addressOne, amount := 600 * COIN
                  script := some (BRAddress.p2pkh hashOne) },
      { address := addressOne
        script := some (BRAddress.p2pkh hashOne ++
          assetSuffix (BRTxOutput.setTransferAssetScript.payload
            { name := [65, 66, 67, 33], nameLen := 4, amount := COIN })) }] }]⟩

/-- A new asset. -/
def rootAsset : BRAsset :=
  { name := [65, 66, 67], nameLen := 3, amount := COIN, reissuable := 1 }

/-- More of it. -/
def moreAsset : BRAsset := { rootAsset with type := .REISSUE }

/-- A loop over all outputs would recognise it. -/
theorem creation_richWallet : (richWallet.createTxForRootAssetCreation issueHashes envOne 3
    (fun _ _ => 0) rootAsset id IssueAssetBurnAmount addressOne).any (fun r => r.2.any fun tx =>
      tx.isNewAssetIn issueHashes tx.outputs.length) = true := by decide +kernel

theorem reissue_richWallet : (richWallet.createTxForAssetsReissue issueHashes envOne 3
    (fun _ _ => 0) moreAsset id ReissueAssetBurnAmount addressOne).any (fun r => r.2.any fun tx =>
      tx.inputs.length = 2 ∧ tx.isReissueAssetIn issueHashes tx.outputs.length) = true := by
  decide +kernel

/-! ## The recognisers as they are -/

namespace BRWallet

/-- No transaction that the wallet creates for a new or a reissued asset is recognised. -/
theorem issues_unrecognised (H : Hashes) (env : Env) (fuel : ℕ) (fill : ℕ → ℕ → UInt8)
    (rand : ℕ → ℕ) (w w' : BRWallet) (asst : BRAsset) (amount : UInt64) (addr : BRAddress)
    (tx : BRTransaction) :
    (w.createTxForRootAssetCreation H env fuel fill asst rand amount addr = some (w', some tx) →
      tx.isNewAsset H = false) ∧
    (w.createTxForAssetsReissue H env fuel fill asst rand amount addr = some (w', some tx) →
      tx.isReissueAsset H = false) :=
  ⟨fun _ => BRTransaction.isNewAsset_eq_false, fun _ => BRTransaction.isReissueAsset_eq_false⟩

theorem issues_unrecognised_richWallet :
    (∃ w' tx, richWallet.createTxForRootAssetCreation issueHashes envOne 3 (fun _ _ => 0) rootAsset
        id IssueAssetBurnAmount addressOne = some (w', some tx) ∧
      tx.isNewAsset issueHashes = false) ∧
    ∃ w' tx, richWallet.createTxForAssetsReissue issueHashes envOne 3 (fun _ _ => 0) moreAsset
        id ReissueAssetBurnAmount addressOne = some (w', some tx) ∧
      tx.isReissueAsset issueHashes = false := by
  constructor
  · obtain ⟨⟨w', r⟩, hr, hr'⟩ := (Option.any_eq_true _ _).1 creation_richWallet
    obtain ⟨tx, rfl, -⟩ := (Option.any_eq_true _ _).1 hr'
    exact ⟨w', tx, hr, (issues_unrecognised issueHashes envOne 3 (fun _ _ => 0) id richWallet w'
      rootAsset IssueAssetBurnAmount addressOne tx).1 hr⟩
  · obtain ⟨⟨w', r⟩, hr, hr'⟩ := (Option.any_eq_true _ _).1 reissue_richWallet
    obtain ⟨tx, rfl, -⟩ := (Option.any_eq_true _ _).1 hr'
    exact ⟨w', tx, hr, (issues_unrecognised issueHashes envOne 3 (fun _ _ => 0) id richWallet w'
      moreAsset ReissueAssetBurnAmount addressOne tx).2 hr⟩

theorem not_issues_recognised : ¬ ∀ (H : Hashes) (env : Env) (fuel : ℕ) (fill : ℕ → ℕ → UInt8)
    (rand : ℕ → ℕ) (w w' : BRWallet) (asst : BRAsset) (addr : BRAddress) (tx : BRTransaction),
    asst.Named → asst.ValidIPFS → asst.type = .NEW_ASSET → BRAddress.IsP2PKH H addr →
      w.createTxForRootAssetCreation H env fuel fill asst rand IssueAssetBurnAmount addr =
        some (w', some tx) → tx.isNewAsset H = true := by
  intro h
  obtain ⟨⟨w', r⟩, hr, hr'⟩ := (Option.any_eq_true _ _).1 creation_richWallet
  obtain ⟨tx, rfl, -⟩ := (Option.any_eq_true _ _).1 hr'
  have htrue := h issueHashes envOne 3 (fun _ _ => 0) id richWallet w' rootAsset addressOne tx
    ⟨rfl, by decide, by decide⟩ (fun hipfs => by cases hipfs) rfl (by decide +kernel) hr
  rw [BRTransaction.isNewAsset_eq_false] at htrue
  cases htrue

end BRWallet

end RavenWallet
