/-
  Asset scripts (BRAssets.c, BRScript.c).

  An asset output carries a 25-byte address script followed by `OP_RVN_ASSET`, a
  push of the asset data and `OP_DROP`.  The six builders write these behind the
  address script in a buffer, each with its own tag and fields; they share
  `AssetWriter.set`.  The four parsers read them back; a read beyond the end of
  the script has no result.
-/
import RavenWallet.Core.Script

namespace RavenWallet

def RVN_R : UInt8 := 114
def RVN_V : UInt8 := 118
def RVN_N : UInt8 := 110
def RVN_Q : UInt8 := 113
def RVN_T : UInt8 := 116
def RVN_O : UInt8 := 111

def COIN : UInt64 := 100000000
def OWNER_TAG : Bytes := [33]
def OWNER_LENGTH : ℕ := 1
def IPFS_HASH_LENGTH : ℕ := 34

/-- The global burn address. -/
def strGlobalBurnAddressMainNet : BRAddress :=
  "RXBurnXXXXXXXXXXXXXXXXXXXXXXWUo9FV".toList.map fun c => UInt8.ofNat c.toNat

def decodeIPFS (str : Bytes) : Bytes := base58Bytes str
def encodeIPFS (data : Bytes) : Bytes := base58String data

/-! ## Builders -/

/-- What distinguishes the builders: the tag, the fields that follow it, and the length that is
    returned for a `NULL` script. -/
structure AssetWriter where
  tag : UInt8
  fields : BRAsset → List Bytes
  size : BRAsset → ℕ

namespace AssetWriter

/-- Writes the asset behind the first 25 bytes of `script`, and returns the length of the result. -/
def set (b : AssetWriter) (asset : BRAsset) (script : Bytes) : Option (Bytes × ℕ) :=
  if script = [] ∨ script.length > MAX_SCRIPT_LENGTH then some (script, 0)
  else if asset.name.length < asset.nameLen then none
  else do
    let script ← poke script 25 [OP_RVN_ASSET]
    let script ← poke script 27 [RVN_R, RVN_V, RVN_N, b.tag]
    let (script, off) ← pokeAll script (25 + 6) (b.fields asset)
    let script ← poke script 26 [UInt8.ofNat (off - 25 - 2)]
    let script ← poke script off [OP_DROP]
    some (script, off + 1)

/-- The asset data. -/
def payload (b : AssetWriter) (asset : BRAsset) : Bytes :=
  [RVN_R, RVN_V, RVN_N, b.tag] ++ (b.fields asset).flatten

end AssetWriter

namespace BRAsset

/-- The name that a builder copies. -/
def nameBytes (asset : BRAsset) : Bytes := asset.name.take asset.nameLen

def amountBytes (asset : BRAsset) : Bytes := toLE 8 asset.amount.toNat

/-- The hash that a builder adds, if any. -/
def ipfsBytes (asset : BRAsset) : List Bytes :=
  if asset.hasIPFS = 1 then [decodeIPFS asset.IPFSHash] else []

end BRAsset

namespace BRTxOutput

/-- `BRTxOutputSetNewAssetScript`. -/
def setNewAssetScript : AssetWriter where
  tag := RVN_Q
  fields asset := [varIntSet (25 + 6) asset.nameLen, asset.nameBytes, asset.amountBytes,
    [asset.unit], [asset.reissuable], [asset.hasIPFS]] ++ asset.ipfsBytes
  size asset :=
    if asset.hasIPFS = 0 then 25 + 6 + 1 + asset.nameLen + 8 + 3 + 1
    else 25 + 6 + 1 + asset.nameLen + 8 + 3 + 1 + IPFS_HASH_LENGTH

/-- `BRTxOutputSetTransferAssetScript`. -/
def setTransferAssetScript : AssetWriter where
  tag := RVN_T
  fields asset := [varIntSet (25 + 6) asset.nameLen, asset.nameBytes, asset.amountBytes]
  size asset := 25 + 6 + 1 + asset.nameLen + 8 + 1

/-- `BRTxOutputSetReissueAssetScript`. -/
def setReissueAssetScript : AssetWriter where
  tag := RVN_R
  fields asset := [varIntSet (25 + 6) asset.nameLen, asset.nameBytes, asset.amountBytes,
    [asset.unit], [asset.reissuable]] ++ asset.ipfsBytes
  size asset :=
    if asset.hasIPFS = 0 then 25 + 6 + 1 + asset.nameLen + 8 + 3 + 1
    else 25 + 6 + 1 + asset.nameLen + 8 + 3 + 1 + IPFS_HASH_LENGTH

/-- `BRTxOutputSetOwnerAssetScript`. -/
def setOwnerAssetScript : AssetWriter where
  tag := RVN_O
  fields asset := [varIntSet (25 + 6) (asset.nameLen + 1), asset.nameBytes, OWNER_TAG]
  size asset := 25 + 6 + 1 + asset.nameLen + OWNER_LENGTH + 1

/-- `BRTxOutputSetTransferOwnerAssetScript`. -/
def setTransferOwnerAssetScript : AssetWriter where
  tag := RVN_T
  fields asset := [varIntSet (25 + 6) asset.nameLen, asset.nameBytes, asset.amountBytes]
  size asset := 25 + 6 + 1 + asset.nameLen + 8 + 1

/-- `BRTxOutputSetTransferOwnerAssetScriptWithoutTag`. -/
def setTransferOwnerAssetScriptWithoutTag : AssetWriter where
  tag := RVN_T
  fields asset := [varIntSet (25 + 6) (asset.nameLen + OWNER_LENGTH), asset.nameBytes, OWNER_TAG,
    toLE 8 COIN.toNat]
  size asset := 25 + 6 + 1 + asset.nameLen + 8 + OWNER_LENGTH + 1

end BRTxOutput

/-- The asset script builders. -/
inductive AssetScript where
  | newAsset | transfer | reissue | owner | transferOwner | transferOwnerWithoutTag
  deriving DecidableEq, Repr

def AssetScript.writer : AssetScript → AssetWriter
  | newAsset => BRTxOutput.setNewAssetScript
  | transfer => BRTxOutput.setTransferAssetScript
  | reissue => BRTxOutput.setReissueAssetScript
  | owner => BRTxOutput.setOwnerAssetScript
  | transferOwner => BRTxOutput.setTransferOwnerAssetScript
  | transferOwnerWithoutTag => BRTxOutput.setTransferOwnerAssetScriptWithoutTag

/-! ## Parsers -/

/-- The script is longer than `n` bytes and carries asset data with this tag. -/
def isScriptOf (n : ℕ) (tag : UInt8) (script : Bytes) : Bool :=
  decide (script.length > n) && decide (script[25]? = some OP_RVN_ASSET) &&
    decide (peek script 27 4 = some [RVN_R, RVN_V, RVN_N, tag])

def isScriptNewAsset : Bytes → Bool := isScriptOf 39 RVN_Q
def isScriptTransferAsset : Bytes → Bool := isScriptOf 30 RVN_T
def isScriptOwnerAsset : Bytes → Bool := isScriptOf 30 RVN_O
def isScriptReissueAsset : Bytes → Bool := isScriptOf 30 RVN_R

def isScriptAsset (script : Bytes) : Bool :=
  isScriptTransferAsset script || isScriptReissueAsset script || isScriptOwnerAsset script ||
    isScriptNewAsset script

/-- The copy of the script from the name on, that the parsers work on. -/
def assetScript (script : Bytes) : Option Bytes := peek script 31 (script.length - 31)

/-- Reads the name, and returns where it ends. -/
def parseName (data : Bytes) (asset : BRAsset) : Option (BRAsset × ℕ) :=
  let (nameSize, off) := varInt data
  if off ≤ data.length then do
    let name ← peek data off nameSize
    some ({ asset with name, nameLen := nameSize }, off + nameSize)
  else some (asset, off)

/-- The amount at `off`, zero if the data end before. -/
def amountAt (data : Bytes) (off : ℕ) : UInt64 :=
  UInt64.ofNat (((peek data off 8).map ofLE).getD 0)

/-- Reads the hash at `off`, which ends the data. -/
def parseIPFS (data : Bytes) (off : ℕ) (asset : BRAsset) : Option (BRAsset × Bool) :=
  if off ≤ data.length + IPFS_HASH_LENGTH then do
    let hash ← peek data off IPFS_HASH_LENGTH
    let last ← data[off + IPFS_HASH_LENGTH]?
    some ({ asset with IPFSHash := encodeIPFS hash }, decide (last = OP_DROP))
  else some (asset, true)

/-- Scripts that are parsed at all. -/
def parseScript (script : Bytes) (asset : BRAsset)
    (parse : Bytes → Option (BRAsset × Bool)) : Option (BRAsset × Bool) :=
  if script = [] ∨ script.length > MAX_SCRIPT_LENGTH then some (asset, false)
  else (assetScript script).bind parse

/-- `NewAssetFromScriptPubKey`. -/
def newAssetFromScriptPubKey (script : Bytes) (asset : BRAsset) : Option (BRAsset × Bool) :=
  parseScript script asset fun data => do
    let (asset, off) ← parseName data asset
    let amount := amountAt data off
    let unit ← data[off + 8]?
    let reissuable ← data[off + 9]?
    let hasIPFS ← data[off + 10]?
    let asset := { asset with amount, unit, reissuable, hasIPFS }
    if hasIPFS = 0 then some (asset, true)
    else do
      let next ← data[off + 11]?
      if next = OP_DROP then some (asset, true) else parseIPFS data (off + 11) asset

/-- `TransferAssetFromScriptPubKey`. -/
def transferAssetFromScriptPubKey (script : Bytes) (asset : BRAsset) : Option (BRAsset × Bool) :=
  parseScript script asset fun data => do
    let (asset, off) ← parseName data asset
    let last ← data[off + 8]?
    some ({ asset with amount := amountAt data off }, decide (last = OP_DROP))

/-- `OwnerAssetFromScriptPubKey`. -/
def ownerAssetFromScriptPubKey (script : Bytes) (asset : BRAsset) : Option (BRAsset × Bool) :=
  parseScript script asset fun data => do
    let (asset, off) ← parseName data asset
    if off + 8 < data.length then do
      let last ← data[off + 8]?
      some ({ asset with amount := amountAt data off }, decide (last = OP_DROP))
    else do
      let last ← data[off]?
      some ({ asset with amount := 1 * COIN }, decide (last = OP_DROP))

/-- `ReissueAssetFromScriptPubKey`. -/
def reissueAssetFromScriptPubKey (script : Bytes) (asset : BRAsset) : Option (BRAsset × Bool) :=
  parseScript script asset fun data => do
    let (asset, off) ← parseName data asset
    let amount := amountAt data off
    let unit ← data[off + 8]?
    let reissuable ← data[off + 9]?
    let next ← data[off + 10]?
    if next = OP_DROP then some ({ asset with amount, unit, reissuable, hasIPFS := 0 }, true)
    else parseIPFS data (off + 10) { asset with amount, unit, reissuable, hasIPFS := 1 }

/-- `GetAssetData`: the asset that a script carries, and whether it was read. -/
def getAssetData (script : Bytes) (data : BRAsset) : Option (BRAsset × Bool) :=
  if isScriptNewAsset script then
    newAssetFromScriptPubKey script { data with type := .NEW_ASSET }
  else if isScriptTransferAsset script then
    transferAssetFromScriptPubKey script { data with type := .TRANSFER }
  else if isScriptOwnerAsset script then
    ownerAssetFromScriptPubKey script { data with type := .OWNER }
  else if isScriptReissueAsset script then
    reissueAssetFromScriptPubKey script { data with type := .REISSUE }
  else some (data, false)

/-! ## What the builders write -/

/-- The part of an asset script behind the address. -/
def assetSuffix (payload : Bytes) : Bytes :=
  OP_RVN_ASSET :: UInt8.ofNat payload.length :: (payload ++ [OP_DROP])

namespace AssetWriter

variable {b : AssetWriter} {asset : BRAsset} {head rest : Bytes}

theorem length_payload : (b.payload asset).length = (b.fields asset).flatten.length + 4 := by
  simp [payload]

/-- The suffix is written behind the address script, and nothing else changes. -/
theorem set_eq (hh : head.length = 25) (hn : asset.nameLen ≤ asset.name.length)
    (hl : (b.payload asset).length + 3 ≤ rest.length)
    (hm : 25 + rest.length ≤ MAX_SCRIPT_LENGTH) :
    b.set asset (head ++ rest) = some
      (head ++ (assetSuffix (b.payload asset) ++ rest.drop ((b.payload asset).length + 3)),
        25 + ((b.payload asset).length + 3)) := by
  rw [length_payload] at hl ⊢
  -- the old bytes, cut where the builder writes
  obtain ⟨x, y, q, f, z, t, rfl, hq, hf⟩ : ∃ x y q f z t, rest = x :: y :: (q ++ (f ++ (z :: t))) ∧
      q.length = 4 ∧ f.length = (b.fields asset).flatten.length := by
    obtain ⟨x, y, r, rfl⟩ : ∃ x y r, rest = x :: y :: r := by
      rcases rest with _ | ⟨x, _ | ⟨y, r⟩⟩
      · simp at hl
      · simp at hl
      · exact ⟨x, y, r, rfl⟩
    simp only [List.length_cons] at hl
    have hr : (b.fields asset).flatten.length < (r.drop 4).length := by
      rw [List.length_drop]; omega
    refine ⟨x, y, r.take 4, (r.drop 4).take (b.fields asset).flatten.length,
      (r.drop 4)[(b.fields asset).flatten.length],
      (r.drop 4).drop ((b.fields asset).flatten.length + 1), ?_, ?_, ?_⟩
    · rw [← List.drop_eq_getElem_cons hr, List.take_append_drop, List.take_append_drop]
    · rw [List.length_take]; omega
    · rw [List.length_take]; omega
  have hne : ¬ (head ++ x :: y :: (q ++ (f ++ z :: t)) = [] ∨
      (head ++ x :: y :: (q ++ (f ++ z :: t))).length > MAX_SCRIPT_LENGTH) := by
    rintro (hnil | hlong)
    · simp at hnil
    · rw [List.length_append] at hlong; omega
  have h₁ : poke (head ++ x :: y :: (q ++ (f ++ z :: t))) 25 [OP_RVN_ASSET] =
      some (head ++ ([OP_RVN_ASSET] ++ (y :: (q ++ (f ++ z :: t))))) :=
    poke_parts (b := [x]) rfl hh rfl
  have h₂ : poke (head ++ ([OP_RVN_ASSET] ++ (y :: (q ++ (f ++ z :: t))))) 27
      [RVN_R, RVN_V, RVN_N, b.tag] = some ((head ++ [OP_RVN_ASSET, y]) ++
        ([RVN_R, RVN_V, RVN_N, b.tag] ++ (f ++ z :: t))) :=
    poke_parts (b := q) (by simp) (by simp [hh]) hq
  have h₃ : pokeAll ((head ++ [OP_RVN_ASSET, y]) ++ ([RVN_R, RVN_V, RVN_N, b.tag] ++ (f ++ z :: t)))
      (25 + 6) (b.fields asset) = some ((head ++ [OP_RVN_ASSET, y] ++ [RVN_R, RVN_V, RVN_N, b.tag]) ++
        ((b.fields asset).flatten ++ z :: t), 25 + 6 + (b.fields asset).flatten.length) :=
    pokeAll_parts (b := f) (by simp) (by simp [hh]) hf
  have h₄ : ∀ n : UInt8, poke (head ++ [OP_RVN_ASSET, y] ++ [RVN_R, RVN_V, RVN_N, b.tag] ++
      ((b.fields asset).flatten ++ z :: t)) 26 [n] = some ((head ++ [OP_RVN_ASSET]) ++
        ([n] ++ (b.payload asset ++ z :: t))) := fun n =>
    poke_parts (b := [y]) (by simp [payload]) (by simp [hh]) rfl
  have h₅ : ∀ n : UInt8, poke ((head ++ [OP_RVN_ASSET]) ++ ([n] ++ (b.payload asset ++ z :: t)))
      (25 + 6 + (b.fields asset).flatten.length) [OP_DROP] =
        some ((head ++ OP_RVN_ASSET :: n :: b.payload asset) ++ ([OP_DROP] ++ t)) := fun n =>
    poke_parts (b := [z]) (by simp) (by simp [hh, length_payload]; omega) rfl
  have hdrop : (x :: y :: (q ++ (f ++ z :: t))).drop ((b.fields asset).flatten.length + 4 + 3) =
      t := by
    have hlist : x :: y :: (q ++ (f ++ z :: t)) = (x :: y :: (q ++ (f ++ [z]))) ++ t := by simp
    rw [hlist]
    exact List.drop_left' (by simp [hq, hf]; omega)
  unfold set
  rw [if_neg hne, if_neg (Nat.not_lt.2 hn), hdrop]
  simp only [Option.bind_eq_bind, h₁, Option.bind_some, h₂, h₃, h₄, h₅, Option.some.injEq,
    Prod.mk.injEq]
  refine ⟨?_, by omega⟩
  have hlen : 25 + 6 + (b.fields asset).flatten.length - 25 - 2 = (b.payload asset).length := by
    rw [length_payload]; omega
  rw [hlen]
  simp [assetSuffix]

/-- The length that is returned, and that of the buffer. -/
theorem set_length {script : Bytes} {r : Bytes × ℕ} (h : b.set asset script = some r) :
    r.1.length = script.length ∧ r.2 ≤ r.1.length ∧
      r.2 = if script.length = 0 ∨ script.length > MAX_SCRIPT_LENGTH then 0
        else 25 + 6 + ((b.fields asset).map List.length).sum + 1 := by
  rw [set] at h
  split_ifs at h with hempty hname
  · obtain rfl := Option.some.inj h
    rw [if_pos (hempty.imp_left List.length_eq_zero_iff.2)]
    exact ⟨rfl, Nat.zero_le _, rfl⟩
  · obtain ⟨s₁, h₁, h⟩ := Option.bind_eq_some_iff.1 h
    obtain ⟨s₂, h₂, h⟩ := Option.bind_eq_some_iff.1 h
    obtain ⟨⟨s₃, off⟩, h₃, h⟩ := Option.bind_eq_some_iff.1 h
    obtain ⟨s₄, h₄, h⟩ := Option.bind_eq_some_iff.1 h
    obtain ⟨s₅, h₅, h⟩ := Option.bind_eq_some_iff.1 h
    obtain rfl := Option.some.inj h
    obtain ⟨hlength, hoff⟩ := pokeAll_some h₃
    obtain ⟨hle, hlength₅⟩ := poke_some h₅
    have hsame₁ := (poke_some h₁).2
    have hsame₂ := (poke_some h₂).2
    have hsame₄ := (poke_some h₄).2
    dsimp only at hlength hoff hle ⊢
    rw [List.length_singleton] at hle
    rw [if_neg fun h => hempty (h.imp_left List.length_eq_zero_iff.1)]
    exact ⟨by omega, by omega, by omega⟩

end AssetWriter

end RavenWallet
