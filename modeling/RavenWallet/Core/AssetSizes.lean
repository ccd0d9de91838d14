/-
  What the asset script builders announce (BRAssets.c).

  Called with a `NULL` script a builder returns a size, and the caller takes it
  for the length of the buffer and of the script.

  * `AssetWriter.fills_iff`: a builder fills a buffer of the announced size if the
    asset data are as long as announced and the script is not too long to be
    written;
  * `announces_iff`: which builders do so for which assets.
-/
import RavenWallet.Core.AssetScripts

namespace RavenWallet

namespace AssetWriter

/-- Behind the first 25 bytes, all of a buffer of the announced size is written, whatever was in it,
    and that size is returned. -/
def Fills (b : AssetWriter) (asset : BRAsset) : Prop :=
  ∃ tail : Bytes, 25 + tail.length = b.size asset ∧
    ∀ head rest : Bytes, head.length = 25 → 25 + rest.length = b.size asset →
      b.set asset (head ++ rest) = some (head ++ tail, b.size asset)

section
variable {b : AssetWriter} {asset : BRAsset} {script : Bytes} {r : Bytes × ℕ}

/-- What is written is the whole of the name. -/
theorem name_of_set (h : b.set asset script = some r) (hr : r.2 ≠ 0) :
    asset.nameLen ≤ asset.name.length := by
  rw [set] at h
  split_ifs at h with hempty hname
  · obtain rfl := Option.some.inj h
    exact absurd rfl hr
  · exact Nat.not_lt.1 hname

theorem fills_iff : b.Fills asset ↔ asset.nameLen ≤ asset.name.length ∧
    b.size asset ≤ MAX_SCRIPT_LENGTH ∧ (b.payload asset).length + 28 = b.size asset := by
  constructor
  · rintro ⟨tail, htail, hfill⟩
    have hlen : (List.replicate 25 (0 : UInt8)).length = 25 := List.length_replicate
    have hset := hfill _ tail hlen htail
    obtain ⟨-, -, hsize⟩ := set_length hset
    have hname := name_of_set hset (by dsimp only; omega)
    have hbuf : (List.replicate 25 (0 : UInt8) ++ tail).length = b.size asset := by
      rw [List.length_append, hlen, htail]
    rw [hbuf, ← List.length_flatten] at hsize
    dsimp only at hsize
    rw [length_payload]
    split_ifs at hsize with hbad
    · omega
    · exact ⟨hname, by omega, by omega⟩
  · rintro ⟨hname, hmax, hsize⟩
    have hsuffix : (assetSuffix (b.payload asset)).length = (b.payload asset).length + 3 := by
      simp [assetSuffix]
    refine ⟨assetSuffix (b.payload asset), by omega, fun head rest hhead hrest => ?_⟩
    rw [set_eq hhead hname (by omega) (by omega), List.drop_of_length_le (by omega),
      List.append_nil, ← hsize]
    exact congrArg some (Prod.ext rfl (by dsimp only; omega))

end

end AssetWriter

namespace AssetScript

variable (asset : BRAsset)

/-- The bytes that are announced besides the name. -/
def announced : AssetScript → ℕ
  | newAsset => 16 + if asset.hasIPFS = 0 then 0 else IPFS_HASH_LENGTH
  | transfer => 13
  | reissue => 16 + if asset.hasIPFS = 0 then 0 else IPFS_HASH_LENGTH
  | owner => 6
  | transferOwner => 13
  | transferOwnerWithoutTag => 14

/-- The longest name that is written: the script has at most `MAX_SCRIPT_LENGTH` bytes. -/
def nameLimit : AssetScript → ℕ
  | newAsset => if asset.hasIPFS = 0 then 212 else 178
  | transfer => 215
  | reissue => if asset.hasIPFS = 0 then 212 else 178
  | owner => 222
  | transferOwner => 215
  | transferOwnerWithoutTag => 214

/-- The hash is as long as announced.  A reissued asset has one flag less than a new one, but as
    many are announced. -/
def HashAnnounced : AssetScript → Prop
  | newAsset => asset.hasIPFS = 0 ∨
      asset.hasIPFS = 1 ∧ (decodeIPFS asset.IPFSHash).length = IPFS_HASH_LENGTH
  | reissue => asset.hasIPFS = 1 ∧ (decodeIPFS asset.IPFSHash).length = IPFS_HASH_LENGTH + 1
  | _ => True

/-- The assets for which the announced size is right. -/
structure Announces (b : AssetScript) : Prop where
  name : asset.nameLen ≤ asset.name.length
  limit : asset.nameLen ≤ b.nameLimit asset
  hash : b.HashAnnounced asset

variable {asset}

theorem size_eq (b : AssetScript) :
    b.writer.size asset = asset.nameLen + b.announced asset + 28 := by
  have hipfs : IPFS_HASH_LENGTH = 34 := rfl
  cases b with
  | newAsset =>
    simp only [writer, BRTxOutput.setNewAssetScript, announced]
    split_ifs <;> omega
  | reissue =>
    simp only [writer, BRTxOutput.setReissueAssetScript, announced]
    split_ifs <;> omega
  | owner =>
    simp only [writer, BRTxOutput.setOwnerAssetScript, announced, OWNER_LENGTH]
    omega
  | transferOwnerWithoutTag =>
    simp only [writer, BRTxOutput.setTransferOwnerAssetScriptWithoutTag, announced, OWNER_LENGTH]
    omega
  | _ =>
    simp only [writer, BRTxOutput.setTransferAssetScript, BRTxOutput.setTransferOwnerAssetScript,
      announced]
    omega

theorem nameLimit_eq (b : AssetScript) :
    b.nameLimit asset + b.announced asset + 28 = MAX_SCRIPT_LENGTH := by
  cases b with
  | newAsset =>
    rw [nameLimit, announced]
    split_ifs <;> rfl
  | reissue =>
    rw [nameLimit, announced]
    split_ifs <;> rfl
  | _ => rfl

theorem added_eq_announced (b : AssetScript) :
    b.added asset = b.announced asset ↔ b.HashAnnounced asset := by
  have hipfs : IPFS_HASH_LENGTH = 34 := rfl
  cases b with
  | newAsset =>
    rw [added, announced, HashAnnounced, hashLength]
    by_cases h₀ : asset.hasIPFS = 0
    · simp [h₀]
    · by_cases h₁ : asset.hasIPFS = 1
      · simp [h₁]
      · simp [h₀, h₁, hipfs]
  | reissue =>
    rw [added, announced, HashAnnounced, hashLength]
    by_cases h₀ : asset.hasIPFS = 0
    · simp [h₀]
    · by_cases h₁ : asset.hasIPFS = 1
      · simp [h₁]
        omega
      · simp [h₀, h₁, hipfs]
  | _ => exact iff_of_true rfl trivial

/-- A builder fills what it announced exactly if the name is not too long and the hash, with the
    flags, takes the bytes that are counted for it. -/
theorem announces_iff (b : AssetScript) (asset : BRAsset) :
    b.writer.Fills asset ↔ b.Announces asset := by
  have hlimit := @nameLimit_eq asset b
  have hmax : MAX_SCRIPT_LENGTH = 256 := rfl
  have hbound : b.nameLimit asset ≤ 222 := by
    cases b with
    | newAsset =>
      rw [nameLimit]
      split_ifs <;> decide
    | reissue =>
      rw [nameLimit]
      split_ifs <;> decide
    | _ => simp [nameLimit]
  rw [AssetWriter.fills_iff, size_eq]
  constructor
  · rintro ⟨hname, hsize, hpayload⟩
    rw [length_payload_added hname (by omega)] at hpayload
    exact ⟨hname, by omega, (added_eq_announced b).1 (by omega)⟩
  · rintro ⟨hname, hle, hhash⟩
    rw [length_payload_added hname (by omega), (added_eq_announced b).2 hhash]
    exact ⟨hname, by omega, rfl⟩

/-- An asset that is reissued without a hash. -/
def plainReissue : BRAsset :=
  { type := .REISSUE, name := [65, 65, 65], nameLen := 3, amount := COIN, reissuable := 1 }

theorem not_announces : ¬ ∀ (b : AssetScript) (asset : BRAsset), asset.Named → asset.ValidIPFS →
    (b = .newAsset → asset.type = .NEW_ASSET) → (b = .reissue → asset.type ≠ .NEW_ASSET) →
      b.writer.Fills asset := by
  intro h
  have hfills := h .reissue plainReissue ⟨rfl, by decide, by decide⟩ (fun h => by cases h)
    (fun h => by cases h) (fun _ h => by cases h)
  obtain ⟨hname, -, hsize⟩ := AssetWriter.fills_iff.1 hfills
  rw [length_payload_added hname (by decide), size_eq] at hsize
  exact absurd hsize (by decide)

end AssetScript

end RavenWallet
