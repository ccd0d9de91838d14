/-
  What the asset parsers read (BRAssets.c).

  The data behind the tag are the name with its length, and fields at fixed
  distances behind it.  The parsers take their ends on trust: the length of the
  name is not compared with the length of the script, and a hash is written as a
  string into a field of 46 characters.

  `parsesInside_iff`: the scripts that are read within their bytes, and whose hash
  fits into the field.
-/
import RavenWallet.Core.Assets

namespace RavenWallet

/-- `sizeof(asset->IPFSHash)`. -/
def IPFS_STRING_SIZE : ℕ := 46

/-- The parser reads bytes of the script only, and what it writes into the asset fits: the name has
    the room that is allocated for it, the hash that of its field, with a NUL at the end. -/
def ParsesInside (script : Bytes) : Prop :=
  ∀ asset : BRAsset, asset.IPFSHash.length < IPFS_STRING_SIZE →
    ∃ r ok, getAssetData script asset = some (r, ok) ∧ r.IPFSHash.length < IPFS_STRING_SIZE

/-! ## Layout -/

section
variable (data : Bytes)

/-- Where the name ends. -/
def nameEnd : ℕ := (varInt data).2 + (varInt data).1

/-- The number in the hash has at most 45 digits of base 58, with the leading zeros. -/
def HashFits (hash : Bytes) : Prop :=
  value 256 (hash.map UInt8.toNat) <
    58 ^ (IPFS_STRING_SIZE - 1 - (hash.takeWhile fun b => b = 0).length)

/-- At `off` there are a hash and the byte that ends the script. -/
structure HashAt (off : ℕ) : Prop where
  inside : off + IPFS_HASH_LENGTH < data.length
  fits : HashFits ((data.drop off).take IPFS_HASH_LENGTH)

/-- Name, amount, unit and two flags, and a hash unless the second flag is zero. -/
def NewLayout : Prop :=
  nameEnd data + 10 < data.length ∧ (data[nameEnd data + 10]? ≠ some 0 →
    nameEnd data + 11 < data.length ∧
      (data[nameEnd data + 11]? ≠ some OP_DROP → HashAt data (nameEnd data + 11)))

/-- Name, amount, unit and a flag, and a hash unless the data end. -/
def ReissueLayout : Prop :=
  nameEnd data + 10 < data.length ∧
    (data[nameEnd data + 10]? ≠ some OP_DROP → HashAt data (nameEnd data + 10))

/-- The data behind the tag are as long as the parser of that tag takes them to be. -/
def Layout (script : Bytes) : Prop :=
  let data := script.drop 31
  if isScriptNewAsset script then NewLayout data
  else if isScriptTransferAsset script then nameEnd data + 8 < data.length
  else if isScriptOwnerAsset script then nameEnd data < data.length
  else if isScriptReissueAsset script then ReissueLayout data
  else True

end

/-! ## Hashes -/

/-- How long the string of a hash is. -/
theorem length_encodeIPFS_lt {hash : Bytes} (h : hash.length = IPFS_HASH_LENGTH) :
    (encodeIPFS hash).length < IPFS_STRING_SIZE ↔ HashFits hash := by
  obtain ⟨digits, hstr, hlt, hhead, hval⟩ := base58String_digits hash
  have hzeros : (hash.takeWhile fun b => b = 0).length ≤ 34 := by
    have hle := (List.takeWhile_sublist (fun b => decide (b = (0 : UInt8))) (l := hash)).length_le
    rwa [h] at hle
  have hvalue : value 256 (hash.map UInt8.toNat) = value 58 digits := by
    rw [hval, ← @value_dropWhile 256 (hash.map UInt8.toNat), List.dropWhile_map]
    congr 3
    funext b
    exact decide_eq_decide.2 (UInt8.toNat_inj (b := 0))
  have hdigits : (Nat.digits 58 (value 58 digits)).length = digits.length := by
    rw [← List.length_reverse, digits_value (by decide) hlt hhead]
  rw [HashFits, hvalue, ← Nat.digits_length_le_iff (by decide), hdigits, encodeIPFS, hstr,
    List.length_append, List.length_replicate, List.length_map]
  have hsize : IPFS_STRING_SIZE = 46 := rfl
  omega

/-! ## Parsers -/

/-- A parser gives a result, with a hash that fits. -/
def Inside (o : Option (BRAsset × Bool)) : Prop :=
  ∃ r ok, o = some (r, ok) ∧ r.IPFSHash.length < IPFS_STRING_SIZE

section
variable {data script : Bytes} {asset : BRAsset} {off : ℕ} {ok : Bool}

theorem inside_some : Inside (some (asset, ok)) ↔ asset.IPFSHash.length < IPFS_STRING_SIZE := by
  constructor
  · rintro ⟨r, ok', heq, h⟩
    obtain ⟨rfl, rfl⟩ := Prod.mk.inj (Option.some.inj heq)
    exact h
  · exact fun h => ⟨asset, ok, rfl, h⟩

theorem not_inside_none : ¬ Inside none := by
  rintro ⟨r, ok, h, -⟩
  cases h

/-- A byte is read only inside the data. -/
theorem inside_byte {k : UInt8 → Option (BRAsset × Bool)} :
    Inside (data[off]?.bind k) ↔ ∃ b, data[off]? = some b ∧ Inside (k b) := by
  cases h : data[off]? with
  | none =>
    refine iff_of_false not_inside_none ?_
    rintro ⟨b, hb, -⟩
    cases hb
  | some b =>
    rw [Option.bind_some]
    constructor
    · exact fun hk => ⟨b, rfl, hk⟩
    · rintro ⟨b', hb, hk⟩
      rwa [Option.some.inj hb]

/-- The asset with the name at the start of the data. -/
def named (data : Bytes) (asset : BRAsset) : BRAsset :=
  { asset with
    name := (data.drop (varInt data).2).take (varInt data).1, nameLen := (varInt data).1 }

theorem parseName_eq : parseName data asset =
    if (varInt data).2 ≤ data.length then
      (peek data (varInt data).2 (varInt data).1).bind fun name =>
        some ({ asset with name, nameLen := (varInt data).1 }, nameEnd data)
    else some (asset, (varInt data).2) := rfl

/-- A parser that needs bytes behind the name gives a result only if the name is in the data. -/
theorem inside_parseName {k : BRAsset × ℕ → Option (BRAsset × Bool)}
    (hk : ∀ r, data.length < r.2 → ¬ Inside (k r)) :
    Inside ((parseName data asset).bind k) ↔
      nameEnd data ≤ data.length ∧ Inside (k (named data asset, nameEnd data)) := by
  rw [parseName_eq]
  by_cases hoff : (varInt data).2 ≤ data.length
  · rw [if_pos hoff, peek]
    by_cases hname : (varInt data).2 + (varInt data).1 ≤ data.length
    · rw [if_pos hname]
      exact ⟨fun h => ⟨hname, h⟩, fun h => h.2⟩
    · rw [if_neg hname]
      exact iff_of_false not_inside_none fun h => hname h.1
  · rw [if_neg hoff]
    refine iff_of_false (hk _ (Nat.not_le.1 hoff)) fun h => hoff ?_
    exact (Nat.le_add_right _ _).trans h.1

/-- The hash and the byte behind it are read, and the string fits. -/
theorem inside_parseIPFS (h : off < data.length) :
    Inside (parseIPFS data off asset) ↔ HashAt data off := by
  rw [parseIPFS, if_pos (by omega), peek]
  by_cases hhash : off + IPFS_HASH_LENGTH ≤ data.length
  · have hlen : ((data.drop off).take IPFS_HASH_LENGTH).length = IPFS_HASH_LENGTH :=
      List.length_take_of_le (by rw [List.length_drop]; omega)
    rw [if_pos hhash]
    change Inside (data[off + IPFS_HASH_LENGTH]?.bind _) ↔ _
    rw [inside_byte]
    constructor
    · rintro ⟨b, hb, hfits⟩
      obtain ⟨hlt, -⟩ := List.getElem?_eq_some_iff.1 hb
      exact ⟨hlt, (length_encodeIPFS_lt hlen).1 (inside_some.1 hfits)⟩
    · rintro ⟨hlt, hfits⟩
      exact ⟨_, List.getElem?_eq_getElem hlt,
        inside_some.2 ((length_encodeIPFS_lt hlen).2 hfits)⟩
  · rw [if_neg hhash]
    refine iff_of_false not_inside_none ?_
    rintro ⟨hlt, -⟩
    exact hhash hlt.le

/-- A script that is recognised is parsed from behind the tag, unless it is too long. -/
theorem inside_parseScript {parse : Bytes → Option (BRAsset × Bool)} (hlong : 30 < script.length)
    (hasset : asset.IPFSHash.length < IPFS_STRING_SIZE) :
    Inside (parseScript script asset parse) ↔
      (script.length ≤ MAX_SCRIPT_LENGTH → Inside (parse (script.drop 31))) := by
  rw [parseScript]
  by_cases hmax : script.length ≤ MAX_SCRIPT_LENGTH
  · have hne : ¬ (script = [] ∨ script.length > MAX_SCRIPT_LENGTH) := by
      rintro (rfl | hgt)
      · cases hlong
      · omega
    have hdata : assetScript script = some (script.drop 31) := by
      rw [assetScript, peek, if_pos (by omega)]
      exact congrArg some (List.take_of_length_le (by rw [List.length_drop]))
    rw [if_neg hne, hdata, Option.bind_some]
    exact ⟨fun h _ => h, fun h => h hmax⟩
  · rw [if_pos (Or.inr (Nat.not_le.1 hmax))]
    exact iff_of_true (inside_some.2 hasset) fun h => absurd h hmax

theorem exists_byte {P : UInt8 → Prop} :
    (∃ b, data[off]? = some b ∧ P b) ↔ ∃ h : off < data.length, P data[off] := by
  constructor
  · rintro ⟨b, hb, hP⟩
    obtain ⟨hlt, rfl⟩ := List.getElem?_eq_some_iff.1 hb
    exact ⟨hlt, hP⟩
  · rintro ⟨hlt, hP⟩
    exact ⟨_, List.getElem?_eq_getElem hlt, hP⟩

/-- A parser that reads a byte behind the name. -/
theorem inside_named {k : BRAsset × ℕ → Option (BRAsset × Bool)} {d : ℕ}
    {f : BRAsset → ℕ → UInt8 → Option (BRAsset × Bool)}
    (hk : ∀ asset off, k (asset, off) = data[off + d]?.bind (f asset off)) :
    Inside ((parseName data asset).bind k) ↔ ∃ h : nameEnd data + d < data.length,
      Inside (f (named data asset) (nameEnd data) data[nameEnd data + d]) := by
  have hbeyond : ∀ r : BRAsset × ℕ, data.length < r.2 → ¬ Inside (k r) := by
    rintro ⟨asset, off⟩ hoff
    rw [hk, List.getElem?_eq_none_iff.2 (hoff.le.trans (Nat.le_add_right _ _))]
    exact not_inside_none
  rw [inside_parseName hbeyond, hk, inside_byte, exists_byte]
  constructor
  · exact fun h => h.2
  · exact fun h => ⟨(Nat.le_add_right _ _).trans h.1.le, h⟩

/-! ## The four parsers -/

theorem inside_transfer (hasset : asset.IPFSHash.length < IPFS_STRING_SIZE)
    (hlong : 30 < script.length) : Inside (transferAssetFromScriptPubKey script asset) ↔
      (script.length ≤ MAX_SCRIPT_LENGTH →
        nameEnd (script.drop 31) + 8 < (script.drop 31).length) := by
  rw [transferAssetFromScriptPubKey, inside_parseScript hlong hasset]
  refine imp_congr_right fun _ => (inside_named fun asset off => rfl).trans ?_
  exact ⟨fun h => h.1, fun h => ⟨h, inside_some.2 hasset⟩⟩

theorem inside_owner (hasset : asset.IPFSHash.length < IPFS_STRING_SIZE)
    (hlong : 30 < script.length) : Inside (ownerAssetFromScriptPubKey script asset) ↔
      (script.length ≤ MAX_SCRIPT_LENGTH →
        nameEnd (script.drop 31) < (script.drop 31).length) := by
  rw [ownerAssetFromScriptPubKey, inside_parseScript hlong hasset]
  refine imp_congr_right fun _ => ?_
  generalize script.drop 31 = data
  refine (inside_parseName ?_).trans ?_
  · rintro ⟨asset, off⟩ hoff
    have hamount : ¬ off + 8 < data.length := fun h => by omega
    dsimp only at hoff ⊢
    rw [if_neg hamount, List.getElem?_eq_none_iff.2 hoff.le]
    exact not_inside_none
  · dsimp only
    by_cases hamount : nameEnd data + 8 < data.length
    · rw [if_pos hamount]
      refine iff_of_true ⟨by omega, ?_⟩ (by omega)
      exact inside_byte.2 (exists_byte.2 ⟨hamount, inside_some.2 hasset⟩)
    · rw [if_neg hamount]
      constructor
      · rintro ⟨-, h⟩
        exact (exists_byte.1 (inside_byte.1 h)).1
      · intro h
        exact ⟨h.le, inside_byte.2 (exists_byte.2 ⟨h, inside_some.2 hasset⟩)⟩

/-- Instead of a hash there may be the end of the script. -/
theorem inside_hash {asset' : BRAsset} (h : off < data.length)
    (hasset : asset.IPFSHash.length < IPFS_STRING_SIZE) :
    Inside (if data[off] = OP_DROP then some (asset, true) else parseIPFS data off asset') ↔
      (data[off]? ≠ some OP_DROP → HashAt data off) := by
  rw [List.getElem?_eq_getElem h]
  by_cases hdrop : data[off] = OP_DROP
  · rw [if_pos hdrop]
    exact iff_of_true (inside_some.2 hasset) fun hne => absurd (congrArg some hdrop) hne
  · rw [if_neg hdrop, inside_parseIPFS h]
    exact ⟨fun hat _ => hat, fun hat => hat fun heq => hdrop (Option.some.inj heq)⟩

theorem inside_reissue (hasset : asset.IPFSHash.length < IPFS_STRING_SIZE)
    (hlong : 30 < script.length) : Inside (reissueAssetFromScriptPubKey script asset) ↔
      (script.length ≤ MAX_SCRIPT_LENGTH → ReissueLayout (script.drop 31)) := by
  rw [reissueAssetFromScriptPubKey, inside_parseScript hlong hasset]
  refine imp_congr_right fun _ => (inside_named fun asset off => rfl).trans ?_
  generalize script.drop 31 = data
  constructor
  · rintro ⟨hunit, h⟩
    obtain ⟨hreissuable, h⟩ := exists_byte.1 (inside_byte.1 h)
    obtain ⟨hnext, h⟩ := exists_byte.1 (inside_byte.1 h)
    exact ⟨hnext, (inside_hash hnext (by exact hasset)).1 h⟩
  · rintro ⟨hnext, h⟩
    refine ⟨by omega, inside_byte.2 (exists_byte.2 ⟨by omega, ?_⟩)⟩
    exact inside_byte.2 (exists_byte.2 ⟨hnext, (inside_hash hnext (by exact hasset)).2 h⟩)

theorem inside_new (hasset : asset.IPFSHash.length < IPFS_STRING_SIZE)
    (hlong : 30 < script.length) : Inside (newAssetFromScriptPubKey script asset) ↔
      (script.length ≤ MAX_SCRIPT_LENGTH → NewLayout (script.drop 31)) := by
  rw [newAssetFromScriptPubKey, inside_parseScript hlong hasset]
  refine imp_congr_right fun _ => (inside_named fun asset off => rfl).trans ?_
  generalize script.drop 31 = data
  constructor
  · rintro ⟨hunit, h⟩
    obtain ⟨hreissuable, h⟩ := exists_byte.1 (inside_byte.1 h)
    obtain ⟨hflag, h⟩ := exists_byte.1 (inside_byte.1 h)
    refine ⟨hflag, fun hne => ?_⟩
    have hset : data[nameEnd data + 10] ≠ 0 := by
      intro hzero
      exact hne (by rw [List.getElem?_eq_getElem hflag, hzero])
    dsimp only at h
    rw [if_neg hset] at h
    obtain ⟨hnext, h⟩ := exists_byte.1 (inside_byte.1 h)
    exact ⟨hnext, (inside_hash hnext (by exact hasset)).1 h⟩
  · rintro ⟨hflag, h⟩
    refine ⟨by omega, inside_byte.2 (exists_byte.2 ⟨by omega, ?_⟩)⟩
    refine inside_byte.2 (exists_byte.2 ⟨hflag, ?_⟩)
    by_cases hzero : data[nameEnd data + 10] = 0
    · dsimp only
      rw [if_pos hzero]
      exact inside_some.2 hasset
    · obtain ⟨hnext, hhash⟩ := h fun heq => hzero
        (Option.some.inj ((List.getElem?_eq_getElem hflag).symm.trans heq))
      dsimp only
      rw [if_neg hzero]
      exact inside_byte.2 (exists_byte.2 ⟨hnext, (inside_hash hnext (by exact hasset)).2 hhash⟩)

theorem length_of_isScriptOf {n : ℕ} {tag : UInt8} (h : isScriptOf n tag script) :
    n < script.length := by
  simp only [isScriptOf, Bool.and_eq_true, decide_eq_true_eq] at h
  exact h.1.1

/-- A script is read within its bytes, and its hash fits, if the data behind the tag are long
    enough for their parser; longer scripts than `MAX_SCRIPT_LENGTH` are not read. -/
theorem parsesInside_iff (script : Bytes) :
    ParsesInside script ↔ (script.length ≤ MAX_SCRIPT_LENGTH → Layout script) := by
  have hparse : ∀ asset : BRAsset, asset.IPFSHash.length < IPFS_STRING_SIZE →
      (Inside (getAssetData script asset) ↔
        (script.length ≤ MAX_SCRIPT_LENGTH → Layout script)) := by
    intro asset hasset
    rw [getAssetData, Layout]
    by_cases hnew : isScriptNewAsset script
    · have hlong := length_of_isScriptOf hnew
      rw [if_pos hnew, if_pos hnew]
      exact inside_new hasset (by omega)
    by_cases htransfer : isScriptTransferAsset script
    · rw [if_neg hnew, if_neg hnew, if_pos htransfer, if_pos htransfer]
      exact inside_transfer hasset (length_of_isScriptOf htransfer)
    by_cases howner : isScriptOwnerAsset script
    · rw [if_neg hnew, if_neg hnew, if_neg htransfer, if_neg htransfer, if_pos howner,
        if_pos howner]
      exact inside_owner hasset (length_of_isScriptOf howner)
    by_cases hreissue : isScriptReissueAsset script
    · rw [if_neg hnew, if_neg hnew, if_neg htransfer, if_neg htransfer, if_neg howner,
        if_neg howner, if_pos hreissue, if_pos hreissue]
      exact inside_reissue hasset (length_of_isScriptOf hreissue)
    · rw [if_neg hnew, if_neg hnew, if_neg htransfer, if_neg htransfer, if_neg howner,
        if_neg howner, if_neg hreissue, if_neg hreissue]
      exact iff_of_true (inside_some.2 hasset) fun _ => trivial
  constructor
  · intro h
    exact (hparse {} (by decide)).1 (h {} (by decide))
  · exact fun h asset hasset => (hparse asset hasset).2 h

/-- A transfer that ends with its tag. -/
def cutTransfer : Bytes :=
  List.replicate 25 0 ++ [OP_RVN_ASSET, 5, RVN_R, RVN_V, RVN_N, RVN_T]

theorem not_parsesInside : ¬ ∀ script, isScriptAsset script → ParsesInside script := by
  intro h
  obtain ⟨r, ok, hread, -⟩ := h cutTransfer (by decide) {} (by decide)
  have hnone : getAssetData cutTransfer {} = none := by decide
  rw [hnone] at hread
  cases hread

end

end RavenWallet
