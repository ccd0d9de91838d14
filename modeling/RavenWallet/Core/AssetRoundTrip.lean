/-
  What the asset parsers read of what the builders write.

  The asset data start with the name and the amount (`leading`); the fields
  behind them are read at fixed distances.  The parsers of new and reissued
  assets take a hash that starts with `OP_DROP` for the end of the script:
  `assetScript_readsBack` says that this is the only asset that is not read back.
-/
import RavenWallet.Core.AssetScripts

namespace RavenWallet

/-! ## The data behind the tag -/

/-- A name of `k` bytes and an amount, and what follows. -/
def leading (name : Bytes) (amount : UInt64) (more : Bytes) : Bytes :=
  UInt8.ofNat name.length :: (name ++ (toLE 8 amount.toNat ++ more))

section
variable {name more : Bytes} {amount : UInt64} {asset : BRAsset} {i j : ℕ}

theorem length_leading : (leading name amount more).length = 1 + name.length + 8 + more.length := by
  simp only [leading, List.length_cons, List.length_append, length_toLE]
  omega

theorem parseName_leading (hn : name.length < 0xfd) (tail : Bytes) :
    parseName (UInt8.ofNat name.length :: (name ++ tail)) asset =
      some ({ asset with name, nameLen := name.length }, 1 + name.length) := by
  have hpeek : peek (UInt8.ofNat name.length :: (name ++ tail)) 1 name.length = some name :=
    peek_parts (a := [UInt8.ofNat name.length]) rfl rfl rfl
  unfold parseName
  rw [varInt_small hn]
  simp only [List.length_cons, Nat.le_add_left, if_true, hpeek, Option.bind_eq_bind,
    Option.bind_some]

theorem amountAt_leading : amountAt (leading name amount more) (1 + name.length) = amount := by
  have hpeek : peek (leading name amount more) (1 + name.length) 8 = some (toLE 8 amount.toNat) :=
    peek_parts (a := UInt8.ofNat name.length :: name) (c := more) (by simp [leading])
      (by rw [List.length_cons, Nat.add_comm]) (length_toLE _ _)
  have hlt : amount.toNat < 256 ^ 8 := amount.toNat_lt
  rw [amountAt, hpeek, Option.map_some, Option.getD_some, ofLE_toLE hlt, UInt64.ofNat_toNat]

theorem getElem?_leading (h : j = 1 + name.length + (8 + i)) :
    (leading name amount more)[j]? = more[i]? := by
  have hlen : (UInt8.ofNat name.length :: (name ++ toLE 8 amount.toNat)).length =
      1 + name.length + 8 := by
    simp only [List.length_cons, List.length_append, length_toLE]
    omega
  have hsplit : leading name amount more =
      (UInt8.ofNat name.length :: (name ++ toLE 8 amount.toNat)) ++ more := by
    simp [leading]
  rw [hsplit, List.getElem?_append_right (by omega), hlen]
  congr 1
  omega

theorem peek_leading {pre xs rest : Bytes} {n : ℕ} (hx : xs.length = n)
    (h : j = 1 + name.length + (8 + pre.length)) :
    peek (leading name amount (pre ++ (xs ++ rest))) j n = some xs := by
  refine peek_parts (a := UInt8.ofNat name.length :: (name ++ (toLE 8 amount.toNat ++ pre)))
    (c := rest) ?_ ?_ hx
  · simp [leading]
  · simp only [List.length_cons, List.length_append, length_toLE]
    omega

end

/-! ## Recognising a script -/

section
variable {b : AssetWriter} {asset : BRAsset} {head tail : Bytes} {n : ℕ} {tag : UInt8}

/-- The whole script: the address script, the suffix of the builder, and unused bytes. -/
def writtenScript (b : AssetWriter) (asset : BRAsset) (head tail : Bytes) : Bytes :=
  head ++ (assetSuffix (b.payload asset) ++ tail)

theorem length_writtenScript (b : AssetWriter) (asset : BRAsset) (tail : Bytes)
    (hh : head.length = 25) : (writtenScript b asset head tail).length =
      (b.fields asset).flatten.length + 32 + tail.length := by
  simp only [writtenScript, assetSuffix, List.length_append, List.length_cons, List.length_nil,
    AssetWriter.length_payload, hh]
  omega

theorem isScriptOf_written (hh : head.length = 25)
    (hn : n < (b.fields asset).flatten.length + 32) :
    isScriptOf n tag (writtenScript b asset head tail) = decide (b.tag = tag) := by
  have hlen := length_writtenScript b asset tail hh
  have h₂₅ : (writtenScript b asset head tail)[25]? = some OP_RVN_ASSET :=
    getElem?_parts (a := head) rfl hh
  have h₂₇ : peek (writtenScript b asset head tail) 27 4 = some [RVN_R, RVN_V, RVN_N, b.tag] :=
    peek_parts (a := head ++ [OP_RVN_ASSET, UInt8.ofNat (b.payload asset).length])
      (c := (b.fields asset).flatten ++ ([OP_DROP] ++ tail))
      (by simp [writtenScript, assetSuffix, AssetWriter.payload]) (by simp [hh]) rfl
  have hlong : (writtenScript b asset head tail).length > n := by omega
  rw [isScriptOf, h₂₅, h₂₇, decide_eq_true hlong]
  simp

/-- The other recognisers do not match. -/
theorem isScriptOf_other (hh : head.length = 25) (ht : b.tag ≠ tag) :
    isScriptOf n tag (writtenScript b asset head tail) = false := by
  have h₂₇ : peek (writtenScript b asset head tail) 27 4 = some [RVN_R, RVN_V, RVN_N, b.tag] :=
    peek_parts (a := head ++ [OP_RVN_ASSET, UInt8.ofNat (b.payload asset).length])
      (c := (b.fields asset).flatten ++ ([OP_DROP] ++ tail))
      (by simp [writtenScript, assetSuffix, AssetWriter.payload]) (by simp [hh]) rfl
  rw [isScriptOf, h₂₇]
  simp [ht]

theorem assetScript_written (hh : head.length = 25) :
    assetScript (writtenScript b asset head tail) =
      some ((b.fields asset).flatten ++ (OP_DROP :: tail)) := by
  have hlen := length_writtenScript b asset tail hh
  refine peek_parts (c := [])
    (a := head ++ (OP_RVN_ASSET :: UInt8.ofNat (b.payload asset).length ::
      [RVN_R, RVN_V, RVN_N, b.tag])) ?_ (by simp [hh]) ?_
  · simp [writtenScript, assetSuffix, AssetWriter.payload]
  · simp only [List.length_append, List.length_cons]
    omega

/-- The script is parsed from its data. -/
theorem parseScript_written {parse : Bytes → Option (BRAsset × Bool)} (hh : head.length = 25)
    (hm : (writtenScript b asset head tail).length ≤ MAX_SCRIPT_LENGTH) (data : BRAsset) :
    parseScript (writtenScript b asset head tail) data parse =
      parse ((b.fields asset).flatten ++ (OP_DROP :: tail)) := by
  have hlen := length_writtenScript b asset tail hh
  have hne : ¬ (writtenScript b asset head tail = [] ∨
      (writtenScript b asset head tail).length > MAX_SCRIPT_LENGTH) := by
    rintro (hnil | hlong)
    · rw [hnil, List.length_nil] at hlen; omega
    · omega
  rw [parseScript, if_neg hne, assetScript_written hh, Option.bind_some]

end

/-! ## Reading the fields -/

/-- The parsers of `script` start from the data `d`. -/
def ParsedFrom (script d : Bytes) : Prop :=
  ∀ data parse, parseScript script data parse = parse d

section
variable {name hash more tail script : Bytes} {amount : UInt64} {unit reissuable hasIPFS : UInt8}
  {asset data : BRAsset} {j : ℕ}

theorem parseName_leading' (hn : name.length < 0xfd) :
    parseName (leading name amount more) asset =
      some ({ asset with name, nameLen := name.length }, 1 + name.length) :=
  parseName_leading hn _

/-- A hash behind the fields `pre`, followed by `OP_DROP`, is read. -/
theorem parseIPFS_leading (pre : Bytes) (hl : hash.length = IPFS_HASH_LENGTH)
    (hj : j = 1 + name.length + (8 + pre.length)) :
    parseIPFS (leading name amount (pre ++ (hash ++ OP_DROP :: tail))) j asset =
      some ({ asset with IPFSHash := encodeIPFS hash }, true) := by
  have hlen : (leading name amount (pre ++ (hash ++ OP_DROP :: tail))).length =
      j + hash.length + 1 + tail.length := by
    simp only [length_leading, List.length_append, List.length_cons]
    omega
  have hlast : (leading name amount (pre ++ (hash ++ OP_DROP :: tail)))[j + IPFS_HASH_LENGTH]? =
      some OP_DROP := by
    rw [getElem?_leading (i := pre.length + hash.length) (by omega), ← List.append_assoc]
    exact getElem?_parts rfl (by rw [List.length_append])
  unfold parseIPFS
  rw [if_pos (by omega), peek_leading hl hj]
  simp only [Option.bind_eq_bind, Option.bind_some, hlast, decide_true]

theorem newAsset_parsed (hn : name.length < 0xfd)
    (hp : ParsedFrom script (leading name amount (unit :: reissuable :: hasIPFS :: more))) :
    newAssetFromScriptPubKey script data =
      let asset := { data with name, nameLen := name.length, amount, unit, reissuable, hasIPFS }
      if hasIPFS = 0 then some (asset, true)
      else more.head?.bind fun next =>
        if next = OP_DROP then some (asset, true)
        else parseIPFS (leading name amount ([unit, reissuable, hasIPFS] ++ more))
          (1 + name.length + 11) asset := by
  rw [newAssetFromScriptPubKey, hp, parseName_leading' hn]
  simp only [Option.bind_eq_bind, Option.bind_some, amountAt_leading,
    getElem?_leading (i := 0) (by omega : 1 + name.length + 8 = 1 + name.length + (8 + 0)),
    getElem?_leading (i := 1) (by omega : 1 + name.length + 9 = 1 + name.length + (8 + 1)),
    getElem?_leading (i := 2) (by omega : 1 + name.length + 10 = 1 + name.length + (8 + 2)),
    getElem?_leading (i := 3) (by omega : 1 + name.length + 11 = 1 + name.length + (8 + 3)),
    List.getElem?_cons_zero, List.getElem?_cons_succ, List.head?_eq_getElem?]
  rfl

theorem reissueAsset_parsed (hn : name.length < 0xfd)
    (hp : ParsedFrom script (leading name amount (unit :: reissuable :: more))) :
    reissueAssetFromScriptPubKey script data =
      let asset := { data with name, nameLen := name.length, amount, unit, reissuable }
      more.head?.bind fun next =>
        if next = OP_DROP then some ({ asset with hasIPFS := 0 }, true)
        else parseIPFS (leading name amount ([unit, reissuable] ++ more))
          (1 + name.length + 10) { asset with hasIPFS := 1 } := by
  rw [reissueAssetFromScriptPubKey, hp, parseName_leading' hn]
  simp only [Option.bind_eq_bind, Option.bind_some, amountAt_leading,
    getElem?_leading (i := 0) (by omega : 1 + name.length + 8 = 1 + name.length + (8 + 0)),
    getElem?_leading (i := 1) (by omega : 1 + name.length + 9 = 1 + name.length + (8 + 1)),
    getElem?_leading (i := 2) (by omega : 1 + name.length + 10 = 1 + name.length + (8 + 2)),
    List.getElem?_cons_zero, List.getElem?_cons_succ, List.head?_eq_getElem?]
  rfl

theorem transferAsset_parsed (hn : name.length < 0xfd)
    (hp : ParsedFrom script (leading name amount (OP_DROP :: tail))) :
    transferAssetFromScriptPubKey script data =
      some ({ data with name, nameLen := name.length, amount }, true) := by
  rw [transferAssetFromScriptPubKey, hp, parseName_leading' hn]
  simp only [Option.bind_eq_bind, Option.bind_some, amountAt_leading,
    getElem?_leading (i := 0) (by omega : 1 + name.length + 8 = 1 + name.length + (8 + 0)),
    List.getElem?_cons_zero, decide_true]

/-- Without room for an amount there is one coin. -/
theorem ownerAsset_parsed (hn : name.length < 0xfd) (ht : tail.length < 8)
    (hp : ParsedFrom script (UInt8.ofNat name.length :: (name ++ OP_DROP :: tail))) :
    ownerAssetFromScriptPubKey script data =
      some ({ data with name, nameLen := name.length, amount := COIN }, true) := by
  have hlast : (UInt8.ofNat name.length :: (name ++ OP_DROP :: tail))[1 + name.length]? =
      some OP_DROP :=
    getElem?_parts (a := UInt8.ofNat name.length :: name) rfl
      (by rw [List.length_cons, Nat.add_comm])
  have hshort : ¬ 1 + name.length + 8 <
      (UInt8.ofNat name.length :: (name ++ OP_DROP :: tail)).length := by
    simp only [List.length_cons, List.length_append]
    omega
  rw [ownerAssetFromScriptPubKey, hp, parseName_leading hn]
  simp only [Option.bind_eq_bind, Option.bind_some, if_neg hshort, hlast, decide_true]
  rfl

end

/-! ## Reading what was written -/

/-- `hasIPFS` is a flag. -/
def BRAsset.Flagged (asset : BRAsset) : Prop := asset.hasIPFS = 0 ∨ asset.hasIPFS = 1

/-- The hash that a builder adds is one that the parsers read. -/
def BRAsset.ReadsIPFS (asset : BRAsset) : Prop :=
  asset.hasIPFS = 1 ∧ (decodeIPFS asset.IPFSHash).head? ≠ some OP_DROP

instance (asset : BRAsset) : Decidable asset.ReadsIPFS := inferInstanceAs (Decidable (_ ∧ _))

namespace AssetScript

/-- What `getAssetData` makes of `data` on the script of a builder. -/
def read (asset data : BRAsset) : AssetScript → BRAsset
  | newAsset =>
    let data := { data with
      type := .NEW_ASSET, name := asset.name, nameLen := asset.nameLen, amount := asset.amount,
      unit := asset.unit, reissuable := asset.reissuable, hasIPFS := asset.hasIPFS }
    if asset.ReadsIPFS then { data with IPFSHash := encodeIPFS (decodeIPFS asset.IPFSHash) }
    else data
  | reissue =>
    let data := { data with
      type := .REISSUE, name := asset.name, nameLen := asset.nameLen, amount := asset.amount,
      unit := asset.unit, reissuable := asset.reissuable, hasIPFS := 0 }
    if asset.ReadsIPFS then
      { data with hasIPFS := 1, IPFSHash := encodeIPFS (decodeIPFS asset.IPFSHash) }
    else data
  | transfer | transferOwner =>
    { data with
      type := .TRANSFER, name := asset.name, nameLen := asset.nameLen, amount := asset.amount }
  | owner =>
    { data with
      type := .OWNER, name := asset.name ++ OWNER_TAG, nameLen := asset.nameLen + 1
      amount := COIN }
  | transferOwnerWithoutTag =>
    { data with
      type := .TRANSFER, name := asset.name ++ OWNER_TAG, nameLen := asset.nameLen + 1
      amount := COIN }

section
variable {asset data : BRAsset} {head tail : Bytes}

/-- The data of a builder with the fields `more` behind the amount. -/
theorem flatten_leading {name : Bytes} (amount : UInt64) (more : Bytes) {n : ℕ}
    (hl : name.length = n) (hn : n < 0xfd) :
    [varIntSet (25 + 6) n, name, toLE 8 amount.toNat].flatten ++ more = leading name amount more := by
  subst hl
  rw [varIntSet_small (by decide) hn]
  simp [leading]

/-- The parsers start from the fields of the builder. -/
theorem parsedFrom_written (hname : asset.Named) (hv : asset.ValidIPFS) (hh : head.length = 25)
    (ht : tail.length < 8) (b : AssetScript) :
    ParsedFrom (writtenScript b.writer asset head tail)
      ((b.writer.fields asset).flatten ++ (OP_DROP :: tail)) := by
  intro data parse
  refine parseScript_written hh ?_ data
  have hlen := b.length_payload hname hv
  have hsize := b.size_le hname
  rw [AssetWriter.length_payload] at hlen
  rw [length_writtenScript _ _ _ hh]
  have hover : b.overhead asset ≤ 50 := by
    have hipfs : IPFS_HASH_LENGTH = 34 := rfl
    cases b <;> simp only [overhead] <;> (try split_ifs) <;> omega
  have hle := hname.le
  have hmax : MAX_SCRIPT_LENGTH = 256 := rfl
  omega

/-- The hash of an asset that has one, by its first byte. -/
theorem ipfs_cons (hv : asset.ValidIPFS) (h : asset.hasIPFS = 1) : ∃ c cs,
    decodeIPFS asset.IPFSHash = c :: cs ∧ (c :: cs).length = IPFS_HASH_LENGTH ∧
    asset.ipfsBytes.flatten = c :: cs ∧ (asset.ReadsIPFS ↔ c ≠ OP_DROP) := by
  have hl := hv h
  rcases hd : decodeIPFS asset.IPFSHash with _ | ⟨c, cs⟩
  · rw [hd] at hl; cases hl
  · rw [hd] at hl
    refine ⟨c, cs, rfl, hl, ?_, ?_⟩
    · rw [BRAsset.ipfsBytes, if_pos h, hd, List.flatten_cons, List.flatten_nil, List.append_nil]
    · simp [BRAsset.ReadsIPFS, h, hd]

theorem newAsset_written (hname : asset.Named) (hf : asset.Flagged) (hv : asset.ValidIPFS)
    {script : Bytes} (hp : ParsedFrom script (leading asset.name asset.amount
      (asset.unit :: asset.reissuable :: asset.hasIPFS ::
        (asset.ipfsBytes.flatten ++ OP_DROP :: tail)))) :
    newAssetFromScriptPubKey script { data with type := .NEW_ASSET } =
      some (newAsset.read asset data, true) := by
  have hlen : asset.name.length < 0xfd := by
    rw [hname.length]
    exact lt_of_le_of_lt hname.le (by decide)
  rw [newAsset_parsed hlen hp, hname.length]
  rcases hf with h0 | h1
  · have hnot : ¬ asset.ReadsIPFS := fun h => absurd (h0.symm.trans h.1) (by decide)
    simp only [h0, if_true, read, if_neg hnot]
  · obtain ⟨c, cs, hd, hl, hi, hr⟩ := ipfs_cons hv h1
    have hne : ¬ asset.hasIPFS = 0 := by rw [h1]; decide
    simp only [if_neg hne, hi, List.cons_append, List.head?_cons, Option.bind_some, read, hr]
    by_cases hc : c = OP_DROP
    · rw [if_pos hc, if_neg (not_not_intro hc)]
    · rw [if_neg hc, if_pos hc, hd]
      exact parseIPFS_leading [asset.unit, asset.reissuable, asset.hasIPFS] hl
        (by rw [hname.length]; rfl)

theorem reissue_written (hname : asset.Named) (hf : asset.Flagged) (hv : asset.ValidIPFS)
    {script : Bytes} (hp : ParsedFrom script (leading asset.name asset.amount
      (asset.unit :: asset.reissuable :: (asset.ipfsBytes.flatten ++ OP_DROP :: tail)))) :
    reissueAssetFromScriptPubKey script { data with type := .REISSUE } =
      some (reissue.read asset data, true) := by
  have hlen : asset.name.length < 0xfd := by
    rw [hname.length]
    exact lt_of_le_of_lt hname.le (by decide)
  rw [reissueAsset_parsed hlen hp, hname.length]
  rcases hf with h0 | h1
  · have hnot : ¬ asset.ReadsIPFS := fun h => absurd (h0.symm.trans h.1) (by decide)
    have hi : asset.ipfsBytes.flatten = [] := by
      rw [BRAsset.ipfsBytes, h0, if_neg (by decide)]
      rfl
    simp only [hi, List.nil_append, List.head?_cons, Option.bind_some, if_true, read, if_neg hnot]
  · obtain ⟨c, cs, hd, hl, hi, hr⟩ := ipfs_cons hv h1
    simp only [hi, List.cons_append, List.head?_cons, Option.bind_some, read, hr]
    by_cases hc : c = OP_DROP
    · rw [if_pos hc, if_neg (not_not_intro hc)]
    · rw [if_neg hc, if_pos hc, hd]
      exact parseIPFS_leading [asset.unit, asset.reissuable] hl
        (by rw [hname.length]; rfl)

/-- On a script that carries the tag of a transfer only that recogniser matches; and so on. -/
theorem getAssetData_tag {b : AssetWriter} (hh : head.length = 25)
    (hl : 39 < (b.fields asset).flatten.length + 32 ∨ b.tag ≠ RVN_Q)
    (h30 : 30 < (b.fields asset).flatten.length + 32) :
    getAssetData (writtenScript b asset head tail) data =
      if b.tag = RVN_Q then
        newAssetFromScriptPubKey (writtenScript b asset head tail) { data with type := .NEW_ASSET }
      else if b.tag = RVN_T then
        transferAssetFromScriptPubKey (writtenScript b asset head tail)
          { data with type := .TRANSFER }
      else if b.tag = RVN_O then
        ownerAssetFromScriptPubKey (writtenScript b asset head tail) { data with type := .OWNER }
      else if b.tag = RVN_R then
        reissueAssetFromScriptPubKey (writtenScript b asset head tail)
          { data with type := .REISSUE }
      else some (data, false) := by
  have hQ : isScriptNewAsset (writtenScript b asset head tail) = decide (b.tag = RVN_Q) := by
    rcases hl with hl | hl
    · exact isScriptOf_written hh hl
    · rw [decide_eq_false hl]
      exact isScriptOf_other hh hl
  have hT : isScriptTransferAsset (writtenScript b asset head tail) = decide (b.tag = RVN_T) :=
    isScriptOf_written hh h30
  have hO : isScriptOwnerAsset (writtenScript b asset head tail) = decide (b.tag = RVN_O) :=
    isScriptOf_written hh h30
  have hR : isScriptReissueAsset (writtenScript b asset head tail) = decide (b.tag = RVN_R) :=
    isScriptOf_written hh h30
  rw [getAssetData, hQ, hT, hO, hR]
  simp only [decide_eq_true_eq]

theorem getAssetData_written (hname : asset.Named) (hf : asset.Flagged) (hv : asset.ValidIPFS)
    (hh : head.length = 25) (ht : tail.length < 8) (b : AssetScript) :
    getAssetData (writtenScript b.writer asset head tail) data =
      some (b.read asset data, true) := by
  have hparsed := parsedFrom_written hname hv hh ht b
  have hpay := b.length_payload hname hv
  rw [AssetWriter.length_payload] at hpay
  have hpos := hname.pos
  have hle := hname.le
  have hlen : asset.name.length < 0xfd := by rw [hname.length]; omega
  have hbytes : asset.nameBytes = asset.name := by
    rw [BRAsset.nameBytes, List.take_of_length_le (Nat.le_of_eq hname.length)]
  have htag : (asset.name ++ OWNER_TAG).length = asset.nameLen + 1 := by
    rw [List.length_append, hname.length]
    rfl
  cases b with
  | newAsset =>
    have hfields : (newAsset.writer.fields asset).flatten ++ OP_DROP :: tail =
        leading asset.name asset.amount (asset.unit :: asset.reissuable :: asset.hasIPFS ::
          (asset.ipfsBytes.flatten ++ OP_DROP :: tail)) := by
      rw [← flatten_leading asset.amount _ hname.length (by omega)]
      simp [writer, BRTxOutput.setNewAssetScript, hbytes, BRAsset.amountBytes]
    rw [hfields] at hparsed
    simp only [overhead] at hpay
    rw [getAssetData_tag hh (Or.inl (by omega)) (by omega)]
    exact newAsset_written hname hf hv hparsed
  | reissue =>
    have hfields : (reissue.writer.fields asset).flatten ++ OP_DROP :: tail =
        leading asset.name asset.amount (asset.unit :: asset.reissuable ::
          (asset.ipfsBytes.flatten ++ OP_DROP :: tail)) := by
      rw [← flatten_leading asset.amount _ hname.length (by omega)]
      simp [writer, BRTxOutput.setReissueAssetScript, hbytes, BRAsset.amountBytes]
    rw [hfields] at hparsed
    simp only [overhead] at hpay
    rw [getAssetData_tag hh (Or.inl (by omega)) (by omega)]
    exact reissue_written hname hf hv hparsed
  | transfer =>
    have hfields : (transfer.writer.fields asset).flatten ++ OP_DROP :: tail =
        leading asset.name asset.amount (OP_DROP :: tail) := by
      rw [← flatten_leading asset.amount _ hname.length (by omega)]
      simp [writer, BRTxOutput.setTransferAssetScript, hbytes, BRAsset.amountBytes]
    rw [hfields] at hparsed
    simp only [overhead] at hpay
    rw [getAssetData_tag hh (Or.inl (by omega)) (by omega)]
    exact (transferAsset_parsed hlen hparsed).trans (by rw [hname.length]; rfl)
  | transferOwner =>
    have hfields : (transferOwner.writer.fields asset).flatten ++ OP_DROP :: tail =
        leading asset.name asset.amount (OP_DROP :: tail) := by
      rw [← flatten_leading asset.amount _ hname.length (by omega)]
      simp [writer, BRTxOutput.setTransferOwnerAssetScript, hbytes, BRAsset.amountBytes]
    rw [hfields] at hparsed
    simp only [overhead] at hpay
    rw [getAssetData_tag hh (Or.inl (by omega)) (by omega)]
    exact (transferAsset_parsed hlen hparsed).trans (by rw [hname.length]; rfl)
  | transferOwnerWithoutTag =>
    have hfields : (transferOwnerWithoutTag.writer.fields asset).flatten ++ OP_DROP :: tail =
        leading (asset.name ++ OWNER_TAG) COIN (OP_DROP :: tail) := by
      rw [← flatten_leading COIN _ htag (by omega)]
      simp [writer, BRTxOutput.setTransferOwnerAssetScriptWithoutTag, hbytes, OWNER_LENGTH]
    rw [hfields] at hparsed
    simp only [overhead] at hpay
    rw [getAssetData_tag hh (Or.inl (by omega)) (by omega)]
    exact (transferAsset_parsed (by omega) hparsed).trans (by rw [htag]; rfl)
  | owner =>
    have hfields : (owner.writer.fields asset).flatten ++ OP_DROP :: tail =
        UInt8.ofNat (asset.name ++ OWNER_TAG).length ::
          ((asset.name ++ OWNER_TAG) ++ OP_DROP :: tail) := by
      have hvar : varIntSet (25 + 6) (asset.nameLen + 1) = [UInt8.ofNat (asset.nameLen + 1)] :=
        varIntSet_small (by decide) (by omega)
      rw [htag, writer, BRTxOutput.setOwnerAssetScript]
      simp [hvar, hbytes]
    rw [hfields] at hparsed
    simp only [overhead] at hpay
    rw [getAssetData_tag hh (Or.inr (by decide)) (by omega)]
    exact (ownerAsset_parsed (by omega) ht hparsed).trans (by rw [htag]; rfl)

end

/-- `r` has the fields of `asset` that the script of a builder carries: a transfer carries the name
    and the amount, an owner script the name of the owner asset and one coin. -/
def Carries (asset r : BRAsset) : AssetScript → Prop
  | newAsset => r.type = .NEW_ASSET ∧ r.name = asset.name ∧ r.nameLen = asset.nameLen ∧
      r.amount = asset.amount ∧ r.unit = asset.unit ∧ r.reissuable = asset.reissuable ∧
      r.hasIPFS = asset.hasIPFS ∧
      (asset.hasIPFS = 1 → decodeIPFS r.IPFSHash = decodeIPFS asset.IPFSHash)
  | reissue => r.type = .REISSUE ∧ r.name = asset.name ∧ r.nameLen = asset.nameLen ∧
      r.amount = asset.amount ∧ r.unit = asset.unit ∧ r.reissuable = asset.reissuable ∧
      r.hasIPFS = asset.hasIPFS ∧
      (asset.hasIPFS = 1 → decodeIPFS r.IPFSHash = decodeIPFS asset.IPFSHash)
  | transfer | transferOwner => r.type = .TRANSFER ∧ r.name = asset.name ∧
      r.nameLen = asset.nameLen ∧ r.amount = asset.amount
  | owner => r.type = .OWNER ∧ r.name = asset.name ++ OWNER_TAG ∧ r.nameLen = asset.nameLen + 1 ∧
      r.amount = COIN
  | transferOwnerWithoutTag => r.type = .TRANSFER ∧ r.name = asset.name ++ OWNER_TAG ∧
      r.nameLen = asset.nameLen + 1 ∧ r.amount = COIN

/-- Applied behind an address script in a buffer of the announced size, the builder writes a script
    that `getAssetData` reads back, up to the returned length as well as with the whole buffer. -/
def ReadsBack (asset : BRAsset) (b : AssetScript) : Prop :=
  ∀ head rest data, head.length = 25 → 25 + rest.length = b.writer.size asset →
    ∃ script n, b.writer.set asset (head ++ rest) = some (script, n) ∧
      ∀ s, s = script.take n ∨ s = script →
        ∃ r, getAssetData s data = some (r, true) ∧ b.Carries asset r

section
variable {asset : BRAsset}

theorem carries_read {b : AssetScript} (hf : asset.Flagged)
    (hr : asset.hasIPFS = 1 → b = newAsset ∨ b = reissue → asset.ReadsIPFS) (data : BRAsset) :
    b.Carries asset (b.read asset data) := by
  have hhash : decodeIPFS (encodeIPFS (decodeIPFS asset.IPFSHash)) = decodeIPFS asset.IPFSHash :=
    base58Bytes_base58String _
  cases b with
  | newAsset =>
    unfold Carries read
    split_ifs with h
    · exact ⟨rfl, rfl, rfl, rfl, rfl, rfl, rfl, fun _ => hhash⟩
    · exact ⟨rfl, rfl, rfl, rfl, rfl, rfl, rfl, fun h1 => absurd (hr h1 (Or.inl rfl)) h⟩
  | reissue =>
    unfold Carries read
    split_ifs with h
    · exact ⟨rfl, rfl, rfl, rfl, rfl, rfl, h.1.symm, fun _ => hhash⟩
    · have h0 : asset.hasIPFS = 0 := hf.resolve_right fun h1 => h (hr h1 (Or.inr rfl))
      exact ⟨rfl, rfl, rfl, rfl, rfl, rfl, h0.symm, fun h1 => absurd (hr h1 (Or.inr rfl)) h⟩
  | _ => exact ⟨rfl, rfl, rfl, rfl⟩

/-- A hash that is not read is lost. -/
theorem not_carries_read (h1 : asset.hasIPFS = 1) (hv : asset.ValidIPFS) (hr : ¬ asset.ReadsIPFS)
    {b : AssetScript} (hb : b = newAsset ∨ b = reissue) :
    ¬ b.Carries asset (b.read asset {}) := by
  rcases hb with rfl | rfl
  · rintro ⟨-, -, -, -, -, -, -, hhash⟩
    have hlost : (newAsset.read asset {}).IPFSHash = [] := by simp [read, hr]
    have hnil : decodeIPFS [] = [] := by decide
    have hl := hv h1
    rw [← hhash h1, hlost, hnil] at hl
    exact absurd hl (by decide)
  · rintro ⟨-, -, -, -, -, -, hflag, -⟩
    have hlost : (reissue.read asset {}).hasIPFS = 0 := by simp [read, hr]
    rw [hlost, h1] at hflag
    exact absurd hflag (by decide)

/-- The buffer of a builder is filled but for a byte of a reissue. -/
theorem set_written {head rest : Bytes} (hname : asset.Named) (hf : asset.Flagged)
    (hv : asset.ValidIPFS) (b : AssetScript) (hh : head.length = 25)
    (hrest : 25 + rest.length = b.writer.size asset) : ∃ tail n, tail.length < 8 ∧
      b.writer.set asset (head ++ rest) = some (writtenScript b.writer asset head tail, n) ∧
      (writtenScript b.writer asset head tail).take n = writtenScript b.writer asset head [] := by
  have hpay := b.length_payload hname hv
  obtain ⟨hs, hm⟩ := b.size_le hname
  have hfill : b.writer.size asset ≤ asset.nameLen + b.overhead asset + 29 := by
    have hipfs : IPFS_HASH_LENGTH = 34 := rfl
    cases b with
    | newAsset =>
      simp only [writer, BRTxOutput.setNewAssetScript, overhead]
      rcases hf with h | h <;> simp [h] <;> omega
    | reissue =>
      simp only [writer, BRTxOutput.setReissueAssetScript, overhead]
      rcases hf with h | h <;> simp [h] <;> omega
    | _ =>
      simp only [writer, BRTxOutput.setTransferAssetScript, BRTxOutput.setOwnerAssetScript,
        BRTxOutput.setTransferOwnerAssetScript, BRTxOutput.setTransferOwnerAssetScriptWithoutTag,
        OWNER_LENGTH, overhead]
      omega
  refine ⟨rest.drop ((b.writer.payload asset).length + 3), _, ?_,
    AssetWriter.set_eq hh (Nat.le_of_eq hname.length.symm) (by omega) (by omega), ?_⟩
  · rw [List.length_drop]
    omega
  · rw [writtenScript, writtenScript, ← List.append_assoc, ← List.append_assoc, List.append_nil]
    refine List.take_left' ?_
    simp only [List.length_append, hh, assetSuffix, List.length_cons, List.length_nil]

/-- An asset whose hash starts with `OP_DROP` is not read back. -/
theorem not_readsBack {b : AssetScript} (hname : asset.Named) (hv : asset.ValidIPFS)
    (h1 : asset.hasIPFS = 1) (hb : b = newAsset ∨ b = reissue)
    (hdrop : (decodeIPFS asset.IPFSHash).head? = some OP_DROP) : ¬ b.ReadsBack asset := by
  intro h
  have hf : asset.Flagged := Or.inr h1
  have hsize := b.size_le hname
  have hhead : (List.replicate 25 (0 : UInt8)).length = 25 := List.length_replicate ..
  have hrest : 25 + (List.replicate (b.writer.size asset - 25) (0 : UInt8)).length =
      b.writer.size asset := by
    rw [List.length_replicate]
    omega
  obtain ⟨script, n, hset, hread⟩ := h _ _ {} hhead hrest
  obtain ⟨tail, n', ht, hset', -⟩ := set_written hname hf hv b hhead hrest
  obtain ⟨rfl, rfl⟩ := Prod.mk.inj (Option.some.inj (hset.symm.trans hset'))
  obtain ⟨r, hr, hc⟩ := hread _ (Or.inr rfl)
  rw [getAssetData_written hname hf hv hhead ht b] at hr
  obtain ⟨rfl, -⟩ := Prod.mk.inj (Option.some.inj hr)
  exact not_carries_read h1 hv (fun hri => hri.2 hdrop) hb hc

end

end AssetScript

/-- The scripts of the builders are read back exactly if the hash that a new or reissued asset has
    does not start with `OP_DROP`. -/
theorem assetScript_readsBack {asset : BRAsset} (hname : asset.Named) (hf : asset.Flagged)
    (hv : asset.ValidIPFS) (b : AssetScript) : b.ReadsBack asset ↔
      (asset.hasIPFS = 1 → b = .newAsset ∨ b = .reissue →
        (decodeIPFS asset.IPFSHash).head? ≠ some OP_DROP) := by
  constructor
  · intro h h1 hb hdrop
    exact AssetScript.not_readsBack hname hv h1 hb hdrop h
  · intro h head rest data hh hrest
    obtain ⟨tail, n, ht, hset, htake⟩ := AssetScript.set_written hname hf hv b hh hrest
    have hc := AssetScript.carries_read hf (fun h1 hb => ⟨h1, h h1 hb⟩) data
    refine ⟨_, n, hset, ?_⟩
    rintro s (rfl | rfl)
    · rw [htake]
      exact ⟨_, AssetScript.getAssetData_written hname hf hv hh (by decide) b, hc⟩
    · exact ⟨_, AssetScript.getAssetData_written hname hf hv hh ht b, hc⟩

theorem assetScript_readsBack_long : AssetScript.newAsset.ReadsBack longAsset :=
  (assetScript_readsBack longAsset_named (Or.inr rfl) longAsset_validIPFS .newAsset).2
    fun _ _ => by decide +kernel

/-- An asset whose hash starts with `OP_DROP`. -/
def dropAsset : BRAsset :=
  { name := [65], nameLen := 1, amount := 100000000, hasIPFS := 1
    IPFSHash := encodeIPFS (OP_DROP :: List.replicate 33 7) }

/-- The hash of `dropAsset` is not read back. -/
theorem not_assetScript_readsBack :
    ¬ ∀ (asset : BRAsset) (b : AssetScript), asset.Named → asset.Flagged → asset.ValidIPFS →
      b.ReadsBack asset := by
  intro h
  have hhash : decodeIPFS dropAsset.IPFSHash = OP_DROP :: List.replicate 33 7 :=
    base58Bytes_base58String _
  have hname : dropAsset.Named := ⟨rfl, by decide, by decide⟩
  have hv : dropAsset.ValidIPFS := fun _ => by rw [hhash]; rfl
  refine AssetScript.not_readsBack hname hv rfl (Or.inl rfl) ?_
    (h dropAsset .newAsset hname (Or.inr rfl) hv)
  rw [hhash]
  rfl

end RavenWallet
