/-
  The fees of the transactions for assets (`BRWalletCreateTxForRootAssetTransferOwnership`,
  `BRWalletCreateTxForRootAssetCreation` and `BRWalletCreateTxForAssetsReissue` of
  BRWallet.c, and the two functions of `AssetTransfer`).

  All of them let `BRWalletCreateTxForOutputs` pay for an output and then add inputs and
  outputs for the asset, which the fee was not computed for.

  `assetTxs_adequate_iff`: the fee is enough exactly if the one for the coins that are
  taken covers the size with all that is added, except for the coins in the inputs that
  are added.
-/
import RavenWallet.Wallet.AssetTransfer
import RavenWallet.Wallet.MaxAmount
import RavenWallet.Wallet.Payments

namespace RavenWallet

/-- The burn address of new assets. -/
def strIssueAssetBurnAddressMainNet : BRAddress :=
  "RXissueAssetXXXXXXXXXXXXXXXXXhhZGt".toList.map fun c => UInt8.ofNat c.toNat

/-- The burn address of reissued assets. -/
def strReissueAssetBurnAddressMainNet : BRAddress :=
  "RXReissueAssetXXXXXXXXXXXXXXVEFAWu".toList.map fun c => UInt8.ofNat c.toNat

namespace BRWallet

variable (H : Hashes) (env : Env) (fuel : ℕ) (fill : ℕ → ℕ → UInt8) (w : BRWallet)
  (asst : BRAsset)

/-! ## The functions -/

/-- The script of an output to `addr` that a builder completes, in an array that held `fill`, and
    the length it returns. -/
def builtScript (b : AssetWriter) (fill : ℕ → UInt8) (addr : BRAddress) : Option (Bytes × ℕ) :=
  let size := b.size asst
  (poke ((List.range size).map fill) 0 (BRAddress.scriptPubKey H addr)).bind (b.set asst)

/-- The transaction that pays for the output with the ownership token to `addr`. -/
def payForOwnership (rand : ℕ → ℕ) (amount : UInt64) (addr : BRAddress) :
    Option (BRWallet × Option BRTransaction) :=
  (builtScript H asst BRTxOutput.setTransferOwnerAssetScript (fill 0) addr).bind fun (script, _) =>
    createTxForOutputs H env rand fuel w [{ address := addr, amount, script := some script }]

/-- The transaction that pays for burning coins. -/
def payForBurn (rand : ℕ → ℕ) (amount : UInt64) (burnAddress : BRAddress) :
    Option (BRWallet × Option BRTransaction) :=
  createTxForOutputs H env rand fuel w [.toAddress H burnAddress amount]

/-- The loop of `BRWalletCreateTxForRootAssetTransferOwnership`, which leaves what it has read in
    the transactions of the wallet. -/
def addOwnership : List UTXO → BRWallet → BRTransaction → Option (BRWallet × BRTransaction)
  | [], w, transaction => some (w, transaction)
  | utxo :: utxos, w, transaction =>
    (w.allTx.lookup utxo.hash).bind fun p => (w.heap.load p).bind fun tx =>
      tx.outputs[utxo.n.toNat]?.bind fun output =>
        (getAssetData (output.script.getD []) {}).bind fun (asset, ok) =>
          let w := { w with heap := w.heap.store p { tx with asset := if ok then [asset] else [] } }
          if ok ∧ cString asset.name = cString asst.name then
            some (w,
              transaction.addInput H tx.txHash utxo.n output.amount output.script TXIN_SEQUENCE)
          else addOwnership utxos w transaction

/-- `BRWalletCreateTxForRootAssetTransferOwnership`. -/
def createTxForRootAssetTransferOwnership (rand : ℕ → ℕ) (amount : UInt64) (addr : BRAddress) :
    Option (BRWallet × Option BRTransaction) :=
  (w.payForOwnership H env fuel fill asst rand amount addr).bind fun
    | (_, none) => none
    | (w, some transaction) =>
      (addOwnership H asst w.utxos w (copyAsset asst transaction)).map fun (w, transaction) =>
        (w, some transaction)

/-- `BRWalletCreateTxForRootAssetCreation`. -/
def createTxForRootAssetCreation (rand : ℕ → ℕ) (amount : UInt64) (addr : BRAddress) :
    Option (BRWallet × Option BRTransaction) :=
  (w.payForBurn H env fuel rand amount strIssueAssetBurnAddressMainNet).bind fun
    | (_, none) => none
    | (w, some tx) =>
      (builtScript H asst BRTxOutput.setOwnerAssetScript (fill 0) addr).bind fun (script, _) =>
        let tx := tx.addOutput H 0 (some script)
        (builtScript H asst BRTxOutput.setNewAssetScript (fill 1) addr).map fun (script, _) =>
          (w, some (copyAsset asst (tx.addOutput H 0 (some script))))

/-- The asset whose name is that of the ownership token. -/
def asstWithOwner : BRAsset := { asst with name := cString asst.name ++ OWNER_TAG }

/-- The loop of `BRWalletCreateTxForAssetsReissue`: the first UTXO with the asset is added. -/
def addOwnerToken : List UTXO → BRTransaction → Option BRTransaction
  | [], transaction => some transaction
  | utxo :: utxos, transaction =>
    (w.assetAt asst utxo).bind fun
      | none => addOwnerToken utxos transaction
      | some (tx, output, _) => some
        (transaction.addInput H tx.txHash utxo.n output.amount output.script TXIN_SEQUENCE)

/-- `BRWalletCreateTxForAssetsReissue`. -/
def createTxForAssetsReissue (rand : ℕ → ℕ) (amount : UInt64) (addr : BRAddress) :
    Option (BRWallet × Option BRTransaction) :=
  (w.payForBurn H env fuel rand amount strReissueAssetBurnAddressMainNet).bind fun
    | (_, none) => none
    | (w, some transaction) =>
      let transaction := copyAsset asst transaction
      (w.unusedAddrs env fuel 1 true).bind fun (w, addrs) =>
        (builtScript H asst BRTxOutput.setTransferOwnerAssetScriptWithoutTag (fill 0)
          (addrs.headD [])).bind fun (script, _) =>
          (w.addOwnerToken H (asstWithOwner asst) w.utxos
            (transaction.addOutput H 0 (some script))).bind fun transaction =>
            (builtScript H asst BRTxOutput.setReissueAssetScript (fill 1) addr).map
              fun (script, scriptLen) =>
                (w, some (transaction.addOutput H 0 (some (script.take scriptLen))))

/-! ## What is added -/

/-- A UTXO that carries an asset: the output it names, and the amount of the asset. -/
structure Carrier where
  txHash : UInt256
  n : UInt32
  output : BRTxOutput
  amount : UInt64

def carrier? (o : UTXO) : Option Carrier :=
  (w.assetAt asst o).join.map fun r => ⟨r.1.txHash, o.n, r.2.1, r.2.2⟩

/-- The UTXOs that carry an asset with the name of `asst`. -/
def carriers : List Carrier := w.utxos.filterMap (w.carrier? asst)

/-- The input that spends the output. -/
def Carrier.input (c : Carrier) : BRTxInput where
  txHash := c.txHash
  index := c.n
  address := (c.output.script.map (BRAddress.fromScriptPubKey H)).getD []
  amount := c.output.amount
  script := c.output.script

/-- The first `j` carriers hold enough of the asset and fewer do not, or `j` is all of them. -/
structure Gathers (j : ℕ) : Prop where
  le : j ≤ (w.carriers asst).length
  first : ∀ i, i + 1 < j →
    (((w.carriers asst).take (i + 1)).map Carrier.amount).sum < asst.amount
  stop : j = (w.carriers asst).length ∨
    j ≠ 0 ∧ asst.amount ≤ (((w.carriers asst).take j).map Carrier.amount).sum

/-- The length of a script that a builder has completed. -/
def writtenLength (b : AssetWriter) : ℕ :=
  if b.size asst = 0 ∨ b.size asst > MAX_SCRIPT_LENGTH then 0
  else 25 + 6 + ((b.fields asst).map List.length).sum + 1

/-- The second output for the asset, if the first `j` carriers hold more than is sent. -/
def changeLengths (j : ℕ) : List ℕ :=
  if asst.amount < (((w.carriers asst).take j).map Carrier.amount).sum then
    [writtenLength asst BRTxOutput.setTransferAssetScript]
  else []

/-- The transaction pays the fee for its size. -/
def Adequate (tx : BRTransaction) : Prop :=
  tx.outAmount + (txFee w.feePerKb tx.size).toNat ≤ tx.inAmount

/-- The coins for a payment cover the fee with more inputs and outputs.  With a change output, whose
    script has 25 bytes, they pay the fee that was computed for the payment, and without one all
    that they are worth. -/
structure CoversAdded (amount : UInt64) (length : ℕ) (added : List Carrier) (lengths : List ℕ)
    (total : UInt64) (j : ℕ) : Prop where
  selects : w.Selects (paymentSize length) amount total j
  change : w.changeFor (paymentSize length) total j > w.minOutputAmount →
    total.toNat +
        (txFee w.feePerKb (unsignedSize (j + added.length) ([length, 25] ++ lengths))).toNat ≤
      (total + w.feeFor (paymentSize length) total j).toNat +
        (added.map fun c => c.output.amount.toNat).sum
  no_change : ¬ w.changeFor (paymentSize length) total j > w.minOutputAmount →
    total.toNat +
        (txFee w.feePerKb (unsignedSize (j + added.length) ([length] ++ lengths))).toNat ≤
      w.worth j + (added.map fun c => c.output.amount.toNat).sum

/-- The inputs and the outputs that are added to a transaction. -/
structure Extends (tx tx' : BRTransaction) (added : List Carrier) (lengths : List ℕ) : Prop where
  inputs : tx'.inputs = tx.inputs ++ added.map (Carrier.input H)
  outputs : ∃ outs, tx'.outputs = tx.outputs ++ outs ∧
    (outs.map fun o => scriptLen o.script) = lengths ∧ ∀ o ∈ outs, o.amount = 0

section
variable {H env fuel fill w asst} {w' : BRWallet} {tx tx' : BRTransaction} {j : ℕ}
  {added : List Carrier} {lengths : List ℕ} {b : AssetWriter} {addr : BRAddress} {us : List UTXO}
  {rand : ℕ → ℕ} {amount : UInt64}

theorem Extends.refl (tx : BRTransaction) : Extends H tx tx [] [] :=
  ⟨(List.append_nil _).symm, [], (List.append_nil _).symm, rfl,
    fun _ h => absurd h List.not_mem_nil⟩

theorem Extends.trans {tx'' : BRTransaction} {added' : List Carrier} {lengths' : List ℕ}
    (h : Extends H tx tx' added lengths) (h' : Extends H tx' tx'' added' lengths') :
    Extends H tx tx'' (added ++ added') (lengths ++ lengths') := by
  obtain ⟨outs, houts, hlengths, hzero⟩ := h.outputs
  obtain ⟨outs', houts', hlengths', hzero'⟩ := h'.outputs
  refine ⟨?_, outs ++ outs', ?_, ?_, ?_⟩
  · rw [h'.inputs, h.inputs, List.map_append, List.append_assoc]
  · rw [houts', houts, List.append_assoc]
  · rw [List.map_append, hlengths, hlengths']
  · intro o ho
    exact (List.mem_append.1 ho).elim (hzero o) (hzero' o)

theorem Extends.addInput (h : Extends H tx tx' added lengths) (c : Carrier) :
    Extends H tx (tx'.addInput H c.txHash c.n c.output.amount c.output.script TXIN_SEQUENCE)
      (added ++ [c]) lengths := by
  refine ⟨?_, h.outputs⟩
  rw [BRTransaction.addInput, h.inputs, List.map_append, List.append_assoc]
  rfl

theorem Extends.addOutput (h : Extends H tx tx' added lengths) (script : Bytes) :
    Extends H tx (tx'.addOutput H 0 (some script)) added (lengths ++ [script.length]) := by
  obtain ⟨outs, houts, hlengths, hzero⟩ := h.outputs
  refine ⟨h.inputs, outs ++ [{ amount := 0, script := some script
                               address := BRAddress.fromScriptPubKey H script }], ?_, ?_, ?_⟩
  · rw [BRTransaction.addOutput, houts, List.append_assoc]
    rfl
  · rw [List.map_append, hlengths]
    rfl
  · intro o ho
    rcases List.mem_append.1 ho with ho | ho
    · exact hzero o ho
    · rw [List.mem_singleton.1 ho]

theorem Extends.copyAsset (h : Extends H tx tx' added lengths) :
    Extends H tx (copyAsset asst tx') added lengths := ⟨h.inputs, h.outputs⟩

theorem Extends.shaped {n : ℕ} {lengths' : List ℕ} (h : Extends H tx tx' added lengths)
    (hshape : Shaped tx n lengths') : Shaped tx' (n + added.length) (lengths' ++ lengths) := by
  obtain ⟨outs, houts, hlengths, -⟩ := h.outputs
  refine ⟨?_, ?_, ?_⟩
  · intro i hi
    rw [h.inputs] at hi
    rcases List.mem_append.1 hi with hi | hi
    · exact hshape.unsigned i hi
    · obtain ⟨c, -, rfl⟩ := List.mem_map.1 hi
      rfl
  · rw [h.inputs, List.length_append, hshape.inputs, List.length_map]
  · rw [houts, List.map_append, hlengths]
    exact hshape.outputs.append_right _

theorem Extends.inAmount (h : Extends H tx tx' added lengths) :
    tx'.inAmount = tx.inAmount + (added.map fun c => c.output.amount.toNat).sum := by
  rw [BRTransaction.inAmount, h.inputs, List.map_append, List.sum_append, List.map_map]
  rfl

theorem Extends.outAmount (h : Extends H tx tx' added lengths) : tx'.outAmount = tx.outAmount := by
  obtain ⟨outs, houts, -, hzero⟩ := h.outputs
  have hnone : (outs.map fun o => o.amount.toNat).sum = 0 := by
    refine List.sum_eq_zero ?_
    intro n hn
    obtain ⟨o, ho, rfl⟩ := List.mem_map.1 hn
    rw [hzero o ho]
    rfl
  rw [BRTransaction.outAmount, houts, List.map_append, List.sum_append, hnone]
  rfl

/-- The fee is enough for the whole exactly if the coins for the payment cover it. -/
theorem Extends.adequate_iff {w₁ : BRWallet} {out : BRTxOutput} {n : ℕ} (hw : w.LedgerIdentity)
    (hd : w.Derives H env) (h : Extends H tx tx' added lengths)
    (hpaid : createTxForOutputs H env rand fuel w [out] = some (w₁, some tx))
    (hlength : scriptLen out.script = n) :
    w.Adequate tx' ↔ ∃ total j, w.CoversAdded out.amount n added lengths total j := by
  obtain ⟨total, j, hselects, hcovers, hin, hout⟩ := createTxForOutputs_payment hw hd hlength hpaid
  have hchange : (w.changeFor (paymentSize n) total j).toNat =
      w.worth j - (total + w.feeFor (paymentSize n) total j).toNat := by
    rw [changeFor, toNat_sub_of_le (by rwa [toNat_worth hw]), toNat_worth hw]
  rw [Adequate, h.inAmount, h.outAmount, hin]
  constructor
  · intro hle
    refine ⟨total, j, hselects, ?_, ?_⟩
    · intro hmore
      obtain ⟨hshape, hsum⟩ := (hout.resolve_right fun hno => hno.1 hmore).2
      rw [(h.shaped hshape).size_eq, hsum, hchange] at hle
      omega
    · intro hno
      obtain ⟨hshape, hsum⟩ := (hout.resolve_left fun hmore => hno hmore.1).2
      rw [(h.shaped hshape).size_eq, hsum] at hle
      exact hle
  · rintro ⟨total', j', hcovered⟩
    obtain ⟨rfl, rfl⟩ := hselects.unique hcovered.selects
    rcases hout with ⟨hmore, hshape, hsum⟩ | ⟨hno, hshape, hsum⟩
    · have hle := hcovered.change hmore
      rw [(h.shaped hshape).size_eq, hsum, hchange]
      omega
    · have hle := hcovered.no_change hno
      rw [(h.shaped hshape).size_eq, hsum]
      exact hle

/-! ## Scripts -/

theorem builtScript_length {fill : ℕ → UInt8} {r : Bytes × ℕ}
    (h : builtScript H asst b fill addr = some r) :
    r.1.length = b.size asst ∧ (r.1.take r.2).length = writtenLength asst b := by
  rw [builtScript, Option.bind_eq_some_iff] at h
  obtain ⟨buf, hbuf, h⟩ := h
  have hsize : buf.length = b.size asst := by
    rw [(poke_some hbuf).2, List.length_map, List.length_range]
  obtain ⟨hlength, hle, hn⟩ := AssetWriter.set_length h
  rw [hsize] at hlength hn
  refine ⟨hlength, ?_⟩
  rw [List.length_take_of_le hle, hn, writtenLength]

/-! ## Sending -/

variable (H) in
/-- The transaction and the amount of the asset with one more carrier. -/
def addCarrier (s : BRTransaction × UInt64) (c : Carrier) : BRTransaction × UInt64 :=
  (s.1.addInput H c.txHash c.n c.output.amount c.output.script TXIN_SEQUENCE, s.2 + c.amount)

theorem foldl_addCarrier (cs : List Carrier) (bal : UInt64)
    (h : Extends H tx tx' added lengths) :
    Extends H tx (cs.foldl (addCarrier H) (tx', bal)).1 (added ++ cs) lengths ∧
      (cs.foldl (addCarrier H) (tx', bal)).2 = bal + (cs.map Carrier.amount).sum := by
  induction cs generalizing tx' bal added with
  | nil =>
    rw [List.append_nil]
    exact ⟨h, (UInt64.add_zero bal).symm⟩
  | cons c cs ih =>
    obtain ⟨hextends, hbal⟩ := ih (bal + c.amount) (h.addInput c)
    rw [List.append_assoc] at hextends
    refine ⟨hextends, hbal.trans ?_⟩
    rw [List.map_cons, List.sum_cons, UInt64.add_assoc]

/-- The loop takes the carriers until they hold enough. -/
theorem addAssetInputs_takeUntil {fill : ℕ → UInt8} {bal : UInt64} (hbal : ¬ asst.amount < bal)
    (h : w.addAssetInputs H env fuel fill asst us tx bal = some (w', tx')) :
    ∃ s, takeUntil (addCarrier H) (fun _ => False) (fun s => asst.amount ≤ s.2)
        (us.filterMap (w.carrier? asst)) (tx, bal) = .done s ∧
      if asst.amount < s.2 then
        w.addAssetChange H env fuel fill asst s.1 (s.2 - asst.amount) = some (w', tx')
      else tx' = s.1 := by
  induction us generalizing tx bal with
  | nil =>
    rw [addAssetInputs] at h
    obtain ⟨-, rfl⟩ := Prod.mk.inj (Option.some.inj h)
    exact ⟨(tx, bal), rfl, by rw [if_neg hbal]⟩
  | cons o us ih =>
    rw [addAssetInputs] at h
    obtain ⟨r, hr, h⟩ := Option.bind_eq_some_iff.1 h
    cases r with
    | none =>
      have hcarrier : w.carrier? asst o = none := by rw [carrier?, hr]; rfl
      rw [List.filterMap_cons_none hcarrier]
      exact ih hbal h
    | some r =>
      obtain ⟨t, output, amount⟩ := r
      have hcarrier : w.carrier? asst o = some ⟨t.txHash, o.n, output, amount⟩ := by
        rw [carrier?, hr]
        rfl
      obtain ⟨s, hs⟩ : ∃ s, s = addCarrier H (tx, bal) ⟨t.txHash, o.n, output, amount⟩ := ⟨_, rfl⟩
      have htx : s.1 = tx.addInput H t.txHash o.n output.amount output.script TXIN_SEQUENCE := by
        rw [hs]
        rfl
      have hsum : s.2 = bal + amount := by rw [hs]; rfl
      rw [List.filterMap_cons_some hcarrier, takeUntil, if_neg not_false, ← hs]
      dsimp only at h
      rw [← htx, ← hsum] at h
      split_ifs at h with hless hmore
      · rw [if_pos (UInt64.le_of_lt hless)]
        exact ⟨_, rfl, by rw [if_pos hless]; exact h⟩
      · rw [if_neg (UInt64.not_le.2 hmore)]
        exact ih hless h
      · rw [if_pos (UInt64.not_lt.1 hmore)]
        obtain ⟨-, rfl⟩ := Prod.mk.inj (Option.some.inj h)
        exact ⟨_, rfl, by rw [if_neg hless]⟩

theorem addAssetInputs_extends {fill : ℕ → UInt8}
    (h : w.addAssetInputs H env fuel fill asst w.utxos tx 0 = some (w', tx')) :
    ∃ j, w.Gathers asst j ∧
      Extends H tx tx' ((w.carriers asst).take j) (w.changeLengths asst j) := by
  obtain ⟨s, hs, hend⟩ := addAssetInputs_takeUntil (UInt64.not_lt_zero) h
  rw [← carriers] at hs
  obtain ⟨j, hj, rfl, -, hfirst, hstop⟩ := takeUntil_done_iff.1 hs
  have hafter : ∀ i, Extends H tx (after (addCarrier H) (w.carriers asst) (tx, 0) i).1
      ((w.carriers asst).take i) [] ∧ (after (addCarrier H) (w.carriers asst) (tx, 0) i).2 =
        (((w.carriers asst).take i).map Carrier.amount).sum := by
    intro i
    obtain ⟨hextends, hsum⟩ := foldl_addCarrier ((w.carriers asst).take i) 0
      (Extends.refl (H := H) tx)
    exact ⟨hextends, hsum.trans (UInt64.zero_add _)⟩
  obtain ⟨hextends, hsum⟩ := hafter j
  refine ⟨j, ⟨hj, ?_, ?_⟩, ?_⟩
  · intro i hi
    rw [← (hafter (i + 1)).2]
    exact UInt64.not_le.1 (hfirst i hi)
  · rw [← hsum]
    exact hstop
  · rw [changeLengths, ← hsum]
    split_ifs at hend ⊢ with hless
    · obtain ⟨⟨w₁, addrs⟩, -, hend⟩ := Option.bind_eq_some_iff.1 hend
      obtain ⟨⟨script, scriptLen⟩, hscript, hend⟩ := Option.map_eq_some_iff.1 hend
      obtain ⟨-, rfl⟩ := Prod.mk.inj hend
      have hlength : (script.take scriptLen).length =
          writtenLength asst BRTxOutput.setTransferAssetScript := (builtScript_length hscript).2
      rw [← hlength]
      exact hextends.addOutput _
    · rw [hend]
      exact hextends

/-- The same UTXOs carry the asset, after a transaction has been paid for. -/
theorem createTxForOutputs_carriers {outputs : List BRTxOutput} {r : Option BRTransaction}
    (h : createTxForOutputs H env rand fuel w outputs = some (w', r)) :
    w'.carriers = w.carriers := by
  funext asst
  obtain ⟨hutxos, hat⟩ := createTxForOutputs_assetAt asst h
  have hcarrier : w'.carrier? asst = w.carrier? asst := by
    funext o
    rw [carrier?, carrier?, hat]
  rw [carriers, carriers, hutxos, hcarrier]

theorem sendAsset_extends {fill : ℕ → UInt8}
    (h : w.sendAsset H env fuel fill asst rand amount addr = some (w', some tx')) :
    ∃ w₁ tx j, w.payForAsset H env fuel fill asst rand amount addr = some (w₁, some tx) ∧
      w.Gathers asst j ∧ Extends H tx tx' ((w.carriers asst).take j) (w.changeLengths asst j) := by
  obtain ⟨⟨w₁, r⟩, hpaid, h⟩ := Option.bind_eq_some_iff.1 h
  cases r with
  | none => cases h
  | some tx =>
    obtain ⟨⟨w₂, tx₂⟩, hloop, h⟩ := Option.map_eq_some_iff.1 h
    obtain rfl := Option.some.inj (Prod.mk.inj h).2
    obtain ⟨script, -, hcreate⟩ := Option.bind_eq_some_iff.1 hpaid
    have hsame := createTxForOutputs_carriers hcreate
    obtain ⟨j, ⟨hj, hfirst, hstop⟩, hextends⟩ := addAssetInputs_extends hloop
    rw [changeLengths, hsame] at hextends
    rw [hsame] at hj hfirst hstop
    exact ⟨w₁, tx, j, hpaid, ⟨hj, hfirst, hstop⟩,
      (Extends.refl tx).copyAsset.trans hextends⟩

/-- Only one number of carriers is gathered. -/
theorem Gathers.unique {i : ℕ} (hi : w.Gathers asst i) (hj : w.Gathers asst j) : i = j := by
  let enough (k : ℕ) := asst.amount ≤ (((w.carriers asst).take k).map Carrier.amount).sum
  have hfirst {j} (hj : w.Gathers asst j) : ∀ k, k + 1 < j → ¬ enough (k + 1) := fun k hk =>
    UInt64.not_le.2 (hj.first k hk)
  exact enough_unique hi.le hj.le (hfirst hi) (hfirst hj) hi.stop hj.stop

theorem sendAsset_adequate_iff {fill : ℕ → UInt8} (hw : w.LedgerIdentity) (hd : w.Derives H env)
    (h : w.sendAsset H env fuel fill asst rand amount addr = some (w', some tx')) :
    w.Adequate tx' ↔ ∃ j, w.Gathers asst j ∧ ∃ total coins,
      w.CoversAdded amount (BRTxOutput.setTransferAssetScript.size asst) ((w.carriers asst).take j)
        (w.changeLengths asst j) total coins := by
  obtain ⟨w₁, tx, j, hpaid, hgathers, hextends⟩ := sendAsset_extends h
  obtain ⟨⟨script, scriptLen⟩, hscript, hcreate⟩ := Option.bind_eq_some_iff.1 hpaid
  have hlength : script.length = BRTxOutput.setTransferAssetScript.size asst :=
    (builtScript_length hscript).1
  rw [hextends.adequate_iff hw hd hcreate hlength]
  constructor
  · intro hfee
    exact ⟨j, hgathers, hfee⟩
  · rintro ⟨i, hi, hfee⟩
    rwa [hi.unique hgathers] at hfee

/-! ## The ownership token -/

/-- What is left in the transactions of the wallet is not read. -/
theorem carrier?_store {p : Ptr} (hp : w.heap.load p = some tx) (asset : List BRAsset) :
    { w with heap := w.heap.store p { tx with asset } }.carrier? asst = w.carrier? asst := by
  funext o
  have hread : { w with heap := w.heap.store p { tx with asset } }.tx? o.hash = w.tx? o.hash ∨
      w.tx? o.hash = some tx ∧
        { w with heap := w.heap.store p { tx with asset } }.tx? o.hash =
          some { tx with asset } := by
    rw [tx?, tx?]
    cases w.allTx.lookup o.hash with
    | none => exact Or.inl rfl
    | some q =>
      rw [Option.bind_some, Option.bind_some]
      by_cases hq : p = q
      · subst hq
        exact Or.inr ⟨hp, Heap.load_store_self _ hp⟩
      · exact Or.inl (Heap.load_store_ne _ _ hq)
  rw [carrier?, carrier?, assetAt, assetAt]
  rcases hread with hsame | ⟨hbefore, hafter⟩
  · rw [hsame]
  · rw [hbefore, hafter, Option.bind_some, Option.bind_some]
    cases tx.outputs[o.n.toNat]? with
    | none => rfl
    | some output =>
      rw [Option.bind_some, Option.bind_some]
      rcases assetAmount asst.name (output.script.getD []) with _ | _ | a
      · rfl
      · rfl
      · rfl

/-- The first UTXO with the asset is added. -/
theorem addOwnership_extends (h : addOwnership H asst us w tx = some (w', tx')) :
    Extends H tx tx' ((us.filterMap (w.carrier? asst)).take 1) [] := by
  induction us generalizing w with
  | nil =>
    rw [addOwnership] at h
    obtain ⟨-, rfl⟩ := Prod.mk.inj (Option.some.inj h)
    exact Extends.refl tx
  | cons o us ih =>
    rw [addOwnership] at h
    obtain ⟨p, hlookup, h⟩ := Option.bind_eq_some_iff.1 h
    obtain ⟨t, ht, h⟩ := Option.bind_eq_some_iff.1 h
    obtain ⟨output, houtput, h⟩ := Option.bind_eq_some_iff.1 h
    obtain ⟨⟨asset, ok⟩, hdata, h⟩ := Option.bind_eq_some_iff.1 h
    have hat : w.assetAt asst o = some (if ok ∧ cString asset.name = cString asst.name then
        some (t, output, asset.amount) else none) := by
      rw [assetAt, tx?, hlookup, Option.bind_some, ht, Option.bind_some, houtput, Option.bind_some,
        assetAmount, hdata, Option.map_some, Option.map_some]
      dsimp only
      split_ifs
      · rfl
      · rfl
    dsimp only at h
    by_cases hmatch : ok ∧ cString asset.name = cString asst.name
    · have hcarrier : w.carrier? asst o = some ⟨t.txHash, o.n, output, asset.amount⟩ := by
        rw [carrier?, hat, if_pos hmatch]
        rfl
      rw [if_pos hmatch] at h
      obtain ⟨-, rfl⟩ := Prod.mk.inj (Option.some.inj h)
      rw [List.filterMap_cons_some hcarrier, List.take_succ_cons, List.take_zero]
      exact (Extends.refl tx).addInput ⟨t.txHash, o.n, output, asset.amount⟩
    · have hcarrier : w.carrier? asst o = none := by
        rw [carrier?, hat, if_neg hmatch]
        rfl
      rw [if_neg hmatch] at h
      have hrest := ih h
      rw [carrier?_store ht] at hrest
      rw [List.filterMap_cons_none hcarrier]
      exact hrest

theorem addOwnerToken_extends (h : w.addOwnerToken H asst us tx = some tx') :
    Extends H tx tx' ((us.filterMap (w.carrier? asst)).take 1) [] := by
  induction us with
  | nil =>
    rw [addOwnerToken] at h
    obtain rfl := Option.some.inj h
    exact Extends.refl tx
  | cons o us ih =>
    rw [addOwnerToken] at h
    obtain ⟨r, hr, h⟩ := Option.bind_eq_some_iff.1 h
    cases r with
    | none =>
      have hcarrier : w.carrier? asst o = none := by rw [carrier?, hr]; rfl
      rw [List.filterMap_cons_none hcarrier]
      exact ih h
    | some r =>
      obtain ⟨t, output, amount⟩ := r
      have hcarrier : w.carrier? asst o = some ⟨t.txHash, o.n, output, amount⟩ := by
        rw [carrier?, hr]
        rfl
      obtain rfl := Option.some.inj h
      rw [List.filterMap_cons_some hcarrier, List.take_succ_cons, List.take_zero]
      exact (Extends.refl tx).addInput ⟨t.txHash, o.n, output, amount⟩

theorem createTxForRootAssetTransferOwnership_extends
    (h : w.createTxForRootAssetTransferOwnership H env fuel fill asst rand amount addr =
      some (w', some tx')) :
    ∃ w₁ tx, w.payForOwnership H env fuel fill asst rand amount addr = some (w₁, some tx) ∧
      Extends H tx tx' ((w.carriers asst).take 1) [] := by
  obtain ⟨⟨w₁, r⟩, hpaid, h⟩ := Option.bind_eq_some_iff.1 h
  cases r with
  | none => cases h
  | some tx =>
    obtain ⟨⟨w₂, tx₂⟩, hloop, h⟩ := Option.map_eq_some_iff.1 h
    obtain rfl := Option.some.inj (Prod.mk.inj h).2
    obtain ⟨script, -, hcreate⟩ := Option.bind_eq_some_iff.1 hpaid
    have hsame := createTxForOutputs_carriers hcreate
    have hextends : Extends H (copyAsset asst tx) tx₂ ((w₁.carriers asst).take 1) [] :=
      addOwnership_extends hloop
    rw [hsame] at hextends
    exact ⟨w₁, tx, hpaid, (Extends.refl tx).copyAsset.trans hextends⟩

/-! ## Creating and reissuing -/

theorem createTxForRootAssetCreation_extends
    (h : w.createTxForRootAssetCreation H env fuel fill asst rand amount addr =
      some (w', some tx')) :
    ∃ w₁ tx, w.payForBurn H env fuel rand amount strIssueAssetBurnAddressMainNet =
        some (w₁, some tx) ∧
      Extends H tx tx' [] [BRTxOutput.setOwnerAssetScript.size asst,
        BRTxOutput.setNewAssetScript.size asst] := by
  obtain ⟨⟨w₁, r⟩, hpaid, h⟩ := Option.bind_eq_some_iff.1 h
  cases r with
  | none => cases h
  | some tx =>
    obtain ⟨owner, howner, h⟩ := Option.bind_eq_some_iff.1 h
    obtain ⟨new, hnew, h⟩ := Option.map_eq_some_iff.1 h
    obtain rfl := Option.some.inj (Prod.mk.inj h).2
    refine ⟨w₁, tx, hpaid, ?_⟩
    rw [← (builtScript_length howner).1, ← (builtScript_length hnew).1]
    exact (((Extends.refl tx).addOutput owner.1).addOutput new.1).copyAsset

theorem createTxForAssetsReissue_extends
    (h : w.createTxForAssetsReissue H env fuel fill asst rand amount addr = some (w', some tx')) :
    ∃ w₁ tx, w.payForBurn H env fuel rand amount strReissueAssetBurnAddressMainNet =
        some (w₁, some tx) ∧
      Extends H tx tx' ((w.carriers (asstWithOwner asst)).take 1)
        [BRTxOutput.setTransferOwnerAssetScriptWithoutTag.size asst,
          writtenLength asst BRTxOutput.setReissueAssetScript] := by
  obtain ⟨⟨w₁, r⟩, hpaid, h⟩ := Option.bind_eq_some_iff.1 h
  cases r with
  | none => cases h
  | some tx =>
    obtain ⟨⟨w₂, addrs⟩, haddrs, h⟩ := Option.bind_eq_some_iff.1 h
    obtain ⟨owner, howner, h⟩ := Option.bind_eq_some_iff.1 h
    obtain ⟨tx₂, htoken, h⟩ := Option.bind_eq_some_iff.1 h
    obtain ⟨reissue, hreissue, h⟩ := Option.map_eq_some_iff.1 h
    obtain rfl := Option.some.inj (Prod.mk.inj h).2
    have hsame := createTxForOutputs_carriers hpaid
    obtain ⟨hutxos, hat⟩ := unusedAddrs_assetAt (asstWithOwner asst) haddrs
    have hcarriers : w₂.carriers (asstWithOwner asst) = w.carriers (asstWithOwner asst) := by
      have hcarrier : w₂.carrier? (asstWithOwner asst) = w₁.carrier? (asstWithOwner asst) := by
        funext o
        rw [carrier?, carrier?, hat]
      rw [← hsame, carriers, carriers, hutxos, hcarrier]
    have hextends : Extends H ((copyAsset asst tx).addOutput H 0 (some owner.1)) tx₂
        ((w₂.carriers (asstWithOwner asst)).take 1) [] := addOwnerToken_extends htoken
    rw [hcarriers] at hextends
    refine ⟨w₁, tx, hpaid, ?_⟩
    rw [← (builtScript_length howner).1, ← (builtScript_length hreissue).2]
    exact (((Extends.refl tx).copyAsset.addOutput owner.1).trans hextends).addOutput _

/-! ## The fee -/

theorem toAddress_scriptLen (H : Hashes) (address : BRAddress) (amount : UInt64) :
    scriptLen (BRTxOutput.toAddress H address amount).script =
      (BRAddress.scriptPubKey H address).length := rfl

/-- The fee of each of the five functions is enough exactly if the coins for the payment, which are
    taken first, cover the fee with all that is added. -/
theorem assetTxs_adequate_iff (H : Hashes) (env : Env) (fuel : ℕ) (fill : ℕ → ℕ → UInt8)
    (rand : ℕ → ℕ) (w w' : BRWallet) (hw : w.LedgerIdentity) (hd : w.Derives H env)
    (asst : BRAsset) (amount : UInt64) (addr : BRAddress) (tx : BRTransaction) :
    (w.createTxForRootAssetTransfer H env fuel (fill 0) asst rand amount addr =
        some (w', some tx) →
      (w.Adequate tx ↔ ∃ j, w.Gathers asst j ∧ ∃ total coins,
        w.CoversAdded amount (BRTxOutput.setTransferAssetScript.size asst)
          ((w.carriers asst).take j) (w.changeLengths asst j) total coins)) ∧
    (w.burnRootAsset H env fuel (fill 0) asst rand = some (w', some tx) →
      (w.Adequate tx ↔ ∃ j, w.Gathers asst j ∧ ∃ total coins,
        w.CoversAdded 0 (BRTxOutput.setTransferAssetScript.size asst)
          ((w.carriers asst).take j) (w.changeLengths asst j) total coins)) ∧
    (w.createTxForRootAssetTransferOwnership H env fuel fill asst rand amount addr =
        some (w', some tx) →
      (w.Adequate tx ↔ ∃ total coins,
        w.CoversAdded amount (BRTxOutput.setTransferOwnerAssetScript.size asst)
          ((w.carriers asst).take 1) [] total coins)) ∧
    (w.createTxForRootAssetCreation H env fuel fill asst rand amount addr = some (w', some tx) →
      (w.Adequate tx ↔ ∃ total coins,
        w.CoversAdded amount (BRAddress.scriptPubKey H strIssueAssetBurnAddressMainNet).length []
          [BRTxOutput.setOwnerAssetScript.size asst, BRTxOutput.setNewAssetScript.size asst]
          total coins)) ∧
    (w.createTxForAssetsReissue H env fuel fill asst rand amount addr = some (w', some tx) →
      (w.Adequate tx ↔ ∃ total coins,
        w.CoversAdded amount (BRAddress.scriptPubKey H strReissueAssetBurnAddressMainNet).length
          ((w.carriers (asstWithOwner asst)).take 1)
          [BRTxOutput.setTransferOwnerAssetScriptWithoutTag.size asst,
            writtenLength asst BRTxOutput.setReissueAssetScript] total coins)) := by
  refine ⟨sendAsset_adequate_iff hw hd, sendAsset_adequate_iff hw hd, ?_, ?_, ?_⟩
  · intro h
    obtain ⟨w₁, base, hpaid, hextends⟩ := createTxForRootAssetTransferOwnership_extends h
    obtain ⟨⟨script, scriptLen⟩, hscript, hcreate⟩ := Option.bind_eq_some_iff.1 hpaid
    have hlength : script.length = BRTxOutput.setTransferOwnerAssetScript.size asst :=
      (builtScript_length hscript).1
    exact hextends.adequate_iff hw hd hcreate hlength
  · intro h
    obtain ⟨w₁, base, hpaid, hextends⟩ := createTxForRootAssetCreation_extends h
    exact hextends.adequate_iff hw hd hpaid (toAddress_scriptLen H _ amount)
  · intro h
    obtain ⟨w₁, base, hpaid, hextends⟩ := createTxForAssetsReissue_extends h
    exact hextends.adequate_iff hw hd hpaid (toAddress_scriptLen H _ amount)

/-- An ownership token. -/
def tokenAsset : BRAsset := { name := [65, 66, 67, 33], nameLen := 4, amount := COIN }

/-- An output with the token. -/
def tokenOutput : BRTxOutput where
  address := keyAddress
  amount := 0
  script := (builtScript sampleHashes tokenAsset BRTxOutput.setTransferOwnerAssetScript
    (fun _ => 0) keyAddress).map Prod.fst

/-- A wallet with the token and `n` coins. -/
def tokenWallet (n : ℕ) (amount : UInt64) : BRWallet :=
  { balance := amount * UInt64.ofNat n
    utxos := (List.range n).map (fun i => ⟨1, UInt32.ofNat i⟩) ++ [⟨2, 0⟩]
    transactions := [0, 1]
    allTx := (AList.singleton 1 0).insert 2 1
    heap := ⟨[some { txHash := 1, outputs := List.replicate n { address := keyAddress, amount } },
      some { txHash := 2, outputs := [tokenOutput] }]⟩ }

theorem tokenWallet_ledgerIdentity {n : ℕ} {amount : UInt64}
    (hbalance : (tokenWallet n amount).balance.toNat =
      ((tokenWallet n amount).utxos.map (tokenWallet n amount).amount).sum)
    (hnodup : (tokenWallet n amount).utxos.Nodup)
    (hall : ∀ u ∈ (tokenWallet n amount).utxos, ((tokenWallet n amount).tx? u.hash).any
      (fun tx => decide (tx.txHash = u.hash ∧ u.n.toNat < tx.outputs.length)) = true) :
    (tokenWallet n amount).LedgerIdentity := by
  refine ⟨hbalance, hnodup, ?_⟩
  intro u hu
  obtain ⟨tx, htx, h⟩ := (Option.any_eq_true _ _).1 (hall u hu)
  obtain ⟨hhash, hlt⟩ := of_decide_eq_true h
  exact ⟨tx, htx, hhash, hlt⟩

theorem tokenWallet_derives (n : ℕ) (amount : UInt64) :
    (tokenWallet n amount).Derives sampleHashes keyEnv :=
  ⟨coinWallet_derives.derived, coinWallet_derives.pubkey, fun _ h => absurd h List.not_mem_nil⟩

theorem assetTxs_adequate_iff_tokenWallet : ∃ w' tx,
    (tokenWallet 1 3000000).createTxForRootAssetTransferOwnership sampleHashes keyEnv 3
        (fun _ _ => 0) tokenAsset id 0 keyAddress = some (w', some tx) ∧
      (tokenWallet 1 3000000).Adequate tx := by
  have hsome : ((tokenWallet 1 3000000).createTxForRootAssetTransferOwnership sampleHashes keyEnv 3
      (fun _ _ => 0) tokenAsset id 0 keyAddress).any (fun r => r.2.isSome) = true := by
    decide +kernel
  obtain ⟨⟨w', r⟩, hr, hr'⟩ := (Option.any_eq_true _ _).1 hsome
  obtain ⟨tx, rfl⟩ := Option.isSome_iff_exists.1 hr'
  refine ⟨w', tx, hr, ?_⟩
  refine ((assetTxs_adequate_iff sampleHashes keyEnv 3 (fun _ _ => 0) id (tokenWallet 1 3000000) w'
    (tokenWallet_ledgerIdentity (by decide +kernel) (by decide) (by decide +kernel))
    (tokenWallet_derives 1 3000000) tokenAsset 0 keyAddress tx).2.2.1 hr).2 ?_
  have hadded : (((tokenWallet 1 3000000).carriers tokenAsset).take 1).map
      (fun c => c.output.amount.toNat) = [0] := by decide +kernel
  have hcount : (((tokenWallet 1 3000000).carriers tokenAsset).take 1).length = 1 := by
    rw [← List.length_map (fun c : Carrier => c.output.amount.toNat), hadded]
    rfl
  have hlength : (tokenWallet 1 3000000).coinList.length = 1 := by decide +kernel
  refine ⟨0, 1, ⟨⟨0, ⟨fun k hk hlt => by omega, Stages.Reaches.zero, Or.inl ?_⟩, rfl⟩,
    by omega, ?_, fun i hi => by omega, Or.inl hlength.symm⟩, ?_, ?_⟩
  · decide +kernel
  · decide +kernel
  · intro _
    rw [hadded, hcount]
    decide +kernel
  · intro _
    rw [hadded, hcount]
    decide +kernel

/-- With six coins, the input for the token makes a second kilobyte. -/
theorem not_assetTxs_adequate : ¬ ∀ (H : Hashes) (env : Env) (fuel : ℕ) (fill : ℕ → ℕ → UInt8)
    (rand : ℕ → ℕ) (w w' : BRWallet) (asst : BRAsset) (addr : BRAddress) (tx : BRTransaction),
    w.LedgerIdentity → w.createTxForRootAssetTransferOwnership H env fuel fill asst rand 0 addr =
      some (w', some tx) → w.Adequate tx := by
  intro h
  have hless : ((tokenWallet 6 270000).createTxForRootAssetTransferOwnership sampleHashes keyEnv 3
      (fun _ _ => 0) tokenAsset id 0 keyAddress).any (fun r => r.2.any fun tx =>
        decide (tx.inAmount < tx.outAmount + (txFee DEFAULT_FEE_PER_KB tx.size).toNat)) =
          true := by decide +kernel
  obtain ⟨⟨w', r⟩, hr, hr'⟩ := (Option.any_eq_true _ _).1 hless
  obtain ⟨tx, rfl, hlt⟩ := (Option.any_eq_true _ _).1 hr'
  have hle : tx.outAmount + (txFee DEFAULT_FEE_PER_KB tx.size).toNat ≤ tx.inAmount :=
    h sampleHashes keyEnv 3 (fun _ _ => 0) id (tokenWallet 6 270000) w' tokenAsset keyAddress tx
      (tokenWallet_ledgerIdentity (by decide +kernel) (by decide) (by decide +kernel)) hr
  exact absurd hle (Nat.not_le.2 (of_decide_eq_true hlt))

end

end BRWallet

end RavenWallet
