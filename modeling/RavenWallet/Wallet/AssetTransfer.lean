/-
  Sending and burning assets (`BRWalletCreateTxForRootAssetTransfer` and
  `BRWalletBurnRootAsset` of BRWallet.c).

  A transaction is first built for an output that carries the asset; then the
  UTXOs with an asset of that name are added as inputs, until there is enough of
  it, and a second output carries what is left over.  Neither function returns
  `NULL`: without a transaction, the asset is copied into `NULL`.

  * `addAssetInputs_conserves`: the loop keeps the amount of the asset exactly if
    it gets to the requested amount before the sum overflows;
  * `sendAsset_delivers`: when a call does what it should.
-/
import RavenWallet.Core.AssetRoundTrip
import RavenWallet.Wallet.CoinSelection

namespace RavenWallet

/-- The characters of a string before its NUL. -/
def cString (bs : Bytes) : Bytes := bs.takeWhile fun b => b ≠ 0

/-- The amount of the asset with the given name that a script carries, none if it carries no such
    asset.  No result if the script is read beyond its end. -/
def assetAmount (name script : Bytes) : Option (Option UInt64) :=
  (getAssetData script {}).map fun (temp, ok) =>
    if ok ∧ cString temp.name = cString name then some temp.amount else none

/-- `CopyAsset`.  The NUL that is written behind the `nameLen` bytes of the name is left out. -/
def copyAsset (asst : BRAsset) (tx : BRTransaction) : BRTransaction :=
  { tx with asset := [{ asst with
      name := cString asst.name
      IPFSHash := if asst.hasIPFS = 1 then asst.IPFSHash else [] }] }

namespace BRWallet

variable (H : Hashes) (env : Env) (fuel : ℕ) (fill : ℕ → UInt8) (w : BRWallet) (asst : BRAsset)

/-! ## The functions -/

/-- The script of an output to `addr` that carries the asset, in an array that held `fill`, and its
    length. -/
def transferScript (addr : BRAddress) : Option (Bytes × ℕ) :=
  let size := BRTxOutput.setTransferAssetScript.size asst
  (poke ((List.range size).map fill) 0 (BRAddress.scriptPubKey H addr)).bind
    (BRTxOutput.setTransferAssetScript.set asst)

/-- The transaction and the output of a UTXO, and the amount of the asset that it carries; none if
    it carries no asset of that name.  No result if there is no such output. -/
def assetAt (o : UTXO) : Option (Option (BRTransaction × BRTxOutput × UInt64)) :=
  (w.tx? o.hash).bind fun tx => tx.outputs[o.n.toNat]?.bind fun output =>
    (assetAmount asst.name (output.script.getD [])).map fun amount =>
      amount.map fun amount => (tx, output, amount)

/-- Adds an output for what is left over of the asset. -/
def addAssetChange (transaction : BRTransaction) (change : UInt64) :
    Option (BRWallet × BRTransaction) :=
  (w.unusedAddrs env fuel 1 true).bind fun (w, addrs) =>
    (transferScript H fill { asst with amount := change } (addrs.headD [])).map
      fun (script, scriptLen) => (w, transaction.addOutput H 0 (some (script.take scriptLen)))

/-- The loop over the UTXOs. -/
def addAssetInputs : List UTXO → BRTransaction → UInt64 → Option (BRWallet × BRTransaction)
  | [], transaction, _ => some (w, transaction)
  | o :: utxos, transaction, asst_balance =>
    (w.assetAt asst o).bind fun
      | none => addAssetInputs utxos transaction asst_balance
      | some (tx, output, amount) =>
        let transaction :=
          transaction.addInput H tx.txHash o.n output.amount output.script TXIN_SEQUENCE
        let asst_balance := asst_balance + amount
        if asst.amount < asst_balance then
          w.addAssetChange H env fuel fill asst transaction (asst_balance - asst.amount)
        else if asst.amount > asst_balance then addAssetInputs utxos transaction asst_balance
        else some (w, transaction)

/-- The transaction that pays for the output to `addr`. -/
def payForAsset (rand : ℕ → ℕ) (amount : UInt64) (addr : BRAddress) :
    Option (BRWallet × Option BRTransaction) :=
  (transferScript H fill asst addr).bind fun (script, _) =>
    createTxForOutputs H env rand fuel w [{ address := addr, amount, script := some script }]

/-- What both functions do; without a transaction, `NULL` is dereferenced. -/
def sendAsset (rand : ℕ → ℕ) (amount : UInt64) (addr : BRAddress) :
    Option (BRWallet × Option BRTransaction) :=
  (w.payForAsset H env fuel fill asst rand amount addr).bind fun
    | (_, none) => none
    | (w, some transaction) =>
      (w.addAssetInputs H env fuel fill asst w.utxos (copyAsset asst transaction) 0).map
        fun (w, transaction) => (w, some transaction)

/-- `BRWalletCreateTxForRootAssetTransfer`. -/
def createTxForRootAssetTransfer (rand : ℕ → ℕ) (amount : UInt64) (addr : BRAddress) :
    Option (BRWallet × Option BRTransaction) :=
  w.sendAsset H env fuel fill asst rand amount addr

/-- `BRWalletBurnRootAsset`. -/
def burnRootAsset (rand : ℕ → ℕ) : Option (BRWallet × Option BRTransaction) :=
  w.sendAsset H env fuel fill asst rand 0 strGlobalBurnAddressMainNet

end BRWallet

/-! ## Amounts of an asset -/

/-- The amount of the asset with the given name that a script carries, zero if none. -/
def carried (name : Bytes) (script : Option Bytes) : ℕ :=
  ((assetAmount name (script.getD [])).join.elim 0 UInt64.toNat)

namespace BRTransaction

def assetIn (name : Bytes) (tx : BRTransaction) : ℕ :=
  (tx.inputs.map fun i => carried name i.script).sum

def assetOut (name : Bytes) (tx : BRTransaction) : ℕ :=
  (tx.outputs.map fun o => carried name o.script).sum

variable {H : Hashes} {name : Bytes} {tx : BRTransaction}

theorem assetIn_addInput (txHash : UInt256) (index : UInt32) (amount : UInt64)
    (script : Option Bytes) (sequence : UInt32) :
    (tx.addInput H txHash index amount script sequence).assetIn name =
      tx.assetIn name + carried name script := by
  simp [assetIn, addInput]

theorem assetIn_addOutput (amount : UInt64) (script : Option Bytes) :
    (tx.addOutput H amount script).assetIn name = tx.assetIn name := rfl

theorem assetOut_addOutput (amount : UInt64) (script : Option Bytes) :
    (tx.addOutput H amount script).assetOut name = tx.assetOut name + carried name script := by
  simp [assetOut, addOutput]

end BRTransaction

namespace BRWallet

variable (env : Env) (fuel : ℕ) (w : BRWallet) (asst : BRAsset)

/-- The amounts of the asset that the UTXOs carry. -/
def held (utxos : List UTXO) : ℕ :=
  (utxos.map fun o => ((w.assetAt asst o).join.elim 0 fun r => r.2.2.toNat)).sum

/-- With `taken` of the asset, the UTXOs that follow are read within their scripts up to one with
    which the amount is reached; the sum does not overflow, and there is an address for what is left
    over.  Without UTXOs, the amount is reached already. -/
def Reaches : List UTXO → ℕ → Prop
  | [], taken => taken = asst.amount.toNat
  | o :: utxos, taken =>
    match w.assetAt asst o with
    | none => False
    | some none => Reaches utxos taken
    | some (some (_, _, amount)) =>
      taken + amount.toNat < 2 ^ 64 ∧
      (asst.amount.toNat < taken + amount.toNat → (w.unusedAddrs env fuel 1 true).isSome) ∧
      (taken + amount.toNat < asst.amount.toNat → Reaches utxos (taken + amount.toNat))

end BRWallet

/-- Scripts that are too short for an asset. -/
theorem carried_short {name script : Bytes} (h : script.length ≤ 30) :
    carried name (some script) = 0 := by
  have hno : ∀ n tag, 30 ≤ n → isScriptOf n tag script = false := by
    intro n tag hn
    have hlen : decide (script.length > n) = false := decide_eq_false (by omega)
    rw [isScriptOf, hlen, Bool.false_and, Bool.false_and]
  have hdata : getAssetData script {} = some ({}, false) := by
    rw [getAssetData, isScriptNewAsset, hno 39 _ (by decide), isScriptTransferAsset,
      hno 30 _ (le_refl _), isScriptOwnerAsset, hno 30 _ (le_refl _), isScriptReissueAsset,
      hno 30 _ (le_refl _)]
    rfl
  rw [carried, Option.getD_some, assetAmount, hdata]
  rfl

namespace BRAddress

theorem length_scriptPubKey_le (H : Hashes) (addr : BRAddress) :
    (scriptPubKey H addr).length ≤ 25 := by
  rw [scriptPubKey]
  split_ifs with hlen
  · rw [length_p2pkh (by rw [List.length_tail, hlen])]
  · simp only [p2sh, List.length_append, List.length_cons, List.length_nil, List.length_tail, hlen]
    decide
  · exact Nat.zero_le _
  · exact Nat.zero_le _

end BRAddress

namespace BRWallet

section
variable {H : Hashes} {env : Env} {fuel : ℕ} {fill : ℕ → UInt8} {w w' : BRWallet} {asst : BRAsset}
  {addr : BRAddress} {tx tx' : BRTransaction}

variable (H fill) in
/-- The script of an output carries the amount of the asset. -/
theorem transferScript_some (hname : asst.Named) (addr : BRAddress) : ∃ script scriptLen,
    transferScript H fill asst addr = some (script, scriptLen) ∧
      carried asst.name (some script) = asst.amount.toNat ∧
      carried asst.name (some (script.take scriptLen)) = asst.amount.toNat := by
  -- the script of a transfer does not depend on the hash
  let core : BRAsset := { asst with hasIPFS := 0 }
  have hcore : core.Named := ⟨hname.length, hname.pos, hname.le⟩
  have hflag : core.Flagged := Or.inl rfl
  have hipfs : core.ValidIPFS := by
    intro h
    have h01 : (0 : UInt8) = 1 := h
    exact absurd h01 (by decide)
  have hcarried : ∀ (head tail : Bytes), head.length = 25 → tail.length < 8 →
      carried asst.name (some (writtenScript AssetScript.transfer.writer core head tail)) =
        asst.amount.toNat := by
    intro head tail hhead htail
    have hread : getAssetData (writtenScript AssetScript.transfer.writer core head tail) {} =
        some (AssetScript.transfer.read core {}, true) :=
      AssetScript.getAssetData_written hcore hflag hipfs hhead htail .transfer
    have hamount : assetAmount asst.name
        (writtenScript AssetScript.transfer.writer core head tail) = some (some asst.amount) := by
      rw [assetAmount, hread, Option.map_some]
      exact congrArg some (if_pos ⟨rfl, rfl⟩)
    rw [carried, Option.getD_some, hamount]
    rfl
  have haddr := BRAddress.length_scriptPubKey_le H addr
  have hsize : AssetScript.transfer.writer.size core = 41 + asst.nameLen := by
    change 25 + 6 + 1 + asst.nameLen + 8 + 1 = _
    omega
  have hfill : ((List.range (41 + asst.nameLen)).map fill).length = 41 + asst.nameLen := by
    rw [List.length_map, List.length_range]
  obtain ⟨buf, hbuf, hlen⟩ : ∃ buf, poke ((List.range (41 + asst.nameLen)).map fill) 0
      (BRAddress.scriptPubKey H addr) = some buf ∧ buf.length =
        ((List.range (41 + asst.nameLen)).map fill).length := poke_of_le (by omega)
  rw [hfill] at hlen
  have hsplit : buf.take 25 ++ buf.drop 25 = buf := List.take_append_drop 25 buf
  have hhead : (buf.take 25).length = 25 := List.length_take_of_le (by omega)
  obtain ⟨tail, n, htail, hset, htake⟩ := AssetScript.set_written hcore hflag hipfs .transfer hhead
    (by rw [List.length_drop, hlen, hsize]; omega : 25 + (buf.drop 25).length = _)
  refine ⟨_, n, ?_, hcarried _ tail hhead htail, ?_⟩
  · rw [hsplit] at hset
    have hsize' : BRTxOutput.setTransferAssetScript.size asst = 41 + asst.nameLen := hsize
    rw [transferScript, hsize', hbuf, Option.bind_some]
    exact hset
  · rw [htake]
    exact hcarried _ [] hhead (by decide)

/-- Without outputs there is no transaction. -/
theorem createTxForOutputs_nil {rand : ℕ → ℕ} :
    createTxForOutputs H env rand fuel w [] ≠ some (w', some tx) := by
  intro h
  cases fuel with
  | zero => cases h
  | succ fuel =>
    rw [createTxForOutputs] at h
    obtain ⟨s, -, h⟩ := Option.bind_eq_some_iff.1 h
    cases s with
    | done s => cases (Prod.mk.inj (Option.some.inj h)).2
    | tooLarge s =>
      dsimp only at h
      split_ifs at h
      · cases (Prod.mk.inj (Option.some.inj h)).2
      · cases h

/-- Change in coins does not carry an asset. -/
theorem addChange_assetOut {rand : ℕ → ℕ} {amount : UInt64} {s : Selection} (name : Bytes)
    (h : w.addChange H env rand fuel amount s = some (w', some tx)) :
    tx.assetOut name = s.transaction.assetOut name := by
  rcases addChange_cases h with ⟨-, hr⟩ | ⟨-, -, hr⟩ | ⟨-, addrs, -, hr⟩
  · cases hr
  · rw [Option.some.inj hr]
  · have hperm := (shuffle_perm rand (s.transaction.addOutput H
      (s.balance - (amount + s.feeAmount))
      (some (BRAddress.scriptPubKey H (addrs.headD [])))).outputs).map
        fun o => carried name o.script
    have haddr := BRAddress.length_scriptPubKey_le H (addrs.headD [])
    rw [Option.some.inj hr, BRTransaction.assetOut, BRTransaction.shuffleOutputs, hperm.sum_eq]
    change BRTransaction.assetOut name _ = _
    rw [BRTransaction.assetOut_addOutput, carried_short (haddr.trans (by decide)), Nat.add_zero]

/-- The transaction for an output carries what that output does. -/
theorem createTxForOutputs_assetOut {rand : ℕ → ℕ} {o : BRTxOutput} (name : Bytes)
    (h : createTxForOutputs H env rand fuel w [o] = some (w', some tx)) :
    tx.assetOut name = carried name o.script := by
  induction fuel generalizing o with
  | zero => cases h
  | succ fuel ih =>
    rw [createTxForOutputs] at h
    obtain ⟨s, hs, h⟩ := Option.bind_eq_some_iff.1 h
    cases s with
    | done s =>
      have houtputs := selectInputs_outputs hs
      have hrequest : (requestTx H [o]).assetOut name = carried name o.script := by
        rw [requestTx, List.foldl_cons, List.foldl_nil, BRTransaction.assetOut_addOutput]
        exact Nat.zero_add _
      dsimp only at h
      rw [if_neg (List.cons_ne_nil o [])] at h
      rw [addChange_assetOut name h, ← hrequest, BRTransaction.assetOut, BRTransaction.assetOut,
        houtputs]
    | tooLarge s =>
      dsimp only at h
      split_ifs at h
      · cases (Prod.mk.inj (Option.some.inj h)).2
      · rw [List.getLast?_singleton, Option.bind_some, smallerOutputs] at h
        have hdrop : [o].dropLast = [] := rfl
        rw [hdrop, List.nil_append] at h
        split_ifs at h
        · have hrec := ih h
          exact hrec
        · exact absurd h createTxForOutputs_nil

theorem carried_assetAt {o : UTXO} {output : BRTxOutput} {amount : UInt64}
    (h : w.assetAt asst o = some (some (tx, output, amount))) :
    carried asst.name output.script = amount.toNat := by
  rw [assetAt] at h
  obtain ⟨t, -, hout⟩ := Option.bind_eq_some_iff.1 h
  obtain ⟨out, -, hmap⟩ := Option.bind_eq_some_iff.1 hout
  obtain ⟨a, ha, htriple⟩ := Option.map_eq_some_iff.1 hmap
  obtain ⟨b, rfl, heq⟩ := Option.map_eq_some_iff.1 htriple
  obtain ⟨-, hpair⟩ := Prod.mk.inj heq
  obtain ⟨rfl, rfl⟩ := Prod.mk.inj hpair
  rw [carried, ha]
  rfl

/-! ## The loop -/

theorem addAssetChange_some (hname : asst.Named) {change : UInt64}
    (h : w.addAssetChange H env fuel fill asst tx change = some (w', tx')) :
    tx'.assetIn asst.name = tx.assetIn asst.name ∧
      tx'.assetOut asst.name = tx.assetOut asst.name + change.toNat := by
  rw [addAssetChange] at h
  obtain ⟨⟨w₁, addrs⟩, -, h⟩ := Option.bind_eq_some_iff.1 h
  obtain ⟨⟨script, scriptLen⟩, hscript, h⟩ := Option.map_eq_some_iff.1 h
  obtain ⟨-, rfl⟩ := Prod.mk.inj h
  have hname' : BRAsset.Named { asst with amount := change } := ⟨hname.length, hname.pos, hname.le⟩
  obtain ⟨script', scriptLen', hsome, -, hcarried⟩ := transferScript_some H fill
    hname' (addrs.headD [])
  obtain ⟨rfl, rfl⟩ := Prod.mk.inj (Option.some.inj (hscript.symm.trans hsome))
  refine ⟨BRTransaction.assetIn_addOutput _ _, ?_⟩
  rw [BRTransaction.assetOut_addOutput, hcarried]

theorem addAssetChange_isSome (hname : asst.Named) (change : UInt64) :
    (w.addAssetChange H env fuel fill asst tx change).isSome =
      (w.unusedAddrs env fuel 1 true).isSome := by
  rw [addAssetChange]
  cases w.unusedAddrs env fuel 1 true with
  | none => rfl
  | some r =>
    have hname' : BRAsset.Named { asst with amount := change } :=
      ⟨hname.length, hname.pos, hname.le⟩
    obtain ⟨script, scriptLen, hsome, -, -⟩ := transferScript_some H fill hname'
      (r.2.headD [])
    rw [Option.bind_some]
    dsimp only
    rw [hsome]
    rfl

/-- With the second output, the transaction keeps the amount if its inputs carry the balance. -/
theorem addAssetChange_conserves (hname : asst.Named) {bal : UInt64} (hless : asst.amount < bal)
    (hout : tx.assetOut asst.name = asst.amount.toNat) {P : Prop} :
    (∃ w' tx', w.addAssetChange H env fuel fill asst tx (bal - asst.amount) = some (w', tx') ∧
      tx'.assetIn asst.name = tx'.assetOut asst.name ∧ P) ↔
    tx.assetIn asst.name = bal.toNat ∧ (w.unusedAddrs env fuel 1 true).isSome ∧ P := by
  have haddrs : (w.addAssetChange H env fuel fill asst tx (bal - asst.amount)).isSome =
      (w.unusedAddrs env fuel 1 true).isSome := addAssetChange_isSome hname _
  have hlt := UInt64.lt_iff_toNat_lt.1 hless
  have hsub := toNat_sub_of_le hlt.le
  constructor
  · rintro ⟨w', tx', h, hsame, hP⟩
    rw [h] at haddrs
    obtain ⟨hin', hout'⟩ := addAssetChange_some hname h
    exact ⟨by omega, haddrs.symm, hP⟩
  · rintro ⟨hcount, hsome, hP⟩
    obtain ⟨⟨w', tx'⟩, h⟩ := Option.isSome_iff_exists.1 (haddrs.trans hsome)
    obtain ⟨hin', hout'⟩ := addAssetChange_some hname h
    exact ⟨w', tx', h, by omega, hP⟩

variable (H env fuel fill tx) in
/-- A round of the loop in which an input is added. -/
theorem addAssetInputs_cons (us : List UTXO) (bal : UInt64) {o : UTXO} {t : BRTransaction}
    {output : BRTxOutput} {amount : UInt64}
    (ho : w.assetAt asst o = some (some (t, output, amount))) :
    ∃ tx₁ : BRTransaction, tx₁.assetIn asst.name = tx.assetIn asst.name + amount.toNat ∧
      tx₁.assetOut asst.name = tx.assetOut asst.name ∧
      w.addAssetInputs H env fuel fill asst (o :: us) tx bal =
        if asst.amount < bal + amount then
          w.addAssetChange H env fuel fill asst tx₁ (bal + amount - asst.amount)
        else if asst.amount > bal + amount then
          w.addAssetInputs H env fuel fill asst us tx₁ (bal + amount)
        else some (w, tx₁) := by
  refine ⟨tx.addInput H t.txHash o.n output.amount output.script TXIN_SEQUENCE, ?_, rfl, ?_⟩
  · rw [BRTransaction.assetIn_addInput, carried_assetAt ho]
  · rw [addAssetInputs, ho, Option.bind_some]

/-- Inputs are only added, and the outputs carry no more than a word holds. -/
theorem addAssetInputs_bounds (hname : asst.Named) {us : List UTXO} {bal : UInt64}
    (hout : tx.assetOut asst.name = asst.amount.toNat)
    (h : w.addAssetInputs H env fuel fill asst us tx bal = some (w', tx')) :
    tx.assetIn asst.name ≤ tx'.assetIn asst.name ∧ tx'.assetOut asst.name < 2 ^ 64 := by
  have hamount := asst.amount.toNat_lt
  induction us generalizing tx bal with
  | nil =>
    rw [addAssetInputs] at h
    obtain ⟨-, rfl⟩ := Prod.mk.inj (Option.some.inj h)
    exact ⟨le_refl _, hout ▸ hamount⟩
  | cons o us ih =>
    cases ho : w.assetAt asst o with
    | none =>
      rw [addAssetInputs, ho] at h
      cases h
    | some r =>
      cases r with
      | none =>
        rw [addAssetInputs, ho, Option.bind_some] at h
        exact ih hout h
      | some r =>
        obtain ⟨t, output, amount⟩ := r
        obtain ⟨tx₁, hin₁, hout₁, heq⟩ := addAssetInputs_cons H env fuel fill tx us bal ho
        rw [hout] at hout₁
        rw [heq] at h
        split_ifs at h with hless hmore
        · obtain ⟨hin', hout'⟩ := addAssetChange_some hname h
          have hlt := UInt64.lt_iff_toNat_lt.1 hless
          have hsub := toNat_sub_of_le hlt.le
          have hbal := (bal + amount).toNat_lt
          omega
        · obtain ⟨hle, hlt⟩ := ih hout₁ h
          exact ⟨by omega, hlt⟩
        · obtain ⟨-, rfl⟩ := Prod.mk.inj (Option.some.inj h)
          exact ⟨by omega, by omega⟩

/-- The loop keeps the amount of the asset, and the UTXOs hold enough of it, exactly if what the
    inputs carried before is counted, and the amount is reached. -/
theorem addAssetInputs_conserves (hname : asst.Named) {us : List UTXO} {bal : UInt64}
    (hin : bal.toNat ≤ tx.assetIn asst.name) (hout : tx.assetOut asst.name = asst.amount.toNat) :
    (∃ w' tx', w.addAssetInputs H env fuel fill asst us tx bal = some (w', tx') ∧
      tx'.assetIn asst.name = tx'.assetOut asst.name ∧
      asst.amount.toNat ≤ bal.toNat + w.held asst us) ↔
    tx.assetIn asst.name = bal.toNat ∧ w.Reaches env fuel asst us bal.toNat := by
  induction us generalizing tx bal with
  | nil =>
    constructor
    · rintro ⟨w', tx', h, hsame, hle⟩
      rw [addAssetInputs] at h
      obtain ⟨-, rfl⟩ := Prod.mk.inj (Option.some.inj h)
      change asst.amount.toNat ≤ bal.toNat at hle
      change _ ∧ bal.toNat = asst.amount.toNat
      omega
    · rintro ⟨hcount, hreach⟩
      have hbal : bal.toNat = asst.amount.toNat := hreach
      refine ⟨w, tx, rfl, by omega, ?_⟩
      rw [hbal]
      exact Nat.le_add_right _ _
  | cons o us ih =>
    cases ho : w.assetAt asst o with
    | none =>
      constructor
      · rintro ⟨w', tx', h, -⟩
        rw [addAssetInputs, ho] at h
        cases h
      · rintro ⟨-, hreach⟩
        rw [Reaches, ho] at hreach
        exact hreach.elim
    | some r =>
      cases r with
      | none =>
        have hrec := ih hin hout
        rw [addAssetInputs, ho, Option.bind_some, Reaches, ho]
        have hheld : w.held asst (o :: us) = w.held asst us := by
          rw [held, List.map_cons, List.sum_cons, ho]
          exact Nat.zero_add _
        rw [hheld]
        exact hrec
      | some r =>
        obtain ⟨t, output, amount⟩ := r
        obtain ⟨tx₁, hin₁, hout₁, heq⟩ := addAssetInputs_cons H env fuel fill tx us bal ho
        rw [hout] at hout₁
        have hheld : w.held asst (o :: us) = amount.toNat + w.held asst us := by
          rw [held, List.map_cons, List.sum_cons, ho]
          rfl
        rw [hheld, Reaches, ho]
        dsimp only
        by_cases hover : bal.toNat + amount.toNat < 2 ^ 64
        · have hbal : (bal + amount).toNat = bal.toNat + amount.toNat := toNat_add_of_lt hover
          rw [heq]
          rcases lt_trichotomy asst.amount.toNat (bal.toNat + amount.toNat) with hlt | he | hgt
          · -- the second output carries what is left over
            have hless : asst.amount < bal + amount := UInt64.lt_iff_toNat_lt.2 (hbal ▸ hlt)
            rw [if_pos hless, addAssetChange_conserves hname hless hout₁, hbal]
            constructor
            · rintro ⟨hcount, haddrs, -⟩
              exact ⟨by omega, hover, fun _ => haddrs, fun h => absurd h (by omega)⟩
            · rintro ⟨hcount, -, haddrs, -⟩
              exact ⟨by omega, haddrs hlt, by omega⟩
          · have hexact : bal + amount = asst.amount := UInt64.toNat_inj.1 (hbal.trans he.symm)
            rw [hexact, if_neg (UInt64.lt_irrefl _), if_neg (UInt64.lt_irrefl _)]
            constructor
            · rintro ⟨w', tx', h, hsame, -⟩
              obtain ⟨-, rfl⟩ := Prod.mk.inj (Option.some.inj h)
              exact ⟨by omega, hover, fun h => absurd h (by omega), fun h => absurd h (by omega)⟩
            · rintro ⟨hcount, -⟩
              exact ⟨w, tx₁, rfl, by omega, by omega⟩
          · have hmore : asst.amount > bal + amount := UInt64.lt_iff_toNat_lt.2 (hbal ▸ hgt)
            rw [if_neg (UInt64.lt_asymm hmore), if_pos hmore]
            have hin' : (bal + amount).toNat ≤ tx₁.assetIn asst.name := by omega
            have hrec := ih hin' hout₁
            rw [hbal, Nat.add_assoc] at hrec
            rw [hrec, hin₁]
            constructor
            · rintro ⟨hcount, hreach⟩
              exact ⟨by omega, hover, fun h => absurd h (by omega), fun _ => hreach⟩
            · rintro ⟨hcount, -, -, hreach⟩
              have hnext := hreach hgt
              exact ⟨by omega, hnext⟩
        · -- after an overflow the inputs carry more than the outputs can
          constructor
          · rintro ⟨w', tx', h, hsame, -⟩
            exfalso
            have hamount := asst.amount.toNat_lt
            rw [heq] at h
            split_ifs at h with hless hmore
            · obtain ⟨hin', hout'⟩ := addAssetChange_some hname h
              have hsub := toNat_sub_of_le (UInt64.lt_iff_toNat_lt.1 hless).le
              have hle := UInt64.lt_iff_toNat_lt.1 hless
              have hword := (bal + amount).toNat_lt
              omega
            · obtain ⟨hle, hlt⟩ := addAssetInputs_bounds hname hout₁ h
              omega
            · obtain ⟨-, rfl⟩ := Prod.mk.inj (Option.some.inj h)
              omega
          · rintro ⟨-, hlt, -⟩
            exact absurd hlt hover

/-! ## The transaction -/

/-- An extension of the chains of addresses. -/
theorem unusedAddrs_assetAt (asst : BRAsset) {internal : Bool} {gap : ℕ} {addrs : List BRAddress}
    (h : w.unusedAddrs env fuel gap internal = some (w', addrs)) :
    w'.utxos = w.utxos ∧ w'.assetAt asst = w.assetAt asst := by
  obtain ⟨c, aa, -, rfl, -⟩ := unusedAddrs_some h
  cases internal with
  | false => exact ⟨rfl, rfl⟩
  | true => exact ⟨rfl, rfl⟩

theorem createTxForOutputs_assetAt (asst : BRAsset) {rand : ℕ → ℕ} {outputs : List BRTxOutput}
    {r : Option BRTransaction} (h : createTxForOutputs H env rand fuel w outputs = some (w', r)) :
    w'.utxos = w.utxos ∧ w'.assetAt asst = w.assetAt asst := by
  induction fuel generalizing outputs with
  | zero => cases h
  | succ fuel ih =>
    rw [createTxForOutputs] at h
    obtain ⟨s, -, h⟩ := Option.bind_eq_some_iff.1 h
    cases s with
    | done s =>
      dsimp only at h
      split_ifs at h
      · obtain ⟨rfl, -⟩ := Prod.mk.inj (Option.some.inj h)
        exact ⟨rfl, rfl⟩
      · rw [addChange] at h
        split_ifs at h
        · obtain ⟨rfl, -⟩ := Prod.mk.inj (Option.some.inj h)
          exact ⟨rfl, rfl⟩
        · obtain ⟨⟨w₁, addrs⟩, haddrs, h⟩ := Option.map_eq_some_iff.1 h
          obtain ⟨rfl, -⟩ := Prod.mk.inj h
          exact unusedAddrs_assetAt asst haddrs
        · obtain ⟨rfl, -⟩ := Prod.mk.inj (Option.some.inj h)
          exact ⟨rfl, rfl⟩
    | tooLarge s =>
      dsimp only at h
      split_ifs at h
      · obtain ⟨rfl, -⟩ := Prod.mk.inj (Option.some.inj h)
        exact ⟨rfl, rfl⟩
      · obtain ⟨last, -, h⟩ := Option.bind_eq_some_iff.1 h
        exact ih h

/-- The transaction that pays for the output carries the requested amount in it. -/
theorem payForAsset_some (hname : asst.Named) {rand : ℕ → ℕ} {amount : UInt64}
    {r : Option BRTransaction}
    (h : w.payForAsset H env fuel fill asst rand amount addr = some (w', r)) :
    w'.utxos = w.utxos ∧ w'.assetAt asst = w.assetAt asst ∧
      ∀ tx, r = some tx → tx.assetOut asst.name = asst.amount.toNat := by
  obtain ⟨script, scriptLen, hscript, hcarried, -⟩ := transferScript_some H fill hname addr
  rw [payForAsset, hscript, Option.bind_some] at h
  obtain ⟨hutxos, hat⟩ : w'.utxos = w.utxos ∧ w'.assetAt asst = w.assetAt asst :=
    createTxForOutputs_assetAt asst h
  refine ⟨hutxos, hat, ?_⟩
  rintro tx rfl
  rw [createTxForOutputs_assetOut asst.name h]
  exact hcarried

/-- What a call returns, given what `BRWalletCreateTxForOutputs` returned to it: a transaction keeps
    the amount of the asset, and there is none if the UTXOs hold too little of it, or too few
    coins. -/
def Delivers (w : BRWallet) (asst : BRAsset)
    (paid result : Option (BRWallet × Option BRTransaction)) : Prop :=
  ∃ w' r, result = some (w', r) ∧
    (∀ tx, r = some tx → tx.assetIn asst.name = tx.assetOut asst.name) ∧
    (w.held asst w.utxos < asst.amount.toNat → r = none) ∧
    (∀ w₁, paid = some (w₁, none) → r = none)

/-- There is a transaction that pays for the output, the coins it spends do not carry the asset, and
    the loop reaches the amount. -/
def Funds (env : Env) (fuel : ℕ) (asst : BRAsset)
    (paid : Option (BRWallet × Option BRTransaction)) : Prop :=
  ∃ w₁ tx, paid = some (w₁, some tx) ∧ tx.assetIn asst.name = 0 ∧
    w₁.Reaches env fuel asst w₁.utxos 0

theorem sendAsset_delivers (hname : asst.Named) {rand : ℕ → ℕ} {amount : UInt64} :
    w.Delivers asst (w.payForAsset H env fuel fill asst rand amount addr)
      (w.sendAsset H env fuel fill asst rand amount addr) ↔
    Funds env fuel asst (w.payForAsset H env fuel fill asst rand amount addr) := by
  rw [sendAsset]
  cases hpaid : w.payForAsset H env fuel fill asst rand amount addr with
  | none =>
    constructor
    · rintro ⟨w', r, h, -⟩
      cases h
    · rintro ⟨w₁, tx, h, -⟩
      cases h
  | some paid =>
    obtain ⟨w₁, r⟩ := paid
    obtain ⟨hutxos, hat, hout⟩ := payForAsset_some hname hpaid
    cases r with
    | none =>
      constructor
      · rintro ⟨w', r, h, -⟩
        cases h
      · rintro ⟨w₁, tx, h, -⟩
        cases (Prod.mk.inj (Option.some.inj h)).2
    | some tx =>
      have hheld : w₁.held asst w₁.utxos = w.held asst w.utxos := by
        rw [held, held, hutxos, hat]
      have hloop : (∃ w' tx', w₁.addAssetInputs H env fuel fill asst w₁.utxos (copyAsset asst tx) 0 =
          some (w', tx') ∧ tx'.assetIn asst.name = tx'.assetOut asst.name ∧
          asst.amount.toNat ≤ (0 : UInt64).toNat + w₁.held asst w₁.utxos) ↔
          tx.assetIn asst.name = 0 ∧ w₁.Reaches env fuel asst w₁.utxos 0 :=
        addAssetInputs_conserves hname (Nat.zero_le _) (hout tx rfl)
      rw [UInt64.toNat_zero, Nat.zero_add, hheld] at hloop
      rw [Option.bind_some]
      constructor
      · rintro ⟨w', r, h, hsame, henough, -⟩
        obtain ⟨⟨w₂, tx'⟩, hrun, h⟩ := Option.map_eq_some_iff.1 h
        obtain ⟨rfl, rfl⟩ := Prod.mk.inj h
        have hle := Nat.not_lt.1 fun hlt => Option.some_ne_none _ (henough hlt)
        exact ⟨w₁, tx, rfl, hloop.1 ⟨w₂, tx', hrun, hsame tx' rfl, hle⟩⟩
      · rintro ⟨w₂, tx₂, h, hfunds⟩
        obtain ⟨-, hpair⟩ := Prod.mk.inj (Option.some.inj h)
        obtain ⟨rfl, -⟩ := Prod.mk.inj (Option.some.inj h)
        obtain rfl := Option.some.inj hpair
        obtain ⟨w', tx', hrun, hsame, hle⟩ := hloop.2 hfunds
        refine ⟨w', some tx', ?_, ?_, ?_, ?_⟩
        · change (w₁.addAssetInputs H env fuel fill asst w₁.utxos (copyAsset asst tx) 0).map _ = _
          rw [hrun]
          rfl
        · intro t ht
          rw [← Option.some.inj ht]
          exact hsame
        · intro hlt
          exact absurd hle (Nat.not_le.2 hlt)
        · intro w₂ hnone
          cases (Prod.mk.inj (Option.some.inj hnone)).2

/-- Both functions keep the amount of the asset, and return no transaction without the means for it,
    exactly if the coins and the UTXOs with the asset suffice. -/
theorem rootAsset_delivers (hname : asst.Named) (rand : ℕ → ℕ) (amount : UInt64)
    (addr : BRAddress) :
    (w.Delivers asst (w.payForAsset H env fuel fill asst rand amount addr)
        (w.createTxForRootAssetTransfer H env fuel fill asst rand amount addr) ↔
      Funds env fuel asst (w.payForAsset H env fuel fill asst rand amount addr)) ∧
    (w.Delivers asst
        (w.payForAsset H env fuel fill asst rand 0 strGlobalBurnAddressMainNet)
        (w.burnRootAsset H env fuel fill asst rand) ↔
      Funds env fuel asst
        (w.payForAsset H env fuel fill asst rand 0 strGlobalBurnAddressMainNet)) :=
  ⟨sendAsset_delivers hname, sendAsset_delivers hname⟩

/-- An asset that is sent. -/
def sentAsset : BRAsset := { name := [65, 66, 67], nameLen := 3, amount := 60 }

theorem sentAsset_named : sentAsset.Named := ⟨rfl, by decide, by decide⟩

/-- An output with more of the asset than is sent. -/
def assetOutput : BRTxOutput where
  address := keyAddress
  amount := 0
  script := (transferScript sampleHashes (fun _ => 0) { sentAsset with amount := 100 }
    keyAddress).map Prod.fst

/-- A wallet with that output and a coin. -/
def assetWallet : BRWallet :=
  { coinWallet with
    utxos := [⟨1, 0⟩, ⟨2, 0⟩], transactions := [0, 1]
    allTx := (AList.singleton 1 0).insert 2 1
    heap := ⟨[some { txHash := 1, outputs := [{ address := keyAddress, amount := 3000000 }] },
      some { txHash := 2, outputs := [assetOutput] }]⟩ }

instance decidableReaches : ∀ us taken, Decidable (w.Reaches env fuel asst us taken)
  | [], taken => inferInstanceAs (Decidable (taken = asst.amount.toNat))
  | o :: us, taken =>
    match h : w.assetAt asst o with
    | none => isFalse (by rw [Reaches, h]; exact id)
    | some none =>
      have : Decidable (w.Reaches env fuel asst us taken) := decidableReaches us taken
      decidable_of_iff (w.Reaches env fuel asst us taken) (by rw [Reaches, h])
    | some (some (_, _, amount)) =>
      have : Decidable (w.Reaches env fuel asst us (taken + amount.toNat)) :=
        decidableReaches us (taken + amount.toNat)
      decidable_of_iff (taken + amount.toNat < 2 ^ 64 ∧
        (asst.amount.toNat < taken + amount.toNat → (w.unusedAddrs env fuel 1 true).isSome) ∧
        (taken + amount.toNat < asst.amount.toNat →
          w.Reaches env fuel asst us (taken + amount.toNat))) (by rw [Reaches, h])

theorem rootAsset_delivers_assetWallet : assetWallet.Delivers sentAsset
    (assetWallet.payForAsset sampleHashes keyEnv 3 (fun _ => 0) sentAsset id 0 keyAddress)
    (assetWallet.createTxForRootAssetTransfer sampleHashes keyEnv 3 (fun _ => 0) sentAsset id 0
      keyAddress) := by
  have hfunds : (assetWallet.payForAsset sampleHashes keyEnv 3 (fun _ => 0) sentAsset id 0
      keyAddress).any (fun r => r.2.any fun tx => decide (tx.assetIn sentAsset.name = 0 ∧
        r.1.Reaches keyEnv 3 sentAsset r.1.utxos 0)) = true := by decide +kernel
  obtain ⟨⟨w₁, r⟩, hpaid, hr⟩ := (Option.any_eq_true _ _).1 hfunds
  obtain ⟨tx, rfl, hreach⟩ := (Option.any_eq_true _ _).1 hr
  exact (rootAsset_delivers sentAsset_named id 0 keyAddress).1.2
    ⟨w₁, tx, hpaid, of_decide_eq_true hreach⟩

/-- Without any of the asset, a transaction is returned that sends it. -/
theorem not_rootAsset_delivers : ¬ ∀ (H : Hashes) (env : Env) (fuel : ℕ) (fill : ℕ → UInt8)
    (rand : ℕ → ℕ) (w : BRWallet) (asst : BRAsset) (amount : UInt64) (addr : BRAddress),
    asst.Named → w.Delivers asst (w.payForAsset H env fuel fill asst rand amount addr)
      (w.createTxForRootAssetTransfer H env fuel fill asst rand amount addr) := by
  intro h
  have hsent : (coinWallet.createTxForRootAssetTransfer sampleHashes keyEnv 3 (fun _ => 0) sentAsset
      id 0 keyAddress).any (fun r => r.2.isSome) = true := by decide +kernel
  have hheld : coinWallet.held sentAsset coinWallet.utxos < sentAsset.amount.toNat := by
    decide +kernel
  obtain ⟨w', r, hr, -, hnone, -⟩ := h sampleHashes keyEnv 3 (fun _ => 0) id coinWallet sentAsset 0
    keyAddress sentAsset_named
  rw [hr, hnone hheld] at hsent
  exact Bool.false_ne_true hsent

end

end BRWallet

end RavenWallet
