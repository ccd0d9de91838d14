/-
  The amounts in the asset table over a run (`txAdded`, `assetAdded`, `txUpdated`
  and `txDeleted` of WalletManager.swift).

  What a handler queues runs at once, except that the work of `txUpdated` for a
  transaction is an event of its own, which may come at any time and any number of
  times.  What `RvnTransaction` reads for the direction and the status is read
  then.  An issue creates or reissues an asset; it is written when it is found
  confirmed, and it counts from then on.

  * `moved_add`, `moved_update`, `moved_delete`, `moved_generate`: an event changes
    what one transaction moves, at most;
  * `addParts_stored`: the parts of an issue are written one after another;
  * `moved_parts`: what an issue moves, if it moves nothing but its parts;
  * `run_stored`: as long as a transaction moves the amount of its first asset, and
    an issue what its parts have, the stored amounts are those of the transactions
    that count.
-/
import Mathlib.Algebra.BigOperators.Group.List.Basic
import RavenWallet.Database.Assets
import RavenWallet.Database.Transactions

namespace RavenWallet

/-! ## The wallet -/

/-- The addresses and the transactions of the wallet. -/
structure WalletView where
  allAddrs : Finset BRAddress
  transactions : List BRTransaction

namespace WalletView

variable (w : WalletView)

def tx? (txHash : UInt256) : Option BRTransaction :=
  w.transactions.find? fun t => t.txHash = txHash

/-- The output of the wallet that an input spends. -/
def spent? (i : BRTxInput) : Option BRTxOutput :=
  (w.tx? i.txHash).bind fun t =>
    (t.outputs[i.index.toNat]?).bind fun o => if o.address ∈ w.allAddrs then some o else none

/-- `BRWalletAmountSentByTx`. -/
def amountSentByTx (tx : BRTransaction) : UInt64 :=
  (tx.inputs.map fun i => (w.spent? i).elim 0 BRTxOutput.amount).sum

/-- The direction of a transaction with an asset is `received`. -/
def received (tx : BRTransaction) : Bool := ¬ w.amountSentByTx tx > 0

/-- The outputs that `BRWalletAssetsReceivedFromTx` counts. -/
def assetsReceivedFromTx (tx : BRTransaction) : ℕ :=
  tx.outputs.countP fun o =>
    o.amount = 0 && !(isScriptTransferAsset (o.script.getD [])) && decide (o.address ∈ w.allAddrs)

/-- The outputs of the wallet with an asset that is not transferred. -/
def issueOutputs (tx : BRTransaction) : List BRTxOutput :=
  tx.outputs.filter fun o =>
    isScriptAsset (o.script.getD []) && !(isScriptTransferAsset (o.script.getD [])) &&
      decide (o.address ∈ w.allAddrs)

/-- The assets of the transactions that `BRTransactionDecompose` makes of an issue.  The array for
    them is as long as its first call counts; a transaction for what is burnt comes first, and its
    inputs are looked up among the outputs. -/
def decompose (valid : Bool) (tx : BRTransaction) : Option (List BRAsset) := do
  let burn := decide (w.amountSentByTx tx > 0) && valid
  let txsCount := (if burn then 1 else 0) + w.assetsReceivedFromTx tx
  if txsCount = 0 then some []
  else do
    guard (burn → ∀ i ∈ tx.inputs, i.index.toNat < tx.outputs.length)
    let outputs := w.issueOutputs tx
    guard ((if burn then 1 else 0) + outputs.length ≤ txsCount)
    outputs.mapM fun o => (getAssetData (o.script.getD []) {}).map Prod.fst

/-- The assets in these outputs. -/
def parts (tx : BRTransaction) : List BRAsset :=
  (w.issueOutputs tx).filterMap fun o => (getAssetData (o.script.getD []) {}).map Prod.fst

end WalletView

namespace BRTransaction

/-- The first asset, if it is a valid one (`checkInvalidAsset`). -/
def validAsset (tx : BRTransaction) : Option BRAsset :=
  tx.asset.head?.bind fun a => if a.type ≠ .INVALID then some a else none

/-- The first asset is created or reissued. -/
def isIssue (tx : BRTransaction) : Bool :=
  tx.validAsset.any fun a => a.type = .NEW_ASSET ∨ a.type = .REISSUE

end BRTransaction

inductive TransactionStatus where
  | pending | confirmed | complete | invalid
  deriving DecidableEq, Repr

/-- The status that `RvnTransaction` gives a transaction. -/
def transactionStatus (isValid : Bool) (txBlockHeight lastBlockHeight : UInt32) :
    TransactionStatus :=
  let blockHeight := if txBlockHeight = UINT32_MAX then 2 ^ 64 - 1 else txBlockHeight.toNat
  let confirmations :=
    if blockHeight > lastBlockHeight.toNat then 0 else lastBlockHeight.toNat - blockHeight + 1
  if isValid then
    if confirmations = 0 then .pending else if confirmations < 6 then .confirmed else .complete
  else .invalid

/-! ## Events -/

/-- The wallet, the asset table, and the issues that were written. -/
structure AssetState where
  wallet : WalletView
  table : List AssetRow
  issued : Finset UInt256

inductive AssetEvent where
  /-- a transaction is added to the wallet -/
  | added (tx : BRTransaction)
  /-- transactions are confirmed, or set unconfirmed by a reorg -/
  | updated (txHashes : List UInt256) (blockHeight timestamp : UInt32)
  /-- the work that `txUpdated` queues for a transaction -/
  | assetAdded (txHash : UInt256) (isValid : Bool) (lastBlockHeight : UInt32)
  | deleted (txHash : UInt256)
  /-- the answer to a request for the data of an asset -/
  | assetData (a : BRAsset)
  /-- new addresses of the wallet -/
  | generated (addrs : Finset BRAddress)

namespace AssetState

open AssetTable (stored)

variable (s : AssetState)

def addTx (tx : BRTransaction) : WalletView :=
  { s.wallet with transactions := tx :: s.wallet.transactions }

def updateTxs (txHashes : List UInt256) (blockHeight timestamp : UInt32) : WalletView :=
  { s.wallet with
    transactions := setBlocks s.wallet.transactions txHashes blockHeight timestamp }

def deleteTx (txHash : UInt256) : WalletView :=
  { s.wallet with transactions := s.wallet.transactions.filter fun t => t.txHash ≠ txHash }

/-- `txAdded`. -/
def txAdded (tx : BRTransaction) : Option AssetState := do
  let wallet := s.addTx tx
  match tx.validAsset with
  | some a =>
    if tx.isIssue then some { s with wallet }
    else do
      let table ← AssetTable.assetAdded (wallet.received tx) a s.table
      some { s with wallet, table }
  | none => some { s with wallet }

/-- Writes the parts of an issue; they have no inputs. -/
def addParts (parts : List BRAsset) (table : List AssetRow) : Option (List AssetRow) :=
  parts.foldlM (fun table a => AssetTable.assetAdded true a table) table

/-- `assetAdded`, for a transaction that was updated. -/
def assetAdded (txHash : UInt256) (isValid : Bool) (lastBlockHeight : UInt32) :
    Option AssetState := do
  let tx ← s.wallet.tx? txHash
  if tx.isIssue then
    match transactionStatus isValid tx.blockHeight lastBlockHeight with
    -- not written while it is not confirmed
    | .pending | .invalid => some s
    | .confirmed | .complete => do
      let parts ← s.wallet.decompose isValid tx
      let table ← addParts parts s.table
      some { s with table, issued := insert txHash s.issued }
  else some s

/-- `txDeleted`; the transactions in the database are those of the wallet. -/
def txDeleted (txHash : UInt256) : Option AssetState := do
  let found := s.wallet.transactions.filter fun t => t.txHash = txHash
  let table ← found.foldlM (fun table tx =>
    match tx.validAsset with
    | some a => if a.type = .TRANSFER then AssetTable.rejectAssetTx a table else some table
    | none => some table) s.table
  some { s with wallet := s.deleteTx txHash, table, issued := s.issued.erase txHash }

def apply : AssetEvent → Option AssetState
  | .added tx => s.txAdded tx
  | .updated txHashes blockHeight timestamp =>
    some { s with wallet := s.updateTxs txHashes blockHeight timestamp }
  | .assetAdded txHash isValid lastBlockHeight => s.assetAdded txHash isValid lastBlockHeight
  | .deleted txHash => s.txDeleted txHash
  | .assetData a => do
    let table ← AssetTable.updateAssetData a s.table
    some { s with table }
  | .generated addrs =>
    some { s with wallet := { s.wallet with allAddrs := s.wallet.allAddrs ∪ addrs } }

end AssetState

/-! ## The ledger -/

/-- The amount of an asset that a script carries. -/
def assetValue (name : Bytes) (script : Option Bytes) : ℕ :=
  match getAssetData (script.getD []) {} with
  | some (a, true) => if a.nameString = name then a.amount.toNat else 0
  | _ => 0

namespace WalletView

variable (w : WalletView)

/-- What an output gives the wallet. -/
def ownValue (name : Bytes) (o : BRTxOutput) : ℤ :=
  if o.address ∈ w.allAddrs then assetValue name o.script else 0

/-- What an input takes from the wallet. -/
def spentValue (name : Bytes) (i : BRTxInput) : ℤ :=
  (w.spent? i).elim 0 fun o => assetValue name o.script

/-- What a transaction moves of an asset: its amounts in outputs of the wallet, without those that
    it spends. -/
def moved (name : Bytes) (tx : BRTransaction) : ℤ :=
  (tx.outputs.map (w.ownValue name)).sum - (tx.inputs.map (w.spentValue name)).sum

/-- The amounts that a transaction moves are those of its parts: they are read, stand in outputs
    without RVN, and no amount is transferred to the wallet or spent. -/
structure OnlyParts (tx : BRTransaction) : Prop where
  read : ∀ o ∈ w.issueOutputs tx, ∃ a, getAssetData (o.script.getD []) {} = some (a, true)
  amount : ∀ o ∈ w.issueOutputs tx, o.amount = 0
  transferred : ∀ o ∈ tx.outputs, isScriptTransferAsset (o.script.getD []) = true →
    ∀ name, AssetValidator.isAssetNameAnOwner name = false → w.ownValue name o = 0
  spent : ∀ i ∈ tx.inputs, ∀ name, AssetValidator.isAssetNameAnOwner name = false →
    w.spentValue name i = 0

/-- What all transactions move. -/
def total (name : Bytes) : ℤ := (w.transactions.map (w.moved name)).sum

end WalletView

namespace AssetState

variable (s : AssetState)

/-- An issue counts when it has been written, any other transaction always. -/
def counts (tx : BRTransaction) : Bool := !tx.isIssue || decide (tx.txHash ∈ s.issued)

/-- What the transactions that count move. -/
def balance (name : Bytes) : ℤ :=
  (s.wallet.transactions.map fun t => if s.counts t then s.wallet.moved name t else 0).sum

end AssetState

namespace WalletView

variable {w w' : WalletView} {name : Bytes} {tx t : BRTransaction} {txHash : UInt256}

theorem moved_congr (hout : ∀ o ∈ tx.outputs, w'.ownValue name o = w.ownValue name o)
    (hin : ∀ i ∈ tx.inputs, w'.spentValue name i = w.spentValue name i) :
    w'.moved name tx = w.moved name tx := by
  rw [moved, moved, List.map_congr_left hout, List.map_congr_left hin]

theorem spentValue_congr {i : BRTxInput} (haddrs : w'.allAddrs = w.allAddrs)
    (h : w'.tx? i.txHash = w.tx? i.txHash) : w'.spentValue name i = w.spentValue name i := by
  rw [spentValue, spentValue, spent?, spent?, h, haddrs]

theorem spentValue_unknown {i : BRTxInput} (h : w.tx? i.txHash = none) :
    w.spentValue name i = 0 := by
  rw [spentValue, spent?, h]
  rfl

/-- An input that spends an output without an amount. -/
theorem spentValue_eq_zero {i : BRTxInput} (htx : w.tx? i.txHash = some tx)
    (h : ∀ o, tx.outputs[i.index.toNat]? = some o → o.address ∈ w.allAddrs →
      assetValue name o.script = 0) : w.spentValue name i = 0 := by
  rw [spentValue, spent?, htx, Option.bind_some]
  cases hout : tx.outputs[i.index.toNat]? with
  | none => rfl
  | some o =>
    rw [Option.bind_some]
    split_ifs with howned
    · exact congrArg Nat.cast (h o hout howned)
    · rfl

theorem ownValue_congr {o : BRTxOutput} (haddrs : w'.allAddrs = w.allAddrs) :
    w'.ownValue name o = w.ownValue name o := by
  rw [ownValue, ownValue, haddrs]

end WalletView

namespace AssetState

open AssetTable (stored credit refund InRange Room isAssetExiste)
open AssetValidator (isAssetNameAnOwner)

variable {s s' : AssetState} {name : Bytes} {tx t : BRTransaction} {txHash : UInt256}

/-! ## What an event changes of the ledger -/

/-- The wallet's transactions spend no amount of an asset in outputs of the given one. -/
def Unspent (s : AssetState) (tx : BRTransaction) : Prop :=
  ∀ t ∈ s.wallet.transactions, ∀ i ∈ t.inputs, i.txHash = tx.txHash →
    ∀ o, tx.outputs[i.index.toNat]? = some o → o.address ∈ s.wallet.allAddrs →
      ∀ name, isAssetNameAnOwner name = false → assetValue name o.script = 0

/-- A transaction of which none of the others spends an amount is added: what they move stays. -/
theorem moved_add (hname : isAssetNameAnOwner name = false)
    (hfresh : ∀ t ∈ s.wallet.transactions, t.txHash ≠ tx.txHash) (h : s.Unspent tx)
    (ht : t ∈ s.wallet.transactions) : (s.addTx tx).moved name t = s.wallet.moved name t := by
  refine WalletView.moved_congr (fun o _ => WalletView.ownValue_congr rfl) ?_
  intro i hi
  by_cases hspends : i.txHash = tx.txHash
  · have hold : s.wallet.tx? i.txHash = none := by
      refine List.find?_eq_none.2 fun t ht => ?_
      rw [hspends]
      simpa using hfresh t ht
    have hnew : (s.addTx tx).tx? i.txHash = some tx :=
      List.find?_cons_of_pos (by simpa using hspends.symm)
    rw [WalletView.spentValue_unknown hold]
    exact WalletView.spentValue_eq_zero hnew fun o ho howned =>
      h t ht i hi hspends o ho howned name hname
  · refine WalletView.spentValue_congr rfl ?_
    exact List.find?_cons_of_neg (by simpa using Ne.symm hspends)

/-- A transaction of which none of the others spends an amount is deleted: what they move stays. -/
theorem moved_delete (hname : isAssetNameAnOwner name = false)
    (h : ∀ tx, s.wallet.tx? txHash = some tx → s.Unspent tx)
    (ht : t ∈ s.wallet.transactions) :
    (s.deleteTx txHash).moved name t = s.wallet.moved name t := by
  refine WalletView.moved_congr (fun o _ => WalletView.ownValue_congr rfl) ?_
  intro i hi
  by_cases hspends : i.txHash = txHash
  · have hnew : (s.deleteTx txHash).tx? i.txHash = none := by
      refine List.find?_eq_none.2 fun t ht => ?_
      rw [hspends, decide_eq_true_eq]
      exact of_decide_eq_true (List.mem_filter.1 ht).2
    rw [WalletView.spentValue_unknown hnew]
    cases htx : s.wallet.tx? txHash with
    | none => exact (WalletView.spentValue_unknown (hspends ▸ htx)).symm
    | some tx =>
      have hhash : tx.txHash = txHash := of_decide_eq_true
        (List.find?_some (p := fun t : BRTransaction => decide (t.txHash = txHash)) htx)
      exact (WalletView.spentValue_eq_zero (hspends ▸ htx) fun o ho howned =>
        h tx htx t ht i hi (hspends.trans hhash.symm) o ho howned name hname).symm
  · refine WalletView.spentValue_congr rfl ?_
    rw [WalletView.tx?, WalletView.tx?, deleteTx, List.find?_filter]
    congr 1
    funext t
    by_cases ht : t.txHash = i.txHash
    · simp [ht, hspends]
    · simp [ht]

section
variable {txHashes : List UInt256} {blockHeight timestamp : UInt32}

/-- The transaction as it is after an update. -/
def updated (txHashes : List UInt256) (blockHeight timestamp : UInt32) (t : BRTransaction) :
    BRTransaction :=
  if t.txHash ∈ txHashes then t.setBlock blockHeight timestamp else t

theorem updated_txHash : (updated txHashes blockHeight timestamp t).txHash = t.txHash := by
  rw [updated]
  split_ifs <;> rfl

theorem updated_inputs : (updated txHashes blockHeight timestamp t).inputs = t.inputs := by
  rw [updated]
  split_ifs <;> rfl

theorem updated_outputs : (updated txHashes blockHeight timestamp t).outputs = t.outputs := by
  rw [updated]
  split_ifs <;> rfl

theorem updated_isIssue : (updated txHashes blockHeight timestamp t).isIssue = t.isIssue := by
  rw [updated]
  split_ifs <;> rfl

/-- Heights and times change nothing that a transaction moves. -/
theorem moved_update : (s.updateTxs txHashes blockHeight timestamp).moved name
    (updated txHashes blockHeight timestamp t) = s.wallet.moved name t := by
  have hspent : ∀ i, (s.updateTxs txHashes blockHeight timestamp).spent? i = s.wallet.spent? i := by
    intro i
    have hfind : (s.updateTxs txHashes blockHeight timestamp).tx? i.txHash =
        (s.wallet.tx? i.txHash).map (updated txHashes blockHeight timestamp) := by
      rw [WalletView.tx?, WalletView.tx?, updateTxs, setBlocks]
      refine (List.find?_map ..).trans ?_
      congr 2
      funext t
      have hhash : (updated txHashes blockHeight timestamp t).txHash = t.txHash := updated_txHash
      exact decide_eq_decide.2 (iff_of_eq (congrArg (fun h => h = i.txHash) hhash))
    rw [WalletView.spent?, WalletView.spent?, hfind]
    cases s.wallet.tx? i.txHash with
    | none => rfl
    | some t =>
      rw [Option.map_some, Option.bind_some, Option.bind_some, updated_outputs]
      rfl
  rw [WalletView.moved, WalletView.moved, updated_inputs, updated_outputs]
  congr 2
  refine List.map_congr_left fun i _ => ?_
  rw [WalletView.spentValue, WalletView.spentValue, hspent]

end

/-- New addresses do not change what a transaction moves, if they get nothing of the asset. -/
theorem moved_generate {addrs : Finset BRAddress}
    (h : ∀ t ∈ s.wallet.transactions, ∀ o ∈ t.outputs, o.address ∈ addrs →
      o.address ∉ s.wallet.allAddrs → assetValue name o.script = 0)
    (ht : t ∈ s.wallet.transactions) :
    ({ s.wallet with allAddrs := s.wallet.allAddrs ∪ addrs } : WalletView).moved name t =
      s.wallet.moved name t := by
  refine WalletView.moved_congr ?_ ?_
  · intro o ho
    rw [WalletView.ownValue, WalletView.ownValue]
    by_cases hold : o.address ∈ s.wallet.allAddrs
    · rw [if_pos hold, if_pos (Finset.mem_union_left _ hold)]
    · rw [if_neg hold]
      split_ifs with hnew
      · have hzero := h t ht o ho ((Finset.mem_union.1 hnew).resolve_left hold) hold
        exact congrArg Nat.cast hzero
      · rfl
  · intro i _
    rw [WalletView.spentValue, WalletView.spentValue, WalletView.spent?, WalletView.spent?]
    have hsame :
        ({ s.wallet with allAddrs := s.wallet.allAddrs ∪ addrs } : WalletView).tx? i.txHash =
        s.wallet.tx? i.txHash := rfl
    rw [hsame]
    cases htx : s.wallet.tx? i.txHash with
    | none => rfl
    | some t' =>
      rw [Option.bind_some, Option.bind_some]
      cases hout : t'.outputs[i.index.toNat]? with
      | none => rfl
      | some o =>
        rw [Option.bind_some, Option.bind_some]
        by_cases hold : o.address ∈ s.wallet.allAddrs
        · rw [if_pos hold, if_pos (Finset.mem_union_left _ hold)]
        · rw [if_neg hold]
          split_ifs with hnew
          · have hzero := h t' (List.mem_of_find?_eq_some htx) o (List.mem_of_getElem? hout)
              ((Finset.mem_union.1 hnew).resolve_left hold) hold
            exact congrArg Nat.cast hzero
          · rfl

/-! ## Parts of an issue -/

/-- What a part of an issue is for an asset; owners have no amount. -/
def partValue (name : Bytes) (a : BRAsset) : ℤ :=
  if a.isOwner ∨ a.nameString ≠ name then 0 else a.amount.toNat

theorem filterMap_of_mapM {α β : Type} {f : α → Option β} {l : List α} {l' : List β}
    (h : l.mapM f = some l') : l.filterMap f = l' := by
  induction l generalizing l' with
  | nil => exact Option.some.inj h
  | cons x l ih =>
    simp only [List.mapM_cons, Option.bind_eq_bind, Option.bind_eq_some_iff, Option.pure_def,
      Option.some.injEq] at h
    obtain ⟨y, hy, ys, hys, rfl⟩ := h
    rw [List.filterMap_cons_some hy, ih hys]

/-- What an output with a part has for an asset, and any other output of an issue. -/
theorem ownValue_part {w : WalletView} {o : BRTxOutput} (h : w.OnlyParts tx) (ho : o ∈ tx.outputs)
    (hname : isAssetNameAnOwner name = false) : w.ownValue name o =
      if o ∈ w.issueOutputs tx then
        ((getAssetData (o.script.getD []) {}).map Prod.fst).elim 0 (partValue name) else 0 := by
  by_cases hpart : o ∈ w.issueOutputs tx
  · obtain ⟨a, ha⟩ := h.read o hpart
    obtain ⟨-, hissue⟩ := List.mem_filter.1 hpart
    rw [Bool.and_eq_true, decide_eq_true_eq] at hissue
    rw [if_pos hpart, ha, Option.map_some, Option.elim_some, WalletView.ownValue, if_pos hissue.2,
      assetValue, ha, partValue]
    by_cases heq : a.nameString = name
    · have howner : a.isOwner = false := by rw [BRAsset.isOwner, heq, hname]
      simp [heq, howner]
    · simp [heq]
  · rw [if_neg hpart]
    by_cases htransfer : isScriptTransferAsset (o.script.getD []) = true
    · exact h.transferred o ho htransfer name hname
    · rw [WalletView.ownValue]
      split_ifs with howned
      · -- no script of an asset
        have hplain : isScriptAsset (o.script.getD []) = false := by
          refine eq_false_of_ne_true fun hscript => hpart (List.mem_filter.2 ⟨ho, ?_⟩)
          simp [hscript, htransfer, howned]
        rw [isScriptAsset] at hplain
        simp only [Bool.or_eq_false_iff] at hplain
        obtain ⟨⟨⟨htransfer, hreissue⟩, howner⟩, hnew⟩ := hplain
        rw [assetValue, getAssetData, hnew, htransfer, howner, hreissue]
        rfl
      · rfl

/-- An issue moves its parts. -/
theorem moved_parts {w : WalletView} (h : w.OnlyParts tx)
    (hname : isAssetNameAnOwner name = false) :
    w.moved name tx = ((w.parts tx).map (partValue name)).sum := by
  have hspent : (tx.inputs.map (w.spentValue name)).sum = 0 :=
    List.sum_eq_zero fun v hv => by
      obtain ⟨i, hi, rfl⟩ := List.mem_map.1 hv
      exact h.spent i hi name hname
  have hsum : ∀ (os : List BRTxOutput) (p : BRTxOutput → Bool),
      (os.map fun o => if p o = true then
        ((getAssetData (o.script.getD []) {}).map Prod.fst).elim 0 (partValue name) else 0).sum =
      (((os.filter p).filterMap fun o => (getAssetData (o.script.getD []) {}).map Prod.fst).map
        (partValue name)).sum := by
    intro os p
    induction os with
    | nil => rfl
    | cons o os ih =>
      rw [List.map_cons, List.sum_cons, ih, List.filter_cons]
      cases p o with
      | false => simp
      | true =>
        cases hread : (getAssetData (o.script.getD []) {}).map Prod.fst with
        | none => simp [hread]
        | some a => simp [hread]
  rw [WalletView.moved, hspent, sub_zero, WalletView.parts, WalletView.issueOutputs, ← hsum]
  refine congrArg _ (List.map_congr_left fun o ho => ?_)
  rw [ownValue_part h ho hname]
  refine if_congr ?_ rfl rfl
  rw [WalletView.issueOutputs, List.mem_filter]
  exact and_iff_right ho

/-- The assets that are made of an issue are those of its parts, unless none is counted. -/
theorem decompose_parts {w : WalletView} {valid : Bool} {parts : List BRAsset}
    (h : w.decompose valid tx = some parts) :
    parts = w.parts tx ∨ parts = [] ∧ w.assetsReceivedFromTx tx = 0 := by
  unfold WalletView.decompose at h
  dsimp only at h
  generalize (if (decide (w.amountSentByTx tx > 0) && valid) = true then 1 else 0) = burn at h
  by_cases hcount : burn + w.assetsReceivedFromTx tx = 0
  · rw [if_pos hcount] at h
    exact Or.inr ⟨(Option.some.inj h).symm, by omega⟩
  · rw [if_neg hcount] at h
    simp only [Option.bind_eq_bind, Option.bind_eq_some_iff] at h
    obtain ⟨-, -, -, -, h⟩ := h
    exact Or.inl (filterMap_of_mapM h).symm

/-- An issue that moves its parts only is decomposed into them. -/
theorem parts_of_decompose {w : WalletView} {valid : Bool} {parts : List BRAsset}
    (h : w.OnlyParts tx) (hparts : w.decompose valid tx = some parts) : parts = w.parts tx := by
  obtain rfl | ⟨rfl, hnone⟩ := decompose_parts hparts
  · rfl
  · have hempty : w.issueOutputs tx = [] := by
      refine List.eq_nil_iff_forall_not_mem.2 fun o ho => ?_
      obtain ⟨hmem, hissue⟩ := List.mem_filter.1 ho
      rw [Bool.and_eq_true, Bool.and_eq_true] at hissue
      refine List.countP_eq_zero.1 hnone o hmem ?_
      rw [h.amount o ho, hissue.1.2, hissue.2]
      rfl
    rw [WalletView.parts, hempty]
    rfl

/-- A part can be written while `amount` is stored of its asset: a reissue once, and a creation as
    long as what is stored is what it has written. -/
def PartFits (counted : Bool) (a : BRAsset) (amount : ℤ) : Prop :=
  a.type = .REISSUE ∧ (counted = true → a.amount.toNat = 0) ∧ 0 ≤ amount ∧
      amount + a.amount.toNat < 2 ^ 63 ∨
    a.type = .NEW_ASSET ∧ amount = (if counted then a.amount.toNat else 0) ∧
      (a.amount.toNat : ℤ) < 2 ^ 63

/-- The parts of an issue, which has been written before if it is counted, can be written; each
    asset is in one part. -/
structure Fits (counted : Bool) (parts : List BRAsset) (table : List AssetRow) : Prop where
  distinct : parts.Pairwise fun a b =>
    a.isOwner = false → b.isOwner = false → a.nameString ≠ b.nameString
  parts : ∀ a ∈ parts, a.isOwner = false → PartFits counted a (stored table a.nameString)

theorem partValue_of_owner {a : BRAsset} (h : a.isOwner = true) : partValue name a = 0 :=
  if_pos (Or.inl h)

theorem partValue_of_ne {a : BRAsset} (h : a.nameString ≠ name) : partValue name a = 0 :=
  if_pos (Or.inr h)

theorem PartFits.room {counted : Bool} {a : BRAsset} {table : List AssetRow}
    (howner : a.isOwner = false) (h : PartFits counted a (stored table a.nameString)) :
    Room a table := by
  rw [Room, AssetTable.assetName_of_not howner]
  cases hrow : isAssetExiste table a.nameString with
  | none =>
    rw [AssetTable.stored_of_none hrow, PartFits, zero_add] at h
    rcases h with ⟨-, -, -, hroom⟩ | ⟨-, -, hroom⟩
    · exact hroom
    · exact hroom
  | some row =>
    rw [AssetTable.stored_of_some hrow] at h
    rcases h with ⟨htype, -, hnonneg, hroom⟩ | ⟨htype, -, hroom⟩
    · rw [htype]
      exact ⟨hnonneg, hroom⟩
    · rw [htype]
      exact hroom

/-- What is written for a part that fits is its value, the first time. -/
theorem credit_part {counted : Bool} {a : BRAsset} {table : List AssetRow}
    (h : a.isOwner = false → PartFits counted a (stored table a.nameString))
    (name : Bytes) : credit true a table name = if counted then 0 else partValue name a := by
  cases howner : a.isOwner with
  | true =>
    rw [AssetTable.credit_of_owner howner, partValue_of_owner howner]
    split_ifs <;> rfl
  | false =>
    by_cases hname : a.nameString = name
    · subst hname
      have hfits := h howner
      have hvalue : partValue a.nameString a = a.amount.toNat := by
        rw [partValue, howner, if_neg (by simp)]
      rw [hvalue]
      cases hrow : isAssetExiste table a.nameString with
      | none =>
        rw [AssetTable.credit_insert howner hrow]
        rw [AssetTable.stored_of_none hrow] at hfits
        rcases hfits with ⟨-, honce, -⟩ | ⟨-, hzero, -⟩
        · cases counted with
          | true => exact congrArg Nat.cast (honce rfl)
          | false => rfl
        · cases counted with
          | true => exact hzero.symm
          | false => rfl
      | some row =>
        rw [AssetTable.credit_update _ howner hrow]
        rw [AssetTable.stored_of_some hrow] at hfits
        rcases hfits with ⟨htype, honce, -⟩ | ⟨htype, hamount, -⟩
        · rw [htype]
          cases counted with
          | true => exact congrArg Nat.cast (honce rfl)
          | false => rfl
        · rw [htype, hamount]
          cases counted with
          | true => exact sub_self _
          | false => exact sub_zero _
    · rw [AssetTable.credit_of_ne fun h => hname h.symm, partValue_of_ne hname]
      split_ifs <;> rfl

/-- The parts are written one after another. -/
theorem addParts_stored {counted : Bool} {parts : List BRAsset} {table table' : List AssetRow}
    (h : addParts parts table = some table') (hfit : Fits counted parts table) (name : Bytes) :
    stored table' name =
      stored table name + if counted then 0 else (parts.map (partValue name)).sum := by
  induction parts generalizing table with
  | nil =>
    cases h
    simp
  | cons a parts ih =>
    rw [addParts, List.foldlM_cons, Option.bind_eq_bind, Option.bind_eq_some_iff] at h
    obtain ⟨table₁, hadd, hrest⟩ := h
    have hfirst : ∀ n, stored table₁ n =
        stored table n + if counted then 0 else partValue n a := by
      intro n
      have hpart := hfit.parts a List.mem_cons_self
      rw [AssetTable.assetAdded_stored hadd fun howner => (hpart howner).room howner,
        credit_part hpart]
    obtain ⟨hhead, htail⟩ := List.pairwise_cons.1 hfit.distinct
    have hfit₁ : Fits counted parts table₁ := by
      refine ⟨htail, fun b hb hbowner => ?_⟩
      have hsame : partValue b.nameString a = 0 := by
        cases howner : a.isOwner with
        | true => exact partValue_of_owner howner
        | false => exact partValue_of_ne (hhead b hb howner hbowner)
      rw [hfirst, hsame, ite_self, add_zero]
      exact hfit.parts b (List.mem_cons_of_mem a hb) hbowner
    rw [ih hrest hfit₁, hfirst, List.map_cons, List.sum_cons, add_assoc]
    cases counted with
    | true => rfl
    | false => rfl

/-! ## Runs -/

/-- A transaction that is no issue moves the amount of its first asset and nothing else: into the
    wallet if it spends nothing of the wallet, and else out of it.  An asset in the table is moved
    by a transfer, and only such an asset is sent. -/
structure Plain (s : AssetState) (w : WalletView) (tx : BRTransaction) : Prop where
  moved : ∀ name, isAssetNameAnOwner name = false → w.moved name tx =
    tx.validAsset.elim 0 fun a => if w.received tx then partValue name a else -partValue name a
  room : ∀ a, tx.validAsset = some a → a.isOwner = false → Room a s.table
  transfer : ∀ a, tx.validAsset = some a → a.isOwner = false →
    (isAssetExiste s.table a.nameString).isSome → a.type = .TRANSFER
  listed : ∀ a, tx.validAsset = some a → a.isOwner = false → w.received tx = false →
    (isAssetExiste s.table a.nameString).isSome

/-- The deletion of a transaction is noticed: the first asset is transferred, and in the table. -/
def refunded (table : List AssetRow) (a : BRAsset) : Bool :=
  a.type = .TRANSFER && (isAssetExiste table a.assetName).isSome

/-- A deletion that is noticed is of a transfer of the amount of its first asset out of the wallet;
    any other is of a transaction that moves nothing. -/
structure Undone (s : AssetState) (tx : BRTransaction) : Prop where
  moved : ∀ name, isAssetNameAnOwner name = false → s.wallet.moved name tx =
    tx.validAsset.elim 0 fun a => if refunded s.table a then -partValue name a else 0
  inRange : ∀ a, tx.validAsset = some a → refunded s.table a → InRange a s.table
  isOwner : ∀ a, tx.validAsset = some a → refunded s.table a → a.isOwner = false

/-- What the database does for an event is what is moved. -/
def assetGuard (s : AssetState) : AssetEvent → Prop
  | .added tx =>
    (∀ t ∈ s.wallet.transactions, t.txHash ≠ tx.txHash) ∧ s.Unspent tx ∧
      (tx.isIssue = false → s.Plain (s.addTx tx) tx)
  | .updated .. => True
  | .assetAdded txHash isValid lastBlockHeight =>
    ∀ tx, s.wallet.tx? txHash = some tx → tx.isIssue = true →
      transactionStatus isValid tx.blockHeight lastBlockHeight ≠ .pending →
      transactionStatus isValid tx.blockHeight lastBlockHeight ≠ .invalid →
      Fits (decide (txHash ∈ s.issued)) (s.wallet.parts tx) s.table ∧
        (txHash ∉ s.issued → s.wallet.OnlyParts tx)
  | .deleted txHash =>
    ∀ tx, s.wallet.tx? txHash = some tx → s.Unspent tx ∧ (s.counts tx = true → s.Undone tx)
  | .assetData _ => True
  | .generated addrs =>
    ∀ t ∈ s.wallet.transactions, ∀ o ∈ t.outputs, o.address ∈ addrs →
      o.address ∉ s.wallet.allAddrs → ∀ name, isAssetNameAnOwner name = false →
        assetValue name o.script = 0

def assetSystem : System AssetState AssetEvent where
  init s := s.wallet.transactions = [] ∧ s.table = [] ∧ s.issued = ∅
  step s event s' := s.apply event = some s'

/-- The table has what the transactions that count move. -/
structure Balanced (s : AssetState) : Prop where
  hashes : (s.wallet.transactions.map BRTransaction.txHash).Nodup
  issued : ∀ h ∈ s.issued, ∃ t ∈ s.wallet.transactions, t.txHash = h
  stored : ∀ name, isAssetNameAnOwner name = false → stored s.table name = s.balance name

/-- What is written for a plain transaction is what it moves. -/
theorem Plain.credit {w : WalletView} {a : BRAsset} (h : s.Plain w tx)
    (hasset : tx.validAsset = some a) (name : Bytes) :
    credit (w.received tx) a s.table name =
      if w.received tx then partValue name a else -partValue name a := by
  cases howner : a.isOwner with
  | true =>
    rw [AssetTable.credit_of_owner howner, partValue_of_owner howner]
    split_ifs
    · rfl
    · exact neg_zero.symm
  | false =>
    by_cases hname : a.nameString = name
    · subst hname
      have hvalue : partValue a.nameString a = a.amount.toNat := by
        rw [partValue, howner, if_neg (by simp)]
      cases hrow : isAssetExiste s.table a.nameString with
      | none =>
        have hreceived : w.received tx = true := by
          by_contra hnot
          have hlisted := h.listed a hasset howner (Bool.not_eq_true _ ▸ hnot)
          rw [hrow] at hlisted
          cases hlisted
        rw [AssetTable.credit_insert howner hrow, hreceived, if_pos rfl, hvalue]
      | some row =>
        rw [AssetTable.credit_update _ howner hrow, h.transfer a hasset howner (by rw [hrow]; rfl),
          hvalue]
    · rw [AssetTable.credit_of_ne fun h => hname h.symm, partValue_of_ne hname]
      split_ifs
      · rfl
      · exact neg_zero.symm

/-- The stored amounts after a deletion. -/
theorem stored_undone {a : BRAsset} {table table' : List AssetRow}
    (h : (if a.type = .TRANSFER then AssetTable.rejectAssetTx a table else some table) =
      some table')
    (hrange : refunded table a → InRange a table) (howner : refunded table a → a.isOwner = false) :
    stored table' name = stored table name - if refunded table a then -partValue name a else 0 := by
  cases hrefunded : refunded table a with
  | true =>
    have hrefunded' := hrefunded
    rw [refunded, Bool.and_eq_true, decide_eq_true_eq] at hrefunded'
    obtain ⟨htype, hrow⟩ := hrefunded'
    have hname := AssetTable.assetName_of_not (howner hrefunded)
    rw [if_pos htype] at h
    rw [AssetTable.rejectAssetTx_stored h (hrange hrefunded), if_pos rfl, sub_neg_eq_add, refund,
      partValue, howner hrefunded, hname]
    rw [hname] at hrow
    by_cases hn : a.nameString = name
    · subst hn
      simp [hrow]
    · simp [hn]
  | false =>
    rw [if_neg Bool.false_ne_true, sub_zero]
    split_ifs at h with htype
    · have hnone : isAssetExiste table a.assetName = none := by
        simpa [refunded, htype] using hrefunded
      simp only [AssetTable.rejectAssetTx, guard, hnone, Option.bind_eq_bind,
        Option.bind_eq_some_iff, Option.some.injEq] at h
      obtain ⟨-, -, rfl⟩ := h
      rfl
    · cases h
      rfl

theorem Balanced.not_issued (h : s.Balanced)
    (hfresh : ∀ t ∈ s.wallet.transactions, t.txHash ≠ txHash) : txHash ∉ s.issued := by
  intro hissued
  obtain ⟨t, ht, hhash⟩ := h.issued txHash hissued
  exact hfresh t ht hhash

/-- The balance with a transaction that is added. -/
theorem balance_add (hname : isAssetNameAnOwner name = false)
    (hfresh : ∀ t ∈ s.wallet.transactions, t.txHash ≠ tx.txHash) (hunspent : s.Unspent tx)
    (table : List AssetRow) :
    balance { s with wallet := s.addTx tx, table } name =
      (if s.counts tx then (s.addTx tx).moved name tx else 0) + s.balance name := by
  rw [balance, balance]
  refine (List.sum_cons ..).trans (congrArg _ ?_)
  refine congrArg _ (List.map_congr_left fun t ht => ?_)
  rw [moved_add hname hfresh hunspent ht]
  rfl

/-- A transaction is added. -/
theorem Balanced.added (hb : s.Balanced) (hg : assetGuard s (.added tx))
    (h : s.txAdded tx = some s') : s'.Balanced := by
  obtain ⟨hfresh, hunspent, hplain⟩ := hg
  have hnot := hb.not_issued hfresh
  have hnodup : ((s.addTx tx).transactions.map BRTransaction.txHash).Nodup := by
    refine List.nodup_cons.2 ⟨?_, hb.hashes⟩
    intro hmem
    obtain ⟨t, ht, hhash⟩ := List.mem_map.1 hmem
    exact hfresh t ht hhash
  have hissued : ∀ h ∈ s.issued, ∃ t ∈ (s.addTx tx).transactions, t.txHash = h := by
    intro h hh
    obtain ⟨t, ht, hhash⟩ := hb.issued h hh
    exact ⟨t, List.mem_cons_of_mem tx ht, hhash⟩
  rw [txAdded] at h
  cases hissue : tx.isIssue with
  | true =>
    have hs' : { s with wallet := s.addTx tx } = s' := by
      cases hasset : tx.validAsset with
      | none => simpa [hasset] using h
      | some a => simpa [hasset, hissue] using h
    subst hs'
    refine ⟨hnodup, hissued, ?_⟩
    intro name hname
    have hcounts : s.counts tx = false := by simp [counts, hissue, hnot]
    have hbal := balance_add hname hfresh hunspent s.table
    rw [hcounts, if_neg Bool.false_ne_true, zero_add] at hbal
    exact (hb.stored name hname).trans hbal.symm
  | false =>
    have hplain := hplain hissue
    have hcounts : s.counts tx = true := by simp [counts, hissue]
    have hbal : ∀ table name, isAssetNameAnOwner name = false →
        balance { s with wallet := s.addTx tx, table } name =
          (s.addTx tx).moved name tx + s.balance name := by
      intro table name hname
      rw [balance_add hname hfresh hunspent table, hcounts, if_pos rfl]
    cases hasset : tx.validAsset with
    | none =>
      simp only [hasset, Option.some.injEq] at h
      subst h
      refine ⟨hnodup, hissued, ?_⟩
      intro name hname
      have hzero := hplain.moved name hname
      rw [hasset] at hzero
      refine (hb.stored name hname).trans ?_
      exact ((hbal s.table name hname).trans (by rw [hzero]; exact zero_add _)).symm
    | some a =>
      simp only [hasset, hissue, Bool.false_eq_true, if_false, Option.bind_eq_bind,
        Option.bind_eq_some_iff, Option.some.injEq] at h
      obtain ⟨table, hadd, rfl⟩ := h
      refine ⟨hnodup, hissued, ?_⟩
      intro name hname
      have hcredit := hplain.moved name hname
      rw [hasset, Option.elim_some] at hcredit
      rw [hbal table name hname, hcredit, ← hb.stored name hname, add_comm,
        ← hplain.credit hasset]
      exact AssetTable.assetAdded_stored hadd (hplain.room a hasset) name

/-- Heights change. -/
theorem Balanced.updated (hb : s.Balanced) (txHashes : List UInt256)
    (blockHeight timestamp : UInt32) :
    Balanced { s with wallet := s.updateTxs txHashes blockHeight timestamp } := by
  refine ⟨?_, ?_, ?_⟩
  · have hsame := map_txHash_setBlocks s.wallet.transactions txHashes blockHeight timestamp
    exact (congrArg List.Nodup hsame).mpr hb.hashes
  · intro h hh
    obtain ⟨t, ht, hhash⟩ := hb.issued h hh
    exact ⟨_, List.mem_map_of_mem ht, updated_txHash.trans hhash⟩
  · intro name hname
    rw [hb.stored name hname, balance, balance]
    refine congrArg _ ?_
    refine Eq.trans ?_ (List.map_map ..).symm
    refine List.map_congr_left fun t _ => ?_
    have hcounts : s.counts (AssetState.updated txHashes blockHeight timestamp t) = s.counts t := by
      rw [counts, counts, updated_isIssue, updated_txHash]
    rw [Function.comp_apply]
    refine (if_congr (iff_of_eq (congrArg (· = true) hcounts)) moved_update rfl).symm

theorem Balanced.tx_eq (hb : s.Balanced) (ht : t ∈ s.wallet.transactions)
    (htx : s.wallet.tx? t.txHash = some tx) : t = tx :=
  Option.some.inj ((find?_key hb.hashes ht rfl).symm.trans htx)

/-- An issue is written: its parts count from then on, once. -/
theorem Balanced.write {isValid : Bool} {parts : List BRAsset} {table : List AssetRow}
    (hb : s.Balanced) (htx : s.wallet.tx? txHash = some tx) (hissue : tx.isIssue = true)
    (hfits : Fits (decide (txHash ∈ s.issued)) (s.wallet.parts tx) s.table)
    (honly : txHash ∉ s.issued → s.wallet.OnlyParts tx)
    (hparts : s.wallet.decompose isValid tx = some parts)
    (hadd : addParts parts s.table = some table) :
    Balanced { s with table, issued := insert txHash s.issued } := by
  have hhash : tx.txHash = txHash := of_decide_eq_true
    (List.find?_some (p := fun t : BRTransaction => decide (t.txHash = txHash)) htx)
  refine ⟨hb.hashes, ?_, ?_⟩
  · intro h' hh'
    rcases Finset.mem_insert.1 hh' with rfl | hh'
    · exact ⟨tx, List.mem_of_find?_eq_some htx, hhash⟩
    · exact hb.issued h' hh'
  · intro name hname
    by_cases hcounted : txHash ∈ s.issued
    · -- written before
      rw [decide_eq_true hcounted] at hfits
      have hstored : AssetTable.stored table name = AssetTable.stored s.table name := by
        obtain rfl | ⟨rfl, -⟩ := decompose_parts hparts
        · rw [addParts_stored hadd hfits, if_pos rfl, add_zero]
        · cases hadd
          rfl
      rw [hstored, hb.stored name hname, balance, balance, Finset.insert_eq_of_mem hcounted]
      rfl
    obtain rfl := parts_of_decompose (honly hcounted) hparts
    rw [decide_eq_false hcounted] at hfits
    -- only the issue itself begins to count
    have hadds : balance { s with table, issued := insert txHash s.issued } name =
        s.balance name + (s.wallet.transactions.map fun t =>
          if t.txHash = txHash then s.wallet.moved name t else 0).sum := by
      rw [balance, balance, ← List.sum_map_add]
      refine congrArg _ (List.map_congr_left fun t ht => ?_)
      by_cases hthash : t.txHash = txHash
      · obtain rfl := hb.tx_eq ht (hthash.symm ▸ htx)
        simp [counts, hissue, hthash, hcounted]
      · simp [counts, hthash]
    rw [hadds, sum_at_key hb.hashes, show List.find? _ _ = some tx from htx, Option.elim_some,
      moved_parts (honly hcounted) hname, ← hb.stored name hname]
    exact addParts_stored hadd hfits name

/-- The work for a transaction that was updated. -/
theorem Balanced.assetAdded {isValid : Bool} {lastBlockHeight : UInt32} (hb : s.Balanced)
    (hg : assetGuard s (.assetAdded txHash isValid lastBlockHeight))
    (h : s.assetAdded txHash isValid lastBlockHeight = some s') : s'.Balanced := by
  simp only [AssetState.assetAdded, Option.bind_eq_bind, Option.bind_eq_some_iff] at h
  obtain ⟨tx, htx, h⟩ := h
  cases hissue : tx.isIssue with
  | false =>
    simp only [hissue, Bool.false_eq_true, if_false, Option.some.injEq] at h
    rw [← h]
    exact hb
  | true =>
    simp only [hissue, if_true] at h
    have hwrite : transactionStatus isValid tx.blockHeight lastBlockHeight ≠ .pending →
        transactionStatus isValid tx.blockHeight lastBlockHeight ≠ .invalid →
        (∃ parts, s.wallet.decompose isValid tx = some parts ∧
          ∃ table, addParts parts s.table = some table ∧
            { s with table, issued := insert txHash s.issued } = s') → s'.Balanced := by
      rintro hpending hinvalid ⟨parts, hparts, table, hadd, rfl⟩
      obtain ⟨hfits, honly⟩ := hg tx htx hissue hpending hinvalid
      exact hb.write htx hissue hfits honly hparts hadd
    cases hstatus : transactionStatus isValid tx.blockHeight lastBlockHeight with
    | pending =>
      rw [hstatus] at h
      cases h
      exact hb
    | invalid =>
      rw [hstatus] at h
      cases h
      exact hb
    | confirmed =>
      rw [hstatus] at h hwrite
      simp only [Option.bind_eq_some_iff, Option.some.injEq] at h
      exact hwrite (by decide) (by decide) h
    | complete =>
      rw [hstatus] at h hwrite
      simp only [Option.bind_eq_some_iff, Option.some.injEq] at h
      exact hwrite (by decide) (by decide) h

/-- What is written when a transaction is deleted. -/
theorem txDeleted_table (hb : s.Balanced) (h : s.txDeleted txHash = some s') :
    s'.wallet = s.deleteTx txHash ∧ s'.issued = s.issued.erase txHash ∧
      (s.wallet.tx? txHash = none ∧ s'.table = s.table ∨
        ∃ tx, s.wallet.tx? txHash = some tx ∧
          (match tx.validAsset with
            | some a =>
              if a.type = .TRANSFER then AssetTable.rejectAssetTx a s.table else some s.table
            | none => some s.table) = some s'.table) := by
  simp only [txDeleted, Option.bind_eq_bind, Option.bind_eq_some_iff, Option.some.injEq] at h
  obtain ⟨table, htable, rfl⟩ := h
  refine ⟨rfl, rfl, ?_⟩
  rw [filter_key hb.hashes] at htable
  cases htx : s.wallet.tx? txHash with
  | none =>
    rw [show List.find? _ _ = none from htx] at htable
    cases htable
    exact Or.inl ⟨rfl, rfl⟩
  | some tx =>
    rw [show List.find? _ _ = some tx from htx, Option.toList_some, List.foldlM_cons] at htable
    refine Or.inr ⟨tx, rfl, ?_⟩
    simpa using htable

/-- A transaction is deleted. -/
theorem Balanced.deleted (hb : s.Balanced) (hg : assetGuard s (.deleted txHash))
    (h : s.txDeleted txHash = some s') : s'.Balanced := by
  obtain ⟨hwallet, hissued, htable⟩ := txDeleted_table hb h
  obtain ⟨wallet, table, issued⟩ := s'
  simp only at hwallet hissued htable
  subst hwallet hissued
  have hbal : ∀ name, isAssetNameAnOwner name = false →
      balance ⟨s.deleteTx txHash, table, s.issued.erase txHash⟩ name =
        s.balance name - (s.wallet.tx? txHash).elim 0 fun t =>
          if s.counts t then s.wallet.moved name t else 0 := by
    intro name hname
    rw [WalletView.tx?, ← sum_at_key hb.hashes, balance, balance, ← sum_without_key]
    refine congrArg _ (List.map_congr_left fun t ht => ?_)
    obtain ⟨hmem, hne⟩ := List.mem_filter.1 ht
    have hne := of_decide_eq_true hne
    have hcounts : counts ⟨s.deleteTx txHash, table, s.issued.erase txHash⟩ t = s.counts t := by
      simp [counts, hne]
    rw [hcounts]
    exact if_congr Iff.rfl (moved_delete hname (fun tx htx => (hg tx htx).1) hmem) rfl
  refine ⟨hb.hashes.sublist (List.filter_sublist.map _), ?_, ?_⟩
  · intro h' hh'
    obtain ⟨hne, hh'⟩ := Finset.mem_erase.1 hh'
    obtain ⟨t, ht, rfl⟩ := hb.issued h' hh'
    exact ⟨t, List.mem_filter.2 ⟨ht, decide_eq_true hne⟩, rfl⟩
  · intro name hname
    rw [hbal name hname, ← hb.stored name hname]
    rcases htable with ⟨hnone, rfl⟩ | ⟨tx, htx, hwrite⟩
    · rw [hnone]
      exact (sub_zero _).symm
    · rw [htx, Option.elim_some]
      cases hcounts : s.counts tx with
      | false =>
        -- an issue that was not written
        have hissue : tx.isIssue = true := by
          by_contra hnot
          simp [counts, hnot] at hcounts
        obtain ⟨a, hasset, htype⟩ := (Option.any_eq_true _ _).1 hissue
        have hne : a.type ≠ .TRANSFER := by
          intro htransfer
          simp [htransfer] at htype
        rw [hasset] at hwrite
        dsimp only at hwrite
        rw [if_neg hne, Option.some.injEq] at hwrite
        rw [← hwrite, if_neg Bool.false_ne_true, sub_zero]
      | true =>
        have hundone := (hg tx htx).2 hcounts
        rw [if_pos rfl, hundone.moved name hname]
        cases hasset : tx.validAsset with
        | none =>
          rw [hasset] at hwrite
          cases hwrite
          exact (sub_zero _).symm
        | some a =>
          rw [hasset] at hwrite
          rw [Option.elim_some]
          exact stored_undone hwrite (hundone.inRange a hasset) (hundone.isOwner a hasset)

/-- New addresses. -/
theorem Balanced.generated {addrs : Finset BRAddress} (hb : s.Balanced)
    (hg : assetGuard s (.generated addrs)) :
    Balanced { s with wallet := { s.wallet with allAddrs := s.wallet.allAddrs ∪ addrs } } := by
  refine ⟨hb.hashes, hb.issued, ?_⟩
  intro name hname
  rw [hb.stored name hname, balance, balance]
  refine congrArg _ (List.map_congr_left fun t ht => ?_)
  have hmoved :
      ({ s.wallet with allAddrs := s.wallet.allAddrs ∪ addrs } : WalletView).moved name t =
        s.wallet.moved name t :=
    moved_generate (fun t ht o ho hnew hold => hg t ht o ho hnew hold name hname) ht
  exact if_congr Iff.rfl hmoved.symm rfl

/-- An event that meets the guard keeps the balance. -/
theorem Balanced.apply (hb : s.Balanced) {event : AssetEvent} (hg : assetGuard s event)
    (h : s.apply event = some s') : s'.Balanced := by
  cases event with
  | added tx => exact hb.added hg h
  | updated txHashes blockHeight timestamp =>
    cases h
    exact hb.updated txHashes blockHeight timestamp
  | assetAdded txHash isValid lastBlockHeight => exact hb.assetAdded hg h
  | deleted txHash => exact hb.deleted hg h
  | assetData a =>
    simp only [AssetState.apply, Option.bind_eq_bind, Option.bind_eq_some_iff,
      Option.some.injEq] at h
    obtain ⟨table, htable, rfl⟩ := h
    refine ⟨hb.hashes, hb.issued, ?_⟩
    intro name hname
    exact (AssetTable.updateAssetData_stored htable name).trans (hb.stored name hname)
  | generated addrs =>
    cases h
    exact hb.generated hg

theorem run_balanced (h : assetSystem.Run assetGuard s) : s.Balanced := by
  induction h with
  | init h0 =>
    obtain ⟨htxs, htable, hissued⟩ := h0
    refine ⟨by rw [htxs]; exact List.nodup_nil, ?_, ?_⟩
    · intro h hh
      rw [hissued] at hh
      exact absurd hh (Finset.notMem_empty h)
    · intro name _
      rw [htable, balance, htxs]
      rfl
  | step _ hg hst ih => exact ih.apply hg hst

/-- In a run whose events meet the guard, the stored amount of every asset that is no owner token
    is what the transactions that count move. -/
theorem run_stored (h : assetSystem.Run assetGuard s) (hname : isAssetNameAnOwner name = false) :
    stored s.table name = s.balance name := (run_balanced h).stored name hname

/-! ## A new asset -/

/-- A script that creates five units of the asset ABC. -/
def issueScript : Bytes :=
  [0x76, 0xa9, 0x14] ++ List.replicate 20 0 ++ [0x88, 0xac] ++
    [OP_RVN_ASSET, 0x13, RVN_R, RVN_V, RVN_N, RVN_Q] ++ [3, 0x41, 0x42, 0x43] ++
    [5, 0, 0, 0, 0, 0, 0, 0] ++ [0, 1, 0] ++ [OP_DROP]

def issuedAsset : BRAsset :=
  { type := .NEW_ASSET, name := [0x41, 0x42, 0x43], nameLen := 3, amount := 5, reissuable := 1 }

theorem getAssetData_issueScript : getAssetData issueScript {} = some (issuedAsset, true) := by
  decide

theorem assetValue_issueScript (name : Bytes) :
    (assetValue name (some issueScript) : ℤ) = partValue name issuedAsset := by
  have howner : issuedAsset.isOwner = false := by decide
  rw [assetValue, Option.getD_some, getAssetData_issueScript, partValue, howner]
  by_cases hname : issuedAsset.nameString = name
  · simp [hname]
  · simp [hname]

theorem assetValue_none (name : Bytes) : assetValue name none = 0 := rfl

/-- A transaction that creates the asset for the wallet, and pays it; its input is not of the
    wallet. -/
def issueTx : BRTransaction where
  txHash := 1
  inputs := [{ txHash := 9, index := 0 }]
  outputs := [{ address := [1], amount := 100 }, { address := [1], script := some issueScript }]
  asset := [issuedAsset]

/-- A wallet with one address and no transactions. -/
def emptyState : AssetState := ⟨⟨{[1]}, []⟩, [], ∅⟩

def addedState : AssetState := { emptyState with wallet := emptyState.addTx issueTx }

theorem moved_issueTx (w : WalletView) (haddrs : w.allAddrs = {[1]}) (htx : w.tx? 9 = none)
    (name : Bytes) : w.moved name issueTx = partValue name issuedAsset := by
  rw [WalletView.moved]
  simp only [issueTx, List.map_cons, List.map_nil, List.sum_cons, List.sum_nil,
    WalletView.ownValue, haddrs, Finset.mem_singleton, if_true, assetValue_none,
    assetValue_issueScript, WalletView.spentValue_unknown (i := { txHash := 9, index := 0 }) htx]
  simp

def confirmedState : AssetState := { addedState with wallet := addedState.updateTxs [1] 10 0 }

def writtenState : AssetState :=
  { confirmedState with table := [AssetTable.newRow issuedAsset], issued := {1} }

/-- The five units are sent to another address. -/
def transferTx : BRTransaction where
  txHash := 2
  inputs := [{ txHash := 1, index := 0 }, { txHash := 1, index := 1 }]
  outputs := [{ address := [2], amount := 90 }]
  asset := [{ issuedAsset with type := .TRANSFER }]

def sentState : AssetState where
  wallet := writtenState.addTx transferTx
  table := [{ AssetTable.newRow issuedAsset with amount := 0 }]
  issued := {1}

/-- The work for a confirmed issue, the first time or another one. -/
theorem assetGuard_issueTx {s : AssetState} (hw : s.wallet = confirmedState.wallet)
    (hfits : PartFits (decide (1 ∈ s.issued)) issuedAsset (stored s.table issuedAsset.nameString)) :
    assetGuard s (.assetAdded 1 true 12) := by
  intro tx htx _ _ _
  rw [hw] at htx ⊢
  obtain rfl : issueTx.setBlock 10 0 = tx := Option.some.inj htx
  have hparts : confirmedState.wallet.parts (issueTx.setBlock 10 0) = [issuedAsset] := rfl
  have houtputs : confirmedState.wallet.issueOutputs (issueTx.setBlock 10 0) =
      [{ address := [1], script := some issueScript }] := rfl
  rw [hparts]
  refine ⟨⟨List.pairwise_singleton .., ?_⟩, fun _ => ⟨?_, ?_, ?_, ?_⟩⟩
  · intro a ha _
    obtain rfl := List.mem_singleton.1 ha
    exact hfits
  · rw [houtputs]
    intro o ho
    obtain rfl := List.mem_singleton.1 ho
    exact ⟨issuedAsset, getAssetData_issueScript⟩
  · rw [houtputs]
    intro o ho
    obtain rfl := List.mem_singleton.1 ho
    rfl
  · intro o ho htransfer
    have hnone : ∀ o ∈ issueTx.outputs, isScriptTransferAsset (o.script.getD []) = false := by
      decide
    rw [hnone o ho] at htransfer
    cases htransfer
  · intro i hi name _
    obtain rfl := List.mem_singleton.1 hi
    exact WalletView.spentValue_unknown rfl

theorem moved_transferTx (name : Bytes) :
    sentState.wallet.moved name transferTx = -partValue name issuedAsset := by
  have hcoin : sentState.wallet.spent? { txHash := 1, index := 0 } =
      some { address := [1], amount := 100 } := rfl
  have hasset : sentState.wallet.spent? { txHash := 1, index := 1 } =
      some { address := [1], script := some issueScript } := rfl
  have hother : ([2] : BRAddress) ∉ sentState.wallet.allAddrs := by decide
  rw [WalletView.moved]
  simp only [transferTx, List.map_cons, List.map_nil, List.sum_cons, List.sum_nil,
    WalletView.ownValue, if_neg hother, WalletView.spentValue, hcoin, hasset, Option.elim_some,
    assetValue_none, assetValue_issueScript]
  simp

/-- No transaction spends one that nothing of the wallet refers to. -/
theorem unspent_transferTx (s : AssetState)
    (hw : ∀ t ∈ s.wallet.transactions, ∀ i ∈ t.inputs, i.txHash ≠ 2) : s.Unspent transferTx :=
  fun t ht i hi hspends => absurd hspends (hw t ht i hi)

/-- A new asset is confirmed twice, sent, and the transaction for it is deleted. -/
theorem run_stored_issue : ∃ s t : AssetState,
    [AssetEvent.added issueTx, .updated [1] 10 0, .assetAdded 1 true 12, .assetAdded 1 true 12,
      .added transferTx].foldlM apply emptyState = some s ∧ s.apply (.deleted 2) = some t ∧
    stored s.table [0x41, 0x42, 0x43] = 0 ∧ s.balance [0x41, 0x42, 0x43] = 0 ∧
    stored t.table [0x41, 0x42, 0x43] = 5 ∧ t.balance [0x41, 0x42, 0x43] = 5 := by
  have h₀ : assetSystem.Run assetGuard emptyState := .init ⟨rfl, rfl, rfl⟩
  have h₁ : assetSystem.Run assetGuard addedState := by
    have hguard : assetGuard emptyState (.added issueTx) := by
      refine ⟨?_, ?_, ?_⟩
      · intro t ht
        cases ht
      · intro t ht
        cases ht
      · intro hissue
        exact absurd hissue (by decide)
    exact .step h₀ hguard rfl
  have h₂ : assetSystem.Run assetGuard confirmedState := by
    have hguard : assetGuard addedState (.updated [1] 10 0) := trivial
    exact .step h₁ hguard rfl
  have h₃ : assetSystem.Run assetGuard writtenState :=
    .step h₂ (assetGuard_issueTx rfl (Or.inr ⟨rfl, rfl, by decide⟩)) rfl
  have h₄ : assetSystem.Run assetGuard writtenState :=
    .step h₃ (assetGuard_issueTx rfl (Or.inr ⟨rfl, rfl, by decide⟩)) rfl
  have h₅ : assetSystem.Run assetGuard sentState := by
    have hguard : assetGuard writtenState (.added transferTx) := by
      refine ⟨by decide, unspent_transferTx _ (by decide), fun _ => ⟨?_, ?_, ?_, ?_⟩⟩
      · intro name _
        exact moved_transferTx name
      · intro a ha _
        obtain rfl := Option.some.inj ha
        exact (by decide : (0 : ℤ) ≤ 5)
      · intro a ha _ _
        obtain rfl := Option.some.inj ha
        rfl
      · intro a ha _ _
        obtain rfl := Option.some.inj ha
        rfl
    exact .step h₄ hguard rfl
  have h₆ : assetSystem.Run assetGuard writtenState := by
    have hguard : assetGuard sentState (.deleted 2) := by
      intro tx htx
      obtain rfl : transferTx = tx := Option.some.inj htx
      refine ⟨unspent_transferTx _ (by decide), fun _ => ⟨?_, ?_, ?_⟩⟩
      · intro name _
        exact moved_transferTx name
      · intro a ha _
        obtain rfl := Option.some.inj ha
        exact ⟨by decide, by decide⟩
      · intro a ha _
        obtain rfl := Option.some.inj ha
        decide
    exact .step h₅ hguard rfl
  have hname : isAssetNameAnOwner [0x41, 0x42, 0x43] = false := by decide
  have hsent : (0 : ℤ) = _ := run_stored h₅ hname
  have hdeleted : (5 : ℤ) = _ := run_stored h₆ hname
  exact ⟨sentState, writtenState, rfl, rfl, rfl, hsent.symm, rfl, hdeleted.symm⟩

/-- A new asset that is not confirmed is in a transaction of the wallet, and not in the table. -/
theorem not_run_stored : ∃ (s : AssetState) (name : Bytes),
    assetSystem.Run (fun _ _ => True) s ∧ isAssetNameAnOwner name = false ∧
      stored s.table name ≠ s.wallet.total name := by
  have h₀ : assetSystem.Run (fun _ _ => True) emptyState := .init ⟨rfl, rfl, rfl⟩
  have hstep : assetSystem.step emptyState (.added issueTx) addedState := rfl
  have h₁ : assetSystem.Run (fun _ _ => True) addedState := .step h₀ trivial hstep
  have htotal : addedState.wallet.total [0x41, 0x42, 0x43] = 5 := by
    have hmoved :=
      moved_issueTx addedState.wallet rfl rfl [0x41, 0x42, 0x43]
    have hvalue : partValue [0x41, 0x42, 0x43] issuedAsset = 5 := by decide
    rw [WalletView.total, show addedState.wallet.transactions = [issueTx] from rfl]
    simp [hmoved, hvalue]
  refine ⟨addedState, [0x41, 0x42, 0x43], h₁, by decide, ?_⟩
  rw [htotal]
  decide

end AssetState

end RavenWallet
