/-
  The operations on the wallet (BRWallet.c).

  An operation has no result if it reads a freed transaction, and its loops and
  recursions run for `fuel` rounds.  The clock is read once for a whole call.
-/
import RavenWallet.Wallet.Balance

namespace RavenWallet

namespace BRWallet

/-! ## Registration -/

/-- `BRWalletRegisterTransaction` of the transaction at `p`. -/
def registerTransaction (env : Env) (fuel : ℕ) (now : ℤ) (w : BRWallet) (p : Ptr) :
    Option (BRWallet × Bool) := do
  let tx ← w.heap.load p
  if tx.isSigned then
    if (w.allTx.lookup tx.txHash).isSome then some (w, true)
    else if w.containsTx tx then do
      let w ← { w with allTx := w.allTx.insert tx.txHash p }.insertTx fuel p tx
      let w ← w.updateBalance now
      let (w, _) ← w.unusedAddrs env fuel SEQUENCE_GAP_LIMIT_EXTERNAL false
      let (w, _) ← w.unusedAddrs env fuel SEQUENCE_GAP_LIMIT_INTERNAL true
      let w := w.emit w.callbacks.balanceChanged (.balanceChanged w.balance)
      some (w.emit w.callbacks.txAdded (.txAdded p), true)
    else if tx.blockHeight = TX_UNCONFIRMED then
      -- kept for invalid tx checks
      some ({ w with allTx := w.allTx.insert tx.txHash p }, false)
    else some (w, false)
  else some (w, false)

/-- One iteration of the loop in `BRWalletNew`. -/
def addTx (fuel : ℕ) (w : BRWallet) (p : Ptr) : Option BRWallet := do
  let tx ← w.heap.load p
  if !tx.isSigned || (w.allTx.lookup tx.txHash).isSome then some w
  else do
    let w ← { w with allTx := w.allTx.insert tx.txHash p }.insertTx fuel p tx
    some { w with usedAddrs := w.usedAddrs ∪ (BRTxOutput.paidAddrs tx.outputs).toFinset }

/-- `BRWalletNew`; `some none` if it returns `NULL`. -/
def new (env : Env) (fuel : ℕ) (now : ℤ) (heap : Heap BRTransaction) (transactions : List Ptr) :
    Option (Option BRWallet) := do
  let w ← transactions.foldlM (addTx fuel) { heap := heap }
  let (w, _) ← w.unusedAddrs env fuel SEQUENCE_GAP_LIMIT_EXTERNAL false
  let (w, _) ← w.unusedAddrs env fuel SEQUENCE_GAP_LIMIT_INTERNAL true
  let w ← w.updateBalance now
  match transactions with
  | [] => some (some w)
  | p :: _ => do
    let tx ← w.heap.load p
    some (if w.containsTx tx then some w else none)

/-! ## Heights -/

/-- The loop variables of `BRWalletUpdateTransactions`. -/
structure Updating where
  wallet : BRWallet
  hashes : List UInt256 := []
  needsUpdate : Bool := false

/-- One iteration of the loop in `BRWalletUpdateTransactions`. -/
def updateTx (blockHeight timestamp : UInt32) (s : Updating) (txHash : UInt256) :
    Option Updating :=
  match s.wallet.allTx.lookup txHash with
  | none => some s
  | some p => do
    let tx ← s.wallet.heap.load p
    if tx.blockHeight = blockHeight ∧ tx.timestamp = timestamp then some s
    else
      let tx := tx.setBlock blockHeight timestamp
      let w := { s.wallet with heap := s.wallet.heap.store p tx }
      if w.containsTx tx then
        some ⟨w, s.hashes ++ [txHash],
          s.needsUpdate || decide (tx.txHash ∈ w.pendingTx) || decide (tx.txHash ∈ w.invalidTx)⟩
      else if blockHeight ≠ TX_UNCONFIRMED then
        -- a confirmed non-wallet tx is removed and freed
        some { s with wallet := { w with
          allTx := w.allTx.erase tx.txHash, heap := w.heap.free p } }
      else some { s with wallet := w }

def updateIf (now : ℤ) (w : BRWallet) (needsUpdate : Bool) : Option BRWallet :=
  if needsUpdate then w.updateBalance now else some w

/-- `BRWalletUpdateTransactions`. -/
def updateTransactions (now : ℤ) (w : BRWallet) (txHashes : List UInt256)
    (blockHeight timestamp : UInt32) : Option BRWallet := do
  let w := if blockHeight > w.blockHeight then { w with blockHeight } else w
  let s ← txHashes.foldlM (updateTx blockHeight timestamp) ⟨w, [], false⟩
  let w ← s.wallet.updateIf now s.needsUpdate
  some (w.emit (decide (s.hashes ≠ []) && w.callbacks.txUpdated)
    (.txUpdated s.hashes blockHeight timestamp))

/-- The transactions at the end of the list with a height of which `test` holds. -/
def suffix (w : BRWallet) (test : UInt32 → Bool) : Option (List Ptr) := do
  let r ← scanBack (fun q => (w.heap.load q).map fun t => test t.blockHeight) w.transactions.reverse
  some r.reverse

/-- Marks the transactions at `ps` as unconfirmed, and collects their hashes. -/
def unconfirm : Heap BRTransaction → List Ptr → Option (Heap BRTransaction × List UInt256)
  | heap, [] => some (heap, [])
  | heap, p :: ps => do
    let tx ← heap.load p
    let (heap, hashes) ← unconfirm (heap.store p (tx.setBlock TX_UNCONFIRMED tx.timestamp)) ps
    some (heap, tx.txHash :: hashes)

/-- `BRWalletSetTxUnconfirmedAfter`. -/
def setTxUnconfirmedAfter (now : ℤ) (w : BRWallet) (blockHeight : UInt32) : Option BRWallet := do
  let w := { w with blockHeight }
  let ps ← w.suffix fun height => decide (height > blockHeight)
  let (heap, hashes) ← unconfirm w.heap ps
  let w := { w with heap }
  if ps = [] then some w
  else do
    let w ← w.updateBalance now
    some (w.emit w.callbacks.txUpdated (.txUpdated hashes TX_UNCONFIRMED 0))

/-- `BRWalletTxUnconfirmedBefore` with room for `txCount` transactions. -/
def txUnconfirmedBefore (w : BRWallet) (txCount : ℕ) (blockHeight : UInt32) :
    Option (List Ptr) := do
  let ps ← w.suffix fun height => decide (height ≥ blockHeight)
  some (ps.take txCount)

/-! ## Removal -/

/-- `BRWalletAmountSentByTx`. -/
def amountSentByTx (w : BRWallet) (tx : BRTransaction) : UInt64 :=
  (tx.inputs.map fun i =>
    if w.ownsInput i then (w.output? i.outpoint).elim 0 BRTxOutput.amount else 0).sum

/-- `BRWalletTransactionIsValid`. -/
def transactionIsValid (w : BRWallet) : ℕ → BRTransaction → Option Bool
  | 0, _ => none
  | fuel + 1, tx =>
    let valid :=
      if (w.allTx.lookup tx.txHash).isNone then tx.outpoints.all fun o => o ∉ w.spentOutputs
      else tx.txHash ∉ w.invalidTx
    if tx.blockHeight ≠ TX_UNCONFIRMED then some true
    else if valid then
      tx.inputs.allM fun i => match w.tx? i.txHash with
        | none => some true
        | some t => transactionIsValid w fuel t
    else some false

/-- The hashes of the listed transactions that spend outputs of `tx`, last one first. -/
def dependents (w : BRWallet) (tx : BRTransaction) (txHash : UInt256) :
    List Ptr → Option (List UInt256)
  | [] => some []
  | q :: qs => do
    let t ← w.heap.load q
    if t.blockHeight < tx.blockHeight then some []
    else do
      let hashes ← dependents w tx txHash qs
      some (if t.txHash ≠ tx.txHash ∧ t.inputs.any (fun i => i.txHash = txHash) then
        t.txHash :: hashes else hashes)

/-- Takes `tx` out of `allTx` and `transactions`. -/
def unlist (w : BRWallet) (tx : BRTransaction) : Option BRWallet := do
  let r ← eraseBack (fun q => (w.heap.load q).map fun t => decide (t.txHash = tx.txHash))
    w.transactions.reverse
  some { w with allTx := w.allTx.erase tx.txHash, transactions := r.reverse }

/-- The `notifyUser` and `recommendRescan` of a removed transaction. -/
def deletionFlags (w : BRWallet) (fuel : ℕ) (tx : BRTransaction) : Option (Bool × Bool) :=
  if w.amountSentByTx tx > 0 then do
    let valid ← w.transactionIsValid fuel tx
    some (valid, valid && tx.inputs.all fun i =>
      (w.tx? i.txHash).any fun t => decide (t.blockHeight ≠ TX_UNCONFIRMED))
  else some (false, false)

/-- Removes and frees the transaction at `p`, which nothing depends on. -/
def removeTx (now : ℤ) (fuel : ℕ) (w : BRWallet) (p : Ptr) (tx : BRTransaction)
    (txHash : UInt256) : Option BRWallet := do
  let w ← w.unlist tx
  let w ← w.updateBalance now
  let (notifyUser, recommendRescan) ← w.deletionFlags fuel tx
  let w := w.emit w.callbacks.balanceChanged (.balanceChanged w.balance)
  let w := w.emit w.callbacks.txDeleted (.txDeleted txHash notifyUser recommendRescan)
  some { w with heap := w.heap.free p }

/-- `BRWalletRemoveTransaction`. -/
def removeTransaction (now : ℤ) : ℕ → BRWallet → UInt256 → Option BRWallet
  | 0, _, _ => none
  | fuel + 1, w, txHash =>
    match w.allTx.lookup txHash with
    | none => some w
    | some p => do
      let tx ← w.heap.load p
      let hashes ← w.dependents tx txHash w.transactions.reverse
      if hashes ≠ [] then do
        let w ← hashes.reverse.foldlM (removeTransaction now fuel) w
        removeTransaction now fuel w txHash
      else w.removeTx now fuel p tx txHash

end BRWallet

end RavenWallet
