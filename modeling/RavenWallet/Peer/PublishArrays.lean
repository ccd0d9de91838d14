/-
  The arrays of published transactions (BRPeerManager.c).

  `publishedTx` and `publishedTxHashes` are two arrays, which loops over indices
  append to and remove from side by side.  Here they are kept apart, as the source
  keeps them; the rest of the manager is that of `TxManager`, with no published
  transactions of its own, and does what does not use the arrays.

  * `handle_split`: a handler does on the arrays what it does on the list of their
    elements;
  * `run_parallel`: in every run the arrays have one length and no hash occurs twice,
    and if every step meets `KeepsPublished`, each hash is that of the transaction at
    its index.
-/
import RavenWallet.Lib.Sweep
import RavenWallet.Peer.Lasting
import RavenWallet.Wallet.Parents

namespace RavenWallet

/-! ## The arrays -/

/-- `publishedTx`, with the transaction and the callback of each element, and
    `publishedTxHashes`. -/
structure PublishArrays where
  publishedTx : List (Ptr × Option ℕ) := []
  publishedTxHashes : List UInt256 := []

namespace PublishArrays

variable (a : PublishArrays)

/-- `array_add` to both arrays. -/
def add (p : Ptr) (txHash : UInt256) (callback : Option ℕ) : PublishArrays where
  publishedTx := a.publishedTx ++ [(p, callback)]
  publishedTxHashes := a.publishedTxHashes ++ [txHash]

/-- `array_rm` from both arrays. -/
def rm (i : ℕ) : Option PublishArrays := do
  let publishedTx ← arrayRm a.publishedTx i
  let publishedTxHashes ← arrayRm a.publishedTxHashes i
  some { publishedTx, publishedTxHashes }

/-- `publishedTx[i].callback = NULL`. -/
def clear (i : ℕ) (p : Ptr) : PublishArrays :=
  { a with publishedTx := a.publishedTx.set i (p, none) }

/-- The arrays with the elements of a list. -/
def ofList (es : List PublishedTx) : PublishArrays where
  publishedTx := es.map fun e => (e.tx, e.callback)
  publishedTxHashes := es.map PublishedTx.txHash

/-- The elements of the arrays. -/
def toList : List PublishedTx :=
  List.zipWith (fun e txHash => { tx := e.1, txHash, callback := e.2 }) a.publishedTx
    a.publishedTxHashes

/-! ## Loops -/

/-- The loop of `_PeerManagerUpdateTx`. -/
def unpublishAt (w : BRWallet) (txHash : UInt256) (i : ℕ) :
    PublishArrays × Heap BRTransaction → Option (PublishArrays × Heap BRTransaction)
  | (a, heap) => do
    let (p, _) ← a.publishedTx[i]?
    let tx ← heap.load p
    if tx.txHash ≠ txHash then some (a, heap)
    else do
      let a ← a.rm i
      some (a, if (w.allTx.lookup tx.txHash).isSome then heap else heap.free p)

/-- The variables of the loops of `_peerRelayedTx` and `_peerHasTx`. -/
structure Taking where
  arrays : PublishArrays
  tx : Option Ptr
  callback : Option ℕ := none
  txRelays : List TxPeerList
  relayCount : ℕ := 0

/-- The loop of `_peerHasTx`, and that of `_peerRelayedTx`, where `tx` is not `NULL`. -/
def takeAt (txHash : UInt256) (peer : PeerAddr) (i : ℕ) (s : Taking) : Option Taking := do
  let hash ← s.arrays.publishedTxHashes[i]?
  if hash = txHash then do
    let (p, callback) ← s.arrays.publishedTx[i]?
    let (txRelays, relayCount) := txPeerListAddPeer s.txRelays txHash peer
    some { arrays := s.arrays.clear i p, tx := s.tx.or (some p), callback, txRelays, relayCount }
  else some s

/-- The variables of the loop of `_peerRequestedTx`. -/
structure Requesting where
  arrays : PublishArrays
  heap : Heap BRTransaction
  tx : Option Ptr := none
  callback : Option ℕ := none
  error : Option Errno := none

/-- The loop of `_peerRequestedTx`. -/
def requestAt (fuel : ℕ) (w : BRWallet) (txHash : UInt256) (i : ℕ) (s : Requesting) :
    Option Requesting := do
  let hash ← s.arrays.publishedTxHashes[i]?
  if hash ≠ txHash then some s
  else do
    let (p, callback) ← s.arrays.publishedTx[i]?
    let arrays := s.arrays.clear i p
    let tx ← s.heap.load p
    let valid ← { w with heap := s.heap }.transactionIsValid fuel tx
    if valid then some { s with arrays, tx := some p, callback }
    else do
      let arrays ← arrays.rm i
      if (w.allTx.lookup txHash).isSome then
        some { s with arrays, tx := some p, callback, error := some .EINVAL }
      else
        some { s with arrays, heap := s.heap.free p, tx := none, callback, error := some .EINVAL }

/-- The loop of `_peerDisconnected`. -/
def cancelAt (i : ℕ) :
    PublishArrays × List ℕ × Heap BRTransaction →
      Option (PublishArrays × List ℕ × Heap BRTransaction)
  | (a, callbacks, heap) => do
    let (p, callback) ← a.publishedTx[i]?
    match callback with
    | none => some (a, callbacks, heap)
    | some k => do
      let _ ← heap.load p
      let a ← a.rm i
      some (a, callbacks ++ [k], heap.free p)

end PublishArrays

/-! ## Handlers -/

/-- A peer manager with its arrays of published transactions; `rest` is the manager but for
    these. -/
structure ArrayManager extends PublishArrays where
  rest : BRPeerManager

namespace ArrayManager

open BRPeerManager (txEq timestamp)

variable (a : ArrayManager)

/-- Something that does not use the arrays. -/
def apart (f : BRPeerManager → Option BRPeerManager) : Option ArrayManager :=
  (f a.rest).map fun rest => { a with rest }

def call (callback : Option ℕ) (error : Option Errno) : ArrayManager :=
  { a with rest := a.rest.call callback error }

/-- `_PeerManagerAddTxToPublishList`; the recursion through the inputs is at most as deep as the
    first argument. -/
def addTxToPublishList : ℕ → ArrayManager → Ptr → Option ℕ → Option ArrayManager
  | 0, _, _, _ => none
  | depth + 1, a, p, callback => do
    let tx ← a.rest.wallet.heap.load p
    if tx.blockHeight ≠ TX_UNCONFIRMED then some a
    else if ← a.publishedTx.reverse.anyM fun e => txEq a.rest.wallet.heap e.1 p then some a
    else
      let a := { a with toPublishArrays := a.toPublishArrays.add p tx.txHash callback }
      tx.inputs.foldlM (fun a i =>
        match a.rest.wallet.allTx.lookup i.txHash with
        | none => some a
        | some q => addTxToPublishList depth a q none) a

/-- A confirmed transaction is no longer published or relayed. -/
def confirm (a : ArrayManager) (txHash : UInt256) : Option ArrayManager := do
  let (arrays, heap) ← downLoop (PublishArrays.unpublishAt a.rest.wallet txHash)
    a.publishedTx.length (a.toPublishArrays, a.rest.wallet.heap)
  some { toPublishArrays := arrays
         rest := { a.rest.setHeap heap with txRelays := SetMap.drop a.rest.txRelays txHash } }

/-- `_PeerManagerUpdateTx`. -/
def updateTx (now : ℤ) (txHashes : List UInt256) (blockHeight timestamp : UInt32) :
    Option ArrayManager := do
  let a ← (if blockHeight ≠ TX_UNCONFIRMED then txHashes.foldlM confirm a else some a)
  let wallet ← a.rest.wallet.updateTransactions now txHashes blockHeight timestamp
  some { a with rest := { a.rest with wallet } }

/-- The callback of a transaction is taken. -/
def taken (tx : Option Ptr) (txHash : UInt256) (peer : PeerAddr) :
    Option (ArrayManager × PublishArrays.Taking) := do
  let s ← downLoop (PublishArrays.takeAt txHash peer) a.publishedTx.length
    { arrays := a.toPublishArrays, tx, txRelays := a.rest.txRelays }
  some ({ toPublishArrays := s.arrays, rest := { a.rest with txRelays := s.txRelays } }, s)

/-- What `_peerDisconnected` does besides its loop over the arrays; also the error that it cancels
    the published transactions with, if it does. -/
def disconnecting (m : BRPeerManager) (peer : PeerAddr) (error : Option Errno) :
    BRPeerManager × Option Errno :=
  let failed := error ≠ none ∧ error ≠ some .EPROTO
  let timedOut := error = some .ETIMEDOUT ∧ (m.downloadPeer ≠ some peer ∨ m.syncStartHeight = 0 ∨
    m.connectedPeers.length = 1)
  let failures := if failed then m.connectFailureCount + 1 else m.connectFailureCount
  -- the download peer is disconnected
  let isConnected := if m.downloadPeer = some peer then false else m.isConnected
  let connectFailureCount :=
    if m.downloadPeer = some peer then min failures MAX_CONNECT_FAILURES else failures
  let syncFailed := isConnected = false ∧ connectFailureCount = MAX_CONNECT_FAILURES
  ({ m with
      isConnected, connectFailureCount
      downloadPeer := if m.downloadPeer = some peer then none else m.downloadPeer
      syncStartHeight := if syncFailed then 0 else m.syncStartHeight
      txRelays := SetMap.removeAll m.txRelays peer
      connectedPeers := m.connectedPeers.filter fun p => p.peer ≠ peer },
    if syncFailed then some .ENOTCONN else if timedOut then some .ETIMEDOUT else none)

section
variable (env : Env) (fuel : ℕ) (now : ℤ) (peer : PeerAddr)

/-- What `_peerRelayedTx` does with a wallet transaction; also the number of peers that relay it. -/
def relayWalletTx (p : Ptr) (relayCount : ℕ) : Option (ArrayManager × ℕ) := do
  let tx ← a.rest.wallet.heap.load p
  let isSend ← (if a.rest.wallet.amountSentByTx tx > 0 then
      a.rest.wallet.transactionIsValid fuel tx
    else some false)
  let a ← (if isSend then addTxToPublishList fuel a p none else some a)
  let r := a.rest.trackRelay tx.txHash peer relayCount
  let txRequests := (txPeerListRemovePeer a.rest.txRequests tx.txHash peer).1
  some ({ a with rest := { r.1 with txRequests } }, r.2)

/-- `_peerRelayedTx`; the peer has allocated the transaction at `p`. -/
def relayedTx (p : Ptr) : Option ArrayManager := do
  let tx ← a.rest.wallet.heap.load p
  let (a, s) ← a.taken (some p) tx.txHash peer
  if a.rest.syncStartHeight = 0 ∨ a.rest.wallet.containsTx tx then do
    let (wallet, isWalletTx) ← a.rest.wallet.registerTransaction env fuel now p
    let a := { a with rest := { a.rest with wallet } }
    let a ← (if isWalletTx then
        (wallet.allTx.lookup tx.txHash).elim (some a) fun q => do
          let (a, relayCount) ← a.relayWalletTx fuel peer q s.relayCount
          a.apart fun m => m.verify now q relayCount
      else a.apart fun m => m.verify now p s.relayCount)
    some (a.call s.callback none)
  else
    some ({ a with rest := a.rest.setHeap (a.rest.wallet.heap.free p) }.call s.callback none)

/-- `_peerHasTx`. -/
def hasTx (txHash : UInt256) : Option ArrayManager := do
  let (a, s) ← a.taken (a.rest.wallet.allTx.lookup txHash) txHash peer
  match s.tx with
  | none => some (a.call s.callback none)
  | some p => do
    let (wallet, isWalletTx) ← a.rest.wallet.registerTransaction env fuel now p
    let tx ← wallet.heap.load p
    let p := if isWalletTx then wallet.allTx.lookup tx.txHash else some p
    let r := { a.rest with wallet }.trackRelay txHash peer s.relayCount
    let a : ArrayManager := { a with rest := r.1 }
    let a ← a.apart fun m => p.elim (some m) fun p => m.verify now p r.2
    let txRequests := (txPeerListRemovePeer a.rest.txRequests txHash peer).1
    some ({ a with rest := { a.rest with txRequests } }.call s.callback none)

/-- `_peerRequestedTx`. -/
def requestedTx (txHash : UInt256) : Option ArrayManager := do
  let s ← downLoop (PublishArrays.requestAt fuel a.rest.wallet txHash) a.publishedTx.length
    { arrays := a.toPublishArrays, heap := a.rest.wallet.heap }
  let a : ArrayManager := { toPublishArrays := s.arrays, rest := a.rest.setHeap s.heap }
  match s.tx, s.error with
  | some p, none => do
    let txRelays := (txPeerListAddPeer a.rest.txRelays txHash peer).1
    let (wallet, _) ← a.rest.wallet.registerTransaction env fuel now p
    some ({ a with rest := { a.rest with txRelays, wallet } }.call s.callback none)
  | _, error => some (a.call s.callback error)

/-- `_peerDisconnected`. -/
def disconnected (error : Option Errno) : Option ArrayManager := do
  let (m, txError) := disconnecting a.rest peer error
  match txError with
  | none => some { a with rest := m }
  | some txError => do
    let (arrays, callbacks, heap) ← downLoop PublishArrays.cancelAt a.publishedTx.length
      (a.toPublishArrays, [], m.wallet.heap)
    some { toPublishArrays := arrays
           rest := { m.setHeap heap with
             calls := m.calls ++ callbacks.map fun k => (k, some txError) } }

/-- `BRPeerManagerPublishTx` with or without a callback, when the network is reachable or not. -/
def publishTx (reachable : Bool) (p : Ptr) (hasCallback : Bool) : Option ArrayManager := do
  let tx ← a.rest.wallet.heap.load p
  let (m, callback) := a.rest.issue hasCallback
  if !tx.isSigned then
    some { a with rest := (m.setHeap (m.wallet.heap.free p)).call callback (some .EINVAL) }
  else if m.isConnected = false ∧
      (m.connectFailureCount ≥ MAX_CONNECT_FAILURES ∨ reachable = false) then
    some { a with rest := (m.setHeap (m.wallet.heap.free p)).call callback (some .ENOTCONN) }
  else
    let m := m.setHeap (m.wallet.heap.store p (tx.setBlock tx.blockHeight (timestamp now)))
    addTxToPublishList fuel { a with rest := m } p callback

/-- The loop of `_requestUnrelayedTxGetdataDone` for an unconfirmed transaction. -/
def dropUnrelayed (a : ArrayManager) (p : Ptr) : Option ArrayManager := do
  let isPublishing ← a.publishedTx.reverse.anyM fun e => do
    let eq ← txEq a.rest.wallet.heap e.1 p
    some (eq && e.2.isSome)
  if isPublishing then some a
  else do
    let tx ← a.rest.wallet.heap.load p
    if txPeerListCount a.rest.txRelays tx.txHash = 0 ∧
        txPeerListCount a.rest.txRequests tx.txHash = 0 then do
      let wallet ← BRWallet.removeTransaction now fuel a.rest.wallet tx.txHash
      some { a with rest := { a.rest with wallet } }
    else if txPeerListCount a.rest.txRelays tx.txHash < a.rest.maxConnectCount then
      a.updateTx now [tx.txHash] TX_UNCONFIRMED 0
    else some a

/-- `_requestUnrelayedTxGetdataDone`. -/
def requestUnrelayedTxGetdataDone (success : Bool) : Option ArrayManager := do
  let connectedPeers := a.rest.connectedPeers.map fun p =>
    if success ∧ p.peer = peer then { p with synced := true } else p
  let m : BRPeerManager := { a.rest with connectedPeers }
  let a : ArrayManager := { a with rest := m }
  if m.syncedCount < m.maxConnectCount then some a
  else do
    let ps ← m.wallet.txUnconfirmedBefore (min m.wallet.transactions.length 10000) TX_UNCONFIRMED
    ps.foldlM (dropUnrelayed fuel now) a

end

/-- What a handler does within `fuel`; those that are not listed do not use the arrays. -/
def handle (env : Env) (fuel : ℕ) (a : ArrayManager) : ManagerEvent → Option ArrayManager
  | .publishTx now reachable p hasCallback => a.publishTx fuel now reachable p hasCallback
  | .relayedTx now peer tx =>
    { a with rest := a.rest.setHeap (a.rest.wallet.heap.alloc tx) }.relayedTx env fuel now peer
      a.rest.wallet.heap.fresh
  | .hasTx now peer txHash => a.hasTx env fuel now peer txHash
  | .requestedTx now peer txHash => a.requestedTx env fuel now peer txHash
  | .disconnected peer error => a.disconnected peer error
  | .getdataDone now peer success => a.requestUnrelayedTxGetdataDone fuel now peer success
  | .relayedBlock now txHashes blockHeight timestamp =>
    a.updateTx now txHashes blockHeight timestamp
  | event => a.apart fun m => m.handle env fuel event

/-- `BRPeerManagerNew` with a wallet that `BRWalletNew` returns, and the handlers. -/
def system (env : Env) : System ArrayManager ManagerEvent where
  init a := ∃ wallet, (BRWallet.system env).init wallet ∧ a = { rest := { wallet } }
  step a event a' := ∃ fuel, a.handle env fuel event = some a'

/-! ## The list of the elements -/

/-- The manager with other published transactions. -/
def publishing (m : BRPeerManager) (es : List PublishedTx) : BRPeerManager :=
  { m with publishedTx := es }

/-- A manager whose published transactions are kept in two arrays. -/
def split (m : BRPeerManager) : ArrayManager where
  toPublishArrays := .ofList m.publishedTx
  rest := publishing m []

/-- The published transactions are neither read nor changed. -/
def Apart (f : BRPeerManager → Option BRPeerManager) : Prop :=
  ∀ m es, f (publishing m es) = (f m).map fun m' => publishing m' es

end ArrayManager

namespace PublishArrays

section
variable (as bs : List PublishedTx) (e : PublishedTx)

theorem ofList_get : (ofList (as ++ e :: bs)).publishedTx[as.length]? = some (e.tx, e.callback) := by
  simp [ofList]

theorem ofList_hash : (ofList (as ++ e :: bs)).publishedTxHashes[as.length]? = some e.txHash := by
  simp [ofList]

theorem ofList_rm : (ofList (as ++ e :: bs)).rm as.length = some (ofList (as ++ bs)) := by
  have h := arrayRm_append (as.map fun e => (e.tx, e.callback))
    (bs.map fun e => (e.tx, e.callback)) (e.tx, e.callback)
  have h' := arrayRm_append (as.map PublishedTx.txHash) (bs.map PublishedTx.txHash) e.txHash
  rw [List.length_map] at h h'
  simp [rm, ofList, h, h']

theorem ofList_clear : (ofList (as ++ e :: bs)).clear as.length e.tx =
    ofList (as ++ { e with callback := none } :: bs) := by
  have h := set_append_cons (as.map fun e => (e.tx, e.callback))
    (bs.map fun e => (e.tx, e.callback)) (e.tx, e.callback) (e.tx, none)
  rw [List.length_map] at h
  simp [clear, ofList, h]

end

theorem ofList_add (es : List PublishedTx) (p : Ptr) (txHash : UInt256) (callback : Option ℕ) :
    (ofList es).add p txHash callback = ofList (es ++ [{ tx := p, txHash, callback }]) := by
  simp [add, ofList]

theorem toList_ofList (es : List PublishedTx) : (ofList es).toList = es := by
  rw [toList, ofList, List.zipWith_map, List.zipWith_self]
  simp

/-! ## The loops sweep the list -/

/-- What the loop of `_PeerManagerUpdateTx` does with an element. -/
def unpublishEntry (w : BRWallet) (txHash : UInt256) (e : PublishedTx) (heap : Heap BRTransaction) :
    Option (Option PublishedTx × Heap BRTransaction) := do
  let tx ← heap.load e.tx
  if tx.txHash ≠ txHash then some (some e, heap)
  else some (none, if (w.allTx.lookup tx.txHash).isSome then heap else heap.free e.tx)

/-- What the loops of `_peerRelayedTx` and `_peerHasTx` do with an element. -/
def takeEntry (txHash : UInt256) (peer : PeerAddr) (e : PublishedTx) (s : Taking) :
    Option (Option PublishedTx × Taking) :=
  if e.txHash = txHash then
    let (txRelays, relayCount) := txPeerListAddPeer s.txRelays txHash peer
    some (some { e with callback := none },
      { s with tx := s.tx.or (some e.tx), callback := e.callback, txRelays, relayCount })
  else some (some e, s)

/-- What the loop of `_peerRequestedTx` does with an element. -/
def requestEntry (fuel : ℕ) (w : BRWallet) (txHash : UInt256) (e : PublishedTx) (s : Requesting) :
    Option (Option PublishedTx × Requesting) :=
  if e.txHash ≠ txHash then some (some e, s)
  else do
    let tx ← s.heap.load e.tx
    let valid ← { w with heap := s.heap }.transactionIsValid fuel tx
    if valid then
      some (some { e with callback := none }, { s with tx := some e.tx, callback := e.callback })
    else if (w.allTx.lookup txHash).isSome then
      some (none, { s with tx := some e.tx, callback := e.callback, error := some .EINVAL })
    else
      some (none, { s with heap := s.heap.free e.tx, tx := none, callback := e.callback
                           error := some .EINVAL })

/-- What the loop of `_peerDisconnected` does with an element. -/
def cancelEntry (e : PublishedTx) :
    List ℕ × Heap BRTransaction → Option (Option PublishedTx × List ℕ × Heap BRTransaction)
  | (callbacks, heap) =>
    match e.callback with
    | none => some (some e, callbacks, heap)
    | some k => do
      let _ ← heap.load e.tx
      some (none, callbacks ++ [k], heap.free e.tx)

theorem unpublish_sweep (w : BRWallet) (txHash : UInt256) (es : List PublishedTx)
    (heap : Heap BRTransaction) :
    sweep (unpublishEntry w txHash) es heap = BRPeerManager.unpublish w txHash es heap := by
  induction es with
  | nil => rfl
  | cons e es ih =>
    rw [sweep, BRPeerManager.unpublish, ih]
    refine bind_congr fun r => ?_
    simp only [unpublishEntry, Option.bind_eq_bind]
    cases r.2.load e.tx with
    | none => rfl
    | some tx =>
      simp only [Option.bind_some]
      split_ifs
      · rfl
      · rfl
      · rfl

theorem cancel_sweep (es : List PublishedTx) (heap : Heap BRTransaction) :
    sweep cancelEntry es ([], heap) = BRPeerManager.cancel es heap := by
  induction es with
  | nil => rfl
  | cons e es ih =>
    rw [sweep, BRPeerManager.cancel, ih]
    refine bind_congr fun r => ?_
    simp only [cancelEntry]
    cases e.callback with
    | none => rfl
    | some k =>
      simp only [Option.bind_eq_bind]
      cases r.2.2.load e.tx with
      | none => rfl
      | some tx => rfl

theorem request_sweep (fuel : ℕ) (w : BRWallet) (txHash : UInt256) (a : PublishArrays)
    (es : List PublishedTx) (heap : Heap BRTransaction) :
    sweep (requestEntry fuel w txHash) es { arrays := a, heap } =
      (BRPeerManager.request fuel w txHash es { heap }).map fun s =>
        (s.publishedTx, { arrays := a, heap := s.heap, tx := s.tx, callback := s.callback
                          error := s.error }) := by
  induction es with
  | nil => rfl
  | cons e es ih =>
    rw [sweep, BRPeerManager.request, ih]
    simp only [Option.bind_eq_bind]
    cases BRPeerManager.request fuel w txHash es { heap } with
    | none => rfl
    | some s =>
      simp only [Option.map_some, Option.bind_some, requestEntry]
      by_cases hhash : e.txHash = txHash
      · rw [if_neg (not_not.2 hhash), if_neg (not_not.2 hhash)]
        simp only [Option.bind_eq_bind]
        cases s.heap.load e.tx with
        | none => rfl
        | some tx =>
          simp only [Option.bind_some]
          cases ({ w with heap := s.heap } : BRWallet).transactionIsValid fuel tx with
          | none => rfl
          | some valid =>
            simp only [Option.bind_some]
            split_ifs
            · rfl
            · rfl
            · rfl
      · rw [if_pos hhash, if_pos hhash]
        rfl

theorem take_sweep (txHash : UInt256) (peer : PeerAddr) (a : PublishArrays) (tx : Option Ptr)
    (txRelays : List TxPeerList) (es : List PublishedTx) :
    sweep (takeEntry txHash peer) es { arrays := a, tx, txRelays } =
      some ((BRPeerManager.takeCallback txHash peer es { txRelays }).publishedTx,
        { arrays := a
          tx := tx.or ((es.reverse.find? fun e => e.txHash = txHash).map PublishedTx.tx)
          callback := (BRPeerManager.takeCallback txHash peer es { txRelays }).callback
          txRelays := (BRPeerManager.takeCallback txHash peer es { txRelays }).txRelays
          relayCount := (BRPeerManager.takeCallback txHash peer es { txRelays }).relayCount }) := by
  induction es with
  | nil => simp [sweep, BRPeerManager.takeCallback]
  | cons e es ih =>
    rw [sweep, ih]
    simp only [Option.bind_eq_bind, Option.bind_some, takeEntry, BRPeerManager.takeCallback,
      List.reverse_cons, List.find?_append]
    split_ifs with h
    · simp [h]
    · simp [h]

theorem unpublishAt_ofList (w : BRWallet) (txHash : UInt256) (es : List PublishedTx)
    (heap : Heap BRTransaction) :
    downLoop (unpublishAt w txHash) es.length (ofList es, heap) =
      (BRPeerManager.unpublish w txHash es heap).map fun r => (ofList r.1, r.2) := by
  rw [← unpublish_sweep]
  refine downLoop_sweep (fun es heap => (ofList es, heap)) ?_ es heap
  intro as e bs heap
  simp only [unpublishAt, unpublishEntry, ofList_get, Option.bind_eq_bind, Option.bind_some,
    ofList_rm]
  cases heap.load e.tx with
  | none => rfl
  | some tx =>
    simp only [Option.bind_some]
    split_ifs
    · rfl
    · rfl
    · rfl

theorem cancelAt_ofList (es : List PublishedTx) (heap : Heap BRTransaction) :
    downLoop cancelAt es.length (ofList es, [], heap) =
      (BRPeerManager.cancel es heap).map fun r => (ofList r.1, r.2) := by
  rw [← cancel_sweep]
  refine downLoop_sweep (fun es t => (ofList es, t)) ?_ es ([], heap)
  rintro as e bs ⟨callbacks, heap⟩
  simp only [cancelAt, cancelEntry, ofList_get, Option.bind_eq_bind, Option.bind_some]
  cases e.callback with
  | none => rfl
  | some k =>
    simp only [ofList_rm, Option.bind_some]
    cases heap.load e.tx with
    | none => rfl
    | some tx => rfl

theorem requestAt_ofList (fuel : ℕ) (w : BRWallet) (txHash : UInt256) (es : List PublishedTx)
    (heap : Heap BRTransaction) :
    downLoop (requestAt fuel w txHash) es.length { arrays := ofList es, heap } =
      (BRPeerManager.request fuel w txHash es { heap }).map fun s =>
        { arrays := ofList s.publishedTx, heap := s.heap, tx := s.tx, callback := s.callback
          error := s.error } := by
  have hbody : ∀ as e bs s, requestAt fuel w txHash as.length
      { s with arrays := ofList (as ++ e :: bs) } = (requestEntry fuel w txHash e s).map fun r =>
        { r.2 with arrays := ofList (as ++ (r.1.toList ++ bs)) } := by
    intro as e bs s
    simp only [requestAt, requestEntry, ofList_hash, ofList_get, ofList_clear, Option.bind_eq_bind,
      Option.bind_some]
    by_cases hhash : e.txHash = txHash
    · rw [if_neg (not_not.2 hhash), if_neg (not_not.2 hhash)]
      cases s.heap.load e.tx with
      | none => rfl
      | some tx =>
        simp only [Option.bind_some]
        cases ({ w with heap := s.heap } : BRWallet).transactionIsValid fuel tx with
        | none => rfl
        | some valid =>
          have hrm := ofList_rm as bs { e with callback := none }
          simp only [Option.bind_some, hrm]
          split_ifs
          · rfl
          · rfl
          · rfl
    · rw [if_pos hhash, if_pos hhash]
      rfl
  have h := downLoop_sweep (fun es (s : Requesting) => { s with arrays := ofList es }) hbody es
    { arrays := ofList es, heap }
  rw [request_sweep, Option.map_map] at h
  exact h

theorem takeAt_ofList (txHash : UInt256) (peer : PeerAddr) (tx : Option Ptr)
    (txRelays : List TxPeerList) (es : List PublishedTx) :
    downLoop (takeAt txHash peer) es.length { arrays := ofList es, tx, txRelays } =
      some { arrays := ofList (BRPeerManager.takeCallback txHash peer es { txRelays }).publishedTx
             tx := tx.or ((es.reverse.find? fun e => e.txHash = txHash).map PublishedTx.tx)
             callback := (BRPeerManager.takeCallback txHash peer es { txRelays }).callback
             txRelays := (BRPeerManager.takeCallback txHash peer es { txRelays }).txRelays
             relayCount :=
               (BRPeerManager.takeCallback txHash peer es { txRelays }).relayCount } := by
  have hbody : ∀ as e bs s, takeAt txHash peer as.length
      { s with arrays := ofList (as ++ e :: bs) } = (takeEntry txHash peer e s).map fun r =>
        { r.2 with arrays := ofList (as ++ (r.1.toList ++ bs)) } := by
    intro as e bs s
    simp only [takeAt, takeEntry, ofList_hash, ofList_get, ofList_clear, Option.bind_eq_bind,
      Option.bind_some]
    split_ifs
    · rfl
    · rfl
  have h := downLoop_sweep (fun es (s : Taking) => { s with arrays := ofList es }) hbody es
    { arrays := ofList es, tx, txRelays }
  rw [take_sweep] at h
  exact h

end PublishArrays

namespace ArrayManager

open BRPeerManager (txEq timestamp)
open PublishArrays (ofList)

variable {m : BRPeerManager} {env : Env} {fuel : ℕ} {now : ℤ} {peer : PeerAddr} {p : Ptr}
  {txHash : UInt256} {callback : Option ℕ}

/-! ## What does not use the arrays -/

theorem apart_split {f : BRPeerManager → Option BRPeerManager} (hf : Apart f) (m : BRPeerManager) :
    (split m).apart f = (f m).map split := by
  have hrest : f (split m).rest = (f m).map fun m' => publishing m' [] := hf m []
  have hkept : f m = (f m).map fun m' => publishing m' m.publishedTx := hf m m.publishedTx
  rw [apart, hrest]
  cases hfm : f m with
  | none => rfl
  | some m' =>
    rw [hfm, Option.map_some, Option.some.injEq] at hkept
    have hpublished : m'.publishedTx = m.publishedTx := by
      have h := congrArg BRPeerManager.publishedTx hkept
      exact h
    simp [split, hpublished]

theorem updateTx_unconfirmed (m : BRPeerManager) (txHashes : List UInt256) (timestamp : UInt32) :
    m.updateTx now txHashes TX_UNCONFIRMED timestamp =
      (m.wallet.updateTransactions now txHashes TX_UNCONFIRMED timestamp).map fun wallet =>
        { m with wallet } := by
  rw [BRPeerManager.updateTx, if_neg (not_not.2 rfl)]
  simp only [Option.bind_eq_bind, Option.bind_some]
  cases m.wallet.updateTransactions now txHashes TX_UNCONFIRMED timestamp with
  | none => rfl
  | some wallet => rfl

theorem updateTx_unconfirmed_apart (txHashes : List UInt256) (timestamp : UInt32) :
    Apart fun m => m.updateTx now txHashes TX_UNCONFIRMED timestamp := by
  intro m es
  simp only [updateTx_unconfirmed, Option.map_map]
  rfl

theorem verify_apart (p : Ptr) (relayCount : ℕ) : Apart fun m => m.verify now p relayCount := by
  intro m es
  refine ite_commutes rfl (bind_commutes fun tx => ite_commutes ?_ rfl)
  exact updateTx_unconfirmed_apart _ _ m es

theorem rejectedTx_apart (txHash : UInt256) : Apart fun m => m.rejectedTx now peer txHash := by
  intro m es
  simp only [BRPeerManager.rejectedTx]
  rw [show (publishing m es).wallet = m.wallet from rfl]
  cases m.wallet.allTx.lookup txHash with
  | none => rfl
  | some p =>
    refine bind_commutes fun tx => ite_commutes ?_ rfl
    exact updateTx_unconfirmed_apart _ _ { m with
      txRequests := (txPeerListRemovePeer m.txRequests txHash peer).1
      txRelays := (txPeerListRemovePeer m.txRelays txHash peer).1 } es

theorem dataNotfound_apart (txHashes : List UInt256) :
    Apart fun m => some (m.dataNotfound peer txHashes) := by
  intro m es
  simp only [BRPeerManager.dataNotfound, Option.map_some, Option.some.injEq]
  induction txHashes generalizing m with
  | nil => rfl
  | cons txHash txHashes ih =>
    exact ih { m with txRelays := (txPeerListRemovePeer m.txRelays txHash peer).1
                      txRequests := (txPeerListRemovePeer m.txRequests txHash peer).1 }

theorem requestUnrelayedTx_apart (peer : PeerAddr) : Apart fun m => m.requestUnrelayedTx peer := by
  intro m es
  refine bind_commutes fun ps => ?_
  have hloop := @foldlM_commutes _ _ _
    (fun r : BRPeerManager × ℕ => (publishing r.1 es, r.2)) (BRPeerManager.requestTx peer)
    (BRPeerManager.requestTx peer)
    (fun r p => bind_commutes fun tx => ite_commutes rfl rfl) ps (m, 0)
  refine (congrArg (fun x => Option.bind x _) hloop).trans ?_
  exact bind_map_commutes fun r => ite_commutes rfl rfl

theorem handle_apart {event : ManagerEvent} (h : ∀ a : ArrayManager,
    a.handle env fuel event = a.apart fun m => m.handle env fuel event)
    (hf : Apart fun m => m.handle env fuel event) (m : BRPeerManager) :
    (split m).handle env fuel event = (m.handle env fuel event).map split := by
  rw [h]
  exact apart_split hf m

/-! ## What uses the arrays -/

theorem publishedTx_length (m : BRPeerManager) :
    (split m).publishedTx.length = m.publishedTx.length := List.length_map _

theorem anyM_split (m : BRPeerManager) (f : Ptr × Option ℕ → Option Bool) :
    (split m).publishedTx.reverse.anyM f =
      m.publishedTx.reverse.anyM fun e => f (e.tx, e.callback) := by
  rw [split, ofList]
  simp only [← List.map_reverse]
  induction m.publishedTx.reverse with
  | nil => rfl
  | cons e es ih => simp only [List.map_cons, List.anyM_cons, ih]

theorem addTxToPublishList_split (depth : ℕ) (m : BRPeerManager) (p : Ptr)
    (callback : Option ℕ) : addTxToPublishList depth (split m) p callback =
      (BRPeerManager.addTxToPublishList depth m p callback).map split := by
  induction depth generalizing m p callback with
  | zero => rfl
  | succ depth ih =>
    refine bind_commutes fun tx => ite_commutes rfl ?_
    rw [anyM_split]
    refine bind_commutes fun published => ite_commutes rfl ?_
    rw [show (split m).toPublishArrays = ofList m.publishedTx from rfl, PublishArrays.ofList_add]
    refine @foldlM_commutes _ _ _ split _ _ ?_ tx.inputs (publishing m
      (m.publishedTx ++ [{ tx := p, txHash := tx.txHash, callback }]))
    intro m i
    rw [show (split m).rest.wallet = m.wallet from rfl]
    cases m.wallet.allTx.lookup i.txHash with
    | none => rfl
    | some q => exact ih m q none

theorem confirm_split (m : BRPeerManager) (txHash : UInt256) :
    confirm (split m) txHash = (m.confirm txHash).map split := by
  rw [confirm, publishedTx_length]
  rw [show (split m).toPublishArrays = ofList m.publishedTx from rfl,
    show (split m).rest.wallet = m.wallet from rfl, PublishArrays.unpublishAt_ofList]
  exact bind_map_commutes fun r => rfl

theorem updateTx_split (m : BRPeerManager) (txHashes : List UInt256)
    (blockHeight timestamp : UInt32) :
    (split m).updateTx now txHashes blockHeight timestamp =
      (m.updateTx now txHashes blockHeight timestamp).map split := by
  have hconfirm : (if blockHeight ≠ TX_UNCONFIRMED then txHashes.foldlM confirm (split m)
      else some (split m)) = (if blockHeight ≠ TX_UNCONFIRMED then
        txHashes.foldlM BRPeerManager.confirm m else some m).map split :=
    ite_commutes (foldlM_commutes confirm_split txHashes m) rfl
  rw [updateTx, hconfirm]
  exact bind_map_commutes fun m => bind_commutes fun wallet => rfl

theorem taken_split (m : BRPeerManager) (tx : Option Ptr) (txHash : UInt256) (peer : PeerAddr) :
    (split m).taken tx txHash peer = some (split (m.taken txHash peer).1,
      { arrays := ofList (m.taken txHash peer).1.publishedTx
        tx := tx.or ((m.publishedTx.reverse.find? fun e => e.txHash = txHash).map PublishedTx.tx)
        callback := (m.taken txHash peer).2.1
        txRelays := (m.taken txHash peer).1.txRelays
        relayCount := (m.taken txHash peer).2.2 }) := by
  rw [taken, publishedTx_length]
  rw [show (split m).toPublishArrays = ofList m.publishedTx from rfl,
    show (split m).rest.txRelays = m.txRelays from rfl, PublishArrays.takeAt_ofList]
  rfl

theorem call_split (m : BRPeerManager) (callback : Option ℕ) (error : Option Errno) :
    (split m).call callback error = split (m.call callback error) := by
  cases callback with
  | none => rfl
  | some k => rfl

theorem trackRelay_split (m : BRPeerManager) (txHash : UInt256) (peer : PeerAddr)
    (relayCount : ℕ) : (split m).rest.trackRelay txHash peer relayCount =
      ((split (m.trackRelay txHash peer relayCount).1).rest,
        (m.trackRelay txHash peer relayCount).2) ∧
      (m.trackRelay txHash peer relayCount).1.publishedTx = m.publishedTx := by
  by_cases hsync : m.syncStartHeight = 0
  · have htrack : m.trackRelay txHash peer relayCount =
        ({ m with txRelays := (txPeerListAddPeer m.txRelays txHash peer).1 },
          (txPeerListAddPeer m.txRelays txHash peer).2) := if_pos hsync
    rw [htrack]
    exact ⟨if_pos hsync, rfl⟩
  · have htrack : m.trackRelay txHash peer relayCount = (m, relayCount) := if_neg hsync
    rw [htrack]
    exact ⟨if_neg hsync, rfl⟩

theorem relayWalletTx_split (m : BRPeerManager) (p : Ptr) (relayCount : ℕ) :
    (split m).relayWalletTx fuel peer p relayCount =
      (m.relayWalletTx fuel peer p relayCount).map fun r => (split r.1, r.2) := by
  refine bind_commutes fun tx => bind_commutes fun isSend => ?_
  have hadd : (if isSend then addTxToPublishList fuel (split m) p none else some (split m)) =
      (if isSend then m.addTxToPublishList fuel p none else some m).map split :=
    ite_commutes (addTxToPublishList_split fuel m p none) rfl
  rw [hadd]
  refine bind_map_commutes fun m => ?_
  obtain ⟨htrack, hpublished⟩ := trackRelay_split m tx.txHash peer relayCount
  simp only [htrack, Option.map_some, Option.some.injEq]
  simp only [split, publishing, hpublished]

theorem relayedTx_split (m : BRPeerManager) (p : Ptr) :
    (split m).relayedTx env fuel now peer p = (m.relayedTx env fuel now peer p).map split := by
  refine bind_commutes fun tx => ?_
  rw [taken_split]
  generalize m.taken tx.txHash peer = r
  obtain ⟨m, callback, relayCount⟩ := r
  refine ite_commutes ?_
    (congrArg some (call_split (m.setHeap (m.wallet.heap.free p)) callback none))
  refine bind_commutes fun w => ?_
  obtain ⟨w, isWalletTx⟩ := w
  have hverify : (if isWalletTx then
        (w.allTx.lookup tx.txHash).elim (some (split { m with wallet := w })) fun q =>
          ((split { m with wallet := w }).relayWalletTx fuel peer q relayCount).bind fun r =>
            r.1.apart fun m => m.verify now q r.2
      else (split { m with wallet := w }).apart fun m => m.verify now p relayCount) =
      (if isWalletTx then
        (w.allTx.lookup tx.txHash).elim (some { m with wallet := w }) fun q =>
          (({ m with wallet := w } : BRPeerManager).relayWalletTx fuel peer q relayCount).bind
            fun r => r.1.verify now q r.2
      else ({ m with wallet := w } : BRPeerManager).verify now p relayCount).map split := by
    refine ite_commutes ?_ (apart_split (verify_apart p relayCount) _)
    cases w.allTx.lookup tx.txHash with
    | none => rfl
    | some q =>
      simp only [Option.elim_some, relayWalletTx_split]
      exact bind_map_commutes fun r => apart_split (verify_apart q r.2) r.1
  refine (congrArg (fun x => Option.bind x _) hverify).trans ?_
  exact bind_map_commutes fun m => congrArg some (call_split m callback none)

theorem hasTx_split (m : BRPeerManager) (txHash : UInt256) :
    (split m).hasTx env fuel now peer txHash = (m.hasTx env fuel now peer txHash).map split := by
  rw [hasTx, taken_split, BRPeerManager.hasTx]
  simp only [Option.bind_eq_bind, Option.bind_some]
  rw [show (split m).rest.wallet.allTx.lookup txHash = m.wallet.allTx.lookup txHash from rfl]
  generalize m.taken txHash peer = r
  obtain ⟨m₁, callback, relayCount⟩ := r
  cases (m.wallet.allTx.lookup txHash).or
      ((m.publishedTx.reverse.find? fun e => e.txHash = txHash).map PublishedTx.tx) with
  | none => exact congrArg some (call_split m₁ callback none)
  | some p =>
    refine bind_commutes fun w => bind_commutes fun tx => ?_
    obtain ⟨w, isWalletTx⟩ := w
    have hverify : ∀ p : Option Ptr, ∀ n,
        Apart fun m => p.elim (some m) fun p => m.verify now p n := by
      intro p n
      cases p with
      | none => exact fun m es => rfl
      | some p => exact verify_apart p n
    obtain ⟨htrack, hpublished⟩ := trackRelay_split { m₁ with wallet := w } txHash peer relayCount
    have hsplit : ({ split m₁ with
        rest := (split (({ m₁ with wallet := w } : BRPeerManager).trackRelay txHash peer
          relayCount).1).rest } : ArrayManager) =
        split (({ m₁ with wallet := w } : BRPeerManager).trackRelay txHash peer relayCount).1 := by
      simp only [split, hpublished]
    show Option.bind (ArrayManager.apart { split m₁ with
        rest := ((split { m₁ with wallet := w }).rest.trackRelay txHash peer relayCount).1 }
        fun m => Option.elim (if isWalletTx then w.allTx.lookup tx.txHash else some p) (some m)
          fun p => m.verify now p
            ((split { m₁ with wallet := w }).rest.trackRelay txHash peer relayCount).2) _ = _
    rw [htrack]
    dsimp only
    rw [hsplit, apart_split (hverify _ _)]
    refine bind_map_commutes fun m => ?_
    exact congrArg some (call_split { m with
      txRequests := (txPeerListRemovePeer m.txRequests txHash peer).1 } callback none)

theorem requestedTx_split (m : BRPeerManager) (txHash : UInt256) :
    (split m).requestedTx env fuel now peer txHash =
      (m.requestedTx env fuel now peer txHash).map split := by
  rw [requestedTx, publishedTx_length]
  rw [show (split m).toPublishArrays = ofList m.publishedTx from rfl,
    show (split m).rest.wallet = m.wallet from rfl, PublishArrays.requestAt_ofList]
  refine bind_map_commutes fun s => ?_
  obtain ⟨es, heap, tx, callback, error⟩ := s
  have hcall : some ((split { m.setHeap heap with publishedTx := es }).call callback error) =
      (some (({ m.setHeap heap with publishedTx := es } : BRPeerManager).call callback error)).map
        split := congrArg some (call_split _ callback error)
  cases tx with
  | none => exact hcall
  | some p =>
    cases error with
    | some error => exact hcall
    | none =>
      refine bind_commutes fun w => ?_
      exact congrArg some (call_split { m.setHeap heap with
        publishedTx := es, wallet := w.1
        txRelays := (txPeerListAddPeer m.txRelays txHash peer).1 } callback none)

theorem publishTx_split (m : BRPeerManager) (reachable : Bool) (p : Ptr) (hasCallback : Bool) :
    (split m).publishTx fuel now reachable p hasCallback =
      (m.publishTx fuel now reachable p hasCallback).map split := by
  refine bind_commutes fun tx => ?_
  have hissue : ∃ issued callback, m.issue hasCallback = ({ m with issued }, callback) ∧
      (split m).rest.issue hasCallback = ({ (split m).rest with issued }, callback) := by
    cases hasCallback with
    | false => exact ⟨_, _, rfl, rfl⟩
    | true => exact ⟨_, _, rfl, rfl⟩
  obtain ⟨issued, callback, hissue, hissue'⟩ := hissue
  rw [hissue, hissue']
  have hcall : ∀ error, some (ArrayManager.call (split { m with
        issued, wallet := { m.wallet with heap := m.wallet.heap.free p } }) callback error) =
      (some (BRPeerManager.call { m with
        issued, wallet := { m.wallet with heap := m.wallet.heap.free p } } callback error)).map
          split := fun error => congrArg some (call_split _ callback error)
  refine ite_commutes (hcall _) (ite_commutes (hcall _) ?_)
  exact addTxToPublishList_split fuel { m with
    issued, wallet := { m.wallet with
      heap := m.wallet.heap.store p (tx.setBlock tx.blockHeight (timestamp now)) } } p callback

theorem dropUnrelayed_split (m : BRPeerManager) (p : Ptr) :
    dropUnrelayed fuel now (split m) p = (m.dropUnrelayed fuel now p).map split := by
  rw [dropUnrelayed, anyM_split]
  refine bind_commutes fun isPublishing => ite_commutes rfl (bind_commutes fun tx => ?_)
  refine ite_commutes (bind_commutes fun w => rfl) (ite_commutes ?_ rfl)
  exact updateTx_split m [tx.txHash] TX_UNCONFIRMED 0

theorem getdataDone_split (m : BRPeerManager) (success : Bool) :
    (split m).requestUnrelayedTxGetdataDone fuel now peer success =
      (m.requestUnrelayedTxGetdataDone fuel now peer success).map split := by
  refine ite_commutes rfl (bind_commutes fun ps => ?_)
  exact foldlM_commutes dropUnrelayed_split ps (m.markSynced peer success)

/-- `_peerDisconnected` does what is before its loop, and then the loop. -/
theorem disconnected_eq (m : BRPeerManager) (error : Option Errno) :
    m.disconnected peer error =
      (disconnecting m peer error).2.elim (some (disconnecting m peer error).1) fun txError =>
        (BRPeerManager.cancel m.publishedTx m.wallet.heap).bind fun r =>
          some { (disconnecting m peer error).1.setHeap r.2.2 with
            publishedTx := r.1
            calls := (disconnecting m peer error).1.calls ++ r.2.1.map fun k =>
              (k, some txError) } := by
  simp only [BRPeerManager.disconnected, disconnecting]
  generalize (if error ≠ none ∧ error ≠ some Errno.EPROTO then m.connectFailureCount + 1
    else m.connectFailureCount) = failures
  by_cases hd : m.downloadPeer = some peer
  · simp only [hd, if_true, true_and]
    by_cases hsync : min failures MAX_CONNECT_FAILURES = MAX_CONNECT_FAILURES
    · simp only [if_pos hsync]
      rfl
    · simp only [if_neg hsync]
      split_ifs
      · rfl
      · rfl
  · simp only [hd, if_false]
    by_cases hsync : m.isConnected = false ∧ failures = MAX_CONNECT_FAILURES
    · simp only [if_pos hsync]
      rfl
    · simp only [if_neg hsync]
      split_ifs
      · rfl
      · rfl

theorem disconnected_split (m : BRPeerManager) (error : Option Errno) :
    (split m).disconnected peer error = (m.disconnected peer error).map split := by
  rw [disconnected_eq, disconnected, publishedTx_length]
  rw [show disconnecting (split m).rest peer error = (publishing (disconnecting m peer error).1 [],
    (disconnecting m peer error).2) from rfl]
  have hpublished : (disconnecting m peer error).1.publishedTx = m.publishedTx := rfl
  have hwallet : (disconnecting m peer error).1.wallet = m.wallet := rfl
  generalize disconnecting m peer error = r at hpublished hwallet ⊢
  obtain ⟨m', txError⟩ := r
  cases txError with
  | none =>
    have hpublished : m.publishedTx = m'.publishedTx := hpublished.symm
    show some { split m with rest := publishing m' [] } = some (split m')
    simp only [split, hpublished]
  | some txError =>
    simp only [Option.elim_some]
    rw [show (publishing m' []).wallet.heap = m'.wallet.heap from rfl, hwallet,
      show (split m).toPublishArrays = ofList m.publishedTx from rfl,
      PublishArrays.cancelAt_ofList]
    refine bind_map_commutes fun r => ?_
    rfl

/-- A handler does on the arrays what it does on the list of their elements. -/
theorem handle_split (event : ManagerEvent) (m : BRPeerManager) :
    (split m).handle env fuel event = (m.handle env fuel event).map split := by
  cases event with
  | alloc tx => exact handle_apart (fun a => rfl) (fun m es => rfl) m
  | connect peer =>
    refine handle_apart (fun a => rfl) (fun m es => ?_) m
    simp only [BRPeerManager.handle, BRPeerManager.connect, apply_ite some]
    exact ite_commutes rfl rfl
  | connected peer download =>
    refine handle_apart (fun a => rfl) (fun m es => ?_) m
    cases download with
    | false => rfl
    | true => rfl
  | sync syncStartHeight connectFailureCount =>
    exact handle_apart (fun a => rfl) (fun m es => rfl) m
  | publishTx now reachable p hasCallback => exact publishTx_split m reachable p hasCallback
  | relayedTx now peer tx =>
    exact relayedTx_split (m.setHeap (m.wallet.heap.alloc tx)) m.wallet.heap.fresh
  | hasTx now peer txHash => exact hasTx_split m txHash
  | requestedTx now peer txHash => exact requestedTx_split m txHash
  | rejectedTx now peer txHash =>
    refine handle_apart (fun a => rfl) ?_ m
    exact rejectedTx_apart txHash
  | dataNotfound peer txHashes =>
    refine handle_apart (fun a => rfl) ?_ m
    exact dataNotfound_apart txHashes
  | disconnected peer error => exact disconnected_split m error
  | publishTxInvDone peer =>
    refine handle_apart (fun a => rfl) ?_ m
    exact requestUnrelayedTx_apart peer
  | mempoolDone peer =>
    refine handle_apart (fun a => rfl) (fun m es => ?_) m
    exact requestUnrelayedTx_apart peer { m with syncStartHeight := 0 } es
  | getdataDone now peer success => exact getdataDone_split m success
  | relayedBlock now txHashes blockHeight timestamp =>
    exact updateTx_split m txHashes blockHeight timestamp
  | setTxUnconfirmedAfter now blockHeight =>
    refine handle_apart (fun a => rfl) (fun m es => ?_) m
    exact bind_commutes fun wallet => rfl
  | updateTransactions now txHashes blockHeight timestamp =>
    refine handle_apart (fun a => rfl) (fun m es => ?_) m
    exact bind_commutes fun wallet => rfl

/-! ## Runs -/

/-- The manager with the elements of its arrays. -/
def whole (a : ArrayManager) : BRPeerManager := publishing a.rest a.toList

/-- The arrays have one length, no hash occurs twice, and each is that of the transaction at its
    index. -/
structure Parallel (a : ArrayManager) : Prop where
  length : a.publishedTxHashes.length = a.publishedTx.length
  nodup : a.publishedTxHashes.Nodup
  hash : ∀ (i : ℕ) (e : Ptr × Option ℕ), a.publishedTx[i]? = some e →
    ∃ tx, a.rest.wallet.heap.load e.1 = some tx ∧ a.publishedTxHashes[i]? = some tx.txHash

theorem whole_split (m : BRPeerManager) : whole (split m) = m := by
  rw [whole, show (split m).toPublishArrays = ofList m.publishedTx from rfl,
    PublishArrays.toList_ofList]
  rfl

/-- What is reached with the arrays is reached with the list of their elements. -/
theorem run_split {G : ArrayManager → ManagerEvent → Prop} {a : ArrayManager}
    (h : (system env).Run G a) :
    ∃ m, a = split m ∧ (BRPeerManager.system env).Run (fun m event => G (split m) event) m := by
  induction h with
  | init hinit =>
    obtain ⟨w, hw, rfl⟩ := hinit
    exact ⟨{ wallet := w }, rfl, .init ⟨w, hw, rfl⟩⟩
  | step _ hguard hstep ih =>
    obtain ⟨m, rfl, hrun⟩ := ih
    obtain ⟨fuel, hstep⟩ := hstep
    rw [handle_split] at hstep
    obtain ⟨m', hm', rfl⟩ := Option.map_eq_some_iff.1 hstep
    exact ⟨m', rfl, .step hrun hguard ⟨fuel, hm'⟩⟩

theorem split_get {m : BRPeerManager} {i : ℕ} {e : Ptr × Option ℕ}
    (h : (split m).publishedTx[i]? = some e) : ∃ d ∈ m.publishedTx, d.tx = e.1 ∧
      (split m).publishedTxHashes[i]? = some d.txHash := by
  have hget : (m.publishedTx.map fun e => (e.tx, e.callback))[i]? = some e := h
  rw [List.getElem?_map, Option.map_eq_some_iff] at hget
  obtain ⟨d, hd, rfl⟩ := hget
  refine ⟨d, List.mem_of_getElem? hd, rfl, ?_⟩
  show (m.publishedTx.map PublishedTx.txHash)[i]? = _
  rw [List.getElem?_map, hd, Option.map_some]

/-- In every run the arrays have one length, no hash occurs twice, and a transaction that was not
    freed has the hash at its index.  If no step frees one that is published, then none was. -/
theorem run_parallel (env : Env) {G : ArrayManager → ManagerEvent → Prop} {a : ArrayManager}
    (h : (system env).Run G a) :
    (a.publishedTxHashes.length = a.publishedTx.length ∧ a.publishedTxHashes.Nodup ∧
      ∀ (i : ℕ) (e : Ptr × Option ℕ) (tx : BRTransaction), a.publishedTx[i]? = some e →
        a.rest.wallet.heap.load e.1 = some tx → a.publishedTxHashes[i]? = some tx.txHash) ∧
    ((∀ s event, G s event → s.whole.KeepsPublished event) → a.Parallel) := by
  obtain ⟨m, rfl, hrun⟩ := run_split h
  have hknown : m.Known := BRPeerManager.run_known hrun
  have hlength : (split m).publishedTxHashes.length = (split m).publishedTx.length :=
    (List.length_map _).trans (List.length_map _).symm
  have hnodup : (split m).publishedTxHashes.Nodup := by
    have hn := hknown.nodup
    rwa [List.map_map] at hn
  have hhash : ∀ (i : ℕ) (e : Ptr × Option ℕ) (tx : BRTransaction),
      (split m).publishedTx[i]? = some e → (split m).rest.wallet.heap.load e.1 = some tx →
        (split m).publishedTxHashes[i]? = some tx.txHash := by
    intro i e tx he htx
    obtain ⟨d, hd, heq, hget⟩ := split_get he
    rw [← heq] at htx
    rw [hget, hknown.hash hd htx]
  refine ⟨⟨hlength, hnodup, hhash⟩, fun hG => ⟨hlength, hnodup, ?_⟩⟩
  intro i e he
  obtain ⟨d, hd, heq, -⟩ := split_get he
  have hlasting : m.Lasting := BRPeerManager.run_lasting hrun fun s event hguard =>
    whole_split s ▸ hG _ _ hguard
  obtain ⟨tx, htx⟩ := hlasting.live d hd
  rw [heq] at htx
  exact ⟨tx, htx, hhash i e tx he htx⟩

/-- The connection of a peer that has every transaction it was asked for. -/
def syncEvents (peer : PeerAddr) : List ManagerEvent :=
  [.connect peer, .connected peer false, .getdataDone 0 peer true]

/-- A payment is published, and with it the receipt that it spends, which is not confirmed.  No
    peer relays the receipt, so it is freed once six peers are synced. -/
theorem not_run_parallel : ¬ ∀ (env : Env) (a : ArrayManager),
    (system env).Run (fun _ _ => True) a → a.Parallel := by
  intro h
  have hbad : ∃ w, BRWallet.new BRWallet.sampleEnv 100 0 ⟨[some BRWallet.receipt]⟩ [0] =
      some (some w) ∧ ∃ a, ([ManagerEvent.alloc BRWallet.spendsReceipt, .publishTx 0 true 1 true] ++
        syncEvents ⟨0, 1⟩ ++ syncEvents ⟨0, 2⟩ ++ syncEvents ⟨0, 3⟩ ++ syncEvents ⟨0, 4⟩ ++
        syncEvents ⟨0, 5⟩ ++ syncEvents ⟨0, 6⟩).foldlM (handle BRWallet.sampleEnv 100)
          { rest := { wallet := w } } = some a ∧
        a.publishedTx = [(1, some 0), (0, none)] ∧ a.rest.wallet.heap.load 0 = none :=
    ⟨_, rfl, _, rfl, rfl, by decide⟩
  obtain ⟨w, hw, a, ha, hpublished, hfreed⟩ := hbad
  have hinit : (system BRWallet.sampleEnv).init { rest := { wallet := w } } :=
    ⟨w, ⟨100, 0, _, _, hw⟩, rfl⟩
  have hrun : (system BRWallet.sampleEnv).Run (fun _ _ => True) a :=
    System.Run.foldlM (fun hstep => ⟨trivial, ⟨100, hstep⟩⟩) (.init hinit) ha
  obtain ⟨tx, htx, -⟩ := (h BRWallet.sampleEnv a hrun).hash 1 (0, none) (by rw [hpublished]; rfl)
  rw [hfreed] at htx
  cases htx

theorem run_parallel_receipt : ∃ w a,
    (BRWallet.system BRWallet.sampleEnv).init w ∧
    ({ rest := { wallet := w } } : ArrayManager).publishTx 100 0 true 0 true = some a ∧
    a.publishedTx = [(0, some 0)] ∧ a.Parallel := by
  have hgood : ∃ w, BRWallet.new BRWallet.sampleEnv 100 0 ⟨[some BRWallet.receipt]⟩ [0] =
      some (some w) ∧ ∃ a, ({ rest := { wallet := w } } : ArrayManager).publishTx 100 0 true 0
        true = some a ∧ a.publishedTx = [(0, some 0)] :=
    ⟨_, rfl, _, rfl, rfl⟩
  obtain ⟨w, hw, a, ha, hpublished⟩ := hgood
  have hwallet : (BRWallet.system BRWallet.sampleEnv).init w := ⟨100, 0, _, _, hw⟩
  have hinit : (system BRWallet.sampleEnv).init { rest := { wallet := w } } := ⟨w, hwallet, rfl⟩
  have hguard : (whole { rest := { wallet := w } }).KeepsPublished (.publishTx 0 true 0 true) := by
    intro tx _ _ e he
    cases he
  refine ⟨w, a, hwallet, ha, hpublished, ?_⟩
  have hstep : (system BRWallet.sampleEnv).step { rest := { wallet := w } }
      (.publishTx 0 true 0 true) a := ⟨100, ha⟩
  have hrun : (system BRWallet.sampleEnv).Run (fun s event => s.whole.KeepsPublished event) a :=
    .step (.init hinit) hguard hstep
  exact (run_parallel BRWallet.sampleEnv hrun).2 fun _ _ h => h

end ArrayManager

end RavenWallet
