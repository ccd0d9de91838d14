/-
  Transactions in the peer manager (BRPeerManager.c).

  The lists of published transactions, of the peers that relay one and of those
  it was requested from, the wallet, and the handlers that change them.  A
  handler runs under the lock, and invokes its callback at its end.  It has no
  result if it reads a freed transaction.

  The pings, timeouts and messages to the peers are left out, as is the list of
  peers to connect to.  A peer is compared by its address and port, and a callback
  with its info is a number.
-/
import RavenWallet.Lib.SetMap
import RavenWallet.Wallet.Runs

namespace RavenWallet

/-! ## The state -/

/-- What `BRPeerEq` compares of a `BRPeer`. -/
structure PeerAddr where
  address : BitVec 128
  port : UInt16
  deriving DecidableEq, Repr

/-- A peer in `connectedPeers`: whether its status is connected, and whether
    `PEER_FLAG_SYNCED` is set. -/
structure ConnectedPeer where
  peer : PeerAddr
  connected : Bool := false
  synced : Bool := false
  deriving DecidableEq, Repr

/-- The peers that are listed for a transaction. -/
abbrev TxPeerList := UInt256 × List PeerAddr

/-- An element of `publishedTx`, with that of `publishedTxHashes`; the callback is `none` if it is
    `NULL`. -/
structure PublishedTx where
  tx : Ptr
  txHash : UInt256
  callback : Option ℕ
  deriving DecidableEq, Repr

/-- The errors that a peer is disconnected with, or that callbacks get. -/
inductive Errno where
  | EPROTO | ETIMEDOUT | ENOTCONN | EINVAL | other
  deriving DecidableEq, Repr

def PEER_MAX_CONNECTIONS : ℕ := 6
def MAX_CONNECT_FAILURES : ℕ := 20

/-- The part of `struct BRPeerManagerStruct` that the handlers of transactions use.  `issued` counts
    the callbacks that were passed to `BRPeerManagerPublishTx`, which are numbered by it, and `calls`
    are those that were invoked. -/
structure BRPeerManager where
  wallet : BRWallet
  isConnected : Bool := false
  connectFailureCount : ℕ := 0
  maxConnectCount : ℕ := PEER_MAX_CONNECTIONS
  downloadPeer : Option PeerAddr := none
  connectedPeers : List ConnectedPeer := []
  syncStartHeight : UInt32 := 0
  txRelays : List TxPeerList := []
  txRequests : List TxPeerList := []
  publishedTx : List PublishedTx := []
  issued : ℕ := 0
  calls : List (ℕ × Option Errno) := []

/-! ## Lists of peers -/

section
variable (list : List TxPeerList) (txHash : UInt256) (peer : PeerAddr)

/-- `_TxPeerListHasPeer`. -/
def txPeerListHasPeer : Bool := SetMap.has list txHash peer

/-- `_TxPeerListCount`. -/
def txPeerListCount : ℕ := SetMap.count list txHash

/-- `_TxPeerListAddPeer`. -/
def txPeerListAddPeer : List TxPeerList × ℕ := SetMap.add list txHash peer

/-- `_TxPeerListRemovePeer`. -/
def txPeerListRemovePeer : List TxPeerList × Bool := SetMap.remove list txHash peer

end

namespace BRPeerManager

variable (m : BRPeerManager)

def setHeap (heap : Heap BRTransaction) : BRPeerManager :=
  { m with wallet := { m.wallet with heap } }

/-- Invokes a callback, if it is not `NULL`. -/
def call (callback : Option ℕ) (error : Option Errno) : BRPeerManager :=
  match callback with
  | none => m
  | some k => { m with calls := m.calls ++ [(k, error)] }

def timestamp (now : ℤ) : UInt32 := UInt32.ofNat now.toNat

/-! ## Published transactions -/

/-- `BRTransactionEq`: the hashes are read if the pointers differ. -/
def txEq (heap : Heap BRTransaction) (p q : Ptr) : Option Bool :=
  if p = q then some true
  else do
    let tx ← heap.load p
    let t ← heap.load q
    some (decide (tx.txHash = t.txHash))

/-- `_PeerManagerAddTxToPublishList`; the recursion through the inputs is at most as deep as the
    first argument. -/
def addTxToPublishList : ℕ → BRPeerManager → Ptr → Option ℕ → Option BRPeerManager
  | 0, _, _, _ => none
  | depth + 1, m, p, callback => do
    let tx ← m.wallet.heap.load p
    if tx.blockHeight ≠ TX_UNCONFIRMED then some m
    else if ← m.publishedTx.reverse.anyM fun e => txEq m.wallet.heap e.tx p then some m
    else
      let m := { m with publishedTx := m.publishedTx ++ [⟨p, tx.txHash, callback⟩] }
      tx.inputs.foldlM (fun m i =>
        match m.wallet.allTx.lookup i.txHash with
        | none => some m
        | some q => addTxToPublishList depth m q none) m

/-- The loop of `_PeerManagerUpdateTx` over the published transactions, the last one first: those
    with the hash are taken out, and freed unless they are in the wallet. -/
def unpublish (w : BRWallet) (txHash : UInt256) :
    List PublishedTx → Heap BRTransaction → Option (List PublishedTx × Heap BRTransaction)
  | [], heap => some ([], heap)
  | e :: es, heap => do
    let (es, heap) ← unpublish w txHash es heap
    let tx ← heap.load e.tx
    if tx.txHash ≠ txHash then some (e :: es, heap)
    else some (es, if (w.allTx.lookup tx.txHash).isSome then heap else heap.free e.tx)

/-- A confirmed transaction is no longer published or relayed. -/
def confirm (m : BRPeerManager) (txHash : UInt256) : Option BRPeerManager := do
  let (publishedTx, heap) ← unpublish m.wallet txHash m.publishedTx m.wallet.heap
  some { m.setHeap heap with publishedTx, txRelays := SetMap.drop m.txRelays txHash }

/-- `_PeerManagerUpdateTx`. -/
def updateTx (now : ℤ) (txHashes : List UInt256) (blockHeight timestamp : UInt32) :
    Option BRPeerManager := do
  let m ← (if blockHeight ≠ TX_UNCONFIRMED then txHashes.foldlM confirm m else some m)
  let wallet ← m.wallet.updateTransactions now txHashes blockHeight timestamp
  some { m with wallet }

/-- The loop variables of `_peerRelayedTx` and `_peerHasTx`. -/
structure Taking where
  publishedTx : List PublishedTx := []
  callback : Option ℕ := none
  txRelays : List TxPeerList
  relayCount : ℕ := 0

/-- The loop of `_peerRelayedTx` and `_peerHasTx` over the published transactions, the last one
    first: the callback of the transaction is taken, and the peer relays it. -/
def takeCallback (txHash : UInt256) (peer : PeerAddr) : List PublishedTx → Taking → Taking
  | [], s => s
  | e :: es, s =>
    let s := takeCallback txHash peer es s
    if e.txHash = txHash then
      let (txRelays, relayCount) := txPeerListAddPeer s.txRelays txHash peer
      { publishedTx := { e with callback := none } :: s.publishedTx, callback := e.callback
        txRelays, relayCount }
    else { s with publishedTx := e :: s.publishedTx }

def taken (txHash : UInt256) (peer : PeerAddr) : BRPeerManager × Option ℕ × ℕ :=
  let s := takeCallback txHash peer m.publishedTx { txRelays := m.txRelays }
  ({ m with publishedTx := s.publishedTx, txRelays := s.txRelays }, s.callback, s.relayCount)

/-- Keeps track of the peers that relay a transaction, once syncing is complete; also their number. -/
def trackRelay (txHash : UInt256) (peer : PeerAddr) (relayCount : ℕ) : BRPeerManager × ℕ :=
  if m.syncStartHeight = 0 then
    ({ m with txRelays := (txPeerListAddPeer m.txRelays txHash peer).1 },
      (txPeerListAddPeer m.txRelays txHash peer).2)
  else (m, relayCount)

/-- Sets the timestamp of a transaction that enough peers relay. -/
def verify (now : ℤ) (p : Ptr) (relayCount : ℕ) : Option BRPeerManager :=
  if relayCount < m.maxConnectCount then some m
  else do
    let tx ← m.wallet.heap.load p
    if tx.blockHeight = TX_UNCONFIRMED ∧ tx.timestamp = 0 then
      m.updateTx now [tx.txHash] TX_UNCONFIRMED (timestamp now)
    else some m

/-! ## Handlers -/

section
variable (env : Env) (fuel : ℕ) (now : ℤ) (peer : PeerAddr)

/-- What `_peerRelayedTx` does with a wallet transaction; also the number of peers that relay it. -/
def relayWalletTx (p : Ptr) (relayCount : ℕ) : Option (BRPeerManager × ℕ) := do
  let tx ← m.wallet.heap.load p
  let isSend ← (if m.wallet.amountSentByTx tx > 0 then m.wallet.transactionIsValid fuel tx
    else some false)
  -- a valid send is added to the mempool
  let m ← (if isSend then addTxToPublishList fuel m p none else some m)
  let r := m.trackRelay tx.txHash peer relayCount
  some ({ r.1 with txRequests := (txPeerListRemovePeer m.txRequests tx.txHash peer).1 }, r.2)

/-- `_peerRelayedTx`; the peer has allocated the transaction at `p`. -/
def relayedTx (p : Ptr) : Option BRPeerManager := do
  let tx ← m.wallet.heap.load p
  let (m, callback, relayCount) := m.taken tx.txHash peer
  if m.syncStartHeight = 0 ∨ m.wallet.containsTx tx then do
    let (wallet, isWalletTx) ← m.wallet.registerTransaction env fuel now p
    let m := { m with wallet }
    let m ← (if isWalletTx then
        (wallet.allTx.lookup tx.txHash).elim (some m) fun q => do
          let (m, relayCount) ← m.relayWalletTx fuel peer q relayCount
          m.verify now q relayCount
      else m.verify now p relayCount)
    some (m.call callback none)
  else some ((m.setHeap (m.wallet.heap.free p)).call callback none)

/-- `_peerHasTx`. -/
def hasTx (txHash : UInt256) : Option BRPeerManager := do
  let published := (m.publishedTx.reverse.find? fun e => e.txHash = txHash).map PublishedTx.tx
  let tx := (m.wallet.allTx.lookup txHash).or published
  let (m, callback, relayCount) := m.taken txHash peer
  match tx with
  | none => some (m.call callback none)
  | some p => do
    let (wallet, isWalletTx) ← m.wallet.registerTransaction env fuel now p
    let tx ← wallet.heap.load p
    let p := if isWalletTx then wallet.allTx.lookup tx.txHash else some p
    let r := { m with wallet }.trackRelay txHash peer relayCount
    let m ← p.elim (some r.1) fun p => r.1.verify now p r.2
    let txRequests := (txPeerListRemovePeer m.txRequests txHash peer).1
    some ({ m with txRequests }.call callback none)

/-- `_peerRejectedTx`. -/
def rejectedTx (txHash : UInt256) : Option BRPeerManager :=
  let m := { m with txRequests := (txPeerListRemovePeer m.txRequests txHash peer).1 }
  match m.wallet.allTx.lookup txHash with
  | none => some m
  | some p => do
    let (txRelays, found) := txPeerListRemovePeer m.txRelays txHash peer
    let m := { m with txRelays }
    let tx ← m.wallet.heap.load p
    if found ∧ tx.blockHeight = TX_UNCONFIRMED then m.updateTx now [txHash] TX_UNCONFIRMED 0
    else some m

/-- `_peerDataNotfound`. -/
def dataNotfound (txHashes : List UInt256) : BRPeerManager :=
  txHashes.foldl (fun m txHash =>
    { m with txRelays := (txPeerListRemovePeer m.txRelays txHash peer).1
             txRequests := (txPeerListRemovePeer m.txRequests txHash peer).1 }) m

/-- The loop variables of `_peerRequestedTx`. -/
structure Requesting where
  publishedTx : List PublishedTx := []
  heap : Heap BRTransaction
  tx : Option Ptr := none
  callback : Option ℕ := none
  error : Option Errno := none

/-- The loop of `_peerRequestedTx` over the published transactions, the last one first: the callback
    is taken, and an invalid transaction is taken out. -/
def request (w : BRWallet) (txHash : UInt256) :
    List PublishedTx → Requesting → Option Requesting
  | [], s => some s
  | e :: es, s => do
    let s ← request w txHash es s
    if e.txHash ≠ txHash then some { s with publishedTx := e :: s.publishedTx }
    else do
      let tx ← s.heap.load e.tx
      let valid ← { w with heap := s.heap }.transactionIsValid fuel tx
      if valid then
        some { s with publishedTx := { e with callback := none } :: s.publishedTx, tx := some e.tx
                      callback := e.callback }
      else if (w.allTx.lookup txHash).isSome then
        some { s with tx := some e.tx, callback := e.callback, error := some .EINVAL }
      else
        some { s with heap := s.heap.free e.tx, tx := none, callback := e.callback
                      error := some .EINVAL }

/-- `_peerRequestedTx`. -/
def requestedTx (txHash : UInt256) : Option BRPeerManager := do
  let s ← request fuel m.wallet txHash m.publishedTx { heap := m.wallet.heap }
  let m := { m.setHeap s.heap with publishedTx := s.publishedTx }
  match s.tx, s.error with
  | some p, none => do
    let txRelays := (txPeerListAddPeer m.txRelays txHash peer).1
    let (wallet, _) ← m.wallet.registerTransaction env fuel now p
    some ({ m with txRelays, wallet }.call s.callback none)
  | _, error => some (m.call s.callback error)

/-- The loop of `_peerDisconnected` over the published transactions, the last one first: those with
    a callback are freed. -/
def cancel : List PublishedTx → Heap BRTransaction →
    Option (List PublishedTx × List ℕ × Heap BRTransaction)
  | [], heap => some ([], [], heap)
  | e :: es, heap => do
    let (es, callbacks, heap) ← cancel es heap
    match e.callback with
    | none => some (e :: es, callbacks, heap)
    | some k => do
      let _ ← heap.load e.tx
      some (es, callbacks ++ [k], heap.free e.tx)

/-- `_peerDisconnected`. -/
def disconnected (error : Option Errno) : Option BRPeerManager := do
  let failed := error ≠ none ∧ error ≠ some .EPROTO
  let timedOut := error = some .ETIMEDOUT ∧ (m.downloadPeer ≠ some peer ∨ m.syncStartHeight = 0 ∨
    m.connectedPeers.length = 1)
  let failures := if failed then m.connectFailureCount + 1 else m.connectFailureCount
  let m := { m with txRelays := SetMap.removeAll m.txRelays peer
                    connectFailureCount := failures }
  let m := if m.downloadPeer = some peer then
    { m with isConnected := false, downloadPeer := none
             connectFailureCount := min m.connectFailureCount MAX_CONNECT_FAILURES } else m
  let syncFailed := m.isConnected = false ∧ m.connectFailureCount = MAX_CONNECT_FAILURES
  let m := if syncFailed then { m with syncStartHeight := 0 } else m
  let txError := if syncFailed then some Errno.ENOTCONN
    else if timedOut then some Errno.ETIMEDOUT else none
  let connectedPeers := m.connectedPeers.filter fun p => p.peer ≠ peer
  match txError with
  | none => some { m with connectedPeers }
  | some txError => do
    let (publishedTx, callbacks, heap) ← cancel m.publishedTx m.wallet.heap
    some { m.setHeap heap with
      publishedTx, connectedPeers
      calls := m.calls ++ callbacks.map fun k => (k, some txError) }

/-- A callback that is passed gets a number. -/
def issue (hasCallback : Bool) : BRPeerManager × Option ℕ :=
  if hasCallback then ({ m with issued := m.issued + 1 }, some m.issued) else (m, none)

/-- `BRPeerManagerPublishTx` with or without a callback, when the network is reachable or not. -/
def publishTx (reachable : Bool) (p : Ptr) (hasCallback : Bool) : Option BRPeerManager := do
  let tx ← m.wallet.heap.load p
  let (m, callback) := m.issue hasCallback
  if !tx.isSigned then some ((m.setHeap (m.wallet.heap.free p)).call callback (some .EINVAL))
  else if m.isConnected = false ∧
      (m.connectFailureCount ≥ MAX_CONNECT_FAILURES ∨ reachable = false) then
    some ((m.setHeap (m.wallet.heap.free p)).call callback (some .ENOTCONN))
  else
    let m := m.setHeap (m.wallet.heap.store p (tx.setBlock tx.blockHeight (timestamp now)))
    addTxToPublishList fuel m p callback

/-- Sets `PEER_FLAG_SYNCED` of a peer that has answered the requests for all transactions. -/
def markSynced (m : BRPeerManager) (peer : PeerAddr) (success : Bool) : BRPeerManager :=
  { m with connectedPeers := m.connectedPeers.map fun p =>
      if success ∧ p.peer = peer then { p with synced := true } else p }

/-- The loop of `_PeerManagerRequestUnrelayedTx` for an unconfirmed transaction, with the number of
    those that are requested. -/
def requestTx (r : BRPeerManager × ℕ) (p : Ptr) : Option (BRPeerManager × ℕ) := do
  let tx ← r.1.wallet.heap.load p
  if txPeerListHasPeer r.1.txRelays tx.txHash peer ∨ txPeerListHasPeer r.1.txRequests tx.txHash peer
  then some r
  else some ({ r.1 with
    txRequests := (txPeerListAddPeer r.1.txRequests tx.txHash peer).1 }, r.2 + 1)

/-- `_PeerManagerRequestUnrelayedTx`. -/
def requestUnrelayedTx : Option BRPeerManager := do
  let ps ← m.wallet.txUnconfirmedBefore m.wallet.transactions.length TX_UNCONFIRMED
  let r ← ps.foldlM (requestTx peer) (m, 0)
  -- the flag of a peer that transactions are requested from is set once it has answered
  if r.2 > 0 then some r.1 else some (r.1.markSynced peer true)

/-- `_mempoolDone`. -/
def mempoolDone : Option BRPeerManager := { m with syncStartHeight := 0 }.requestUnrelayedTx peer

/-- The number of peers that are connected, zero if one of all is not synced. -/
def syncedCount : ℕ :=
  if m.connectedPeers.all ConnectedPeer.synced then
    (m.connectedPeers.filter ConnectedPeer.connected).length
  else 0

/-- The loop of `_requestUnrelayedTxGetdataDone` for an unconfirmed transaction. -/
def dropUnrelayed (m : BRPeerManager) (p : Ptr) : Option BRPeerManager := do
  let isPublishing ← m.publishedTx.reverse.anyM fun e => do
    let eq ← txEq m.wallet.heap e.tx p
    some (eq && e.callback.isSome)
  if isPublishing then some m
  else do
    let tx ← m.wallet.heap.load p
    if txPeerListCount m.txRelays tx.txHash = 0 ∧ txPeerListCount m.txRequests tx.txHash = 0 then do
      let wallet ← BRWallet.removeTransaction now fuel m.wallet tx.txHash
      some { m with wallet }
    else if txPeerListCount m.txRelays tx.txHash < m.maxConnectCount then
      m.updateTx now [tx.txHash] TX_UNCONFIRMED 0
    else some m

/-- `_requestUnrelayedTxGetdataDone`. -/
def requestUnrelayedTxGetdataDone (success : Bool) : Option BRPeerManager := do
  let connectedPeers := m.connectedPeers.map fun p =>
    if success ∧ p.peer = peer then { p with synced := true } else p
  let m := { m with connectedPeers }
  if m.syncedCount < m.maxConnectCount then some m
  else do
    let ps ← m.wallet.txUnconfirmedBefore (min m.wallet.transactions.length 10000) TX_UNCONFIRMED
    ps.foldlM (dropUnrelayed fuel now) m

end

/-- Peers are added to the requests, and who is synced may change. -/
theorem requestUnrelayedTx_some {m m' : BRPeerManager} {peer : PeerAddr}
    (h : m.requestUnrelayedTx peer = some m') :
    ∃ (txHashes : List UInt256) (connectedPeers : List ConnectedPeer), m' = { m with
      connectedPeers
      txRequests := txHashes.foldl (fun list txHash => (txPeerListAddPeer list txHash peer).1)
        m.txRequests } := by
  simp only [requestUnrelayedTx, Option.bind_eq_bind, Option.bind_eq_some_iff] at h
  obtain ⟨ps, -, r, hloop, h⟩ := h
  have hadded : ∃ txHashes : List UInt256, r.1 = { m with
      txRequests := txHashes.foldl (fun list txHash => (txPeerListAddPeer list txHash peer).1)
        m.txRequests } := by
    refine foldlM_invariant (P := fun r : BRPeerManager × ℕ => ∃ txHashes : List UInt256,
      r.1 = { m with
        txRequests := txHashes.foldl (fun list txHash => (txPeerListAddPeer list txHash peer).1)
          m.txRequests }) ?_ ⟨[], rfl⟩ hloop
    rintro r p r' - ⟨txHashes, hr⟩ hstep
    obtain ⟨tx, -, hstep⟩ := Option.bind_eq_some_iff.1 hstep
    split_ifs at hstep
    · cases hstep
      exact ⟨txHashes, hr⟩
    · cases hstep
      refine ⟨txHashes ++ [tx.txHash], ?_⟩
      rw [List.foldl_concat, hr]
  obtain ⟨txHashes, hr⟩ := hadded
  rw [hr] at h
  split_ifs at h
  · exact ⟨txHashes, _, (Option.some.inj h).symm⟩
  · exact ⟨txHashes, _, (Option.some.inj h).symm⟩

/-- A round of `_requestUnrelayedTxGetdataDone` removes or marks the transaction, or does nothing. -/
theorem dropUnrelayed_cases {fuel : ℕ} {now : ℤ} {m m' : BRPeerManager} {p : Ptr}
    (h : dropUnrelayed fuel now m p = some m') :
    m' = m ∨ ∃ tx : BRTransaction,
      (∃ wallet, BRWallet.removeTransaction now fuel m.wallet tx.txHash = some wallet ∧
        m' = { m with wallet }) ∨ m.updateTx now [tx.txHash] TX_UNCONFIRMED 0 = some m' := by
  obtain ⟨isPublishing, -, h⟩ := Option.bind_eq_some_iff.1 h
  split_ifs at h
  · exact Or.inl (Option.some.inj h).symm
  · obtain ⟨tx, -, h⟩ := Option.bind_eq_some_iff.1 h
    split_ifs at h
    · obtain ⟨wallet, hremove, h⟩ := Option.bind_eq_some_iff.1 h
      exact Or.inr ⟨tx, Or.inl ⟨wallet, hremove, (Option.some.inj h).symm⟩⟩
    · exact Or.inr ⟨tx, Or.inr h⟩
    · exact Or.inl (Option.some.inj h).symm

/-! ## What the handlers keep -/

/-- A property of the wallet, of what is published, and of whether the lists of peers are maps,
    which is kept when a transaction is registered, published without a callback, or marked in the wallet
    as unconfirmed. -/
structure Preserved (env : Env) (P : BRPeerManager → Prop) : Prop where
  same {m m' : BRPeerManager} (hm : P m) (hw : m'.wallet = m.wallet)
    (hp : m'.publishedTx = m.publishedTx) (hc : m'.calls = m.calls) (hi : m'.issued = m.issued)
    (hr : SetMap.Distinct m.txRelays → SetMap.Distinct m'.txRelays)
    (hq : SetMap.Distinct m.txRequests → SetMap.Distinct m'.txRequests) : P m'
  registers {m : BRPeerManager} {fuel : ℕ} {now : ℤ} {p : Ptr} {w : BRWallet} {r : Bool} (hm : P m)
    (h : m.wallet.registerTransaction env fuel now p = some (w, r)) : P { m with wallet := w }
  publishes {m m' : BRPeerManager} {depth : ℕ} {p : Ptr} (hm : P m)
    (h : addTxToPublishList depth m p none = some m') : P m'
  updates {m m' : BRPeerManager} {now : ℤ} {txHashes : List UInt256} {t : UInt32} (hm : P m)
    (h : m.updateTx now txHashes TX_UNCONFIRMED t = some m') : P m'

namespace Preserved

variable {P : BRPeerManager → Prop} {env : Env} {fuel : ℕ} {now : ℤ} {peer : PeerAddr}
  {m m' : BRPeerManager} {p : Ptr} {txHash : UInt256} {relayCount n : ℕ}

theorem trackRelay (hP : Preserved env P) (hm : P m) (txHash : UInt256) (peer : PeerAddr)
    (relayCount : ℕ) : P (m.trackRelay txHash peer relayCount).1 := by
  rw [BRPeerManager.trackRelay]
  split_ifs
  · exact hP.same hm rfl rfl rfl rfl (fun hr => hr.add txHash peer) id
  · exact hm

theorem verify (hP : Preserved env P) (hm : P m) (h : m.verify now p relayCount = some m') :
    P m' := by
  rw [BRPeerManager.verify] at h
  split_ifs at h
  · cases h
    exact hm
  · obtain ⟨tx, -, h⟩ := Option.bind_eq_some_iff.1 h
    split_ifs at h
    · exact hP.updates hm h
    · cases h
      exact hm

theorem relayWalletTx (hP : Preserved env P) (hm : P m)
    (h : m.relayWalletTx fuel peer p relayCount = some (m', n)) : P m' := by
  simp only [BRPeerManager.relayWalletTx, Option.bind_eq_bind, Option.bind_eq_some_iff] at h
  obtain ⟨tx, -, isSend, -, m₁, h₁, h⟩ := h
  have hm₁ : P m₁ := by
    split_ifs at h₁
    · exact hP.publishes hm h₁
    · cases h₁
      exact hm
  cases h
  refine hP.same (hP.trackRelay hm₁ tx.txHash peer relayCount) rfl rfl rfl rfl id fun hq => ?_
  have hrequests : (m₁.trackRelay tx.txHash peer relayCount).1.txRequests = m₁.txRequests := by
    rw [BRPeerManager.trackRelay]
    split_ifs <;> rfl
  exact (hrequests ▸ hq).remove tx.txHash peer

/-- What is relayed is registered, or freed; then its callback is called. -/
theorem relayedTx {P : UInt256 → BRPeerManager → Prop} (hP : ∀ txHash, Preserved env (P txHash))
    (hm : ∀ txHash, P txHash (m.taken txHash peer).1)
    (h : m.relayedTx env fuel now peer p = some m') :
    ∃ txHash m₁, m' = m₁.call (m.taken txHash peer).2.1 none ∧
      (P txHash m₁ ∨ m₁ = (m.taken txHash peer).1.setHeap (m.wallet.heap.free p)) := by
  simp only [BRPeerManager.relayedTx, Option.bind_eq_bind, Option.bind_eq_some_iff] at h
  obtain ⟨tx, -, h⟩ := h
  split_ifs at h
  · simp only [Option.bind_eq_some_iff] at h
    obtain ⟨⟨w, isWalletTx⟩, hregister, m₁, h₁, h⟩ := h
    refine ⟨tx.txHash, m₁, (Option.some.inj h).symm, Or.inl ?_⟩
    have hw := (hP tx.txHash).registers (hm tx.txHash) hregister
    dsimp only at h₁
    split_ifs at h₁
    · cases hlookup : w.allTx.lookup tx.txHash with
      | none =>
        rw [hlookup] at h₁
        cases h₁
        exact hw
      | some q =>
        rw [hlookup] at h₁
        simp only [Option.elim_some, Option.bind_eq_some_iff] at h₁
        obtain ⟨⟨m₂, n⟩, h₂, h₁⟩ := h₁
        exact (hP tx.txHash).verify ((hP tx.txHash).relayWalletTx hw h₂) h₁
    · exact (hP tx.txHash).verify hw h₁
  · exact ⟨tx.txHash, _, (Option.some.inj h).symm, Or.inr rfl⟩

theorem hasTx (hP : Preserved env P) (hm : P (m.taken txHash peer).1)
    (h : m.hasTx env fuel now peer txHash = some m') :
    ∃ m₁, m' = m₁.call (m.taken txHash peer).2.1 none ∧ P m₁ := by
  simp only [BRPeerManager.hasTx] at h
  split at h
  · exact ⟨_, (Option.some.inj h).symm, hm⟩
  · simp only [Option.bind_eq_bind, Option.bind_eq_some_iff] at h
    obtain ⟨⟨w, isWalletTx⟩, hregister, tx, -, m₁, h₁, h⟩ := h
    refine ⟨_, (Option.some.inj h).symm, ?_⟩
    have hr := hP.trackRelay (hP.registers hm hregister) txHash peer (m.taken txHash peer).2.2
    have hm₁ : P m₁ := by
      dsimp only at h₁
      split_ifs at h₁
      · cases hlookup : w.allTx.lookup tx.txHash with
        | none =>
          rw [hlookup] at h₁
          cases h₁
          exact hr
        | some q =>
          rw [hlookup] at h₁
          exact hP.verify hr h₁
      · exact hP.verify hr h₁
    exact hP.same hm₁ rfl rfl rfl rfl id fun hq => hq.remove txHash peer

theorem rejectedTx (hP : Preserved env P) (hm : P m) (h : m.rejectedTx now peer txHash = some m') :
    P m' := by
  simp only [BRPeerManager.rejectedTx] at h
  split at h
  · cases h
    exact hP.same hm rfl rfl rfl rfl id fun hq => hq.remove txHash peer
  · obtain ⟨tx, -, h⟩ := Option.bind_eq_some_iff.1 h
    have hlists : P { m with
        txRequests := (txPeerListRemovePeer m.txRequests txHash peer).1
        txRelays := (txPeerListRemovePeer m.txRelays txHash peer).1 } :=
      hP.same hm rfl rfl rfl rfl (fun hr => hr.remove txHash peer) fun hq => hq.remove txHash peer
    split_ifs at h
    · exact hP.updates hlists h
    · cases h
      exact hlists

theorem dataNotfound (hP : Preserved env P) (hm : P m) (txHashes : List UInt256) :
    P (m.dataNotfound peer txHashes) := by
  rw [BRPeerManager.dataNotfound]
  induction txHashes generalizing m with
  | nil => exact hm
  | cons txHash txHashes ih =>
    refine ih (hP.same hm rfl rfl rfl rfl ?_ ?_)
    · exact fun hr => hr.remove txHash peer
    · exact fun hq => hq.remove txHash peer

theorem requestUnrelayedTx (hP : Preserved env P) (hm : P m)
    (h : m.requestUnrelayedTx peer = some m') : P m' := by
  obtain ⟨txHashes, connectedPeers, rfl⟩ := requestUnrelayedTx_some h
  refine hP.same hm rfl rfl rfl rfl id fun hq => ?_
  exact List.foldlRecOn txHashes _ hq fun list hlist txHash _ => hlist.add txHash peer

end Preserved

end BRPeerManager

/-! ## Runs -/

/-- The events of a run, with the clock and their arguments. -/
inductive ManagerEvent where
  | alloc (tx : BRTransaction)
  | connect (peer : PeerAddr)
  | connected (peer : PeerAddr) (download : Bool)
  | sync (syncStartHeight : UInt32) (connectFailureCount : ℕ)
  | publishTx (now : ℤ) (reachable : Bool) (p : Ptr) (hasCallback : Bool)
  | relayedTx (now : ℤ) (peer : PeerAddr) (tx : BRTransaction)
  | hasTx (now : ℤ) (peer : PeerAddr) (txHash : UInt256)
  | requestedTx (now : ℤ) (peer : PeerAddr) (txHash : UInt256)
  | rejectedTx (now : ℤ) (peer : PeerAddr) (txHash : UInt256)
  | dataNotfound (peer : PeerAddr) (txHashes : List UInt256)
  | disconnected (peer : PeerAddr) (error : Option Errno)
  | publishTxInvDone (peer : PeerAddr)
  | mempoolDone (peer : PeerAddr)
  | getdataDone (now : ℤ) (peer : PeerAddr) (success : Bool)
  | relayedBlock (now : ℤ) (txHashes : List UInt256) (blockHeight timestamp : UInt32)
  | setTxUnconfirmedAfter (now : ℤ) (blockHeight : UInt32)
  | updateTransactions (now : ℤ) (txHashes : List UInt256) (blockHeight timestamp : UInt32)

namespace BRPeerManager

/-- A peer that is connecting. -/
def connect (m : BRPeerManager) (peer : PeerAddr) : BRPeerManager :=
  if m.connectedPeers.any fun p => p.peer = peer then m
  else { m with connectedPeers := m.connectedPeers ++ [{ peer }] }

/-- A peer is connected, and may be the one to download from. -/
def setConnected (m : BRPeerManager) (peer : PeerAddr) (download : Bool) : BRPeerManager :=
  let connectedPeers := m.connectedPeers.map fun p =>
    if p.peer = peer then { p with connected := true } else p
  if download then { m with connectedPeers, isConnected := true, downloadPeer := some peer }
  else { m with connectedPeers }

/-- What a handler does within `fuel`.  In a reorganization `_peerRelayedBlock` marks transactions
    as unconfirmed and then sets those of each block of the new main chain in the wallet; published
    transactions are taken out for a block that extends the main chain, and not here. -/
def handle (env : Env) (fuel : ℕ) (m : BRPeerManager) : ManagerEvent → Option BRPeerManager
  | .alloc tx => some (m.setHeap (m.wallet.heap.alloc tx))
  | .connect peer => some (m.connect peer)
  | .connected peer download => some (m.setConnected peer download)
  | .sync syncStartHeight connectFailureCount => some { m with syncStartHeight, connectFailureCount }
  | .publishTx now reachable p hasCallback => m.publishTx fuel now reachable p hasCallback
  | .relayedTx now peer tx =>
    (m.setHeap (m.wallet.heap.alloc tx)).relayedTx env fuel now peer m.wallet.heap.fresh
  | .hasTx now peer txHash => m.hasTx env fuel now peer txHash
  | .requestedTx now peer txHash => m.requestedTx env fuel now peer txHash
  | .rejectedTx now peer txHash => m.rejectedTx now peer txHash
  | .dataNotfound peer txHashes => some (m.dataNotfound peer txHashes)
  | .disconnected peer error => m.disconnected peer error
  | .publishTxInvDone peer => m.requestUnrelayedTx peer
  | .mempoolDone peer => m.mempoolDone peer
  | .getdataDone now peer success => m.requestUnrelayedTxGetdataDone fuel now peer success
  | .relayedBlock now txHashes blockHeight timestamp =>
    m.updateTx now txHashes blockHeight timestamp
  | .setTxUnconfirmedAfter now blockHeight => do
    let wallet ← m.wallet.setTxUnconfirmedAfter now blockHeight
    some { m with wallet }
  | .updateTransactions now txHashes blockHeight timestamp => do
    let wallet ← m.wallet.updateTransactions now txHashes blockHeight timestamp
    some { m with wallet }

/-- An event at which published transactions are neither added nor taken out, and nothing is freed
    but by way of `verify`. -/
def Quiet : ManagerEvent → Prop
  | .connect _ | .connected .. | .sync .. | .rejectedTx .. | .dataNotfound .. | .publishTxInvDone _
  | .mempoolDone _ => True
  | _ => False

theorem Preserved.handle {P : BRPeerManager → Prop} {env : Env} {fuel : ℕ} {m m' : BRPeerManager}
    {event : ManagerEvent} (hP : Preserved env P) (hm : P m)
    (h : m.handle env fuel event = some m') (hquiet : Quiet event) : P m' := by
  cases event with
  | connect peer =>
    cases h
    rw [connect]
    split_ifs
    · exact hm
    · exact hP.same hm rfl rfl rfl rfl id id
  | connected peer download =>
    cases h
    rw [setConnected]
    split_ifs <;> exact hP.same hm rfl rfl rfl rfl id id
  | sync syncStartHeight connectFailureCount =>
    cases h
    exact hP.same hm rfl rfl rfl rfl id id
  | rejectedTx now peer txHash => exact hP.rejectedTx hm h
  | dataNotfound peer txHashes =>
    cases h
    exact hP.dataNotfound hm txHashes
  | publishTxInvDone peer => exact hP.requestUnrelayedTx hm h
  | mempoolDone peer =>
    have hsynced : P { m with syncStartHeight := 0 } := hP.same hm rfl rfl rfl rfl id id
    exact hP.requestUnrelayedTx hsynced h
  | _ => exact hquiet.elim

/-- The wallet may change as well, but nothing new is told to it. -/
def Settling : ManagerEvent → Prop
  | .getdataDone .. | .setTxUnconfirmedAfter .. | .updateTransactions .. => True
  | event => Quiet event

/-- The rule for a property that is kept by every step of the wallet. -/
theorem Preserved.handle_wallet {P : BRPeerManager → Prop} {env : Env} {fuel : ℕ}
    {m m' : BRPeerManager} {event : ManagerEvent} (hP : Preserved env P)
    (hwallet : ∀ {m : BRPeerManager} {wallet : BRWallet} (op : WalletOp), P m →
      BRWallet.step env m.wallet op wallet → P { m with wallet })
    (hm : P m) (h : m.handle env fuel event = some m') (hsettling : Settling event) : P m' := by
  cases event with
  | getdataDone now peer success =>
    simp only [BRPeerManager.handle, requestUnrelayedTxGetdataDone] at h
    have hsynced : ∀ connectedPeers, P { m with connectedPeers } := fun _ =>
      hP.same hm rfl rfl rfl rfl id id
    split_ifs at h
    · cases h
      exact hsynced _
    · obtain ⟨ps, -, h⟩ := Option.bind_eq_some_iff.1 h
      refine foldlM_invariant (P := P) (fun {p m₁ m₂} _ hm₁ hdrop => ?_) (hsynced _) h
      obtain rfl | ⟨tx, ⟨wallet, hremove, rfl⟩ | hupdate⟩ := dropUnrelayed_cases hdrop
      · exact hm₁
      · exact hwallet (.removeTransaction now tx.txHash) hm₁ ⟨fuel, hremove⟩
      · exact hP.updates hm₁ hupdate
  | setTxUnconfirmedAfter now blockHeight =>
    obtain ⟨wallet, hstep, h⟩ := Option.bind_eq_some_iff.1 h
    cases h
    exact hwallet (.setTxUnconfirmedAfter now blockHeight) hm hstep
  | updateTransactions now txHashes blockHeight timestamp =>
    obtain ⟨wallet, hstep, h⟩ := Option.bind_eq_some_iff.1 h
    cases h
    exact hwallet (.updateTransactions now txHashes blockHeight timestamp) hm hstep
  | _ => exact hP.handle hm h hsettling

/-- `BRPeerManagerNew` with a wallet that `BRWalletNew` returns, and the handlers. -/
def system (env : Env) : System BRPeerManager ManagerEvent where
  init m := ∃ wallet, (BRWallet.system env).init wallet ∧ m = { wallet }
  step m event m' := ∃ fuel, m.handle env fuel event = some m'

end BRPeerManager

end RavenWallet
