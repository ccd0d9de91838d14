/-
  The peers that the manager is connected to (BRPeerManager.c).

  A peer is allocated when the manager connects to it, and its own thread frees it: the
  thread leaves its loop (`leave`) and then calls `_peerDisconnected`.  A handler runs
  under the lock, and has no result if it uses a peer that was freed.  Where a function
  gives the lock away in between, as `BRPeerManagerConnect` does, each part is an event
  of its own.  `running` are the peers whose threads are in their loops, and `ended`
  those whose threads have yet to call `_peerDisconnected`.

  A thread sets the status of its peer without the lock.  `BRPeerManagerConnect` reads
  the status of a peer that is connecting, and `BRPeerConnect` reads it again: the two
  reads are one step here, that is, the status is assumed not to change between them.
  A thread that left its loop in between would get a second one beside it.

  Filters, transactions and blocks are left out (but for the height of the last block),
  as are the callbacks that wait for a pong.

  * `run_pooled`: in every run the peers that are allocated are those in
    `connectedPeers`; they are few and different, one of them is the download peer if
    there is one, each has one thread at most, and no handler uses a freed one.
-/
import RavenWallet.Lib.Heap
import RavenWallet.Lib.Reach
import RavenWallet.Peer.Messages
import RavenWallet.Peer.TxManager

namespace RavenWallet

def SERVICES_NODE_BLOOM : UInt64 := 0x04

inductive BRPeerStatus where
  | Disconnected
  | Connecting
  | Connected
  deriving DecidableEq, Repr

/-- The context of a peer, as far as the manager uses it; no ping time is `DBL_MAX`. -/
structure PoolPeer where
  peer : BRPeer
  status : BRPeerStatus := .Disconnected
  waitingForNetwork : Bool := false
  socket : Bool := false
  version : UInt32 := 0
  lastblock : UInt32 := 0
  pingTime : WithTop ℕ := ⊤

/-- `BRPeerEq` -/
def peerEq (peer otherPeer : BRPeer) : Bool :=
  peer.address = otherPeer.address ∧ peer.port = otherPeer.port

/-- `_peerTimestampCompare`, for a sort. -/
def mostRecent (peer otherPeer : BRPeer) : Bool := otherPeer.timestamp ≤ peer.timestamp

/-- What a call needs from elsewhere: the random numbers, by their bound, whether there is a
    network, for which peers a thread can be created, the time, and the services that the chain's
    parameters ask for. -/
structure PoolEnv where
  rand : ℕ → ℕ
  reachable : Bool
  created : Ptr → Bool
  now : UInt64
  services : UInt64

/-- The part of `struct BRPeerManagerStruct` that has to do with connections; `lastHeight` is the
    height of the last block. -/
structure BRPeerPool where
  heap : Heap PoolPeer := .empty
  connectedPeers : List Ptr := []
  downloadPeer : Option Ptr := none
  peers : List BRPeer := []
  fixedPeer : Option BRPeer := none
  isConnected : Bool := false
  connectFailureCount : ℕ := 0
  missBehavingCount : ℕ := 0
  maxConnectCount : ℕ := PEER_MAX_CONNECTIONS
  syncStartHeight : UInt32 := 0
  estimatedHeight : UInt32 := 0
  lastHeight : UInt32
  running : List Ptr := []
  ended : List Ptr := []

namespace BRPeerPool

variable (env : PoolEnv) (m : BRPeerPool) (p : Ptr)

/-- Changes the context of a peer. -/
def update (f : PoolPeer → PoolPeer) : Option BRPeerPool :=
  (m.heap.load p).map fun x => { m with heap := m.heap.store p (f x) }

/-- `BRPeerDisconnect` -/
def peerDisconnect : Option BRPeerPool := m.update p fun x => { x with socket := false }

/-- `BRPeerConnect` -/
def peerConnect : Option BRPeerPool := do
  let x ← m.heap.load p
  if x.status = .Disconnected ∨ x.waitingForNetwork then
    if !env.reachable then
      m.update p fun x => { x with status := .Connecting, waitingForNetwork := true }
    else if env.created p then
      (m.update p fun x => { x with status := .Connecting, waitingForNetwork := false }).map
        fun m => { m with running := m.running ++ [p] }
    else m.update p fun x => { x with status := .Disconnected, waitingForNetwork := false }
  else some m

/-- The stored peers without those that are equal to `peer`. -/
def forget (peer : BRPeer) : BRPeerPool :=
  { m with peers := m.peers.filter fun other => !peerEq other peer }

/-- `_PeerManagerPeerMisbehavin` -/
def peerMisbehavin : Option BRPeerPool := do
  let x ← m.heap.load p
  let m := m.forget x.peer
  let m :=
    if m.missBehavingCount + 1 ≥ 10 then { m with missBehavingCount := 0, peers := [] }
    else { m with missBehavingCount := m.missBehavingCount + 1 }
  m.peerDisconnect p

/-- `_PeerManagerSyncStopped`; the timeout of the download peer is cancelled, also where a pending
    transaction keeps it. -/
def syncStopped : Option BRPeerPool :=
  let m := { m with syncStartHeight := 0 }
  match m.downloadPeer with
  | none => some m
  | some d => m.update d id

/-! ## Connecting -/

/-- `BRPeerManagerConnect`, up to `syncStarted`. -/
def connectStart : BRPeerPool :=
  let m := if m.connectFailureCount ≥ MAX_CONNECT_FAILURES then { m with connectFailureCount := 0 }
    else m
  if (m.downloadPeer = none ∨ m.lastHeight < m.estimatedHeight) ∧ m.syncStartHeight = 0 then
    { m with syncStartHeight := m.lastHeight + 1 }
  else m

/-- The peers that wait for the network are connected to.  The status that `peerConnect` reads is
    the one that is read here. -/
def connectWaiting : Option BRPeerPool :=
  m.connectedPeers.reverse.foldlM (fun m p => do
    let x ← m.heap.load p
    if x.status = .Connecting then m.peerConnect env p else some m) m

/-- `_PeerManagerFindPeers`, with the peers that are found. -/
def findPeers (found : List BRPeer) : BRPeerPool :=
  match m.fixedPeer with
  | some peer =>
    { m with peers := [{ peer with
        services := SERVICES_NODE_NETWORK ||| SERVICES_NODE_BLOOM ||| env.services
        timestamp := env.now }] }
  | none => { m with peers := (m.peers ++ found).mergeSort mostRecent }

/-- Whether there is a connected peer that is equal to `peer`. -/
def isListed (peer : BRPeer) : Option Bool :=
  (m.heap.loadAll m.connectedPeers).map fun xs => xs.any fun x => peerEq peer x.peer

/-- A new peer, which is connected to. -/
def connectTo (peer : BRPeer) : Option BRPeerPool :=
  let p := m.heap.fresh
  { m with
    heap := m.heap.alloc { peer }
    connectedPeers := m.connectedPeers ++ [p] }.peerConnect env p

/-- The loop of `BRPeerManagerConnect` over `n` peers to choose from. -/
def connectLoop : ℕ → List BRPeer → BRPeerPool → Option BRPeerPool
  | 0, _, m => some m
  | n + 1, peers, m =>
    if m.connectedPeers.length < m.maxConnectCount then do
      -- random peers, rather those that are more recent
      let i := env.rand peers.length % peers.length
      let i := i * i / peers.length
      let peer ← peers[i]?
      let listed ← m.isListed peer
      if listed then connectLoop n (peers.eraseIdx i) m
      else do
        let m ← m.connectTo env peer
        connectLoop n (peers.eraseIdx i) m
    else some m

/-- `BRPeerManagerConnect`, from the loop over random peers on. -/
def connectPeers : Option BRPeerPool := do
  let peers := m.peers.take 100
  let m ← connectLoop env peers.length peers m
  if m.connectedPeers = [] then m.syncStopped else some m

/-- `BRPeerManagerDisconnect`, up to where it waits. -/
def managerDisconnect : Option BRPeerPool :=
  m.connectedPeers.reverse.foldlM (fun m p =>
    { m with connectFailureCount := MAX_CONNECT_FAILURES }.peerDisconnect p) m

/-- `BRPeerManagerSetFixedPeer`, behind the call of `BRPeerManagerDisconnect`. -/
def setFixedPeer (fixedPeer : Option BRPeer) : BRPeerPool :=
  { m with
    maxConnectCount := if fixedPeer = none then PEER_MAX_CONNECTIONS else 1
    fixedPeer
    peers := [] }

/-- What `BRPeerManagerRescan` does to the connections. -/
def rescan : Option BRPeerPool :=
  if !m.isConnected then some m
  else do
    let m ← match m.downloadPeer with
      | none => some m
      | some d => do
        let x ← m.heap.load d
        (m.forget x.peer).peerDisconnect d
    some { m with syncStartHeight := 0 }

/-! ## The callbacks of a peer -/

/-- Which of two peers is to be the download peer. -/
def betterPeer (best : Ptr) (q : Ptr) : Option Ptr := do
  let y ← m.heap.load q
  let x ← m.heap.load best
  if y.status = .Connected ∧
      (y.pingTime < x.pingTime ∧ y.lastblock ≥ x.lastblock ∨ y.lastblock > x.lastblock) then some q
  else some best

/-- The download peer is disconnected, if there is one. -/
def disconnectDownload : Option BRPeerPool :=
  match m.downloadPeer with
  | none => some m
  | some d => m.peerDisconnect d

/-- The end of `_peerConnected`, where a download peer is chosen. -/
def chooseDownloadPeer : Option BRPeerPool := do
  let best ← m.connectedPeers.reverse.foldlM (betterPeer m) p
  let m ← m.disconnectDownload
  let y ← m.heap.load best
  let m := { m with downloadPeer := some best, isConnected := true, estimatedHeight := y.lastblock }
  if m.lastHeight < y.lastblock then some m
  else do
    -- `_PeerManagerLoadMempools` goes through the peers
    let _ ← m.heap.loadAll m.connectedPeers
    some { m with connectFailureCount := 0 }

/-- The peer is not behind the download peer, if there is one, or the chain is not behind the
    peer. -/
def keepsDownloadPeer (x : PoolPeer) : Option Bool :=
  match m.downloadPeer with
  | none => some false
  | some d => (m.heap.load d).map fun y => y.lastblock ≥ x.lastblock ∨ m.lastHeight ≥ x.lastblock

/-- `_peerConnected` -/
def connected : Option BRPeerPool := do
  let m ← m.update p fun x =>
    if x.peer.timestamp > env.now + 2 * 60 * 60 ∨ x.peer.timestamp < env.now - 2 * 60 * 60 then
      { x with peer := { x.peer with timestamp := env.now } }
    else x
  let x ← m.heap.load p
  if x.peer.services &&& env.services ≠ env.services then m.peerDisconnect p
  else if x.peer.services &&& SERVICES_NODE_NETWORK ≠ SERVICES_NODE_NETWORK then m.peerDisconnect p
  else if x.lastblock + 10 < m.lastHeight then m.peerDisconnect p
  else if x.version ≥ 70011 ∧ x.peer.services &&& SERVICES_NODE_BLOOM ≠ SERVICES_NODE_BLOOM then
    m.peerDisconnect p
  else do
    let keeps ← m.keepsDownloadPeer x
    if keeps then
      some (if m.lastHeight ≥ x.lastblock then { m with connectFailureCount := 0 } else m)
    else m.chooseDownloadPeer p

/-- The error of a thread, as far as it has to do with the stored peers. -/
def disconnectError (error : Option Errno) : Option BRPeerPool :=
  match error with
  | none => some m
  | some .EPROTO => m.peerMisbehavin p
  | some _ => do
    let x ← m.heap.load p
    let m := m.forget x.peer
    some { m with connectFailureCount := m.connectFailureCount + 1 }

/-- If the download peer disconnects, there is none. -/
def downloadLost : BRPeerPool :=
  if m.downloadPeer = some p then
    { m with
      isConnected := false
      downloadPeer := none
      connectFailureCount := min m.connectFailureCount MAX_CONNECT_FAILURES }
  else m

/-- After the last failure to connect the sync stops. -/
def connectFailed : Option BRPeerPool :=
  if !m.isConnected ∧ m.connectFailureCount = MAX_CONNECT_FAILURES then
    m.syncStopped.map fun m => { m with peers := [] }
  else some m

/-- `_peerDisconnected`, which the thread ends with. -/
def disconnected (error : Option Errno) : Option BRPeerPool := do
  let m ← m.disconnectError p error
  let m ← (m.downloadLost p).connectFailed
  let _ ← m.heap.load p
  some { m with
    connectedPeers := (m.connectedPeers.reverse.erase p).reverse
    heap := m.heap.free p
    ended := m.ended.erase p }

/-- `_peerRelayedPeers`, as far as the stored peers go. -/
def relayedPeers (peers : List BRPeer) : BRPeerPool :=
  let peers := ((m.peers ++ peers).mergeSort mostRecent).take 2500
  -- those that are more than three hours old, until there are 1000
  let old := ((peers.drop 1000).reverse.takeWhile fun peer =>
    peer.timestamp + 3 * 60 * 60 < env.now).length
  { m with peers := peers.take (peers.length - old) }

end BRPeerPool

/-! ## Runs -/

/-- What happens to the connections: calls of the client, and what the threads do. -/
inductive PoolEvent where
  | connectStart
  | connectWaiting
  | findPeers (found : List BRPeer)
  | connectPeers
  | disconnect
  | setFixedPeer (fixedPeer : Option BRPeer)
  | rescan
  | lastBlock (height : UInt32)
  /-- The socket of the thread's peer is connected. -/
  | opened (p : Ptr)
  /-- `_PeerDidConnect`, with what the peer has told. -/
  | handshake (p : Ptr) (services timestamp : UInt64) (version lastblock : UInt32) (pingTime : ℕ)
  | connected (p : Ptr)
  | misbehavin (p : Ptr)
  | relayedPeers (p : Ptr) (peers : List BRPeer)
  /-- The thread leaves its loop. -/
  | leave (p : Ptr)
  | disconnected (p : Ptr) (error : Option Errno)

namespace BRPeerPool

/-- What a thread does, it does for the peer that is its own. -/
def Enabled (m : BRPeerPool) : PoolEvent → Prop
  | .opened p | .handshake p .. | .connected p | .misbehavin p | .relayedPeers p _ | .leave p =>
    p ∈ m.running
  | .disconnected p _ => p ∈ m.ended
  | _ => True

instance (m : BRPeerPool) : (event : PoolEvent) → Decidable (m.Enabled event)
  | .opened p | .handshake p .. | .connected p | .misbehavin p | .relayedPeers p _ | .leave p =>
    inferInstanceAs (Decidable (p ∈ m.running))
  | .disconnected p _ => inferInstanceAs (Decidable (p ∈ m.ended))
  | .connectStart | .connectWaiting | .findPeers _ | .connectPeers | .disconnect | .setFixedPeer _
  | .rescan | .lastBlock _ => isTrue trivial

def handle (m : BRPeerPool) : PoolEnv × PoolEvent → Option BRPeerPool
  | (_, .connectStart) => some m.connectStart
  | (env, .connectWaiting) => m.connectWaiting env
  | (env, .findPeers found) => some (m.findPeers env found)
  | (env, .connectPeers) => m.connectPeers env
  | (_, .disconnect) => m.managerDisconnect
  | (_, .setFixedPeer fixedPeer) => some (m.setFixedPeer fixedPeer)
  | (_, .rescan) => m.rescan
  | (_, .lastBlock height) => some { m with lastHeight := height }
  | (_, .opened p) => m.update p fun x => { x with socket := true }
  | (_, .handshake p services timestamp version lastblock pingTime) =>
    m.update p fun x => { x with
      status := .Connected, version, lastblock, pingTime
      peer := { x.peer with services, timestamp } }
  | (env, .connected p) => m.connected env p
  | (_, .misbehavin p) => m.peerMisbehavin p
  | (env, .relayedPeers _ peers) => some (m.relayedPeers env peers)
  | (_, .leave p) =>
    (m.update p fun x => { x with socket := false, status := .Disconnected }).map fun m =>
      { m with running := m.running.erase p, ended := m.ended ++ [p] }
  | (_, .disconnected p error) => m.disconnected p error

/-- What the handler of an enabled event does. -/
def exec (m : BRPeerPool) (event : PoolEnv × PoolEvent) : Option BRPeerPool :=
  if m.Enabled event.2 then m.handle event else none

/-- The manager, from `BRPeerManagerNew` on. -/
def system : System BRPeerPool (PoolEnv × PoolEvent) where
  init m := ∃ peers lastHeight, m = { peers, lastHeight }
  step m event m' := m.Enabled event.2 ∧ m.handle event = some m'

end BRPeerPool

namespace BRPeerPool

variable {env : PoolEnv} {m m' : BRPeerPool} {p q : Ptr} {x y : PoolPeer}

theorem peerEq_comm (peer otherPeer : BRPeer) : peerEq peer otherPeer = peerEq otherPeer peer := by
  simp only [peerEq, eq_comm]

/-! ## The invariant -/

/-- What the thread of a peer has to do with its status. -/
structure Phase (running ended : List Ptr) (p : Ptr) (x : PoolPeer) : Prop where
  running : p ∈ running → x.status ≠ .Disconnected ∧ x.waitingForNetwork = false
  ended : p ∈ ended → x.status = .Disconnected ∧ x.waitingForNetwork = false

/-- The peers that are allocated are the connected ones, which are few and different; the download
    peer is one of them, and each has one thread at most. -/
structure Pooled (m : BRPeerPool) : Prop where
  nodup : m.connectedPeers.Nodup
  live : ∀ p, m.heap.Live p ↔ p ∈ m.connectedPeers
  apart : ∀ {p q x y}, m.heap.load p = some x → m.heap.load q = some y →
    peerEq x.peer y.peer = true → p = q
  room : m.connectedPeers.length ≤ PEER_MAX_CONNECTIONS
  max : m.maxConnectCount ≤ PEER_MAX_CONNECTIONS
  download : ∀ d, m.downloadPeer = some d → d ∈ m.connectedPeers
  isConnected : m.isConnected = m.downloadPeer.isSome
  threads : (m.running ++ m.ended).Nodup
  owned : ∀ p ∈ m.running ++ m.ended, p ∈ m.connectedPeers
  phase : ∀ {p x}, m.heap.load p = some x → Phase m.running m.ended p x

/-- The peers and their threads are the same; counters and stored peers may differ. -/
structure Same (m m' : BRPeerPool) : Prop where
  heap : m'.heap = m.heap
  connectedPeers : m'.connectedPeers = m.connectedPeers
  downloadPeer : m'.downloadPeer = m.downloadPeer
  isConnected : m'.isConnected = m.isConnected
  maxConnectCount : m'.maxConnectCount = m.maxConnectCount
  running : m'.running = m.running
  ended : m'.ended = m.ended

theorem Pooled.congr (h : m.Pooled) (hs : Same m m') : m'.Pooled := by
  obtain ⟨hheap, hconnected, hdownload, his, hmax, hrunning, hended⟩ := hs
  constructor
  · rw [hconnected]
    exact h.nodup
  · rw [hheap, hconnected]
    exact h.live
  · rw [hheap]
    exact h.apart
  · rw [hconnected]
    exact h.room
  · rw [hmax]
    exact h.max
  · rw [hdownload, hconnected]
    exact h.download
  · rw [his, hdownload]
    exact h.isConnected
  · rw [hrunning, hended]
    exact h.threads
  · rw [hrunning, hended, hconnected]
    exact h.owned
  · rw [hheap, hrunning, hended]
    exact h.phase

theorem Pooled.load (h : m.Pooled) (hp : p ∈ m.connectedPeers) : ∃ x, m.heap.load p = some x :=
  (h.live p).2 hp

/-- A peer is written, and threads start or leave their loops. -/
theorem Pooled.set (h : m.Pooled) (hx : m.heap.load p = some x) {x' : PoolPeer}
    (hpeer : x'.peer.address = x.peer.address ∧ x'.peer.port = x.peer.port)
    {running ended : List Ptr} (hthreads : (running ++ ended).Nodup)
    (howned : ∀ q ∈ running ++ ended, q ∈ m.connectedPeers) (hphase : Phase running ended p x')
    (hothers : ∀ q, q ≠ p → (q ∈ running → q ∈ m.running) ∧ (q ∈ ended → q ∈ m.ended)) :
    { m with heap := m.heap.store p x', running, ended }.Pooled := by
  have hload {q : Ptr} {y : PoolPeer} (hy : (m.heap.store p x').load q = some y) :
      ∃ z, m.heap.load q = some z ∧ y.peer.address = z.peer.address ∧ y.peer.port = z.peer.port ∧
        Phase running ended q y := by
    by_cases hq : q = p
    · subst hq
      rw [Heap.load_store_self x' hx] at hy
      cases hy
      exact ⟨x, hx, hpeer.1, hpeer.2, hphase⟩
    · rw [Heap.load_store_ne _ x' (Ne.symm hq)] at hy
      obtain ⟨hrunning, hended⟩ := hothers q hq
      exact ⟨y, hy, rfl, rfl, fun hmem => (h.phase hy).running (hrunning hmem),
        fun hmem => (h.phase hy).ended (hended hmem)⟩
  refine ⟨h.nodup, fun q => ?_, ?_, h.room, h.max, h.download, h.isConnected, hthreads, howned, ?_⟩
  · rw [← h.live q]
    constructor
    · rintro ⟨y, hy⟩
      obtain ⟨z, hz, -⟩ := hload hy
      exact ⟨z, hz⟩
    · intro hq
      exact hq.store x' hx
  · intro q r y z hy hz heq
    obtain ⟨y', hy', hyaddress, hyport, -⟩ := hload hy
    obtain ⟨z', hz', hzaddress, hzport, -⟩ := hload hz
    rw [peerEq, hyaddress, hyport, hzaddress, hzport] at heq
    exact h.apart hy' hz' heq
  · intro q y hy
    obtain ⟨-, -, -, -, hphase⟩ := hload hy
    exact hphase

/-- What `update` does, if it keeps the peer's address and its phase. -/
theorem Pooled.update (h : m.Pooled) (hp : p ∈ m.connectedPeers) {f : PoolPeer → PoolPeer}
    (hpeer : ∀ x, (f x).peer.address = x.peer.address ∧ (f x).peer.port = x.peer.port)
    (hphase : ∀ x, Phase m.running m.ended p x → Phase m.running m.ended p (f x)) :
    ∃ heap, m.update p f = some { m with heap } ∧ { m with heap }.Pooled := by
  obtain ⟨x, hx⟩ := h.load hp
  refine ⟨m.heap.store p (f x), by rw [BRPeerPool.update, hx]; rfl, ?_⟩
  exact h.set hx (hpeer x) h.threads h.owned (hphase x (h.phase hx))
    fun q _ => ⟨id, id⟩

theorem Pooled.peerDisconnect (h : m.Pooled) (hp : p ∈ m.connectedPeers) :
    ∃ heap, m.peerDisconnect p = some { m with heap } ∧ { m with heap }.Pooled :=
  h.update hp (fun _ => ⟨rfl, rfl⟩) fun _ hphase => ⟨hphase.running, hphase.ended⟩

theorem Pooled.syncStopped (h : m.Pooled) :
    ∃ heap, m.syncStopped = some { m with heap, syncStartHeight := 0 } ∧
      { m with heap, syncStartHeight := 0 }.Pooled := by
  have h0 : { m with syncStartHeight := 0 }.Pooled := h.congr ⟨rfl, rfl, rfl, rfl, rfl, rfl, rfl⟩
  unfold BRPeerPool.syncStopped
  dsimp only
  split
  · exact ⟨m.heap, rfl, h0⟩
  · next d hdownload =>
    obtain ⟨heap, hupdate, hpooled⟩ := h0.update (h.download d hdownload) (f := id)
      (fun _ => ⟨rfl, rfl⟩) fun _ hphase => hphase
    exact ⟨heap, hupdate, hpooled⟩

/-- A peer is connected to, unless it has a thread. -/
theorem Pooled.peerConnect (h : m.Pooled) (env : PoolEnv) (hx : m.heap.load p = some x)
    (hfree : x.status = .Disconnected ∨ x.waitingForNetwork = true →
      p ∉ m.running ∧ p ∉ m.ended) :
    ∃ heap running, m.peerConnect env p = some { m with heap, running } ∧
      { m with heap, running }.Pooled := by
  have hp : p ∈ m.connectedPeers := (h.live p).1 ⟨x, hx⟩
  unfold BRPeerPool.peerConnect BRPeerPool.update
  rw [hx]
  simp only [Option.bind_eq_bind, Option.bind_some, Option.map_some]
  split_ifs with hstart hreachable hcreated
  · obtain ⟨hrunning, hended⟩ := hfree hstart
    refine ⟨_, m.running, rfl, ?_⟩
    refine h.set hx ?_ h.threads h.owned ?_ fun q _ => ⟨id, id⟩
    · exact ⟨rfl, rfl⟩
    · exact ⟨fun hmem => absurd hmem hrunning, fun hmem => absurd hmem hended⟩
  · obtain ⟨hrunning, hended⟩ := hfree hstart
    refine ⟨_, m.running ++ [p], rfl, ?_⟩
    have hmem : p ∉ m.running ++ m.ended := by simp [hrunning, hended]
    refine h.set hx ?_ ?_ (fun q hq => ?_) ?_ fun q hq => ⟨fun hmem => ?_, id⟩
    · exact ⟨rfl, rfl⟩
    · rw [List.append_assoc, List.singleton_append]
      exact List.nodup_middle.2 (List.nodup_cons.2 ⟨hmem, h.threads⟩)
    · simp only [List.mem_append, List.mem_singleton] at hq
      rcases hq with (hq | rfl) | hq
      · exact h.owned q (List.mem_append_left _ hq)
      · exact hp
      · exact h.owned q (List.mem_append_right _ hq)
    · exact ⟨fun _ => by simp, fun hmem => absurd hmem hended⟩
    · simpa [hq] using hmem
  · obtain ⟨hrunning, hended⟩ := hfree hstart
    refine ⟨_, m.running, rfl, ?_⟩
    refine h.set hx ?_ h.threads h.owned ?_ fun q _ => ⟨id, id⟩
    · exact ⟨rfl, rfl⟩
    · exact ⟨fun hmem => absurd hmem hrunning, fun hmem => absurd hmem hended⟩
  · exact ⟨m.heap, m.running, rfl, h⟩

/-! ## Peers that come and go -/

/-- A peer that is not listed is allocated. -/
theorem Pooled.alloc (h : m.Pooled) (hroom : m.connectedPeers.length < PEER_MAX_CONNECTIONS)
    {peer : BRPeer} (hnew : ∀ {q y}, m.heap.load q = some y → peerEq peer y.peer = false) :
    { m with
      heap := m.heap.alloc { peer }
      connectedPeers := m.connectedPeers ++ [m.heap.fresh] }.Pooled := by
  have hfresh : m.heap.fresh ∉ m.connectedPeers := by
    intro hmem
    obtain ⟨x, hx⟩ := h.load hmem
    exact Nat.lt_irrefl _ (Heap.load_lt hx)
  refine ⟨?_, fun q => ?_, ?_, ?_, h.max, fun d hd => ?_, h.isConnected, h.threads,
    fun q hq => List.mem_append_left _ (h.owned q hq), ?_⟩
  · exact List.nodup_append.2 ⟨h.nodup, List.nodup_singleton _, fun a ha b hb => by
      rw [List.mem_singleton.1 hb]
      exact fun heq => hfresh (heq ▸ ha)⟩
  · rw [List.mem_append, List.mem_singleton, ← h.live q]
    constructor
    · rintro ⟨y, hy⟩
      rcases Heap.load_alloc_some hy with ⟨rfl, -⟩ | hy
      · exact Or.inr rfl
      · exact Or.inl ⟨y, hy⟩
    · rintro (hq | rfl)
      · exact hq.alloc _
      · exact ⟨_, Heap.load_alloc_fresh _ _⟩
  · intro q r y z hy hz heq
    rcases Heap.load_alloc_some hy with ⟨rfl, rfl⟩ | hy <;>
      rcases Heap.load_alloc_some hz with ⟨rfl, rfl⟩ | hz
    · rfl
    · rw [hnew hz] at heq
      cases heq
    · rw [peerEq_comm, hnew hy] at heq
      cases heq
    · exact h.apart hy hz heq
  · rw [List.length_append, List.length_singleton]
    exact hroom
  · exact List.mem_append_left _ (h.download d hd)
  · intro q y hy
    rcases Heap.load_alloc_some hy with ⟨rfl, rfl⟩ | hy
    · exact ⟨fun hmem => absurd (h.owned _ (List.mem_append_left _ hmem)) hfresh,
        fun hmem => absurd (h.owned _ (List.mem_append_right _ hmem)) hfresh⟩
    · exact h.phase hy

theorem isListed_eq (h : m.Pooled) (peer : BRPeer) :
    ∃ listed, m.isListed peer = some listed ∧
      (listed = false → ∀ {q y}, m.heap.load q = some y → peerEq peer y.peer = false) := by
  obtain ⟨xs, hxs⟩ := Heap.loadAll_isSome fun q hq => (h.live q).2 hq
  refine ⟨_, by rw [isListed, hxs]; rfl, fun hlisted q y hy => ?_⟩
  obtain ⟨z, hz, hqz⟩ := Heap.loadAll_mem hxs ((h.live q).1 ⟨y, hy⟩)
  rw [hqz] at hy
  rw [Option.some.inj hy] at hz
  simpa using List.any_eq_false.1 hlisted y hz

theorem Pooled.connectTo (h : m.Pooled) (env : PoolEnv)
    (hroom : m.connectedPeers.length < PEER_MAX_CONNECTIONS)
    {peer : BRPeer} (hnew : ∀ {q y}, m.heap.load q = some y → peerEq peer y.peer = false) :
    ∃ m', m.connectTo env peer = some m' ∧ m'.Pooled ∧
      m'.maxConnectCount = m.maxConnectCount := by
  have hfresh : m.heap.fresh ∉ m.running ++ m.ended := by
    intro hmem
    obtain ⟨x, hx⟩ := h.load (h.owned _ hmem)
    exact Nat.lt_irrefl _ (Heap.load_lt hx)
  rw [List.mem_append, not_or] at hfresh
  obtain ⟨heap, running, hconnect, hpooled⟩ :=
    (h.alloc hroom hnew).peerConnect env (Heap.load_alloc_fresh _ _) fun _ => hfresh
  exact ⟨_, hconnect, hpooled, rfl⟩

theorem Pooled.connectLoop {n : ℕ} (h : m.Pooled) (env : PoolEnv) (peers : List BRPeer)
    (hn : n = peers.length) :
    ∃ m', connectLoop env n peers m = some m' ∧ m'.Pooled := by
  induction n generalizing peers m with
  | zero => exact ⟨m, rfl, h⟩
  | succ n ih =>
    unfold BRPeerPool.connectLoop
    split_ifs with hroom
    · have hroom := hroom.trans_le h.max
      -- the square of a number below the bound
      have hi : (env.rand peers.length % peers.length) * (env.rand peers.length % peers.length) /
          peers.length < peers.length := by
        have hlt := Nat.mod_lt (env.rand peers.length) (y := peers.length) (by omega)
        exact Nat.div_lt_of_lt_mul (Nat.mul_lt_mul'' hlt hlt)
      obtain ⟨listed, hlisted, hnew⟩ := isListed_eq h (peers.get ⟨_, hi⟩)
      have herase := List.length_eraseIdx_add_one hi
      dsimp only
      rw [List.getElem?_eq_getElem hi, Option.bind_eq_bind, Option.bind_some]
      rw [List.get_eq_getElem] at hlisted hnew
      rw [hlisted, Option.bind_eq_bind, Option.bind_some]
      cases listed with
      | true => exact ih h _ (by omega)
      | false =>
        obtain ⟨m₁, hconnect, hpooled, -⟩ := h.connectTo env hroom (hnew rfl)
        rw [if_neg (by simp), hconnect, Option.bind_eq_bind, Option.bind_some]
        exact ih hpooled _ (by omega)
    · exact ⟨m, rfl, h⟩

/-- A thread frees its peer, which is not the download peer any more. -/
theorem Pooled.free (h : m.Pooled) (hp : p ∈ m.ended) (hd : m.downloadPeer ≠ some p) :
    { m with
      connectedPeers := (m.connectedPeers.reverse.erase p).reverse
      heap := m.heap.free p
      ended := m.ended.erase p }.Pooled := by
  have hmem (q : Ptr) : q ∈ (m.connectedPeers.reverse.erase p).reverse ↔
      q ≠ p ∧ q ∈ m.connectedPeers := by
    rw [List.mem_reverse, (List.nodup_reverse.2 h.nodup).mem_erase_iff, List.mem_reverse]
  obtain ⟨hrunning, hended, hapart⟩ := List.nodup_append.1 h.threads
  have hsub : (m.running ++ m.ended.erase p).Sublist (m.running ++ m.ended) :=
    List.Sublist.append_left List.erase_sublist _
  have hthread (q : Ptr) (hq : q ∈ m.running ++ m.ended.erase p) : q ≠ p := by
    rcases List.mem_append.1 hq with hq | hq
    · exact fun heq => hapart q hq p hp heq
    · exact ((hended.mem_erase_iff).1 hq).1
  refine ⟨?_, fun q => ?_, ?_, ?_, h.max, fun d hdownload => ?_, h.isConnected,
    h.threads.sublist hsub, fun q hq => ?_, ?_⟩
  · rw [List.nodup_reverse]
    exact (List.nodup_reverse.2 h.nodup).erase p
  · rw [hmem, ← h.live q]
    constructor
    · rintro ⟨y, hy⟩
      obtain ⟨hne, hy⟩ := Heap.load_free_some hy
      exact ⟨Ne.symm hne, y, hy⟩
    · rintro ⟨hne, y, hy⟩
      exact ⟨y, (Heap.load_free_ne _ (Ne.symm hne)).trans hy⟩
  · intro q r y z hy hz heq
    exact h.apart (Heap.load_free_some hy).2 (Heap.load_free_some hz).2 heq
  · have hle : (m.connectedPeers.reverse.erase p).length ≤ m.connectedPeers.length := by
      simpa using (List.erase_sublist (a := p) (l := m.connectedPeers.reverse)).length_le
    rw [List.length_reverse]
    exact hle.trans h.room
  · refine (hmem d).2 ⟨fun heq => hd (heq ▸ hdownload), h.download d hdownload⟩
  · exact (hmem q).2 ⟨hthread q hq, h.owned q (hsub.subset hq)⟩
  · intro q y hy
    have hphase := h.phase (Heap.load_free_some hy).2
    exact ⟨hphase.running, fun hq => hphase.ended (List.mem_of_mem_erase hq)⟩

/-! ## The events -/

theorem Pooled.connectStart (h : m.Pooled) : m.connectStart.Pooled := by
  unfold BRPeerPool.connectStart
  dsimp only
  split_ifs <;> exact h.congr ⟨rfl, rfl, rfl, rfl, rfl, rfl, rfl⟩

theorem Pooled.findPeers (h : m.Pooled) (found : List BRPeer) : (m.findPeers env found).Pooled := by
  unfold BRPeerPool.findPeers
  split <;> exact h.congr ⟨rfl, rfl, rfl, rfl, rfl, rfl, rfl⟩

theorem Pooled.setFixedPeer (h : m.Pooled) (fixedPeer : Option BRPeer) :
    (m.setFixedPeer fixedPeer).Pooled := by
  refine ⟨h.nodup, h.live, h.apart, h.room, ?_, h.download, h.isConnected, h.threads, h.owned,
    h.phase⟩
  unfold BRPeerPool.setFixedPeer
  dsimp only
  split_ifs <;> decide

/-- A loop over the connected peers, which stay the same. -/
theorem Pooled.forall_connected (h : m.Pooled) {f : BRPeerPool → Ptr → Option BRPeerPool}
    (hf : ∀ {m₁ p}, BRPeerPool.Pooled m₁ → p ∈ m₁.connectedPeers →
      ∃ m₂, f m₁ p = some m₂ ∧ m₂.Pooled ∧ m₂.connectedPeers = m₁.connectedPeers) :
    ∃ m', m.connectedPeers.reverse.foldlM f m = some m' ∧ m'.Pooled := by
  obtain ⟨m', hm', hpooled, -⟩ := foldlM_isSome (f := f) (l := m.connectedPeers.reverse)
    (P := fun _ m₁ => m₁.Pooled ∧ m₁.connectedPeers = m.connectedPeers)
    (fun {_ p m₁} hp ⟨hpooled, hconnected⟩ => by
      obtain ⟨m₂, hm₂, hpooled, hconnected₂⟩ := hf hpooled (hconnected ▸ List.mem_reverse.1 hp)
      exact ⟨m₂, hm₂, hpooled, hconnected₂.trans hconnected⟩) ⟨h, rfl⟩
  exact ⟨m', hm', hpooled⟩

/-- Only peers that wait for the network are connected to again. -/
theorem Pooled.connectWaiting (h : m.Pooled) :
    ∃ m', m.connectWaiting env = some m' ∧ m'.Pooled := by
  refine h.forall_connected fun {m p} h hp => ?_
  obtain ⟨x, hx⟩ := h.load hp
  rw [hx, Option.bind_eq_bind, Option.bind_some]
  split_ifs with hstatus
  · have hphase := h.phase hx
    obtain ⟨heap, running, hconnect, hpooled⟩ := h.peerConnect env hx fun hwaits => by
      refine ⟨fun hmem => ?_, fun hmem => ?_⟩
      · obtain ⟨hne, hwaiting⟩ := hphase.running hmem
        rcases hwaits with heq | heq
        · exact hne heq
        · rw [hwaiting] at heq
          cases heq
      · rw [(hphase.ended hmem).1] at hstatus
        cases hstatus
    exact ⟨_, hconnect, hpooled, rfl⟩
  · exact ⟨m, rfl, h, rfl⟩

theorem Pooled.connectPeers (h : m.Pooled) : ∃ m', m.connectPeers env = some m' ∧ m'.Pooled := by
  obtain ⟨m₁, hloop, hpooled⟩ := h.connectLoop env (m.peers.take 100) rfl
  unfold BRPeerPool.connectPeers
  dsimp only
  rw [hloop, Option.bind_eq_bind, Option.bind_some]
  split_ifs
  · obtain ⟨heap, hstopped, hpooled⟩ := hpooled.syncStopped
    exact ⟨_, hstopped, hpooled⟩
  · exact ⟨m₁, rfl, hpooled⟩

theorem Pooled.managerDisconnect (h : m.Pooled) :
    ∃ m', m.managerDisconnect = some m' ∧ m'.Pooled := by
  refine h.forall_connected fun {m p} h hp => ?_
  have hfailures : { m with connectFailureCount := MAX_CONNECT_FAILURES }.Pooled :=
    h.congr ⟨rfl, rfl, rfl, rfl, rfl, rfl, rfl⟩
  obtain ⟨heap, hdisconnect, hpooled⟩ := hfailures.peerDisconnect hp
  exact ⟨_, hdisconnect, hpooled, rfl⟩

theorem Pooled.rescan (h : m.Pooled) : ∃ m', m.rescan = some m' ∧ m'.Pooled := by
  unfold BRPeerPool.rescan
  split
  · exact ⟨m, rfl, h⟩
  · split
    · exact ⟨_, rfl, h.congr ⟨rfl, rfl, rfl, rfl, rfl, rfl, rfl⟩⟩
    · next d hdownload =>
      have hd := h.download d hdownload
      obtain ⟨x, hx⟩ := h.load hd
      have hforget : (m.forget x.peer).Pooled := h.congr ⟨rfl, rfl, rfl, rfl, rfl, rfl, rfl⟩
      obtain ⟨heap, hdisconnect, hpooled⟩ := hforget.peerDisconnect hd
      simp only [hx, Option.bind_eq_bind, Option.bind_some, hdisconnect]
      exact ⟨_, rfl, hpooled.congr ⟨rfl, rfl, rfl, rfl, rfl, rfl, rfl⟩⟩

theorem Pooled.peerMisbehavin (h : m.Pooled) (hp : p ∈ m.connectedPeers) :
    ∃ heap peers missBehavingCount,
      m.peerMisbehavin p = some { m with heap, peers, missBehavingCount } ∧
        { m with heap, peers, missBehavingCount }.Pooled := by
  obtain ⟨x, hx⟩ := h.load hp
  unfold BRPeerPool.peerMisbehavin
  dsimp only
  rw [hx, Option.bind_eq_bind, Option.bind_some]
  split
  · have hm : { m.forget x.peer with missBehavingCount := 0, peers := [] }.Pooled :=
      h.congr ⟨rfl, rfl, rfl, rfl, rfl, rfl, rfl⟩
    obtain ⟨heap, hdisconnect, hpooled⟩ := hm.peerDisconnect hp
    exact ⟨heap, _, _, hdisconnect, hpooled⟩
  · have hm : { m.forget x.peer with
        missBehavingCount := (m.forget x.peer).missBehavingCount + 1 }.Pooled :=
      h.congr ⟨rfl, rfl, rfl, rfl, rfl, rfl, rfl⟩
    obtain ⟨heap, hdisconnect, hpooled⟩ := hm.peerDisconnect hp
    exact ⟨heap, _, _, hdisconnect, hpooled⟩

/-- Another peer becomes the download peer, or none. -/
theorem Pooled.setDownload (h : m.Pooled) (download : Option Ptr)
    (hdownload : ∀ d, download = some d → d ∈ m.connectedPeers) :
    { m with downloadPeer := download, isConnected := download.isSome }.Pooled :=
  ⟨h.nodup, h.live, h.apart, h.room, h.max, hdownload, rfl, h.threads, h.owned, h.phase⟩

theorem Pooled.betterPeers (h : m.Pooled) (hp : p ∈ m.connectedPeers) :
    ∃ best, m.connectedPeers.reverse.foldlM (betterPeer m) p = some best ∧
      best ∈ m.connectedPeers := by
  refine foldlM_isSome (P := fun _ best => best ∈ m.connectedPeers) (fun {_ q best} hq hbest => ?_)
    hp
  have hq := List.mem_reverse.1 hq
  obtain ⟨y, hy⟩ := h.load hq
  obtain ⟨x, hx⟩ := h.load hbest
  unfold betterPeer
  simp only [hy, hx, Option.bind_eq_bind, Option.bind_some]
  split_ifs
  · exact ⟨q, rfl, hq⟩
  · exact ⟨best, rfl, hbest⟩

theorem Pooled.disconnectDownload (h : m.Pooled) :
    ∃ heap, m.disconnectDownload = some { m with heap } ∧ { m with heap }.Pooled := by
  unfold BRPeerPool.disconnectDownload
  split
  · exact ⟨m.heap, rfl, h⟩
  · next d hdownload => exact h.peerDisconnect (h.download d hdownload)

theorem Pooled.chooseDownloadPeer (h : m.Pooled) (hp : p ∈ m.connectedPeers) :
    ∃ m', m.chooseDownloadPeer p = some m' ∧ m'.Pooled := by
  obtain ⟨best, hbetter, hbest⟩ := h.betterPeers hp
  unfold BRPeerPool.chooseDownloadPeer
  rw [hbetter, Option.bind_eq_bind, Option.bind_some]
  obtain ⟨heap, hold, hpooled⟩ := h.disconnectDownload
  rw [hold, Option.bind_eq_bind, Option.bind_some]
  obtain ⟨y, hy⟩ := hpooled.load hbest
  rw [hy, Option.bind_eq_bind, Option.bind_some]
  have hchosen := hpooled.setDownload (some best) fun d hd => Option.some.inj hd ▸ hbest
  dsimp only
  split_ifs
  · exact ⟨_, rfl, hchosen.congr ⟨rfl, rfl, rfl, rfl, rfl, rfl, rfl⟩⟩
  · obtain ⟨xs, hxs⟩ := Heap.loadAll_isSome fun q hq => (hpooled.live q).2 hq
    rw [hxs, Option.bind_eq_bind, Option.bind_some]
    exact ⟨_, rfl, hchosen.congr ⟨rfl, rfl, rfl, rfl, rfl, rfl, rfl⟩⟩

theorem Pooled.keepsDownloadPeer (h : m.Pooled) (x : PoolPeer) :
    ∃ keeps, m.keepsDownloadPeer x = some keeps := by
  unfold BRPeerPool.keepsDownloadPeer
  split
  · exact ⟨false, rfl⟩
  · next d hdownload =>
    obtain ⟨y, hy⟩ := h.load (h.download d hdownload)
    rw [hy]
    exact ⟨_, rfl⟩

theorem Pooled.connected (h : m.Pooled) (hp : p ∈ m.connectedPeers) :
    ∃ m', m.connected env p = some m' ∧ m'.Pooled := by
  have hdisconnects {m : BRPeerPool} (h : m.Pooled) (hp : p ∈ m.connectedPeers) :
      ∃ m', m.peerDisconnect p = some m' ∧ m'.Pooled := by
    obtain ⟨heap, hdisconnect, hpooled⟩ := h.peerDisconnect hp
    exact ⟨_, hdisconnect, hpooled⟩
  obtain ⟨heap, htime, hpooled⟩ := h.update hp (f := fun x =>
      if x.peer.timestamp > env.now + 2 * 60 * 60 ∨ x.peer.timestamp < env.now - 2 * 60 * 60 then
        { x with peer := { x.peer with timestamp := env.now } }
      else x)
    (fun x => by dsimp only; split_ifs <;> exact ⟨rfl, rfl⟩)
    fun x hphase => by
      dsimp only
      split_ifs
      · exact ⟨hphase.running, hphase.ended⟩
      · exact hphase
  unfold BRPeerPool.connected
  rw [htime, Option.bind_eq_bind, Option.bind_some]
  obtain ⟨x, hx⟩ := hpooled.load hp
  rw [hx, Option.bind_eq_bind, Option.bind_some]
  split
  · exact hdisconnects hpooled hp
  split
  · exact hdisconnects hpooled hp
  split
  · exact hdisconnects hpooled hp
  split
  · exact hdisconnects hpooled hp
  obtain ⟨keeps, hkeeps⟩ := hpooled.keepsDownloadPeer x
  rw [hkeeps, Option.bind_eq_bind, Option.bind_some]
  cases keeps with
  | false => exact hpooled.chooseDownloadPeer hp
  | true =>
    rw [if_pos rfl]
    refine ⟨_, rfl, ?_⟩
    split_ifs
    · exact hpooled.congr ⟨rfl, rfl, rfl, rfl, rfl, rfl, rfl⟩
    · exact hpooled

theorem Pooled.disconnectError (h : m.Pooled) (hp : p ∈ m.connectedPeers) (error : Option Errno) :
    ∃ m', m.disconnectError p error = some m' ∧ m'.Pooled ∧ m'.ended = m.ended := by
  unfold BRPeerPool.disconnectError
  split
  · exact ⟨m, rfl, h, rfl⟩
  · obtain ⟨heap, peers, missBehavingCount, hmisbehavin, hpooled⟩ := h.peerMisbehavin hp
    exact ⟨_, hmisbehavin, hpooled, rfl⟩
  · obtain ⟨x, hx⟩ := h.load hp
    rw [hx]
    exact ⟨_, rfl, h.congr ⟨rfl, rfl, rfl, rfl, rfl, rfl, rfl⟩, rfl⟩

theorem Pooled.downloadLost (h : m.Pooled) (p : Ptr) :
    (m.downloadLost p).Pooled ∧ (m.downloadLost p).ended = m.ended ∧
      (m.downloadLost p).downloadPeer ≠ some p := by
  unfold BRPeerPool.downloadLost
  split_ifs with hdownload
  · have hnone := h.setDownload none (by simp)
    exact ⟨hnone.congr ⟨rfl, rfl, rfl, rfl, rfl, rfl, rfl⟩, rfl, by simp⟩
  · exact ⟨h, rfl, hdownload⟩

theorem Pooled.connectFailed (h : m.Pooled) :
    ∃ m', m.connectFailed = some m' ∧ m'.Pooled ∧ m'.ended = m.ended ∧
      m'.downloadPeer = m.downloadPeer := by
  unfold BRPeerPool.connectFailed
  split_ifs
  · obtain ⟨heap, hstopped, hpooled⟩ := h.syncStopped
    rw [hstopped]
    exact ⟨_, rfl, hpooled.congr ⟨rfl, rfl, rfl, rfl, rfl, rfl, rfl⟩, rfl, rfl⟩
  · exact ⟨m, rfl, h, rfl, rfl⟩

theorem Pooled.disconnected (h : m.Pooled) (hp : p ∈ m.ended) (error : Option Errno) :
    ∃ m', m.disconnected p error = some m' ∧ m'.Pooled := by
  obtain ⟨m₁, herror, h₁, hended₁⟩ :=
    h.disconnectError (h.owned p (List.mem_append_right _ hp)) error
  obtain ⟨h₂, hended₂, hdownload₂⟩ := h₁.downloadLost p
  obtain ⟨m₃, hfailed, h₃, hended₃, hdownload₃⟩ := h₂.connectFailed
  unfold BRPeerPool.disconnected
  rw [herror, Option.bind_eq_bind, Option.bind_some, hfailed, Option.bind_eq_bind, Option.bind_some]
  have hp₃ : p ∈ m₃.ended := by rwa [hended₃, hended₂, hended₁]
  obtain ⟨x, hx⟩ := h₃.load (h₃.owned p (List.mem_append_right _ hp₃))
  rw [hx, Option.bind_some]
  exact ⟨_, rfl, h₃.free hp₃ (hdownload₃ ▸ hdownload₂)⟩

/-- The thread leaves its loop, and its peer is `Disconnected`. -/
theorem Pooled.leave (h : m.Pooled) (hp : p ∈ m.running) :
    ∃ heap, m.update p (fun x => { x with socket := false, status := .Disconnected }) =
        some { m with heap } ∧
      { m with heap, running := m.running.erase p, ended := m.ended ++ [p] }.Pooled := by
  obtain ⟨x, hx⟩ := h.load (h.owned p (List.mem_append_left _ hp))
  refine ⟨_, by rw [BRPeerPool.update, hx]; rfl, ?_⟩
  have hperm : (m.running.erase p ++ (m.ended ++ [p])).Perm (m.running ++ m.ended) := by
    rw [← List.append_assoc]
    refine List.perm_append_comm.trans ?_
    rw [List.singleton_append, ← List.cons_append]
    exact (List.perm_cons_erase hp).symm.append_right _
  have hgone : p ∉ m.running.erase p := by
    have hnodup := (List.nodup_append.1 h.threads).1
    exact fun hmem => (hnodup.mem_erase_iff.1 hmem).1 rfl
  refine h.set hx ?_ (hperm.nodup_iff.2 h.threads) (fun q hq => h.owned q (hperm.subset hq)) ?_ ?_
  · exact ⟨rfl, rfl⟩
  · exact ⟨fun hmem => absurd hmem hgone, fun _ =>
      ⟨rfl, ((h.phase hx).running hp).2⟩⟩
  · intro q hq
    refine ⟨List.mem_of_mem_erase, fun hmem => ?_⟩
    simpa [hq] using hmem

/-- An event that can happen does, and keeps the invariant. -/
theorem Pooled.handle (h : m.Pooled) (env : PoolEnv) {event : PoolEvent} (he : m.Enabled event) :
    ∃ m', m.handle (env, event) = some m' ∧ m'.Pooled := by
  have hthread {p : Ptr} (hp : p ∈ m.running) : p ∈ m.connectedPeers :=
    h.owned p (List.mem_append_left _ hp)
  cases event with
  | connectStart => exact ⟨_, rfl, h.connectStart⟩
  | connectWaiting => exact h.connectWaiting
  | findPeers found => exact ⟨_, rfl, h.findPeers found⟩
  | connectPeers => exact h.connectPeers
  | disconnect => exact h.managerDisconnect
  | setFixedPeer fixedPeer => exact ⟨_, rfl, h.setFixedPeer fixedPeer⟩
  | rescan => exact h.rescan
  | lastBlock height => exact ⟨_, rfl, h.congr ⟨rfl, rfl, rfl, rfl, rfl, rfl, rfl⟩⟩
  | opened p =>
    obtain ⟨heap, hupdate, hpooled⟩ := h.update (hthread he)
      (f := fun x => { x with socket := true }) (fun _ => ⟨rfl, rfl⟩)
      fun _ hphase => ⟨hphase.running, hphase.ended⟩
    exact ⟨_, hupdate, hpooled⟩
  | handshake p services timestamp version lastblock pingTime =>
    have hnot : p ∉ m.ended := fun hmem => (List.nodup_append.1 h.threads).2.2 p he p hmem rfl
    obtain ⟨heap, hupdate, hpooled⟩ := h.update (hthread he)
      (f := fun x => { x with
        status := .Connected, version, lastblock, pingTime
        peer := { x.peer with services, timestamp } }) (fun _ => ⟨rfl, rfl⟩)
      fun _ hphase => ⟨fun hmem => ⟨by simp, (hphase.running hmem).2⟩,
        fun hmem => absurd hmem hnot⟩
    exact ⟨_, hupdate, hpooled⟩
  | connected p => exact h.connected (hthread he)
  | misbehavin p =>
    obtain ⟨heap, peers, missBehavingCount, hmisbehavin, hpooled⟩ := h.peerMisbehavin (hthread he)
    exact ⟨_, hmisbehavin, hpooled⟩
  | relayedPeers p peers => exact ⟨_, rfl, h.congr ⟨rfl, rfl, rfl, rfl, rfl, rfl, rfl⟩⟩
  | leave p =>
    obtain ⟨heap, hupdate, hpooled⟩ := h.leave he
    exact ⟨_, by rw [BRPeerPool.handle, hupdate]; rfl, hpooled⟩
  | disconnected p error => exact h.disconnected he error

theorem pooled_init {m : BRPeerPool} (h : system.init m) : m.Pooled := by
  obtain ⟨peers, lastHeight, rfl⟩ := h
  have hload (p : Ptr) : (Heap.empty : Heap PoolPeer).load p = none := rfl
  refine ⟨List.nodup_nil, fun p => ?_, ?_, Nat.zero_le _, Nat.le_refl _, by simp, rfl,
    List.nodup_nil, by simp, ?_⟩
  · simp [Heap.Live, hload]
  · intro p q x y hx
    simp [hload] at hx
  · intro p x hx
    simp [hload] at hx

theorem exec_step {m m' : BRPeerPool} {event : PoolEnv × PoolEvent} (h : m.exec event = some m') :
    system.step m event m' := by
  unfold exec at h
  split_ifs at h with henabled
  exact ⟨henabled, h⟩

theorem run_pooled {m : BRPeerPool} (h : system.Run (fun _ _ => True) m) :
    m.Pooled ∧ ∀ env event, m.Enabled event → (m.handle (env, event)).isSome := by
  have hpooled : m.Pooled := h.invariant (J := fun _ => True) (fun _ => trivial) pooled_init
    fun {m event m'} _ hpooled _ hstep _ => by
      obtain ⟨henabled, hhandle⟩ := hstep
      obtain ⟨m₁, hm₁, h₁⟩ := hpooled.handle event.1 henabled
      rw [Option.some.inj (hhandle.symm.trans hm₁)]
      exact h₁
  refine ⟨hpooled, fun env event he => ?_⟩
  obtain ⟨m', hm', -⟩ := hpooled.handle env he
  rw [hm']
  rfl

/-- With a network, for which every peer gets a thread. -/
def sampleEnv : PoolEnv where
  rand _ := 1
  reachable := true
  created _ := true
  now := 1000000
  services := 0

def samplePeer (address : Bytes) : BRPeer where
  address
  port := 8767
  services := 5
  timestamp := 1000000

def samplePool : BRPeerPool where
  peers := [samplePeer [1], samplePeer [2], samplePeer [1]]
  lastHeight := 7

/-- Two peers are connected to, one twice in the list; the download peer is lost. -/
theorem run_pooled_lost : ∃ m : BRPeerPool, m.connectedPeers = [1] ∧ m.running = [1] ∧
    m.downloadPeer = none ∧
    m.Pooled ∧ ∀ env event, m.Enabled event → (m.handle (env, event)).isSome := by
  have hrun : ((List.map (fun event => (sampleEnv, event)) [.connectStart, .connectPeers, .opened 0,
      .handshake 0 5 1000000 70028 9 30, .connected 0, .leave 0,
      .disconnected 0 (some .EPROTO)]).foldlM exec samplePool).any (fun m =>
        m.connectedPeers = [1] ∧ m.running = [1] ∧ m.downloadPeer = none) = true := by
    decide +kernel
  simp only [Option.any_eq_true, decide_eq_true_eq] at hrun
  obtain ⟨m, hm, hconnected, hrunning, hdownload⟩ := hrun
  exact ⟨m, hconnected, hrunning, hdownload,
    run_pooled (System.Run.foldlM (fun h => ⟨trivial, exec_step h⟩) (.init ⟨_, _, rfl⟩) hm)⟩

end BRPeerPool

end RavenWallet
