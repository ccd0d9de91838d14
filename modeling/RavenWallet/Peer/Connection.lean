/-
  The connection to a peer (BRPeer.c), from its start to the end of its thread.

  The client calls functions of the peer, and the thread takes messages, until one is
  refused or the socket fails; then the callbacks that still wait are called.
  `BRPeerContext` has what the handlers of messages use; this adds transactions and
  merkleblocks, and the queues of the callbacks.  A callback is a number, and `NULL` is
  none.

  What the client is told stays on record: `history` has the transactions and the
  merkleblocks in their order, `calls` and `mempoolCalls` have the callbacks with their
  arguments.
-/
import RavenWallet.Lib.Heap
import RavenWallet.Lib.Reach
import RavenWallet.Core.AssetScripts
import RavenWallet.Peer.Accept

namespace RavenWallet

/-- What is on record of transactions and merkleblocks: the hashes that were announced, or given
    with the mempool request, and what was relayed, a merkleblock with its number. -/
inductive PeerRecord where
  | announced (txHash : UInt256)
  | given (txHash : UInt256)
  | relayedTx (txHash : UInt256)
  | relayedBlock (number : ℕ) (block : BRMerkleBlock UInt256)

/-- A peer with its callbacks: `pongInfo` and `pongCallback` are parallel arrays.  `mempoolTime` is
    whether there is a time to wait for, and `running` whether the loop of the thread goes on.
    `pings` and `completions` have the callbacks that were passed, and `pongs` and `accepted` count
    the pongs and merkleblocks. -/
structure BRPeerConnection where
  ctx : BRPeerContext
  sentGetdata : Bool := false
  pongInfo : List Ptr := []
  pongCallback : List (Option ℕ) := []
  mempoolInfo : Ptr := 0
  mempoolCallback : Option ℕ := none
  mempoolTime : Bool := false
  running : Bool := true
  disconnected : Bool := false
  history : List PeerRecord := []
  pings : List (Ptr × Option ℕ) := []
  completions : List (Ptr × ℕ) := []
  handedOn : List (Ptr × ℕ) := []
  calls : List (ℕ × Ptr × Bool) := []
  mempoolCalls : List (ℕ × Ptr × Bool) := []
  pongs : ℕ := 0
  accepted : ℕ := 0

/-- The call of a callback, unless it is `NULL`. -/
def called (callback : Option ℕ) (info : Ptr) (success : Bool) : List (ℕ × Ptr × Bool) :=
  (callback.map fun k => (k, info, success)).toList

/-- The hash functions that blocks and transactions are read with. -/
structure ConnectionEnv where
  K : BlockHashes
  H : Hashes

/-- The types of messages; those that are not known are dropped. -/
inductive ReceivedType where
  | tx
  | merkleblock
  | other (type : MessageType)
  | unknown
  deriving DecidableEq

namespace BRPeerConnection

variable (c : BRPeerConnection)

/-! ## Calls of the client -/

/-- `_PeerAddKnownTxHashes` -/
def addKnownTxHashes (txHashes : List UInt256) : BRPeerConnection :=
  { c with ctx := { c.ctx with
      knownTxHashes := txHashes.foldl
        (fun known hash => if hash ∈ known then known else known ++ [hash]) c.ctx.knownTxHashes } }

/-- `BRPeerSendInv`: announces those of the hashes that were not known. -/
def sendInv (txHashes : List UInt256) : BRPeerConnection :=
  let c' := c.addKnownTxHashes txHashes
  { c' with
    history := c.history ++
      (c'.ctx.knownTxHashes.drop c.ctx.knownTxHashes.length).map .announced }

/-- `BRPeerSendGetdata` -/
def sendGetdata (txHashes blockHashes : List UInt256) : BRPeerConnection :=
  let count := txHashes.length + blockHashes.length
  { c with sentGetdata := c.sentGetdata || decide (0 < count ∧ count ≤ MAX_GETDATA_HASHES) }

/-- `BRPeerSendPing`; also the record of the callback. -/
def sendPing (info : Ptr) (pongCallback : Option ℕ) : BRPeerConnection :=
  { c with
    ctx := { c.ctx with pongCallback := c.ctx.pongCallback + 1 }
    pongInfo := c.pongInfo ++ [info]
    pongCallback := c.pongCallback ++ [pongCallback]
    pings := c.pings ++ [(info, pongCallback)] }

/-- `BRPeerSendMempool` -/
def sendMempool (knownTxHashes : List UInt256) (info : Ptr) (completionCallback : Option ℕ) :
    BRPeerConnection :=
  let sentMempool := c.ctx.sentMempool
  let c := { c with
    ctx := { c.ctx with sentMempool := true }
    completions := c.completions ++ (completionCallback.map fun k => (info, k)).toList }
  if !sentMempool ∧ c.mempoolCallback = none then
    let c := c.addKnownTxHashes knownTxHashes
    let c := { c with history := c.history ++ knownTxHashes.map .given }
    match completionCallback with
    | none => c
    | some k =>
      { c with
        ctx := { c.ctx with mempoolCallback := true }
        mempoolTime := true, mempoolInfo := info, mempoolCallback := some k }
  else { c with mempoolCalls := c.mempoolCalls ++ called completionCallback info false }

/-- `BRPeerSendFilterload` -/
def sendFilterload : BRPeerConnection :=
  { c with ctx := { c.ctx with sentFilter := true, sentMempool := false } }

/-- `BRPeerRerequestBlocks`, from the last block with the hash on. -/
def rerequestBlocks (fromBlock : UInt256) : BRPeerConnection :=
  let behind := (c.ctx.knownBlockHashes.reverse.takeWhile fun hash => hash ≠ fromBlock).length
  if behind < c.ctx.knownBlockHashes.length then
    let knownBlockHashes := c.ctx.knownBlockHashes.drop (c.ctx.knownBlockHashes.length - behind - 1)
    { c with ctx := { c.ctx with knownBlockHashes } }.sendGetdata [] knownBlockHashes
  else c

/-! ## The callbacks -/

/-- Takes the first callback out of the queue and calls it; no result if there is none. -/
def popPong (success : Bool) : Option BRPeerConnection :=
  match c.pongInfo, c.pongCallback with
  | info :: pongInfo, callback :: pongCallback =>
    some { c with pongInfo, pongCallback, calls := c.calls ++ called callback info success }
  | _, _ => none

/-- The mempool's callback becomes one that waits for a pong. -/
def pingMempool : BRPeerConnection :=
  let c' := c.sendPing c.mempoolInfo c.mempoolCallback
  { c' with
    ctx := { c'.ctx with mempoolCallback := false }
    mempoolCallback := none
    mempoolTime := false
    handedOn := c.handedOn ++ (c.mempoolCallback.map fun k => (c.mempoolInfo, k)).toList }

/-- A round of the loop at the end of `_peerThreadRoutine`, or what is behind it. -/
def cleanup : Option BRPeerConnection :=
  match c.pongCallback with
  | _ :: _ =>
    (c.popPong false).map fun c =>
      { c with ctx := { c.ctx with pongCallback := c.ctx.pongCallback - 1 } }
  | [] =>
    some { c with
      ctx := { c.ctx with mempoolCallback := false }
      mempoolCallback := none
      mempoolCalls := c.mempoolCalls ++ called c.mempoolCallback c.mempoolInfo false
      disconnected := true }

/-! ## Transactions and merkleblocks -/

/-- Removes the last entry with the hash. -/
def removeLast (txHash : UInt256) (txHashes : List UInt256) : List UInt256 :=
  (txHashes.reverse.erase txHash).reverse

/-- Calls `relayedBlock` with the merkleblock that was accepted last. -/
def relayBlock (block : BRMerkleBlock UInt256) : BRPeerConnection :=
  { c with history := c.history ++ [.relayedBlock c.accepted block] }

/-- The transaction is one of those that the current block waits for. -/
def collectTx (txHash : UInt256) (block : BRMerkleBlock UInt256) : BRPeerConnection :=
  let currentBlockTxHashes := removeLast txHash c.ctx.currentBlockTxHashes
  let c := { c with ctx := { c.ctx with currentBlockTxHashes } }
  if currentBlockTxHashes = [] then
    { c with ctx := { c.ctx with currentBlock := none } }.relayBlock block
  else c

/-- `_PeerAcceptTxMessage`; also whether the message is accepted. -/
def acceptTxMessage (env : ConnectionEnv) (msg : Bytes) : Option (Bool × BRPeerConnection) := do
  let tx ← BRTransaction.parse env.H msg
  match tx with
  | none => some (false, c)
  | some tx =>
    if !c.ctx.sentFilter ∧ !c.sentGetdata then some (false, c)
    else
      let c := { c with history := c.history ++ [PeerRecord.relayedTx tx.txHash] }
      match c.ctx.currentBlock with
      | none => some (true, c)
      | some block => some (true, c.collectTx tx.txHash block)

/-- The rest of `_PeerAcceptMerkleblockMessage` for a block with the given hashes. -/
def takeMerkleblock (block : BRMerkleBlock UInt256) (hashes : List UInt256) : BRPeerConnection :=
  let currentBlockTxHashes := c.ctx.currentBlockTxHashes ++
    hashes.reverse.filter fun hash => hash ∉ c.ctx.knownTxHashes
  let c := { c with
    ctx := { c.ctx with currentBlockTxHashes }
    accepted := c.accepted + 1 }
  if currentBlockTxHashes ≠ [] then { c with ctx := { c.ctx with currentBlock := some block } }
  else c.relayBlock block

/-- `_PeerAcceptMerkleblockMessage`; also whether the message is accepted. -/
def acceptMerkleblockMessage (env : ConnectionEnv) (now : UInt64) (msg : Bytes) :
    Option (Bool × BRPeerConnection) := do
  let block ← BRMerkleBlock.parse env.K msg
  match block with
  | none => some (false, c)
  | some block => do
    let valid ← block.isValid (merkleHash env.K) now.toUInt32
    if !valid then some (false, c)
    else if !c.ctx.sentFilter ∧ !c.sentGetdata then some (false, c)
    else do
      let count ← block.txHashesCount
      let hashes ← block.txHashes count
      some (true, c.takeMerkleblock block hashes)

/-! ## Messages -/

/-- What a handler hands on, as far as it changes the connection. -/
def takeEvent (c : BRPeerConnection) : PeerEvent → Option BRPeerConnection
  | .pong => (c.popPong true).map fun c => { c with pongs := c.pongs + 1 }
  | .sendPing => some c.pingMempool
  | .sendGetdata txHashes blockHashes => some (c.sendGetdata txHashes blockHashes)
  | _ => some c

/-- `_PeerAcceptMessage`; also whether the message is accepted.  The mempool's callback is gone from
    the context that a handler returns when it is handed on. -/
def acceptMessage (env : ConnectionEnv) (now : UInt64)
    (requestedTx : UInt256 → Option BRTransaction) (type : ReceivedType) (msg : Bytes) :
    Option (Bool × BRPeerConnection) :=
  if type ≠ .tx ∧ c.ctx.currentBlock.isSome then
    some (false, { c with ctx := { c.ctx with currentBlock := none, currentBlockTxHashes := [] } })
  else
    match type with
    | .tx => c.acceptTxMessage env msg
    | .merkleblock => c.acceptMerkleblockMessage env now msg
    | .other type => do
      let reply ← c.ctx.acceptMessage ⟨now, requestedTx, env.K⟩ type msg
      let c ← reply.events.foldlM takeEvent { c with ctx := reply.ctx }
      some (reply.ok, c)
    | .unknown => some (true, c)

end BRPeerConnection

/-! ## Runs -/

/-- What happens to a connection: calls of the client, messages, the end of the wait for the
    mempool, a failure of the socket, and the rounds at the end of the thread. -/
inductive ConnectionEvent where
  | sendPing (info : Ptr) (pongCallback : Option ℕ)
  | sendMempool (knownTxHashes : List UInt256) (info : Ptr) (completionCallback : Option ℕ)
  | sendInv (txHashes : List UInt256)
  | sendGetdata (txHashes blockHashes : List UInt256)
  | sendFilterload
  | sendGetaddr
  | rerequestBlocks (fromBlock : UInt256)
  | setEarliestKeyTime (earliestKeyTime : UInt32)
  | setCurrentBlockHeight (currentBlockHeight : UInt32)
  | setNeedsFilterUpdate (needsFilterUpdate : Bool)
  | message (now : UInt64) (requestedTx : UInt256 → Option BRTransaction) (type : ReceivedType)
      (msg : Bytes)
  | mempoolTime
  | error
  | cleanup

namespace BRPeerConnection

variable (c : BRPeerConnection)

/-- The thread takes messages while it is running, and cleans up behind that; the client calls
    until it is told that the peer is disconnected. -/
def Enabled : ConnectionEvent → Prop
  | .message .. | .error => c.running = true
  | .mempoolTime => c.running = true ∧ c.mempoolTime = true
  | .cleanup => c.running = false ∧ c.disconnected = false
  | _ => c.disconnected = false

instance (event : ConnectionEvent) : Decidable (c.Enabled event) := by
  cases event <;> unfold Enabled <;> infer_instance

def handle (env : ConnectionEnv) : ConnectionEvent → Option BRPeerConnection
  | .sendPing info pongCallback => some (c.sendPing info pongCallback)
  | .sendMempool knownTxHashes info completionCallback =>
    some (c.sendMempool knownTxHashes info completionCallback)
  | .sendInv txHashes => some (c.sendInv txHashes)
  | .sendGetdata txHashes blockHashes => some (c.sendGetdata txHashes blockHashes)
  | .sendFilterload => some c.sendFilterload
  | .sendGetaddr => some { c with ctx := { c.ctx with sentGetaddr := true } }
  | .rerequestBlocks fromBlock => some (c.rerequestBlocks fromBlock)
  | .setEarliestKeyTime earliestKeyTime => some { c with ctx := { c.ctx with earliestKeyTime } }
  | .setCurrentBlockHeight currentBlockHeight =>
    some { c with ctx := { c.ctx with currentBlockHeight } }
  | .setNeedsFilterUpdate needsFilterUpdate =>
    some { c with ctx := { c.ctx with needsFilterUpdate } }
  | .message now requestedTx type msg =>
    (c.acceptMessage env now requestedTx type msg).map fun (ok, c) => { c with running := ok }
  | .mempoolTime => some c.pingMempool
  | .error => some { c with running := false }
  | .cleanup => c.cleanup

/-- What the handler of an enabled event does. -/
def exec (env : ConnectionEnv) (c : BRPeerConnection) (event : ConnectionEvent) :
    Option BRPeerConnection :=
  if c.Enabled event then c.handle env event else none

/-- `BRPeerNew`, with the nonce that is chosen, and the address. -/
def new (nonce services timestamp : UInt64) : BRPeerConnection :=
  { ctx := { nonce, services, timestamp } }

/-- The connection, from its start on. -/
def system (env : ConnectionEnv) : System BRPeerConnection ConnectionEvent where
  init c := ∃ nonce services timestamp, c = new nonce services timestamp
  step c event c' := c.Enabled event ∧ c.handle env event = some c'

/-- Hash functions that hash to zeros. -/
def sampleEnv : ConnectionEnv where
  K := ⟨fun _ => List.replicate 32 0, fun _ _ _ => List.replicate 32 0,
    fun _ => List.replicate 32 0, fun _ => List.replicate 32 0⟩
  H := sampleHashes

theorem exec_step {env : ConnectionEnv} {c c' : BRPeerConnection} {event : ConnectionEvent}
    (h : c.exec env event = some c') : (system env).step c event c' := by
  unfold exec at h
  split_ifs at h with henabled
  exact ⟨henabled, h⟩

end BRPeerConnection

/-! ## What the handlers leave alone -/

/-- An event that does not call a callback, or have one wait. -/
def PeerEvent.Quiet : PeerEvent → Prop
  | .pong | .sendPing => False
  | _ => True

namespace BRPeerContext

/-- The fields that have to do with merkleblocks and with callbacks. -/
structure Same (ctx ctx' : BRPeerContext) : Prop where
  currentBlock : ctx'.currentBlock = ctx.currentBlock
  currentBlockTxHashes : ctx'.currentBlockTxHashes = ctx.currentBlockTxHashes
  knownTxHashes : ctx'.knownTxHashes = ctx.knownTxHashes
  pongCallback : ctx'.pongCallback = ctx.pongCallback
  mempoolCallback : ctx'.mempoolCallback = ctx.mempoolCallback

/-- A reply that has to do neither with merkleblocks nor with callbacks. -/
structure Quiet (ctx : BRPeerContext) (reply : Reply) : Prop where
  same : Same ctx reply.ctx
  events : ∀ event ∈ reply.events, event.Quiet

variable {E : PeerEnv} {ctx : BRPeerContext} {msg : Bytes} {reply : Reply}

theorem Quiet.of_ctx {ok : Bool} {events : List PeerEvent} (h : ∀ event ∈ events, event.Quiet) :
    Quiet ctx { ok, ctx, events } := ⟨⟨rfl, rfl, rfl, rfl, rfl⟩, h⟩

theorem refuse_quiet (h : ctx.refuse = some reply) : Quiet ctx reply := by
  cases h
  exact .of_ctx (by simp)

theorem ignore_quiet (h : ctx.ignore = some reply) : Quiet ctx reply := by
  cases h
  exact .of_ctx (by simp)

theorem acceptVersionMessage_quiet (h : ctx.acceptVersionMessage msg = some reply) :
    Quiet ctx reply := by
  unfold acceptVersionMessage at h
  split_ifs at h with hlen
  · exact refuse_quiet h
  · simp only [Option.bind_eq_bind, Option.bind_eq_some_iff] at h
    obtain ⟨version, -, services, -, timestamp, -, _, -, h⟩ := h
    split_ifs at h with hcheck hversion
    · cases h
      exact ⟨⟨rfl, rfl, rfl, rfl, rfl⟩, by simp⟩
    · cases h
      exact ⟨⟨rfl, rfl, rfl, rfl, rfl⟩, by simp⟩
    · simp only [Option.bind_eq_some_iff] at h
      obtain ⟨useragent, -, lastblock, -, h⟩ := h
      cases h
      exact ⟨⟨rfl, rfl, rfl, rfl, rfl⟩, by simp [PeerEvent.Quiet]⟩

theorem acceptVerackMessage_quiet (h : ctx.acceptVerackMessage = some reply) :
    Quiet ctx reply := by
  unfold acceptVerackMessage at h
  split_ifs at h
  · exact ignore_quiet h
  · cases h
    exact ⟨⟨rfl, rfl, rfl, rfl, rfl⟩, by simp [PeerEvent.Quiet]⟩

theorem acceptAddrMessage_quiet (h : ctx.acceptAddrMessage E msg = some reply) :
    Quiet ctx reply := by
  unfold acceptAddrMessage at h
  dsimp only at h
  split_ifs at h
  · exact refuse_quiet h
  · exact ignore_quiet h
  · obtain ⟨items, -, rfl⟩ := Option.map_eq_some_iff.1 h
    refine .of_ctx ?_
    split_ifs <;> simp [PeerEvent.Quiet]
  · exact ignore_quiet h

theorem acceptGetdataMessage_quiet (h : ctx.acceptGetdataMessage E msg = some reply) :
    Quiet ctx reply := by
  unfold acceptGetdataMessage at h
  dsimp only at h
  split_ifs at h
  · exact refuse_quiet h
  · exact ignore_quiet h
  · obtain ⟨items, -, rfl⟩ := Option.map_eq_some_iff.1 h
    refine .of_ctx fun event hevent => ?_
    rcases List.mem_append.1 hevent with hevent | hevent
    · obtain ⟨tx, -, rfl⟩ := List.mem_map.1 hevent
      trivial
    · split_ifs at hevent <;> simp at hevent
      subst hevent
      trivial

theorem acceptNotfoundMessage_quiet (h : ctx.acceptNotfoundMessage msg = some reply) :
    Quiet ctx reply := by
  unfold acceptNotfoundMessage at h
  dsimp only at h
  split_ifs at h
  · exact refuse_quiet h
  · exact ignore_quiet h
  · obtain ⟨items, -, rfl⟩ := Option.map_eq_some_iff.1 h
    exact .of_ctx (by simp [PeerEvent.Quiet])

theorem acceptPingMessage_quiet (h : ctx.acceptPingMessage msg = some reply) :
    Quiet ctx reply := by
  unfold acceptPingMessage at h
  split_ifs at h
  · exact refuse_quiet h
  · cases h
    exact .of_ctx (by simp [PeerEvent.Quiet])

theorem acceptFeeFilterMessage_quiet (h : ctx.acceptFeeFilterMessage msg = some reply) :
    Quiet ctx reply := by
  unfold acceptFeeFilterMessage at h
  split_ifs at h
  · exact refuse_quiet h
  · obtain ⟨feePerKb, -, h⟩ := Option.bind_eq_some_iff.1 h
    cases h
    exact ⟨⟨rfl, rfl, rfl, rfl, rfl⟩, by simp [PeerEvent.Quiet]⟩

theorem acceptRejectMessage_quiet (h : ctx.acceptRejectMessage msg = some reply) :
    Quiet ctx reply := by
  unfold acceptRejectMessage at h
  dsimp only at h
  split_ifs at h
  · exact refuse_quiet h
  · simp only [Option.bind_eq_bind, Option.bind_eq_some_iff, acceptReason] at h
    obtain ⟨type, -, code, -, h⟩ := h
    split_ifs at h
    · exact refuse_quiet h
    · simp only [Option.bind_eq_some_iff] at h
      obtain ⟨_, -, txHash, -, h⟩ := h
      cases h
      refine .of_ctx ?_
      split_ifs <;> simp [PeerEvent.Quiet]

theorem acceptAssetMessage_quiet (h : ctx.acceptAssetMessage msg = some reply) :
    Quiet ctx reply := by
  unfold acceptAssetMessage at h
  dsimp only at h
  split_ifs at h
  · exact ignore_quiet h
  · obtain ⟨name, -, h⟩ := Option.bind_eq_some_iff.1 h
    split_ifs at h
    · cases h
      exact .of_ctx (by simp [PeerEvent.Quiet])
    · simp only [Option.bind_eq_bind, Option.bind_eq_some_iff] at h
      obtain ⟨amount, -, unit, -, reissuable, -, hasIPFS, -, h⟩ := h
      obtain ⟨asset, -, rfl⟩ := Option.map_eq_some_iff.1 h
      exact .of_ctx (by simp [PeerEvent.Quiet])

theorem nextRequest_quiet {off count : ℕ} {first : UInt32} {s : HeaderSpan} {event : PeerEvent}
    (h : ctx.nextRequest E msg off count first s = some event) : event.Quiet := by
  unfold nextRequest at h
  obtain ⟨⟨locator₀, locator₁⟩, -, h⟩ := Option.bind_eq_some_iff.1 h
  dsimp only at h
  split_ifs at h
  · simp only [Option.bind_eq_bind, Option.bind_eq_some_iff] at h
    obtain ⟨⟨last, timestamp⟩, -, locator₀, -, h⟩ := h
    cases h
    trivial
  · cases h
    trivial

theorem acceptHeadersMessage_quiet (h : ctx.acceptHeadersMessage E msg = some reply) :
    Quiet ctx reply := by
  unfold acceptHeadersMessage at h
  dsimp only at h
  split_ifs at h
  · exact refuse_quiet h
  · simp only [Option.bind_eq_bind, Option.bind_eq_some_iff] at h
    obtain ⟨timestamp, -, first, -, s, -, h⟩ := h
    split_ifs at h
    · simp only [Option.bind_eq_some_iff] at h
      obtain ⟨request, hrequest, headers, -, h⟩ := h
      cases h
      refine .of_ctx fun event hevent => ?_
      rcases List.mem_cons.1 hevent with rfl | hevent
      · exact nextRequest_quiet hrequest
      · obtain ⟨header, -, rfl⟩ := List.mem_map.1 hevent
        trivial
    · exact refuse_quiet h

/-- Only `inv` and `pong` have to do with merkleblocks or with callbacks. -/
theorem acceptMessage_quiet {type : MessageType} (hblock : ctx.currentBlock = none)
    (hinv : type ≠ .inv) (hpong : type ≠ .pong) (h : ctx.acceptMessage E type msg = some reply) :
    Quiet ctx reply := by
  unfold acceptMessage at h
  rw [if_neg (by simp [hblock])] at h
  cases type with
  | version => exact acceptVersionMessage_quiet h
  | verack => exact acceptVerackMessage_quiet h
  | addr => exact acceptAddrMessage_quiet h
  | inv => exact absurd rfl hinv
  | headers => exact acceptHeadersMessage_quiet h
  | getaddr =>
    cases h
    exact .of_ctx (by simp [PeerEvent.Quiet])
  | getdata => exact acceptGetdataMessage_quiet h
  | notfound => exact acceptNotfoundMessage_quiet h
  | ping => exact acceptPingMessage_quiet h
  | pong => exact absurd rfl hpong
  | reject => exact acceptRejectMessage_quiet h
  | feefilter => exact acceptFeeFilterMessage_quiet h
  | assetdata => exact acceptAssetMessage_quiet h

/-- What an `inv` message does, if it is accepted. -/
structure TakesInv (ctx : BRPeerContext) (reply : Reply) (txHashes : List UInt256)
    (events : List PeerEvent) : Prop where
  currentBlock : reply.ctx.currentBlock = ctx.currentBlock
  currentBlockTxHashes : reply.ctx.currentBlockTxHashes = ctx.currentBlockTxHashes
  knownTxHashes : reply.ctx.knownTxHashes =
    txHashes.foldl (fun known hash => if hash ∈ known then known else known ++ [hash])
      ctx.knownTxHashes
  pongCallback : reply.ctx.pongCallback = ctx.pongCallback
  quiet : ∀ event ∈ events, event.Quiet
  /-- The mempool's callback waits for a pong, or it is left alone. -/
  mempool : ctx.mempoolCallback = true ∧ reply.ctx.mempoolCallback = false ∧
      reply.events = events ++ [.sendPing] ∨
    reply.ctx.mempoolCallback = ctx.mempoolCallback ∧ reply.events = events

theorem invEvents_quiet (known txHashes blockHashes : List UInt256) : ∀ event ∈
    known.map PeerEvent.hasTx ++
      (if txHashes ≠ [] ∨ blockHashes ≠ [] then [.sendGetdata txHashes blockHashes] else []) ++
      (if blockHashes.length ≥ 500 then
        [.sendGetblocks (blockHashes.getLastD 0, blockHashes.headD 0)] else []), event.Quiet := by
  intro event hevent
  simp only [List.mem_append, List.mem_map] at hevent
  rcases hevent with (⟨hash, -, rfl⟩ | hevent) | hevent
  · trivial
  · split_ifs at hevent
    · rw [List.mem_singleton.1 hevent]
      trivial
    · cases hevent
  · split_ifs at hevent
    · rw [List.mem_singleton.1 hevent]
      trivial
    · cases hevent

theorem takeInv_cases (ctx : BRPeerContext) (transactions blocks : List UInt256) :
    Quiet ctx (ctx.takeInv transactions blocks) ∨
      ∃ txHashes events, TakesInv ctx (ctx.takeInv transactions blocks) txHashes events := by
  unfold takeInv
  by_cases hfilter : transactions ≠ [] ∧ !ctx.sentFilter ∧ !ctx.sentMempool ∧ !ctx.sentGetblocks
  · rw [if_pos hfilter]
    exact .inl (.of_ctx (by simp))
  rw [if_neg hfilter]
  by_cases hmany : transactions.length > 10000
  · rw [if_pos hmany]
    exact .inl (.of_ctx (by simp))
  rw [if_neg hmany]
  by_cases hfew : ctx.currentBlockHeight > 0 ∧ blocks.length > 2 ∧ blocks.length < 500 ∧
      ctx.currentBlockHeight.toNat + ctx.knownBlockHashes.length + blocks.length <
        ctx.lastblock.toNat
  · rw [if_pos hfew]
    exact .inl (.of_ctx (by simp))
  rw [if_neg hfew]
  right
  generalize transactions.partition (fun hash => decide (hash ∈ ctx.knownTxHashes)) = parts
  obtain ⟨known, txHashes⟩ := parts
  dsimp only
  generalize (if ctx.needsFilterUpdate = true then [] else
    if (if (!ctx.sentFilter) = true ∧ (!ctx.sentGetblocks) = true then [] else blocks) =
      [ctx.lastBlockHash] then []
    else if (!ctx.sentFilter) = true ∧ (!ctx.sentGetblocks) = true then [] else blocks) =
      blockHashes
  refine ⟨txHashes, _, rfl, rfl, rfl, rfl, invEvents_quiet known txHashes blockHashes, ?_⟩
  dsimp only
  by_cases hping : transactions ≠ [] ∧ ctx.mempoolCallback = true
  · exact .inl ⟨hping.2, by simp [hping.1], by rw [if_pos hping]⟩
  · refine .inr ⟨?_, by rw [if_neg hping, List.append_nil]⟩
    cases hcallback : ctx.mempoolCallback with
    | false => rfl
    | true =>
      have hnone : transactions = [] := by
        by_contra hne
        exact hping ⟨hne, hcallback⟩
      simp [hnone]

theorem acceptInvMessage_cases (h : ctx.acceptInvMessage msg = some reply) :
    Quiet ctx reply ∨ ∃ txHashes events, TakesInv ctx reply txHashes events := by
  unfold acceptInvMessage at h
  dsimp only at h
  split_ifs at h
  · exact .inl (refuse_quiet h)
  · exact .inl (ignore_quiet h)
  · obtain ⟨items, -, rfl⟩ := Option.map_eq_some_iff.1 h
    exact takeInv_cases ctx _ _

theorem acceptPongMessage_cases (h : ctx.acceptPongMessage msg = some reply) :
    Quiet ctx reply ∨ ctx.pongCallback ≠ 0 ∧
      reply = { ok := true
                ctx := { ctx with pongCallback := ctx.pongCallback - 1 }
                events := [.pong] } := by
  unfold acceptPongMessage at h
  by_cases hlen : 8 > msg.length
  · rw [if_pos hlen] at h
    exact .inl (refuse_quiet h)
  · rw [if_neg hlen] at h
    obtain ⟨nonce, -, h⟩ := Option.bind_eq_some_iff.1 h
    split_ifs at h with hnonce hcallback
    · exact .inl (refuse_quiet h)
    · exact .inl (refuse_quiet h)
    · cases h
      exact .inr ⟨hcallback, rfl⟩

end BRPeerContext

namespace BRPeerConnection

open BRPeerContext

/-! ## What a message does -/

/-- The message has a merkleblock that is valid and comes behind a filter or a request. -/
structure HasBlock (env : ConnectionEnv) (now : UInt64) (c : BRPeerConnection) (msg : Bytes)
    (block : BRMerkleBlock UInt256) : Prop where
  parse : BRMerkleBlock.parse env.K msg = some (some block)
  valid : block.isValid (merkleHash env.K) now.toUInt32 = some true
  loaded : c.ctx.sentFilter = true ∨ c.sentGetdata = true

/-- What a message does to the connection, by its type. -/
inductive Receives (env : ConnectionEnv) (now : UInt64) (c : BRPeerConnection) :
    ReceivedType → Bytes → BRPeerConnection → Prop
  | quiet {type : ReceivedType} {msg : Bytes} {ctx : BRPeerContext} {sentGetdata : Bool} :
      Same c.ctx ctx → Receives env now c type msg { c with ctx, sentGetdata }
  /-- a message other than a transaction ends the current block -/
  | cut {type : ReceivedType} {msg : Bytes} : type ≠ .tx →
      Receives env now c type msg
        { c with ctx := { c.ctx with currentBlock := none, currentBlockTxHashes := [] } }
  | inv {msg : Bytes} {ctx : BRPeerContext} {sentGetdata : Bool} {txHashes : List UInt256} :
      Same (c.addKnownTxHashes txHashes).ctx ctx →
      Receives env now c (.other .inv) msg { c with ctx, sentGetdata }
  /-- the first transactions of the mempool -/
  | mempool {msg : Bytes} {ctx : BRPeerContext} {sentGetdata : Bool} {txHashes : List UInt256} :
      c.ctx.mempoolCallback = true →
      Same { (c.addKnownTxHashes txHashes).ctx with mempoolCallback := false } ctx →
      Receives env now c (.other .inv) msg { c with ctx, sentGetdata }.pingMempool
  | pong {msg : Bytes} {info : Ptr} {callback : Option ℕ} {pongInfo : List Ptr}
      {pongCallback : List (Option ℕ)} :
      c.pongInfo = info :: pongInfo → c.pongCallback = callback :: pongCallback →
      Receives env now c (.other .pong) msg
        { c with
          ctx := { c.ctx with pongCallback := c.ctx.pongCallback - 1 }
          pongInfo, pongCallback
          calls := c.calls ++ called callback info true
          pongs := c.pongs + 1 }
  | tx {msg : Bytes} {txHash : UInt256} : c.ctx.currentBlock = none →
      Receives env now c .tx msg { c with history := c.history ++ [.relayedTx txHash] }
  | collect {msg : Bytes} {txHash : UInt256} {block : BRMerkleBlock UInt256} :
      c.ctx.currentBlock = some block →
      Receives env now c .tx msg
        ({ c with history := c.history ++ [PeerRecord.relayedTx txHash] }.collectTx txHash block)
  | merkleblock {msg : Bytes} {block : BRMerkleBlock UInt256} {count : ℕ}
      {hashes : List UInt256} : c.ctx.currentBlock = none → HasBlock env now c msg block →
      block.txHashesCount = some count → block.txHashes count = some hashes →
      Receives env now c .merkleblock msg (c.takeMerkleblock block hashes)

section

variable {env : ConnectionEnv} {c c' : BRPeerConnection} {now : UInt64}
  {requestedTx : UInt256 → Option BRTransaction} {type : ReceivedType} {msg : Bytes} {ok : Bool}

theorem foldlM_quiet {events : List PeerEvent} (h : ∀ event ∈ events, event.Quiet) :
    ∃ sentGetdata, events.foldlM takeEvent c = some { c with sentGetdata } := by
  induction events generalizing c with
  | nil => exact ⟨_, rfl⟩
  | cons event events ih =>
    have hrest : ∀ event ∈ events, event.Quiet := fun e he => h e (List.mem_cons_of_mem _ he)
    have hevent := h event List.mem_cons_self
    cases event with
    | pong => exact hevent.elim
    | sendPing => exact hevent.elim
    | sendGetdata txHashes blockHashes => exact ih (c := c.sendGetdata txHashes blockHashes) hrest
    | _ => exact ih (c := c) hrest

theorem quiet_receives {reply : Reply} (hquiet : Quiet c.ctx reply)
    (h : reply.events.foldlM takeEvent { c with ctx := reply.ctx } = some c') :
    Receives env now c type msg c' := by
  obtain ⟨sentGetdata, hfold⟩ := foldlM_quiet (c := { c with ctx := reply.ctx }) hquiet.events
  rw [hfold] at h
  cases h
  exact .quiet hquiet.same

theorem inv_receives {reply : Reply} {txHashes : List UInt256} {events : List PeerEvent}
    (hinv : TakesInv c.ctx reply txHashes events)
    (h : reply.events.foldlM takeEvent { c with ctx := reply.ctx } = some c') :
    Receives env now c (.other .inv) msg c' := by
  obtain ⟨sentGetdata, hfold⟩ := foldlM_quiet (c := { c with ctx := reply.ctx }) hinv.quiet
  rcases hinv.mempool with ⟨hcallback, hnone, hevents⟩ | ⟨hsame, hevents⟩
  · rw [hevents, List.foldlM_append, hfold] at h
    cases h
    have hsame : Same { (c.addKnownTxHashes txHashes).ctx with mempoolCallback := false } reply.ctx :=
      ⟨hinv.currentBlock, hinv.currentBlockTxHashes, hinv.knownTxHashes, hinv.pongCallback, hnone⟩
    exact .mempool hcallback hsame
  · rw [hevents, hfold] at h
    cases h
    have hsame : Same (c.addKnownTxHashes txHashes).ctx reply.ctx :=
      ⟨hinv.currentBlock, hinv.currentBlockTxHashes, hinv.knownTxHashes, hinv.pongCallback, hsame⟩
    exact .inv hsame

theorem other_receives {type : MessageType} (hblock : c.ctx.currentBlock = none) {reply : Reply}
    (hreply : c.ctx.acceptMessage ⟨now, requestedTx, env.K⟩ type msg = some reply)
    (h : reply.events.foldlM takeEvent { c with ctx := reply.ctx } = some c') :
    Receives env now c (.other type) msg c' := by
  by_cases hinv : type = .inv
  · subst hinv
    have hreply : c.ctx.acceptInvMessage msg = some reply := by
      rw [← hreply, BRPeerContext.acceptMessage, if_neg (by simp [hblock])]
    rcases acceptInvMessage_cases hreply with hquiet | ⟨txHashes, events, hinv⟩
    · exact quiet_receives hquiet h
    · exact inv_receives hinv h
  by_cases hpong : type = .pong
  · subst hpong
    have hreply : c.ctx.acceptPongMessage msg = some reply := by
      rw [← hreply, BRPeerContext.acceptMessage, if_neg (by simp [hblock])]
    rcases acceptPongMessage_cases hreply with hquiet | ⟨-, rfl⟩
    · exact quiet_receives hquiet h
    · have hpop : takeEvent { c with ctx := { c.ctx with
          pongCallback := c.ctx.pongCallback - 1 } } .pong = some c' := by
        simpa using h
      obtain ⟨c₁, hc₁, rfl⟩ := Option.map_eq_some_iff.1 hpop
      unfold popPong at hc₁
      split at hc₁
      · rename_i info pongInfo callback pongCallback hinfo hcallback
        cases hc₁
        exact .pong hinfo hcallback
      · cases hc₁
  · exact quiet_receives (acceptMessage_quiet hblock hinv hpong hreply) h

theorem acceptTxMessage_receives (h : c.acceptTxMessage env msg = some (ok, c')) :
    Receives env now c .tx msg c' := by
  have hsame : Same c.ctx c.ctx := ⟨rfl, rfl, rfl, rfl, rfl⟩
  obtain ⟨tx, -, h⟩ := Option.bind_eq_some_iff.1 h
  cases tx with
  | none =>
    cases h
    exact .quiet hsame
  | some tx =>
    dsimp only at h
    split_ifs at h
    · cases h
      exact .quiet hsame
    · cases hblock : c.ctx.currentBlock with
      | none =>
        rw [hblock] at h
        cases h
        exact .tx hblock
      | some block =>
        rw [hblock] at h
        cases h
        exact .collect hblock

theorem acceptMerkleblockMessage_receives (hblock : c.ctx.currentBlock = none)
    (h : c.acceptMerkleblockMessage env now msg = some (ok, c')) :
    Receives env now c .merkleblock msg c' := by
  have hsame : Same c.ctx c.ctx := ⟨rfl, rfl, rfl, rfl, rfl⟩
  simp only [acceptMerkleblockMessage, Option.bind_eq_bind, Option.bind_eq_some_iff] at h
  obtain ⟨block, hparse, h⟩ := h
  cases block with
  | none =>
    cases h
    exact .quiet hsame
  | some block =>
    obtain ⟨valid, hvalid, h⟩ := Option.bind_eq_some_iff.1 h
    cases valid with
    | false =>
      cases h
      exact .quiet hsame
    | true =>
      rw [if_neg (by simp)] at h
      by_cases hloaded : (!c.ctx.sentFilter) = true ∧ (!c.sentGetdata) = true
      · rw [if_pos hloaded] at h
        cases h
        exact .quiet hsame
      · simp only [if_neg hloaded, Option.bind_eq_some_iff] at h
        obtain ⟨count, hcount, hashes, hhashes, h⟩ := h
        cases h
        refine .merkleblock hblock ⟨hparse, hvalid, ?_⟩ hcount hhashes
        cases hfilter : c.ctx.sentFilter with
        | true => exact .inl rfl
        | false => exact .inr (by simpa [hfilter] using hloaded)

theorem acceptMessage_receives (h : c.acceptMessage env now requestedTx type msg = some (ok, c')) :
    Receives env now c type msg c' := by
  unfold acceptMessage at h
  by_cases hcut : type ≠ .tx ∧ c.ctx.currentBlock.isSome
  · rw [if_pos hcut] at h
    cases h
    exact .cut hcut.1
  rw [if_neg hcut] at h
  have hblock : type ≠ .tx → c.ctx.currentBlock = none := by
    intro htx
    simpa using fun hsome => hcut ⟨htx, hsome⟩
  have hsame : Same c.ctx c.ctx := ⟨rfl, rfl, rfl, rfl, rfl⟩
  cases type with
  | tx => exact acceptTxMessage_receives h
  | merkleblock => exact acceptMerkleblockMessage_receives (hblock (by simp)) h
  | other type =>
    simp only [Option.bind_eq_bind, Option.bind_eq_some_iff] at h
    obtain ⟨reply, hreply, c₁, hfold, h⟩ := h
    cases h
    exact other_receives (hblock (by simp)) hreply hfold
  | unknown =>
    cases h
    exact .quiet hsame

end

end BRPeerConnection

end RavenWallet
