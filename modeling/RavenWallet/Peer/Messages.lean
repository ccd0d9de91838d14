/-
  The messages that a peer sends (the handlers of BRPeer.c, without those for
  transactions and blocks).

  A handler reads the payload at offsets that are computed modulo 2^64; it has no
  result if it reads beyond the end of the payload, or writes beyond one of its
  buffers.  What it hands on to other code are events.  Its callbacks are set.

  For each handler that can fail, `…Fits` says when it does not.
-/
import RavenWallet.Lib.Items
import RavenWallet.Lib.Word
import RavenWallet.Lib.Yields
import RavenWallet.Core.Assets
import RavenWallet.Core.MerkleCodec
import RavenWallet.Core.TxData
import RavenWallet.Core.TxParse

namespace RavenWallet

def MAX_GETDATA_HASHES : ℕ := 50000
def MIN_PROTO_VERSION : UInt32 := 70026
def SERVICES_NODE_NETWORK : UInt64 := 0x01
def MSG_TX : Bytes := [0x74, 0x78]

def inv_tx : UInt32 := 1
def inv_block : UInt32 := 2
def inv_filtered_block : UInt32 := 3

/-- The bytes of an asset's `IPFSHash`. -/
def IPFS_FIELD_SIZE : ℕ := 46

structure BRPeer where
  address : Bytes
  port : UInt16
  services : UInt64
  timestamp : UInt64
  deriving DecidableEq

/-- The context of a peer; `pongCallback` is the number of pongs that are waited for. -/
structure BRPeerContext where
  services : UInt64 := 0
  timestamp : UInt64 := 0
  version : UInt32 := 0
  lastblock : UInt32 := 0
  earliestKeyTime : UInt32 := 0
  currentBlockHeight : UInt32 := 0
  nonce : UInt64 := 0
  feePerKb : UInt64 := 0
  useragent : Bytes := []
  gotVerack : Bool := false
  sentGetaddr : Bool := false
  sentFilter : Bool := false
  sentMempool : Bool := false
  sentGetblocks : Bool := false
  needsFilterUpdate : Bool := false
  lastBlockHash : UInt256 := 0
  currentBlock : Option (BRMerkleBlock UInt256) := none
  currentBlockTxHashes : List UInt256 := []
  knownBlockHashes : List UInt256 := []
  knownTxHashes : List UInt256 := []
  pongCallback : ℕ := 0
  mempoolCallback : Bool := false

/-- What a handler hands on. -/
inductive PeerEvent where
  | sendVerack
  | didConnect
  | sendAddr
  | sendPong (msg : Bytes)
  | sendPing
  | sendGetdata (txHashes blockHashes : List UInt256)
  | sendGetblocks (locators : UInt256 × UInt256)
  | sendGetheaders (locators : UInt256 × UInt256)
  | sendTx (tx : Bytes)
  | sendNotfound (items : List Bytes)
  | pong
  | hasTx (txHash : UInt256)
  | notfound (txHashes blockHashes : List UInt256)
  | relayedPeers (peers : List BRPeer)
  | relayedBlock (block : BRMerkleBlock UInt256)
  | rejectedTx (txHash : UInt256) (code : UInt8)
  | setFeePerKb (feePerKb : UInt64)
  | receiveAssetData (asset : Option BRAsset)

/-- What a handler returns: false for a message that ends the connection. -/
structure Reply where
  ok : Bool
  ctx : BRPeerContext
  events : List PeerEvent := []

/-- What the handlers need from elsewhere: the time, the transactions that peers may ask for, and
    the hash functions. -/
structure PeerEnv where
  now : UInt64
  requestedTx : UInt256 → Option BRTransaction
  K : BlockHashes

namespace BRPeerContext

variable (E : PeerEnv) (ctx : BRPeerContext) (msg : Bytes)

/-- A message that is malformed, or comes when it must not. -/
def refuse : Option Reply := some { ok := false, ctx }

/-- A message that is dropped. -/
def ignore : Option Reply := some { ok := true, ctx }

section

theorem peek_yields (off n : ℕ) :
    Yields (peek msg off n) (off + n ≤ msg.length) ((msg.drop off).take n) := Yields.of_ite rfl

theorem getLE_yields (off k : ℕ) :
    Yields (getLE msg off k) (off + k ≤ msg.length) (BRTransaction.fieldAt msg off k) := by
  refine ⟨fun h => ?_, fun h => getLE_eq_none.2 (Nat.lt_of_not_le h)⟩
  rw [getLE_of_le h, BRTransaction.fieldAt, if_pos h]

theorem byte_yields (off : ℕ) : Yields msg[off]? (off < msg.length) (msg.getD off 0) := by
  refine ⟨fun h => ?_, fun h => List.getElem?_eq_none (Nat.le_of_not_lt h)⟩
  rw [List.getD_eq_getElem?_getD, List.getElem?_eq_getElem h, Option.getD_some]

theorem refuse_isSome : ctx.refuse.isSome := rfl

theorem ignore_isSome : ctx.ignore.isSome := rfl

end

/-! ## version and verack -/

/-- `_PeerAcceptVersionMessage`. -/
def acceptVersionMessage : Option Reply :=
  if 85 > msg.length then ctx.refuse
  else do
    let version ← getLE msg 0 4
    let services ← getLE msg 4 8
    let timestamp ← getLE msg 12 8
    -- both addresses and the nonce
    let _ ← peek msg 20 60
    let ctx := { ctx with version := UInt32.ofNat version
                          services := UInt64.ofNat services
                          timestamp := UInt64.ofNat timestamp }
    let (strLen, len) := varInt (msg.drop 80)
    let off := 80 + len
    if wrap64 (off + strLen + 4) > msg.length then ctx.refuse
    else if ctx.version < MIN_PROTO_VERSION then ctx.refuse
    else do
      let useragent ← peek msg off strLen
      let lastblock ← getLE msg (off + strLen) 4
      some { ok := true
             ctx := { ctx with useragent := useragent ++ [0], lastblock := UInt32.ofNat lastblock }
             events := [.sendVerack] }

/-- The length of the user agent does not wrap around to a length that is accepted. -/
def VersionFits : Prop :=
  85 ≤ msg.length → MIN_PROTO_VERSION ≤ UInt32.ofNat (BRTransaction.fieldAt msg 0 4) →
    wrap64 (80 + (varInt (msg.drop 80)).2 + (varInt (msg.drop 80)).1 + 4) ≤ msg.length →
      80 + (varInt (msg.drop 80)).2 + (varInt (msg.drop 80)).1 + 4 ≤ msg.length

theorem acceptVersionMessage_isSome :
    (ctx.acceptVersionMessage msg).isSome ↔ VersionFits msg := by
  rw [acceptVersionMessage, VersionFits, isSome_ite_right (refuse_isSome ctx), Nat.not_lt]
  refine forall_congr' fun h85 => ?_
  simp only [Option.bind_eq_bind]
  rw [(getLE_yields msg 0 4).isSome_bind, and_iff_right (by omega),
    (getLE_yields msg 4 8).isSome_bind, and_iff_right (by omega),
    (getLE_yields msg 12 8).isSome_bind, and_iff_right (by omega),
    (peek_yields msg 20 60).isSome_bind, and_iff_right (by omega)]
  rw [isSome_ite_right (refuse_isSome _), isSome_ite_right (refuse_isSome _), Nat.not_lt,
    UInt32.not_lt, forall_comm]
  refine forall_congr' fun hversion => forall_congr' fun hcheck => ?_
  rw [(peek_yields msg _ _).isSome_bind, (getLE_yields msg _ _).isSome_bind]
  exact ⟨fun h => h.2.1, fun h => ⟨by omega, h, rfl⟩⟩

/-- `_PeerAcceptVerackMessage`, without the ping times. -/
def acceptVerackMessage : Option Reply :=
  if ctx.gotVerack then ctx.ignore
  else some { ok := true, ctx := { ctx with gotVerack := true }, events := [.didConnect] }

theorem acceptVerackMessage_isSome : ctx.acceptVerackMessage.isSome := by
  rw [acceptVerackMessage]
  split_ifs <;> rfl

/-! ## Counted items -/

/-- The items of `size` bytes from `off` on. -/
def readItems (size count off : ℕ) : Option (List Bytes) :=
  Items.readWhile (fun i => peek msg (off + size * i) size) (fun _ => true) count 0

theorem readItems_isSome {size count off : ℕ} (h : off + size * count ≤ msg.length) :
    (readItems msg size count off).isSome := by
  have hread : ∀ i, peek msg (off + size * i) size = if off + size * i + size ≤ msg.length then
      some ((msg.drop (off + size * i)).take size) else none := fun i => rfl
  have hall : ∀ i ∈ Items.reached (fun i => (msg.drop (off + size * i)).take size) (fun _ => true)
      count 0, off + size * i + size ≤ msg.length := by
    intro i hi
    have hlt := (Items.reached_bounds hi).2
    have hmul : size * (i + 1) ≤ size * count := Nat.mul_le_mul_left size (by omega)
    rw [Nat.mul_add, Nat.mul_one] at hmul
    omega
  rw [readItems, Items.readWhile_of_fits hread, if_pos hall]
  rfl

/-- A count that is not too large has its items in the payload if the check says so. -/
theorem items_fit {size max : ℕ} (hmax : size * max + 9 < 2 ^ 64)
    (hcount : (varInt msg).1 ≤ max)
    (hcheck : wrap64 ((varInt msg).2 + wrap64 (size * (varInt msg).1)) ≤ msg.length) :
    (varInt msg).2 + size * (varInt msg).1 ≤ msg.length := by
  have hlen := varInt_snd_le msg
  have hmul : size * (varInt msg).1 ≤ size * max := Nat.mul_le_mul_left size hcount
  have hproduct : wrap64 (size * (varInt msg).1) = size * (varInt msg).1 :=
    wrap64_of_lt (by omega)
  rwa [hproduct, wrap64_of_lt (by omega)] at hcheck

/-- `_PeerIsIPv4`. -/
def isIPv4 (peer : BRPeer) : Bool :=
  decide (peer.address.take 12 = List.replicate 10 0 ++ [0xff, 0xff])

/-- A peer in an `addr` message. -/
def addrAt (item : Bytes) : BRPeer where
  timestamp := UInt64.ofNat (ofLE (item.take 4))
  services := UInt64.ofNat (ofLE ((item.drop 4).take 8))
  address := (item.drop 12).take 16
  port := UInt16.ofNat (ofLE ((item.drop 28).take 2).reverse)

/-- The peer with the time that it is remembered with; none for one that is skipped. -/
def keepAddr (now : UInt64) (p : BRPeer) : Option BRPeer :=
  if p.services &&& SERVICES_NODE_NETWORK = 0 ∨ !isIPv4 p then none
  else
    let timestamp := if p.timestamp > now + 10 * 60 ∨ p.timestamp = 0 then now - 5 * 24 * 60 * 60
      else p.timestamp
    some { p with timestamp := timestamp - 2 * 60 * 60 }

/-- `_PeerAcceptAddrMessage`. -/
def acceptAddrMessage : Option Reply :=
  let (count, off) := varInt msg
  if wrap64 (off + wrap64 (count * 30)) > msg.length then ctx.refuse
  else if count > 1000 then ctx.ignore
  else if ctx.sentGetaddr then
    (readItems msg 30 count off).map fun items =>
      let peers := (items.map addrAt).filterMap (keepAddr E.now)
      { ok := true, ctx, events := if peers = [] then [] else [.relayedPeers peers] }
  else ctx.ignore

/-- The type and the hash of an item. -/
def invAt (item : Bytes) : UInt32 × UInt256 :=
  (UInt32.ofNat (ofLE (item.take 4)), get256 (item.drop 4))

/-- Forgets a third of the block hashes as long as there are too many. -/
def trimKnown (hashes : List UInt256) : List UInt256 :=
  if hashes.length > MAX_GETDATA_HASHES then trimKnown (hashes.drop (hashes.length / 3)) else hashes
termination_by hashes.length
decreasing_by
  rw [List.length_drop]
  have : MAX_GETDATA_HASHES = 50000 := rfl
  omega

/-- The rest of `_PeerAcceptInvMessage` on the hashes in the message. -/
def takeInv (transactions blocks : List UInt256) : Reply :=
  if transactions ≠ [] ∧ !ctx.sentFilter ∧ !ctx.sentMempool ∧ !ctx.sentGetblocks then
    { ok := false, ctx }
  else if transactions.length > 10000 then { ok := false, ctx }
  else if ctx.currentBlockHeight > 0 ∧ blocks.length > 2 ∧ blocks.length < 500 ∧
      ctx.currentBlockHeight.toNat + ctx.knownBlockHashes.length + blocks.length <
        ctx.lastblock.toNat then
    { ok := false, ctx }
  else
    let blocks := if !ctx.sentFilter ∧ !ctx.sentGetblocks then [] else blocks
    let blocks := if blocks = [ctx.lastBlockHash] then [] else blocks
    let lastBlockHash := match blocks with
      | [hash] => hash
      | _ => ctx.lastBlockHash
    let knownBlockHashes := trimKnown (ctx.knownBlockHashes ++ blocks)
    let blockHashes := if ctx.needsFilterUpdate then [] else blocks
    let (known, txHashes) := transactions.partition fun hash => hash ∈ ctx.knownTxHashes
    { ok := true
      ctx := { ctx with
        lastBlockHash
        knownBlockHashes
        knownTxHashes := txHashes.foldl
          (fun known hash => if hash ∈ known then known else known ++ [hash]) ctx.knownTxHashes
        mempoolCallback := ctx.mempoolCallback && decide (transactions = []) }
      events := known.map .hasTx ++
        (if txHashes ≠ [] ∨ blockHashes ≠ [] then [.sendGetdata txHashes blockHashes] else []) ++
        (if blockHashes.length ≥ 500 then
          [.sendGetblocks (blockHashes.getLastD 0, blockHashes.headD 0)] else []) ++
        (if transactions ≠ [] ∧ ctx.mempoolCallback then [.sendPing] else []) }

/-- `_PeerAcceptInvMessage`. -/
def acceptInvMessage : Option Reply :=
  let (count, off) := varInt msg
  if wrap64 (off + wrap64 (count * 36)) > msg.length then ctx.refuse
  else if count > MAX_GETDATA_HASHES then ctx.ignore
  else
    (readItems msg 36 count off).map fun items =>
      let items := items.map invAt
      ctx.takeInv ((items.filter fun item => item.1 = inv_tx).map Prod.snd)
        ((items.filter fun item => item.1 = inv_block).map Prod.snd)

/-- The transaction that is sent for an item; none for one that is not found. -/
def sentFor (item : Bytes) : Option BRTransaction :=
  if (invAt item).1 = inv_tx then
    (E.requestedTx (invAt item).2).filter fun tx => decide (tx.size < TX_MAX_SIZE)
  else none

/-- `_PeerAcceptGetdataMessage`. -/
def acceptGetdataMessage : Option Reply :=
  let (count, off) := varInt msg
  if wrap64 (off + wrap64 (36 * count)) > msg.length then ctx.refuse
  else if count > MAX_GETDATA_HASHES then ctx.ignore
  else
    (readItems msg 36 count off).map fun items =>
      let notfound := items.filter fun item => (sentFor E item).isNone
      { ok := true
        ctx
        events := (items.filterMap (sentFor E)).map (fun tx => .sendTx tx.serialize) ++
          if notfound = [] then [] else [.sendNotfound notfound] }

/-- `_PeerAcceptNotfoundMessage`. -/
def acceptNotfoundMessage : Option Reply :=
  let (count, off) := varInt msg
  if wrap64 (off + wrap64 (36 * count)) > msg.length then ctx.refuse
  else if count > MAX_GETDATA_HASHES then ctx.ignore
  else
    (readItems msg 36 count off).map fun items =>
      let items := items.map invAt
      { ok := true
        ctx
        events := [.notfound ((items.filter fun item => item.1 = inv_tx).map Prod.snd)
          ((items.filter fun item => item.1 = inv_filtered_block ∨ item.1 = inv_block).map
            Prod.snd)] }

theorem acceptAddrMessage_isSome : (ctx.acceptAddrMessage E msg).isSome := by
  rw [acceptAddrMessage]
  dsimp only
  by_cases hcheck : wrap64 ((varInt msg).2 + wrap64 ((varInt msg).1 * 30)) > msg.length
  · rw [if_pos hcheck]
    rfl
  by_cases hcount : (varInt msg).1 > 1000
  · rw [if_neg hcheck, if_pos hcount]
    rfl
  rw [if_neg hcheck, if_neg hcount]
  split_ifs
  · rw [Nat.mul_comm] at hcheck
    rw [Option.isSome_map]
    exact readItems_isSome msg (items_fit msg (by decide : 30 * 1000 + 9 < 2 ^ 64)
      (Nat.le_of_not_lt hcount) (Nat.le_of_not_lt hcheck))
  · rfl

/-- The items of the other messages that count them are in the payload. -/
theorem readInv_isSome
    (hcheck : wrap64 ((varInt msg).2 + wrap64 (36 * (varInt msg).1)) ≤ msg.length)
    (hcount : (varInt msg).1 ≤ MAX_GETDATA_HASHES) :
    (readItems msg 36 (varInt msg).1 (varInt msg).2).isSome :=
  readItems_isSome msg (items_fit msg (by decide : 36 * MAX_GETDATA_HASHES + 9 < 2 ^ 64) hcount
    hcheck)

theorem acceptInvMessage_isSome : (ctx.acceptInvMessage msg).isSome := by
  rw [acceptInvMessage]
  dsimp only
  rw [Nat.mul_comm]
  split_ifs with hcheck hcount
  · rfl
  · rfl
  · rw [Option.isSome_map]
    exact readInv_isSome msg (Nat.le_of_not_lt hcheck) (Nat.le_of_not_lt hcount)

theorem acceptGetdataMessage_isSome : (ctx.acceptGetdataMessage E msg).isSome := by
  rw [acceptGetdataMessage]
  dsimp only
  split_ifs with hcheck hcount
  · rfl
  · rfl
  · rw [Option.isSome_map]
    exact readInv_isSome msg (Nat.le_of_not_lt hcheck) (Nat.le_of_not_lt hcount)

theorem acceptNotfoundMessage_isSome : (ctx.acceptNotfoundMessage msg).isSome := by
  rw [acceptNotfoundMessage]
  dsimp only
  split_ifs with hcheck hcount
  · rfl
  · rfl
  · rw [Option.isSome_map]
    exact readInv_isSome msg (Nat.le_of_not_lt hcheck) (Nat.le_of_not_lt hcount)

/-- `_PeerAcceptGetaddrMessage`. -/
def acceptGetaddrMessage : Option Reply := some { ok := true, ctx, events := [.sendAddr] }

/-! ## Single numbers -/

/-- `_PeerAcceptPingMessage`. -/
def acceptPingMessage : Option Reply :=
  if 8 > msg.length then ctx.refuse else some { ok := true, ctx, events := [.sendPong msg] }

/-- `_PeerAcceptPongMessage`, without the ping times. -/
def acceptPongMessage : Option Reply :=
  if 8 > msg.length then ctx.refuse
  else do
    let nonce ← getLE msg 0 8
    if UInt64.ofNat nonce ≠ ctx.nonce then ctx.refuse
    else if ctx.pongCallback = 0 then ctx.refuse
    else some { ok := true
                ctx := { ctx with pongCallback := ctx.pongCallback - 1 }
                events := [.pong] }

/-- `_PeerAcceptFeeFilterMessage`. -/
def acceptFeeFilterMessage : Option Reply :=
  if 8 > msg.length then ctx.refuse
  else do
    let feePerKb ← getLE msg 0 8
    some { ok := true
           ctx := { ctx with feePerKb := UInt64.ofNat feePerKb }
           events := [.setFeePerKb (UInt64.ofNat feePerKb)] }

theorem acceptPingMessage_isSome : (ctx.acceptPingMessage msg).isSome := by
  rw [acceptPingMessage]
  split_ifs <;> rfl

theorem acceptPongMessage_isSome : (ctx.acceptPongMessage msg).isSome := by
  rw [acceptPongMessage]
  by_cases h8 : 8 > msg.length
  · rw [if_pos h8]
    rfl
  · rw [if_neg h8, getLE_of_le (by omega), Option.bind_eq_bind, Option.bind_some]
    split_ifs <;> rfl

theorem acceptFeeFilterMessage_isSome : (ctx.acceptFeeFilterMessage msg).isSome := by
  rw [acceptFeeFilterMessage]
  by_cases h8 : 8 > msg.length
  · rw [if_pos h8]
    rfl
  · rw [if_neg h8, getLE_of_le (by omega)]
    rfl

/-! ## reject -/

/-- A string of at most `n` bytes at `off` ends in the payload. -/
def StringFits (off n : ℕ) : Prop := 0 ∈ (msg.drop off).take n ∨ off + n ≤ msg.length

instance (off n : ℕ) : Decidable (StringFits msg off n) := inferInstanceAs (Decidable (_ ∨ _))

def stringAt (off n : ℕ) : Bytes := ((msg.drop off).take n).takeWhile fun b => b ≠ 0

/-- `strncpy` of at most `n` bytes at `off`. -/
def readString (off n : ℕ) : Option Bytes :=
  if StringFits msg off n then some (stringAt msg off n) else none

/-- The number of bytes of the hash behind the reason. -/
def hashLen (type : Bytes) : ℕ := if type = MSG_TX then 32 else 0

/-- The hash that was rejected, zero if there is none. -/
def rejectedHash (off hashLen : ℕ) : Option UInt256 :=
  if hashLen = 32 then (peek msg off 32).map get256 else some 0

/-- The reason and the hash of a `reject` message. -/
def acceptReason (type : Bytes) (code : UInt8) (off : ℕ) : Option Reply :=
  let (strLen, len) := varInt (msg.drop off)
  let off := off + len
  if wrap64 (off + strLen + hashLen type) > msg.length then ctx.refuse
  else do
    let _ ← readString msg off (min strLen 0xfff)
    let txHash ← rejectedHash msg (wrap64 (off + strLen)) (hashLen type)
    some { ok := true, ctx, events := if txHash ≠ 0 then [.rejectedTx txHash code] else [] }

/-- `_PeerAcceptRejectMessage`. -/
def acceptRejectMessage : Option Reply :=
  let (strLen, off) := varInt msg
  if wrap64 (off + strLen + 1) > msg.length then ctx.refuse
  else do
    let type ← readString msg off (min strLen 0xfff)
    let off := wrap64 (off + strLen)
    let code ← msg[off]?
    ctx.acceptReason msg type code (off + 1)

/-- The reason ends in the payload, and so does the hash behind it. -/
def ReasonFits (type : Bytes) (off : ℕ) : Prop :=
  let (strLen, len) := varInt (msg.drop off)
  wrap64 (off + len + strLen + hashLen type) ≤ msg.length →
    StringFits msg (off + len) (min strLen 0xfff) ∧
      (type = MSG_TX → wrap64 (off + len + strLen) + 32 ≤ msg.length)

/-- The type ends in the payload, the code is in it, and the reason fits. -/
def RejectFits : Prop :=
  let (strLen, off) := varInt msg
  wrap64 (off + strLen + 1) ≤ msg.length →
    StringFits msg off (min strLen 0xfff) ∧ wrap64 (off + strLen) < msg.length ∧
      ReasonFits msg (stringAt msg off (min strLen 0xfff)) (wrap64 (off + strLen) + 1)

theorem readString_yields (off n : ℕ) :
    Yields (readString msg off n) (StringFits msg off n) (stringAt msg off n) := Yields.of_ite rfl

theorem rejectedHash_isSome (type : Bytes) (off : ℕ) :
    (rejectedHash msg off (hashLen type)).isSome ↔ (type = MSG_TX → off + 32 ≤ msg.length) := by
  rw [rejectedHash, hashLen]
  by_cases htx : type = MSG_TX
  · rw [if_pos htx, if_pos rfl, imp_iff_right htx, Option.isSome_map, (peek_yields msg _ _).isSome_iff]
  · rw [if_neg htx, if_neg (by decide)]
    exact ⟨fun _ h => absurd h htx, fun _ => rfl⟩

theorem acceptReason_isSome (type : Bytes) (code : UInt8) (off : ℕ) :
    (ctx.acceptReason msg type code off).isSome ↔ ReasonFits msg type off := by
  rw [acceptReason, ReasonFits]
  dsimp only [Option.bind_eq_bind]
  rw [isSome_ite_right (refuse_isSome ctx), Nat.not_lt]
  refine forall_congr' fun hcheck => ?_
  rw [(readString_yields msg _ _).isSome_bind, ← rejectedHash_isSome]
  refine and_congr_right fun _ => ?_
  cases rejectedHash msg _ (hashLen type) with
  | none | some _ => rfl

theorem acceptRejectMessage_isSome : (ctx.acceptRejectMessage msg).isSome ↔ RejectFits msg := by
  rw [acceptRejectMessage, RejectFits]
  dsimp only [Option.bind_eq_bind]
  rw [isSome_ite_right (refuse_isSome ctx), Nat.not_lt]
  refine forall_congr' fun hcheck => ?_
  rw [(readString_yields msg _ _).isSome_bind, (byte_yields msg _).isSome_bind, acceptReason_isSome]

/-! ## assetdata -/

/-- `NewAsset`. -/
def newAsset : BRAsset := {}

/-- An array of the given size on the stack. -/
def stackArray (size : ℕ) : Option Unit := if size ≤ PTRDIFF_MAX then some () else none

/-- `EncodeIPFS` with 47 bytes for the text and its NUL; no result if they go beyond the field. -/
def setIPFSHash (asset : BRAsset) (hash : Bytes) : Option BRAsset :=
  if (encodeIPFS hash).length + 1 ≤ 47 then
    if (encodeIPFS hash).length + 1 ≤ IPFS_FIELD_SIZE then
      some { asset with IPFSHash := encodeIPFS hash }
    else none
  else some asset

/-- The hash behind an asset. -/
def readIPFSHash (off : ℕ) (asset : BRAsset) : Option BRAsset :=
  let (length, sLen) := varInt (msg.drop off)
  let off := off + sLen
  if asset.hasIPFS ≠ 0 ∨ length ≠ 0 then do
    stackArray length
    if off ≤ wrap64 (msg.length + length) then (peek msg off length).bind (setIPFSHash asset)
    else some asset
  else some asset

/-- `_PeerAcceptAssetMessage`. -/
def acceptAssetMessage : Option Reply :=
  let (count, off) := varInt msg
  if msg.length > 16898 then ctx.ignore
  else do
    let name ← peek msg off count
    let off := off + count
    if name.takeWhile (fun b => b ≠ 0) = [0x5f, 0x4e, 0x46] then
      some { ok := true, ctx, events := [.receiveAssetData none] }
    else do
      let amount ← getField msg off 8
      let unit ← msg[off + 8]?
      let reissuable ← msg[off + 9]?
      let hasIPFS ← msg[off + 10]?
      let asset := { newAsset with
        name, nameLen := count, amount := UInt64.ofNat amount, unit, reissuable, hasIPFS }
      (readIPFSHash msg (off + 11) asset).map fun asset =>
        { ok := true, ctx, events := [.receiveAssetData (some asset)] }

/-- The hash of an asset lies in the payload, and its text in the field. -/
def IPFSFits (off : ℕ) (hasIPFS : UInt8) : Prop :=
  let (length, sLen) := varInt (msg.drop off)
  (hasIPFS ≠ 0 ∨ length ≠ 0) → length ≤ PTRDIFF_MAX ∧
    (off + sLen ≤ wrap64 (msg.length + length) → off + sLen + length ≤ msg.length ∧
      (encodeIPFS ((msg.drop (off + sLen)).take length)).length ≠ IPFS_FIELD_SIZE)

/-- The name of an asset lies in the payload, and the data behind it do if it was found. -/
def AssetFits : Prop :=
  let (count, off) := varInt msg
  msg.length ≤ 16898 → off + count ≤ msg.length ∧
    (((msg.drop off).take count).takeWhile (fun b => b ≠ 0) ≠ [0x5f, 0x4e, 0x46] →
      off + count + 10 < msg.length ∧
        IPFSFits msg (off + count + 11) (msg.getD (off + count + 10) 0))

theorem setIPFSHash_isSome (asset : BRAsset) (hash : Bytes) :
    (setIPFSHash asset hash).isSome ↔ (encodeIPFS hash).length ≠ IPFS_FIELD_SIZE := by
  have hsize : IPFS_FIELD_SIZE = 46 := rfl
  rw [setIPFSHash]
  by_cases h47 : (encodeIPFS hash).length + 1 ≤ 47
  · rw [if_pos h47]
    by_cases h46 : (encodeIPFS hash).length + 1 ≤ IPFS_FIELD_SIZE
    · rw [if_pos h46]
      exact ⟨fun _ => by omega, fun _ => rfl⟩
    · rw [if_neg h46]
      exact ⟨fun h => absurd h Bool.false_ne_true, fun h => absurd (by omega) h⟩
  · rw [if_neg h47]
    exact ⟨fun _ => by omega, fun _ => rfl⟩

theorem readIPFSHash_isSome (off : ℕ) (asset : BRAsset) :
    (readIPFSHash msg off asset).isSome ↔ IPFSFits msg off asset.hasIPFS := by
  have hstack : ∀ size, Yields (stackArray size) (size ≤ PTRDIFF_MAX) () := fun _ =>
    Yields.of_ite rfl
  have hasset : (some asset).isSome := rfl
  rw [readIPFSHash, IPFSFits]
  dsimp only [Option.bind_eq_bind]
  rw [isSome_ite_left hasset]
  refine forall_congr' fun hhash => ?_
  rw [(hstack _).isSome_bind, isSome_ite_left hasset, (peek_yields msg _ _).isSome_bind,
    setIPFSHash_isSome]

theorem acceptAssetMessage_isSome : (ctx.acceptAssetMessage msg).isSome ↔ AssetFits msg := by
  rw [acceptAssetMessage, AssetFits]
  dsimp only [Option.bind_eq_bind]
  rw [isSome_ite_right (ignore_isSome ctx), Nat.not_lt]
  refine forall_congr' fun hlong => ?_
  rw [(peek_yields msg _ _).isSome_bind]
  refine and_congr_right fun hname => ?_
  rw [isSome_ite_right rfl]
  refine forall_congr' fun hfound => ?_
  rw [BRTransaction.getField_eq (by omega), Option.bind_some, (byte_yields msg _).isSome_bind,
    (byte_yields msg _).isSome_bind, (byte_yields msg _).isSome_bind, Option.isSome_map,
    readIPFSHash_isSome]
  exact ⟨fun h => h.2.2, fun h => ⟨by omega, by omega, h⟩⟩

end BRPeerContext

end RavenWallet
