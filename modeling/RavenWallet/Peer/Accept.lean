/-
  The messages of a peer (`_PeerAcceptMessage` of BRPeer.c), other than
  transactions and blocks.

  * `acceptMessage_isSome`: the payloads that are read within their bounds.  Only
    those of `version`, `headers`, `reject` and `assetdata` can be read beyond
    them.
-/
import RavenWallet.Peer.Headers

namespace RavenWallet

/-- The types of messages. -/
inductive MessageType where
  | version
  | verack
  | addr
  | inv
  | headers
  | getaddr
  | getdata
  | notfound
  | ping
  | pong
  | reject
  | feefilter
  | assetdata
  deriving DecidableEq

namespace BRPeerContext

variable (E : PeerEnv) (ctx : BRPeerContext) (type : MessageType) (msg : Bytes)

/-- `_PeerAcceptMessage`.  A message that is not a transaction ends the block before it, the
    transactions of which are incomplete. -/
def acceptMessage : Option Reply :=
  if ctx.currentBlock.isSome then
    some { ok := false, ctx := { ctx with currentBlock := none, currentBlockTxHashes := [] } }
  else
    match type with
    | .version => ctx.acceptVersionMessage msg
    | .verack => ctx.acceptVerackMessage
    | .addr => ctx.acceptAddrMessage E msg
    | .inv => ctx.acceptInvMessage msg
    | .headers => ctx.acceptHeadersMessage E msg
    | .getaddr => ctx.acceptGetaddrMessage
    | .getdata => ctx.acceptGetdataMessage E msg
    | .notfound => ctx.acceptNotfoundMessage msg
    | .ping => ctx.acceptPingMessage msg
    | .pong => ctx.acceptPongMessage msg
    | .reject => ctx.acceptRejectMessage msg
    | .feefilter => ctx.acceptFeeFilterMessage msg
    | .assetdata => ctx.acceptAssetMessage msg

/-- What the lengths and counts in a payload must not say. -/
def PayloadFits : MessageType → Prop
  | .version => VersionFits msg
  | .headers => ctx.HeadersFit E msg
  | .reject => RejectFits msg
  | .assetdata => AssetFits msg
  | _ => True

/-- A message is handled within the bounds of its payload and of what it is written to, unless its
    lengths and counts say otherwise. -/
theorem acceptMessage_isSome : (ctx.acceptMessage E type msg).isSome ↔
    (ctx.currentBlock = none → ctx.PayloadFits E msg type) := by
  unfold acceptMessage
  rw [isSome_ite_right rfl, Bool.not_eq_true, Option.isSome_eq_false_iff,
    Option.isNone_iff_eq_none]
  refine forall_congr' fun _ => ?_
  cases type with
  | version => exact acceptVersionMessage_isSome ctx msg
  | verack => exact iff_true_intro (acceptVerackMessage_isSome ctx)
  | addr => exact iff_true_intro (acceptAddrMessage_isSome E ctx msg)
  | inv => exact iff_true_intro (acceptInvMessage_isSome ctx msg)
  | headers => exact acceptHeadersMessage_isSome E ctx msg
  | getaddr => exact iff_true_intro rfl
  | getdata => exact iff_true_intro (acceptGetdataMessage_isSome E ctx msg)
  | notfound => exact iff_true_intro (acceptNotfoundMessage_isSome ctx msg)
  | ping => exact iff_true_intro (acceptPingMessage_isSome ctx msg)
  | pong => exact iff_true_intro (acceptPongMessage_isSome ctx msg)
  | reject => exact acceptRejectMessage_isSome ctx msg
  | feefilter => exact iff_true_intro (acceptFeeFilterMessage_isSome ctx msg)
  | assetdata => exact acceptAssetMessage_isSome ctx msg

/-- An asset with an IPFS hash. -/
def assetWithHash : Bytes :=
  [3, 0x46, 0x4f, 0x4f] ++ toLE 8 100000000 ++ [0, 1, 1, 34, 0x12, 0x20] ++ List.replicate 32 0xff

/-- The text of an IPFS hash takes 46 bytes, and its NUL is written behind the field. -/
theorem not_acceptMessage_isSome : ¬ ∀ (E : PeerEnv) (ctx : BRPeerContext) (type : MessageType)
    (msg : Bytes), (ctx.acceptMessage E type msg).isSome := by
  intro h
  have hfalse : (acceptAssetMessage {} assetWithHash).isSome = false := by decide +kernel
  have htrue := h ⟨0, fun _ => none, ⟨fun _ => [], fun _ _ _ => [], fun _ => [], fun _ => []⟩⟩ {}
    .assetdata assetWithHash
  exact Bool.false_ne_true (hfalse.symm.trans htrue)

end BRPeerContext

end RavenWallet
