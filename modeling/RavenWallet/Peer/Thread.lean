/-
  The thread of a peer, as it reads the socket (`_peerThreadRoutine` of BRPeer.c).

  A round is one call of `read`, with what follows it: the bytes go behind those that
  are in a buffer already, and what is in front of the magic number is shifted out of
  the header; a message whose payload is complete is handled (`BRPeerConnection`).
  The calls of the client come between the rounds.

  `arrived` is all that was read, `accepted` the messages that were handled, and
  `refused` is whether a handler refused one.

  * `run_decodes`: what is handled are the frames that the stream is cut into, however
    it is cut into pieces;
  * `run_connection`: a thread does what a connection does to which these messages come.
-/
import RavenWallet.Lib.Framing
import RavenWallet.Peer.Connection
import RavenWallet.Peer.Continuation
import RavenWallet.Peer.TxManager

namespace RavenWallet

def HEADER_LENGTH : ℕ := 24

/-- What is compared with the name of a type. -/
def typeName (type : Bytes) : Bytes := type.takeWhile fun b => b ≠ 0

/-- The types that `_PeerAcceptMessage` knows, with their names. -/
def messageTypes : List (String × ReceivedType) :=
  [("version", .other .version), ("verack", .other .verack), ("addr", .other .addr),
    ("inv", .other .inv), ("tx", .tx), ("headers", .other .headers), ("getaddr", .other .getaddr),
    ("getdata", .other .getdata), ("notfound", .other .notfound), ("ping", .other .ping),
    ("pong", .other .pong), ("merkleblock", .merkleblock), ("reject", .other .reject),
    ("feefilter", .other .feefilter), ("assetdata", .other .assetdata)]

/-- The bytes of a name. -/
def nameBytes (name : String) : Bytes := name.toList.map fun c => UInt8.ofNat c.toNat

def receivedType (type : Bytes) : ReceivedType :=
  match messageTypes.find? fun entry => nameBytes entry.1 = typeName type with
  | some entry => entry.2
  | none => .unknown

/-- The number in four bytes of a header. -/
def headerField (header : Bytes) (off : ℕ) : ℕ := ofLE ((header.drop off).take 4)

/-- The type in a header. -/
def headerType (header : Bytes) : Bytes := (header.drop 4).take 12

structure ThreadEnv where
  magicNumber : UInt32
  conn : ConnectionEnv

/-- What a call of `read` returns: bytes, 0, or -1 with `errno` equal to `EWOULDBLOCK` or not. -/
inductive ReadResult where
  | bytes (bs : Bytes)
  | closed
  | wouldBlock
  | failed

def ReadResult.data : ReadResult → Bytes
  | .bytes bs => bs
  | _ => []

def ReadResult.error : ReadResult → Option Errno
  | .bytes _ | .wouldBlock => none
  | .closed | .failed => some .other

/-- `socket` is whether there is one; `reading` is the length of the message while its payload is
    read, and the length of `payload` is `payloadLen`. -/
structure PeerThread where
  conn : BRPeerConnection
  socket : Bool := true
  header : Bytes
  len : ℕ := 0
  payload : Bytes := List.replicate 0x1000 0
  reading : Option ℕ := none
  error : Option Errno := none
  arrived : Bytes := []
  accepted : List (Bytes × Bytes) := []
  refused : Bool := false

/-- The bytes in front of the magic number are shifted out, one at a time. -/
def resync (magicNumber : UInt32) : ℕ → Bytes → Bytes × ℕ
  | 0, header => (header, 0)
  | len + 1, header =>
    if 4 ≤ len + 1 ∧ headerField header 0 ≠ magicNumber.toNat then
      resync magicNumber len ((header.drop 1).take len ++ header.drop len)
    else (header, len + 1)

namespace PeerThread

variable (env : ThreadEnv) (t : PeerThread)

/-- How many bytes the next call of `read` asks for. -/
def wanted : ℕ :=
  match t.reading with
  | none => HEADER_LENGTH - t.len
  | some msgLen => msgLen - t.len

/-- The loops are left. -/
def stop : PeerThread := { t with conn := { t.conn with running := false } }

def fail (error : Errno) : PeerThread := { t with error := some error }.stop

/-- The error of a round; `expired` is whether the time is over. -/
def roundError (n : ReadResult) (expired : Bool) : Option Errno :=
  n.error.or (if expired then some .ETIMEDOUT else none)

/-- A round of the loop that reads the header. -/
def readHeader (n : ReadResult) (expired : Bool) : Option PeerThread := do
  let header ← poke t.header t.len n.data
  let (header, len) := resync env.magicNumber (t.len + n.data.length) header
  some { t with
    header, len
    error := roundError n expired
    arrived := t.arrived ++ n.data }

/-- The message is complete. -/
def accept (now : UInt64) (requestedTx : UInt256 → Option BRTransaction) (msgLen : ℕ) :
    Option PeerThread := do
  let msg := t.payload.take msgLen
  if headerField (env.conn.H.sha256_2 msg) 0 ≠ headerField t.header 20 then some (t.fail .EPROTO)
  else do
    let type := headerType t.header
    let (ok, conn) ← t.conn.acceptMessage env.conn now requestedTx (receivedType type) msg
    some { t with
      conn := { conn with running := ok && t.socket }
      error := if ok then none else some .EPROTO
      accepted := t.accepted ++ [(typeName type, msg)]
      refused := !ok
      len := 0
      reading := none }

/-- What is behind the loop that reads the payload. -/
def leavePayload (now : UInt64) (requestedTx : UInt256 → Option BRTransaction) (msgLen : ℕ) :
    Option PeerThread :=
  if t.error.isSome then some t.stop
  else if t.len = msgLen then t.accept env now requestedTx msgLen
  else some t.stop

/-- A round of the loop that reads the payload, or what is behind it. -/
def payloadRound (n : ReadResult) (expired : Bool) (now : UInt64)
    (requestedTx : UInt256 → Option BRTransaction) (msgLen : ℕ) : Option PeerThread := do
  let payload ← poke t.payload t.len n.data
  let t := { t with
    payload
    len := t.len + n.data.length
    error := roundError n expired
    arrived := t.arrived ++ n.data }
  if t.socket ∧ t.error = none ∧ t.len < msgLen then some t
  else t.leavePayload env now requestedTx msgLen

/-- What is behind the loop that reads the header; a payload without bytes is complete. -/
def leaveHeader (now : UInt64) (requestedTx : UInt256 → Option BRTransaction) :
    Option PeerThread :=
  if t.error.isSome then some t.stop
  else if t.header.getD 15 0 ≠ 0 then some (t.fail .EPROTO)
  else if t.len = HEADER_LENGTH then
    let msgLen := headerField t.header 16
    if msgLen > MAX_MSG_LENGTH then some (t.fail .EPROTO)
    else
      let t := { t with
        payload := t.payload ++ List.replicate (msgLen - t.payload.length) 0
        len := 0
        reading := some msgLen }
      if t.socket ∧ 0 < msgLen then some t else t.leavePayload env now requestedTx msgLen
  else some t.stop

/-- A call of `read`, with what follows it up to the next one. -/
def round (n : ReadResult) (expired : Bool) (now : UInt64)
    (requestedTx : UInt256 → Option BRTransaction) : Option PeerThread :=
  match t.reading with
  | some msgLen => t.payloadRound env n expired now requestedTx msgLen
  | none => do
    let t ← t.readHeader env n expired
    if t.socket ∧ t.error = none ∧ t.len < HEADER_LENGTH then some t
    else t.leaveHeader env now requestedTx

end PeerThread

/-- What happens to a thread: its rounds, `BRPeerDisconnect`, and what happens to its connection
    besides. -/
inductive ThreadEvent where
  | read (n : ReadResult) (expired : Bool) (now : UInt64)
      (requestedTx : UInt256 → Option BRTransaction)
  | disconnect
  | call (event : ConnectionEvent)

/-- What happens to a connection but for its messages and its end. -/
def ConnectionEvent.IsCall : ConnectionEvent → Prop
  | .message .. | .error => False
  | _ => True

instance (event : ConnectionEvent) : Decidable event.IsCall :=
  match event with
  | .message .. | .error => instDecidableFalse
  | .sendPing .. | .sendMempool .. | .sendInv _ | .sendGetdata .. | .sendFilterload
  | .sendGetaddr | .rerequestBlocks _ | .setEarliestKeyTime _ | .setCurrentBlockHeight _
  | .setNeedsFilterUpdate _ | .mempoolTime | .cleanup => instDecidableTrue

namespace PeerThread

/-- `read` returns no more bytes than it is asked for, and some if it returns bytes. -/
def Enabled (t : PeerThread) : ThreadEvent → Prop
  | .read (.bytes bs) .. => t.conn.running = true ∧ 0 < bs.length ∧ bs.length ≤ t.wanted
  | .read .. => t.conn.running = true
  | .disconnect => True
  | .call event => event.IsCall ∧ t.conn.Enabled event

def handle (env : ThreadEnv) (t : PeerThread) : ThreadEvent → Option PeerThread
  | .read n expired now requestedTx => t.round env n expired now requestedTx
  | .disconnect => some { t with socket := false }
  | .call event => (t.conn.handle env.conn event).map fun conn => { t with conn }

/-- The thread, from its start on; what is in the header at first is arbitrary. -/
def system (env : ThreadEnv) : System PeerThread ThreadEvent where
  init t := ∃ nonce services timestamp header, header.length = HEADER_LENGTH ∧
    t = { conn := .new nonce services timestamp, header }
  step t event t' := t.Enabled event ∧ t.handle env event = some t'

instance (t : PeerThread) (event : ThreadEvent) : Decidable (t.Enabled event) := by
  cases event with
  | read n expired now requestedTx => cases n <;> unfold Enabled <;> infer_instance
  | _ => unfold Enabled; infer_instance

/-- What the handler of an enabled event does. -/
def exec (env : ThreadEnv) (t : PeerThread) (event : ThreadEvent) : Option PeerThread :=
  if t.Enabled event then t.handle env event else none

theorem exec_step {env : ThreadEnv} {t t' : PeerThread} {event : ThreadEvent}
    (h : t.exec env event = some t') : (system env).step t event t' := by
  unfold exec at h
  split_ifs at h with henabled
  exact ⟨henabled, h⟩

end PeerThread

/-! ## The frames -/

/-- `strncpy` into `n` bytes. -/
def strncpy (n : ℕ) (s : Bytes) : Bytes := s.take n ++ List.replicate (n - s.length) 0

/-- The header that `BRPeerSendMessage` writes in front of a message. -/
def messageHeader (env : ThreadEnv) (type msg : Bytes) : Bytes :=
  toLE 4 env.magicNumber.toNat ++ (strncpy 12 type ++ (toLE 4 msg.length ++
    (env.conn.H.sha256_2 msg).take 4))

/-- An environment with hash functions that hash to zeros. -/
def sampleThreadEnv : ThreadEnv := ⟨0x4e564152, BRPeerConnection.sampleEnv⟩

def verack : Bytes := nameBytes "verack"

/-- A message with its header, as `BRPeerSendMessage` writes it and the thread reads it. -/
def wireFormat (env : ThreadEnv) : FrameFormat UInt8 (Bytes × Bytes) where
  mark := toLE 4 env.magicNumber.toNat
  headerLength := HEADER_LENGTH
  payloadLength header :=
    if header.getD 15 0 ≠ 0 ∨ headerField header 16 > MAX_MSG_LENGTH then none
    else some (headerField header 16)
  content header msg :=
    if headerField (env.conn.H.sha256_2 msg) 0 = headerField header 20 then
      some (typeName (headerType header), msg)
    else none
  mark_pos := by simp
  mark_lt := by simp [HEADER_LENGTH]

namespace PeerThread

variable {env : ThreadEnv} {t t' : PeerThread}

/-! ## The header -/

theorem mark_prefix_iff {header : Bytes} (h : 4 ≤ header.length) :
    (wireFormat env).mark <+: header ↔ headerField header 0 = env.magicNumber.toNat := by
  have hlt : env.magicNumber.toNat < 256 ^ 4 := env.magicNumber.toNat_lt
  change toLE 4 env.magicNumber.toNat <+: header ↔ ofLE ((header.drop 0).take 4) = _
  rw [List.prefix_iff_eq_take, length_toLE, List.drop_zero]
  constructor
  · intro heq
    rw [← heq, ofLE_toLE hlt]
  · intro heq
    have hback := toLE_ofLE (header.take 4)
    rwa [heq, List.length_take_of_le h] at hback

/-- The bytes that are shifted out are dropped from the stream. -/
theorem resync_spec {len : ℕ} {header : Bytes} (h : len ≤ header.length) :
    (resync env.magicNumber len header).1.length = header.length ∧
    (resync env.magicNumber len header).2 ≤ len ∧
    (wireFormat env).Framed (header.take len) []
      ((resync env.magicNumber len header).1.take (resync env.magicNumber len header).2) ∧
    ((resync env.magicNumber len header).2 < 4 ∨
      (wireFormat env).mark <+: (resync env.magicNumber len header).1) := by
  induction len generalizing header with
  | zero => exact ⟨rfl, le_rfl, .wait _, Or.inl (by simp [resync])⟩
  | succ len ih =>
    rw [resync]
    split_ifs with hshift
    · obtain ⟨hlen, hmagic⟩ := hshift
      obtain ⟨x, rest, rfl⟩ : ∃ x rest, header = x :: rest :=
        List.exists_cons_of_length_pos (by omega)
      rw [List.length_cons, Nat.add_le_add_iff_right] at h
      rw [List.drop_one, List.tail_cons]
      have htake : (rest.take len).length = len := List.length_take_of_le h
      have hshifted : (rest.take len ++ (x :: rest).drop len).length = (x :: rest).length := by
        rw [List.length_append, htake, List.length_drop, List.length_cons]
        omega
      have hle : len ≤ (rest.take len ++ (x :: rest).drop len).length := by
        rw [hshifted, List.length_cons]
        omega
      obtain ⟨hlength, hle, hframed, hmark⟩ := ih hle
      refine ⟨hlength.trans hshifted, hle.trans (Nat.le_succ len), ?_, hmark⟩
      rw [List.take_left' htake] at hframed
      rw [List.take_succ_cons]
      refine .skip ?_ ?_ hframed
      · change (toLE 4 _).length ≤ _
        rw [length_toLE, List.length_cons, htake]
        exact hlen
      · intro hfront
        have hheader : 4 ≤ (x :: rest).length := by
          rw [List.length_cons]
          omega
        have hwhole : (wireFormat env).mark <+: x :: rest := by
          rw [← List.take_succ_cons] at hfront
          exact hfront.trans (List.take_prefix _ _)
        exact hmagic ((mark_prefix_iff hheader).1 hwhole)
    · refine ⟨rfl, le_rfl, .wait _, ?_⟩
      by_cases hlen : 4 ≤ len + 1
      · have hheader : 4 ≤ header.length := hlen.trans h
        exact Or.inr ((mark_prefix_iff hheader).2 (not_not.1 fun hne => hshift ⟨hlen, hne⟩))
      · exact Or.inl (by omega)

/-! ## A round -/

/-- What was read of the message that comes next. -/
def pending (t : PeerThread) : Bytes :=
  match t.reading with
  | none => t.header.take t.len
  | some _ => t.header ++ t.payload.take t.len

/-- A header that was read as a whole, for a message with so many bytes. -/
structure Headed (env : ThreadEnv) (t : PeerThread) (msgLen : ℕ) : Prop where
  mark : (wireFormat env).mark <+: t.header
  payloadLength : (wireFormat env).payloadLength t.header = some msgLen
  room : msgLen ≤ t.payload.length

/-- The buffers of a thread that reads on. -/
structure Reads (env : ThreadEnv) (t : PeerThread) : Prop where
  length_header : t.header.length = HEADER_LENGTH
  framed : (wireFormat env).Framed t.arrived t.accepted t.pending
  error : t.error = none
  refused : t.refused = false
  header : t.reading = none →
    t.len < HEADER_LENGTH ∧ (t.len < 4 ∨ (wireFormat env).mark <+: t.header)
  payload : ∀ msgLen, t.reading = some msgLen → Headed env t msgLen ∧ t.len < msgLen

theorem Reads.incomplete (h : Reads env t) : (wireFormat env).Incomplete t.pending := by
  have hmark : (wireFormat env).mark.length = 4 := length_toLE 4 _
  unfold pending
  cases hreading : t.reading with
  | none =>
    obtain ⟨hlen, hstart⟩ := h.header hreading
    have htake : (t.header.take t.len).length = t.len :=
      List.length_take_of_le (h.length_header ▸ hlen.le)
    rcases Nat.lt_or_ge t.len 4 with hshort | hlong
    · exact FrameFormat.incomplete_of_lt (by rw [htake, hmark]; exact hshort)
    · have hfront := hstart.resolve_left (by omega)
      refine FrameFormat.incomplete_of_header (List.prefix_take_iff.2 ⟨hfront, by omega⟩) ?_
      rw [htake]
      exact hlen
  | some msgLen =>
    obtain ⟨hheaded, hlen⟩ := h.payload msgLen hreading
    refine FrameFormat.incomplete_of_payload h.length_header hheaded.mark hheaded.payloadLength ?_
    rw [List.length_take]
    omega

/-- What a round comes to: the thread reads on, or its loops are left, or a message is handled. -/
inductive RoundTo (env : ThreadEnv) (t : PeerThread) : PeerThread → Prop
  | wait {t' : PeerThread} : t'.conn = t.conn → t'.accepted = t.accepted → Reads env t' →
      RoundTo env t t'
  | stop {t' : PeerThread} {r : Bytes} : t'.conn = t.stop.conn → t'.accepted = t.accepted →
      t'.refused = false → (wireFormat env).Framed t'.arrived t'.accepted r →
      (t'.error = some .EPROTO → t.socket = false ∨ (wireFormat env).Broken r) → RoundTo env t t'
  | accept {t' : PeerThread} {now : UInt64} {requestedTx : UInt256 → Option BRTransaction}
      {type msg : Bytes} {ok : Bool} {conn : BRPeerConnection} :
      t.conn.acceptMessage env.conn now requestedTx (receivedType type) msg = some (ok, conn) →
      t'.conn = { conn with running := ok && t.socket } →
      t'.accepted = t.accepted ++ [(typeName type, msg)] → t'.refused = !ok →
      (wireFormat env).Framed t'.arrived t'.accepted [] → (ok = true → Reads env t') →
      RoundTo env t t'

theorem RoundTo.congr {s : PeerThread} (hconn : s.conn = t.conn)
    (haccepted : s.accepted = t.accepted) (hsocket : s.socket = t.socket)
    (h : RoundTo env s t') : RoundTo env t t' := by
  cases h with
  | wait hc ha hr => exact .wait (hc.trans hconn) (ha.trans haccepted) hr
  | stop hc ha hrefused hframed hbroken =>
    refine .stop ?_ (ha.trans haccepted) hrefused hframed (hsocket ▸ hbroken)
    rw [hc, PeerThread.stop, PeerThread.stop, hconn]
  | accept hhandled hc ha hrefused hframed hreads =>
    exact .accept (hconn ▸ hhandled) (hsocket ▸ hc) (haccepted ▸ ha) hrefused hframed hreads

variable {now : UInt64} {requestedTx : UInt256 → Option BRTransaction} {msgLen : ℕ}

/-- The last round of a message. -/
theorem accept_spec (hlength : t.header.length = HEADER_LENGTH) (hheaded : Headed env t msgLen)
    (hrefused : t.refused = false)
    (hframed : (wireFormat env).Framed t.arrived t.accepted (t.header ++ t.payload.take msgLen))
    (h : t.accept env now requestedTx msgLen = some t') :
    RoundTo env t t' ∧ t'.arrived = t.arrived ∧ t'.socket = t.socket := by
  have htake : (t.payload.take msgLen).length = msgLen := List.length_take_of_le hheaded.room
  unfold accept at h
  dsimp only at h
  split_ifs at h with hsum
  · cases h
    refine ⟨.stop rfl rfl hrefused hframed fun _ => Or.inr ⟨?_, ?_, ?_⟩, rfl, rfl⟩
    · exact hheaded.mark.trans (List.prefix_append _ _)
    · rw [List.length_append, hlength]
      have hmark := (wireFormat env).mark_lt
      change _ < HEADER_LENGTH at hmark
      omega
    · intro header payload x s f hframe heq
      rw [List.append_assoc] at heq
      obtain ⟨rfl, hrest⟩ := List.append_inj heq (hlength.trans hframe.length_header.symm)
      have hpayload : payload.length = msgLen :=
        Option.some.inj (hframe.length_payload.symm.trans hheaded.payloadLength)
      obtain ⟨rfl, -⟩ := List.append_inj hrest (htake.trans hpayload.symm)
      have hcontent := hframe.content
      change (if _ then some (typeName _, _) else none) = some f at hcontent
      rw [if_neg hsum] at hcontent
      cases hcontent
  · obtain ⟨⟨ok, conn⟩, hhandled, h⟩ := Option.bind_eq_some_iff.1 h
    cases h
    have hsum := not_not.1 hsum
    have hframe : (wireFormat env).Frame t.header (t.payload.take msgLen)
        (typeName (headerType t.header), t.payload.take msgLen) :=
      ⟨hlength, hheaded.mark, by rw [htake]; exact hheaded.payloadLength, if_pos hsum⟩
    have hcut : (wireFormat env).Framed t.arrived
        (t.accepted ++ [(typeName (headerType t.header), t.payload.take msgLen)]) [] := by
      have hlast := FrameFormat.Framed.frame hframe (.wait [])
      rw [List.append_nil] at hlast
      exact hframed.trans hlast
    refine ⟨.accept hhandled rfl rfl rfl hcut ?_, rfl, rfl⟩
    rintro rfl
    refine ⟨hlength, ?_, rfl, rfl, fun _ => ⟨by simp [HEADER_LENGTH], Or.inl (by simp)⟩, nofun⟩
    simpa [pending] using hcut

/-- The end of the loop that reads a payload. -/
theorem leavePayload_spec (hlength : t.header.length = HEADER_LENGTH)
    (hheaded : Headed env t msgLen) (hrefused : t.refused = false) (hle : t.len ≤ msgLen)
    (herror : t.error ≠ some .EPROTO)
    (hframed : (wireFormat env).Framed t.arrived t.accepted (t.header ++ t.payload.take t.len))
    (h : t.leavePayload env now requestedTx msgLen = some t') :
    RoundTo env t t' ∧ t'.arrived = t.arrived ∧ t'.socket = t.socket := by
  unfold leavePayload at h
  split_ifs at h with hfailed hlen
  · cases h
    exact ⟨.stop rfl rfl hrefused hframed fun hproto => absurd hproto herror, rfl, rfl⟩
  · subst hlen
    exact accept_spec hlength hheaded hrefused hframed h
  · cases h
    exact ⟨.stop rfl rfl hrefused hframed fun hproto => absurd hproto herror, rfl, rfl⟩

theorem roundError_ne (n : ReadResult) (expired : Bool) : roundError n expired ≠ some .EPROTO := by
  cases n <;> cases expired <;> simp [roundError, ReadResult.error]

theorem payloadRound_spec {n : ReadResult} {expired : Bool} (ht : Reads env t)
    (hreading : t.reading = some msgLen) (hn : t.len + n.data.length ≤ msgLen)
    (h : t.payloadRound env n expired now requestedTx msgLen = some t') :
    RoundTo env t t' ∧ t'.arrived = t.arrived ++ n.data ∧ t'.socket = t.socket := by
  obtain ⟨hheaded, hlen⟩ := ht.payload msgLen hreading
  unfold payloadRound at h
  obtain ⟨payload, hpoke, h⟩ := Option.bind_eq_some_iff.1 h
  obtain ⟨hroom, hsize⟩ := poke_some hpoke
  have hpayload : msgLen ≤ payload.length := hsize ▸ hheaded.room
  have hframed : (wireFormat env).Framed (t.arrived ++ n.data) t.accepted
      (t.header ++ payload.take (t.len + n.data.length)) := by
    have hbefore := ht.framed
    rw [pending, hreading] at hbefore
    rw [poke_take hpoke, ← List.append_assoc]
    exact hbefore.append n.data
  dsimp only at h
  split_ifs at h with hon
  · cases h
    refine ⟨.wait rfl rfl ⟨ht.length_header, ?_, hon.2.1, ht.refused, fun hnone => ?_,
      fun _ hsome => ?_⟩, rfl, rfl⟩
    · rw [pending, hreading]
      exact hframed
    · rw [hreading] at hnone
      cases hnone
    · obtain rfl := Option.some.inj (hreading.symm.trans hsome)
      exact ⟨⟨hheaded.mark, hheaded.payloadLength, hpayload⟩, hon.2.2⟩
  · let read : PeerThread := { t with
      payload
      len := t.len + n.data.length
      error := roundError n expired
      arrived := t.arrived ++ n.data }
    obtain ⟨hto, harrived, hsocket⟩ := leavePayload_spec (t := read) ht.length_header
      ⟨hheaded.mark, hheaded.payloadLength, hpayload⟩ ht.refused hn (roundError_ne n expired)
      hframed h
    exact ⟨.congr (s := read) rfl rfl rfl hto, harrived, hsocket⟩

/-- The end of the loop that reads a header. -/
theorem leaveHeader_spec (hlength : t.header.length = HEADER_LENGTH) (hrefused : t.refused = false)
    (hmark : t.len < 4 ∨ (wireFormat env).mark <+: t.header) (herror : t.error ≠ some .EPROTO)
    (hframed : (wireFormat env).Framed t.arrived t.accepted (t.header.take t.len))
    (hleft : t.socket = true → t.error = none → t.len = HEADER_LENGTH)
    (h : t.leaveHeader env now requestedTx = some t') :
    RoundTo env t t' ∧ t'.arrived = t.arrived ∧ t'.socket = t.socket := by
  let grown : PeerThread := { t with
    payload := t.payload ++ List.replicate (headerField t.header 16 - t.payload.length) 0
    len := 0
    reading := some (headerField t.header 16) }
  have hcomplete (hwhole : t.len = HEADER_LENGTH) :
      (wireFormat env).Framed t.arrived t.accepted t.header := by
    rwa [List.take_of_length_le (by omega)] at hframed
  have hheaded (hwhole : t.len = HEADER_LENGTH) (htype : ¬ t.header.getD 15 0 ≠ 0)
      (hlong : ¬ headerField t.header 16 > MAX_MSG_LENGTH) :
      Headed env grown (headerField t.header 16) := by
    refine ⟨hmark.resolve_left (by rw [hwhole]; decide), if_neg (not_or.2 ⟨htype, hlong⟩), ?_⟩
    change _ ≤ (t.payload ++ _).length
    rw [List.length_append, List.length_replicate]
    omega
  -- a whole header that no frame has
  have hbroken (hwhole : t.len = HEADER_LENGTH)
      (hnone : (wireFormat env).payloadLength t.header = none) :
      (wireFormat env).Broken (t.header.take t.len) := by
    have htake : t.header.take t.len = t.header := List.take_of_length_le (by omega)
    have hfront : (wireFormat env).mark <+: t.header :=
      hmark.resolve_left (by rw [hwhole]; decide)
    rw [htake]
    refine ⟨hfront, hlength ▸ (wireFormat env).mark_lt, ?_⟩
    intro header payload x s f hframe heq
    obtain ⟨rfl, -⟩ := List.append_inj heq (hlength.trans hframe.length_header.symm)
    have hsome := hframe.length_payload
    rw [hnone] at hsome
    cases hsome
  unfold leaveHeader at h
  dsimp only at h
  split_ifs at h with hfailed htype hwhole hlong hon
  · cases h
    exact ⟨.stop rfl rfl hrefused hframed fun hproto => absurd hproto herror, rfl, rfl⟩
  · cases h
    refine ⟨.stop rfl rfl hrefused hframed fun _ => ?_, rfl, rfl⟩
    cases hsocket : t.socket with
    | false => exact Or.inl rfl
    | true =>
      exact Or.inr (hbroken (hleft hsocket (by simpa using hfailed)) (if_pos (Or.inl htype)))
  · cases h
    exact ⟨.stop rfl rfl hrefused hframed fun _ => Or.inr (hbroken hwhole (if_pos (Or.inr hlong))),
      rfl, rfl⟩
  · cases h
    refine ⟨.wait rfl rfl ⟨hlength, ?_, Option.not_isSome_iff_eq_none.1 hfailed, hrefused, nofun,
      fun msgLen hsome => ?_⟩, rfl, rfl⟩
    · rw [pending]
      simpa using hcomplete hwhole
    · obtain rfl := Option.some.inj hsome
      exact ⟨hheaded hwhole htype hlong, hon.2⟩
  · obtain ⟨hto, harrived, hsocket⟩ := leavePayload_spec (t := grown) hlength
      (hheaded hwhole htype hlong) hrefused (Nat.zero_le _) herror
      (by simpa [grown] using hcomplete hwhole) h
    exact ⟨.congr (s := grown) rfl rfl rfl hto, harrived, hsocket⟩
  · cases h
    exact ⟨.stop rfl rfl hrefused hframed fun hproto => absurd hproto herror, rfl, rfl⟩

theorem round_spec {n : ReadResult} {expired : Bool} (ht : Reads env t)
    (hn : n.data.length ≤ t.wanted) (h : t.round env n expired now requestedTx = some t') :
    RoundTo env t t' ∧ t'.arrived = t.arrived ++ n.data ∧ t'.socket = t.socket := by
  unfold round at h
  unfold wanted at hn
  cases hreading : t.reading with
  | some msgLen =>
    rw [hreading] at h hn
    obtain ⟨-, hlen⟩ := ht.payload msgLen hreading
    exact payloadRound_spec ht hreading (by dsimp only at hn; omega) h
  | none =>
    rw [hreading] at h hn
    dsimp only at h hn
    obtain ⟨hlen, -⟩ := ht.header hreading
    obtain ⟨read, hread, h⟩ := Option.bind_eq_some_iff.1 h
    obtain ⟨header, hpoke, hread⟩ := Option.bind_eq_some_iff.1 hread
    obtain ⟨hroom, hsize⟩ := poke_some hpoke
    have hbefore := ht.framed
    rw [pending, hreading] at hbefore
    have hlen' : t.len + n.data.length ≤ header.length := hsize ▸ hroom
    obtain ⟨hlength, hle, hshifted, hmark⟩ := @resync_spec env _ _ hlen'
    generalize resync env.magicNumber (t.len + n.data.length) header = synced at *
    have hframed : (wireFormat env).Framed (t.arrived ++ n.data) t.accepted
        (synced.1.take synced.2) := by
      have hall := (hbefore.append n.data).trans (poke_take hpoke ▸ hshifted)
      rwa [List.append_nil] at hall
    have hlength : synced.1.length = HEADER_LENGTH := hlength.trans (hsize.trans ht.length_header)
    cases hread
    split_ifs at h with hon
    · cases h
      exact ⟨.wait rfl rfl ⟨hlength, by rw [pending, hreading]; exact hframed, hon.2.1, ht.refused,
        fun _ => ⟨hon.2.2, hmark⟩, fun _ hsome => by rw [hreading] at hsome; cases hsome⟩, rfl, rfl⟩
    · let read : PeerThread := { t with
        header := synced.1
        len := synced.2
        error := roundError n expired
        arrived := t.arrived ++ n.data }
      have hleft (hsocket : t.socket = true) (herror : roundError n expired = none) :
          synced.2 = HEADER_LENGTH := by
        have hlong : ¬ synced.2 < HEADER_LENGTH := fun hlt => hon ⟨hsocket, herror, hlt⟩
        have := ht.length_header
        omega
      obtain ⟨hto, harrived, hsocket⟩ := leaveHeader_spec (t := read) hlength ht.refused hmark
        (roundError_ne n expired) hframed hleft h
      exact ⟨.congr (s := read) rfl rfl rfl hto, harrived, hsocket⟩

/-! ## Runs -/

/-- Neither a call nor the end of the socket changes what is read. -/
theorem Reads.besides (h : Reads env t) (conn : BRPeerConnection) (socket : Bool) :
    Reads env { t with conn, socket } := by
  refine ⟨h.length_header, h.framed, h.error, h.refused, h.header, fun msgLen hreading => ?_⟩
  obtain ⟨hheaded, hlen⟩ := h.payload msgLen hreading
  exact ⟨⟨hheaded.mark, hheaded.payloadLength, hheaded.room⟩, hlen⟩

/-- What a thread has read and handled. -/
structure Tracked (env : ThreadEnv) (t : PeerThread) : Prop where
  reads : t.conn.running = true → Reads env t
  cut : ∃ r, (wireFormat env).Framed t.arrived t.accepted r ∧
    (t.error = some .EPROTO → t.socket = true → t.refused = false → (wireFormat env).Broken r)

theorem Reads.tracked (h : Reads env t) : Tracked env t := by
  refine ⟨fun _ => h, t.pending, h.framed, fun hproto => ?_⟩
  rw [h.error] at hproto
  cases hproto

theorem RoundTo.tracked (hto : RoundTo env t t') (hsocket : t'.socket = t.socket) :
    Tracked env t' := by
  cases hto with
  | wait _ _ hreads => exact hreads.tracked
  | @stop r hconn _ _ hframed hbroken =>
    refine ⟨fun hrunning => ?_, r, hframed, fun hproto hopen _ => ?_⟩
    · rw [hconn] at hrunning
      cases hrunning
    · refine (hbroken hproto).resolve_left ?_
      rw [← hsocket, hopen]
      simp
  | @accept _ _ _ _ ok _ _ hconn _ hrefused hframed hreads =>
    cases ok with
    | true => exact (hreads rfl).tracked
    | false =>
      refine ⟨fun hrunning => ?_, [], hframed, fun _ _ hno => ?_⟩
      · rw [hconn] at hrunning
        cases hrunning
      · rw [hrefused] at hno
        cases hno

/-- A call leaves it to the thread whether it goes on. -/
theorem call_running {E : ConnectionEnv} {c c' : BRPeerConnection} {event : ConnectionEvent}
    (hcall : event.IsCall) (h : c.handle E event = some c') : c'.running = c.running := by
  cases event with
  | message | error => cases hcall
  | cleanup =>
    change c.cleanup = some c' at h
    unfold BRPeerConnection.cleanup at h
    split at h
    · obtain ⟨c₁, hpop, rfl⟩ := Option.map_eq_some_iff.1 h
      unfold BRPeerConnection.popPong at hpop
      split at hpop
      · cases hpop
        rfl
      · cases hpop
    · cases h
      rfl
  | sendMempool knownTxHashes info completionCallback =>
    cases h
    unfold BRPeerConnection.sendMempool
    dsimp only
    split_ifs
    · cases completionCallback <;> rfl
    · rfl
  | rerequestBlocks fromBlock =>
    cases h
    unfold BRPeerConnection.rerequestBlocks
    dsimp only
    split_ifs <;> rfl
  | _ =>
    cases h
    rfl

theorem wanted_of_enabled {n : ReadResult} {expired : Bool}
    (h : t.Enabled (.read n expired now requestedTx)) :
    t.conn.running = true ∧ n.data.length ≤ t.wanted := by
  cases n with
  | bytes bs => exact ⟨h.1, h.2.2⟩
  | _ => exact ⟨h, Nat.zero_le _⟩

theorem step_tracked {event : ThreadEvent} (ht : Tracked env t)
    (h : (system env).step t event t') : Tracked env t' := by
  obtain ⟨henabled, h⟩ := h
  cases event with
  | read n expired now requestedTx =>
    obtain ⟨hrunning, hn⟩ := wanted_of_enabled henabled
    obtain ⟨hto, -, hsocket⟩ := round_spec (ht.reads hrunning) hn h
    exact hto.tracked hsocket
  | disconnect =>
    cases h
    obtain ⟨hreads, r, hframed, -⟩ := ht
    exact ⟨fun hrunning => (hreads hrunning).besides _ _, r, hframed, nofun⟩
  | call event =>
    obtain ⟨conn, hconn, rfl⟩ := Option.map_eq_some_iff.1 h
    obtain ⟨hreads, hcut⟩ := ht
    refine ⟨fun hrunning => ?_, hcut⟩
    exact (hreads ((call_running henabled.1 hconn).symm.trans hrunning)).besides _ _

theorem run_tracked {G : PeerThread → ThreadEvent → Prop} (ht : (system env).Run G t) :
    Tracked env t := by
  refine System.Run.invariant (J := fun _ => True) (fun _ => trivial) ?_
    (fun _ h _ hstep _ => step_tracked h hstep) ht
  rintro _ ⟨nonce, services, timestamp, header, hlength, rfl⟩
  refine Reads.tracked ⟨hlength, .wait _, rfl, rfl, fun _ => ⟨?_, Or.inl ?_⟩, nofun⟩
  · change 0 < HEADER_LENGTH
    decide
  · change 0 < 4
    decide

/-- **The stream is cut into messages**, whatever pieces it comes in.  The messages that are handled
    are the frames of what has arrived; another thread, to which the same bytes come in other
    pieces, has handled them too if it reads on. -/
theorem run_decodes (ht : (system env).Run (fun _ _ => True) t)
    (ht' : (system env).Run (fun _ _ => True) t') (hrunning : t'.conn.running = true)
    (harrived : t.arrived <+: t'.arrived) :
    (∃ r, (wireFormat env).Framed t.arrived t.accepted r ∧
      (t.conn.running = true → (wireFormat env).Incomplete r)) ∧
    t.accepted <+: t'.accepted ∧
      (t.conn.running = true → t.arrived = t'.arrived → t.accepted = t'.accepted) := by
  have hreads := (run_tracked ht').reads hrunning
  obtain ⟨rest, hrest⟩ := harrived
  obtain ⟨r, hframed, -⟩ := (run_tracked ht).cut
  have hfront : t.accepted <+: t'.accepted :=
    hframed.prefix_of_incomplete (hrest.symm ▸ hreads.framed) hreads.incomplete
  refine ⟨?_, hfront, fun hboth heq => ?_⟩
  · by_cases hboth : t.conn.running = true
    · have hthis := (run_tracked ht).reads hboth
      exact ⟨t.pending, hthis.framed, fun _ => hthis.incomplete⟩
    · exact ⟨r, hframed, fun h => absurd h hboth⟩
  · have hthis := (run_tracked ht).reads hboth
    have hback : t'.accepted <+: t.accepted := by
      refine hreads.framed.prefix_of_incomplete (t := []) ?_ hthis.incomplete
      rw [List.append_nil, ← heq]
      exact hthis.framed
    exact hfront.eq_of_length_le hback.length_le

/-- A thread at its start, with hash functions that hash to zeros. -/
def sampleThread : PeerThread := { conn := .new 0 0 0, header := List.replicate 24 0 }

/-- The thread reads these bytes. -/
def readOf (bs : Bytes) : ThreadEvent := .read (.bytes bs) false 0 fun _ => none

/-- A byte that is no message, and a message. -/
def sampleStream : Bytes := 7 :: messageHeader sampleThreadEnv verack []

theorem sampleThread_init : (system sampleThreadEnv).init sampleThread :=
  ⟨0, 0, 0, List.replicate 24 0, rfl, rfl⟩

theorem run_decodes_verack : ∃ t t' : PeerThread, t.arrived = sampleStream ∧
    (∃ r, (wireFormat sampleThreadEnv).Framed t.arrived t.accepted r ∧
      (t.conn.running = true → (wireFormat sampleThreadEnv).Incomplete r)) ∧
    t.accepted <+: t'.accepted ∧
      (t.conn.running = true → t.arrived = t'.arrived → t.accepted = t'.accepted) := by
  have htwo : ∃ t, [readOf (sampleStream.take 7), readOf (sampleStream.drop 7)].foldlM
      (exec sampleThreadEnv) sampleThread = some t ∧ t.arrived = sampleStream := ⟨_, rfl, rfl⟩
  have hmany : ∃ t, (sampleStream.map fun b => readOf [b]).foldlM
      (exec sampleThreadEnv) sampleThread = some t ∧ t.arrived = sampleStream ∧
        t.conn.running = true := ⟨_, rfl, rfl, rfl⟩
  obtain ⟨t, ht, harrived⟩ := htwo
  obtain ⟨t', ht', harrived', hrunning⟩ := hmany
  exact ⟨t, t', harrived, run_decodes
    (System.Run.foldlM (fun h => ⟨trivial, exec_step h⟩) (.init sampleThread_init) ht)
    (System.Run.foldlM (fun h => ⟨trivial, exec_step h⟩) (.init sampleThread_init) ht') hrunning
    (by rw [harrived, harrived'])⟩

/-! ## The connection of a thread -/

theorem typeName_typeName (type : Bytes) : typeName (typeName type) = typeName type := by
  induction type with
  | nil => rfl
  | cons b type ih =>
    unfold typeName at ih ⊢
    rw [List.takeWhile_cons]
    split_ifs with hb
    · rw [List.takeWhile_cons, if_pos hb, ih]
    · rfl

theorem receivedType_typeName (type : Bytes) :
    receivedType (typeName type) = receivedType type := by
  rw [receivedType, receivedType, typeName_typeName]

/-- The messages that come to a connection. -/
def received (steps : List (BRPeerConnection × ConnectionEvent × BRPeerConnection)) :
    List (ReceivedType × Bytes) :=
  steps.filterMap fun step =>
    match step.2.1 with
    | .message _ _ type msg => some (type, msg)
    | _ => none

theorem received_call {steps : List (BRPeerConnection × ConnectionEvent × BRPeerConnection)}
    {c c' : BRPeerConnection} {event : ConnectionEvent} (h : event.IsCall) :
    received (steps ++ [(c, event, c')]) = received steps := by
  cases event with
  | message => cases h
  | _ => simp [received]

/-- A round is nothing to the connection, or its end, or a message. -/
theorem RoundTo.steps {steps : List (BRPeerConnection × ConnectionEvent × BRPeerConnection)}
    (hto : RoundTo env t t') (hrunning : t.conn.running = true)
    (hsteps : (BRPeerConnection.system env.conn).Steps steps t.conn)
    (hreceived : received steps = t.accepted.map fun m => (receivedType m.1, m.2)) :
    ∃ steps, (BRPeerConnection.system env.conn).Steps steps t'.conn ∧
      received steps = t'.accepted.map fun m => (receivedType m.1, m.2) := by
  cases hto with
  | wait hconn haccepted _ =>
    rw [hconn, haccepted]
    exact ⟨steps, hsteps, hreceived⟩
  | stop hconn haccepted _ _ _ =>
    have herror : (BRPeerConnection.system env.conn).step t.conn .error t.stop.conn :=
      ⟨hrunning, rfl⟩
    rw [hconn, haccepted]
    refine ⟨_, hsteps.step herror, ?_⟩
    rw [← hreceived]
    simp [received]
  | @accept now requestedTx type msg ok conn hhandled hconn haccepted _ _ _ =>
    have hmessage : (BRPeerConnection.system env.conn).step t.conn
        (.message now requestedTx (receivedType type) msg) { conn with running := ok } :=
      ⟨hrunning, Option.map_eq_some_iff.2 ⟨_, hhandled, rfl⟩⟩
    have hafter := hsteps.step hmessage
    have hnow : received (steps ++ [(t.conn, .message now requestedTx (receivedType type) msg,
        { conn with running := ok })]) = t'.accepted.map fun m => (receivedType m.1, m.2) := by
      rw [haccepted, List.map_append, ← hreceived, List.map_singleton, receivedType_typeName]
      simp [received]
    cases hsocket : t.socket with
    | true =>
      rw [hsocket, Bool.and_true] at hconn
      rw [hconn]
      exact ⟨_, hafter, hnow⟩
    | false =>
      rw [hsocket, Bool.and_false] at hconn
      rw [hconn]
      cases ok with
      | false => exact ⟨_, hafter, hnow⟩
      | true =>
        have herror : (BRPeerConnection.system env.conn).step { conn with running := true } .error
            { conn with running := false } := ⟨rfl, rfl⟩
        refine ⟨_, hafter.step herror, ?_⟩
        rw [← hnow]
        simp [received]

/-- **The thread is a connection** to which the messages come that the stream is cut into. -/
theorem run_connection (ht : (system env).Run (fun _ _ => True) t) :
    ∃ steps, (BRPeerConnection.system env.conn).Steps steps t.conn ∧
      received steps = t.accepted.map fun m => (receivedType m.1, m.2) := by
  induction ht with
  | init h0 =>
    obtain ⟨nonce, services, timestamp, header, -, rfl⟩ := h0
    exact ⟨[], .init ⟨nonce, services, timestamp, rfl⟩, rfl⟩
  | @step t t' event hrun _ hstep ih =>
    obtain ⟨steps, hsteps, hreceived⟩ := ih
    obtain ⟨henabled, h⟩ := hstep
    cases event with
    | read n expired now requestedTx =>
      obtain ⟨hrunning, hn⟩ := wanted_of_enabled henabled
      exact (round_spec ((run_tracked hrun).reads hrunning) hn h).1.steps hrunning hsteps hreceived
    | disconnect =>
      cases h
      exact ⟨steps, hsteps, hreceived⟩
    | call event =>
      obtain ⟨conn, hconn, rfl⟩ := Option.map_eq_some_iff.1 h
      refine ⟨_, hsteps.step ⟨henabled.2, hconn⟩, ?_⟩
      rw [received_call henabled.1]
      exact hreceived

theorem run_connection_verack : ∃ t : PeerThread, t.arrived = sampleStream ∧
    ∃ steps, (BRPeerConnection.system sampleThreadEnv.conn).Steps steps t.conn ∧
      received steps = t.accepted.map fun m => (receivedType m.1, m.2) := by
  have hrun : ∃ t, [readOf (sampleStream.take 7), readOf (sampleStream.drop 7)].foldlM
      (exec sampleThreadEnv) sampleThread = some t ∧ t.arrived = sampleStream := ⟨_, rfl, rfl⟩
  obtain ⟨t, ht, harrived⟩ := hrun
  exact ⟨t, harrived, run_connection
    (System.Run.foldlM (fun h => ⟨trivial, exec_step h⟩) (.init sampleThread_init) ht)⟩

end PeerThread

end RavenWallet
