/-
  Messages from one peer to another (`BRPeerSendMessage` of BRPeer.c, and the thread that
  reads them).

  A link has a sender, the bytes that are under way, and the thread of the receiver.
  `send` takes a message in pieces, `read` takes what is under way in others, and the
  steps of both sides come in any order.  `sent` are the messages that were begun.
  At first there may be bytes under way that are no message.

  * `link_delivers`: what is handled was sent, in this order; nothing that was sent is
    taken for a protocol error; once all has arrived, all is handled.
-/
import RavenWallet.Peer.Thread

namespace RavenWallet

/-- What a call of `send` returns: a number of bytes, or -1 with `errno` equal to `EWOULDBLOCK` or
    not. -/
inductive SendOutcome where
  | bytes (n : ℕ)
  | wouldBlock
  | failed

def SendOutcome.taken : SendOutcome → ℕ
  | .bytes n => n
  | _ => 0

def SendOutcome.fails : SendOutcome → Bool
  | .failed => true
  | _ => false

/-- `buf` is what is still to be sent of the message. -/
structure MessageSender where
  socket : Bool := true
  buf : Bytes := []

namespace MessageSender

variable (s : MessageSender)

/-- `BRPeerDisconnect`; the loop of `BRPeerSendMessage` is left. -/
def disconnect : MessageSender := { socket := false, buf := [] }

/-- Whether `BRPeerSendMessage` comes to its loop. -/
def Sends (msg : Bytes) : Prop := msg.length ≤ MAX_MSG_LENGTH ∧ s.socket = true

instance (msg : Bytes) : Decidable (s.Sends msg) := by unfold Sends; infer_instance

/-- The start of `BRPeerSendMessage`. -/
def begin (env : ThreadEnv) (type msg : Bytes) : MessageSender :=
  if s.Sends msg then { s with buf := messageHeader env type msg ++ msg } else s

/-- A round of the loop of `BRPeerSendMessage`, with the bytes that go on the socket. -/
def push (n : SendOutcome) (expired : Bool) : MessageSender × Bytes :=
  (if n.fails || expired then disconnect else { s with buf := s.buf.drop n.taken },
    s.buf.take n.taken)

end MessageSender

structure Link where
  sender : MessageSender := {}
  underWay : Bytes := []
  thread : PeerThread
  sent : List (Bytes × Bytes) := []

inductive LinkEvent where
  | send (type msg : Bytes)
  | push (n : SendOutcome) (expired : Bool)
  | disconnect
  | receive (event : ThreadEvent)

/-- What an event takes of the bytes that are under way. -/
def ThreadEvent.data : ThreadEvent → Bytes
  | .read n .. => n.data
  | _ => []

namespace Link

/-- A message is sent when the one before it has been; the field for its type has room for the name
    and a NUL. -/
def Enabled (l : Link) : LinkEvent → Prop
  | .send type _ => l.sender.buf = [] ∧ type.length < 12 ∧ 0 ∉ type
  | .push n _ => l.sender.socket = true ∧ n.taken ≤ l.sender.buf.length
  | .disconnect => True
  | .receive event => event.data <+: l.underWay ∧ l.thread.Enabled event

def handle (env : ThreadEnv) (l : Link) : LinkEvent → Option Link
  | .send type msg =>
    some { l with
      sender := l.sender.begin env type msg
      sent := if l.sender.Sends msg then l.sent ++ [(type, msg)] else l.sent }
  | .push n expired =>
    let (sender, bytes) := l.sender.push n expired
    some { l with sender, underWay := l.underWay ++ bytes }
  | .disconnect => some { l with sender := MessageSender.disconnect }
  | .receive event =>
    (l.thread.handle env event).map fun thread =>
      { l with thread, underWay := l.underWay.drop event.data.length }

/-- The link, from the start of the thread on. -/
def system (env : ThreadEnv) : System Link LinkEvent where
  init l := ∃ junk thread, (wireFormat env).Unmarked junk ∧ (PeerThread.system env).init thread ∧
    l = { thread, underWay := junk }
  step l event l' := l.Enabled event ∧ l.handle env event = some l'

instance (l : Link) (event : LinkEvent) : Decidable (l.Enabled event) := by
  cases event <;> unfold Enabled <;> infer_instance

/-- What the handler of an enabled event does. -/
def exec (env : ThreadEnv) (l : Link) (event : LinkEvent) : Option Link :=
  if l.Enabled event then l.handle env event else none

theorem exec_step {env : ThreadEnv} {l l' : Link} {event : LinkEvent}
    (h : l.exec env event = some l') : (system env).step l event l' := by
  unfold exec at h
  split_ifs at h with henabled
  exact ⟨henabled, h⟩

end Link

/-! ## The frames that are sent -/

variable {env : ThreadEnv} {type msg : Bytes}

theorem length_strncpy (n : ℕ) (s : Bytes) : (strncpy n s).length = n := by
  rw [strncpy, List.length_append, List.length_take, List.length_replicate]
  omega

theorem length_sum : ((env.conn.H.sha256_2 msg).take 4).length = 4 := by
  rw [List.length_take, env.conn.H.length_sha256_2]
  rfl

theorem length_messageHeader : (messageHeader env type msg).length = HEADER_LENGTH := by
  simp only [messageHeader, List.length_append, length_toLE, length_strncpy, length_sum]
  rfl

theorem typeName_strncpy (hlength : type.length < 12) (hnul : 0 ∉ type) :
    typeName (strncpy 12 type) = type := by
  have hzeros : List.replicate (12 - type.length) (0 : UInt8) =
      0 :: List.replicate (11 - type.length) 0 := by
    rw [← List.replicate_succ]
    congr 1
    omega
  have hall : ∀ b ∈ type, decide (b ≠ 0) = true := by
    intro b hb
    simpa using fun h : b = 0 => hnul (h ▸ hb)
  rw [typeName, strncpy, List.take_of_length_le hlength.le, hzeros,
    List.takeWhile_append_of_pos hall, List.takeWhile_cons_of_neg (by simp), List.append_nil]

/-- A message that is sent is a frame. -/
theorem sent_frame (hlength : type.length < 12) (hnul : 0 ∉ type)
    (hmsg : msg.length ≤ MAX_MSG_LENGTH) :
    (wireFormat env).Frame (messageHeader env type msg) msg (type, msg) := by
  have hmagic : (toLE 4 env.magicNumber.toNat).length = 4 := length_toLE 4 _
  have htype : (strncpy 12 type).length = 12 := length_strncpy 12 type
  have hlen : (toLE 4 msg.length).length = 4 := length_toLE 4 _
  have hdrop : (messageHeader env type msg).drop 4 =
      strncpy 12 type ++ (toLE 4 msg.length ++ (env.conn.H.sha256_2 msg).take 4) :=
    List.drop_left' hmagic
  have hdrop16 : (messageHeader env type msg).drop 16 =
      toLE 4 msg.length ++ (env.conn.H.sha256_2 msg).take 4 := by
    rw [show 16 = 4 + 12 from rfl, ← List.drop_drop, hdrop, List.drop_left' htype]
  have hfits : headerField (messageHeader env type msg) 16 = msg.length := by
    rw [headerField, hdrop16, List.take_left' hlen, ofLE_toLE]
    exact hmsg.trans_lt (by decide)
  have hsum : headerField (env.conn.H.sha256_2 msg) 0 =
      headerField (messageHeader env type msg) 20 := by
    rw [headerField, headerField, show 20 = 16 + 4 from rfl, ← List.drop_drop, hdrop16,
      List.drop_left' hlen, List.drop_zero, List.take_take]
    rfl
  have hnull : (messageHeader env type msg).getD 15 0 = 0 := by
    have hget : (messageHeader env type msg)[15]? = (strncpy 12 type)[11]? := by
      rw [show 15 = 4 + 11 from rfl, ← List.getElem?_drop, hdrop,
        List.getElem?_append_left (by rw [htype]; decide)]
    rw [List.getD_eq_getElem?_getD, hget, strncpy, List.take_of_length_le hlength.le,
      List.getElem?_append_right (by omega), List.getElem?_replicate, if_pos (by omega)]
    rfl
  refine ⟨length_messageHeader, List.prefix_append _ _, ?_, ?_⟩
  · change (if _ then none else some (headerField _ 16)) = _
    rw [hfits, if_neg]
    rintro (h | h)
    · exact h hnull
    · omega
  · change (if _ then some (typeName (headerType _), msg) else none) = _
    rw [if_pos hsum, headerType, hdrop, List.take_left' htype, typeName_strncpy hlength hnul]

/-! ## Runs -/

namespace Link

variable {l l' : Link}

/-- What has arrived, what is under way and what is still to be sent are the messages; `lost` is what
    is not sent any more. -/
structure Linked (env : ThreadEnv) (l : Link) : Prop where
  tracked : PeerThread.Tracked env l.thread
  spells : ∃ junk whole lost, (wireFormat env).Unmarked junk ∧
    FrameFormat.Spells (wireFormat env) l.sent whole ∧
    l.thread.arrived ++ (l.underWay ++ (l.sender.buf ++ lost)) = junk ++ whole ∧
    (l.sender.socket = true → lost = [])

theorem receive_arrived {t t' : PeerThread} {event : ThreadEvent}
    (ht : PeerThread.Tracked env t) (h : (PeerThread.system env).step t event t') :
    t'.arrived = t.arrived ++ event.data := by
  obtain ⟨henabled, h⟩ := h
  cases event with
  | read n expired now requestedTx =>
    obtain ⟨hrunning, hn⟩ := PeerThread.wanted_of_enabled henabled
    exact (PeerThread.round_spec (ht.reads hrunning) hn h).2.1
  | disconnect =>
    cases h
    exact (List.append_nil _).symm
  | call event =>
    obtain ⟨conn, -, rfl⟩ := Option.map_eq_some_iff.1 h
    exact (List.append_nil _).symm

theorem step_linked {event : LinkEvent} (hl : Linked env l) (h : (system env).step l event l') :
    Linked env l' := by
  obtain ⟨henabled, h⟩ := h
  obtain ⟨htracked, junk, whole, lost, hjunk, hspells, hstream, hlost⟩ := hl
  cases event with
  | send type msg =>
    obtain ⟨hbuf, hlength, hnul⟩ := henabled
    cases h
    refine ⟨htracked, ?_⟩
    unfold MessageSender.begin
    split_ifs with hsends
    · have hframe : (wireFormat env).Frame (messageHeader env type msg) msg (type, msg) :=
        sent_frame hlength hnul hsends.1
      obtain rfl := hlost hsends.2
      refine ⟨junk, _, [], hjunk, hspells.concat hframe, ?_, fun _ => rfl⟩
      rw [hbuf, List.append_nil, List.append_nil] at hstream
      rw [List.append_nil, ← List.append_assoc junk, ← hstream, List.append_assoc]
    · exact ⟨junk, whole, lost, hjunk, hspells, hstream, hlost⟩
  | push n expired =>
    obtain ⟨hsocket, hn⟩ := henabled
    obtain rfl := hlost hsocket
    cases h
    refine ⟨htracked, junk, whole, ?_⟩
    have hsplit := List.take_append_drop n.taken l.sender.buf
    dsimp only
    split_ifs with herror
    · refine ⟨l.sender.buf.drop n.taken, hjunk, hspells, ?_, nofun⟩
      rw [← hstream, List.append_nil]
      nth_rewrite 3 [← hsplit]
      simp [MessageSender.disconnect]
    · refine ⟨[], hjunk, hspells, ?_, fun _ => rfl⟩
      rw [← hstream]
      nth_rewrite 3 [← hsplit]
      simp
  | disconnect =>
    cases h
    refine ⟨htracked, junk, whole, l.sender.buf ++ lost, hjunk, hspells, ?_, nofun⟩
    rw [← hstream]
    rfl
  | receive event =>
    obtain ⟨⟨rest, hrest⟩, henabled⟩ := henabled
    obtain ⟨thread, hthread, rfl⟩ := Option.map_eq_some_iff.1 h
    have hstep : (PeerThread.system env).step l.thread event thread := ⟨henabled, hthread⟩
    refine ⟨PeerThread.step_tracked htracked hstep, junk, whole, lost, hjunk, hspells, ?_, hlost⟩
    change thread.arrived ++ (l.underWay.drop event.data.length ++ _) = _
    rw [receive_arrived htracked hstep, ← hrest, List.drop_left, ← hstream, ← hrest]
    simp

theorem run_linked {G : Link → LinkEvent → Prop} (h : (system env).Run G l) : Linked env l := by
  refine System.Run.invariant (J := fun _ => True) (fun _ => trivial) ?_
    (fun _ h _ hstep _ => step_linked h hstep) h
  rintro _ ⟨junk, thread, hjunk, hthread, rfl⟩
  refine ⟨PeerThread.run_tracked (.init hthread (G := fun _ _ => True)), junk, [], [], hjunk, .nil,
    ?_, fun _ => rfl⟩
  obtain ⟨nonce, services, timestamp, header, -, rfl⟩ := hthread
  simp

/-- **Messages arrive**: those that are handled were sent, in this order, and none is missed.  No
    piece of what was sent is taken for a protocol error, unless a handler refuses the message.
    Once all of it has arrived, all is handled. -/
theorem link_delivers (h : (system env).Run (fun _ _ => True) l) :
    l.thread.accepted <+: l.sent ∧
    (l.thread.error = some .EPROTO → l.thread.socket = true → l.thread.refused = true) ∧
    (l.sender.socket = true → l.sender.buf = [] → l.underWay = [] →
      l.thread.conn.running = true → l.thread.accepted = l.sent) := by
  obtain ⟨htracked, junk, whole, lost, hjunk, hspells, hstream, hlost⟩ := run_linked h
  have hprefix : l.thread.arrived <+: junk ++ whole := ⟨_, hstream⟩
  obtain ⟨r, hframed, hbroken⟩ := htracked.cut
  refine ⟨hframed.prefix_sent hjunk hspells hprefix, fun hproto hopen => ?_, ?_⟩
  · by_contra hrefused
    exact hframed.not_broken hjunk hspells hprefix (hbroken hproto hopen (by simpa using hrefused))
  · intro hsocket hbuf hnone hrunning
    have hreads := htracked.reads hrunning
    rw [hlost hsocket, hbuf, hnone] at hstream
    simp only [List.append_nil] at hstream
    exact (hstream ▸ hreads.framed).eq_sent hjunk hspells hreads.incomplete

/-- The link at first, with a byte under way. -/
def sampleLink : Link :=
  { thread := { conn := .new 0 0 0, header := List.replicate 24 0 }, underWay := [7] }

/-- A message is sent in two pieces, and read in two others. -/
def sampleEvents : List LinkEvent :=
  let bytes := 7 :: messageHeader sampleThreadEnv verack []
  [.send verack [], .push (.bytes 10) false,
    .receive (.read (.bytes (bytes.take 7)) false 0 fun _ => none), .push (.bytes 14) false,
    .receive (.read (.bytes (bytes.drop 7)) false 0 fun _ => none)]

theorem link_delivers_verack : ∃ l : Link, l.sent = [(verack, [])] ∧
    l.thread.accepted <+: l.sent ∧
    (l.thread.error = some .EPROTO → l.thread.socket = true → l.thread.refused = true) ∧
    (l.sender.socket = true → l.sender.buf = [] → l.underWay = [] →
      l.thread.conn.running = true → l.thread.accepted = l.sent) := by
  have hrun : ∃ l, sampleEvents.foldlM (exec sampleThreadEnv) sampleLink = some l ∧
      l.sent = [(verack, [])] := ⟨_, rfl, rfl⟩
  obtain ⟨l, hl, hsent⟩ := hrun
  have hinit : (system sampleThreadEnv).init sampleLink :=
    ⟨[7], _, by simp [FrameFormat.Unmarked, wireFormat, toLE, sampleThreadEnv],
      ⟨0, 0, 0, List.replicate 24 0, rfl, rfl⟩, rfl⟩
  exact ⟨l, hsent, link_delivers (System.Run.foldlM (fun h => ⟨trivial, exec_step h⟩)
    (.init hinit) hl)⟩

end Link

end RavenWallet
