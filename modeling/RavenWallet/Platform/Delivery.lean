/-
  What the receiver of a web socket delivers.

  * `finishPacket_spec`: what a packet tells the client, against the inbox of a
    receiver that keeps to the protocol.
  * `parse_frames`: how frames that no earlier one blocks (`Flows`) are taken,
    and when all is delivered (`Complete`); `flows_of_headerb1`: other frames
    are not taken.
  * `received_iff`: the messages are delivered if and only if every frame is
    `Handled`, and only a length that is no `Int` traps.  A ping, a frame with a
    mask after a length of 64 bits, a binary message in one frame, and a message
    with its payload in several frames are not handled: `not_received`.
-/
import RavenWallet.Platform.Frames

namespace RavenWallet

theorem message?_inj {kind : SocketOpcode} {a b : Bytes} {m : SocketMessage}
    (ha : message? kind a = some m) (hb : message? kind b = some m) : a = b := by
  unfold message? at ha hb
  by_cases hkind : kind = .text
  · rw [if_pos hkind] at ha hb
    obtain ⟨x, hx, rfl⟩ := Option.map_eq_some_iff.1 ha
    obtain ⟨y, hy, hxy⟩ := Option.map_eq_some_iff.1 hb
    obtain rfl := SocketMessage.text.inj hxy
    rw [← decodeUTF8_eq_some hx, ← decodeUTF8_eq_some hy]
  · rw [if_neg hkind] at ha hb
    obtain rfl := Option.some.inj ha
    exact (SocketMessage.data.inj (Option.some.inj hb)).symm

namespace BRWebSocketImpl

variable {s t u : BRWebSocketImpl} {f : Frame} {r r' : Inbox} {w : ℕ}

/-! ## Frames that are not taken -/

/-- All that follows a ping is ignored. -/
theorem parse_ping (hs : Idle s) (hping : f.opcode = .ping) :
    ∃ t, s.parseMessages f.bytes = some t ∧ t.state = .headerb2 := by
  have hloop : ∀ {t : BRWebSocketImpl} (bs : Bytes), t.state = .headerb2 → t.opcode = .ping →
      t.parseMessages bs = some t := by
    intro t bs hstate hopc
    induction bs with
    | nil => rfl
    | cons b bs ih =>
      have hbyte : t.parseMessage b = some t := by
        unfold parseMessage parseHeaderb2
        simp [hstate, hopc]
      rw [parseMessages_cons, hbyte, Option.bind_some, ih]
  unfold Frame.bytes
  rw [parseMessages_cons, parse_first hs, Option.bind_some]
  exact ⟨_, hloop _ rfl hping, rfl⟩

/-- The key is never complete after a length of 64 bits. -/
theorem parse_stuck (hs : Idle s) (hping : f.opcode ≠ .ping) (hmask : f.mask.isSome)
    (hstuck : 4 < f.lastLength s.lengtharrayWritten) :
    ∃ t, s.parseMessages f.bytes = some t ∧ t.state = .mask := by
  have hloop : ∀ {t : BRWebSocketImpl} (bs : Bytes), t.state = .mask → 4 < t.lengtharrayWritten →
      ∃ u, t.parseMessages bs = some u ∧ u.state = .mask := by
    intro t bs hstate hwritten
    induction bs generalizing t with
    | nil => exact ⟨t, rfl, hstate⟩
    | cons b bs ih =>
      have hbyte : t.parseMessage b =
          some { t with maskarrayWritten := t.maskarrayWritten + 1 } := by
        unfold parseMessage parseMask
        rw [hstate]
        exact if_pos hwritten
      rw [parseMessages_cons, hbyte, Option.bind_some]
      exact ih hstate hwritten
  obtain ⟨t, ht, hheader⟩ := parse_header hs hping
  have hbytes : f.bytes = (((if f.fin then 0x80 else 0) ||| f.opcode.rawValue) ::
      ((if f.mask.isSome then 0x80 else 0) ||| UInt8.ofNat f.lengthCode) :: f.extendedLength) ++
        (f.key ++ f.maskFrom 0 f.payload) := rfl
  rw [hbytes, parseMessages_append, hheader, afterLength, if_pos (ht.hasMask.trans hmask),
    Option.bind_some]
  exact hloop _ rfl (by rw [← ht.written] at hstuck; exact hstuck)

/-! ## Packets -/

/-- The pongs that are queued. -/
def pongs (s : BRWebSocketImpl) : List (SocketOpcode × Bytes) := s.sendq.filter (·.1 = .pong)

/-- The receiver is between two frames, and knows of the unfinished message that `r` has; the last
    extended length was `w` bytes long. -/
structure Follows (s : BRWebSocketImpl) (r : Inbox) (w : ℕ) : Prop where
  idle : Idle s
  written : s.lengtharrayWritten = w
  pending : ∀ kind payload, r.pending = some (kind, payload) → s.fragStart ∧ s.fragType = kind
  free : r.pending = none → s.fragStart = false

/-- All of what the frame completes is delivered. -/
structure Complete (r : Inbox) (f : Frame) : Prop where
  binary : f.opcode = .binary → f.fin = false
  fragments : f.opcode = .stream → f.fin → r.buffered = []

/-- What a packet does, against the inbox. -/
structure Taken (s : BRWebSocketImpl) (r : Inbox) (f : Frame) (u : BRWebSocketImpl) (r' : Inbox) :
    Prop where
  pongs : u.pongs = s.pongs
  pings : r'.pings = r.pings
  messages : ∃ got want, u.received = s.received ++ got ∧ r'.messages = r.messages ++ want ∧
    got.length ≤ want.length ∧ (got = want ↔ Complete r f)

/-- Nothing is delivered for a frame that completes no message. -/
theorem Taken.of_nothing (hpongs : u.pongs = s.pongs) (hreceived : u.received = s.received)
    (hpings : r'.pings = r.pings) (hmessages : r'.messages = r.messages) (hc : Complete r f) :
    Taken s r f u r' :=
  ⟨hpongs, hpings, [], [], by simp [hreceived], by simp [hmessages], Nat.le_refl _,
    iff_of_true rfl hc⟩

theorem didReceive_eq (s : BRWebSocketImpl) (kind : SocketOpcode) (data : Bytes) :
    (if kind = .text then s.didReceiveText data else s.didReceiveData data) =
      { s with received := s.received ++ (message? kind data).toList } := by
  unfold message?
  by_cases hkind : kind = .text
  · rw [if_pos hkind, if_pos hkind, didReceiveText]
    cases decodeUTF8 data <;> simp
  · rw [if_neg hkind, if_neg hkind]
    rfl

theorem fin_eq_zero (hp : Parsed s f t) : t.fin = 0 ↔ f.fin = false := by
  rw [hp.fin]
  cases f.fin <;> decide

theorem handled_eq (hp : Parsed s f t) : t.fragStart = s.fragStart ∧ t.fragType = s.fragType ∧
    t.sendq = s.sendq ∧ t.received = s.received := by
  have h := hp.handled
  simp only [handled, Prod.mk.injEq] at h
  exact ⟨h.2.1, h.2.2.1, h.2.2.2.2.1, h.2.2.2.2.2⟩

/-- A control frame that is no ping. -/
theorem handlePacket_control (hp : Parsed s f t) (hopc : f.opcode = .close ∨ f.opcode = .pong) :
    ∃ q closed, t.handlePacket = some { t with closed := closed, sendq := t.sendq ++ q } ∧
      ∀ m ∈ q, m.1 = .close := by
  have hopc' := hp.opcode
  unfold handlePacket
  rcases hopc with h | h
  · rw [h] at hopc'
    obtain ⟨q, hq, hclose⟩ := handleClose_spec (s := t) (by rw [hp.data, hp.dataWritten])
    rw [if_neg (by rw [hopc']; simp), if_pos hopc']
    exact ⟨q, true, hq, hclose⟩
  · rw [h] at hopc'
    refine ⟨[], t.closed, ?_, by simp⟩
    have hkeep : { t with closed := t.closed, sendq := t.sendq ++ [] } = t := by
      rw [List.append_nil]
    have hfragment : t.handleFragment = t := by
      unfold handleFragment
      simp [hopc']
    have hfinal : t.handleFinal = some t := by
      unfold handleFinal
      rw [hopc']
    rw [hkeep, hfragment, hfinal]
    simp [hopc']

/-- A frame of a message that is not its last. -/
theorem handlePacket_fragment (hp : Parsed s f t) (hdata : ¬ f.opcode.IsControl)
    (hfin : f.fin = false) (hstart : f.opcode = .stream → s.fragStart) :
    ∃ buffer, t.handlePacket = some { t with
      fragType := if f.opcode = .stream then t.fragType else f.opcode, fragStart := true,
      fragBuffer := buffer } := by
  have hopc := hp.opcode
  have hnot : f.opcode ≠ .close ∧ f.opcode ≠ .ping ∧ f.opcode ≠ .pong := by
    simpa [SocketOpcode.IsControl] using hdata
  refine ⟨t.fragBuffer ++ t.data, ?_⟩
  unfold handlePacket
  rw [if_neg (by simp [hopc, hnot]), if_neg (by simp [hopc, hnot]), if_pos ((fin_eq_zero hp).2 hfin)]
  unfold handleFragment
  by_cases hstream : f.opcode = .stream
  · have hfrag : t.fragStart = true := (handled_eq hp).1.trans (hstart hstream)
    rw [if_neg (by simp [hopc, hstream]), if_neg (by simp [hfrag]), if_pos hstream, ← hfrag]
  · rw [if_pos (by simp [hopc, hstream]), if_neg (by simp [hopc, hnot]), if_neg hstream, hopc]

/-- The last frame of a message in fragments. -/
theorem handlePacket_last (hp : Parsed s f t) (hopc : f.opcode = .stream) (hfin : f.fin = true)
    (hstart : s.fragStart) :
    t.handlePacket = some { t with
      fragType := .binary, fragStart := false, fragBuffer := [],
      received := t.received ++ (message? s.fragType f.payload).toList } := by
  obtain ⟨hfrag, htype, -, -⟩ := handled_eq hp
  have hopc' := hp.opcode.trans hopc
  unfold handlePacket
  rw [if_neg (by simp [hopc']), if_neg (by simp [hopc']),
    if_neg (by rw [fin_eq_zero hp, hfin]; simp)]
  unfold handleFinal
  simp only [hopc', didReceive_eq]
  rw [if_neg (by simp [hfrag, hstart]), htype, hp.data]

/-- A message in one frame. -/
theorem handlePacket_whole (hp : Parsed s f t) (hopc : f.opcode = .text ∨ f.opcode = .binary)
    (hfin : f.fin = true) (hstart : s.fragStart = false) :
    t.handlePacket = some { t with received := t.received ++
      if f.opcode = .text then (message? .text f.payload).toList else [] } := by
  have hfrag := (handled_eq hp).1.trans hstart
  have hopc' := hp.opcode
  unfold handlePacket
  rw [if_neg (by rcases hopc with h | h <;> simp [hopc', h]),
    if_neg (by rcases hopc with h | h <;> simp [hopc', h]),
    if_neg (by rw [fin_eq_zero hp, hfin]; simp)]
  have hfinal : t.handleFinal =
      some (if t.opcode = .text then t.didReceiveText t.data else t) := by
    unfold handleFinal
    rcases hopc with h | h <;> simp [hopc', h, hfrag]
  rw [hfinal]
  rcases hopc with h | h
  · have htext := didReceive_eq t .text t.data
    rw [if_pos rfl] at htext
    rw [if_pos (hopc'.trans h), if_pos h, htext, hp.data]
  · rw [if_neg (by simp [hopc', h]), if_neg (by simp [h]), List.append_nil]

theorem pongs_append {q : List (SocketOpcode × Bytes)} (hq : ∀ m ∈ q, m.1 = .close)
    (hsendq : u.sendq = s.sendq ++ q) : u.pongs = s.pongs := by
  have hnil : q.filter (·.1 = .pong) = [] :=
    List.filter_eq_nil_iff.2 fun m hm => by simp [hq m hm]
  rw [pongs, hsendq, List.filter_append, hnil, List.append_nil]
  rfl

theorem pongs_eq (hsendq : u.sendq = s.sendq) : u.pongs = s.pongs := by rw [pongs, hsendq, pongs]

/-- A control frame changes nothing the inbox knows of. -/
theorem taken_control (hp : Parsed s f t) (hs : Follows s r w)
    (hopc : f.opcode = .close ∨ f.opcode = .pong) :
    ∃ u, t.finishPacket = some u ∧ Follows u r (f.lastLength w) ∧ Taken s r f u r := by
  obtain ⟨hfrag, htype, hsendq, hreceived⟩ := handled_eq hp
  obtain ⟨q, closed, hq, hclose⟩ := handlePacket_control hp hopc
  refine ⟨_, finishPacket_of hq, ⟨⟨rfl, rfl, rfl⟩, by rw [← hs.written, ← hp.written], ?_, ?_⟩,
    .of_nothing (pongs_append hclose (by rw [hsendq])) hreceived rfl rfl ?_⟩
  · intro kind payload hpend
    exact ⟨hfrag.trans (hs.pending _ _ hpend).1, htype.trans (hs.pending _ _ hpend).2⟩
  · exact fun hpend => hfrag.trans (hs.free hpend)
  · constructor <;> rcases hopc with h | h <;> simp [h]

/-- The first frame of a message. -/
theorem taken_data (hp : Parsed s f t) (hs : Follows s r w)
    (hopc : f.opcode = .text ∨ f.opcode = .binary) (hpend : r.pending = none)
    (hnext : r.fragment f.opcode f.payload f.fin = some r') :
    ∃ u, t.finishPacket = some u ∧ Follows u r' (f.lastLength w) ∧ Taken s r f u r' := by
  obtain ⟨hfrag, -, hsendq, hreceived⟩ := handled_eq hp
  have hwritten : t.lengtharrayWritten = f.lastLength w := by rw [hp.written, hs.written]
  have hstream : f.opcode ≠ .stream := by rcases hopc with h | h <;> simp [h]
  unfold Inbox.fragment at hnext
  cases hfin : f.fin with
  | false =>
    rw [hfin] at hnext
    obtain rfl := Option.some.inj hnext
    obtain ⟨buffer, hpacket⟩ := handlePacket_fragment hp
      (by rcases hopc with h | h <;> simp [h, SocketOpcode.IsControl]) hfin
      fun h => absurd h hstream
    refine ⟨_, finishPacket_of hpacket, ⟨⟨rfl, rfl, rfl⟩, hwritten, ?_, by simp⟩,
      .of_nothing (pongs_eq hsendq) hreceived rfl rfl ⟨fun _ => hfin, fun h => absurd h hstream⟩⟩
    intro kind payload h
    obtain ⟨rfl, -⟩ := Prod.mk.inj (Option.some.inj h)
    exact ⟨rfl, if_neg hstream⟩
  | true =>
    rw [hfin, if_pos rfl] at hnext
    obtain ⟨m, hm, rfl⟩ := Option.map_eq_some_iff.1 hnext
    have hfree := hs.free hpend
    refine ⟨_, finishPacket_of (handlePacket_whole hp hopc hfin hfree),
      ⟨⟨rfl, rfl, rfl⟩, hwritten, by simp, fun _ => hfrag.trans hfree⟩,
      pongs_eq hsendq, rfl, _, [m], by rw [hreceived], rfl, ?_, ?_⟩
    · rcases hopc with h | h
      · rw [h] at hm
        simp [h, hm]
      · simp [h]
    · constructor
      · intro hgot
        refine ⟨fun h => ?_, fun h => absurd h hstream⟩
        rw [if_neg (by simp [h])] at hgot
        cases hgot
      · rintro ⟨hbinary, -⟩
        have htext : f.opcode = .text := hopc.resolve_right fun h => by simp [hbinary h] at hfin
        rw [htext] at hm
        rw [if_pos htext, hm]
        rfl

/-- A frame that continues a message. -/
theorem taken_stream (hp : Parsed s f t) (hs : Follows s r w) (hopc : f.opcode = .stream)
    {kind : SocketOpcode} {payload : Bytes} (hpend : r.pending = some (kind, payload))
    (hnext : r.fragment kind (payload ++ f.payload) f.fin = some r') :
    ∃ u, t.finishPacket = some u ∧ Follows u r' (f.lastLength w) ∧ Taken s r f u r' := by
  obtain ⟨-, htype, hsendq, hreceived⟩ := handled_eq hp
  obtain ⟨hstart, hkind⟩ := hs.pending _ _ hpend
  have hwritten : t.lengtharrayWritten = f.lastLength w := by rw [hp.written, hs.written]
  unfold Inbox.fragment at hnext
  cases hfin : f.fin with
  | false =>
    rw [hfin] at hnext
    obtain rfl := Option.some.inj hnext
    obtain ⟨buffer, hpacket⟩ := handlePacket_fragment hp
      (by simp [hopc, SocketOpcode.IsControl]) hfin fun _ => hstart
    refine ⟨_, finishPacket_of hpacket, ⟨⟨rfl, rfl, rfl⟩, hwritten, ?_, by simp⟩,
      .of_nothing (pongs_eq hsendq) hreceived rfl rfl ⟨by simp [hopc], by simp [hfin]⟩⟩
    intro kind' payload' h
    obtain ⟨rfl, -⟩ := Prod.mk.inj (Option.some.inj h)
    exact ⟨rfl, (if_pos hopc).trans (htype.trans hkind)⟩
  | true =>
    rw [hfin, if_pos rfl] at hnext
    obtain ⟨m, hm, rfl⟩ := Option.map_eq_some_iff.1 hnext
    refine ⟨_, finishPacket_of (handlePacket_last hp hopc hfin hstart),
      ⟨⟨rfl, rfl, rfl⟩, hwritten, by simp, fun _ => rfl⟩,
      pongs_eq hsendq, rfl, _, [m], by rw [hreceived], rfl, ?_, ?_⟩
    · cases message? s.fragType f.payload <;> simp
    · have hbuffered : r.buffered = payload := by rw [Inbox.buffered, hpend]; rfl
      rw [hkind]
      constructor
      · intro hgot
        refine ⟨by simp [hopc], fun _ _ => ?_⟩
        have hm' : message? kind f.payload = some m := by
          cases hlast : message? kind f.payload with
          | none => simp [hlast] at hgot
          | some m' => simpa [hlast] using hgot
        rw [hbuffered]
        simpa using message?_inj hm hm'
      · rintro ⟨-, hfragments⟩
        rw [hbuffered] at hfragments
        rw [hfragments hopc hfin, List.nil_append] at hm
        rw [hm]
        rfl

/-- A packet is taken as the inbox takes the frame, but for what is not `Complete`. -/
theorem finishPacket_spec (hp : Parsed s f t) (hs : Follows s r w) (hping : f.opcode ≠ .ping)
    (hnext : r.next f = some r') :
    ∃ u, t.finishPacket = some u ∧ Follows u r' (f.lastLength w) ∧ Taken s r f u r' := by
  unfold Inbox.next at hnext
  cases hopc : f.opcode with
  | ping => exact absurd hopc hping
  | close =>
    rw [hopc] at hnext
    obtain rfl := Option.some.inj hnext
    exact taken_control hp hs (.inl hopc)
  | pong =>
    rw [hopc] at hnext
    obtain rfl := Option.some.inj hnext
    exact taken_control hp hs (.inr hopc)
  | text =>
    simp only [hopc, Option.ite_none_right_eq_some] at hnext
    exact taken_data hp hs (.inl hopc) hnext.1 (hopc ▸ hnext.2)
  | binary =>
    simp only [hopc, Option.ite_none_right_eq_some] at hnext
    exact taken_data hp hs (.inr hopc) hnext.1 (hopc ▸ hnext.2)
  | stream =>
    rw [hopc] at hnext
    obtain ⟨⟨kind, payload⟩, hpend, hfragment⟩ := Option.bind_eq_some_iff.1 hnext
    exact taken_stream hp hs hopc hpend hfragment

/-! ## Frames one after the other -/

/-- How many bytes the last extended length in these frames has. -/
def extendedLengths (fs : List Frame) : ℕ := fs.foldl (fun w f => f.lastLength w) 0

/-- What a receiver that keeps to the protocol has after these frames, if they may follow each
    other. -/
def inbox (fs : List Frame) : Option Inbox := fs.foldlM Inbox.next {}

/-- The payload of the message that these frames leave unfinished. -/
def unfinished (fs : List Frame) : Bytes := (inbox fs).elim [] Inbox.buffered

/-- The bytes of these frames. -/
def sent (fs : List Frame) : Bytes := fs.flatMap Frame.bytes

/-- The frame leaves the parser at the start of the next one. -/
structure Flows (gs : List Frame) (f : Frame) : Prop where
  ping : f.opcode ≠ .ping
  mask : f.mask.isSome → extendedLengths (gs ++ [f]) ≠ 8

/-- The frame is received as it should be, after the frames `gs`. -/
structure Handled (gs : List Frame) (f : Frame) : Prop where
  /-- it is no ping, -/
  ping : f.opcode ≠ .ping
  /-- has no mask where the last extended length is one of 64 bits, -/
  mask : f.mask.isSome → extendedLengths (gs ++ [f]) ≠ 8
  /-- is no binary message in one frame, -/
  binary : f.opcode = .binary → f.fin = false
  /-- and is not the end of a message with payload in an earlier frame. -/
  fragments : f.opcode = .stream → f.fin → unfinished gs = []

/-- The messages arrive in order, each ping has its pong, and the parser is at the start of a frame
    after each of the frames. -/
def Receives (fs : List Frame) (r : Inbox) : Prop :=
  (∃ s, parseMessages {} (sent fs) = some s ∧ s.received = r.messages ∧
    s.pongs = r.pings.map fun p => (.pong, 0x8A :: UInt8.ofNat p.length :: p)) ∧
  ∀ gs, gs <+: fs → ∃ s, parseMessages {} (sent gs) = some s ∧ s.state = .headerb1

theorem extendedLengths_concat (gs : List Frame) (f : Frame) :
    extendedLengths (gs ++ [f]) = f.lastLength (extendedLengths gs) := by
  simp [extendedLengths]

theorem extendedLengths_cases (fs : List Frame) :
    extendedLengths fs ≤ 2 ∨ extendedLengths fs = 8 := by
  induction fs using List.reverseRecOn with
  | nil => exact .inl (Nat.zero_le _)
  | append_singleton gs f ih =>
    rw [extendedLengths_concat, Frame.lastLength]
    split_ifs
    · exact ih
    · exact .inl (Nat.le_refl _)
    · exact .inr rfl

theorem inbox_concat {gs : List Frame} (h : inbox (gs ++ [f]) = some r') :
    ∃ r, inbox gs = some r ∧ r.next f = some r' := by
  simpa [inbox, List.foldlM_append, Option.bind_eq_some_iff] using h

theorem sent_concat (gs : List Frame) (f : Frame) : sent (gs ++ [f]) = sent gs ++ f.bytes := by
  simp [sent]

/-- What holds of every frame after those before it. -/
theorem forall_prefix_concat {P : List Frame → Frame → Prop} {fs : List Frame} {f : Frame} :
    (∀ gs g, gs ++ [g] <+: fs ++ [f] → P gs g) ↔ (∀ gs g, gs ++ [g] <+: fs → P gs g) ∧ P fs f := by
  constructor
  · intro h
    exact ⟨fun gs g hg => h gs g (hg.trans (List.prefix_append _ _)), h fs f List.prefix_rfl⟩
  · rintro ⟨hfs, hf⟩ gs g hg
    rcases List.prefix_concat_iff.1 hg with heq | hg
    · obtain ⟨rfl, hgf⟩ := List.append_inj' heq rfl
      obtain rfl := List.singleton_inj.1 hgf
      exact hf
    · exact hfs gs g hg

/-- Frames that flow are taken one after the other. -/
theorem parse_frames {fs : List Frame} (hnext : inbox fs = some r)
    (hflow : ∀ gs f, gs ++ [f] <+: fs → Flows gs f) :
    ∃ s, parseMessages {} (sent fs) = some s ∧ Follows s r (extendedLengths fs) ∧
      s.pongs = [] ∧ r.pings = [] ∧ s.received.length ≤ r.messages.length ∧
      (s.received = r.messages ↔ ∀ gs f, gs ++ [f] <+: fs → ∀ r, inbox gs = some r →
        Complete r f) := by
  induction fs using List.reverseRecOn generalizing r with
  | nil =>
    obtain rfl := Option.some.inj hnext
    refine ⟨{}, rfl, ⟨⟨rfl, rfl, rfl⟩, rfl, by simp, fun _ => rfl⟩, rfl, rfl, Nat.le_refl _, ?_⟩
    exact iff_of_true rfl fun gs f h => by simp at h
  | append_singleton fs f ih =>
    obtain ⟨r₀, hr₀, hstep⟩ := inbox_concat hnext
    obtain ⟨hflows, hlast⟩ := forall_prefix_concat.1 hflow
    obtain ⟨s, hparse, hs, hpongs, hpings, hle, hiff⟩ := ih hr₀ hflows
    have hstuck : f.mask.isSome → f.lastLength s.lengtharrayWritten ≤ 4 := by
      intro hm
      have hne := hlast.mask hm
      rcases extendedLengths_cases (fs ++ [f]) with h | h
      · rw [extendedLengths_concat, ← hs.written] at h
        omega
      · exact absurd h hne
    obtain ⟨t, ht, hbytes⟩ := parse_frame hs.idle hlast.ping hstuck
    obtain ⟨u, hu, hfollows, htaken⟩ := finishPacket_spec ht hs hlast.ping hstep
    obtain ⟨got, want, hgot, hwant, hlen, hcomplete⟩ := htaken.messages
    refine ⟨u, ?_, ?_, htaken.pongs.trans hpongs, htaken.pings.trans hpings, ?_, ?_⟩
    · rw [sent_concat, parseMessages_append, hparse, Option.bind_some, hbytes, hu]
    · rw [extendedLengths_concat]
      exact hfollows
    · rw [hgot, hwant, List.length_append, List.length_append]
      exact Nat.add_le_add hle hlen
    · have hsplit : s.received ++ got = r₀.messages ++ want ↔
          s.received = r₀.messages ∧ got = want := by
        constructor
        · intro h
          have hsum := congrArg List.length h
          rw [List.length_append, List.length_append] at hsum
          exact List.append_inj h (by omega)
        · rintro ⟨h, rfl⟩
          rw [h]
      have hhere : (∀ r, inbox fs = some r → Complete r f) ↔ Complete r₀ f := by
        rw [hr₀]
        simp
      rw [hgot, hwant, hsplit, hiff, hcomplete, ← hhere,
        forall_prefix_concat (P := fun gs g => ∀ r, inbox gs = some r → Complete r g)]

/-- Frames after which the parser starts over all flow. -/
theorem flows_of_headerb1 {fs : List Frame} (hnext : inbox fs = some r)
    (h : ∀ gs, gs <+: fs → ∃ s, parseMessages {} (sent gs) = some s ∧ s.state = .headerb1) :
    ∀ gs f, gs ++ [f] <+: fs → Flows gs f := by
  induction fs using List.reverseRecOn generalizing r with
  | nil =>
    intro gs f hg
    simp at hg
  | append_singleton fs f ih =>
    obtain ⟨r₀, hr₀, -⟩ := inbox_concat hnext
    have hfs := ih hr₀ fun gs hg => h gs (hg.trans (List.prefix_append _ _))
    obtain ⟨s, hparse, hs, -⟩ := parse_frames hr₀ hfs
    obtain ⟨v, hv, hstate⟩ := h (fs ++ [f]) List.prefix_rfl
    rw [sent_concat, parseMessages_append, hparse, Option.bind_some] at hv
    have hping : f.opcode ≠ .ping := by
      intro hopc
      obtain ⟨t, ht, hheader⟩ := parse_ping hs.idle hopc
      rw [ht] at hv
      obtain rfl := Option.some.inj hv
      rw [hheader] at hstate
      cases hstate
    refine forall_prefix_concat.2 ⟨hfs, hping, fun hmask heq => ?_⟩
    rw [extendedLengths_concat, ← hs.written] at heq
    obtain ⟨t, ht, hstuck⟩ := parse_stuck hs.idle hping hmask (by rw [heq]; decide)
    rw [ht] at hv
    obtain rfl := Option.some.inj hv
    rw [hstuck] at hstate
    cases hstate

theorem handled_iff {fs : List Frame} (hnext : inbox fs = some r) :
    (∀ gs f, gs ++ [f] <+: fs → Handled gs f) ↔
      (∀ gs f, gs ++ [f] <+: fs → Flows gs f) ∧
        ∀ gs f, gs ++ [f] <+: fs → ∀ r, inbox gs = some r → Complete r f := by
  induction fs using List.reverseRecOn generalizing r with
  | nil => simp
  | append_singleton fs f ih =>
    obtain ⟨r₀, hr₀, -⟩ := inbox_concat hnext
    have hunfinished : unfinished fs = r₀.buffered := by rw [unfinished, hr₀]; rfl
    have hlast : Handled fs f ↔ Flows fs f ∧ ∀ r, inbox fs = some r → Complete r f := by
      rw [hr₀]
      constructor
      · intro h
        refine ⟨⟨h.ping, h.mask⟩, fun r hr => ?_⟩
        obtain rfl := Option.some.inj hr
        exact ⟨h.binary, fun hopc hfin => hunfinished ▸ h.fragments hopc hfin⟩
      · rintro ⟨hflow, hcomplete⟩
        have hc := hcomplete r₀ rfl
        exact ⟨hflow.ping, hflow.mask, hc.binary,
          fun hopc hfin => hunfinished ▸ hc.fragments hopc hfin⟩
    rw [forall_prefix_concat, forall_prefix_concat (P := Flows),
      forall_prefix_concat (P := fun gs g => ∀ r, inbox gs = some r → Complete r g), ih hr₀, hlast]
    exact and_and_and_comm

/-- Frames that may follow each other are received as they should be if and only if each of them is
    handled; and bytes trap if and only if they complete a length that is no `Int`. -/
theorem received_iff (fs : List Frame) (r : Inbox) (hfs : inbox fs = some r) (bytes : Bytes) :
    (Receives fs r ↔ ∀ gs f, gs ++ [f] <+: fs → Handled gs f) ∧
      (parseMessages {} bytes ≠ none ↔ ¬ ReadsOverflow {} bytes) := by
  refine ⟨?_, (parseMessages_eq_none_iff valid_init bytes).not⟩
  rw [handled_iff hfs]
  constructor
  · rintro ⟨⟨s, hparse, hmessages, -⟩, hheader⟩
    have hflow := flows_of_headerb1 hfs hheader
    obtain ⟨s', hparse', -, -, -, -, hiff⟩ := parse_frames hfs hflow
    rw [hparse] at hparse'
    obtain rfl := Option.some.inj hparse'
    exact ⟨hflow, hiff.1 hmessages⟩
  · rintro ⟨hflow, hcomplete⟩
    obtain ⟨s, hparse, -, hpongs, hpings, -, hiff⟩ := parse_frames hfs hflow
    refine ⟨⟨s, hparse, hiff.2 hcomplete, by rw [hpongs, hpings]; rfl⟩, fun gs hg => ?_⟩
    obtain ⟨hs, rfl⟩ := hg
    have hsome : ∃ r, inbox gs = some r := by
      simp only [inbox, List.foldlM_append, Option.bind_eq_bind, Option.bind_eq_some_iff] at hfs
      obtain ⟨r, hr, -⟩ := hfs
      exact ⟨r, hr⟩
    obtain ⟨r', hr'⟩ := hsome
    obtain ⟨s', hparse', hfollows, -⟩ := parse_frames hr' fun ds d hd =>
      hflow ds d (hd.trans (List.prefix_append _ _))
    exact ⟨s', hparse', hfollows.idle.state⟩

/-- A masked frame. -/
def masked (fin : Bool) (opcode : SocketOpcode) (payload : Bytes) (h : payload.length ≤ 125)
    (hcontrol : opcode.IsControl → fin) : Frame where
  fin := fin
  opcode := opcode
  mask := some fun i => UInt8.ofNat (17 * i.val + 3)
  payload := payload
  payload_lt := h.trans_lt (by decide)
  control hopc := ⟨hcontrol hopc, h⟩

def greeting : List Frame :=
  [masked true .text [72, 105] (by decide) (by decide),
    masked false .binary [] (by decide) (by decide),
    masked true .pong [1] (by decide) (by decide),
    masked true .stream [0, 255] (by decide) (by decide)]

theorem received_greeting :
    Receives greeting { messages := [.text "Hi", .data [0, 255]] } := by
  have h := received_iff greeting { messages := [.text "Hi", .data [0, 255]] } (by decide) []
  refine h.1.2 ?_
  have hsplit : greeting = ((([] ++ [masked true .text [72, 105] (by decide) (by decide)]) ++
      [masked false .binary [] (by decide) (by decide)]) ++
      [masked true .pong [1] (by decide) (by decide)]) ++
      [masked true .stream [0, 255] (by decide) (by decide)] := rfl
  rw [hsplit]
  refine forall_prefix_concat.2 ⟨forall_prefix_concat.2 ⟨forall_prefix_concat.2
    ⟨forall_prefix_concat.2 ⟨fun gs g hg => by simp at hg, ?_⟩, ?_⟩, ?_⟩, ?_⟩ <;>
  constructor <;> decide

/-- Nothing is received behind a ping. -/
theorem not_received : ¬ ((∀ fs r, inbox fs = some r → Receives fs r) ∧
    ∀ bytes, parseMessages {} bytes ≠ none) := by
  rintro ⟨h, -⟩
  obtain ⟨-, hheader⟩ := h [masked true .ping [104, 105] (by decide) (by decide)]
    { pings := [[104, 105]] } rfl
  obtain ⟨s, hs, hstate⟩ := hheader _ List.prefix_rfl
  have hparse : parseMessages {} (sent [masked true .ping [104, 105] (by decide) (by decide)]) =
      some { fin := 0x80, opcode := .ping, state := .headerb2 } := by decide
  rw [hparse] at hs
  obtain rfl := Option.some.inj hs
  cases hstate

end BRWebSocketImpl

end RavenWallet
