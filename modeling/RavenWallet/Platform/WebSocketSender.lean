/-
  The sender of a web socket (`_serveForever` and `sendBuffer` of
  BRWebSocket.swift).

  `room` is what the calls of `send` in one round of the poller take, one number
  a call; a call that can take nothing would block, and fails.  `bw_nbioify` clears
  `O_NONBLOCK` instead of setting it; on such a socket the call waits, and no round
  fails.  A slice that traps is `none`.

  * `sendBuffer_cases`: a buffer is sent whole, or the round fails;
  * `sends_iff`: when the bytes on the socket are the frames of the messages.
-/
import RavenWallet.Platform.Frames

namespace RavenWallet

def EWOULDBLOCK : ℤ := 35
def EAGAIN : ℤ := 35

/-- How `sendBuffer` ends: with the number of bytes sent, or `socketWriteFailed`. -/
inductive SendResult where
  | sent (n : ℕ)
  | socketWriteFailed
  deriving DecidableEq, Repr

/-- The loop of `sendBuffer`, with `wire` on the socket; `send` returns -1 where it would block. -/
def sendBuffer (buffer : Bytes) : List ℕ → ℕ → Bytes → SendResult × Bytes
  | [], sent, wire =>
    if sent < buffer.length then (.socketWriteFailed, wire) else (.sent sent, wire)
  | k :: room, sent, wire =>
    if sent < buffer.length then
      let n := min k (buffer.length - sent)
      let s : ℤ := if n = 0 then -1 else n
      if s ≤ 0 then
        -- the result is compared, and not `errno`
        (if s = EWOULDBLOCK ∨ s = EAGAIN then .sent sent else .socketWriteFailed, wire)
      else sendBuffer buffer room (sent + n) (wire ++ (buffer.drop sent).take n)
    else (.sent sent, wire)

/-- A socket of the poller: its queue, what was put on it, and whether it is still served. -/
structure WriteSocket where
  sendq : List (SocketOpcode × Bytes)
  wire : Bytes := []
  isOpen : Bool := true
  deriving DecidableEq, Repr

namespace WriteSocket

/-- `payload.suffix(from: sentBytes - 1)` -/
def remaining (payload : Bytes) (sentBytes : ℕ) : Option Bytes :=
  if sentBytes = 0 then none else suffixFrom payload (sentBytes - 1)

/-- A round of the poller; only a socket with messages is polled. -/
def poll (w : WriteSocket) (room : List ℕ) : Option WriteSocket :=
  if !w.isOpen then some w
  else match w.sendq with
    | [] => some w
    | (opcode, payload) :: sendq =>
      match sendBuffer payload room 0 w.wire with
      | (.sent sentBytes, wire) =>
        if sentBytes ≠ payload.length then do
          let rest ← remaining payload sentBytes
          some { w with sendq := (opcode, rest) :: sendq, wire }
        else if opcode = .close then some ⟨sendq, wire, false⟩
        else some ⟨sendq, wire, true⟩
      | (.socketWriteFailed, wire) => some ⟨sendq, wire, false⟩

def serve (w : WriteSocket) (rounds : List (List ℕ)) : Option WriteSocket := rounds.foldlM poll w

/-- The bytes that are still to be put on the socket. -/
def pending (w : WriteSocket) : Bytes := if w.isOpen then w.sendq.flatMap Prod.snd else []

end WriteSocket

/-- The frame of a message that is not masked. -/
def frameBytes (opcode : SocketOpcode) (payload : Bytes) : Bytes :=
  (0x80 ||| opcode.rawValue) ::
    (if payload.length ≤ 125 then [UInt8.ofNat payload.length]
    else if payload.length ≤ 65535 then 126 :: toNetwork 2 payload.length
    else 127 :: toNetwork 8 payload.length) ++ payload

/-- A message is accepted in a round if its frame is on the socket before a call would block. -/
def Accepts (room : List ℕ) (m : SocketOpcode × Bytes) : Prop :=
  (frameBytes m.1 m.2).length ≤ (room.takeWhile fun k => k ≠ 0).sum

/-- Queues the messages. -/
def BRWebSocketImpl.sendMessages (s : BRWebSocketImpl) (messages : List (SocketOpcode × Bytes)) :
    Option BRWebSocketImpl :=
  messages.foldlM (fun s m => s.sendMessage false m.1 m.2) s

/-- Every message for which there is a round is accepted, and only the last one closes. -/
def AllAccepted (messages : List (SocketOpcode × Bytes)) (rounds : List (List ℕ)) : Prop :=
  ∀ i m room, messages[i]? = some m → rounds[i]? = some room →
    Accepts room m ∧ (m.1 = .close → i + 1 = messages.length)

/-! ## A round -/

/-- A buffer is sent whole, or a call would block and the round fails. -/
theorem sendBuffer_cases (buffer : Bytes) (room : List ℕ) {sent : ℕ} (wire : Bytes)
    (hsent : sent ≤ buffer.length) :
    (buffer.length - sent ≤ (room.takeWhile fun k => k ≠ 0).sum ∧
      sendBuffer buffer room sent wire = (.sent buffer.length, wire ++ buffer.drop sent)) ∨
    (¬ buffer.length - sent ≤ (room.takeWhile fun k => k ≠ 0).sum ∧
      ∃ n < buffer.length - sent,
        sendBuffer buffer room sent wire =
          (.socketWriteFailed, wire ++ (buffer.drop sent).take n)) := by
  induction room generalizing sent wire with
  | nil =>
    rcases Nat.lt_or_eq_of_le hsent with hlt | rfl
    · refine Or.inr ⟨by simp; omega, 0, by omega, ?_⟩
      rw [sendBuffer, if_pos hlt, List.take_zero, List.append_nil]
    · refine Or.inl ⟨by simp, ?_⟩
      rw [sendBuffer, if_neg (Nat.lt_irrefl _), List.drop_length, List.append_nil]
  | cons k room ih =>
    rcases Nat.lt_or_eq_of_le hsent with hlt | rfl
    · rw [sendBuffer, if_pos hlt]
      by_cases hk : k = 0
      · subst hk
        refine Or.inr ⟨by simp; omega, 0, by omega, ?_⟩
        have hblock : ¬ ((-1 : ℤ) = EWOULDBLOCK ∨ (-1 : ℤ) = EAGAIN) := by decide
        dsimp only
        rw [Nat.zero_min, if_pos rfl, if_pos (by decide), if_neg hblock, List.take_zero,
          List.append_nil]
      · have hn : min k (buffer.length - sent) ≠ 0 := by omega
        have hsplit : buffer.drop sent = (buffer.drop sent).take (min k (buffer.length - sent)) ++
            buffer.drop (sent + min k (buffer.length - sent)) := by
          rw [← List.drop_drop, List.take_append_drop]
        dsimp only
        rw [if_neg hn, if_neg (by omega), List.takeWhile_cons_of_pos (by simpa using hk),
          List.sum_cons]
        rcases ih (wire ++ (buffer.drop sent).take (min k (buffer.length - sent)))
          (show sent + min k (buffer.length - sent) ≤ buffer.length by omega) with
          ⟨hle, heq⟩ | ⟨hno, n, hn', heq⟩
        · refine Or.inl ⟨by omega, ?_⟩
          rw [heq, List.append_assoc, ← hsplit]
        · refine Or.inr ⟨by omega, min k (buffer.length - sent) + n, by omega, ?_⟩
          rw [heq, List.append_assoc, List.take_add, List.drop_drop]
    · refine Or.inl ⟨by simp, ?_⟩
      rw [sendBuffer, if_neg (Nat.lt_irrefl _), List.drop_length, List.append_nil]

namespace WriteSocket

/-- In a round a message is put on the socket, or its first bytes and nothing more. -/
theorem poll_cases (opcode : SocketOpcode) (payload : Bytes)
    (sendq : List (SocketOpcode × Bytes)) (wire : Bytes) (room : List ℕ) :
    (payload.length ≤ (room.takeWhile fun k => k ≠ 0).sum ∧
      poll ⟨(opcode, payload) :: sendq, wire, true⟩ room =
        some ⟨sendq, wire ++ payload, decide (opcode ≠ .close)⟩) ∨
    (¬ payload.length ≤ (room.takeWhile fun k => k ≠ 0).sum ∧ ∃ n < payload.length,
      poll ⟨(opcode, payload) :: sendq, wire, true⟩ room =
        some ⟨sendq, wire ++ payload.take n, false⟩) := by
  rw [poll, if_neg (by simp)]
  dsimp only
  rcases sendBuffer_cases payload room wire (Nat.zero_le _) with ⟨hle, heq⟩ | ⟨hno, n, hn, heq⟩
  · refine Or.inl ⟨hle, ?_⟩
    rw [heq]
    dsimp only
    rw [if_neg (not_not_intro rfl), List.drop_zero]
    split_ifs with hclose
    · rw [decide_eq_false (not_not_intro hclose)]
    · rw [decide_eq_true hclose]
  · refine Or.inr ⟨hno, n, hn, ?_⟩
    rw [heq]
    rfl

theorem serve_closed {w : WriteSocket} (h : w.isOpen = false) (rounds : List (List ℕ)) :
    w.serve rounds = some w := by
  induction rounds with
  | nil => rfl
  | cons room rounds ih =>
    have hpoll : w.poll room = some w := by rw [poll, h]; rfl
    rw [serve, List.foldlM_cons, hpoll]
    exact ih

theorem serve_nil (wire : Bytes) (isOpen : Bool) (rounds : List (List ℕ)) :
    serve ⟨[], wire, isOpen⟩ rounds = some ⟨[], wire, isOpen⟩ := by
  induction rounds with
  | nil => rfl
  | cons room rounds ih =>
    have hpoll : poll ⟨[], wire, isOpen⟩ room = some ⟨[], wire, isOpen⟩ := by
      cases isOpen <;> rfl
    rw [serve, List.foldlM_cons, hpoll]
    exact ih

theorem serve_cons (w : WriteSocket) (room : List ℕ) (rounds : List (List ℕ)) :
    w.serve (room :: rounds) = (w.poll room).bind fun w => w.serve rounds := List.foldlM_cons

end WriteSocket

theorem allAccepted_nil (rounds : List (List ℕ)) : AllAccepted [] rounds := nofun

theorem allAccepted_cons {m : SocketOpcode × Bytes} {messages : List (SocketOpcode × Bytes)}
    {room : List ℕ} {rounds : List (List ℕ)} :
    AllAccepted (m :: messages) (room :: rounds) ↔
      Accepts room m ∧ (m.1 = .close → messages = []) ∧ AllAccepted messages rounds := by
  constructor
  · intro h
    have hfirst := h 0 m room rfl rfl
    refine ⟨hfirst.1, fun hclose => ?_, fun i m' room' hm hroom => ?_⟩
    · have hlen := hfirst.2 hclose
      rw [List.length_cons] at hlen
      exact List.length_eq_zero_iff.1 (by omega)
    · obtain ⟨haccept, hlast⟩ := h (i + 1) m' room' hm hroom
      refine ⟨haccept, fun hclose => ?_⟩
      have hlen := hlast hclose
      rw [List.length_cons] at hlen
      omega
  · rintro ⟨haccept, hlast, hrest⟩ i m' room' hm hroom
    cases i with
    | zero =>
      obtain rfl := Option.some.inj hm
      obtain rfl := Option.some.inj hroom
      refine ⟨haccept, fun hclose => ?_⟩
      rw [hlast hclose]
      rfl
    | succ i =>
      obtain ⟨haccept', hlast'⟩ := hrest i m' room' hm hroom
      refine ⟨haccept', fun hclose => ?_⟩
      rw [List.length_cons, ← hlast' hclose]

/-! ## A run -/

/-- The message is queued as its frame. -/
theorem sendMessage_eq (s : BRWebSocketImpl) (opcode : SocketOpcode) (data : Bytes) :
    s.sendMessage false opcode data =
      some { s with sendq := s.sendq ++ [(opcode, frameBytes opcode data)] } := by
  unfold BRWebSocketImpl.sendMessage frameBytes
  by_cases hshort : data.length ≤ 125
  · simp [hshort, convert_of_le (show data.length ≤ UINT8_MAX from hshort.trans (by decide))]
  · by_cases hlong : data.length ≤ 65535
    · have hboth : 126 ≤ data.length ∧ data.length ≤ 65535 := ⟨by omega, hlong⟩
      simp [hshort, hboth, convert_of_le (show data.length ≤ UINT16_MAX from hlong)]
    · simp [hshort, hlong]

theorem sendMessages_eq (s : BRWebSocketImpl) (messages : List (SocketOpcode × Bytes)) :
    s.sendMessages messages = some { s with
      sendq := s.sendq ++ messages.map fun m => (m.1, frameBytes m.1 m.2) } := by
  induction messages generalizing s with
  | nil => simp [BRWebSocketImpl.sendMessages]
  | cons m messages ih =>
    have hcons : s.sendMessages (m :: messages) =
        (s.sendMessage false m.1 m.2).bind fun s => s.sendMessages messages := List.foldlM_cons
    rw [hcons, sendMessage_eq, Option.bind_some, ih]
    simp

/-- The frames of the messages, in order. -/
def framesOf (messages : List (SocketOpcode × Bytes)) : Bytes :=
  messages.flatMap fun m => frameBytes m.1 m.2

theorem framesOf_eq_nil {messages : List (SocketOpcode × Bytes)} :
    framesOf messages = [] ↔ messages = [] := by
  cases messages with
  | nil => exact iff_of_true rfl rfl
  | cons m messages => exact iff_of_false (by simp [framesOf, frameBytes]) (List.cons_ne_nil _ _)

theorem framesOf_cons (m : SocketOpcode × Bytes) (messages : List (SocketOpcode × Bytes)) :
    framesOf (m :: messages) = frameBytes m.1 m.2 ++ framesOf messages := List.flatMap_cons

/-- What becomes of a queue of frames. -/
theorem serve_iff (messages : List (SocketOpcode × Bytes)) (rounds : List (List ℕ))
    (wire : Bytes) :
    ∃ w, WriteSocket.serve ⟨messages.map fun m => (m.1, frameBytes m.1 m.2), wire, true⟩ rounds =
      some w ∧ (w.wire ++ w.pending = wire ++ framesOf messages ↔ AllAccepted messages rounds) := by
  induction messages generalizing rounds wire with
  | nil =>
    refine ⟨_, WriteSocket.serve_nil wire true rounds, iff_of_true ?_ (allAccepted_nil rounds)⟩
    rfl
  | cons m messages ih =>
    cases rounds with
    | nil =>
      refine ⟨_, rfl, iff_of_true ?_ nofun⟩
      simp [WriteSocket.pending, framesOf, List.flatMap_map]
    | cons room rounds =>
      rw [List.map_cons, WriteSocket.serve_cons, allAccepted_cons, framesOf_cons]
      rcases WriteSocket.poll_cases m.1 (frameBytes m.1 m.2)
        (messages.map fun m => (m.1, frameBytes m.1 m.2)) wire room with
        ⟨haccept, hpoll⟩ | ⟨hno, n, hn, hpoll⟩
      · rw [hpoll, Option.bind_some]
        by_cases hclose : m.1 = .close
        · -- the socket is not served any more
          rw [WriteSocket.serve_closed (by simpa using hclose)]
          refine ⟨_, rfl, ?_⟩
          simp only [WriteSocket.pending, hclose, ne_eq, not_true_eq_false, decide_false,
            Bool.false_eq_true, if_false, List.append_nil]
          rw [← List.append_assoc, List.self_eq_append_right, framesOf_eq_nil]
          constructor
          · rintro rfl
            exact ⟨haccept, fun _ => rfl, allAccepted_nil rounds⟩
          · exact fun h => h.2.1 trivial
        · rw [decide_eq_true hclose]
          obtain ⟨w, hserve, hiff⟩ := ih rounds (wire ++ frameBytes m.1 m.2)
          refine ⟨w, hserve, ?_⟩
          rw [← List.append_assoc, hiff]
          exact ⟨fun h => ⟨haccept, fun h' => absurd h' hclose, h⟩, fun h => h.2.2⟩
      · rw [hpoll, Option.bind_some, WriteSocket.serve_closed rfl]
        refine ⟨_, rfl, iff_of_false (fun heq => ?_) fun h => hno h.1⟩
        have hlen := congrArg List.length heq
        simp only [WriteSocket.pending, Bool.false_eq_true, if_false, List.append_nil,
          List.length_append, List.length_take] at hlen
        omega

/-- No slice traps.  The bytes on the socket and those still to be sent are the frames of the
    messages exactly if every round accepts its message and nothing is queued behind a close. -/
theorem sends_iff (messages : List (SocketOpcode × Bytes)) (rounds : List (List ℕ)) :
    ∃ s w, BRWebSocketImpl.sendMessages {} messages = some s ∧
      WriteSocket.serve ⟨s.sendq, [], true⟩ rounds = some w ∧
      (w.wire ++ w.pending = framesOf messages ↔ AllAccepted messages rounds) := by
  have hqueue := sendMessages_eq {} messages
  rw [List.nil_append] at hqueue
  obtain ⟨w, hserve, hiff⟩ := serve_iff messages rounds []
  exact ⟨_, w, hqueue, hserve, hiff⟩

/-- The socket takes one byte of a text and then would block. -/
theorem not_sends : ¬ ∀ (messages : List (SocketOpcode × Bytes)) (rounds : List (List ℕ)),
    ∃ s w, BRWebSocketImpl.sendMessages {} messages = some s ∧
      WriteSocket.serve ⟨s.sendq, [], true⟩ rounds = some w ∧
      w.wire ++ w.pending = framesOf messages := by
  intro h
  obtain ⟨s, w, hs, hw, heq⟩ := h [(.text, [104, 105])] [[1, 0], [4]]
  obtain rfl := Option.some.inj hs
  obtain rfl := Option.some.inj hw
  exact absurd heq (by decide)

end RavenWallet
