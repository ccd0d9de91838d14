/-
  Frames of a web socket, and how the receiver takes them.

  A `Frame` is well formed, `Frame.bytes` is what is sent for it, and `Inbox`
  is a receiver that keeps to the protocol.

  * `parse_frame`: a frame reaches `handlePacket` with its unmasked payload,
    unless it is a ping (`parse_ping`), or it has a mask and the last extended
    length was one of 64 bits (`parse_stuck`).
  * `finishPacket_spec`: what a packet tells the client, against the inbox.
-/
import RavenWallet.Platform.WebSocketSafety

namespace RavenWallet

def SocketOpcode.IsControl (opc : SocketOpcode) : Prop :=
  opc = .close ∨ opc = .ping ∨ opc = .pong

instance (opc : SocketOpcode) : Decidable opc.IsControl :=
  inferInstanceAs (Decidable (_ ∨ _ ∨ _))

/-- A well-formed frame; the mask is its masking key. -/
structure Frame where
  fin : Bool
  opcode : SocketOpcode
  mask : Option (Fin 4 → UInt8)
  payload : Bytes
  payload_lt : payload.length < MAXPAYLOAD
  control : opcode.IsControl → fin ∧ payload.length ≤ 125

namespace Frame

variable (f : Frame)

/-- The length in the header, or how long the extended length behind it is. -/
def lengthCode : ℕ :=
  if f.payload.length ≤ 125 then f.payload.length
  else if f.payload.length ≤ 65535 then 126
  else 127

def extendedLength : Bytes :=
  if f.payload.length ≤ 125 then []
  else if f.payload.length ≤ 65535 then toNetwork 2 f.payload.length
  else toNetwork 8 f.payload.length

def key : Bytes := f.mask.elim [] List.ofFn

/-- What the mask makes of the payload, whose first `i` bytes are not in `bs`. -/
def maskFrom (i : ℕ) (bs : Bytes) : Bytes :=
  bs.mapIdx fun j b => f.mask.elim b fun key => b ^^^ key (Fin.ofNat 4 (i + j))

def bytes : Bytes :=
  ((if f.fin then 0x80 else 0) ||| f.opcode.rawValue) ::
    ((if f.mask.isSome then 0x80 else 0) ||| UInt8.ofNat f.lengthCode) ::
      (f.extendedLength ++ (f.key ++ f.maskFrom 0 f.payload))

end Frame

/-- What a receiver has got so far: the kind and the payload of an unfinished message, the
    messages, and the payloads of the pings. -/
structure Inbox where
  pending : Option (SocketOpcode × Bytes) := none
  messages : List SocketMessage := []
  pings : List Bytes := []
  deriving DecidableEq, Repr

/-- The message with this payload; a text must be UTF-8. -/
def message? (kind : SocketOpcode) (payload : Bytes) : Option SocketMessage :=
  if kind = .text then (decodeUTF8 payload).map .text else some (.data payload)

namespace Inbox

/-- A fragment of a message of this kind, `payload` being the message so far. -/
def fragment (r : Inbox) (kind : SocketOpcode) (payload : Bytes) (fin : Bool) : Option Inbox :=
  if fin then
    (message? kind payload).map fun m =>
      { r with pending := none, messages := r.messages ++ [m] }
  else some { r with pending := some (kind, payload) }

/-- The next frame, if it may come next. -/
def next (r : Inbox) (f : Frame) : Option Inbox :=
  match f.opcode with
  | .close => some r
  | .pong => some r
  | .ping => some { r with pings := r.pings ++ [f.payload] }
  | .stream => r.pending.bind fun p => r.fragment p.1 (p.2 ++ f.payload) f.fin
  | kind => if r.pending = none then r.fragment kind f.payload f.fin else none

/-- The payload of the unfinished message. -/
def buffered (r : Inbox) : Bytes := r.pending.elim [] Prod.snd

end Inbox

/-- How many bytes the last extended length has, if it was `w` bytes long before. -/
def Frame.lastLength (w : ℕ) (f : Frame) : ℕ :=
  if f.payload.length ≤ 125 then w else if f.payload.length ≤ 65535 then 2 else 8

namespace BRWebSocketImpl

variable {s t : BRWebSocketImpl} {f : Frame}

theorem parseMessages_cons (s : BRWebSocketImpl) (b : UInt8) (bs : Bytes) :
    s.parseMessages (b :: bs) = (s.parseMessage b).bind fun t => t.parseMessages bs :=
  List.foldlM_cons

theorem parseMessages_append (s : BRWebSocketImpl) (as bs : Bytes) :
    s.parseMessages (as ++ bs) = (s.parseMessages as).bind fun t => t.parseMessages bs :=
  List.foldlM_append

/-- Between two frames. -/
structure Idle (s : BRWebSocketImpl) : Prop where
  state : s.state = .headerb1
  data : s.data = []
  dataWritten : s.dataWritten = 0

/-- What the parser does not touch before a packet is complete. -/
def handled (s : BRWebSocketImpl) :
    Bool × Bool × SocketOpcode × Bytes × List (SocketOpcode × Bytes) × List SocketMessage :=
  (s.closed, s.fragStart, s.fragType, s.fragBuffer, s.sendq, s.received)

/-- The header of `f` is parsed. -/
structure Headed (s : BRWebSocketImpl) (f : Frame) (t : BRWebSocketImpl) : Prop where
  fin : t.fin = if f.fin then 0x80 else 0
  opcode : t.opcode = f.opcode
  hasMask : t.hasMask = f.mask.isSome
  index : t.index = 0
  length : t.length = f.payload.length
  written : t.lengtharrayWritten = f.lastLength s.lengtharrayWritten
  data : t.data = []
  dataWritten : t.dataWritten = 0
  handled : t.handled = s.handled

/-- All of `f` is parsed. -/
structure Parsed (s : BRWebSocketImpl) (f : Frame) (t : BRWebSocketImpl) : Prop where
  fin : t.fin = if f.fin then 0x80 else 0
  opcode : t.opcode = f.opcode
  written : t.lengtharrayWritten = f.lastLength s.lengtharrayWritten
  data : t.data = f.payload
  dataWritten : t.dataWritten = f.payload.length
  handled : t.handled = s.handled

/-! ## The header -/

theorem fin_byte (fin : Bool) (opc : SocketOpcode) :
    ((if fin then 0x80 else 0) ||| opc.rawValue) &&& 0x80 = if fin then 0x80 else 0 := by
  cases fin <;> cases opc <;> decide

theorem opcode_byte (fin : Bool) (opc : SocketOpcode) :
    SocketOpcode.ofRawValue (((if fin then 0x80 else 0) ||| opc.rawValue) &&& 0x0F) = some opc := by
  cases fin <;> cases opc <;> decide

theorem length_byte (mask : Bool) {n : ℕ} (hn : n < 128) :
    ((if mask then 0x80 else 0) ||| UInt8.ofNat n) &&& 0x7F = UInt8.ofNat n ∧
      (((if mask then 0x80 else 0) ||| UInt8.ofNat n) &&& 0x80 = 128 ↔ mask) := by
  have h : ∀ m : Bool, ∀ k : Fin 128,
      ((if m then 0x80 else 0) ||| UInt8.ofNat k) &&& 0x7F = UInt8.ofNat k ∧
        (((if m then 0x80 else 0) ||| UInt8.ofNat k) &&& 0x80 = 128 ↔ m) := by decide +kernel
  exact h mask ⟨n, hn⟩

/-- The first byte of a frame. -/
theorem parse_first (hs : Idle s) (f : Frame) :
    s.parseMessage ((if f.fin then 0x80 else 0) ||| f.opcode.rawValue) =
      some { s with
        fin := if f.fin then 0x80 else 0, opcode := f.opcode, state := .headerb2, index := 0,
        length := 0 } := by
  unfold parseMessage parseHeaderb1
  simp only [hs.state, fin_byte, opcode_byte]

/-- The bytes of a length, after those that are in `d`. -/
theorem parse_length (size : ℕ)
    (hstate : s.state = .lengthshort ∧ size = 2 ∨ s.state = .lengthlong ∧ size = 8)
    {d bs : Bytes} (hbs : bs ≠ []) (hsize : d.length + bs.length = size)
    (hdone : s.lengtharrayWritten = d.length)
    (harray : s.lengtharray = d ++ List.replicate bs.length 0)
    (hint : bigToHost (d ++ bs) ≤ INT_MAX) :
    s.parseMessages bs = ({ s with
      lengtharray := d ++ bs, lengtharrayWritten := size,
      length := bigToHost (d ++ bs) } : BRWebSocketImpl).afterLength := by
  induction bs generalizing s d with
  | nil => exact absurd rfl hbs
  | cons b bs ih =>
    have hlen : d.length + (bs.length + 1) = size := hsize
    have hbyte : s.parseMessage b = s.parseLength b size := by
      unfold parseMessage
      rcases hstate with ⟨h, rfl⟩ | ⟨h, rfl⟩ <;> rw [h] <;> rfl
    have hstore : storeAt s.lengtharray (s.lengtharrayWritten + 1 - 1) b =
        some (d ++ b :: List.replicate bs.length 0) := by
      have hlt : s.lengtharrayWritten + 1 - 1 < s.lengtharray.length := by
        rw [harray, hdone, List.length_append, List.length_replicate, List.length_cons]
        omega
      rw [storeAt_of_lt hlt, Nat.add_sub_cancel, hdone, harray, List.length_cons,
        List.replicate_succ, List.set_append_right _ _ (Nat.le_refl _), Nat.sub_self,
        List.set_cons_zero]
    rw [parseMessages_cons, hbyte, parseLength]
    simp only [hstore, Option.bind_eq_bind, Option.bind_some]
    rw [if_neg (by omega), hdone]
    cases bs with
    | nil =>
      rw [if_pos (by simpa using hlen), List.length_nil, List.replicate_zero, convert_of_le hint,
        Option.bind_some]
      have hall : d.length + 1 = size := hlen
      rw [hall]
      exact Option.bind_fun_some _
    | cons c bs =>
      rw [if_neg (by rw [List.length_cons] at hlen; omega), Option.bind_some]
      have happ : d ++ b :: c :: bs = (d ++ [b]) ++ c :: bs := by simp
      rw [happ] at hint ⊢
      have hrest : (d ++ [b]).length + (c :: bs).length = size := by
        rw [List.length_append, Nat.add_assoc, Nat.add_comm [b].length]
        exact hlen
      exact ih (s := { s with
        lengtharray := d ++ b :: List.replicate (c :: bs).length 0,
        lengtharrayWritten := d.length + 1 }) (d := d ++ [b]) hstate (by simp) hrest (by simp)
          (by simp) hint

/-- The header of a frame that is no ping. -/
theorem parse_header (hs : Idle s) (hping : f.opcode ≠ .ping) : ∃ t, Headed s f t ∧
    s.parseMessages (((if f.fin then 0x80 else 0) ||| f.opcode.rawValue) ::
      ((if f.mask.isSome then 0x80 else 0) ||| UInt8.ofNat f.lengthCode) :: f.extendedLength) =
        t.afterLength := by
  have hcode : f.lengthCode < 128 := by
    unfold Frame.lengthCode
    split_ifs <;> omega
  obtain ⟨hlen, hmask⟩ := length_byte f.mask.isSome hcode
  rw [parseMessages_cons, parse_first hs, Option.bind_some, parseMessages_cons]
  unfold parseMessage parseHeaderb2
  simp only [hlen, if_neg hping, hmask, Bool.decide_eq_true]
  unfold Frame.lengthCode Frame.extendedLength
  by_cases hshort : f.payload.length ≤ 125
  · have hbyte : UInt8.ofNat f.payload.length ≤ 125 := by
      rw [UInt8.le_iff_toNat_le, UInt8.toNat_ofNat', Nat.mod_eq_of_lt (by omega)]
      exact hshort
    have hnat : (UInt8.ofNat f.payload.length).toNat = f.payload.length := by
      rw [UInt8.toNat_ofNat', Nat.mod_eq_of_lt (by omega)]
    simp only [if_pos hshort, if_pos hbyte, hnat]
    refine ⟨_, ?_, Option.bind_fun_some _⟩
    exact ⟨rfl, rfl, rfl, rfl, rfl, (if_pos hshort).symm, hs.data, hs.dataWritten, rfl⟩
  · by_cases hword : f.payload.length ≤ 65535
    · have hvalue : bigToHost (toNetwork 2 f.payload.length) = f.payload.length :=
        bigToHost_toNetwork (by omega)
      simp only [if_neg hshort, if_pos hword]
      rw [if_neg (by decide), if_pos (by decide), Option.bind_some,
        parse_length 2 (.inl ⟨rfl, rfl⟩) (d := []) (by simp [← List.length_pos_iff]) (by simp)
          rfl (by simp) (by rw [List.nil_append, hvalue]; exact hword.trans (by decide))]
      refine ⟨_, ?_, rfl⟩
      refine ⟨rfl, rfl, rfl, rfl, ?_, ?_, hs.data, hs.dataWritten, rfl⟩
      · exact hvalue
      · rw [Frame.lastLength, if_neg hshort, if_pos hword]
    · have hlt := f.payload_lt
      have hvalue : bigToHost (toNetwork 8 f.payload.length) = f.payload.length :=
        bigToHost_toNetwork (hlt.trans (by decide))
      simp only [if_neg hshort, if_neg hword]
      rw [if_neg (by decide), if_neg (by decide), if_pos (by decide), Option.bind_some,
        parse_length 8 (.inr ⟨rfl, rfl⟩) (d := []) (by simp [← List.length_pos_iff]) (by simp)
          rfl (by simp) (by rw [List.nil_append, hvalue]; exact hlt.le.trans (by decide))]
      refine ⟨_, ?_, rfl⟩
      refine ⟨rfl, rfl, rfl, rfl, ?_, ?_, hs.data, hs.dataWritten, rfl⟩
      · exact hvalue
      · rw [Frame.lastLength, if_neg hshort, if_neg hword]

/-! ## The mask and the payload -/

theorem maskFrom_cons (f : Frame) (i : ℕ) (b : UInt8) (bs : Bytes) :
    f.maskFrom i (b :: bs) =
      (f.mask.elim b fun key => b ^^^ key (Fin.ofNat 4 i)) :: f.maskFrom (i + 1) bs := by
  unfold Frame.maskFrom
  rw [List.mapIdx_cons, Nat.add_zero]
  simp only [Nat.add_assoc, Nat.add_comm 1]

/-- Masking is undone by masking. -/
theorem unmask_eq (hmask : s.hasMask = f.mask.isSome) (hkey : s.hasMask → s.maskarray = f.key)
    (b : UInt8) :
    s.unmask (f.mask.elim b fun key => b ^^^ key (Fin.ofNat 4 s.index)) = some b := by
  unfold unmask
  cases hm : f.mask with
  | none =>
    rw [hm] at hmask
    rw [if_neg (by rw [hmask]; simp)]
    rfl
  | some key =>
    rw [hm] at hmask
    have hlt : s.index % 4 < 4 := Nat.mod_lt _ (by decide)
    have hget : s.maskarray[s.index % 4]? = some (key (Fin.ofNat 4 s.index)) := by
      rw [hkey (by rw [hmask]; rfl), Frame.key, hm, Option.elim_some, List.getElem?_ofFn,
        dif_pos hlt]
      rfl
    rw [if_pos (by rw [hmask]; rfl), hget, Option.elim_some]
    simp [UInt8.xor_assoc]

/-- The bytes of the payload, after those that are in `d`. -/
theorem parse_bytes (hstate : s.state = .payload) (hmask : s.hasMask = f.mask.isSome)
    (hkey : s.hasMask → s.maskarray = f.key) {d bs : Bytes} (hbs : bs ≠ [])
    (hlen : s.length = d.length + bs.length) (hmax : d.length + bs.length < MAXPAYLOAD)
    (hindex : s.index = d.length) (hwritten : s.dataWritten = d.length)
    (hdata : s.data = d ++ List.replicate bs.length 0) :
    s.parseMessages (f.maskFrom d.length bs) = ({ s with
      index := s.length - 1, data := d ++ bs, dataWritten := s.length } :
        BRWebSocketImpl).finishPacket := by
  induction bs generalizing s d with
  | nil => exact absurd rfl hbs
  | cons b bs ih =>
    rw [List.length_cons] at hlen hmax
    have hstore : storeAt s.data (s.dataWritten + 1 - 1) b =
        some (d ++ b :: List.replicate bs.length 0) := by
      have hlt : s.dataWritten + 1 - 1 < s.data.length := by
        rw [hdata, hwritten, List.length_append, List.length_replicate, List.length_cons]
        omega
      rw [storeAt_of_lt hlt, Nat.add_sub_cancel, hwritten, hdata, List.length_cons,
        List.replicate_succ, List.set_append_right _ _ (Nat.le_refl _), Nat.sub_self,
        List.set_cons_zero]
    have hunmask : ({ s with dataWritten := s.dataWritten + 1 } : BRWebSocketImpl).unmask
        (f.mask.elim b fun key => b ^^^ key (Fin.ofNat 4 d.length)) = some b := by
      rw [← hindex]
      exact unmask_eq (s := { s with dataWritten := s.dataWritten + 1 }) hmask hkey b
    have hbyte : ∀ x, s.parseMessage x = s.parsePayload x := fun x => by
      unfold parseMessage
      rw [hstate]
    rw [maskFrom_cons, parseMessages_cons, hbyte]
    unfold parsePayload
    simp only [hunmask, hstore, Option.bind_eq_bind, Option.bind_some]
    rw [if_neg (by omega)]
    cases bs with
    | nil =>
      rw [if_pos (by rw [hindex, hlen]; rfl)]
      have hlast : s.length - 1 = s.index := by rw [hlen, hindex]; rfl
      have hall : s.length = s.dataWritten + 1 := by rw [hlen, hwritten]; rfl
      rw [hlast, hall]
      exact Option.bind_fun_some _
    | cons c bs =>
      rw [if_neg (by rw [hindex, hlen, List.length_cons]; omega), Option.bind_some]
      have happ : d ++ b :: c :: bs = (d ++ [b]) ++ c :: bs := by simp
      have hd : (d ++ [b]).length = d.length + 1 := by simp
      rw [happ, ← hd]
      exact ih (s := { s with
        index := s.index + 1, data := d ++ b :: List.replicate (c :: bs).length 0,
        dataWritten := s.dataWritten + 1 }) (d := d ++ [b]) hstate hmask hkey (by simp)
          (by dsimp only; rw [hlen, hd]; omega) (by rw [hd]; omega) (by rw [hd, ← hindex])
          (by rw [hd, ← hwritten]) (by simp)

/-- The payload of a frame. -/
theorem parse_payload (hf : Headed s f t) (hkey : t.hasMask → t.maskarray = f.key) :
    ∃ u, Parsed s f u ∧
      (t.startPayload.bind fun v => v.parseMessages (f.maskFrom 0 f.payload)) =
        u.finishPacket := by
  unfold startPayload
  by_cases hlen : t.length ≤ 0
  · have hnil : f.payload = [] := by
      rw [← List.length_eq_zero_iff, ← hf.length]
      exact Nat.le_zero.1 hlen
    rw [if_pos hlen, hnil]
    refine ⟨t, ?_, Option.bind_fun_some _⟩
    exact ⟨hf.fin, hf.opcode, hf.written, by rw [hf.data, hnil], by rw [hf.dataWritten, hnil]; rfl,
      hf.handled⟩
  · have hne : f.payload ≠ [] := by
      rw [← List.length_pos_iff, ← hf.length]
      exact Nat.lt_of_not_le hlen
    rw [if_neg hlen, Option.bind_some]
    refine ⟨_, ?_, parse_bytes (s := { t with
      data := List.replicate t.length 0, dataWritten := 0, state := .payload }) (d := []) rfl
        hf.hasMask hkey hne ?_ ?_ hf.index rfl ?_⟩
    · exact ⟨hf.fin, hf.opcode, hf.written, rfl, hf.length, hf.handled⟩
    · simpa using hf.length
    · simpa using f.payload_lt
    · simp [hf.length]

/-- The key of a frame, once the last extended length was not one of 64 bits. -/
theorem parse_key (hf : Headed s f t) (hstuck : f.mask.isSome → t.lengtharrayWritten ≤ 4) :
    ∃ u, Headed s f u ∧ (u.hasMask → u.maskarray = f.key) ∧
      ∀ bs, (t.afterLength.bind fun v => v.parseMessages (f.key ++ bs)) =
        u.startPayload.bind fun v => v.parseMessages bs := by
  unfold afterLength Frame.key
  cases hm : f.mask with
  | none =>
    have hmask : t.hasMask = false := by rw [hf.hasMask, hm]; rfl
    refine ⟨t, hf, fun h => by simp [hmask] at h, fun bs => ?_⟩
    rw [if_neg (by simp [hmask])]
    rfl
  | some key =>
    have hmask : t.hasMask = true := by rw [hf.hasMask, hm]; rfl
    have hle : ¬ 4 < t.lengtharrayWritten := Nat.not_lt_of_le (hstuck (by rw [hm]; rfl))
    have hbytes : (some key).elim [] List.ofFn = [key 0, key 1, key 2, key 3] := by
      simp [List.ofFn_succ]
    rw [if_pos hmask, hbytes]
    refine ⟨{ t with
        maskarray := [key 0, key 1, key 2, key 3], maskarrayWritten := 4, state := .mask },
      ⟨hf.fin, hf.opcode, hf.hasMask, hf.index, hf.length, hf.written, hf.data, hf.dataWritten,
        hf.handled⟩, fun _ => rfl, fun bs => ?_⟩
    simp [parseMessages_cons, parseMessage, parseMask, hle, storeAt]

/-- A frame reaches `handlePacket` with its unmasked payload. -/
theorem parse_frame (hs : Idle s) (hping : f.opcode ≠ .ping)
    (hstuck : f.mask.isSome → f.lastLength s.lengtharrayWritten ≤ 4) :
    ∃ t, Parsed s f t ∧ s.parseMessages f.bytes = t.finishPacket := by
  obtain ⟨t, ht, hheader⟩ := parse_header hs hping
  obtain ⟨u, hu, hkey, hparse⟩ := parse_key ht fun h => by rw [ht.written]; exact hstuck h
  obtain ⟨v, hv, hpayload⟩ := parse_payload hu hkey
  refine ⟨v, hv, ?_⟩
  have hbytes : f.bytes = (((if f.fin then 0x80 else 0) ||| f.opcode.rawValue) ::
      ((if f.mask.isSome then 0x80 else 0) ||| UInt8.ofNat f.lengthCode) :: f.extendedLength) ++
        (f.key ++ f.maskFrom 0 f.payload) := rfl
  rw [hbytes, parseMessages_append, hheader, hparse, hpayload]

end BRWebSocketImpl

end RavenWallet
