/-
  Which bytes make the receiver of a web socket trap.

  * `BRWebSocketImpl.Valid` is the invariant of the parser: how long its arrays
    are and how far it has read, in each state.
  * `parseMessage_spec`: a byte is taken and the invariant kept, unless it
    completes a length that is no `Int` (`Overflows`).
  * `parseMessages_eq_none_iff`: this is the only trap.
-/
import RavenWallet.Lib.Reach
import RavenWallet.Platform.WebSocket

namespace RavenWallet

theorem bigToHost_lt (bs : Bytes) : bigToHost bs < 256 ^ bs.length := by
  have h := ofLE_lt bs.reverse
  rwa [List.length_reverse] at h

theorem bigToHost_toNetwork {k n : ℕ} (h : n < 256 ^ k) : bigToHost (toNetwork k n) = n := by
  rw [bigToHost, toNetwork, List.reverse_reverse, ofLE_toLE h]

@[simp] theorem length_toNetwork (k n : ℕ) : (toNetwork k n).length = k := by
  rw [toNetwork, List.length_reverse, length_toLE]

namespace BRWebSocketImpl

variable {s : BRWebSocketImpl} {byte : UInt8}

/-- How far the parser is, in each of its states. -/
structure Valid (s : BRWebSocketImpl) : Prop where
  start : s.state ≠ .payload → s.data = [] ∧ s.dataWritten = 0
  header : s.state ≠ .payload → s.state ≠ .headerb1 → s.index = 0
  lengthshort : s.state = .lengthshort → s.lengtharray.length = 2
  lengthlong : s.state = .lengthlong → s.lengtharray.length = 8
  mask : s.state = .mask →
    s.maskarray.length = 4 ∧ (s.maskarrayWritten < 4 ∨ 4 < s.lengtharrayWritten)
  payload : s.state = .payload → s.data.length = s.length ∧ s.index < s.length ∧
    (s.index = s.dataWritten ∨ MAXPAYLOAD ≤ s.dataWritten) ∧
    (s.hasMask → s.maskarray.length = 4)

theorem valid_init : Valid {} := by
  constructor <;> simp

/-! ## Packets -/

/-- A message is always queued. -/
theorem sendMessage_spec (s : BRWebSocketImpl) (fin : Bool) (opc : SocketOpcode) (data : Bytes) :
    ∃ payload, s.sendMessage fin opc data = some { s with sendq := s.sendq ++ [(opc, payload)] } := by
  unfold sendMessage
  by_cases hshort : data.length ≤ 125
  · simp [hshort, convert_of_le (show data.length ≤ UINT8_MAX from hshort.trans (by decide))]
  · by_cases hlong : 126 ≤ data.length ∧ data.length ≤ 65535
    · simp [hshort, hlong, convert_of_le (show data.length ≤ UINT16_MAX from hlong.2)]
    · simp [hshort, hlong]

/-- A close frame is queued, unless one was before. -/
theorem close_spec (s : BRWebSocketImpl) (status : SocketCloseEventCode) (reason : Bytes) :
    ∃ q, s.close status reason = some { s with closed := true, sendq := s.sendq ++ q } ∧
      ∀ m ∈ q, m.1 = .close := by
  unfold close
  by_cases hclosed : s.closed
  · exact ⟨[], by simp [hclosed], by simp⟩
  · obtain ⟨payload, hsend⟩ := s.sendMessage_spec false .close
      (toNetwork 2 status.rawValue ++ reason)
    exact ⟨[(.close, payload)], by simp [hclosed, hsend], by simp⟩

/-- A close frame is answered, whatever it says. -/
theorem handleClose_spec (h : s.dataWritten ≤ s.data.length) :
    ∃ q, s.handleClose = some { s with closed := true, sendq := s.sendq ++ q } ∧
      ∀ m ∈ q, m.1 = .close := by
  unfold handleClose
  by_cases hbody : 2 ≤ s.dataWritten
  · rw [if_pos hbody, suffixFrom_of_le (hbody.trans h), Option.bind_eq_bind, Option.bind_some]
    by_cases hreason : 0 < (s.data.drop 2).length
    · rw [if_pos hreason]
      cases decodeUTF8 (s.data.drop 2) <;> exact close_spec ..
    · rw [if_neg hreason]
      exact close_spec ..
  · rw [if_neg hbody]
    exact close_spec ..

theorem handleFinal_isSome (s : BRWebSocketImpl) : ∃ t, s.handleFinal = some t := by
  unfold handleFinal
  cases hopc : s.opcode with
  | ping =>
    obtain ⟨payload, hsend⟩ := s.sendMessage_spec false .pong s.data
    exact ⟨_, hsend⟩
  | pong => exact ⟨_, rfl⟩
  | _ =>
    dsimp only
    split
    · exact ⟨_, rfl⟩
    · exact ⟨_, rfl⟩

theorem handlePacket_isSome (h : s.dataWritten ≤ s.data.length) :
    ∃ t, s.handlePacket = some t := by
  unfold handlePacket
  split_ifs with hsize hclose hfin
  · exact ⟨_, rfl⟩
  · obtain ⟨q, hq, -⟩ := handleClose_spec h
    exact ⟨_, hq⟩
  · exact ⟨_, rfl⟩
  · exact handleFinal_isSome s

/-- After a packet the parser starts over. -/
theorem finishPacket_of {t : BRWebSocketImpl} (h : s.handlePacket = some t) :
    s.finishPacket = some { t with data := [], dataWritten := 0, state := .headerb1 } := by
  rw [finishPacket, h]
  rfl

theorem finishPacket_valid (h : s.dataWritten ≤ s.data.length) :
    ∃ t, s.finishPacket = some t ∧ Valid t := by
  obtain ⟨t, ht⟩ := handlePacket_isSome h
  exact ⟨_, finishPacket_of ht, by constructor <;> simp⟩

theorem startPayload_valid (hdata : s.data = [] ∧ s.dataWritten = 0) (hindex : s.index = 0)
    (hmask : s.hasMask → s.maskarray.length = 4) : ∃ t, s.startPayload = some t ∧ Valid t := by
  unfold startPayload
  split_ifs with hlen
  · exact finishPacket_valid (by rw [hdata.2]; exact Nat.zero_le _)
  · refine ⟨_, rfl, ?_⟩
    constructor <;> simp
    exact ⟨by omega, .inl hindex, hmask⟩

theorem afterLength_valid (hdata : s.data = [] ∧ s.dataWritten = 0) (hindex : s.index = 0) :
    ∃ t, s.afterLength = some t ∧ Valid t := by
  unfold afterLength
  by_cases hmask : s.hasMask
  · rw [if_pos hmask]
    refine ⟨_, rfl, ?_⟩
    constructor <;> simp [hdata, hindex]
  · rw [if_neg hmask]
    exact startPayload_valid hdata hindex fun h => absurd h hmask

/-! ## Bytes -/

/-- The byte completes a length of 64 bits that is no `Int`. -/
def Overflows (s : BRWebSocketImpl) (byte : UInt8) : Prop :=
  s.state = .lengthlong ∧ s.lengtharrayWritten = 7 ∧
    INT_MAX < bigToHost (s.lengtharray.set 7 byte)

/-- What a byte of a length does. -/
theorem parseLength_spec {size : ℕ} (byte : UInt8) (hs : Valid s)
    (harray : s.lengtharray.length = size)
    (hstate : s.state = .lengthshort ∧ size = 2 ∨ s.state = .lengthlong ∧ size = 8) :
    s.parseLength byte size = none ∧ s.lengtharrayWritten + 1 = size ∧
        INT_MAX < bigToHost (s.lengtharray.set (size - 1) byte) ∨
      (s.lengtharrayWritten + 1 = size →
          bigToHost (s.lengtharray.set (size - 1) byte) ≤ INT_MAX) ∧
        ∃ t, s.parseLength byte size = some t ∧ Valid t := by
  have hnot : s.state ≠ .payload ∧ s.state ≠ .headerb1 := by
    rcases hstate with ⟨h, -⟩ | ⟨h, -⟩ <;> simp [h]
  have hdata := hs.start hnot.1
  have hindex := hs.header hnot.1 hnot.2
  unfold parseLength
  by_cases hover : size < s.lengtharrayWritten + 1
  · refine .inr ⟨by omega, _, if_pos hover, ?_⟩
    exact ⟨hs.start, hs.header, hs.lengthshort, hs.lengthlong,
      fun h => by rcases hstate with ⟨h', -⟩ | ⟨h', -⟩ <;> simp_all, hs.payload⟩
  · have hstore : storeAt s.lengtharray (s.lengtharrayWritten + 1 - 1) byte =
        some (s.lengtharray.set s.lengtharrayWritten byte) := storeAt_of_lt (by omega) _
    simp only [if_neg hover, hstore, Option.bind_eq_bind, Option.bind_some]
    by_cases hlast : s.lengtharrayWritten + 1 = size
    · have hset : s.lengtharrayWritten = size - 1 := by omega
      rw [if_pos hlast, hset]
      by_cases hint : bigToHost (s.lengtharray.set (size - 1) byte) ≤ INT_MAX
      · rw [convert_of_le hint, Option.bind_some]
        exact .inr ⟨fun _ => hint, afterLength_valid hdata hindex⟩
      · rw [convert_of_lt (by omega)]
        exact .inl ⟨rfl, by omega, by omega⟩
    · rw [if_neg hlast]
      refine .inr ⟨fun h => absurd h hlast, _, rfl, ?_⟩
      refine ⟨hs.start, hs.header, fun h => ?_, fun h => ?_,
        fun h => by rcases hstate with ⟨h', -⟩ | ⟨h', -⟩ <;> simp_all, hs.payload⟩
      · rw [List.length_set]
        exact hs.lengthshort h
      · rw [List.length_set]
        exact hs.lengthlong h

theorem parseMask_valid (hs : Valid s) (hstate : s.state = .mask) :
    ∃ t, s.parseMask byte = some t ∧ Valid t := by
  obtain ⟨hlen, hwritten⟩ := hs.mask hstate
  have hdata := hs.start (by simp [hstate])
  have hindex := hs.header (by simp [hstate]) (by simp [hstate])
  unfold parseMask
  by_cases hstuck : 4 < s.lengtharrayWritten
  · refine ⟨_, if_pos hstuck, ?_⟩
    exact ⟨hs.start, hs.header, hs.lengthshort, hs.lengthlong, fun _ => ⟨hlen, .inr hstuck⟩,
      hs.payload⟩
  · have hstore : storeAt s.maskarray (s.maskarrayWritten + 1 - 1) byte =
        some (s.maskarray.set s.maskarrayWritten byte) := storeAt_of_lt (by omega) _
    simp only [if_neg hstuck, hstore, Option.bind_eq_bind, Option.bind_some]
    by_cases hlast : s.maskarrayWritten + 1 = 4
    · rw [if_pos hlast]
      exact startPayload_valid hdata hindex fun _ => by rw [List.length_set, hlen]
    · rw [if_neg hlast]
      refine ⟨_, rfl, hs.start, hs.header, hs.lengthshort, hs.lengthlong, fun _ => ?_,
        fun h => by simp [hstate] at h⟩
      exact ⟨by rw [List.length_set, hlen], .inl (by dsimp only; omega)⟩

theorem unmask_isSome (hmask : s.hasMask → s.maskarray.length = 4) :
    ∃ b, s.unmask byte = some b := by
  unfold unmask
  by_cases hm : s.hasMask
  · have hlt : s.index % 4 < s.maskarray.length := by
      rw [hmask hm]
      exact Nat.mod_lt _ (by decide)
    exact ⟨_, by rw [if_pos hm, List.getElem?_eq_getElem hlt]; rfl⟩
  · exact ⟨byte, if_neg hm⟩

theorem parsePayload_valid (hs : Valid s) (hstate : s.state = .payload) :
    ∃ t, s.parsePayload byte = some t ∧ Valid t := by
  obtain ⟨hlen, hindex, hwritten, hmask⟩ := hs.payload hstate
  unfold parsePayload
  by_cases hmax : MAXPAYLOAD ≤ s.dataWritten + 1
  · refine ⟨_, if_pos hmax, ?_⟩
    exact ⟨fun h => absurd hstate h, fun h => absurd hstate h, hs.lengthshort, hs.lengthlong,
      hs.mask, fun _ => ⟨hlen, hindex, .inr hmax, hmask⟩⟩
  · have hat : s.index = s.dataWritten := by omega
    obtain ⟨b, hb⟩ : ∃ b, ({ s with dataWritten := s.dataWritten + 1 } : BRWebSocketImpl).unmask
        byte = some b := unmask_isSome hmask
    have hstore : storeAt s.data (s.dataWritten + 1 - 1) b = some (s.data.set s.dataWritten b) :=
      storeAt_of_lt (by omega) _
    simp only [if_neg hmax, hb, hstore, Option.bind_eq_bind, Option.bind_some]
    by_cases hlast : s.index + 1 = s.length
    · rw [if_pos hlast]
      exact finishPacket_valid (by rw [List.length_set, hlen]; dsimp only; omega)
    · rw [if_neg hlast]
      refine ⟨_, rfl, fun h => absurd hstate h, fun h => absurd hstate h, hs.lengthshort,
        hs.lengthlong, hs.mask, fun _ => ?_⟩
      exact ⟨by rw [List.length_set, hlen], by dsimp only; omega, .inl (by dsimp only; omega),
        hmask⟩

theorem parseHeaderb1_valid (hs : Valid s) (hstate : s.state = .headerb1) :
    ∃ t, s.parseHeaderb1 byte = some t ∧ Valid t := by
  have hdata := hs.start (by simp [hstate])
  unfold parseHeaderb1
  cases SocketOpcode.ofRawValue (byte &&& 0x0F) with
  | none => exact ⟨_, rfl, by constructor <;> simp [hstate, hdata]⟩
  | some opc => exact ⟨_, rfl, by constructor <;> simp [hdata]⟩

theorem parseHeaderb2_valid (hs : Valid s) (hstate : s.state = .headerb2) :
    ∃ t, s.parseHeaderb2 byte = some t ∧ Valid t := by
  have hdata := hs.start (by simp [hstate])
  have hindex := hs.header (by simp [hstate]) (by simp [hstate])
  unfold parseHeaderb2
  dsimp only
  split_ifs with hping hshort hword hlong
  · exact ⟨_, rfl, hs⟩
  · exact afterLength_valid hdata hindex
  · exact ⟨_, rfl, by constructor <;> simp [hdata, hindex]⟩
  · exact ⟨_, rfl, by constructor <;> simp [hdata, hindex]⟩
  · exact ⟨_, rfl, hs.start, hs.header, hs.lengthshort, hs.lengthlong, hs.mask,
      fun h => by simp [hstate] at h⟩

/-- A byte is taken, unless it completes a length that is no `Int`. -/
theorem parseMessage_spec (byte : UInt8) (hs : Valid s) :
    s.parseMessage byte = none ∧ Overflows s byte ∨
      ¬ Overflows s byte ∧ ∃ t, s.parseMessage byte = some t ∧ Valid t := by
  unfold parseMessage Overflows
  cases hstate : s.state with
  | headerb1 => exact .inr ⟨by simp, parseHeaderb1_valid hs hstate⟩
  | headerb2 => exact .inr ⟨by simp, parseHeaderb2_valid hs hstate⟩
  | lengthshort =>
    have hlen := hs.lengthshort hstate
    rcases parseLength_spec byte hs hlen (.inl ⟨hstate, rfl⟩) with
      ⟨-, -, hbig⟩ | ⟨-, hvalid⟩
    · have hlt := bigToHost_lt (s.lengtharray.set (2 - 1) byte)
      rw [List.length_set, hlen] at hlt
      exact absurd (hbig.trans hlt) (by decide)
    · exact .inr ⟨by simp, hvalid⟩
  | lengthlong =>
    rcases parseLength_spec byte hs (hs.lengthlong hstate)
      (.inr ⟨hstate, rfl⟩) with ⟨hnone, hwritten, hbig⟩ | ⟨hint, hvalid⟩
    · exact .inl ⟨hnone, rfl, by omega, hbig⟩
    · refine .inr ⟨fun ⟨_, hwritten, hbig⟩ => ?_, hvalid⟩
      exact absurd (hint (by rw [hwritten])) (Nat.not_le_of_lt hbig)
  | mask => exact .inr ⟨by simp, parseMask_valid hs hstate⟩
  | payload => exact .inr ⟨by simp, parsePayload_valid hs hstate⟩

/-- Some byte completes a length that is no `Int`. -/
def ReadsOverflow (s : BRWebSocketImpl) (bytes : Bytes) : Prop :=
  ∃ done byte rest t, bytes = done ++ byte :: rest ∧ s.parseMessages done = some t ∧
    Overflows t byte

/-- Only a length that is no `Int` traps. -/
theorem parseMessages_eq_none_iff (hs : Valid s) (bytes : Bytes) :
    s.parseMessages bytes = none ↔ ReadsOverflow s bytes := by
  refine foldlM_eq_none_iff (P := Valid) ?_ ?_ hs
  · intro s x t hv hx
    rcases parseMessage_spec x hv with ⟨hnone, -⟩ | ⟨-, u, hu, hvalid⟩
    · rw [hnone] at hx
      cases hx
    · rw [hu] at hx
      obtain rfl := Option.some.inj hx
      exact hvalid
  · intro s x hv
    rcases parseMessage_spec x hv with ⟨hnone, hover⟩ | ⟨hover, u, hu, -⟩
    · exact iff_of_true hnone hover
    · exact iff_of_false (by rw [hu]; simp) hover

end BRWebSocketImpl

end RavenWallet
