/-
  The receiver of a web socket (BRWebSocket.swift).

  `parseMessage` takes one byte at a time.  An array index, a suffix or an
  integer conversion that traps is `none`; the counters are unbounded.  Where
  the source repeats what it does once a header is complete, that is
  `afterLength`, `startPayload` and `finishPacket`.  The calls of the client are
  collected in `received`, and strings are UTF-8.
-/
import RavenWallet.Core.Types
import RavenWallet.Lib.Buffer
import RavenWallet.Lib.Checked

namespace RavenWallet

inductive SocketState where
  | headerb1 | headerb2 | lengthshort | lengthlong | mask | payload
  deriving DecidableEq, Repr

inductive SocketOpcode where
  | stream | text | binary | close | ping | pong
  deriving DecidableEq, Repr

def SocketOpcode.rawValue : SocketOpcode → UInt8
  | .stream => 0x0
  | .text => 0x1
  | .binary => 0x2
  | .close => 0x8
  | .ping => 0x9
  | .pong => 0xA

def SocketOpcode.ofRawValue (b : UInt8) : Option SocketOpcode :=
  [SocketOpcode.stream, .text, .binary, .close, .ping, .pong].find? fun opc => opc.rawValue = b

def MAXPAYLOAD : ℕ := 33554432

inductive SocketCloseEventCode where
  | close_NORMAL | close_GOING_AWAY | close_PROTOCOL_ERROR | close_UNSUPPORTED | close_NO_STATUS
  | close_ABNORMAL | unsupportedData | policyViolation | close_TOO_LARGE | missingExtension
  | internalError | serviceRestart | tryAgainLater | tlsHandshake
  deriving DecidableEq, Repr

namespace SocketCloseEventCode

def rawValue : SocketCloseEventCode → ℕ
  | close_NORMAL => 1000
  | close_GOING_AWAY => 1001
  | close_PROTOCOL_ERROR => 1002
  | close_UNSUPPORTED => 1003
  | close_NO_STATUS => 1005
  | close_ABNORMAL => 1004
  | unsupportedData => 1006
  | policyViolation => 1007
  | close_TOO_LARGE => 1008
  | missingExtension => 1009
  | internalError => 1010
  | serviceRestart => 1011
  | tryAgainLater => 1012
  | tlsHandshake => 1015

def ofRawValue (n : ℕ) : Option SocketCloseEventCode :=
  [close_NORMAL, close_GOING_AWAY, close_PROTOCOL_ERROR, close_UNSUPPORTED, close_NO_STATUS,
    close_ABNORMAL, unsupportedData, policyViolation, close_TOO_LARGE, missingExtension,
    internalError, serviceRestart, tryAgainLater, tlsHandshake].find? fun code => code.rawValue = n

end SocketCloseEventCode

/-! ## Integers and strings -/

/-- The `k` bytes of `n` in network order. -/
def toNetwork (k n : ℕ) : Bytes := (toLE k n).reverse

/-- The number with these bytes, in network order. -/
def bigToHost (bs : Bytes) : ℕ := ofLE bs.reverse

def UINT8_MAX : ℕ := 255
def UINT16_MAX : ℕ := 65535
def INT_MAX : ℕ := 2 ^ 63 - 1

/-- `String(bytes:encoding:)` with UTF-8. -/
def decodeUTF8 (bs : Bytes) : Option String := String.fromUTF8? ⟨bs.toArray⟩

def utf8 (str : String) : Bytes := str.toByteArray.data.toList

theorem decodeUTF8_eq_some {bs : Bytes} {str : String} (h : decodeUTF8 bs = some str) :
    utf8 str = bs := by
  unfold decodeUTF8 String.fromUTF8? at h
  split at h
  · obtain rfl := Option.some.inj h
    rfl
  · cases h

/-! ## The parser -/

/-- What the client is told. -/
inductive SocketMessage where
  | text (str : String)
  | data (bin : Bytes)
  deriving DecidableEq, Repr

structure BRWebSocketImpl where
  state : SocketState := .headerb1
  fin : UInt8 := 0
  hasMask : Bool := false
  opcode : SocketOpcode := .stream
  closed : Bool := false
  index : ℕ := 0
  length : ℕ := 0
  lengtharray : Bytes := []
  lengtharrayWritten : ℕ := 0
  data : Bytes := []
  dataWritten : ℕ := 0
  maskarray : Bytes := []
  maskarrayWritten : ℕ := 0
  fragStart : Bool := false
  fragType : SocketOpcode := .binary
  fragBuffer : Bytes := []
  sendq : List (SocketOpcode × Bytes) := []
  received : List SocketMessage := []
  deriving DecidableEq, Repr

namespace BRWebSocketImpl

variable (s : BRWebSocketImpl)

/-- Queues a frame; the one it sends has the bit set that says it is final. -/
def sendMessage (fin : Bool) (opcode : SocketOpcode) (data : Bytes) : Option BRWebSocketImpl := do
  let b1 := (if fin then 0 else 0x80) ||| opcode.rawValue
  let header ←
    if data.length ≤ 125 then do
      let count ← convert UINT8_MAX data.length
      some [UInt8.ofNat count]
    else if 126 ≤ data.length ∧ data.length ≤ 65535 then do
      let count ← convert UINT16_MAX data.length
      some (126 :: toNetwork 2 count)
    else some (127 :: toNetwork 8 data.length)
  some { s with sendq := s.sendq ++ [(opcode, b1 :: header ++ data)] }

def close (status : SocketCloseEventCode) (reason : Bytes) : Option BRWebSocketImpl := do
  let s ← if s.closed then some s
    else s.sendMessage false .close (toNetwork 2 status.rawValue ++ reason)
  some { s with closed := true }

def handleClose : Option BRWebSocketImpl :=
  if 2 ≤ s.dataWritten then do
    let lt := s.data.take 2
    let status := (SocketCloseEventCode.ofRawValue (bigToHost lt)).getD .close_PROTOCOL_ERROR
    let lr ← suffixFrom s.data 2
    if 0 < lr.length then
      match decodeUTF8 lr with
      | some rr => s.close status (utf8 rr)
      | none => s.close .close_PROTOCOL_ERROR (utf8 "bad UTF8 data")
    else s.close status []
  else s.close .close_PROTOCOL_ERROR []

/-- A frame that is not the last of its message. -/
def handleFragment : BRWebSocketImpl :=
  if s.opcode ≠ .stream then
    if s.opcode = .ping ∨ s.opcode = .pong then s
    else { s with fragType := s.opcode, fragStart := true, fragBuffer := s.fragBuffer ++ s.data }
  else if ¬ s.fragStart then s
  else { s with fragBuffer := s.fragBuffer ++ s.data }

/-- Tells the client of a text, if it is one. -/
def didReceiveText (data : Bytes) : BRWebSocketImpl :=
  match decodeUTF8 data with
  | some str => { s with received := s.received ++ [.text str] }
  | none => s

def didReceiveData (data : Bytes) : BRWebSocketImpl :=
  { s with received := s.received ++ [.data data] }

/-- A frame that is the last of its message. -/
def handleFinal : Option BRWebSocketImpl :=
  match s.opcode with
  | .stream =>
    if ¬ s.fragStart then some s
    else
      let s := if s.fragType = .text then s.didReceiveText s.data else s.didReceiveData s.data
      some { s with fragType := .binary, fragStart := false, fragBuffer := [] }
  | .ping => s.sendMessage false .pong s.data
  | .pong => some s
  | _ =>
    if s.fragStart then some s
    else some (if s.opcode = .text then s.didReceiveText s.data else s)

def handlePacket : Option BRWebSocketImpl :=
  if (s.opcode = .pong ∨ s.opcode = .ping) ∧ 125 < s.dataWritten then some s
  else if s.opcode = .close then s.handleClose
  else if s.fin = 0 then some s.handleFragment
  else s.handleFinal

def finishPacket : Option BRWebSocketImpl := do
  let s ← s.handlePacket
  some { s with data := [], dataWritten := 0, state := .headerb1 }

def startPayload : Option BRWebSocketImpl :=
  if s.length ≤ 0 then s.finishPacket
  else some { s with data := List.replicate s.length 0, dataWritten := 0, state := .payload }

def afterLength : Option BRWebSocketImpl :=
  if s.hasMask then
    some { s with maskarray := List.replicate 4 0, maskarrayWritten := 0, state := .mask }
  else s.startPayload

variable (byte : UInt8)

def parseHeaderb1 : Option BRWebSocketImpl :=
  let s := { s with fin := byte &&& 0x80 }
  match SocketOpcode.ofRawValue (byte &&& 0x0F) with
  | none => some s
  -- nothing more is done about reserved bits
  | some opc => some { s with opcode := opc, state := .headerb2, index := 0, length := 0 }

def parseHeaderb2 : Option BRWebSocketImpl :=
  let mask := byte &&& 0x80
  let length := byte &&& 0x7F
  if s.opcode = .ping then some s
  else
    let s := { s with hasMask := mask = 128 }
    if length ≤ 125 then ({ s with length := length.toNat } : BRWebSocketImpl).afterLength
    else if length = 126 then
      some { s with
        lengtharray := List.replicate 2 0, lengtharrayWritten := 0, state := .lengthshort }
    else if length = 127 then
      some { s with
        lengtharray := List.replicate 8 0, lengtharrayWritten := 0, state := .lengthlong }
    else some s

/-- A byte of a length of `size` bytes. -/
def parseLength (size : ℕ) : Option BRWebSocketImpl :=
  let s := { s with lengtharrayWritten := s.lengtharrayWritten + 1 }
  if size < s.lengtharrayWritten then some s
  else do
    let lengtharray ← storeAt s.lengtharray (s.lengtharrayWritten - 1) byte
    let s := { s with lengtharray := lengtharray }
    if s.lengtharrayWritten = size then do
      let ll ← convert INT_MAX (bigToHost s.lengtharray)
      ({ s with length := ll } : BRWebSocketImpl).afterLength
    else some s

def parseLengthshort : Option BRWebSocketImpl := s.parseLength byte 2
def parseLengthlong : Option BRWebSocketImpl := s.parseLength byte 8

def parseMask : Option BRWebSocketImpl :=
  let s := { s with maskarrayWritten := s.maskarrayWritten + 1 }
  if 4 < s.lengtharrayWritten then some s
  else do
    let maskarray ← storeAt s.maskarray (s.maskarrayWritten - 1) byte
    let s := { s with maskarray := maskarray }
    if s.maskarrayWritten = 4 then s.startPayload else some s

/-- The byte without its mask. -/
def unmask : Option UInt8 :=
  if s.hasMask then do
    let m ← s.maskarray[s.index % 4]?
    some (byte ^^^ m)
  else some byte

def parsePayload : Option BRWebSocketImpl :=
  let s := { s with dataWritten := s.dataWritten + 1 }
  if MAXPAYLOAD ≤ s.dataWritten then some s
  else do
    let b ← s.unmask byte
    let data ← storeAt s.data (s.dataWritten - 1) b
    let s := { s with data := data }
    if s.index + 1 = s.length then s.finishPacket
    else some { s with index := s.index + 1 }

def parseMessage : Option BRWebSocketImpl :=
  match s.state with
  | .headerb1 => s.parseHeaderb1 byte
  | .headerb2 => s.parseHeaderb2 byte
  | .lengthshort => s.parseLengthshort byte
  | .lengthlong => s.parseLengthlong byte
  | .mask => s.parseMask byte
  | .payload => s.parsePayload byte

/-- Bytes that arrive one by one. -/
def parseMessages (bytes : Bytes) : Option BRWebSocketImpl := bytes.foldlM parseMessage s

end BRWebSocketImpl

end RavenWallet
