/-
  Headers (`_PeerAcceptHeadersMessage` of BRPeer.c).

  A message has headers of 81 bytes and behind them, from the first one on that is
  not old, headers of 121 bytes.  Where the longer ones begin is found by reading
  timestamps.  The offsets that the source holds in an `int` are exact for payloads
  of up to `MAX_MSG_LENGTH` bytes; no longer ones are received.

  * `headerSpan`, `locators` and `seek` are the three parts that read timestamps
    and hashes before the headers themselves are parsed;
  * `acceptHeadersMessage_isSome`: they, and the headers that are reached, have to
    lie in the payload.
-/
import RavenWallet.Peer.Messages

namespace RavenWallet

/-- A `size_t` that was an `int` in between. -/
def throughInt (n : ℕ) : ℕ :=
  if n % 2 ^ 32 < 2 ^ 31 then n % 2 ^ 32 else 2 ^ 64 - 2 ^ 32 + n % 2 ^ 32

/-- `UINT256_ZERO`, and how hashes are combined. -/
def merkleHash (K : BlockHashes) : MerkleHash UInt256 where
  zero := 0
  sha256_2 left right := get256 (K.sha256_2 (set256 left ++ set256 right))
  bytes := set256

/-- Where the headers of 121 bytes begin, as a number and as an offset, the timestamp that is taken
    for the last one, and the one that was read last. -/
structure HeaderSpan where
  startNewHeader : ℕ
  startNewHeaderSize : ℕ
  timestamp : UInt32
  timestampLast : UInt32

namespace HeaderSpan

variable (s : HeaderSpan) (off i : ℕ)

/-- The offset of a header of 121 bytes. -/
def newStart : ℕ := wrap64 (s.startNewHeaderSize + 121 * wrap64 (i + (2 ^ 64 - s.startNewHeader)))

/-- The offset of the header with number `i`, and its size. -/
def start : ℕ := if i ≥ s.startNewHeader then s.newStart i else wrap64 (off + 81 * i)
def size : ℕ := if i ≥ s.startNewHeader then 121 else 81

/-- Where the timestamp of the header behind the one with number `i - 1` is looked for. -/
def nextStart : ℕ := if i - 1 < s.startNewHeader then off + 81 * i else s.newStart i

end HeaderSpan

def isOld (timestamp : UInt32) : Bool := decide (timestamp > 0 ∧ timestamp < KAWPOW_ActivationTime)
def isNew (timestamp : UInt32) : Bool := decide (timestamp ≥ KAWPOW_ActivationTime)

namespace BRPeerContext

variable (E : PeerEnv) (ctx : BRPeerContext) (msg : Bytes)

/-- The header is not from long before the wallet. -/
def isFresh (timestamp : UInt32) : Bool :=
  decide (timestamp + 7 * 24 * 60 * 60 + BLOCK_MAX_TIME_DRIFT ≥ ctx.earliestKeyTime)

/-- The header is looked past for the first one that is not from long before the wallet. -/
def isStale (timestamp : UInt32) : Bool := decide (timestamp > 0) && !ctx.isFresh timestamp

/-! ## Timestamps and hashes -/

/-- The timestamp of the header at `off`. -/
def stampAt (off : ℕ) : Option UInt32 := (getLE msg (wrap64 (off + 68)) 4).map UInt32.ofNat

def StampFits (off : ℕ) : Prop := wrap64 (off + 68) + 4 ≤ msg.length

/-- The timestamp at `off` if it fits. -/
def stamp (off : ℕ) : UInt32 := UInt32.ofNat (BRTransaction.fieldAt msg (wrap64 (off + 68)) 4)

instance (off : ℕ) : Decidable (StampFits msg off) := inferInstanceAs (Decidable (_ ≤ _))

theorem stampAt_yields (off : ℕ) :
    Yields (stampAt msg off) (StampFits msg off) (stamp msg off) := (getLE_yields msg _ 4).map _

theorem stampAt_eq (off : ℕ) :
    stampAt msg off = if StampFits msg off then some (stamp msg off) else none := by
  by_cases h : StampFits msg off
  · rw [if_pos h, (stampAt_yields msg off).some_of h]
  · rw [if_neg h, (stampAt_yields msg off).none_of h]

/-- The timestamps of headers that lie at `pos`. -/
theorem readStamps_yields (pos : ℕ → ℕ) (go : UInt32 → Bool) (n i : ℕ) :
    Yields (Items.readWhile (fun i => stampAt msg (pos i)) go n i)
      (∀ j ∈ Items.reached (fun i => stamp msg (pos i)) go n i, StampFits msg (pos j))
      ((Items.reached (fun i => stamp msg (pos i)) go n i).map fun i => stamp msg (pos i)) :=
  Yields.of_ite (Items.readWhile_of_fits (fun i => stampAt_eq msg (pos i)) n i)

/-- A timestamp of a message with `count` headers, zero if there are none. -/
def countedStamp (count off : ℕ) : Option UInt32 :=
  if count > 0 then stampAt msg off else some 0

theorem countedStamp_yields (count off : ℕ) :
    Yields (countedStamp msg count off) (count > 0 → StampFits msg off)
      (if count > 0 then stamp msg off else 0) :=
  ((stampAt_yields msg off).ite (Yields.pure 0)).congr (and_iff_left fun _ => trivial)

/-- The hash of a header of 120 bytes at `off`. -/
def lightHash (off : ℕ) : Option UInt256 := do
  let header ← peek msg off 80
  let mixHash ← peek msg (off + 88) 32
  let nonce ← getLE msg (off + 80) 8
  let _ ← getLE msg (off + 76) 4
  some (get256 (E.K.lightVerify (E.K.sha256_2 header).reverse mixHash.reverse
    (UInt64.ofNat nonce)).reverse)

/-- The hash of a header of 80 bytes with the given timestamp at `off`. -/
def oldHash (timestamp : UInt32) (off : ℕ) : Option UInt256 :=
  (peek msg (wrap64 off) 80).map fun header =>
    get256 (if timestamp ≥ X16RV2ActivationTime then E.K.x16rv2 header else E.K.x16r header)

theorem lightHash_isSome (off : ℕ) : (lightHash E msg off).isSome ↔ off + 120 ≤ msg.length := by
  rw [lightHash]
  dsimp only [Option.bind_eq_bind]
  rw [(peek_yields msg _ _).isSome_bind, (peek_yields msg _ _).isSome_bind,
    (getLE_yields msg _ _).isSome_bind, (getLE_yields msg _ _).isSome_bind]
  exact ⟨fun h => h.2.1, fun h => ⟨by omega, h, by omega, by omega, rfl⟩⟩

theorem oldHash_isSome (timestamp : UInt32) (off : ℕ) :
    (oldHash E msg timestamp off).isSome ↔ wrap64 off + 80 ≤ msg.length := by
  rw [oldHash, Option.isSome_map, (peek_yields msg _ _).isSome_iff]

/-! ## The longer headers -/

/-- The numbers of the headers whose timestamps are read up to the first one that is not old,
    without the first header. -/
def oldReached (off count : ℕ) (first : UInt32) : List ℕ :=
  if isOld first then Items.reached (fun i => stamp msg (off + 81 * i)) isOld (count - 1) 1 else []

/-- The timestamps up to the first header that is not old, the first one being read already. -/
def oldStamps (off count : ℕ) (first : UInt32) : Option (List UInt32) :=
  if isOld first then
    (Items.readWhile (fun i => stampAt msg (off + 81 * i)) isOld (count - 1) 1).map (first :: ·)
  else some [first]

theorem oldStamps_yields (off count : ℕ) (first : UInt32) :
    Yields (oldStamps msg off count first)
      (∀ i ∈ oldReached msg off count first, StampFits msg (off + 81 * i))
      (first :: (oldReached msg off count first).map fun i => stamp msg (off + 81 * i)) := by
  rw [oldStamps, oldReached]
  by_cases hold : isOld first
  · rw [if_pos hold, if_pos hold]
    exact (readStamps_yields msg (fun i => off + 81 * i) isOld (count - 1) 1).map (first :: ·)
  · rw [if_neg hold, if_neg hold]
    exact (Yields.pure [first]).congr ⟨fun _ i hi => absurd hi List.not_mem_nil, fun _ => trivial⟩

/-- The numbers of the longer headers whose timestamps are read. -/
def newReached (off count : ℕ) (timestamp : UInt32) : List ℕ :=
  if isNew timestamp then Items.reached (fun i => stamp msg (off + 121 * i)) isNew count 0 else []

/-- The timestamps from the first of the longer headers on. -/
def newStamps (off count : ℕ) (timestamp : UInt32) : Option (List UInt32) :=
  if isNew timestamp then
    (Items.readWhile (fun i => stampAt msg (off + 121 * i)) isNew count 0).map (timestamp :: ·)
  else some [timestamp]

theorem newStamps_yields (off count : ℕ) (timestamp : UInt32) :
    Yields (newStamps msg off count timestamp)
      (∀ i ∈ newReached msg off count timestamp, StampFits msg (off + 121 * i))
      (timestamp :: (newReached msg off count timestamp).map fun i =>
        stamp msg (off + 121 * i)) := by
  rw [newStamps, newReached]
  by_cases hnew : isNew timestamp
  · rw [if_pos hnew, if_pos hnew]
    exact (readStamps_yields msg (fun i => off + 121 * i) isNew count 0).map (timestamp :: ·)
  · rw [if_neg hnew, if_neg hnew]
    exact (Yields.pure [timestamp]).congr
      ⟨fun _ i hi => absurd hi List.not_mem_nil, fun _ => trivial⟩

/-- There are no longer headers. -/
def allOld (count : ℕ) (timestamp timestampLast : UInt32) : HeaderSpan :=
  { startNewHeader := throughInt (count + 1), startNewHeaderSize := 0, timestamp, timestampLast }

/-- The longer headers begin at `next`; `timestamp` is that of the last one. -/
def newFrom (off next : ℕ) (timestamp : UInt32) : HeaderSpan :=
  { startNewHeader := next, startNewHeaderSize := off + 81 * next
    timestamp, timestampLast := timestamp }

/-- The number of the header at which the first loop ends, given the timestamps it has read. -/
def nextHeader (count : ℕ) (stamps : List UInt32) : ℕ :=
  if isOld (stamps.getLastD 0) then count else stamps.length - 1

/-- What is known of the headers once the timestamps up to the first one that is not old are. -/
def spanOf (off count : ℕ) (stamps : List UInt32) : Option HeaderSpan :=
  let last := stamps.getLastD 0
  let next := nextHeader count stamps
  if next = count then some (allOld count last last)
  else
    (newStamps msg (off + 81 * next) (count - next - 1) last).map fun stamps =>
      newFrom off next (stamps.getLastD 0)

/-- Where the longer headers begin; the timestamps are those of the last and the first header. -/
def headerSpan (off count : ℕ) (timestamp first : UInt32) : Option HeaderSpan :=
  if wrap64 (off + 81 * (count + 1)) < msg.length then
    (oldStamps msg off count first).bind (spanOf msg off count)
  else some (allOld count timestamp first)

/-- The timestamps of the longer headers that are read lie in the payload. -/
def SpanFits (off count : ℕ) (stamps : List UInt32) : Prop :=
  let next := nextHeader count stamps
  next ≠ count →
    ∀ i ∈ newReached msg (off + 81 * next) (count - next - 1) (stamps.getLastD 0),
      StampFits msg (off + 81 * next + 121 * i)

/-- What is known of the headers if the timestamps fit. -/
def spanAt (off count : ℕ) (stamps : List UInt32) : HeaderSpan :=
  let last := stamps.getLastD 0
  let next := nextHeader count stamps
  if next = count then allOld count last last
  else
    newFrom off next ((last :: (newReached msg (off + 81 * next) (count - next - 1) last).map
      fun i => stamp msg (off + 81 * next + 121 * i)).getLastD 0)

theorem spanOf_yields (off count : ℕ) (stamps : List UInt32) :
    Yields (spanOf msg off count stamps) (SpanFits msg off count stamps)
      (spanAt msg off count stamps) :=
  ((Yields.pure _).ite ((newStamps_yields msg _ _ _).map _)).congr (and_iff_right fun _ => trivial)

/-- The timestamps of the old headers, the first one being read already. -/
def stampsAt (off count : ℕ) (first : UInt32) : List UInt32 :=
  first :: (oldReached msg off count first).map fun i => stamp msg (off + 81 * i)

/-- The timestamps that say where the longer headers begin and end lie in the payload. -/
def LayoutFits (off count : ℕ) (first : UInt32) : Prop :=
  wrap64 (off + 81 * (count + 1)) < msg.length →
    (∀ i ∈ oldReached msg off count first, StampFits msg (off + 81 * i)) ∧
      SpanFits msg off count (stampsAt msg off count first)

/-- Where the longer headers begin if the timestamps fit. -/
def layout (off count : ℕ) (timestamp first : UInt32) : HeaderSpan :=
  if wrap64 (off + 81 * (count + 1)) < msg.length then
    spanAt msg off count (stampsAt msg off count first)
  else allOld count timestamp first

theorem headerSpan_yields (off count : ℕ) (timestamp first : UInt32) :
    Yields (headerSpan msg off count timestamp first) (LayoutFits msg off count first)
      (layout msg off count timestamp first) :=
  (((oldStamps_yields msg off count first).bind (spanOf_yields msg off count _)).ite
    (Yields.pure _)).congr (and_iff_left fun _ => trivial)

/-! ## Locators -/

/-- The hashes of the last and the first header. -/
def locators (off count : ℕ) (first : UInt32) (s : HeaderSpan) : Option (UInt256 × UInt256) :=
  if isNew first ∧ isNew s.timestampLast then do
    let locator₀ ← lightHash E msg (wrap64 (msg.length + (2 ^ 64 - 121)))
    let locator₁ ← lightHash E msg off
    some (locator₀, locator₁)
  else if isNew s.timestampLast then do
    let locator₁ ← oldHash E msg first off
    let locator₀ ← lightHash E msg (wrap64 (msg.length + (2 ^ 64 - 121)))
    some (locator₀, locator₁)
  else do
    let locator₀ ← oldHash E msg s.timestamp (off + 81 * (count - 1))
    let locator₁ ← oldHash E msg s.timestamp off
    some (locator₀, locator₁)

/-- The last and the first header, taken to be long or short by their timestamps, lie in the
    payload. -/
def LocatorsFit (off count : ℕ) (first : UInt32) (s : HeaderSpan) : Prop :=
  if isNew s.timestampLast then
    121 ≤ msg.length ∧ off + (if isNew first then 120 else 80) ≤ msg.length
  else wrap64 (off + 81 * (count - 1)) + 80 ≤ msg.length ∧ off + 80 ≤ msg.length

/-- The number and the timestamp of the first header that is not from long before the wallet, or
    the number of all headers and zero. -/
def seek (off count : ℕ) (s : HeaderSpan) : Option (ℕ × UInt32) :=
  (Items.readWhile (fun i => stampAt msg (s.nextStart off i)) ctx.isStale (count - 1) 1).map
    fun stamps =>
      if stamps.getLast?.all ctx.isStale then (count, 0)
      else (stamps.length, stamps.getLastD 0)

/-- The hash of the header that was sought. -/
def soughtHash (off : ℕ) (s : HeaderSpan) (last : ℕ) (timestamp : UInt32) : Option UInt256 :=
  if isNew timestamp then lightHash E msg (s.newStart last)
  else oldHash E msg timestamp (off + 81 * (last - 1))

/-- What is asked for next. -/
def nextRequest (off count : ℕ) (first : UInt32) (s : HeaderSpan) : Option PeerEvent :=
  (locators E msg off count first s).bind fun (locator₀, locator₁) =>
    if s.timestamp > 0 ∧ ctx.isFresh s.timestamp then do
      let (last, timestamp) ← ctx.seek msg off count s
      let locator₀ ← soughtHash E msg off s last timestamp
      some (.sendGetblocks (locator₀, locator₁))
    else some (.sendGetheaders (locator₀, locator₁))

/-- The numbers of the headers whose timestamps are looked past. -/
def seekReached (off count : ℕ) (s : HeaderSpan) : List ℕ :=
  Items.reached (fun i => stamp msg (s.nextStart off i)) ctx.isStale (count - 1) 1

/-- The header that is sought if the timestamps fit. -/
def soughtAt (off count : ℕ) (s : HeaderSpan) : ℕ × UInt32 :=
  let stamps := (ctx.seekReached msg off count s).map fun i => stamp msg (s.nextStart off i)
  if stamps.getLast?.all ctx.isStale then (count, 0) else (stamps.length, stamps.getLastD 0)

/-- The sought header, taken to be long or short by its timestamp, lies in the payload. -/
def SoughtFits (off : ℕ) (s : HeaderSpan) (last : ℕ) (timestamp : UInt32) : Prop :=
  if isNew timestamp then s.newStart last + 120 ≤ msg.length
  else wrap64 (off + 81 * (last - 1)) + 80 ≤ msg.length

/-- The headers that are hashed for the request lie in the payload, and so do the timestamps that
    are looked past. -/
def RequestFits (off count : ℕ) (first : UInt32) (s : HeaderSpan) : Prop :=
  LocatorsFit msg off count first s ∧
    (s.timestamp > 0 ∧ ctx.isFresh s.timestamp →
      (∀ i ∈ ctx.seekReached msg off count s, StampFits msg (s.nextStart off i)) ∧
        SoughtFits msg off s (ctx.soughtAt msg off count s).1 (ctx.soughtAt msg off count s).2)

theorem locators_isSome {off count : ℕ} (hoff : off < 2 ^ 64) (first : UInt32) (s : HeaderSpan) :
    (locators E msg off count first s).isSome ↔ LocatorsFit msg off count first s := by
  have hlast : wrap64 (msg.length + (2 ^ 64 - 121)) + 120 ≤ msg.length ↔ 121 ≤ msg.length := by
    rw [wrap64]
    omega
  rw [locators, LocatorsFit]
  dsimp only [Option.bind_eq_bind]
  by_cases hnew : isNew s.timestampLast
  · rw [if_pos hnew, if_pos hnew]
    by_cases hfirst : isNew first
    · rw [if_pos ⟨hfirst, hnew⟩, if_pos hfirst, isSome_bind₂, lightHash_isSome, lightHash_isSome,
        hlast]
    · rw [if_neg fun h => hfirst h.1, if_neg hfirst, isSome_bind₂, lightHash_isSome,
        oldHash_isSome, hlast, wrap64_of_lt hoff, and_comm]
  · rw [if_neg fun h => hnew h.2, if_neg hnew, if_neg hnew, isSome_bind₂, oldHash_isSome,
      oldHash_isSome, wrap64_of_lt hoff]

theorem seek_yields (off count : ℕ) (s : HeaderSpan) :
    Yields (ctx.seek msg off count s)
      (∀ i ∈ ctx.seekReached msg off count s, StampFits msg (s.nextStart off i))
      (ctx.soughtAt msg off count s) := (readStamps_yields msg _ _ _ _).map _

theorem soughtHash_isSome (off : ℕ) (s : HeaderSpan) (last : ℕ) (timestamp : UInt32) :
    (soughtHash E msg off s last timestamp).isSome ↔ SoughtFits msg off s last timestamp := by
  rw [soughtHash, SoughtFits]
  by_cases hnew : isNew timestamp
  · rw [if_pos hnew, if_pos hnew, lightHash_isSome]
  · rw [if_neg hnew, if_neg hnew, oldHash_isSome]

theorem nextRequest_isSome {off count : ℕ} (hoff : off < 2 ^ 64) (first : UInt32)
    (s : HeaderSpan) :
    (ctx.nextRequest E msg off count first s).isSome ↔ ctx.RequestFits msg off count first s := by
  rw [nextRequest, RequestFits, ← locators_isSome E msg hoff]
  cases locators E msg off count first s with
  | none => exact ⟨fun h => absurd h Bool.false_ne_true, fun h => h.1⟩
  | some l =>
    dsimp only [Option.bind_eq_bind, Option.bind_some]
    rw [Option.isSome_some, and_iff_right rfl, isSome_ite_left rfl]
    refine forall_congr' fun hfresh => ?_
    rw [(ctx.seek_yields msg off count s).isSome_bind, ← soughtHash_isSome E]
    refine and_congr_right fun _ => ?_
    cases soughtHash E msg off s _ _ with
    | none | some _ => rfl

/-! ## The headers -/

section
variable (K : BlockHashes) (buf : Bytes) (bufLen : ℕ)

/-- `BRVarInt` at `off` in a buffer that is said to have `bufLen` bytes. -/
def varIntIn (off : ℕ) : Option (ℕ × ℕ) :=
  if off < bufLen then
    let (n, len) := varInt ((buf.drop off).take (bufLen - off))
    if off + (if off + len ≤ bufLen then len else 1) ≤ buf.length then some (n, len) else none
  else some (0, 1)

/-- `malloc` and `memcpy` in a buffer that is said to have `bufLen` bytes. -/
def getArrayIn (off len : ℕ) : Option Bytes :=
  if wrap64 (off + len) ≤ bufLen ∧ len ≤ PTRDIFF_MAX then peek buf off len else some []

/-- The partial merkle branch in a buffer that is said to have `bufLen` bytes. -/
def parseBranchIn (off : ℕ) (block : BRMerkleBlock UInt256) : Option (BRMerkleBlock UInt256) :=
  if off + 4 ≤ bufLen then do
    let totalTx ← getLE buf off 4
    let off := off + 4
    let (hashesCount, len) ← varIntIn buf bufLen off
    let off := off + len
    let len := wrap64 (hashesCount * 32)
    let hashes ← getArrayIn buf bufLen off len
    let off := wrap64 (off + len)
    let (flagsLen, len) ← varIntIn buf bufLen off
    let off := wrap64 (off + len)
    let flags ← getArrayIn buf bufLen off flagsLen
    some { block with totalTx := UInt32.ofNat totalTx
                      hashes := getHashes (hashes.length / 32) hashes
                      hashesCount
                      flags
                      flagsLen }
  else some block

/-- `BRMerkleBlockParse` of a buffer that is said to have at least 80 bytes. -/
def parseIn : Option (BRMerkleBlock UInt256) := do
  let (block, off) ← BRMerkleBlock.parseHeader buf
  let block ← parseBranchIn buf bufLen off block
  some { block with blockHash := BRMerkleBlock.hashOf K buf block }

/-- The partial tree behind a header is parsed and walked inside of its arrays. -/
def TreeFits : Prop :=
  BRMerkleBlock.headerLen buf + 4 ≤ bufLen →
    ∃ block, parseIn K buf bufLen = some block ∧ (block.root (merkleHash K)).isSome

variable {K buf bufLen}

theorem parseHeader_eq_some {block : BRMerkleBlock UInt256} {off : ℕ}
    (h : BRMerkleBlock.parseHeader buf = some (block, off)) :
    BRMerkleBlock.headerLen buf ≤ buf.length ∧ off = BRMerkleBlock.headerLen buf ∧
      block.target = UInt32.ofNat (BRTransaction.fieldAt buf 72 4) ∧ block.hashesCount = 0 := by
  simp only [BRMerkleBlock.parseHeader, Option.bind_eq_bind, Option.bind_eq_some_iff,
    (getLE_yields buf _ _).eq_some_iff] at h
  obtain ⟨version, -, prevBlock, -, merkleRoot, -, timestamp, ⟨htime, rfl⟩, target, ⟨-, rfl⟩, h⟩ := h
  rw [BRMerkleBlock.headerLen]
  rw [BRTransaction.fieldAt, if_pos htime] at h
  split_ifs at h ⊢ with hold
  · obtain ⟨nonce, hnonce, h⟩ := Option.bind_eq_some_iff.1 h
    obtain ⟨rfl, rfl⟩ := Prod.mk.inj (Option.some.inj h)
    exact ⟨((getLE_yields buf 76 4).eq_some_iff.1 hnonce).1, rfl, rfl, rfl⟩
  · obtain ⟨height, -, h⟩ := Option.bind_eq_some_iff.1 h
    obtain ⟨nonce64, -, h⟩ := Option.bind_eq_some_iff.1 h
    obtain ⟨mixHash, hmix, h⟩ := Option.bind_eq_some_iff.1 h
    obtain ⟨rfl, rfl⟩ := Prod.mk.inj (Option.some.inj h)
    exact ⟨((getLE_yields buf 88 32).eq_some_iff.1 hmix).1, rfl, rfl, rfl⟩

theorem targetBytes_isSome (size target : UInt32) :
    (BRMerkleBlock.targetBytes size target).isSome ↔ size ≤ 31 := by
  have hpoke : ∀ off n, (poke (List.replicate 32 (0 : UInt8)) off (toLE 4 n)).isSome ↔
      off + 4 ≤ 32 := by
    intro off n
    rw [poke, length_toLE, List.length_replicate]
    split_ifs with h
    · exact ⟨fun _ => h, fun _ => rfl⟩
    · exact ⟨fun hno => absurd hno Bool.false_ne_true, fun hyes => absurd hyes h⟩
  rw [BRMerkleBlock.targetBytes, UInt32.le_iff_toNat_le]
  by_cases h3 : size > 3
  · rw [if_pos h3, hpoke]
    have hsize : 3 < size.toNat := UInt32.lt_iff_toNat_lt.1 h3
    change size.toNat - 3 + 4 ≤ 32 ↔ size.toNat ≤ 31
    omega
  · rw [if_neg h3, hpoke]
    have hsize : size.toNat ≤ 3 := UInt32.le_iff_toNat_le.1 (UInt32.not_lt.1 h3)
    change 0 + 4 ≤ 32 ↔ size.toNat ≤ 31
    omega

theorem isValid_isSome (block : BRMerkleBlock UInt256) (currentTime : UInt32) :
    (block.isValid (merkleHash K) currentTime).isSome ↔
      (block.root (merkleHash K)).isSome ∧ block.target >>> 24 ≤ 31 := by
  rw [BRMerkleBlock.isValid, ← targetBytes_isSome _ (block.target &&& 0x00ffffff)]
  exact isSome_bind₂

theorem parseBranchIn_target {off : ℕ} {block block' : BRMerkleBlock UInt256}
    (h : parseBranchIn buf bufLen off block = some block') : block'.target = block.target := by
  rw [parseBranchIn] at h
  split_ifs at h
  · simp only [Option.bind_eq_bind, Option.bind_eq_some_iff] at h
    obtain ⟨totalTx, -, count, -, hashes, -, flagsLen, -, flags, -, h⟩ := h
    rw [← Option.some.inj h]
  · rw [← Option.some.inj h]

theorem parseIn_eq_some {block : BRMerkleBlock UInt256} (h : parseIn K buf bufLen = some block) :
    BRMerkleBlock.headerLen buf ≤ buf.length ∧
      block.target = UInt32.ofNat (BRTransaction.fieldAt buf 72 4) := by
  simp only [parseIn, Option.bind_eq_bind, Option.bind_eq_some_iff] at h
  obtain ⟨⟨header, off⟩, hheader, branch, hbranch, h⟩ := h
  obtain ⟨hle, -, htarget, -⟩ := parseHeader_eq_some hheader
  rw [← Option.some.inj h]
  exact ⟨hle, (parseBranchIn_target hbranch).trans htarget⟩

/-- A header without a tree behind it. -/
theorem parseIn_header (hle : BRMerkleBlock.headerLen buf ≤ buf.length)
    (hno : ¬ BRMerkleBlock.headerLen buf + 4 ≤ bufLen) :
    ∃ block, parseIn K buf bufLen = some block ∧ (block.root (merkleHash K)).isSome := by
  have h80 : 80 ≤ BRMerkleBlock.headerLen buf := by
    rw [BRMerkleBlock.headerLen]
    split_ifs <;> decide
  obtain ⟨block, hheader, -⟩ := (BRMerkleBlock.parseHeader_of_le (h80.trans hle)).1 hle
  obtain ⟨-, -, -, hcount⟩ := parseHeader_eq_some hheader
  have hbranch : parseBranchIn buf bufLen (BRMerkleBlock.headerLen buf) block = some block :=
    if_neg hno
  refine ⟨{ block with blockHash := BRMerkleBlock.hashOf K buf block }, ?_, ?_⟩
  · rw [parseIn, hheader]
    dsimp only [Option.bind_eq_bind, Option.bind_some]
    rw [hbranch]
    rfl
  rw [BRMerkleBlock.root, BRMerkleBlock.maxDepth, BRMerkleBlock.rootR_not_more]
  · rfl
  · rintro ⟨-, hmore⟩
    exact Nat.not_lt_zero 0 (hcount ▸ hmore)

theorem parseIn_isValid_isSome (currentTime : UInt32) :
    ((parseIn K buf bufLen).bind fun block =>
      (block.isValid (merkleHash K) currentTime).bind fun ok => some (block, ok)).isSome ↔
    BRMerkleBlock.headerLen buf ≤ buf.length ∧ TreeFits K buf bufLen ∧
      UInt32.ofNat (BRTransaction.fieldAt buf 72 4) >>> 24 ≤ 31 := by
  by_cases hle : BRMerkleBlock.headerLen buf ≤ buf.length
  swap
  · have hnone : parseIn K buf bufLen = none := by
      rw [Option.eq_none_iff_forall_not_mem]
      exact fun block hblock => hle (parseIn_eq_some hblock).1
    rw [hnone]
    exact ⟨fun h => absurd h Bool.false_ne_true, fun h => absurd h.1 hle⟩
  have htree : TreeFits K buf bufLen ↔
      ∃ block, parseIn K buf bufLen = some block ∧ (block.root (merkleHash K)).isSome := by
    by_cases hmore : BRMerkleBlock.headerLen buf + 4 ≤ bufLen
    · exact imp_iff_right hmore
    · exact ⟨fun _ => parseIn_header hle hmore, fun _ h => absurd h hmore⟩
  rw [and_iff_right hle, htree]
  cases hparse : parseIn K buf bufLen with
  | none =>
    exact ⟨fun h => absurd h Bool.false_ne_true, fun ⟨⟨_, h, _⟩, _⟩ => (Option.some_ne_none _ h.symm).elim⟩
  | some block =>
    have hroot : (∃ b, some block = some b ∧ (b.root (merkleHash K)).isSome) ↔
        (block.root (merkleHash K)).isSome := by
      constructor
      · rintro ⟨_, ⟨⟩, h⟩
        exact h
      · exact fun h => ⟨block, rfl, h⟩
    rw [hroot, ← (parseIn_eq_some hparse).2, ← isValid_isSome block currentTime, Option.bind_some]
    cases block.isValid (merkleHash K) currentTime with
    | none | some _ => rfl

end

/-- The header in the `size` bytes at `off`, and whether it is valid. -/
def headerAt (off size : ℕ) : Option (BRMerkleBlock UInt256 × Bool) := do
  let _ ← stampAt msg off
  let block ← parseIn E.K (msg.drop off) size
  let ok ← block.isValid (merkleHash E.K) (UInt32.ofNat E.now.toNat)
  some (block, ok)

/-- The header at `off` and its timestamp lie in the payload, its target in 32 bytes, and what is
    behind it in the `size` bytes is a tree in its bounds. -/
def EntryFits (off size : ℕ) : Prop :=
  StampFits msg off ∧ BRMerkleBlock.headerLen (msg.drop off) ≤ (msg.drop off).length ∧
    TreeFits E.K (msg.drop off) size ∧
    UInt32.ofNat (BRTransaction.fieldAt (msg.drop off) 72 4) >>> 24 ≤ 31

theorem headerAt_isSome (off size : ℕ) :
    (headerAt E msg off size).isSome ↔ EntryFits E msg off size := by
  rw [headerAt, EntryFits]
  dsimp only [Option.bind_eq_bind]
  rw [(stampAt_yields msg off).isSome_bind, parseIn_isValid_isSome]

/-- The headers up to the first one that is not valid. -/
def relayHeaders (off count : ℕ) (s : HeaderSpan) :
    Option (List (BRMerkleBlock UInt256 × Bool)) :=
  Items.readWhile (fun i => headerAt E msg (s.start off i) (s.size i)) Prod.snd count 0

/-- The numbers of the headers up to the first one that is not valid. -/
def relayed (off count : ℕ) (s : HeaderSpan) : List ℕ :=
  Items.reached (fun i => headerAt E msg (s.start off i) (s.size i)) (fun a => a.any Prod.snd)
    count 0

theorem relayHeaders_isSome (off count : ℕ) (s : HeaderSpan) :
    (relayHeaders E msg off count s).isSome ↔
      ∀ i ∈ relayed E msg off count s, EntryFits E msg (s.start off i) (s.size i) := by
  rw [relayHeaders, Items.isSome_readWhile]
  exact forall₂_congr fun i _ => headerAt_isSome E msg _ _

/-- `_PeerAcceptHeadersMessage`. -/
def acceptHeadersMessage : Option Reply :=
  let (count, off) := varInt msg
  if wrap64 (off + 81 * count) > msg.length then ctx.refuse
  else do
    let timestamp ← countedStamp msg count (off + 81 * (count - 1))
    let first ← countedStamp msg count off
    let s ← headerSpan msg off count timestamp first
    if count ≥ 2000 ∨ (s.timestamp > 0 ∧ ctx.isFresh s.timestamp) then do
      let request ← ctx.nextRequest E msg off count first s
      let headers ← relayHeaders E msg off count s
      some { ok := headers.all Prod.snd
             ctx
             events := request ::
               ((headers.filter Prod.snd).map fun header => .relayedBlock header.1) }
    else ctx.refuse

/-- The timestamps of the first and the last header lie in the payload, and so does what follows
    from them: the timestamps of the others that are read, the headers that are hashed for the
    request, and the headers up to the first one that is not valid. -/
def HeadersFit : Prop :=
  let (count, off) := varInt msg
  wrap64 (off + 81 * count) ≤ msg.length →
    (count > 0 → StampFits msg (off + 81 * (count - 1))) ∧ (count > 0 → StampFits msg off) ∧
    let timestamp := if count > 0 then stamp msg (off + 81 * (count - 1)) else 0
    let first := if count > 0 then stamp msg off else 0
    let s := layout msg off count timestamp first
    LayoutFits msg off count first ∧
      (count ≥ 2000 ∨ (s.timestamp > 0 ∧ ctx.isFresh s.timestamp) →
        ctx.RequestFits msg off count first s ∧
          ∀ i ∈ relayed E msg off count s, EntryFits E msg (s.start off i) (s.size i))

theorem acceptHeadersMessage_isSome :
    (ctx.acceptHeadersMessage E msg).isSome ↔ ctx.HeadersFit E msg := by
  have hoff : (varInt msg).2 < 2 ^ 64 := (varInt_snd_le msg).trans_lt (by decide)
  rw [acceptHeadersMessage, HeadersFit]
  dsimp only [Option.bind_eq_bind]
  rw [isSome_ite_right (refuse_isSome ctx), Nat.not_lt]
  refine forall_congr' fun hcheck => ?_
  rw [(countedStamp_yields msg _ _).isSome_bind, (countedStamp_yields msg _ _).isSome_bind,
    (headerSpan_yields msg _ _ _ _).isSome_bind, isSome_ite_left (refuse_isSome ctx), isSome_bind₂,
    nextRequest_isSome E ctx msg hoff, relayHeaders_isSome]

end BRPeerContext

end RavenWallet
