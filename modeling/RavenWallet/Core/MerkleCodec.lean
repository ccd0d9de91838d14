/-
  Parsing and serializing merkle blocks (BRMerkleBlock.c).

  Offsets and sizes are computed modulo 2^64.  A read beyond the end of a buffer
  has no result, and neither has a write.

  * `parse_serialize`: a serialized block is parsed back, with what the format
    of its header has no place for reset;
  * `parseSafe_iff`: the buffers that are parsed without leaving them, to a
    block whose arrays have the lengths it says.
-/
import RavenWallet.Core.MerkleBlock
import RavenWallet.Core.Script

namespace RavenWallet

/-- The functions that the hash of a block is computed with. -/
structure BlockHashes where
  sha256_2 : Bytes → Bytes
  lightVerify : Bytes → Bytes → UInt64 → Bytes
  x16r : Bytes → Bytes
  x16rv2 : Bytes → Bytes

/-- The hashes in an array of bytes. -/
def getHashes : ℕ → Bytes → List UInt256
  | 0, _ => []
  | n + 1, bs => get256 (bs.take 32) :: getHashes n (bs.drop 32)

def hashBytes (hashes : List UInt256) : Bytes := hashes.flatMap set256

/-- `malloc` and `memcpy` of the `len` bytes at `off`, or a `NULL` array if they do not fit. -/
def getArray (buf : Bytes) (off len : ℕ) : Option Bytes :=
  if wrap64 (off + len) ≤ buf.length ∧ len ≤ PTRDIFF_MAX then peek buf off len else some []

/-- `memcpy` of `len` bytes of an array, if it is not `NULL`, and the offset behind them. -/
def setArray (buf : Bytes) (off : ℕ) (array : Bytes) (len : ℕ) : Option (Bytes × ℕ) :=
  if array = [] then some (buf, wrap64 (off + len))
  else do
    let xs ← peek array 0 len
    let buf ← poke buf off xs
    some (buf, wrap64 (off + len))

namespace BRMerkleBlock

/-! ## Parsing -/

/-- The header, and its length. -/
def parseHeader (buf : Bytes) : Option (BRMerkleBlock UInt256 × ℕ) := do
  let version ← getLE buf 0 4
  let prevBlock ← getLE buf 4 32
  let merkleRoot ← getLE buf 36 32
  let timestamp ← getLE buf 68 4
  let target ← getLE buf 72 4
  let block : BRMerkleBlock UInt256 :=
    { blockHash := 0
      version := UInt32.ofNat version
      prevBlock := BitVec.ofNat 256 prevBlock
      merkleRoot := BitVec.ofNat 256 merkleRoot
      timestamp := UInt32.ofNat timestamp
      target := UInt32.ofNat target
      mixHash := 0 }
  if block.timestamp < KAWPOW_ActivationTime then do
    let nonce ← getLE buf 76 4
    some ({ block with nonce := UInt32.ofNat nonce }, 80)
  else do
    let height ← getLE buf 76 4
    let nonce64 ← getLE buf 80 8
    let mixHash ← getLE buf 88 32
    some ({ block with height := UInt32.ofNat height
                       nonce64 := UInt64.ofNat nonce64
                       mixHash := BitVec.ofNat 256 mixHash }, 120)

/-- The partial merkle branch from `off` on. -/
def parseBranch (buf : Bytes) (off : ℕ) (block : BRMerkleBlock UInt256) :
    Option (BRMerkleBlock UInt256) :=
  if off + 4 ≤ buf.length then do
    let totalTx ← getLE buf off 4
    let off := off + 4
    let (hashesCount, len) := varInt (buf.drop off)
    let off := off + len
    let len := wrap64 (hashesCount * 32)
    let hashes ← getArray buf off len
    let off := wrap64 (off + len)
    let (flagsLen, len) := varInt (buf.drop off)
    let off := wrap64 (off + len)
    let flags ← getArray buf off flagsLen
    some { block with totalTx := UInt32.ofNat totalTx
                      hashes := getHashes (hashes.length / 32) hashes
                      hashesCount
                      flags
                      flagsLen }
  else some block

/-- The hash of a block with the given header. -/
def hashOf (K : BlockHashes) (buf : Bytes) (block : BRMerkleBlock UInt256) : UInt256 :=
  if block.timestamp ≥ KAWPOW_ActivationTime then
    get256 (K.lightVerify (K.sha256_2 (buf.take 80)).reverse (set256 block.mixHash).reverse
      block.nonce64).reverse
  else if block.timestamp ≥ X16RV2ActivationTime then get256 (K.x16rv2 (buf.take 80))
  else get256 (K.x16r (buf.take 80))

/-- `BRMerkleBlockParse`: no result if it reads beyond the end of the buffer. -/
def parse (K : BlockHashes) (buf : Bytes) : Option (Option (BRMerkleBlock UInt256)) :=
  if 80 ≤ buf.length then do
    let (block, off) ← parseHeader buf
    let block ← parseBranch buf off block
    some (some { block with blockHash := block.hashOf K buf })
  else some none

/-! ## Serializing -/

variable (block : BRMerkleBlock UInt256)

/-- The number of bytes that `BRMerkleBlockSerialize` needs. -/
def serializeLen : ℕ :=
  let len := if block.timestamp ≥ KAWPOW_ActivationTime then 120 else 80
  if block.totalTx > 0 then
    wrap64 (len + (4 + varIntSize block.hashesCount + block.hashesCount * 32 +
      varIntSize block.flagsLen + block.flagsLen))
  else len

/-- The fields of the header. -/
def header : List Bytes :=
  [toLE 4 block.version.toNat, set256 block.prevBlock, set256 block.merkleRoot,
    toLE 4 block.timestamp.toNat, toLE 4 block.target.toNat] ++
  if block.timestamp < KAWPOW_ActivationTime then [toLE 4 block.nonce.toNat]
  else [toLE 4 block.height.toNat, toLE 8 block.nonce64.toNat, set256 block.mixHash]

/-- `BRMerkleBlockSerialize` into `buf`: what is in it then, the number of bytes written and the
    number returned. -/
def serialize (buf : Bytes) : Option (Bytes × ℕ × ℕ) :=
  let bufLen := buf.length
  if block.serializeLen ≤ bufLen then do
    let (buf, off) ← pokeAll buf 0 block.header
    if block.totalTx > 0 then do
      let (buf, off) ← pokeAll buf off [toLE 4 block.totalTx.toNat]
      let (buf, off) ← pokeAll buf off [varIntSet (bufLen - off) block.hashesCount]
      let (buf, off) ← setArray buf off (hashBytes block.hashes) (wrap64 (block.hashesCount * 32))
      let (buf, off) ← pokeAll buf off [varIntSet (bufLen - off) block.flagsLen]
      let (buf, off) ← setArray buf off block.flags block.flagsLen
      some (buf, off, block.serializeLen)
    else some (buf, off, block.serializeLen)
  else some (buf, 0, 0)

/-- The block without what the format of its header has no place for, and without its hash. -/
def sent : BRMerkleBlock UInt256 :=
  if block.timestamp < KAWPOW_ActivationTime then
    { block with blockHash := 0, height := BLOCK_UNKNOWN_HEIGHT, nonce64 := 0, mixHash := 0 }
  else { block with blockHash := 0, nonce := 0 }

/-- What is written. -/
def bytes : Bytes :=
  block.header.flatten ++
  if block.totalTx > 0 then
    toLE 4 block.totalTx.toNat ++ (varIntBytes block.hashesCount ++ (hashBytes block.hashes ++
      (varIntBytes block.flagsLen ++ block.flags)))
  else []

end BRMerkleBlock

/-! ## Serialized blocks -/

@[simp] theorem length_hashBytes (hashes : List UInt256) :
    (hashBytes hashes).length = hashes.length * 32 := by
  induction hashes with
  | nil => rfl
  | cons h hashes ih =>
    rw [hashBytes, List.flatMap_cons, List.length_append, length_set256, ← hashBytes, ih,
      List.length_cons]
    omega

theorem getHashes_hashBytes (hashes : List UInt256) :
    getHashes hashes.length (hashBytes hashes) = hashes := by
  induction hashes with
  | nil => rfl
  | cons h hashes ih =>
    rw [hashBytes, List.flatMap_cons, ← hashBytes, List.length_cons, getHashes,
      List.take_left' (length_set256 h), List.drop_left' (length_set256 h), get256_set256, ih]

theorem getHashes_length (n : ℕ) (bs : Bytes) : (getHashes n bs).length = n := by
  induction n generalizing bs with
  | zero => rfl
  | succ n ih => rw [getHashes, List.length_cons, ih]

theorem setArray_written {buf w array : Bytes} {len : ℕ} (hlen : array.length = len)
    (h : w.length + len ≤ buf.length) (hsize : w.length + len < 2 ^ 64) :
    setArray (w ++ buf.drop w.length) w.length array len =
      some (w ++ array ++ buf.drop (w ++ array).length, (w ++ array).length) := by
  rw [setArray, wrap64_of_lt hsize, List.length_append, hlen]
  by_cases hnil : array = []
  · obtain rfl : len = 0 := by rw [← hlen, hnil, List.length_nil]
    rw [if_pos hnil, hnil, List.append_nil, Nat.add_zero]
  · have hpeek : peek array 0 len = some array := by
      rw [peek, if_pos (by omega), List.drop_zero, List.take_of_length_le hlen.le]
    have hsplit : w ++ buf.drop w.length =
        w ++ ((buf.drop w.length).take len ++ (buf.drop w.length).drop len) := by
      rw [List.take_append_drop]
    have hpoke : poke (w ++ buf.drop w.length) w.length array =
        some (w ++ (array ++ (buf.drop w.length).drop len)) :=
      poke_parts hsplit rfl
        (by rw [List.length_take_of_le (by rw [List.length_drop]; omega), hlen])
    rw [if_neg hnil, hpeek, Option.bind_eq_bind, Option.bind_some, hpoke, List.append_assoc,
      List.drop_drop]
    rfl

theorem getArray_at {buf array rest : Bytes} {off len : ℕ} (h : At buf off (array ++ rest))
    (hlen : array.length = len) (hbuf : buf.length ≤ PTRDIFF_MAX) :
    getArray buf off len = some array := by
  have hle := h.length_eq
  rw [List.length_append] at hle
  have hwrap : wrap64 (off + len) ≤ buf.length := (wrap64_le _).trans (by omega)
  rw [getArray, if_pos ⟨hwrap, by omega⟩, h.peek hlen]

namespace BRMerkleBlock

variable {block : BRMerkleBlock UInt256}

theorem length_header : block.header.flatten.length =
    if block.timestamp ≥ KAWPOW_ActivationTime then 120 else 80 := by
  rw [header]
  by_cases ht : block.timestamp < KAWPOW_ActivationTime
  · rw [if_pos ht, if_neg (UInt32.not_le.2 ht)]
    simp
  · rw [if_neg ht, if_pos (UInt32.not_lt.1 ht)]
    simp

theorem serializeLen_eq (hw : block.Held) (hlen : block.bytes.length ≤ PTRDIFF_MAX) :
    block.serializeLen = block.bytes.length := by
  have hmax : PTRDIFF_MAX < 2 ^ 64 := by decide
  rw [bytes, List.length_append, length_header] at hlen ⊢
  rw [serializeLen]
  by_cases h0 : block.totalTx > 0
  · rw [if_pos h0] at hlen ⊢
    rw [if_pos h0]
    simp only [List.length_append, length_toLE, length_varIntBytes, length_hashBytes, hw.hashes,
      hw.flags] at hlen ⊢
    rw [wrap64_of_lt (by omega)]
    omega
  · rw [if_neg h0, if_neg h0]
    rfl

/-- A block is serialized into any buffer with enough room. -/
theorem serialize_eq (hw : block.Held) (hlen : block.bytes.length ≤ PTRDIFF_MAX) {buf : Bytes}
    (hbuf : block.bytes.length ≤ buf.length) :
    block.serialize buf = some (block.bytes ++ buf.drop block.bytes.length, block.bytes.length,
      block.bytes.length) := by
  have hheader : pokeAll buf 0 block.header = some (block.header.flatten ++
      buf.drop block.header.flatten.length, block.header.flatten.length) := by
    refine pokeAll_written (w := []) ?_
    rw [List.length_nil, Nat.zero_add]
    exact (by rw [bytes, List.length_append]; omega : _ ≤ block.bytes.length).trans hbuf
  rw [serialize, serializeLen_eq hw hlen]
  dsimp only
  rw [if_pos hbuf, hheader]
  simp only [Option.bind_eq_bind, Option.bind_some]
  by_cases h0 : block.totalTx > 0
  · have hbytes : block.bytes = block.header.flatten ++ (toLE 4 block.totalTx.toNat ++
        (varIntBytes block.hashesCount ++ (hashBytes block.hashes ++
          (varIntBytes block.flagsLen ++ block.flags)))) := by
      rw [bytes, if_pos h0]
    have hsum := congrArg List.length hbytes
    have hmax : PTRDIFF_MAX < 2 ^ 64 := by decide
    simp only [List.length_append, length_toLE, length_varIntBytes, length_hashBytes, hw.hashes,
      hw.flags] at hsum
    have hprod : wrap64 (block.hashesCount * 32) = block.hashesCount * 32 :=
      wrap64_of_lt (by omega)
    rw [if_pos h0, pokeAll_written (by simp [-List.length_flatten]; omega)]
    simp only [Option.bind_some, List.flatten_singleton]
    rw [varIntSet_eq (by simp [-List.length_flatten]; omega), pokeAll_written (by simp [-List.length_flatten]; omega)]
    simp only [Option.bind_some, List.flatten_singleton]
    rw [hprod, setArray_written (by simp [hw.hashes]) (by simp [-List.length_flatten]; omega) (by simp [-List.length_flatten]; omega)]
    simp only [Option.bind_some]
    rw [varIntSet_eq (by simp [-List.length_flatten, hw.hashes]; omega), pokeAll_written (by simp [-List.length_flatten, hw.hashes]; omega)]
    simp only [Option.bind_some, List.flatten_singleton]
    rw [setArray_written hw.flags (by simp [-List.length_flatten, hw.hashes]; omega) (by simp [-List.length_flatten, hw.hashes]; omega)]
    simp only [Option.bind_some, hbytes, List.append_assoc]
  · have hbytes : block.bytes = block.header.flatten := by
      rw [bytes, if_neg h0, List.append_nil]
    rw [if_neg h0, hbytes]

/-- The header is parsed back. -/
theorem parseHeader_eq {buf rest : Bytes} (h : buf = block.header.flatten ++ rest) :
    parseHeader buf = some ({ block.sent with totalTx := 0, hashes := [], hashesCount := 0
                                              flags := [], flagsLen := 0 },
      block.header.flatten.length) := by
  have h32 : ∀ x : UInt32, x.toNat < 256 ^ 4 := fun x => lt_of_lt_of_le x.toNat_lt (by decide)
  have h256 : ∀ x : UInt256, x.toNat < 256 ^ 32 := fun x => lt_of_lt_of_le x.isLt (by decide)
  have h0 : At buf 0 (block.header.flatten ++ rest) := h ▸ At.zero _
  rw [length_header]
  by_cases ht : block.timestamp < KAWPOW_ActivationTime
  · rw [header, if_pos ht] at h0
    simp only [List.cons_append, List.nil_append, List.flatten_cons, List.flatten_nil,
      List.append_assoc, set256] at h0
    have h4 : At buf 4 _ := h0.toLE
    have h36 : At buf 36 _ := h4.toLE
    have h68 : At buf 68 _ := h36.toLE
    have h72 : At buf 72 _ := h68.toLE
    have h76 : At buf 76 _ := h72.toLE
    rw [parseHeader, h0.getLE (h32 _), h4.getLE (h256 _), h36.getLE (h256 _), h68.getLE (h32 _),
      h72.getLE (h32 _)]
    simp only [Option.bind_eq_bind, Option.bind_some, UInt32.ofNat_toNat]
    rw [if_pos ht, h76.getLE (h32 _), if_neg (UInt32.not_le.2 ht), sent, if_pos ht]
    simp
  · rw [header, if_neg ht] at h0
    simp only [List.cons_append, List.nil_append, List.flatten_cons, List.flatten_nil,
      List.append_assoc, set256] at h0
    have h4 : At buf 4 _ := h0.toLE
    have h36 : At buf 36 _ := h4.toLE
    have h68 : At buf 68 _ := h36.toLE
    have h72 : At buf 72 _ := h68.toLE
    have h76 : At buf 76 _ := h72.toLE
    have h80 : At buf 80 _ := h76.toLE
    have h88 : At buf 88 _ := h80.toLE
    rw [parseHeader, h0.getLE (h32 _), h4.getLE (h256 _), h36.getLE (h256 _), h68.getLE (h32 _),
      h72.getLE (h32 _)]
    simp only [Option.bind_eq_bind, Option.bind_some, UInt32.ofNat_toNat]
    rw [if_neg ht, h76.getLE (h32 _),
      h80.getLE (lt_of_lt_of_le block.nonce64.toNat_lt (by decide)), h88.getLE (h256 _),
      if_pos (UInt32.not_lt.1 ht), sent, if_neg ht]
    simp

/-- The branch is parsed back. -/
theorem parseBranch_eq (hw : block.Held) {buf : Bytes} (hbuf : buf.length ≤ PTRDIFF_MAX) {off : ℕ}
    (h : At buf off (toLE 4 block.totalTx.toNat ++ (varIntBytes block.hashesCount ++
      (hashBytes block.hashes ++ (varIntBytes block.flagsLen ++ block.flags)))))
    (block' : BRMerkleBlock UInt256) :
    parseBranch buf off block' =
      some { block' with totalTx := block.totalTx, hashes := block.hashes
                         hashesCount := block.hashesCount, flags := block.flags
                         flagsLen := block.flagsLen } := by
  have hmax : PTRDIFF_MAX < 2 ^ 64 := by decide
  have hlen := h.length_eq
  simp only [List.length_append, length_toLE, length_varIntBytes, length_hashBytes, hw.hashes,
    hw.flags] at hlen
  have h₁ := h.toLE
  have h₂ := h₁.next
  rw [length_varIntBytes] at h₂
  have h₃ := h₂.next
  rw [length_hashBytes, hw.hashes] at h₃
  have h₄ : At buf _ (block.flags ++ []) := (List.append_nil block.flags).symm ▸ h₃.next
  rw [length_varIntBytes] at h₄
  have hc : block.hashesCount < 2 ^ 64 := Nat.lt_of_le_of_lt hw.hashes_le (by decide)
  have hf : block.flagsLen < 2 ^ 64 := Nat.lt_of_le_of_lt hw.flags_le (by decide)
  rw [parseBranch, if_pos (by omega), h.getLE (lt_of_lt_of_le block.totalTx.toNat_lt (by decide))]
  simp only [Option.bind_eq_bind, Option.bind_some]
  rw [h₁.drop_eq, varInt_varIntBytes hc]
  dsimp only
  rw [wrap64_of_lt (n := block.hashesCount * 32) (by omega),
    getArray_at h₂ (by rw [length_hashBytes, hw.hashes]) hbuf, Option.bind_some,
    wrap64_of_lt (n := off + 4 + varIntSize block.hashesCount + block.hashesCount * 32) (by omega),
    h₃.drop_eq, varInt_varIntBytes hf]
  dsimp only
  rw [wrap64_of_lt (by omega), getArray_at h₄ hw.flags hbuf, Option.bind_some, length_hashBytes,
    Nat.mul_div_cancel _ (by decide : 0 < 32), getHashes_hashBytes, UInt32.ofNat_toNat]

/-- The fields that a block and its copy share: in each format those that it has a place for. -/
structure Same (block copy : BRMerkleBlock UInt256) : Prop where
  version : copy.version = block.version
  prevBlock : copy.prevBlock = block.prevBlock
  merkleRoot : copy.merkleRoot = block.merkleRoot
  timestamp : copy.timestamp = block.timestamp
  target : copy.target = block.target
  nonce : block.timestamp < KAWPOW_ActivationTime → copy.nonce = block.nonce
  height : block.timestamp ≥ KAWPOW_ActivationTime → copy.height = block.height
  nonce64 : block.timestamp ≥ KAWPOW_ActivationTime → copy.nonce64 = block.nonce64
  mixHash : block.timestamp ≥ KAWPOW_ActivationTime → copy.mixHash = block.mixHash
  totalTx : copy.totalTx = block.totalTx
  hashes : copy.hashes = block.hashes ∧ copy.hashesCount = block.hashesCount
  flags : copy.flags = block.flags ∧ copy.flagsLen = block.flagsLen

theorem same_sent (blockHash : UInt256) : Same block { block.sent with blockHash } := by
  by_cases ht : block.timestamp < KAWPOW_ActivationTime
  · have hle := UInt32.not_le.2 ht
    rw [sent, if_pos ht]
    exact ⟨rfl, rfl, rfl, rfl, rfl, fun _ => rfl, fun h => absurd h hle, fun h => absurd h hle,
      fun h => absurd h hle, rfl, ⟨rfl, rfl⟩, ⟨rfl, rfl⟩⟩
  · rw [sent, if_neg ht]
    exact ⟨rfl, rfl, rfl, rfl, rfl, fun h => absurd h ht, fun _ => rfl, fun _ => rfl,
      fun _ => rfl, rfl, ⟨rfl, rfl⟩, ⟨rfl, rfl⟩⟩

/-- The serialization is parsed back. -/
theorem parse_bytes (hw : block.Held) (hlen : block.bytes.length ≤ PTRDIFF_MAX)
    (h0 : block.totalTx = 0 → block.hashes = [] ∧ block.flags = []) (K : BlockHashes) :
    ∃ blockHash, parse K block.bytes = some (some { block.sent with blockHash }) := by
  have hhead : block.header.flatten.length =
      if block.timestamp ≥ KAWPOW_ActivationTime then 120 else 80 := length_header
  have hge : 80 ≤ block.header.flatten.length := by
    rw [hhead]
    split_ifs <;> decide
  have hbytes : block.header.flatten.length ≤ block.bytes.length := by
    rw [bytes, List.length_append]
    omega
  have hbranch : parseBranch block.bytes block.header.flatten.length { block.sent with
      totalTx := 0, hashes := [], hashesCount := 0, flags := [], flagsLen := 0 } =
        some block.sent := by
    by_cases ht : block.totalTx > 0
    · have hat : At block.bytes block.header.flatten.length (toLE 4 block.totalTx.toNat ++
          (varIntBytes block.hashesCount ++ (hashBytes block.hashes ++
            (varIntBytes block.flagsLen ++ block.flags)))) := by
        refine ⟨block.header.flatten, ?_, rfl⟩
        rw [bytes, if_pos ht]
      rw [parseBranch_eq hw hlen hat, sent]
      split_ifs <;> rfl
    · have hzero : block.totalTx = 0 := by
        by_contra hne
        exact ht (UInt32.pos_iff_ne_zero.2 hne)
      obtain ⟨hh, hf⟩ := h0 hzero
      have hcount : block.hashesCount = 0 := by rw [← hw.hashes, hh, List.length_nil]
      have hlen0 : block.flagsLen = 0 := by rw [← hw.flags, hf, List.length_nil]
      have hend : block.bytes = block.header.flatten := by
        rw [bytes, if_neg ht, List.append_nil]
      rw [hend, parseBranch, if_neg (by omega), sent]
      split_ifs <;> simp [hzero, hh, hf, hcount, hlen0]
  refine ⟨block.sent.hashOf K block.bytes, ?_⟩
  rw [parse, if_pos (hge.trans hbytes), parseHeader_eq (by rw [bytes])]
  simp only [Option.bind_eq_bind, Option.bind_some]
  rw [hbranch]
  rfl

/-- A serialized block is parsed back; without transactions only its header is. -/
theorem parse_serialize (hw : block.Held) (hlen : block.bytes.length ≤ PTRDIFF_MAX)
    (h0 : block.totalTx = 0 → block.hashes = [] ∧ block.flags = []) (K : BlockHashes) {buf : Bytes}
    (hbuf : block.serializeLen ≤ buf.length) : ∃ out copy,
      block.serialize buf = some (out, block.serializeLen, block.serializeLen) ∧
      parse K (out.take block.serializeLen) = some (some copy) ∧ Same block copy := by
  rw [serializeLen_eq hw hlen] at hbuf ⊢
  obtain ⟨blockHash, hparse⟩ := parse_bytes hw hlen h0 K
  refine ⟨_, _, serialize_eq hw hlen hbuf, ?_, same_sent blockHash⟩
  rw [List.take_left, hparse]

/-- A header without transactions, but with a hash. -/
def headerWithHash : BRMerkleBlock UInt256 where
  blockHash := 0
  prevBlock := 0
  merkleRoot := 0
  mixHash := 0
  hashes := [0]
  hashesCount := 1

/-- The hash of a header without transactions is lost. -/
theorem not_parse_serialize : ¬ ∀ block : BRMerkleBlock UInt256, block.Held →
    block.bytes.length ≤ PTRDIFF_MAX → ∀ (K : BlockHashes) (buf : Bytes),
    block.serializeLen ≤ buf.length → ∃ out copy,
      block.serialize buf = some (out, block.serializeLen, block.serializeLen) ∧
      parse K (out.take block.serializeLen) = some (some copy) ∧ Same block copy := by
  intro h
  obtain ⟨out, copy, hser, hparse, hsame⟩ := h headerWithHash
    ⟨rfl, rfl, by decide, by decide⟩ (by decide)
    ⟨fun _ => [], fun _ _ _ => [], fun _ => [], fun _ => []⟩ (List.replicate 80 0) (by decide)
  obtain rfl : List.replicate 80 0 = out := by
    have hout : headerWithHash.serialize (List.replicate 80 0) =
        some (List.replicate 80 0, 80, 80) := by decide +kernel
    exact (Prod.mk.inj (Option.some.inj (hout.symm.trans hser))).1
  have hnone : (parse ⟨fun _ => [], fun _ _ _ => [], fun _ => [], fun _ => []⟩
      ((List.replicate 80 0).take headerWithHash.serializeLen)).map (Option.map hashes) =
        some (some []) := by decide +kernel
  rw [hparse] at hnone
  have hlost : copy.hashes = [] := Option.some.inj (Option.some.inj hnone)
  rw [hsame.hashes.1] at hlost
  cases hlost

/-- A header with a hash in the newer format. -/
def kawpowBlock : BRMerkleBlock UInt256 :=
  { headerWithHash with timestamp := KAWPOW_ActivationTime, totalTx := 1, flags := [1]
                        flagsLen := 1 }

theorem parse_serialize_kawpowBlock : ∃ out copy, kawpowBlock.serialize (List.replicate 160 0) =
      some (out, kawpowBlock.serializeLen, kawpowBlock.serializeLen) ∧
    parse ⟨fun _ => [], fun _ _ _ => [], fun _ => [], fun _ => []⟩
      (out.take kawpowBlock.serializeLen) = some (some copy) ∧ Same kawpowBlock copy :=
  parse_serialize ⟨rfl, rfl, by decide, by decide⟩ (by decide +kernel)
    (fun h => absurd h (by decide)) _ (by decide +kernel)

/-! ## Buffers of any content -/

/-- The buffer is parsed without a read beyond its end, to a block with arrays of the lengths it
    says. -/
def ParseSafe (K : BlockHashes) (buf : Bytes) : Prop :=
  ∃ r, parse K buf = some r ∧ ∀ block, r = some block → block.Held

def headerLen (buf : Bytes) : ℕ :=
  if UInt32.ofNat (ofLE ((buf.drop 68).take 4)) < KAWPOW_ActivationTime then 80 else 120

/-- The arrays of a branch at `off` are empty or end with the buffer at the latest. -/
def BranchFits (buf : Bytes) (off : ℕ) : Prop :=
  let (hashesCount, len) := varInt (buf.drop (off + 4))
  let off := off + 4 + len
  (hashesCount = 0 ∨ off + hashesCount * 32 ≤ buf.length) ∧
    let off := off + hashesCount * 32
    let (flagsLen, len) := varInt (buf.drop off)
    flagsLen = 0 ∨ off + len + flagsLen ≤ buf.length

/-- A buffer that is parsed at all holds a whole header, and the arrays of the branch after it. -/
def ParseFits (buf : Bytes) : Prop :=
  80 ≤ buf.length → headerLen buf ≤ buf.length ∧
    (headerLen buf + 4 ≤ buf.length → BranchFits buf (headerLen buf))

theorem getArray_of_fits {buf : Bytes} {off len : ℕ} (hbuf : buf.length ≤ PTRDIFF_MAX)
    (hoff : off < 2 ^ 64) (h : len = 0 ∨ off + len ≤ buf.length) :
    ∃ xs, getArray buf off len = some xs ∧ xs.length = len := by
  rw [getArray]
  rcases h with rfl | hle
  · rw [Nat.add_zero, wrap64_of_lt hoff]
    by_cases hle : off ≤ buf.length
    · rw [if_pos ⟨hle, Nat.zero_le _⟩, peek, if_pos (by omega)]
      exact ⟨_, rfl, by rw [List.take_zero]; rfl⟩
    · rw [if_neg (fun h => hle h.1)]
      exact ⟨[], rfl, rfl⟩
  · rw [if_pos ⟨(wrap64_le _).trans hle, by omega⟩, peek, if_pos hle]
    exact ⟨_, rfl, List.length_take_of_le (by rw [List.length_drop]; omega)⟩

theorem fits_of_getArray {buf xs : Bytes} {off len : ℕ} (h : getArray buf off len = some xs) :
    xs = [] ∨ xs.length = len ∧ off + len ≤ buf.length := by
  rw [getArray] at h
  by_cases hfits : wrap64 (off + len) ≤ buf.length ∧ len ≤ PTRDIFF_MAX
  · rw [if_pos hfits, peek] at h
    split_ifs at h with hle
    obtain rfl := Option.some.inj h
    exact Or.inr ⟨List.length_take_of_le (by rw [List.length_drop]; omega), hle⟩
  · rw [if_neg hfits] at h
    exact Or.inl (Option.some.inj h).symm

/-- A header is parsed if it is in the buffer. -/
theorem parseHeader_of_le {buf : Bytes} (h : 80 ≤ buf.length) :
    (headerLen buf ≤ buf.length → ∃ block, parseHeader buf = some (block, headerLen buf) ∧
      block.Held) ∧ (buf.length < headerLen buf → parseHeader buf = none) := by
  have hread : ∀ off k, off + k ≤ 80 → getLE buf off k = some (ofLE ((buf.drop off).take k)) :=
    fun off k hk => getLE_of_le (hk.trans h)
  rw [parseHeader, hread 0 4 (by decide), hread 4 32 (by decide), hread 36 32 (by decide),
    hread 68 4 (by decide), hread 72 4 (by decide), headerLen]
  simp only [Option.bind_eq_bind, Option.bind_some]
  by_cases ht : UInt32.ofNat (ofLE ((buf.drop 68).take 4)) < KAWPOW_ActivationTime
  · rw [if_pos ht, if_pos ht, hread 76 4 (by decide)]
    exact ⟨fun _ => ⟨_, rfl, rfl, rfl, Nat.zero_le _, Nat.zero_le _⟩, fun hlt => absurd h (by omega)⟩
  · rw [if_neg ht, if_neg ht, hread 76 4 (by decide)]
    constructor
    · intro hle
      rw [getLE_of_le (by omega : 80 + 8 ≤ buf.length), getLE_of_le (by omega : 88 + 32 ≤ buf.length)]
      exact ⟨_, rfl, rfl, rfl, Nat.zero_le _, Nat.zero_le _⟩
    · intro hlt
      have hmix : getLE buf 88 32 = none := getLE_eq_none.2 (by omega)
      rw [hmix]
      cases getLE buf 80 8 <;> rfl

/-- The offset behind an array that fits. -/
theorem wrap64_array {bufLen off len : ℕ} (hbuf : bufLen ≤ PTRDIFF_MAX) (hoff : off ≤ bufLen + 9)
    (h : len = 0 ∨ off + len ≤ bufLen) :
    wrap64 len = len ∧ wrap64 (off + len) = off + len ∧ off + len ≤ bufLen + 9 := by
  have hmax : PTRDIFF_MAX < 2 ^ 63 := by decide
  exact ⟨wrap64_of_lt (by omega), wrap64_of_lt (by omega), by omega⟩

/-- The arrays of a parsed branch have the lengths it says if they fit. -/
theorem parseBranch_held_iff {buf : Bytes} (hbuf : buf.length ≤ PTRDIFF_MAX) {off : ℕ}
    (hoff : off + 4 ≤ buf.length) (block : BRMerkleBlock UInt256) :
    (∃ block', parseBranch buf off block = some block' ∧ block'.Held) ↔ BranchFits buf off := by
  have hmax : PTRDIFF_MAX < 2 ^ 63 := by decide
  rw [parseBranch, if_pos hoff, getLE_of_le hoff, BranchFits]
  simp only [Option.bind_eq_bind, Option.bind_some]
  rcases hc : varInt (buf.drop (off + 4)) with ⟨c, j⟩
  have hj : j ≤ 9 := by
    have hle := varInt_snd_le (buf.drop (off + 4))
    rwa [hc] at hle
  have hc64 : c < 2 ^ 64 := by
    have hlt := varInt_fst_lt (buf.drop (off + 4))
    rwa [hc] at hlt
  dsimp only
  constructor
  · rintro ⟨block', hparse, hheld⟩
    obtain ⟨hashes, hh, hparse⟩ := Option.bind_eq_some_iff.1 hparse
    obtain ⟨flags, hf, hparse⟩ := Option.bind_eq_some_iff.1 hparse
    obtain rfl := Option.some.inj hparse
    have hcount : hashes.length / 32 = c := (getHashes_length _ _).symm.trans hheld.hashes
    have hfit : c = 0 ∨ off + 4 + j + c * 32 ≤ buf.length := by
      rcases fits_of_getArray hh with rfl | ⟨hlen, hle⟩
      · exact Or.inl hcount.symm
      · -- the product did not wrap, since the array has all the hashes
        have hwrap := wrap64_le (c * 32)
        exact Or.inr (by omega)
    obtain ⟨hwrap, hnext, hle⟩ := wrap64_array hbuf (by omega : off + 4 + j ≤ _)
      (hfit.imp_left fun h => (by omega : c * 32 = 0))
    have hflags := hheld.flags
    dsimp only at hflags
    rw [hwrap, hnext] at hf hflags
    have hj' := varInt_snd_le (buf.drop (off + 4 + j + c * 32))
    rw [wrap64_of_lt (by omega)] at hf
    refine ⟨hfit, ?_⟩
    rcases fits_of_getArray hf with rfl | ⟨hlen, hle'⟩
    · exact Or.inl hflags.symm
    · exact Or.inr hle'
  · rintro ⟨hfit, hfit'⟩
    obtain ⟨hwrap, hnext, hle⟩ := wrap64_array hbuf (by omega : off + 4 + j ≤ _)
      (hfit.imp_left fun h => (by omega : c * 32 = 0))
    obtain ⟨hashes, hh, hhlen⟩ := getArray_of_fits hbuf (by omega : off + 4 + j < 2 ^ 64)
      (hfit.imp_left fun h => (by omega : c * 32 = 0))
    have hj' := varInt_snd_le (buf.drop (off + 4 + j + c * 32))
    obtain ⟨flags, hf, hflen⟩ := getArray_of_fits hbuf (by omega) hfit'
    have hf64 := varInt_fst_lt (buf.drop (off + 4 + j + c * 32))
    rw [hwrap, hh, Option.bind_some, hnext, wrap64_of_lt (by omega), hf]
    refine ⟨_, rfl, ?_, hflen, Nat.le_sub_one_of_lt hc64, Nat.le_sub_one_of_lt hf64⟩
    change (getHashes (hashes.length / 32) hashes).length = c
    rw [getHashes_length, hhlen, Nat.mul_div_cancel _ (by decide)]

/-- Exactly the buffers that hold what they announce are parsed within their bounds. -/
theorem parseSafe_iff (K : BlockHashes) {buf : Bytes} (hbuf : buf.length ≤ PTRDIFF_MAX) :
    ParseSafe K buf ↔ ParseFits buf := by
  rw [ParseSafe, ParseFits, parse]
  by_cases h80 : 80 ≤ buf.length
  · rw [if_pos h80]
    obtain ⟨hsome, hnone⟩ := parseHeader_of_le h80
    by_cases hle : headerLen buf ≤ buf.length
    · obtain ⟨block, hblock, hheld⟩ := hsome hle
      rw [hblock]
      simp only [Option.bind_eq_bind, Option.bind_some, h80, hle, true_and, true_implies]
      by_cases h4 : headerLen buf + 4 ≤ buf.length
      · rw [← parseBranch_held_iff hbuf h4 block]
        constructor
        · rintro ⟨r, hr, hheld'⟩ -
          obtain ⟨block', hbranch, hr⟩ := Option.bind_eq_some_iff.1 hr
          obtain rfl := Option.some.inj hr
          obtain ⟨h₁, h₂, h₃, h₄⟩ := hheld' _ rfl
          exact ⟨block', hbranch, h₁, h₂, h₃, h₄⟩
        · intro hfits
          obtain ⟨block', hbranch, h₁, h₂, h₃, h₄⟩ := hfits h4
          refine ⟨_, by rw [hbranch]; rfl, ?_⟩
          rintro _ ⟨⟩
          exact ⟨h₁, h₂, h₃, h₄⟩
      · obtain ⟨h₁, h₂, h₃, h₄⟩ := hheld
        rw [parseBranch, if_neg h4, Option.bind_some]
        refine ⟨fun _ h => absurd h h4, fun _ => ⟨_, rfl, ?_⟩⟩
        rintro _ ⟨⟩
        exact ⟨h₁, h₂, h₃, h₄⟩
    · rw [hnone (Nat.lt_of_not_le hle)]
      constructor
      · rintro ⟨r, hr, -⟩
        cases hr
      · exact fun h => absurd (h h80).1 hle
  · rw [if_neg h80]
    refine ⟨fun _ h => absurd h h80, fun _ => ⟨none, rfl, ?_⟩⟩
    rintro _ ⟨⟩

theorem parseSafe_iff_zeros : ParseSafe ⟨fun _ => [], fun _ _ _ => [], fun _ => [], fun _ => []⟩
    (List.replicate 80 0) := by
  refine (parseSafe_iff _ (by decide)).2 fun _ => ⟨by decide, fun hlong => ?_⟩
  exact absurd hlong (by decide)

/-- A header of the newer format is read beyond the end of a buffer of 80 bytes. -/
theorem not_parseSafe : ¬ ∀ (K : BlockHashes) (buf : Bytes), buf.length ≤ PTRDIFF_MAX →
    ParseSafe K buf := by
  intro h
  obtain ⟨r, hr, -⟩ := h ⟨fun _ => [], fun _ _ _ => [], fun _ => [], fun _ => []⟩
    (List.replicate 80 0xff) (by decide)
  have hnone : parseHeader (List.replicate 80 0xff) = none := by decide +kernel
  rw [parse, if_pos (by decide), hnone] at hr
  cases hr

end BRMerkleBlock

end RavenWallet
