/-
  The hashes of BRCrypto.c: SHA1, SHA224, SHA256, SHA384, SHA512, RMD160 and MD5.

  Each copies the message to a block buffer in a loop, and pads what is left.  The loops
  differ in the size of a block, in their condition (`<` or `<=`), in where the length
  stands and in its byte order: `hashBlocks` has these as parameters.  What would read
  outside of the message or write outside of the block buffer is `none`; `garbage` is what
  the block buffer holds in the beginning.

  * `blockLoop_eq`: the loop folds the compression function over the whole blocks, and
    leaves the rest in the block buffer;
  * `hashBlocks_eq`: with the padding, it is folded over the padded message;
  * `hashes_framed`: what this is for each hash.
-/
import Mathlib.Tactic.IntervalCases
import RavenWallet.Crypto.Compress
import RavenWallet.Lib.Padding

namespace RavenWallet

/-! ## The code -/

section
variable {σ : Type} (size lengthAt : ℕ) (more : ℕ → ℕ → Bool) (compress : σ → Bytes → σ × Bytes)

/-- `for (i = 0; more; i += size)`: the index at its end, the registers and the block buffer.
    The first argument is the number of rounds that are left. -/
def blockLoop (data : Bytes) : ℕ → ℕ → σ → Bytes → Option (ℕ × σ × Bytes)
  | 0, _, _, _ => none
  | rounds + 1, i, buf, x =>
    if more i data.length then do
      let block ← peek data i (if i + size < data.length then size else data.length - i)
      let x ← poke x 0 block
      if i + size > data.length then some (i, buf, x)
      else
        let (buf, x) := compress buf x
        blockLoop data rounds (i + size) buf x
    else some (i, buf, x)

/-- The registers in the end.  `field` are the words that are stored at `lengthAt`, for the length
    of the message. -/
def hashBlocks (field : ℕ → Bytes) (buf : σ) (x data : Bytes) : Option σ := do
  let (i, buf, x) ← blockLoop size more compress data (data.length / size + 1) 0 buf x
  let rest ← if i ≤ data.length then some (data.length - i) else none
  let x ← poke x rest (List.replicate (size - rest) 0)
  let x ← poke x rest [0x80]
  let (buf, x) ←
    if lengthAt ≤ rest then do
      let (buf, x) := compress buf x
      let x ← poke x 0 (List.replicate size 0)
      some (buf, x)
    else some (buf, x)
  let x ← poke x lengthAt (field data.length)
  some (compress buf x).1

end

/-- `x[14] = be32((uint32_t)(len >> 29)), x[15] = be32((uint32_t)(len << 3))` -/
def lengthBE32 (len : ℕ) : Bytes :=
  toLE 4 (be32 (UInt64.ofNat len >>> 29).toUInt32).toNat ++
    toLE 4 (be32 (UInt64.ofNat len <<< 3).toUInt32).toNat

/-- `x[14] = le32((uint32_t)(len << 3)), x[15] = le32((uint32_t)(len >> 29))` -/
def lengthLE32 (len : ℕ) : Bytes :=
  toLE 4 (le32 (UInt64.ofNat len <<< 3).toUInt32).toNat ++
    toLE 4 (le32 (UInt64.ofNat len >>> 29).toUInt32).toNat

/-- `x[14] = 0, x[15] = be64((uint64_t)len*8)` -/
def lengthBE64 (len : ℕ) : Bytes := toLE 8 0 ++ toLE 8 (be64 (UInt64.ofNat len * 8)).toNat

/-- The initial values of the registers. -/
def sha1Init : Vector UInt32 5 := #v[0x67452301, 0xefcdab89, 0x98badcfe, 0x10325476, 0xc3d2e1f0]

def sha224Init : Vector UInt32 8 :=
  #v[0xc1059ed8, 0x367cd507, 0x3070dd17, 0xf70e5939, 0xffc00b31, 0x68581511, 0x64f98fa7, 0xbefa4fa4]

def sha256Init : Vector UInt32 8 :=
  #v[0x6a09e667, 0xbb67ae85, 0x3c6ef372, 0xa54ff53a, 0x510e527f, 0x9b05688c, 0x1f83d9ab, 0x5be0cd19]

def sha384Init : Vector UInt64 8 :=
  #v[0xcbbb9d5dc1059ed8, 0x629a292a367cd507, 0x9159015a3070dd17, 0x152fecd8f70e5939,
    0x67332667ffc00b31, 0x8eb44a8768581511, 0xdb0c2e0d64f98fa7, 0x47b5481dbefa4fa4]

def sha512Init : Vector UInt64 8 :=
  #v[0x6a09e667f3bcc908, 0xbb67ae8584caa73b, 0x3c6ef372fe94f82b, 0xa54ff53a5f1d36f1,
    0x510e527fade682d1, 0x9b05688c2b3e6c1f, 0x1f83d9abfb41bd6b, 0x5be0cd19137e2179]

def rmd160Init : Vector UInt32 5 := #v[0x67452301, 0xefcdab89, 0x98badcfe, 0x10325476, 0xc3d2e1f0]

def md5Init : Vector UInt32 4 := #v[0x67452301, 0xefcdab89, 0x98badcfe, 0x10325476]

/-- `_SHA1Compress`, in the bytes of the block buffer. -/
def sha1CompressBytes (r : Vector UInt32 5) (x : Bytes) : Vector UInt32 5 × Bytes :=
  let s := SHA1Compress r (words32 80 x)
  (s.1, bytes32 s.2)

section
variable (garbage : ℕ → UInt8) (data : Bytes)

/-- The block buffer of `n` bytes before it is written to. -/
def blockBuffer (n : ℕ) : Bytes := (List.range n).map garbage

def SHA1 : Option Bytes :=
  (hashBlocks 64 56 (fun i len => i < len) sha1CompressBytes lengthBE32 sha1Init
    (blockBuffer garbage 320) data).map fun buf =>
      (buf.toList.take 5).flatMap fun w => toLE 4 (be32 w).toNat

def SHA224 : Option Bytes :=
  (hashBlocks 64 56 (fun i len => i < len) (fun r x => (SHA256Compress r (words32 16 x), x))
    lengthBE32 sha224Init (blockBuffer garbage 64) data).map fun buf =>
      (buf.toList.take 7).flatMap fun w => toLE 4 (be32 w).toNat

def SHA256 : Option Bytes :=
  (hashBlocks 64 56 (fun i len => i < len) (fun r x => (SHA256Compress r (words32 16 x), x))
    lengthBE32 sha256Init (blockBuffer garbage 64) data).map fun buf =>
      (buf.toList.take 8).flatMap fun w => toLE 4 (be32 w).toNat

def SHA384 : Option Bytes :=
  (hashBlocks 128 112 (fun i len => i < len) (fun r x => (SHA512Compress r (words64 16 x), x))
    lengthBE64 sha384Init (blockBuffer garbage 128) data).map fun buf =>
      (buf.toList.take 6).flatMap fun w => toLE 8 (be64 w).toNat

def SHA512 : Option Bytes :=
  (hashBlocks 128 112 (fun i len => i < len) (fun r x => (SHA512Compress r (words64 16 x), x))
    lengthBE64 sha512Init (blockBuffer garbage 128) data).map fun buf =>
      (buf.toList.take 8).flatMap fun w => toLE 8 (be64 w).toNat

def RMD160 : Option Bytes :=
  (hashBlocks 64 56 (fun i len => i ≤ len) (fun r x => (RMDCompress r (words32 16 x), x))
    lengthLE32 rmd160Init (blockBuffer garbage 64) data).map fun buf =>
      (buf.toList.take 5).flatMap fun w => toLE 4 (le32 w).toNat

def MD5 : Option Bytes :=
  (hashBlocks 64 56 (fun i len => i ≤ len) (fun r x => (MD5Compress r (words32 16 x), x))
    lengthLE32 md5Init (blockBuffer garbage 64) data).map fun buf =>
      (buf.toList.take 4).flatMap fun w => toLE 4 (le32 w).toNat

end

/-! ## Bytes of words -/

/-- The bytes change places. -/
theorem testBit_be32 (x : UInt32) {i : ℕ} (hi : i < 32) :
    (be32 x).toNat.testBit i = x.toNat.testBit (24 - 8 * (i / 8) + i % 8) := by
  have hx (m : ℕ) : x.toNat.testBit m = x.toBitVec.getLsbD m := rfl
  have hb : (be32 x).toNat.testBit i = (be32 x).toBitVec.getLsbD i := rfl
  rw [hb, hx, be32]
  interval_cases i <;> simp

/-- A byte of the one is a byte of the other. -/
theorem be32_byte (x : UInt32) {j : ℕ} (hj : j < 4) :
    UInt8.ofNat ((be32 x).toNat / 256 ^ j) = UInt8.ofNat (x.toNat / 256 ^ (3 - j)) := by
  have hpow (n : ℕ) : 256 ^ n = 2 ^ (8 * n) := by rw [Nat.pow_mul]
  refine UInt8.toNat_inj.1 (Nat.eq_of_testBit_eq fun i => ?_)
  rw [UInt8.toNat_ofNat', UInt8.toNat_ofNat', Nat.testBit_mod_two_pow, Nat.testBit_mod_two_pow,
    hpow, hpow, Nat.testBit_div_two_pow, Nat.testBit_div_two_pow]
  by_cases hi : i < 8
  · have hdiv : (i + 8 * j) / 8 = j := by omega
    have hmod : (i + 8 * j) % 8 = i := by omega
    have hindex : 24 - 8 * j + i = i + 8 * (3 - j) := by omega
    rw [testBit_be32 x (by omega), hdiv, hmod, hindex]
  · rw [decide_eq_false hi, Bool.false_and, Bool.false_and]

theorem toLE_be32 (x : UInt32) : toLE 4 (be32 x).toNat = toBE 4 x.toNat := by
  have h0 := be32_byte x (j := 0) (by decide)
  have h1 := be32_byte x (j := 1) (by decide)
  have h2 := be32_byte x (j := 2) (by decide)
  have h3 := be32_byte x (j := 3) (by decide)
  norm_num only [Nat.div_one] at h0 h1 h2 h3
  simp only [toBE, toLE, List.reverse_cons, List.reverse_nil, List.nil_append, List.cons_append,
    Nat.div_div_eq_div_mul, Nat.reduceMul]
  rw [h0, h1, h2, h3]

theorem toLE_be64 (x : UInt64) : toLE 8 (be64 x).toNat = toBE 8 x.toNat := by
  set words := toLE 4 (be32 (x >>> 32).toUInt32).toNat ++ toLE 4 (be32 x.toUInt32).toNat with hwords
  have hlength : words.length = 8 := by rw [hwords, List.length_append, length_toLE, length_toLE]
  have hlt : ofLE words < 2 ^ 64 := by
    have hbound := ofLE_lt words
    rwa [hlength] at hbound
  have hleft : toLE 8 (be64 x).toNat = words := by
    rw [be64, ← hwords, UInt64.toNat_ofNat', Nat.mod_eq_of_lt hlt, ← hlength, toLE_ofLE]
  have hhigh : (x >>> 32).toUInt32.toNat = x.toNat / 256 ^ 4 % 256 ^ 4 := by
    rw [UInt64.toNat_toUInt32, UInt64.toNat_shiftRight, Nat.shiftRight_eq_div_pow]
    rfl
  have hlow : x.toUInt32.toNat = x.toNat % 256 ^ 4 := UInt64.toNat_toUInt32 x
  rw [hleft, hwords, toLE_be32, toLE_be32, hhigh, hlow, toBE_mod, toBE_mod]
  exact (toBE_add 4 4 _).symm

/-! ## The length -/

section
variable {len : ℕ}

/-- The two words of the length in bits. -/
theorem lengthWords (h : len < 2 ^ 61) :
    (UInt64.ofNat len >>> 29).toUInt32.toNat = 8 * len / 256 ^ 4 % 256 ^ 4 ∧
      (UInt64.ofNat len <<< 3).toUInt32.toNat = 8 * len % 256 ^ 4 := by
  have hlen : (UInt64.ofNat len).toNat = len := by
    rw [UInt64.toNat_ofNat', Nat.mod_eq_of_lt (by omega)]
  constructor
  · rw [UInt64.toNat_toUInt32, UInt64.toNat_shiftRight, hlen, Nat.shiftRight_eq_div_pow]
    change len / 2 ^ 29 % 2 ^ 32 = _
    omega
  · rw [UInt64.toNat_toUInt32, UInt64.toNat_shiftLeft, hlen, Nat.shiftLeft_eq]
    change len * 2 ^ 3 % 2 ^ 64 % 2 ^ 32 = _
    omega

theorem lengthBE32_eq (h : len < 2 ^ 61) : lengthBE32 len = toBE 8 (8 * len) := by
  obtain ⟨hhigh, hlow⟩ := lengthWords h
  rw [lengthBE32, toLE_be32, toLE_be32, hhigh, hlow, toBE_mod, toBE_mod]
  exact (toBE_add 4 4 _).symm

theorem lengthLE32_eq (h : len < 2 ^ 61) : lengthLE32 len = toLE 8 (8 * len) := by
  obtain ⟨hhigh, hlow⟩ := lengthWords h
  rw [lengthLE32, le32, le32, hhigh, hlow, toLE_mod, toLE_mod]
  exact (toLE_add 4 4 _).symm

theorem lengthBE64_eq (h : len < 2 ^ 61) : lengthBE64 len = toBE 16 (8 * len) := by
  have hlen : (UInt64.ofNat len * 8).toNat = 8 * len := by
    rw [UInt64.toNat_mul, UInt64.toNat_ofNat']
    change len % 2 ^ 64 * 8 % 2 ^ 64 = _
    omega
  have hzero : 8 * len / 256 ^ 8 = 0 := by omega
  rw [lengthBE64, toLE_be64, hlen]
  refine Eq.trans ?_ (toBE_add 8 8 _).symm
  rw [hzero]
  rfl

end

/-! ## The loop -/

section
variable {σ : Type} {size capacity lengthAt : ℕ} {more : ℕ → ℕ → Bool}
  {compress : σ → Bytes → σ × Bytes} {step : σ → Bytes → σ}

/-- What the loop needs of its parameters: it goes on for whole blocks, and not beyond the message;
    the compression function uses one block of the buffer, and leaves its size. -/
structure UsesBlocks (size capacity : ℕ) (more : ℕ → ℕ → Bool) (compress : σ → Bytes → σ × Bytes)
    (step : σ → Bytes → σ) : Prop where
  size_le : size ≤ capacity
  more_of_lt : ∀ i len, i < len → more i len = true
  le_of_more : ∀ i len, more i len = true → i ≤ len
  compress_eq : ∀ s block rest, block.length = size → (compress s (block ++ rest)).1 = step s block
  length_compress : ∀ s x, x.length = capacity → (compress s x).2.length = capacity

/-- The loop folds the compression function over the whole blocks from `i` on, and leaves the rest
    in the buffer. -/
theorem blockLoop_eq (hsize : 0 < size) (hc : UsesBlocks size capacity more compress step)
    (data : Bytes) {rounds i q : ℕ} {buf : σ} {x : Bytes} (hi : i ≤ data.length)
    (hx : x.length = capacity) (hq : q = (data.length - i) / size) (hrounds : q < rounds) :
    ∃ x' above, blockLoop size more compress data rounds i buf x =
        some (i + size * q, foldBlocks size step buf (data.drop i), x') ∧
      x'.length = capacity ∧ x' = data.drop (i + size * q) ++ above := by
  have hcapacity := hc.size_le
  induction rounds generalizing i q buf x with
  | zero => omega
  | succ rounds ih =>
    have hlength : (data.drop i).length = data.length - i := List.length_drop
    rw [blockLoop]
    rcases Nat.lt_or_ge (data.length - i) size with hshort | hlong
    · rw [Nat.div_eq_of_lt hshort] at hq
      rw [hq, Nat.mul_zero, Nat.add_zero, foldBlocks_of_lt (by omega)]
      by_cases hmore : more i data.length = true
      · have hpeek : peek data i (data.length - i) = some (data.drop i) := by
          rw [peek, if_pos (by omega), ← hlength, List.take_length]
        have hpoke : poke x 0 (data.drop i) = some (data.drop i ++ x.drop (data.length - i)) := by
          rw [poke, if_pos (by omega), List.take_zero, List.nil_append, Nat.zero_add, hlength]
        rw [if_pos hmore, if_neg (by omega), hpeek]
        dsimp only [Option.bind_eq_bind, Option.bind_some]
        rw [hpoke]
        dsimp only [Option.bind_some]
        rw [if_pos (by omega)]
        refine ⟨_, x.drop (data.length - i), rfl, ?_, rfl⟩
        rw [List.length_append, List.length_drop, List.length_drop]
        omega
      · have hend : (data.drop i).length = 0 := by
          by_contra hne
          exact hmore (hc.more_of_lt i _ (by omega))
        rw [if_neg hmore, List.eq_nil_of_length_eq_zero hend]
        exact ⟨x, x, rfl, hx, rfl⟩
    · have hmore : more i data.length = true := hc.more_of_lt i _ (by omega)
      have hpeek : peek data i (if i + size < data.length then size else data.length - i) =
          some ((data.drop i).take size) := by
        have hcount : (if i + size < data.length then size else data.length - i) = size := by
          split_ifs <;> omega
        rw [hcount, peek, if_pos (by omega)]
      have htake : ((data.drop i).take size).length = size := List.length_take_of_le (by omega)
      have hpoke : poke x 0 ((data.drop i).take size) =
          some ((data.drop i).take size ++ x.drop size) := by
        rw [poke, htake, if_pos (by omega), List.take_zero, List.nil_append, Nat.zero_add]
      have hsplit : data.drop i = (data.drop i).take size ++ data.drop (i + size) := by
        rw [← List.drop_drop, List.take_append_drop]
      have hq' : q = (data.length - (i + size)) / size + 1 := by
        rw [hq, ← Nat.sub_sub, ← Nat.add_div_right _ hsize, Nat.sub_add_cancel hlong]
      have hbuffer : ((data.drop i).take size ++ x.drop size).length = capacity := by
        rw [List.length_append, htake, List.length_drop]
        omega
      obtain ⟨x', above, hloop, hlength', habove⟩ := ih
        (x := (compress buf ((data.drop i).take size ++ x.drop size)).2) (i := i + size) (by omega)
        (hc.length_compress _ _ hbuffer) rfl (by omega)
      rw [if_pos hmore, hpeek]
      dsimp only [Option.bind_eq_bind, Option.bind_some]
      rw [hpoke]
      dsimp only [Option.bind_some]
      have hindex : i + size + size * ((data.length - (i + size)) / size) = i + size * q := by
        rw [hq', Nat.mul_succ]
        omega
      have hfold : foldBlocks size step buf (data.drop i) =
          foldBlocks size step (step buf ((data.drop i).take size)) (data.drop (i + size)) := by
        conv_lhs => rw [hsplit, foldBlocks_append htake hsize]
      rw [if_neg (by omega), hloop, hc.compress_eq _ _ _ htake, hindex, hfold]
      exact ⟨x', above, rfl, hlength', by rw [habove, hindex]⟩

/-- With the padding, the compression function is folded over the padded message. -/
theorem hashBlocks_eq (hc : UsesBlocks size capacity more compress step) {field : ℕ → Bytes}
    (data : Bytes) (buf : σ) {x : Bytes} (hx : x.length = capacity) (hpos : 0 < lengthAt)
    (hfield : lengthAt + (field data.length).length = size) :
    hashBlocks size lengthAt more compress field buf x data =
      some (foldBlocks size step buf (padMessage size (field data.length) data)) := by
  have hcapacity := hc.size_le
  obtain ⟨x', above, hloop, hlength', habove⟩ := @blockLoop_eq _ _ _ _ _ _ (by omega) hc data _ 0
    _ buf x (Nat.zero_le _) hx rfl (Nat.lt_succ_self _)
  rw [Nat.sub_zero, Nat.zero_add, List.drop_zero] at hloop
  rw [Nat.sub_zero, Nat.zero_add] at habove
  set q := data.length / size with hq
  have hwhole : size * q ≤ data.length := Nat.mul_div_le _ _
  have hmod : data.length - size * q < size := by
    have hdiv : size * q + data.length % size = data.length := Nat.div_add_mod _ _
    have hlt := Nat.mod_lt data.length (y := size) (by omega)
    omega
  set rest := data.drop (size * q) with hrest
  have hrest_length : rest.length = data.length - size * q := List.length_drop
  have habove_length : rest.length + above.length = capacity := by
    rw [← hlength', habove, List.length_append]
  set upper := above.drop (size - rest.length) with hupper
  have hzeros : poke x' rest.length (List.replicate (size - rest.length) 0) =
      some (rest ++ (List.replicate (size - rest.length) 0 ++ upper)) := by
    refine poke_parts (b := above.take (size - rest.length)) ?_ rfl ?_
    · rw [habove, List.take_append_drop]
    · rw [List.length_take_of_le (by omega), List.length_replicate]
  have hmark : poke (rest ++ (List.replicate (size - rest.length) 0 ++ upper)) rest.length [0x80] =
      some (rest ++ ([0x80] ++ (List.replicate (size - (rest.length + 1)) 0 ++ upper))) := by
    refine poke_parts (b := [0]) ?_ rfl rfl
    have hcons : size - rest.length = size - (rest.length + 1) + 1 := by omega
    rw [hcons, List.replicate_succ, List.cons_append, List.singleton_append]
  have hzero_field (n : ℕ) : List.replicate (n + (field data.length).length) (0 : UInt8) =
      List.replicate n 0 ++ List.replicate (field data.length).length 0 :=
    List.replicate_append_replicate.symm
  have hat : size - (field data.length).length = lengthAt := by omega
  rw [foldBlocks_padMessage (by omega), hashBlocks, hloop]
  dsimp only [Option.bind_eq_bind, Option.bind_some]
  rw [if_pos hwhole, ← hq, ← hrest, ← hrest_length, hzeros, Option.bind_some, hmark,
    Option.bind_some, hat]
  by_cases hsecond : lengthAt ≤ rest.length
  · have hblock : (rest ++ 0x80 :: List.replicate (size - (rest.length + 1)) 0).length = size := by
      rw [List.length_append, List.length_cons, List.length_replicate]
      omega
    have happend : rest ++ ([0x80] ++ (List.replicate (size - (rest.length + 1)) 0 ++ upper)) =
        rest ++ 0x80 :: List.replicate (size - (rest.length + 1)) 0 ++ upper := by
      rw [List.append_assoc, List.singleton_append, List.cons_append]
    set padded := rest ++ 0x80 :: List.replicate (size - (rest.length + 1)) 0
    rw [if_pos hsecond, if_pos hsecond, happend, hc.compress_eq _ _ _ hblock]
    set x₂ := (compress (foldBlocks size step buf data) (padded ++ upper)).2 with hx₂
    have hx₂_length : size ≤ x₂.length := by
      rw [hx₂, hc.length_compress _ _ (by rw [List.length_append, hupper, List.length_drop]; omega)]
      exact hcapacity
    have hclear : poke x₂ 0 (List.replicate size 0) =
        some (List.replicate size 0 ++ x₂.drop size) := by
      rw [poke, List.length_replicate, if_pos (by omega), List.take_zero, List.nil_append,
        Nat.zero_add]
    have hlast : poke (List.replicate size 0 ++ x₂.drop size) lengthAt (field data.length) =
        some (List.replicate lengthAt 0 ++ (field data.length ++ x₂.drop size)) := by
      refine poke_parts (b := List.replicate (field data.length).length 0) ?_
        List.length_replicate List.length_replicate
      rw [← hfield, hzero_field, List.append_assoc]
    rw [hclear, Option.bind_some, hlast, Option.bind_some, ← List.append_assoc, hc.compress_eq]
    rw [List.length_append, List.length_replicate, hfield]
  · have hzero_rest : List.replicate (size - (rest.length + 1)) (0 : UInt8) =
        List.replicate (lengthAt - (rest.length + 1)) 0 ++
          List.replicate (field data.length).length 0 := by
      rw [← hzero_field]
      congr 1
      omega
    have hlast : poke (rest ++ ([0x80] ++ (List.replicate (size - (rest.length + 1)) 0 ++ upper)))
        lengthAt (field data.length) =
          some (rest ++ 0x80 :: List.replicate (lengthAt - (rest.length + 1)) 0 ++
            (field data.length ++ upper)) := by
      refine poke_parts (b := List.replicate (field data.length).length 0) ?_ ?_
        List.length_replicate
      · rw [hzero_rest, List.append_assoc, List.append_assoc, List.singleton_append,
          List.cons_append]
      · rw [List.length_append, List.length_cons, List.length_replicate]
        omega
    rw [if_neg hsecond, if_neg hsecond, hlast, Option.bind_some, ← List.append_assoc,
      hc.compress_eq, List.append_assoc, List.cons_append]
    rw [List.length_append, List.length_append, List.length_cons, List.length_replicate]
    omega

end

/-! ## The compression functions -/

section
variable {block rest : Bytes} {n i : ℕ}

theorem wordAt_append (h : 4 * i + 4 ≤ block.length) :
    wordAt (block ++ rest) i = wordAt block i := by
  rw [wordAt, wordAt, List.drop_append_of_le_length (by omega), List.take_append_of_le_length]
  rw [List.length_drop]
  omega

theorem words32_append (h : block.length = 4 * n) :
    words32 n (block ++ rest) = words32 n block := by
  rw [words32, words32]
  refine congrArg _ (funext fun i => wordAt_append ?_)
  omega

theorem words64_append (h : block.length = 8 * n) :
    words64 n (block ++ rest) = words64 n block := by
  rw [words64, words64]
  refine congrArg _ (funext fun i => ?_)
  rw [List.drop_append_of_le_length (by omega), List.take_append_of_le_length]
  rw [List.length_drop]
  omega

theorem length_bytes32 (words : Vector UInt32 n) : (bytes32 words).length = 4 * n := by
  rw [bytes32, List.length_flatMap, Nat.mul_comm]
  simp

theorem length_blockBuffer (garbage : ℕ → UInt8) : (blockBuffer garbage n).length = n := by
  rw [blockBuffer, List.length_map, List.length_range]

end

/-- A compression function of the block: for `SHA1Compress`, the words after it are 0. -/
def sha1Step (r : Vector UInt32 5) (block : Bytes) : Vector UInt32 5 :=
  (SHA1Compress r (words32 80 block)).1

def sha256Step (r : Vector UInt32 8) (block : Bytes) : Vector UInt32 8 :=
  SHA256Compress r (words32 16 block)

def sha512Step (r : Vector UInt64 8) (block : Bytes) : Vector UInt64 8 :=
  SHA512Compress r (words64 16 block)

def rmdStep (r : Vector UInt32 5) (block : Bytes) : Vector UInt32 5 :=
  RMDCompress r (words32 16 block)

def md5Step (r : Vector UInt32 4) (block : Bytes) : Vector UInt32 4 :=
  MD5Compress r (words32 16 block)

/-- What `SHA1Compress` leaves in the block buffer is not used. -/
theorem usesBlocks_sha1 :
    UsesBlocks 64 320 (fun i len => i < len) sha1CompressBytes sha1Step where
  size_le := by decide
  more_of_lt i len h := decide_eq_true h
  le_of_more i len h := Nat.le_of_lt (of_decide_eq_true h)
  compress_eq r block rest h := by
    dsimp only [sha1CompressBytes, sha1Step]
    refine SHA1Compress_congr fun i hi h16 => ?_
    rw [words32, words32, Vector.getElem_ofFn, Vector.getElem_ofFn]
    exact wordAt_append (i := i) (by omega)
  length_compress r x _ := by
    dsimp only [sha1CompressBytes]
    rw [length_bytes32]

/-- Another compression function does not write to the block buffer. -/
theorem usesBlocks_const {σ : Type} {size : ℕ} {more : ℕ → ℕ → Bool} {step : σ → Bytes → σ}
    (hlt : ∀ i len, i < len → more i len = true) (hle : ∀ i len, more i len = true → i ≤ len)
    (hstep : ∀ s block rest, block.length = size → step s (block ++ rest) = step s block) :
    UsesBlocks size size more (fun s x => (step s x, x)) step where
  size_le := Nat.le_refl size
  more_of_lt := hlt
  le_of_more := hle
  compress_eq := hstep
  length_compress _ _ h := h

theorem hashBlocks_below {σ : Type} {size lengthAt : ℕ} {step : σ → Bytes → σ}
    {field : ℕ → Bytes} (garbage : ℕ → UInt8) (data : Bytes) (buf : σ)
    (hstep : ∀ s block rest, block.length = size → step s (block ++ rest) = step s block)
    (hpos : 0 < lengthAt) (hfield : lengthAt + (field data.length).length = size) :
    hashBlocks size lengthAt (fun i len => i < len) (fun s x => (step s x, x)) field buf
        (blockBuffer garbage size) data =
      some (foldBlocks size step buf (padMessage size (field data.length) data)) :=
  hashBlocks_eq (usesBlocks_const (fun _ _ h => decide_eq_true h)
    (fun _ _ h => Nat.le_of_lt (of_decide_eq_true h)) hstep) data buf (length_blockBuffer garbage)
    hpos hfield

theorem hashBlocks_upTo {σ : Type} {size lengthAt : ℕ} {step : σ → Bytes → σ}
    {field : ℕ → Bytes} (garbage : ℕ → UInt8) (data : Bytes) (buf : σ)
    (hstep : ∀ s block rest, block.length = size → step s (block ++ rest) = step s block)
    (hpos : 0 < lengthAt) (hfield : lengthAt + (field data.length).length = size) :
    hashBlocks size lengthAt (fun i len => i ≤ len) (fun s x => (step s x, x)) field buf
        (blockBuffer garbage size) data =
      some (foldBlocks size step buf (padMessage size (field data.length) data)) :=
  hashBlocks_eq (usesBlocks_const (fun _ _ h => decide_eq_true (Nat.le_of_lt h))
    (fun _ _ h => of_decide_eq_true h) hstep) data buf (length_blockBuffer garbage) hpos hfield

/-! ## The hashes -/

/-- The bytes of the first `n` words, the highest first. -/
def digestBE32 (n : ℕ) {k : ℕ} (words : Vector UInt32 k) : Bytes :=
  (words.toList.take n).flatMap fun w => toBE 4 w.toNat

def digestBE64 (n : ℕ) {k : ℕ} (words : Vector UInt64 k) : Bytes :=
  (words.toList.take n).flatMap fun w => toBE 8 w.toNat

def digestLE32 (n : ℕ) {k : ℕ} (words : Vector UInt32 k) : Bytes :=
  (words.toList.take n).flatMap fun w => toLE 4 w.toNat

/-- Each hash reads and writes only where it may, and is the fold of its compression function over
    the padded message. -/
theorem hashes_framed (garbage : ℕ → UInt8) (data : Bytes) (h : data.length < 2 ^ 61) :
    SHA1 garbage data = some (digestBE32 5 (foldBlocks 64 sha1Step sha1Init
        (padMessage 64 (toBE 8 (8 * data.length)) data))) ∧
      SHA224 garbage data = some (digestBE32 7 (foldBlocks 64 sha256Step sha224Init
        (padMessage 64 (toBE 8 (8 * data.length)) data))) ∧
      SHA256 garbage data = some (digestBE32 8 (foldBlocks 64 sha256Step sha256Init
        (padMessage 64 (toBE 8 (8 * data.length)) data))) ∧
      SHA384 garbage data = some (digestBE64 6 (foldBlocks 128 sha512Step sha384Init
        (padMessage 128 (toBE 16 (8 * data.length)) data))) ∧
      SHA512 garbage data = some (digestBE64 8 (foldBlocks 128 sha512Step sha512Init
        (padMessage 128 (toBE 16 (8 * data.length)) data))) ∧
      RMD160 garbage data = some (digestLE32 5 (foldBlocks 64 rmdStep rmd160Init
        (padMessage 64 (toLE 8 (8 * data.length)) data))) ∧
      MD5 garbage data = some (digestLE32 4 (foldBlocks 64 md5Step md5Init
        (padMessage 64 (toLE 8 (8 * data.length)) data))) := by
  have hbe : (lengthBE32 data.length).length = 8 := by rw [lengthBE32_eq h, length_toBE]
  have hle : (lengthLE32 data.length).length = 8 := by rw [lengthLE32_eq h, length_toLE]
  have hbe64 : (lengthBE64 data.length).length = 16 := by rw [lengthBE64_eq h, length_toBE]
  have h256 (s : Vector UInt32 8) (block rest : Bytes) (hblock : block.length = 64) :
      sha256Step s (block ++ rest) = sha256Step s block := by
    rw [sha256Step, words32_append hblock, sha256Step]
  have h512 (s : Vector UInt64 8) (block rest : Bytes) (hblock : block.length = 128) :
      sha512Step s (block ++ rest) = sha512Step s block := by
    rw [sha512Step, words64_append hblock, sha512Step]
  have hrmd (s : Vector UInt32 5) (block rest : Bytes) (hblock : block.length = 64) :
      rmdStep s (block ++ rest) = rmdStep s block := by
    rw [rmdStep, words32_append hblock, rmdStep]
  have hmd5 (s : Vector UInt32 4) (block rest : Bytes) (hblock : block.length = 64) :
      md5Step s (block ++ rest) = md5Step s block := by
    rw [md5Step, words32_append hblock, md5Step]
  have hdigest32 (n : ℕ) {k : ℕ} (words : Vector UInt32 k) :
      ((words.toList.take n).flatMap fun w => toLE 4 (be32 w).toNat) = digestBE32 n words :=
    List.flatMap_congr fun w _ => toLE_be32 w
  have hdigest64 (n : ℕ) {k : ℕ} (words : Vector UInt64 k) :
      ((words.toList.take n).flatMap fun w => toLE 8 (be64 w).toNat) = digestBE64 n words :=
    List.flatMap_congr fun w _ => toLE_be64 w
  rw [← lengthBE32_eq h, ← lengthBE64_eq h, ← lengthLE32_eq h]
  refine ⟨?_, ?_, ?_, ?_, ?_, ?_, ?_⟩
  · rw [SHA1, hashBlocks_eq usesBlocks_sha1 data sha1Init (length_blockBuffer garbage) (by decide)
      (by rw [hbe]), Option.map_some, hdigest32]
  · exact (congrArg _ (hashBlocks_below garbage data sha224Init h256 (by decide)
      (by rw [hbe]))).trans (congrArg some (hdigest32 7 _))
  · exact (congrArg _ (hashBlocks_below garbage data sha256Init h256 (by decide)
      (by rw [hbe]))).trans (congrArg some (hdigest32 8 _))
  · exact (congrArg _ (hashBlocks_below garbage data sha384Init h512 (by decide)
      (by rw [hbe64]))).trans (congrArg some (hdigest64 6 _))
  · exact (congrArg _ (hashBlocks_below garbage data sha512Init h512 (by decide)
      (by rw [hbe64]))).trans (congrArg some (hdigest64 8 _))
  · exact congrArg (Option.map _) (hashBlocks_upTo garbage data rmd160Init hrmd (by decide)
      (by rw [hle]))
  · exact congrArg (Option.map _) (hashBlocks_upTo garbage data md5Init hmd5 (by decide)
      (by rw [hle]))

/-- The message "abc", of 24 bits. -/
theorem hashes_framed_abc :
    let abc : Bytes := [0x61, 0x62, 0x63]
    let block := fun zeros length => abc ++ 0x80 :: (List.replicate zeros 0 ++ length)
    SHA1 (fun _ => 0xff) abc =
        some (digestBE32 5 (foldBlocks 64 sha1Step sha1Init (block 52 (toBE 8 24)))) ∧
      SHA224 (fun _ => 0xff) abc =
        some (digestBE32 7 (foldBlocks 64 sha256Step sha224Init (block 52 (toBE 8 24)))) ∧
      SHA256 (fun _ => 0xff) abc =
        some (digestBE32 8 (foldBlocks 64 sha256Step sha256Init (block 52 (toBE 8 24)))) ∧
      SHA384 (fun _ => 0xff) abc =
        some (digestBE64 6 (foldBlocks 128 sha512Step sha384Init (block 108 (toBE 16 24)))) ∧
      SHA512 (fun _ => 0xff) abc =
        some (digestBE64 8 (foldBlocks 128 sha512Step sha512Init (block 108 (toBE 16 24)))) ∧
      RMD160 (fun _ => 0xff) abc =
        some (digestLE32 5 (foldBlocks 64 rmdStep rmd160Init (block 52 (toLE 8 24)))) ∧
      MD5 (fun _ => 0xff) abc =
        some (digestLE32 4 (foldBlocks 64 md5Step md5Init (block 52 (toLE 8 24)))) :=
  hashes_framed (fun _ => 0xff) [0x61, 0x62, 0x63] (by decide)

example : SHA256 (fun _ => 0xff) [0x61, 0x62, 0x63] =
    some [0xba, 0x78, 0x16, 0xbf, 0x8f, 0x01, 0xcf, 0xea, 0x41, 0x41, 0x40, 0xde, 0x5d, 0xae, 0x22,
      0x23, 0xb0, 0x03, 0x61, 0xa3, 0x96, 0x17, 0x7a, 0x9c, 0xb4, 0x10, 0xff, 0x61, 0xf2, 0x00,
      0x15, 0xad] := by decide +kernel

end RavenWallet
