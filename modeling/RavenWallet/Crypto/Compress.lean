/-
  The compression functions of the hashes of BRCrypto.c: SHA-1, SHA-2, RIPEMD-160 and MD5.

  A compression function takes the registers and the words of a block.  `SHA1Compress`
  also overwrites the words that it is given; `sha1Rounds_congr` says that it uses only the
  16 words of the block, and none that it has not written before.
-/
import Mathlib.Data.Vector.Basic
import RavenWallet.Crypto.Chacha20

namespace RavenWallet

/-! ## Words -/

/-- `be32`, on a little-endian machine. -/
def be32 (x : UInt32) : UInt32 :=
  ((x &&& 0xff) <<< 24) ||| ((x &&& 0xff00) <<< 8) ||| ((x &&& 0xff0000) >>> 8) |||
    ((x &&& 0xff000000) >>> 24)

/-- `le32`, on a little-endian machine. -/
def le32 (x : UInt32) : UInt32 := x

/-- `be64`: the two words in a union. -/
def be64 (x : UInt64) : UInt64 :=
  UInt64.ofNat (ofLE (toLE 4 (be32 (x >>> 32).toUInt32).toNat ++
    toLE 4 (be32 x.toUInt32).toNat))

def ror32 (a b : UInt32) : UInt32 := (a >>> b) ||| (a <<< (32 - b))
def ror64 (a b : UInt64) : UInt64 := (a >>> b) ||| (a <<< (64 - b))

/-- The first `n` words of `bytes`. -/
def words32 (n : ℕ) (bytes : Bytes) : Vector UInt32 n := .ofFn fun i => wordAt bytes i

def words64 (n : ℕ) (bytes : Bytes) : Vector UInt64 n :=
  .ofFn fun i => UInt64.ofNat (ofLE ((bytes.drop (8 * i)).take 8))

/-- The bytes of some words. -/
def bytes32 {n : ℕ} (words : Vector UInt32 n) : Bytes :=
  words.toList.flatMap fun w => toLE 4 w.toNat

def bytes64 {n : ℕ} (words : Vector UInt64 n) : Bytes :=
  words.toList.flatMap fun w => toLE 8 w.toNat

/-! ## SHA-1 -/

def f1 (x y z : UInt32) : UInt32 := (x &&& y) ||| (~~~x &&& z)
def f2 (x y z : UInt32) : UInt32 := x ^^^ y ^^^ z
def f3 (x y z : UInt32) : UInt32 := (x &&& y) ||| (x &&& z) ||| (y &&& z)

/-- The variables `a` to `e`. -/
structure HashRegisters where
  a : UInt32
  b : UInt32
  c : UInt32
  d : UInt32
  e : UInt32

/-- The basic operation (`sha1`). -/
def HashRegisters.sha1 (r : HashRegisters) (x y z : UInt32) : HashRegisters where
  a := rol32 r.a 5 + x + r.e + y + z
  b := r.a
  c := rol32 r.b 30
  d := r.c
  e := r.d

/-- The word that the `i`-th round stores in `x[i]`. -/
def sha1Word (x : Vector UInt32 80) (i : Fin 80) : UInt32 :=
  if h : i.val < 16 then be32 x[i]
  else rol32 (x[i.val - 3] ^^^ x[i.val - 8] ^^^ x[i.val - 14] ^^^ x[i.val - 16]) 1

/-- The `i`-th round, which replaces `x[i]`. -/
def sha1Round (s : HashRegisters × Vector UInt32 80) (i : Fin 80) :
    HashRegisters × Vector UInt32 80 :=
  let (r, x) := s
  let w := sha1Word x i
  let r :=
    if i < 20 then r.sha1 (f1 r.b r.c r.d) 0x5a827999 w
    else if i < 40 then r.sha1 (f2 r.b r.c r.d) 0x6ed9eba1 w
    else if i < 60 then r.sha1 (f3 r.b r.c r.d) 0x8f1bbcdc w
    else r.sha1 (f2 r.b r.c r.d) 0xca62c1d6 w
  (r, x.set i w)

/-- The first `n` rounds. -/
def sha1Rounds (s : HashRegisters × Vector UInt32 80) :
    (n : ℕ) → n ≤ 80 → HashRegisters × Vector UInt32 80
  | 0, _ => s
  | n + 1, h => sha1Round (sha1Rounds s n (Nat.le_of_succ_le h)) ⟨n, h⟩

/-- `_SHA1Compress`. -/
def SHA1Compress (r : Vector UInt32 5) (x : Vector UInt32 80) :
    Vector UInt32 5 × Vector UInt32 80 :=
  let (s, x) := sha1Rounds (⟨r[0], r[1], r[2], r[3], r[4]⟩, x) 80 (Nat.le_refl 80)
  (#v[r[0] + s.a, r[1] + s.b, r[2] + s.c, r[3] + s.d, r[4] + s.e], x)

/-- Rounds from buffers that agree on the first 16 words: the registers are the same, and so are
    the words that the rounds have come to. -/
theorem sha1Rounds_congr {r : HashRegisters} {x y : Vector UInt32 80}
    (hxy : ∀ (i : ℕ) (h : i < 80), i < 16 → x[i] = y[i]) (n : ℕ) (hn : n ≤ 80) :
    (sha1Rounds (r, x) n hn).1 = (sha1Rounds (r, y) n hn).1 ∧
      ∀ (i : ℕ) (h : i < 80), i < 16 ∨ i < n →
        (sha1Rounds (r, x) n hn).2[i] = (sha1Rounds (r, y) n hn).2[i] := by
  induction n with
  | zero => exact ⟨rfl, fun i h hi => hxy i h (by omega)⟩
  | succ n ih =>
    obtain ⟨hregisters, hwords⟩ := ih (Nat.le_of_succ_le hn)
    have hword : sha1Word (sha1Rounds (r, x) n (Nat.le_of_succ_le hn)).2 ⟨n, hn⟩ =
        sha1Word (sha1Rounds (r, y) n (Nat.le_of_succ_le hn)).2 ⟨n, hn⟩ := by
      unfold sha1Word
      split_ifs with h16
      · exact congrArg be32 (hwords n hn (Or.inl h16))
      · dsimp only at h16
        rw [hwords (n - 3) (by omega) (by omega), hwords (n - 8) (by omega) (by omega),
          hwords (n - 14) (by omega) (by omega), hwords (n - 16) (by omega) (by omega)]
    rw [sha1Rounds, sha1Rounds, sha1Round, sha1Round]
    dsimp only
    rw [hword, hregisters]
    refine ⟨rfl, fun i h hi => ?_⟩
    rw [Vector.getElem_set, Vector.getElem_set]
    split_ifs with heq
    · rfl
    · exact hwords i h (by omega)

theorem SHA1Compress_congr {r : Vector UInt32 5} {x y : Vector UInt32 80}
    (hxy : ∀ (i : ℕ) (h : i < 80), i < 16 → x[i] = y[i]) :
    (SHA1Compress r x).1 = (SHA1Compress r y).1 := by
  rw [SHA1Compress, SHA1Compress]
  dsimp only
  rw [(sha1Rounds_congr hxy 80 (Nat.le_refl 80)).1]

/-! ## SHA-2 -/

section
variable {α : Type} [Add α] [AndOp α] [XorOp α] [Complement α]

def ch (x y z : α) : α := (x &&& y) ^^^ (~~~x &&& z)
def maj (x y z : α) : α := (x &&& y) ^^^ (x &&& z) ^^^ (y &&& z)

/-- The words `w[i]`, from those of the block. -/
def sha2Words (be s2 s3 : α → α) (x : Vector α 16) : (n : ℕ) → Vector α (16 + n)
  | 0 => x.map be
  | n + 1 =>
    let w := sha2Words be s2 s3 x n
    w.push (s3 w[14 + n] + w[9 + n] + s2 w[1 + n] + w[n])

/-- A round with `k[i]` and `w[i]`, on the variables `a` to `h`. -/
def sha2Round (s0 s1 : α → α) (k w : α) (v : Vector α 8) : Vector α 8 :=
  let t1 := v[7] + s1 v[4] + ch v[4] v[5] v[6] + k + w
  let t2 := s0 v[0] + maj v[0] v[1] v[2]
  #v[t1 + t2, v[0], v[1], v[2], v[3] + t1, v[4], v[5], v[6]]

/-- What `_SHA256Compress` and `_SHA512Compress` have in common. -/
def sha2Compress (be s0 s1 s2 s3 : α → α) {n : ℕ} (k : Vector α (16 + n)) (r : Vector α 8)
    (x : Vector α 16) : Vector α 8 :=
  let w := sha2Words be s2 s3 x n
  let v := (k.zip w).toList.foldl (fun v kw => sha2Round s0 s1 kw.1 kw.2 v) r
  r.zipWith (· + ·) v

end

def k256 : Vector UInt32 64 :=
  #v[
    0x428a2f98, 0x71374491, 0xb5c0fbcf, 0xe9b5dba5, 0x3956c25b, 0x59f111f1, 0x923f82a4, 0xab1c5ed5,
    0xd807aa98, 0x12835b01, 0x243185be, 0x550c7dc3, 0x72be5d74, 0x80deb1fe, 0x9bdc06a7, 0xc19bf174,
    0xe49b69c1, 0xefbe4786, 0x0fc19dc6, 0x240ca1cc, 0x2de92c6f, 0x4a7484aa, 0x5cb0a9dc, 0x76f988da,
    0x983e5152, 0xa831c66d, 0xb00327c8, 0xbf597fc7, 0xc6e00bf3, 0xd5a79147, 0x06ca6351, 0x14292967,
    0x27b70a85, 0x2e1b2138, 0x4d2c6dfc, 0x53380d13, 0x650a7354, 0x766a0abb, 0x81c2c92e, 0x92722c85,
    0xa2bfe8a1, 0xa81a664b, 0xc24b8b70, 0xc76c51a3, 0xd192e819, 0xd6990624, 0xf40e3585, 0x106aa070,
    0x19a4c116, 0x1e376c08, 0x2748774c, 0x34b0bcb5, 0x391c0cb3, 0x4ed8aa4a, 0x5b9cca4f, 0x682e6ff3,
    0x748f82ee, 0x78a5636f, 0x84c87814, 0x8cc70208, 0x90befffa, 0xa4506ceb, 0xbef9a3f7, 0xc67178f2]

def k512 : Vector UInt64 80 :=
  #v[
    0x428a2f98d728ae22, 0x7137449123ef65cd, 0xb5c0fbcfec4d3b2f, 0xe9b5dba58189dbbc,
    0x3956c25bf348b538, 0x59f111f1b605d019, 0x923f82a4af194f9b, 0xab1c5ed5da6d8118,
    0xd807aa98a3030242, 0x12835b0145706fbe, 0x243185be4ee4b28c, 0x550c7dc3d5ffb4e2,
    0x72be5d74f27b896f, 0x80deb1fe3b1696b1, 0x9bdc06a725c71235, 0xc19bf174cf692694,
    0xe49b69c19ef14ad2, 0xefbe4786384f25e3, 0x0fc19dc68b8cd5b5, 0x240ca1cc77ac9c65,
    0x2de92c6f592b0275, 0x4a7484aa6ea6e483, 0x5cb0a9dcbd41fbd4, 0x76f988da831153b5,
    0x983e5152ee66dfab, 0xa831c66d2db43210, 0xb00327c898fb213f, 0xbf597fc7beef0ee4,
    0xc6e00bf33da88fc2, 0xd5a79147930aa725, 0x06ca6351e003826f, 0x142929670a0e6e70,
    0x27b70a8546d22ffc, 0x2e1b21385c26c926, 0x4d2c6dfc5ac42aed, 0x53380d139d95b3df,
    0x650a73548baf63de, 0x766a0abb3c77b2a8, 0x81c2c92e47edaee6, 0x92722c851482353b,
    0xa2bfe8a14cf10364, 0xa81a664bbc423001, 0xc24b8b70d0f89791, 0xc76c51a30654be30,
    0xd192e819d6ef5218, 0xd69906245565a910, 0xf40e35855771202a, 0x106aa07032bbd1b8,
    0x19a4c116b8d2d0c8, 0x1e376c085141ab53, 0x2748774cdf8eeb99, 0x34b0bcb5e19b48a8,
    0x391c0cb3c5c95a63, 0x4ed8aa4ae3418acb, 0x5b9cca4f7763e373, 0x682e6ff3d6b2b8a3,
    0x748f82ee5defb2fc, 0x78a5636f43172f60, 0x84c87814a1f0ab72, 0x8cc702081a6439ec,
    0x90befffa23631e28, 0xa4506cebde82bde9, 0xbef9a3f7b2c67915, 0xc67178f2e372532b,
    0xca273eceea26619c, 0xd186b8c721c0c207, 0xeada7dd6cde0eb1e, 0xf57d4f7fee6ed178,
    0x06f067aa72176fba, 0x0a637dc5a2c898a6, 0x113f9804bef90dae, 0x1b710b35131c471b,
    0x28db77f523047d84, 0x32caab7b40c72493, 0x3c9ebe0a15c9bebc, 0x431d67c49c100d4c,
    0x4cc5d4becb3e42b6, 0x597f299cfc657e2a, 0x5fcb6fab3ad6faec, 0x6c44198c4a475817]

/-- `_SHA256Compress`. -/
def SHA256Compress : Vector UInt32 8 → Vector UInt32 16 → Vector UInt32 8 :=
  sha2Compress (n := 48) be32 (fun x => ror32 x 2 ^^^ ror32 x 13 ^^^ ror32 x 22)
    (fun x => ror32 x 6 ^^^ ror32 x 11 ^^^ ror32 x 25)
    (fun x => ror32 x 7 ^^^ ror32 x 18 ^^^ (x >>> 3))
    (fun x => ror32 x 17 ^^^ ror32 x 19 ^^^ (x >>> 10)) k256

/-- `_SHA512Compress`. -/
def SHA512Compress : Vector UInt64 8 → Vector UInt64 16 → Vector UInt64 8 :=
  sha2Compress (n := 64) be64 (fun x => ror64 x 28 ^^^ ror64 x 34 ^^^ ror64 x 39)
    (fun x => ror64 x 14 ^^^ ror64 x 18 ^^^ ror64 x 41)
    (fun x => ror64 x 1 ^^^ ror64 x 8 ^^^ (x >>> 7))
    (fun x => ror64 x 19 ^^^ ror64 x 61 ^^^ (x >>> 6)) k512

/-! ## RIPEMD-160 -/

/-- The basic functions (`f` to `j`). -/
def rmdF (x y z : UInt32) : UInt32 := x ^^^ y ^^^ z
def rmdG (x y z : UInt32) : UInt32 := (x &&& y) ||| (~~~x &&& z)
def rmdH (x y z : UInt32) : UInt32 := (x ||| ~~~y) ^^^ z
def rmdI (x y z : UInt32) : UInt32 := (x &&& z) ||| (y &&& ~~~z)
def rmdJ (x y z : UInt32) : UInt32 := x ^^^ (y ||| ~~~z)

/-- The basic operation (`rmd`), with the word `c`, the constant `d` and the shift `e`. -/
def HashRegisters.rmd (r : HashRegisters) (b c d e : UInt32) : HashRegisters where
  a := r.e
  b := rol32 (r.a + b + le32 c + d) e + r.e
  c := r.b
  d := rol32 r.c 10
  e := r.d

/-- A round of 16 operations, with words and shifts from two tables. -/
def rmdRound (f : UInt32 → UInt32 → UInt32 → UInt32) (k : UInt32) (ids : List (Fin 16))
    (shifts : List UInt32) (x : Vector UInt32 16) (r : HashRegisters) : HashRegisters :=
  (ids.zip shifts).foldl (fun r (id, shift) => r.rmd (f r.b r.c r.d) (x.get id) k shift) r

local instance neZero_words : NeZero 16 := ⟨by decide⟩

/-- The left line. -/
def rmdLeft (x : Vector UInt32 16) (r : HashRegisters) : HashRegisters :=
  let r := rmdRound rmdF 0x00000000 [0, 1, 2, 3, 4, 5, 6, 7, 8, 9, 10, 11, 12, 13, 14, 15]
    [11, 14, 15, 12, 5, 8, 7, 9, 11, 13, 14, 15, 6, 7, 9, 8] x r
  let r := rmdRound rmdG 0x5a827999 [7, 4, 13, 1, 10, 6, 15, 3, 12, 0, 9, 5, 2, 14, 11, 8]
    [7, 6, 8, 13, 11, 9, 7, 15, 7, 12, 15, 9, 11, 7, 13, 12] x r
  let r := rmdRound rmdH 0x6ed9eba1 [3, 10, 14, 4, 9, 15, 8, 1, 2, 7, 0, 6, 13, 11, 5, 12]
    [11, 13, 6, 7, 14, 9, 13, 15, 14, 8, 13, 6, 5, 12, 7, 5] x r
  let r := rmdRound rmdI 0x8f1bbcdc [1, 9, 11, 10, 0, 8, 12, 4, 13, 3, 7, 15, 14, 5, 6, 2]
    [11, 12, 14, 15, 14, 15, 9, 8, 9, 14, 5, 6, 8, 6, 5, 12] x r
  rmdRound rmdJ 0xa953fd4e [4, 0, 5, 9, 7, 12, 2, 10, 14, 1, 3, 8, 11, 6, 15, 13]
    [9, 15, 5, 11, 6, 8, 13, 12, 5, 12, 13, 14, 11, 8, 5, 6] x r

/-- The right line. -/
def rmdRight (x : Vector UInt32 16) (r : HashRegisters) : HashRegisters :=
  let r := rmdRound rmdJ 0x50a28be6 [5, 14, 7, 0, 9, 2, 11, 4, 13, 6, 15, 8, 1, 10, 3, 12]
    [8, 9, 9, 11, 13, 15, 15, 5, 7, 7, 8, 11, 14, 14, 12, 6] x r
  let r := rmdRound rmdI 0x5c4dd124 [6, 11, 3, 7, 0, 13, 5, 10, 14, 15, 8, 12, 4, 9, 1, 2]
    [9, 13, 15, 7, 12, 8, 9, 11, 7, 7, 12, 7, 6, 15, 13, 11] x r
  let r := rmdRound rmdH 0x6d703ef3 [15, 5, 1, 3, 7, 14, 6, 9, 11, 8, 12, 2, 10, 0, 4, 13]
    [9, 7, 15, 11, 8, 6, 6, 14, 12, 13, 5, 14, 13, 13, 7, 5] x r
  let r := rmdRound rmdG 0x7a6d76e9 [8, 6, 4, 1, 3, 11, 15, 0, 5, 12, 2, 13, 9, 7, 10, 14]
    [15, 5, 8, 11, 14, 14, 6, 14, 6, 9, 12, 9, 12, 5, 15, 8] x r
  rmdRound rmdF 0x00000000 [12, 15, 10, 4, 1, 5, 8, 7, 6, 2, 13, 14, 0, 3, 9, 11]
    [8, 5, 12, 9, 12, 5, 14, 6, 8, 13, 6, 5, 15, 13, 11, 11] x r

/-- `_RMDCompress`. -/
def RMDCompress (r : Vector UInt32 5) (x : Vector UInt32 16) : Vector UInt32 5 :=
  let left := rmdLeft x ⟨r[0], r[1], r[2], r[3], r[4]⟩
  let right := rmdRight x ⟨r[0], r[1], r[2], r[3], r[4]⟩
  #v[r[1] + left.c + right.d, r[2] + left.d + right.e, r[3] + left.e + right.a,
    r[4] + left.a + right.b, r[0] + left.b + right.c]

/-! ## MD5 -/

/-- The basic functions (`F` to `I`). -/
def md5F (x y z : UInt32) : UInt32 := z ^^^ (x &&& (y ^^^ z))
def md5G (x y z : UInt32) : UInt32 := y ^^^ (z &&& (x ^^^ y))
def md5H (x y z : UInt32) : UInt32 := x ^^^ y ^^^ z
def md5I (x y z : UInt32) : UInt32 := y ^^^ (x ||| ~~~z)

/-- The basic operation (`md5`), on the variables `a` to `d`. -/
def md5Op (f : UInt32 → UInt32 → UInt32 → UInt32) (x k s : UInt32) (v : Vector UInt32 4) :
    Vector UInt32 4 :=
  let a := v[0] + (f v[1] v[2] v[3] + le32 x + k)
  let a := rol32 a s
  #v[v[3], a + v[1], v[1], v[2]]

def kMD5 : Vector UInt32 64 :=
  #v[
    0xd76aa478, 0xe8c7b756, 0x242070db, 0xc1bdceee, 0xf57c0faf, 0x4787c62a, 0xa8304613, 0xfd469501,
    0x698098d8, 0x8b44f7af, 0xffff5bb1, 0x895cd7be, 0x6b901122, 0xfd987193, 0xa679438e, 0x49b40821,
    0xf61e2562, 0xc040b340, 0x265e5a51, 0xe9b6c7aa, 0xd62f105d, 0x02441453, 0xd8a1e681, 0xe7d3fbc8,
    0x21e1cde6, 0xc33707d6, 0xf4d50d87, 0x455a14ed, 0xa9e3e905, 0xfcefa3f8, 0x676f02d9, 0x8d2a4c8a,
    0xfffa3942, 0x8771f681, 0x6d9d6122, 0xfde5380c, 0xa4beea44, 0x4bdecfa9, 0xf6bb4b60, 0xbebfbc70,
    0x289b7ec6, 0xeaa127fa, 0xd4ef3085, 0x04881d05, 0xd9d4d039, 0xe6db99e5, 0x1fa27cf8, 0xc4ac5665,
    0xf4292244, 0x432aff97, 0xab9423a7, 0xfc93a039, 0x655b59c3, 0x8f0ccc92, 0xffeff47d, 0x85845dd1,
    0x6fa87e4f, 0xfe2ce6e0, 0xa3014314, 0x4e0811a1, 0xf7537e82, 0xbd3af235, 0x2ad7d2bb, 0xeb86d391]

def sMD5 : Vector UInt32 16 := #v[7, 12, 17, 22, 5, 9, 14, 20, 4, 11, 16, 23, 6, 10, 15, 21]

/-- The `i`-th round. -/
def md5Round (x : Vector UInt32 16) (v : Vector UInt32 4) (i : Fin 64) : Vector UInt32 4 :=
  if i < 16 then md5Op md5F x[i.val % 16] kMD5[i] sMD5[i.val % 4] v
  else if i < 32 then md5Op md5G x[(5 * i.val + 1) % 16] kMD5[i] sMD5[4 + i.val % 4] v
  else if i < 48 then md5Op md5H x[(3 * i.val + 5) % 16] kMD5[i] sMD5[8 + i.val % 4] v
  else md5Op md5I x[7 * i.val % 16] kMD5[i] sMD5[12 + i.val % 4] v

/-- `_MD5Compress`. -/
def MD5Compress (r : Vector UInt32 4) (x : Vector UInt32 16) : Vector UInt32 4 :=
  r.zipWith (· + ·) ((List.finRange 64).foldl (md5Round x) r)

end RavenWallet
