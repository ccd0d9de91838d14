/-
  Keys and random bytes that are derived with a hash function, as they are specified.

  `H` is any hash function with blocks of `blockLen` bytes and digests of `hashLen`
  bytes, `prf` any function that gives `hashLen` bytes, and `core` any function on
  blocks of 64 bytes.

  * `hmac`: a keyed hash;
  * `Drbg`: the generator of random bytes from `hmac`, whose state is updated after each
    request;
  * `pbkdf2`: a key from a password, by many rounds of `prf`;
  * `scrypt`: a key from a password, by a walk through a large table.
-/
import RavenWallet.Lib.Pieces

namespace RavenWallet

/-! ## Keyed hashes -/

section
variable (H : List UInt8 → List UInt8) (blockLen : ℕ)

/-- The key as a block: a longer one is hashed, and zeros follow. -/
def hmacKey (key : List UInt8) : List UInt8 :=
  let key := if blockLen < key.length then H key else key
  key ++ List.replicate (blockLen - key.length) 0

/-- `H((key xor opad) ‖ H((key xor ipad) ‖ data))` -/
def hmac (key data : List UInt8) : List UInt8 :=
  H ((hmacKey H blockLen key).map (· ^^^ 0x5c) ++
    H ((hmacKey H blockLen key).map (· ^^^ 0x36) ++ data))

variable {H blockLen} {hashLen : ℕ}

theorem length_hmacKey (hH : ∀ data, (H data).length = hashLen) (hle : hashLen ≤ blockLen)
    (key : List UInt8) : (hmacKey H blockLen key).length = blockLen := by
  rw [hmacKey, List.length_append, List.length_replicate]
  split_ifs
  · rw [hH]
    omega
  · omega

theorem length_hmac (hH : ∀ data, (H data).length = hashLen) (key data : List UInt8) :
    (hmac H blockLen key data).length = hashLen := hH _

end

/-! ## Random bytes -/

/-- The state of a generator, without its counter. -/
structure Drbg where
  K : List UInt8
  V : List UInt8

namespace Drbg

variable (mac : List UInt8 → List UInt8 → List UInt8) (hashLen : ℕ)

/-- Mixes data into the state; without data there is one round only. -/
def update (s : Drbg) (provided : List UInt8) : Drbg :=
  let K := mac s.K (s.V ++ 0x00 :: provided)
  let V := mac K s.V
  if provided = [] then ⟨K, V⟩
  else
    let K := mac K (V ++ 0x01 :: provided)
    ⟨K, mac K V⟩

def instantiate (material : List UInt8) : Drbg :=
  update mac ⟨List.replicate hashLen 0x00, List.replicate hashLen 0x01⟩ material

/-- The state after `i` blocks of a request. -/
def block (s : Drbg) (i : ℕ) : Drbg := { s with V := (mac s.K)^[i] s.V }

/-- A request for `n` bytes: as many blocks as it takes, and then an update. -/
def generate (s : Drbg) (n : ℕ) : List UInt8 × Drbg :=
  let blocks := (n + hashLen - 1) / hashLen
  (((List.range blocks).flatMap fun i => (s.block mac (i + 1)).V).take n,
    (s.block mac blocks).update mac [])

/-- The answers to some requests, one after the other. -/
def requests (s : Drbg) : List ℕ → List (List UInt8)
  | [] => []
  | n :: ns => (s.generate mac hashLen n).1 :: requests (s.generate mac hashLen n).2 ns

end Drbg

/-! ## Keys from passwords -/

section
variable (prf : List UInt8 → List UInt8) (hashLen : ℕ)

/-- The exclusive or of `u` and what `prf` makes of it in the next rounds. -/
def pbkdf2Sum (u : List UInt8) : ℕ → List UInt8
  | 0 => u
  | c + 1 => xorEach (pbkdf2Sum u c) (prf^[c + 1] u)

/-- The block with the number `i`, from 1 on, of `c` rounds. -/
def pbkdf2Block (salt : List UInt8) (c i : ℕ) : List UInt8 :=
  pbkdf2Sum prf (prf (salt ++ toBE 4 i)) (c - 1)

def pbkdf2 (salt : List UInt8) (c n : ℕ) : List UInt8 :=
  ((List.range ((n + hashLen - 1) / hashLen)).flatMap fun i =>
    pbkdf2Block prf salt c (i + 1)).take n

end

section
variable (core : List UInt8 → List UInt8) (r N : ℕ)

/-- The piece with the number `i` of `size` bytes. -/
def pieceAt (size : ℕ) (bytes : List UInt8) (i : ℕ) : List UInt8 :=
  (bytes.drop (i * size)).take size

/-- What is left after `i` of the `2 * r` blocks: each is added, and mixed by `core`. -/
def chained (bytes : List UInt8) : ℕ → List UInt8
  | 0 => pieceAt 64 bytes (2 * r - 1)
  | i + 1 => core (xorEach (chained bytes i) (pieceAt 64 bytes i))

/-- The even blocks before the odd ones. -/
def blockMix (bytes : List UInt8) : List UInt8 :=
  ((List.range r).flatMap fun k => chained core r bytes (2 * k + 1)) ++
    (List.range r).flatMap fun k => chained core r bytes (2 * k + 2)

/-- One step through the table of `bytes` with its `N` mixtures: the last block says where. -/
def tableStep (bytes x : List UInt8) : List UInt8 :=
  blockMix core r (xorEach x
    ((blockMix core r)^[ofLE (pieceAt 64 x (2 * r - 1)) % N] bytes))

def roMix (bytes : List UInt8) : List UInt8 :=
  (tableStep core r N bytes)^[N] ((blockMix core r)^[N] bytes)

def scrypt (prf : List UInt8 → List UInt8) (hashLen p : ℕ) (salt : List UInt8) (n : ℕ) :
    List UInt8 :=
  let bytes := pbkdf2 prf hashLen salt 1 (128 * r * p)
  pbkdf2 prf hashLen
    ((List.range p).flatMap fun i => roMix core r N (pieceAt (128 * r) bytes i)) 1 n

end

/-! ## Lengths -/

theorem length_flatMap_range {f : ℕ → List UInt8} {n size : ℕ} (hf : ∀ i < n, (f i).length = size) :
    ((List.range n).flatMap f).length = n * size := by
  induction n with
  | zero => simp
  | succ n ih =>
    rw [List.range_succ, List.flatMap_append, List.length_append,
      ih fun i hi => hf i (hi.trans n.lt_succ_self), List.flatMap_singleton, hf n n.lt_succ_self,
      Nat.succ_mul]

section
variable {prf : List UInt8 → List UInt8} {hashLen : ℕ}

theorem length_pbkdf2Sum (hprf : ∀ data, (prf data).length = hashLen) {u : List UInt8}
    (hu : u.length = hashLen) (c : ℕ) : (pbkdf2Sum prf u c).length = hashLen := by
  induction c with
  | zero => exact hu
  | succ c ih =>
    rw [pbkdf2Sum, length_xorEach, ih, Function.iterate_succ_apply', hprf, Nat.min_self]

theorem length_pbkdf2Block (hprf : ∀ data, (prf data).length = hashLen) (salt : List UInt8)
    (c i : ℕ) : (pbkdf2Block prf salt c i).length = hashLen := length_pbkdf2Sum hprf (hprf _) _

theorem le_length_pbkdf2Blocks (hpos : 0 < hashLen) (hprf : ∀ data, (prf data).length = hashLen)
    (salt : List UInt8) (c n : ℕ) :
    n ≤ ((List.range ((n + hashLen - 1) / hashLen)).flatMap fun i =>
      pbkdf2Block prf salt c (i + 1)).length := by
  rw [length_flatMap_range fun i _ => length_pbkdf2Block hprf salt c _]
  exact Nat.not_lt.1 fun hlt => Nat.lt_irrefl _ ((mul_lt_iff_lt_pieces hpos).1 hlt)

theorem length_pbkdf2 (hpos : 0 < hashLen) (hprf : ∀ data, (prf data).length = hashLen)
    (salt : List UInt8) (c n : ℕ) : (pbkdf2 prf hashLen salt c n).length = n :=
  List.length_take_of_le (le_length_pbkdf2Blocks hpos hprf salt c n)

end

end RavenWallet
