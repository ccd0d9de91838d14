/-
  Private keys encrypted with a passphrase (BRBIP38Key.c).

  `Scrypt`, the hashes and the address of a key are arbitrary functions.  The
  writer makes keys that are not EC multiplied; the reader reads both kinds.

  * `halves_encrypt`: the two encrypted halves of a secret;
  * `setBIP38Key_bip38Key`: the record that is written is valid and read back.
-/
import Mathlib.Algebra.Group.PUnit
import RavenWallet.Core.AssetScripts
import RavenWallet.Crypto.AES
import RavenWallet.Keys.PrivKey
import RavenWallet.Keys.Sequence

namespace RavenWallet

def BIP38_NOEC_PREFIX : ℕ := 0x0142
def BIP38_EC_PREFIX : ℕ := 0x0143
def BIP38_NOEC_FLAG : UInt8 := 0x80 ||| 0x40
def BIP38_COMPRESSED_FLAG : UInt8 := 0x20
def BIP38_LOTSEQUENCE_FLAG : UInt8 := 0x04
def BIP38_INVALID_FLAG : UInt8 := 0x10 ||| 0x08 ||| 0x02 ||| 0x01
def BIP38_SCRYPT_N : ℕ := 16384
def BIP38_SCRYPT_R : ℕ := 8
def BIP38_SCRYPT_P : ℕ := 8
def BIP38_SCRYPT_EC_N : ℕ := 1024
def BIP38_SCRYPT_EC_R : ℕ := 1
def BIP38_SCRYPT_EC_P : ℕ := 1

/-- `Scrypt`: the number of bytes it derives, the password, the salt and the parameters. -/
structure ScryptFunction where
  derive : ℕ → Bytes → Bytes → ℕ → ℕ → ℕ → Bytes
  length_derive : ∀ dkLen pw salt n r p, (derive dkLen pw salt n r p).length = dkLen

def xorBytes (a b : Bytes) : Bytes := List.zipWith (· ^^^ ·) a b

/-- The `n` bytes at `data[off]`. -/
def bytesFrom (data : Bytes) (off n : ℕ) : Bytes := (data.drop off).take n

/-- What `BRSecp256k1ModMul` leaves in `a`. -/
def Secp256k1.modMul {Point : Type} [AddCommGroup Point] (S : Secp256k1 Point) (a b : Bytes) :
    Bytes :=
  if 0 < ofBE b ∧ ofBE b < S.n then toBE 32 (ofBE a * ofBE b % S.n) else List.replicate 32 0

section
variable (H : Hashes)

/-- `BRBIP38KeyIsValid`. -/
def bip38KeyIsValid (bip38Key : Bytes) : Bool :=
  let data := base58CheckDecode H 39 bip38Key
  let flag := data.getD 2 0
  if data.length ≠ 39 then false
  else if ofBE (data.take 2) = BIP38_NOEC_PREFIX then
    flag &&& BIP38_NOEC_FLAG = BIP38_NOEC_FLAG ∧ flag &&& BIP38_LOTSEQUENCE_FLAG = 0 ∧
      flag &&& BIP38_INVALID_FLAG = 0
  else if ofBE (data.take 2) = BIP38_EC_PREFIX then
    flag &&& BIP38_NOEC_FLAG = 0 ∧ flag &&& BIP38_INVALID_FLAG = 0
  else false

variable (scrypt : ScryptFunction)

/-! ## EC multiplied keys -/

/-- `_BIP38DerivePassfactor`. -/
def bip38DerivePassfactor (flag : UInt8) (entropy passphrase : Bytes) : Bytes :=
  let lot := flag &&& BIP38_LOTSEQUENCE_FLAG ≠ 0
  let prefactor := scrypt.derive 32 passphrase (entropy.take (if lot then 4 else 8))
    BIP38_SCRYPT_N BIP38_SCRYPT_R BIP38_SCRYPT_P
  if lot then H.sha256_2 (prefactor ++ entropy.take 8) else prefactor

/-- `_BIP38DeriveKey`. -/
def bip38DeriveKey (passpoint addresshash entropy : Bytes) : Bytes :=
  scrypt.derive 64 passpoint (addresshash.take 4 ++ entropy.take 8)
    BIP38_SCRYPT_EC_N BIP38_SCRYPT_EC_R BIP38_SCRYPT_EC_P

variable {Point : Type} [AddCommGroup Point] (S : Secp256k1 Point)

/-- The secret of an EC multiplied key; none if `passpoint` is not initialised. -/
def bip38EcSecret (data passphrase : Bytes) : Option Bytes := do
  let entropy := bytesFrom data 7 8
  let passfactor := bip38DerivePassfactor H scrypt (data.getD 2 0) entropy passphrase
  let passpoint ← S.pointGen passfactor
  let derived := bip38DeriveKey scrypt passpoint (bytesFrom data 3 4) entropy
  let derived1 := derived.take 32
  let derived2 := derived.drop 32
  let encrypted2 := AES256ECBDecrypt derived2 (bytesFrom data 23 16)
  let encrypted1 := bytesFrom data 15 8 ++ xorBytes (encrypted2.take 8) (bytesFrom derived1 16 8)
  let seedb2 := xorBytes (encrypted2.drop 8) (bytesFrom derived1 24 8)
  let seedb := xorBytes (AES256ECBDecrypt derived2 encrypted1) (derived1.take 16) ++ seedb2
  some (S.modMul passfactor (H.sha256_2 seedb))

/-! ## Reading and writing -/

/-- The secret of a key that is not EC multiplied. -/
def bip38Secret (data passphrase : Bytes) : Bytes :=
  let derived := scrypt.derive 64 passphrase (bytesFrom data 3 4)
    BIP38_SCRYPT_N BIP38_SCRYPT_R BIP38_SCRYPT_P
  let derived1 := derived.take 32
  let derived2 := derived.drop 32
  xorBytes (AES256ECBDecrypt derived2 (bytesFrom data 7 16)) (derived1.take 16) ++
    xorBytes (AES256ECBDecrypt derived2 (bytesFrom data 23 16)) (derived1.drop 16)

-- `BRKeyAddress` of a secret, with a compressed public key or not; empty if it writes nothing
variable (address : Bytes → Bool → Bytes)

namespace SecretKey

/-- `BRKeySetBIP38Key`; none if the secret is not initialised. -/
def setBIP38Key (key : SecretKey) (bip38Key passphrase : Bytes) : Option (SecretKey × Bool) :=
  let data := base58CheckDecode H 39 bip38Key
  if data.length ≠ 39 then some (key, false)
  else do
    let secret ←
      if ofBE (data.take 2) = BIP38_NOEC_PREFIX then some (bip38Secret scrypt data passphrase)
      else if ofBE (data.take 2) = BIP38_EC_PREFIX then bip38EcSecret H scrypt S data passphrase
      else none
    let compressed := (data.getD 2 0 &&& BIP38_COMPRESSED_FLAG).toNat
    let addr := address secret (compressed ≠ 0)
    some ((setSecret secret compressed).1,
      addr ≠ [] ∧ (H.sha256_2 addr).take 4 = bytesFrom data 3 4)

/-- What `BRKeyBIP38Key` returns for `NULL`. -/
def bip38KeySize : ℕ := 43 * 138 / 100 + 2

/-- The record that is written for a key. -/
def bip38Record (key : SecretKey) (passphrase : Bytes) : Bytes :=
  let flag := BIP38_NOEC_FLAG ||| if key.compressed ≠ 0 then BIP38_COMPRESSED_FLAG else 0
  let salt := (H.sha256_2 (address key.secret (key.compressed ≠ 0))).take 4
  let derived := scrypt.derive 64 passphrase salt BIP38_SCRYPT_N BIP38_SCRYPT_R BIP38_SCRYPT_P
  let derived1 := derived.take 32
  let derived2 := derived.drop 32
  let encrypted1 :=
    AES256ECBEncrypt derived2 (xorBytes (key.secret.take 16) (derived1.take 16))
  let encrypted2 :=
    AES256ECBEncrypt derived2 (xorBytes (key.secret.drop 16) (derived1.drop 16))
  toBE 2 BIP38_NOEC_PREFIX ++ flag :: (salt ++ encrypted1 ++ encrypted2)

/-- `BRKeyBIP38Key`; none if the address is not initialised. -/
def bip38Key (key : SecretKey) (bip38KeyLen : ℕ) (passphrase : Bytes) : Option Bytes :=
  if address key.secret (key.compressed ≠ 0) = [] then none
  else some (base58CheckEncode H bip38KeyLen (key.bip38Record H scrypt address passphrase))

end SecretKey

end

/-! ## Round trip -/

theorem xorBytes_xorBytes {a b : Bytes} (h : a.length ≤ b.length) :
    xorBytes (xorBytes a b) b = a := by
  induction a generalizing b with
  | nil => simp [xorBytes]
  | cons x a ih =>
    cases b with
    | nil => exact absurd h (Nat.not_succ_le_zero _)
    | cons y b =>
      have hxy : x ^^^ y ^^^ y = x := by rw [UInt8.xor_assoc, UInt8.xor_self, UInt8.xor_zero]
      show (x ^^^ y ^^^ y) :: xorBytes (xorBytes a b) b = _
      rw [hxy, ih (Nat.succ_le_succ_iff.1 h)]

theorem length_xorBytes (a b : Bytes) : (xorBytes a b).length = min a.length b.length :=
  List.length_zipWith

theorem bytesFrom_append {a b c : Bytes} {off n : ℕ} (ha : a.length = off) (hb : b.length = n) :
    bytesFrom (a ++ b ++ c) off n = b := by
  rw [bytesFrom, ← ha, ← hb, List.append_assoc, List.drop_left, List.take_left]

section
variable {H : Hashes} {scrypt : ScryptFunction} {address : Bytes → Bool → Bytes}
  {key : SecretKey} {passphrase : Bytes}

/-- The fields of a record. -/
structure IsRecord (data : Bytes) (flag : UInt8) (salt encrypted1 encrypted2 : Bytes) : Prop where
  eq : data = toBE 2 BIP38_NOEC_PREFIX ++ flag :: (salt ++ encrypted1 ++ encrypted2)
  salt : salt.length = 4
  encrypted1 : encrypted1.length = 16
  encrypted2 : encrypted2.length = 16

namespace IsRecord
variable {data : Bytes} {flag : UInt8} {salt encrypted1 encrypted2 : Bytes}
  (h : IsRecord data flag salt encrypted1 encrypted2)
include h

theorem eq_cons : data = 1 :: 66 :: flag :: (salt ++ encrypted1 ++ encrypted2) := h.eq

theorem length : data.length = 39 := by
  rw [h.eq_cons]
  simp [h.salt, h.encrypted1, h.encrypted2]

theorem saltField : bytesFrom data 3 4 = salt := by
  have happend : data = [1, 66, flag] ++ salt ++ (encrypted1 ++ encrypted2) := by
    rw [h.eq_cons]
    simp
  rw [happend]
  exact bytesFrom_append rfl h.salt

theorem encrypted1Field : bytesFrom data 7 16 = encrypted1 := by
  have happend : data = ([1, 66, flag] ++ salt) ++ encrypted1 ++ encrypted2 := by
    rw [h.eq_cons]
    simp
  rw [happend, bytesFrom_append (by simp [h.salt]) h.encrypted1]

theorem encrypted2Field : bytesFrom data 23 16 = encrypted2 := by
  have happend : data = ([1, 66, flag] ++ salt ++ encrypted1) ++ encrypted2 ++ [] := by
    rw [h.eq_cons]
    simp
  rw [happend, bytesFrom_append (by simp [h.salt, h.encrypted1]) h.encrypted2]

/-- A record is encoded into a buffer of the announced size, and decoded again. -/
theorem decode (m : ℕ) :
    base58CheckDecode H 39 (base58CheckEncode H (SecretKey.bip38KeySize + m) data) = data := by
  have hlen := h.length
  rw [h.eq_cons] at hlen ⊢
  rw [List.length_cons] at hlen
  refine base58CheckDecode_encode H (by decide) (by rw [List.length_cons]; omega) ?_
  rw [SecretKey.bip38KeySize]
  omega

end IsRecord

/-- Decrypting the halves of a secret that was encrypted by halves. -/
theorem halves_encrypt (derived1 derived2 : Bytes) {secret : Bytes} (h1 : derived1.length = 32)
    (hsecret : secret.length = 32) :
    xorBytes (AES256ECBDecrypt derived2 (AES256ECBEncrypt derived2
        (xorBytes (secret.take 16) (derived1.take 16)))) (derived1.take 16) ++
      xorBytes (AES256ECBDecrypt derived2 (AES256ECBEncrypt derived2
        (xorBytes (secret.drop 16) (derived1.drop 16)))) (derived1.drop 16) = secret := by
  have htake : (xorBytes (secret.take 16) (derived1.take 16)).length = 16 := by
    rw [length_xorBytes, List.length_take, List.length_take]
    omega
  have hdrop : (xorBytes (secret.drop 16) (derived1.drop 16)).length = 16 := by
    rw [length_xorBytes, List.length_drop, List.length_drop]
    omega
  rw [AES256ECBDecrypt_encrypt derived2 htake, AES256ECBDecrypt_encrypt derived2 hdrop,
    xorBytes_xorBytes (by simp [h1, hsecret]), xorBytes_xorBytes (by simp [h1, hsecret]),
    List.take_append_drop]

/-- The flag of a record, as the reader checks it. -/
theorem recordFlag (compressed : ℕ) :
    let flag := BIP38_NOEC_FLAG ||| if compressed ≠ 0 then BIP38_COMPRESSED_FLAG else 0
    (flag &&& BIP38_NOEC_FLAG = BIP38_NOEC_FLAG ∧ flag &&& BIP38_LOTSEQUENCE_FLAG = 0 ∧
      flag &&& BIP38_INVALID_FLAG = 0) ∧
      (flag &&& BIP38_COMPRESSED_FLAG).toNat = if compressed ≠ 0 then 32 else 0 := by
  by_cases h : compressed ≠ 0
  · simp only [if_pos h]
    decide
  · simp only [if_neg h]
    decide

variable {Point : Type} [AddCommGroup Point] {S : Secp256k1 Point}

variable (H scrypt S passphrase) in
/-- A key that is written with a passphrase is valid, and read back with the passphrase. -/
theorem setBIP38Key_bip38Key (hsecret : key.secret.length = 32)
    (haddress : address key.secret (key.compressed ≠ 0) ≠ []) (m : ℕ) :
    ∃ str, key.bip38Key H scrypt address (SecretKey.bip38KeySize + m) passphrase = some str ∧
      bip38KeyIsValid H str = true ∧
      ∀ old : SecretKey, old.setBIP38Key H scrypt S address str passphrase =
        some (⟨key.secret, if key.compressed ≠ 0 then 32 else 0⟩, true) := by
  obtain ⟨hflag, hcompressed⟩ := recordFlag key.compressed
  set data := key.bip38Record H scrypt address passphrase with hdata
  set addr := address key.secret (key.compressed ≠ 0) with haddr
  set derived := scrypt.derive 64 passphrase ((H.sha256_2 addr).take 4) BIP38_SCRYPT_N
    BIP38_SCRYPT_R BIP38_SCRYPT_P with hderived
  set flag := BIP38_NOEC_FLAG ||| if key.compressed ≠ 0 then BIP38_COMPRESSED_FLAG else 0
  have hrecord : IsRecord data flag ((H.sha256_2 addr).take 4)
      (AES256ECBEncrypt (derived.drop 32)
        (xorBytes (key.secret.take 16) ((derived.take 32).take 16)))
      (AES256ECBEncrypt (derived.drop 32)
        (xorBytes (key.secret.drop 16) ((derived.take 32).drop 16))) :=
    ⟨rfl, List.length_take_of_le (by rw [H.length_sha256_2]; decide),
      length_AES256ECBEncrypt _ _, length_AES256ECBEncrypt _ _⟩
  have hdecode := hrecord.decode (H := H) m
  have hprefix : ofBE (data.take 2) = BIP38_NOEC_PREFIX := by
    rw [hrecord.eq_cons]
    rfl
  have hget : data.getD 2 0 = flag := by
    rw [hrecord.eq_cons]
    rfl
  have hread : bip38Secret scrypt data passphrase = key.secret := by
    have hlen : derived.length = 64 := scrypt.length_derive _ _ _ _ _ _
    have hhalves := halves_encrypt (derived.take 32) (derived.drop 32)
      (List.length_take_of_le (by rw [hlen]; decide)) hsecret
    rw [bip38Secret, hrecord.saltField, hrecord.encrypted1Field, hrecord.encrypted2Field]
    exact hhalves
  refine ⟨base58CheckEncode H (SecretKey.bip38KeySize + m) data, ?_, ?_, fun old => ?_⟩
  · rw [SecretKey.bip38Key, if_neg haddress]
  · rw [bip38KeyIsValid, hdecode, hget, if_neg (by rw [hrecord.length]; decide), if_pos hprefix]
    exact decide_eq_true hflag
  · rw [SecretKey.setBIP38Key, hdecode, if_neg (by rw [hrecord.length]; decide), if_pos hprefix,
      hget, hread, hrecord.saltField, hcompressed]
    have hbool : decide ((if key.compressed ≠ 0 then 32 else 0) ≠ 0) =
        decide (key.compressed ≠ 0) := by
      by_cases hc : key.compressed ≠ 0
      · rw [if_pos hc, decide_eq_true hc]
        rfl
      · rw [if_neg hc, decide_eq_false hc]
        rfl
    show some (_, _) = _
    rw [hbool, ← haddr, decide_eq_true ⟨haddress, rfl⟩]
    rfl

/-- A key that is written with a passphrase is valid, and read back with the passphrase as the same
    secret, compressed or not as before; and a decryption undoes an encryption for every key. -/
theorem bip38_roundTrip (hsecret : key.secret.length = 32)
    (haddress : address key.secret (key.compressed ≠ 0) ≠ []) :
    (∀ m passphrase, ∃ str,
      key.bip38Key H scrypt address (SecretKey.bip38KeySize + m) passphrase = some str ∧
      bip38KeyIsValid H str = true ∧
      ∀ old : SecretKey, ∃ compressed, old.setBIP38Key H scrypt S address str passphrase =
        some (⟨key.secret, compressed⟩, true) ∧ (compressed ≠ 0 ↔ key.compressed ≠ 0)) ∧
    ∀ key32 buf16 : Bytes, key32.length = 32 → buf16.length = 16 →
      AES256ECBDecrypt key32 (AES256ECBEncrypt key32 buf16) = buf16 := by
  refine ⟨fun m passphrase => ?_, fun key32 buf16 _ => AES256ECBDecrypt_encrypt key32⟩
  obtain ⟨str, hstr, hvalid, hset⟩ :=
    setBIP38Key_bip38Key H scrypt passphrase S hsecret haddress m
  refine ⟨str, hstr, hvalid, fun old => ⟨_, hset old, ?_⟩⟩
  split_ifs with hc <;> simp [hc]

end

def sampleScrypt : ScryptFunction where
  derive dkLen pw salt _ _ _ := toBE dkLen (ofBE (pw ++ salt))
  length_derive _ _ _ _ _ _ := length_toBE _ _

/-- The group of one point. -/
def sampleGroup : Secp256k1 Unit where
  G := 0
  n := 1
  serialize _ := List.replicate 33 2
  parse _ := some ()
  addOrderOf_G := addOrderOf_zero
  n_le := by decide
  parse_serialize _ _ := rfl

theorem bip38_roundTrip_sample :
    (∀ m passphrase, ∃ str, SecretKey.bip38Key sampleHashes sampleScrypt (fun _ _ => [82])
        ⟨toBE 32 7, 1⟩ (SecretKey.bip38KeySize + m) passphrase = some str ∧
      bip38KeyIsValid sampleHashes str = true ∧
      ∀ old : SecretKey, ∃ compressed, old.setBIP38Key sampleHashes sampleScrypt sampleGroup
        (fun _ _ => [82]) str passphrase = some (⟨toBE 32 7, compressed⟩, true) ∧
          (compressed ≠ 0 ↔ 1 ≠ 0)) ∧
    ∀ key32 buf16 : Bytes, key32.length = 32 → buf16.length = 16 →
      AES256ECBDecrypt key32 (AES256ECBEncrypt key32 buf16) = buf16 :=
  bip38_roundTrip (by decide) (by decide)

end RavenWallet
