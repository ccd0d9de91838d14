/-
  Hierarchical keys (BRBIP44Sequence.c, BRKey.c).

  secp256k1 is a group with a generator of order `n`, and `HMAC` with SHA512 an
  arbitrary function; scalars, points and chain codes are the bytes the code
  passes around.  A child key is derived by adding a tweak: to the secret, or
  the tweak's multiple of the generator to the public key.

  * `ValidPath.cons`, `ValidPath.CKDpub_pub`: one level of a derivation whose
    tweak is valid, on the private and on the public side;
  * `pubKey_of_privKeyList`: the public keys derived from the master public key
    of an account are those of the private keys derived from the seed.
-/
import Mathlib.Data.Nat.Bitwise
import Mathlib.GroupTheory.OrderOfElement
import RavenWallet.Core.Script

namespace RavenWallet

def BIP32_HARD : UInt32 := 0x80000000
def BIP44_PURPOSE : UInt32 := 44

def SEQUENCE_EXTERNAL_CHAIN : UInt32 := 0
def SEQUENCE_INTERNAL_CHAIN : UInt32 := 1

/-- "Bitcoin seed". -/
def BIP32_SEED_KEY : Bytes := [66, 105, 116, 99, 111, 105, 110, 32, 115, 101, 101, 100]

/-- The group of secp256k1, and its points as bytes. -/
structure Secp256k1 (Point : Type) [AddCommGroup Point] where
  G : Point
  n : ℕ
  /-- `secp256k1_ec_pubkey_serialize`, compressed -/
  serialize : Point → Bytes
  /-- `secp256k1_ec_pubkey_parse` -/
  parse : Bytes → Option Point
  addOrderOf_G : addOrderOf G = n
  n_le : n ≤ 2 ^ 256
  parse_serialize : ∀ P, P ≠ 0 → parse (serialize P) = some P

namespace Secp256k1

variable {Point : Type} [AddCommGroup Point] (S : Secp256k1 Point)

/-- `secp256k1_ec_pubkey_create`. -/
def pubkeyCreate (seckey : Bytes) : Option Point :=
  if 0 < ofBE seckey ∧ ofBE seckey < S.n then some (ofBE seckey • S.G) else none

/-- What `BRSecp256k1ModAdd` leaves in `a`. -/
def modAdd (a b : Bytes) : Bytes :=
  if ofBE b < S.n ∧ (ofBE a + ofBE b) % S.n ≠ 0 then toBE 32 ((ofBE a + ofBE b) % S.n)
  else List.replicate 32 0

/-- What `BRSecp256k1PointGen` writes, if it writes anything. -/
def pointGen (i : Bytes) : Option Bytes := (S.pubkeyCreate i).map S.serialize

/-- What `BRSecp256k1PointAdd` leaves in `p`. -/
def pointAdd [DecidableEq Point] (p i : Bytes) : Bytes :=
  match S.parse p with
  | none => p
  | some P =>
    if ofBE i < S.n ∧ P + ofBE i • S.G ≠ 0 then S.serialize (P + ofBE i • S.G) else p

variable (hmac : Bytes → Bytes → Bytes)

/-- The bytes that `_CKDpriv` hashes; none if some of them are not initialised. -/
def privData (k : Bytes) (i : UInt32) : Option Bytes :=
  (if i &&& BIP32_HARD ≠ 0 then some (0 :: k) else S.pointGen k).map (· ++ toBE 4 i.toNat)

/-- `_CKDpriv`: the key and the chain code of the child. -/
def CKDpriv (k c : Bytes) (i : UInt32) : Option (Bytes × Bytes) := do
  let buf ← S.privData k i
  let I := hmac c buf
  some (S.modAdd k (I.take 32), I.drop 32)

/-- `_CKDpub`. -/
def CKDpub [DecidableEq Point] (K c : Bytes) (i : UInt32) : Bytes × Bytes :=
  if i &&& BIP32_HARD ≠ BIP32_HARD then
    let I := hmac c (K ++ toBE 4 i.toNat)
    (S.pointAdd K (I.take 32), I.drop 32)
  else (K, c)

end Secp256k1

/-! ## Keys -/

/-- A `BRKey` of a compressed public key, which is `none` while its bytes are zero. -/
structure BRKey where
  secret : Bytes := List.replicate 32 0
  pubKey : Option Bytes := none

namespace BRKey

/-- `BRKeySetSecret`. -/
def setSecret (secret : Bytes) : BRKey := { secret }

variable {Point : Type} [AddCommGroup Point] (S : Secp256k1 Point) (H : Hashes)
  (key : BRKey)

/-- `BRKeySetPubKey`; fails unless the bytes are a point. -/
def setPubKey (pubKey : Bytes) : Option BRKey :=
  (S.parse pubKey).map fun _ => { pubKey := some pubKey }

/-- `BRKeyPubKey`. -/
def getPubKey : Option Bytes := key.pubKey <|> S.pointGen key.secret

/-- `BRKeyHash160`. -/
def hash160 : Bytes :=
  match key.getPubKey S with
  | none => List.replicate 20 0
  | some pubKey => if (S.parse pubKey).isSome then H.hash160 pubKey else List.replicate 20 0

/-- `BRKeyAddress`; `none` if it writes nothing. -/
def address : Option BRAddress :=
  if key.hash160 S H = List.replicate 20 0 then none
  else some (base58CheckEncode H ADDRESS_SIZE (RAVENCOIN_PUBKEY_ADDRESS :: key.hash160 S H))

end BRKey

/-! ## Sequences of keys -/

structure BRMasterPubKey where
  fingerPrint : Bytes
  chainCode : Bytes
  pubKey : Bytes
  deriving DecidableEq

section
variable {Point : Type} [AddCommGroup Point] (S : Secp256k1 Point) (H : Hashes)
  (hmac : Bytes → Bytes → Bytes)

/-- The key and the chain code of the path m. -/
def masterKey (seed : Bytes) : Bytes × Bytes :=
  ((hmac BIP32_SEED_KEY seed).take 32, (hmac BIP32_SEED_KEY seed).drop 32)

/-- `BRBIP44MasterPubKey`. -/
def BIP44MasterPubKey (seed : Bytes) (coinType account : UInt32) : Option BRMasterPubKey := do
  let (secret, chain) := masterKey hmac seed
  let fingerPrint := ((BRKey.setSecret secret).hash160 S H).take 4
  let (secret, chain) ← S.CKDpriv hmac secret chain (BIP44_PURPOSE ||| BIP32_HARD)
  let (secret, chain) ← S.CKDpriv hmac secret chain (coinType ||| BIP32_HARD)
  let (secret, chain) ← S.CKDpriv hmac secret chain (account ||| BIP32_HARD)
  let pubKey := ((BRKey.setSecret secret).getPubKey S).getD (List.replicate 33 0)
  some { fingerPrint, chainCode := chain, pubKey }

/-- The public key that `BRBIP32PubKey` writes. -/
def BIP32PubKey [DecidableEq Point] (mpk : BRMasterPubKey) (chain index : UInt32) : Bytes :=
  let (pubKey, chainCode) := S.CKDpub hmac mpk.pubKey mpk.chainCode chain
  (S.CKDpub hmac pubKey chainCode index).1

/-- `BRBIP44PrivKeyList`. -/
def BIP44PrivKeyList (seed : Bytes) (coinType account chain : UInt32) (indexes : List UInt32) :
    Option (List BRKey) := do
  let (secret, chainCode) := masterKey hmac seed
  let (secret, chainCode) ← S.CKDpriv hmac secret chainCode (BIP44_PURPOSE ||| BIP32_HARD)
  let (secret, chainCode) ← S.CKDpriv hmac secret chainCode (coinType ||| BIP32_HARD)
  let (secret, chainCode) ← S.CKDpriv hmac secret chainCode (account ||| BIP32_HARD)
  indexes.mapM fun index => do
    let (s, c) ← S.CKDpriv hmac secret chainCode chain
    let (s, _) ← S.CKDpriv hmac s c index
    some (.setSecret s)

end

/-! ## One level -/

namespace Secp256k1

variable {Point : Type} [AddCommGroup Point] (S : Secp256k1 Point)
  (hmac : Bytes → Bytes → Bytes) {k c t : Bytes} {i : UInt32} {path : List UInt32}

/-- A secret that has a public key. -/
def IsKey (k : Bytes) : Prop := 0 < ofBE k ∧ ofBE k < S.n

/-- The public key of a secret. -/
def pub (k : Bytes) : Bytes := S.serialize (ofBE k • S.G)

/-- The tweak `t` turns the secret `k` into a secret. -/
def ValidTweak (k t : Bytes) : Prop := ofBE t < S.n ∧ (ofBE k + ofBE t) % S.n ≠ 0

/-- Every tweak met on the path from `k` is valid. -/
def ValidPath : Bytes → Bytes → List UInt32 → Prop
  | _, _, [] => True
  | k, c, i :: path => ∀ buf, S.privData k i = some buf →
    S.ValidTweak k ((hmac c buf).take 32) ∧
      ValidPath (S.modAdd k ((hmac c buf).take 32)) ((hmac c buf).drop 32) path

variable {S hmac}

theorem ValidTweak.ofBE_modAdd (h : S.ValidTweak k t) :
    ofBE (S.modAdd k t) = (ofBE k + ofBE t) % S.n := by
  have hlt : (ofBE k + ofBE t) % S.n < S.n := Nat.mod_lt _ (Nat.zero_lt_of_lt h.1)
  rw [modAdd, if_pos ⟨h.1, h.2⟩, ofBE_toBE]
  calc (ofBE k + ofBE t) % S.n < S.n := hlt
    _ ≤ 2 ^ 256 := S.n_le
    _ = 256 ^ 32 := by norm_num

theorem ValidTweak.isKey (h : S.ValidTweak k t) : S.IsKey (S.modAdd k t) := by
  rw [IsKey, h.ofBE_modAdd]
  exact ⟨Nat.pos_of_ne_zero h.2, Nat.mod_lt _ (Nat.zero_lt_of_lt h.1)⟩

/-- Adding scalars adds points. -/
theorem ValidTweak.smul_modAdd (h : S.ValidTweak k t) :
    ofBE (S.modAdd k t) • S.G = ofBE k • S.G + ofBE t • S.G := by
  rw [h.ofBE_modAdd, ← S.addOrderOf_G, mod_addOrderOf_nsmul, add_nsmul]

theorem IsKey.smul_ne_zero (h : S.IsKey k) : ofBE k • S.G ≠ 0 :=
  nsmul_ne_zero_of_lt_addOrderOf h.1.ne' (S.addOrderOf_G.symm ▸ h.2)

theorem IsKey.pointGen (h : S.IsKey k) : S.pointGen k = some (S.pub k) := by
  rw [Secp256k1.pointGen, pubkeyCreate, if_pos ⟨h.1, h.2⟩]
  rfl

theorem IsKey.parse_pub (h : S.IsKey k) : S.parse (S.pub k) = some (ofBE k • S.G) :=
  S.parse_serialize _ h.smul_ne_zero

/-- The tweaked public key is that of the tweaked secret. -/
theorem pointAdd_pub [DecidableEq Point] (hk : S.IsKey k) (ht : S.ValidTweak k t) :
    S.pointAdd (S.pub k) t = S.pub (S.modAdd k t) := by
  have hne := ht.isKey.smul_ne_zero
  rw [ht.smul_modAdd] at hne
  rw [pointAdd, hk.parse_pub]
  dsimp only
  rw [if_pos ⟨ht.1, hne⟩, pub, ht.smul_modAdd]

theorem privData_hard (hi : i &&& BIP32_HARD ≠ 0) :
    S.privData k i = some (0 :: k ++ toBE 4 i.toNat) := by
  rw [privData, if_pos hi]
  rfl

theorem privData_normal (hk : S.IsKey k) (hi : i &&& BIP32_HARD = 0) :
    S.privData k i = some (S.pub k ++ toBE 4 i.toNat) := by
  rw [privData, if_neg (not_not.2 hi), hk.pointGen]
  rfl

theorem CKDpub_normal [DecidableEq Point] {K : Bytes} (hi : i &&& BIP32_HARD = 0) :
    S.CKDpub hmac K c i =
    (S.pointAdd K ((hmac c (K ++ toBE 4 i.toNat)).take 32),
      (hmac c (K ++ toBE 4 i.toNat)).drop 32) := by
  rw [CKDpub, hi, if_pos (by decide)]

/-- A level with a valid tweak leads to a key. -/
theorem ValidPath.cons (h : S.ValidPath hmac k c (i :: path))
    (hk : i &&& BIP32_HARD ≠ 0 ∨ S.IsKey k) : ∃ k' c', S.CKDpriv hmac k c i = some (k', c') ∧
      S.IsKey k' ∧ S.ValidPath hmac k' c' path := by
  have hdata : ∃ buf, S.privData k i = some buf := by
    by_cases hi : i &&& BIP32_HARD = 0
    · have hkey := hk.resolve_left (not_not.2 hi)
      exact ⟨_, privData_normal hkey hi⟩
    · exact ⟨_, privData_hard hi⟩
  obtain ⟨buf, hbuf⟩ := hdata
  obtain ⟨ht, hpath⟩ := h buf hbuf
  exact ⟨_, _, by rw [CKDpriv, hbuf]; rfl, ht.isKey, hpath⟩

theorem ValidPath.tail {k' c' : Bytes} (h : S.ValidPath hmac k c (i :: path))
    (hd : S.CKDpriv hmac k c i = some (k', c')) : S.ValidPath hmac k' c' path := by
  rw [CKDpriv, Option.bind_eq_bind, Option.bind_eq_some_iff] at hd
  obtain ⟨buf, hbuf, hd⟩ := hd
  obtain ⟨rfl, rfl⟩ := Prod.mk.inj (Option.some.inj hd)
  exact (h buf hbuf).2

/-- On a level that is not hardened, the public key is derived to that of the derived secret, with
    the same chain code. -/
theorem ValidPath.CKDpub_pub [DecidableEq Point] {k' c' : Bytes}
    (h : S.ValidPath hmac k c (i :: path)) (hk : S.IsKey k) (hi : i &&& BIP32_HARD = 0)
    (hd : S.CKDpriv hmac k c i = some (k', c')) :
    S.CKDpub hmac (S.pub k) c i = (S.pub k', c') := by
  have hbuf := privData_normal hk hi
  have ht := (h _ hbuf).1
  rw [CKDpriv, hbuf] at hd
  obtain ⟨rfl, rfl⟩ := Prod.mk.inj (Option.some.inj hd)
  rw [CKDpub_normal hi, pointAdd_pub hk ht]

end Secp256k1

/-! ## The path of an account -/

theorem and_hard_eq_zero {i : UInt32} (h : i < BIP32_HARD) : i &&& BIP32_HARD = 0 := by
  have hlt : i.toNat < 2 ^ 31 := UInt32.lt_iff_toNat_lt.1 h
  apply UInt32.toNat.inj
  rw [UInt32.toNat_and, show BIP32_HARD.toNat = 2 ^ 31 from rfl, Nat.and_two_pow,
    Nat.testBit_lt_two_pow hlt]
  rfl

theorem or_hard_and_hard (i : UInt32) : (i ||| BIP32_HARD) &&& BIP32_HARD ≠ 0 := by
  have hhard : (i ||| BIP32_HARD) &&& BIP32_HARD = BIP32_HARD := by
    apply UInt32.toNat.inj
    rw [UInt32.toNat_and, UInt32.toNat_or, show BIP32_HARD.toNat = 2 ^ 31 from rfl,
      Nat.and_two_pow, Nat.testBit_or, Nat.testBit_two_pow_self, Bool.or_true]
    rfl
  rw [hhard]
  decide

section
variable {Point : Type} [AddCommGroup Point] {S : Secp256k1 Point}
  {hmac : Bytes → Bytes → Bytes} {H : Hashes} {seed : Bytes} {coinType account : UInt32}

/-- Every tweak met from the seed to a key of the account is valid. -/
def TweaksValid (S : Secp256k1 Point) (hmac : Bytes → Bytes → Bytes) (seed : Bytes)
    (coinType account : UInt32) : Prop :=
  ∀ chain index, chain < BIP32_HARD → index < BIP32_HARD →
    S.ValidPath hmac (masterKey hmac seed).1 (masterKey hmac seed).2
      [BIP44_PURPOSE ||| BIP32_HARD, coinType ||| BIP32_HARD, account ||| BIP32_HARD, chain, index]

/-- The account has a secret and a chain code, from which the keys of its chains are derived. -/
theorem TweaksValid.exists_account (h : TweaksValid S hmac seed coinType account) :
    ∃ k c fingerPrint, S.IsKey k ∧
      BIP44MasterPubKey S H hmac seed coinType account = some ⟨fingerPrint, c, S.pub k⟩ ∧
      (∀ chain indexes, BIP44PrivKeyList S hmac seed coinType account chain indexes =
        indexes.mapM fun index => do
          let (s, c) ← S.CKDpriv hmac k c chain
          let (s, _) ← S.CKDpriv hmac s c index
          some (.setSecret s)) ∧
      ∀ chain index, chain < BIP32_HARD → index < BIP32_HARD →
        S.ValidPath hmac k c [chain, index] := by
  have hzero := h 0 0 (by decide) (by decide)
  obtain ⟨k₁, c₁, h₁, hk₁, hp₁⟩ := hzero.cons (.inl (or_hard_and_hard _))
  obtain ⟨k₂, c₂, h₂, hk₂, hp₂⟩ := hp₁.cons (.inl (or_hard_and_hard _))
  obtain ⟨k₃, c₃, h₃, hk₃, -⟩ := hp₂.cons (.inl (or_hard_and_hard _))
  refine ⟨k₃, c₃, ((BRKey.setSecret (masterKey hmac seed).1).hash160 S H).take 4, hk₃, ?_, ?_, ?_⟩
  · rw [BIP44MasterPubKey]
    dsimp only [Option.bind_eq_bind]
    rw [h₁, Option.bind_some, h₂, Option.bind_some, h₃, Option.bind_some,
      show (BRKey.setSecret k₃).getPubKey S = S.pointGen k₃ from rfl, hk₃.pointGen,
      Option.getD_some]
  · intro chain indexes
    rw [BIP44PrivKeyList]
    dsimp only [Option.bind_eq_bind]
    rw [h₁, Option.bind_some, h₂, Option.bind_some, h₃, Option.bind_some]
  · intro chain index hchain hindex
    exact (((h chain index hchain hindex).tail h₁).tail h₂).tail h₃

/-- The public keys derived from the master public key are those of the derived private keys. -/
theorem pubKey_of_privKeyList [DecidableEq Point] (h : TweaksValid S hmac seed coinType account) :
    ∃ mpk, BIP44MasterPubKey S H hmac seed coinType account = some mpk ∧
      ∀ chain indexes, chain < BIP32_HARD → (∀ index ∈ indexes, index < BIP32_HARD) →
        ∃ keys, BIP44PrivKeyList S hmac seed coinType account chain indexes = some keys ∧
          keys.map (BRKey.getPubKey S) =
            indexes.map fun index => some (BIP32PubKey S hmac mpk chain index) := by
  obtain ⟨k, c, fingerPrint, hk, hmpk, hlist, hpath⟩ := h.exists_account (H := H)
  refine ⟨_, hmpk, ?_⟩
  intro chain indexes hchain hindexes
  rw [hlist]
  induction indexes with
  | nil => exact ⟨[], rfl, rfl⟩
  | cons index indexes ih =>
    obtain ⟨keys, hkeys, hpub⟩ := ih fun i hi => hindexes i (List.mem_cons_of_mem _ hi)
    have hindex := hindexes index List.mem_cons_self
    have hp := hpath chain index hchain hindex
    obtain ⟨k₁, c₁, h₁, hk₁, hp₁⟩ := hp.cons (.inr hk)
    obtain ⟨k₂, c₂, h₂, hk₂, -⟩ := hp₁.cons (.inr hk₁)
    have hpub₁ := hp.CKDpub_pub hk (and_hard_eq_zero hchain) h₁
    have hpub₂ := hp₁.CKDpub_pub hk₁ (and_hard_eq_zero hindex) h₂
    refine ⟨.setSecret k₂ :: keys, ?_, ?_⟩
    · rw [List.mapM_cons, hkeys, h₁]
      dsimp only [Option.bind_eq_bind, Option.bind_some]
      rw [h₂]
      rfl
    · rw [List.map_cons, List.map_cons, hpub, BIP32PubKey, hpub₁]
      dsimp only
      rw [hpub₂, show (BRKey.setSecret k₂).getPubKey S = S.pointGen k₂ from rfl, hk₂.pointGen]

end

end RavenWallet
