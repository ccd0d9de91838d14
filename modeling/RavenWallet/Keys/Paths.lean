/-
  From a recovery phrase to the keys on a path (BRBIP39Mnemonic.c, BRBIP44Sequence.c).

  The seed comes from the functions of BRCrypto.c on their buffers; the keys are
  derived over an arbitrary `hmac`, as for the keys of an account.

  * `BIP39DeriveKey_eq`: the seed of a phrase is the one that is specified;
  * `privPath_pub`: below a secret, the public keys of a path of levels that are
    not hardened are those of the private keys;
  * `keys_agree`: the lists of private keys are what the paths of their keys give
    one by one, and the master public key gives their public keys.
-/
import RavenWallet.Crypto.KeyDerivation
import RavenWallet.Keys.Mnemonic
import RavenWallet.Keys.Signing
import RavenWallet.Wallet.AssetTransfer

namespace RavenWallet

/-! ## The seed -/

/-- "mnemonic". -/
def saltPrefix : Bytes := [0x6d, 0x6e, 0x65, 0x6d, 0x6f, 0x6e, 0x69, 0x63]

/-- `BRBIP39DeriveKey` into `key64`.  The phrase and the passphrase are the bytes at their
    addresses, of which those in front of the first NUL are used. -/
def BIP39DeriveKey (garbage : ℕ → UInt8) (key64 phrase : Bytes) (passphrase : Option Bytes) :
    Option Bytes := do
  let salt := blockBuffer garbage (8 + (passphrase.elim 0 fun p => (cString p).length) + 1)
  let salt ← poke salt 0 (saltPrefix ++ [0])
  let salt ← passphrase.elim (some salt) fun p => poke salt 8 (cString p ++ [0])
  PBKDF2 (SHA512 garbage) 64 garbage key64 (cString phrase) (cString salt) 2048

theorem zero_notMem_cString (bs : Bytes) : 0 ∉ cString bs := by
  intro h
  have hne := List.mem_takeWhile_imp h
  simp at hne

theorem cString_append_zero {bs : Bytes} (rest : Bytes) (h : 0 ∉ bs) :
    cString (bs ++ 0 :: rest) = bs := by
  have hall : ∀ b ∈ bs, decide (b ≠ 0) = true := fun b hb =>
    decide_eq_true fun hzero => h (hzero ▸ hb)
  rw [cString, List.takeWhile_append_of_pos hall, List.takeWhile_cons_of_neg (by simp),
    List.append_nil]

theorem length_cString_le (bs : Bytes) : (cString bs).length ≤ bs.length :=
  (List.takeWhile_sublist _).length_le

/-- The salt that the two copies leave. -/
theorem salt_copies (garbage : ℕ → UInt8) (passphrase : Option Bytes) : ∃ salt salt',
    poke (blockBuffer garbage (8 + (passphrase.elim 0 fun p => (cString p).length) + 1)) 0
        (saltPrefix ++ [0]) = some salt ∧
      (passphrase.elim (some salt) fun p => poke salt 8 (cString p ++ [0])) = some salt' ∧
      cString salt' = saltPrefix ++ cString (passphrase.getD []) := by
  have hfront : 0 ∉ saltPrefix := by decide
  cases passphrase with
  | none =>
    refine ⟨saltPrefix ++ [0], saltPrefix ++ [0], ?_, rfl, cString_append_zero [] hfront⟩
    exact poke_parts (a := []) (c := []) (List.append_nil _).symm rfl (length_blockBuffer garbage)
  | some p =>
    obtain ⟨buf, hbuf⟩ : ∃ buf, blockBuffer garbage (8 + (cString p).length + 1) = buf := ⟨_, rfl⟩
    have hlen : buf.length = 8 + (cString p).length + 1 := by
      rw [← hbuf, length_blockBuffer]
    have hfirst : poke buf 0 (saltPrefix ++ [0]) = some ([] ++ (saltPrefix ++ [0] ++ buf.drop 9)) :=
      poke_parts (List.take_append_drop 9 buf).symm rfl (List.length_take_of_le (by omega))
    have hsecond : poke (saltPrefix ++ [0] ++ buf.drop 9) 8 (cString p ++ [0]) =
        some (saltPrefix ++ (cString p ++ [0] ++ [])) := by
      refine poke_parts (b := 0 :: buf.drop 9) (by simp) rfl ?_
      rw [List.length_cons, List.length_drop, List.length_append, hlen]
      simp
    refine ⟨_, _, by rw [Option.elim_some, hbuf]; exact hfirst, hsecond, ?_⟩
    rw [List.append_nil, ← List.append_assoc, Option.getD_some]
    refine cString_append_zero [] ?_
    rw [List.mem_append, not_or]
    exact ⟨hfront, zero_notMem_cString p⟩

/-- The seed is the one of the specification, for any phrase and passphrase. -/
theorem BIP39DeriveKey_eq (garbage : ℕ → UInt8) {key64 phrase : Bytes}
    {passphrase : Option Bytes} (hkey : key64.length = 64) (hphrase : phrase.length < 2 ^ 61)
    (hpass : (passphrase.getD []).length < 2 ^ 58) :
    BIP39DeriveKey garbage key64 phrase passphrase =
      some (deriveKey (fun pw salt => pbkdf2 (macOf sha512 64 pw) 64 salt 2048 64)
        (cString phrase) (cString (passphrase.getD []))) := by
  obtain ⟨salt, salt', hcopy, hpoke, hsalt⟩ := salt_copies garbage passphrase
  have hlen := length_cString_le (passphrase.getD [])
  have hkey' := @PBKDF2_eq _ _ _ garbage (digest_sha512 garbage) key64 (cString phrase)
    (cString salt') ((length_cString_le phrase).trans_lt hphrase)
    (by rw [hsalt, List.length_append, show saltPrefix.length = 8 from rfl]; omega) 2048
    (by rw [hkey]; decide)
  unfold BIP39DeriveKey
  dsimp only
  rw [hcopy, Option.bind_eq_bind, Option.bind_some, hpoke, Option.bind_some, hkey', hsalt, hkey]
  rfl

/-- Only what is in front of a NUL in the passphrase counts. -/
theorem BIP39DeriveKey_eq_nul :
    BIP39DeriveKey (fun _ => 0xff) (List.replicate 64 0) [0x61, 0] (some [0x62, 0, 0x63]) =
      some (deriveKey (fun pw salt => pbkdf2 (macOf sha512 64 pw) 64 salt 2048 64)
        [0x61] [0x62]) :=
  BIP39DeriveKey_eq _ List.length_replicate (by decide) (by decide)

/-! ## Paths -/

section
variable {Point : Type} [AddCommGroup Point] (S : Secp256k1 Point) (H : Hashes)
  (hmac : Bytes → Bytes → Bytes)

/-- The levels of a path, with the key and the chain code. -/
def privPath (key : Bytes × Bytes) (path : List UInt32) : Option (Bytes × Bytes) :=
  path.foldlM (fun key i => S.CKDpriv hmac key.1 key.2 i) key

/-- `BRBIP32vPrivKeyPath`, and so `BRBIP32PrivKeyPath`. -/
def BIP32PrivKeyPath (seed : Bytes) (path : List UInt32) : Option BRKey := do
  let (secret, _) ← privPath S hmac (masterKey hmac seed) path
  some (.setSecret secret)

/-- `BRBIP32PrivKey`. -/
def BIP32PrivKey (seed : Bytes) (chain index : UInt32) : Option BRKey :=
  BIP32PrivKeyPath S hmac seed [0 ||| BIP32_HARD, chain, index]

/-- `BRBIP32PrivKeyList`. -/
def BIP32PrivKeyList (seed : Bytes) (chain : UInt32) (indexes : List UInt32) :
    Option (List BRKey) :=
  if indexes = [] then some [] else do
    let (secret, chainCode) := masterKey hmac seed
    let (secret, chainCode) ← S.CKDpriv hmac secret chainCode (0 ||| BIP32_HARD)
    let (secret, chainCode) ← S.CKDpriv hmac secret chainCode chain
    indexes.mapM fun index => do
      let (s, _) ← S.CKDpriv hmac secret chainCode index
      some (.setSecret s)

/-- `BRBIP32MasterPubKey`. -/
def BIP32MasterPubKey (seed : Bytes) : Option BRMasterPubKey := do
  let (secret, chain) := masterKey hmac seed
  let fingerPrint := ((BRKey.setSecret secret).hash160 S H).take 4
  let (secret, chain) ← S.CKDpriv hmac secret chain (0 ||| BIP32_HARD)
  let pubKey := ((BRKey.setSecret secret).getPubKey S).getD (List.replicate 33 0)
  some { fingerPrint, chainCode := chain, pubKey }

/-- `BRBIP32APIAuthKey`. -/
def BIP32APIAuthKey (seed : Bytes) : Option BRKey :=
  BIP32PrivKeyPath S hmac seed [1 ||| BIP32_HARD, 0]

/-- `UInt32GetLE(&hash.u32[i])`. -/
def hashWord (hash : Bytes) (i : ℕ) : UInt32 := UInt32.ofNat (ofLE ((hash.drop (4 * i)).take 4))

/-- `BRBIP32BitIDKey`. -/
def BIP32BitIDKey (sha256 : Bytes → Bytes) (seed : Bytes) (index : UInt32) (uri : Bytes) :
    Option BRKey :=
  let hash := sha256 (toLE 4 index.toNat ++ cString uri)
  BIP32PrivKeyPath S hmac seed [13 ||| BIP32_HARD, hashWord hash 0 ||| BIP32_HARD,
    hashWord hash 1 ||| BIP32_HARD, hashWord hash 2 ||| BIP32_HARD, hashWord hash 3 ||| BIP32_HARD]

/-- The levels of a path below a public key, with the chain code. -/
def pubPath [DecidableEq Point] (key : Bytes × Bytes) (path : List UInt32) : Bytes × Bytes :=
  path.foldl (fun key i => S.CKDpub hmac key.1 key.2 i) key

end

section
variable {Point : Type} [AddCommGroup Point] {S : Secp256k1 Point} {H : Hashes}
  {hmac : Bytes → Bytes → Bytes} {k c seed : Bytes} {i chain : UInt32}
  {path rest indexes : List UInt32}

@[simp] theorem privPath_nil (key : Bytes × Bytes) : privPath S hmac key [] = some key := rfl

@[simp] theorem privPath_cons (key : Bytes × Bytes) : privPath S hmac key (i :: path) =
    (S.CKDpriv hmac key.1 key.2 i).bind fun key => privPath S hmac key path := rfl

theorem privPath_append (key : Bytes × Bytes) : privPath S hmac key (path ++ rest) =
    (privPath S hmac key path).bind fun key => privPath S hmac key rest := by
  rw [privPath, List.foldlM_append]
  rfl

@[simp] theorem pubPath_nil [DecidableEq Point] (key : Bytes × Bytes) :
    pubPath S hmac key [] = key := rfl

@[simp] theorem pubPath_cons [DecidableEq Point] (key : Bytes × Bytes) :
    pubPath S hmac key (i :: path) = pubPath S hmac (S.CKDpub hmac key.1 key.2 i) path := rfl

/-- A path whose first level is hardened, or that starts at a key, leads to a key. -/
theorem privPath_isKey (h : S.ValidPath hmac k c (path ++ rest))
    (hk : S.IsKey k ∨ ∃ i ∈ path.head?, i &&& BIP32_HARD ≠ 0) :
    ∃ k' c', privPath S hmac (k, c) path = some (k', c') ∧ S.IsKey k' ∧
      S.ValidPath hmac k' c' rest := by
  induction path generalizing k c with
  | nil =>
    rcases hk with hk | ⟨i, hi, -⟩
    · exact ⟨k, c, rfl, hk, h⟩
    · simp at hi
  | cons i path ih =>
    have hfirst : i &&& BIP32_HARD ≠ 0 ∨ S.IsKey k := by
      rcases hk with hk | ⟨j, hj, hhard⟩
      · exact Or.inr hk
      · rw [List.head?_cons, Option.mem_some_iff] at hj
        exact Or.inl (hj ▸ hhard)
    obtain ⟨k₁, c₁, hstep, hk₁, hrest⟩ := h.cons hfirst
    obtain ⟨k', c', hpath, hk', hvalid⟩ := ih hrest (Or.inl hk₁)
    refine ⟨k', c', ?_, hk', hvalid⟩
    rw [privPath_cons, hstep, Option.bind_some, hpath]

/-- The public keys of levels that are not hardened are derived without the private ones. -/
theorem privPath_pub [DecidableEq Point] (h : S.ValidPath hmac k c path) (hk : S.IsKey k)
    (hpath : ∀ i ∈ path, i < BIP32_HARD) : ∃ k' c', privPath S hmac (k, c) path = some (k', c') ∧
      S.IsKey k' ∧ pubPath S hmac (S.pub k, c) path = (S.pub k', c') := by
  induction path generalizing k c with
  | nil => exact ⟨k, c, rfl, hk, rfl⟩
  | cons i path ih =>
    have hi := and_hard_eq_zero (hpath i List.mem_cons_self)
    obtain ⟨k₁, c₁, hstep, hk₁, hrest⟩ := h.cons (.inr hk)
    have hpub := h.CKDpub_pub hk hi hstep
    obtain ⟨k', c', hpriv, hk', hpub'⟩ := ih hrest hk₁ fun j hj =>
      hpath j (List.mem_cons_of_mem _ hj)
    refine ⟨k', c', ?_, hk', ?_⟩
    · rw [privPath_cons, hstep, Option.bind_some, hpriv]
    · rw [pubPath_cons, hpub, hpub']

theorem getPubKey_setSecret (hk : S.IsKey k) :
    (BRKey.setSecret k).getPubKey S = some (S.pub k) := hk.pointGen

/-- A hardened level never fails. -/
theorem exists_CKDpriv_hard (S : Secp256k1 Point) (hmac : Bytes → Bytes → Bytes) (k c : Bytes)
    (i : UInt32) :
    ∃ key, S.CKDpriv hmac k c (i ||| BIP32_HARD) = some key := by
  rw [Secp256k1.CKDpriv, Secp256k1.privData_hard (or_hard_and_hard i)]
  exact ⟨_, rfl⟩

theorem BIP44PrivKeyList_eq_paths (coinType account : UInt32) :
    BIP44PrivKeyList S hmac seed coinType account chain indexes =
      indexes.mapM fun index => BIP32PrivKeyPath S hmac seed [BIP44_PURPOSE ||| BIP32_HARD,
        coinType ||| BIP32_HARD, account ||| BIP32_HARD, chain, index] := by
  obtain ⟨key₁, h₁⟩ := exists_CKDpriv_hard S hmac (masterKey hmac seed).1
    (masterKey hmac seed).2 BIP44_PURPOSE
  obtain ⟨key₂, h₂⟩ := exists_CKDpriv_hard S hmac key₁.1 key₁.2 coinType
  obtain ⟨key₃, h₃⟩ := exists_CKDpriv_hard S hmac key₂.1 key₂.2 account
  simp only [BIP44PrivKeyList, BIP32PrivKeyPath, privPath_cons, h₁, h₂, h₃, Option.bind_some,
    Option.bind_eq_bind, privPath_nil, Option.bind_assoc]

theorem BIP32PrivKeyList_eq_paths :
    BIP32PrivKeyList S hmac seed chain indexes =
      indexes.mapM fun index => BIP32PrivKey S hmac seed chain index := by
  obtain ⟨key₁, h₁⟩ := exists_CKDpriv_hard S hmac (masterKey hmac seed).1
    (masterKey hmac seed).2 0
  simp only [BIP32PrivKeyList, BIP32PrivKey, BIP32PrivKeyPath, privPath_cons, h₁, Option.bind_some,
    Option.bind_eq_bind, privPath_nil]
  split_ifs with hempty
  · rw [hempty]
    rfl
  · cases h₂ : S.CKDpriv hmac key₁.1 key₁.2 chain with
    | none =>
      -- without a key of the chain there is none of its indexes
      obtain ⟨index, rest, rfl⟩ := List.exists_cons_of_ne_nil hempty
      rfl
    | some key₂ => simp only [Option.bind_some, Option.bind_assoc]

/-- The public keys below a secret of a path, and the private keys on the whole path. -/
theorem BIP32PrivKeyPath_pub [DecidableEq Point]
    (h : S.ValidPath hmac (masterKey hmac seed).1 (masterKey hmac seed).2 (path ++ rest))
    (hpath : ∃ i ∈ path.head?, i &&& BIP32_HARD ≠ 0) (hrest : ∀ i ∈ rest, i < BIP32_HARD) :
    ∃ k c key, privPath S hmac (masterKey hmac seed) path = some (k, c) ∧ S.IsKey k ∧
      BIP32PrivKeyPath S hmac seed (path ++ rest) = some key ∧
      key.getPubKey S = some (pubPath S hmac (S.pub k, c) rest).1 := by
  obtain ⟨k, c, hpriv, hk, hvalid⟩ := privPath_isKey h (Or.inr hpath)
  obtain ⟨k', c', hpriv', hk', hpub⟩ := privPath_pub hvalid hk hrest
  refine ⟨k, c, .setSecret k', hpriv, hk, ?_, ?_⟩
  · rw [BIP32PrivKeyPath, privPath_append, hpriv, Option.bind_some, hpriv']
    rfl
  · rw [getPubKey_setSecret hk', hpub]

/-- However a private key is asked for, it is the one of its path; and the public keys of a path
    are derived below any of its keys from which on no level is hardened. -/
theorem keys_agree [DecidableEq Point] (S : Secp256k1 Point) (H : Hashes)
    (hmac : Bytes → Bytes → Bytes) (seed : Bytes) :
    (∀ coinType account chain indexes,
      BIP44PrivKeyList S hmac seed coinType account chain indexes =
        indexes.mapM fun index => BIP32PrivKeyPath S hmac seed [BIP44_PURPOSE ||| BIP32_HARD,
          coinType ||| BIP32_HARD, account ||| BIP32_HARD, chain, index]) ∧
    (∀ chain indexes, BIP32PrivKeyList S hmac seed chain indexes =
      indexes.mapM fun index => BIP32PrivKey S hmac seed chain index) ∧
    (∀ path rest, (∃ i ∈ path.head?, i &&& BIP32_HARD ≠ 0) → (∀ i ∈ rest, i < BIP32_HARD) →
      S.ValidPath hmac (masterKey hmac seed).1 (masterKey hmac seed).2 (path ++ rest) →
      ∃ k c key, privPath S hmac (masterKey hmac seed) path = some (k, c) ∧
        BIP32PrivKeyPath S hmac seed (path ++ rest) = some key ∧
        key.getPubKey S = some (pubPath S hmac (S.pub k, c) rest).1) ∧
    ∀ chain index, chain < BIP32_HARD → index < BIP32_HARD →
      S.ValidPath hmac (masterKey hmac seed).1 (masterKey hmac seed).2
        [0 ||| BIP32_HARD, chain, index] →
      ∃ mpk key, BIP32MasterPubKey S H hmac seed = some mpk ∧
        BIP32PrivKey S hmac seed chain index = some key ∧
        key.getPubKey S = some (BIP32PubKey S hmac mpk chain index) := by
  refine ⟨?_, ?_, ?_, ?_⟩
  · intro coinType account chain indexes
    exact BIP44PrivKeyList_eq_paths coinType account
  · intro chain indexes
    exact BIP32PrivKeyList_eq_paths
  · intro path rest hpath hrest h
    obtain ⟨k, c, key, hpriv, -, hkey, hpub⟩ := BIP32PrivKeyPath_pub h hpath hrest
    exact ⟨k, c, key, hpriv, hkey, hpub⟩
  · intro chain index hchain hindex h
    have hrest : ∀ i ∈ [chain, index], i < BIP32_HARD := by
      intro i hi
      rw [List.mem_cons, List.mem_singleton] at hi
      rcases hi with rfl | rfl
      · exact hchain
      · exact hindex
    obtain ⟨k, c, key, hpriv, hk, hkey, hpub⟩ := BIP32PrivKeyPath_pub
      (show S.ValidPath hmac _ _ ([0 ||| BIP32_HARD] ++ [chain, index]) from h)
      ⟨_, rfl, or_hard_and_hard 0⟩ hrest
    rw [privPath_cons, Option.bind_eq_some_iff] at hpriv
    obtain ⟨key₁, hstep, hpriv⟩ := hpriv
    obtain rfl := Option.some.inj hpriv
    refine ⟨⟨((BRKey.setSecret (masterKey hmac seed).1).hash160 S H).take 4, c, S.pub k⟩, key, ?_,
      hkey, hpub⟩
    simp only [BIP32MasterPubKey, hstep, Option.bind_eq_bind, Option.bind_some,
      getPubKey_setSecret hk, Option.getD_some]

end

/-- The account 0 of the seed 0, and the second level below it. -/
theorem keys_agree_small : ∃ k c key,
    privPath smallGroup smallHmac (masterKey smallHmac [0]) [0 ||| BIP32_HARD] = some (k, c) ∧
      BIP32PrivKeyPath smallGroup smallHmac [0] [0 ||| BIP32_HARD, 1, 2] = some key ∧
      key.getPubKey smallGroup =
        some (pubPath smallGroup smallHmac (smallGroup.pub k, c) [1, 2]).1 := by
  have hsecret : ofBE (masterKey smallHmac [0]).1 = 1 := by decide +kernel
  have hrest : ∀ i ∈ [(1 : UInt32), 2], i < BIP32_HARD := by
    intro i hi
    rw [List.mem_cons, List.mem_singleton] at hi
    rcases hi with rfl | rfl
    · decide
    · decide
  refine (keys_agree smallGroup smallHashes smallHmac [0]).2.2.1 [0 ||| BIP32_HARD] [1, 2]
    ⟨_, rfl, or_hard_and_hard 0⟩ hrest (smallHmac_validPath ?_)
  rw [hsecret]
  decide

end RavenWallet
