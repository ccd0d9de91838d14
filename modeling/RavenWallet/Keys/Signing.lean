/-
  The keys for the inputs of a transaction (BRWallet.c).

  The wallet generates the addresses of its chains from the master public key,
  and signs with keys derived from the seed.

  * `run_derived`: in every run, also with calls of `BRWalletUnusedAddrs`, the
    addresses of the chains are derived at their positions;
  * `watched_spendable`: the derived public keys are those of the private keys,
    and every input with an address of the wallet gets its key.
-/
import Mathlib.Data.ZMod.Basic
import RavenWallet.Keys.Sequence
import RavenWallet.Wallet.Runs

namespace RavenWallet

section
variable {Point : Type} [AddCommGroup Point] (S : Secp256k1 Point) (H : Hashes)
  (hmac : Bytes → Bytes → Bytes)

/-- The address that `BRWalletUnusedAddrs` generates for an index of a chain. -/
def chainAddress [DecidableEq Point] (mpk : BRMasterPubKey) (internal : Bool) (index : UInt32) :
    Option BRAddress := do
  let chain := if internal then SEQUENCE_INTERNAL_CHAIN else SEQUENCE_EXTERNAL_CHAIN
  let key ← BRKey.setPubKey S (BIP32PubKey S hmac mpk chain index)
  key.address S H

/-! ## Signing -/

/-- `idx[count++] = j` in an array of `size` elements; fails beyond its end. -/
def pushIndex (size : ℕ) (idx : List UInt32) (j : ℕ) : Option (List UInt32) :=
  if idx.length < size then some (idx ++ [UInt32.ofNat j]) else none

/-- Looks for an address in a chain, from the end. -/
def matchChain (size : ℕ) (chain : List BRAddress) (addr : BRAddress) (idx : List UInt32) :
    Option (List UInt32) :=
  (List.range chain.length).reverse.foldlM
    (fun idx j => if chain[j]? = some addr then pushIndex size idx j else some idx) idx

namespace BRWallet

/-- The loop over the inputs in `BRWalletSignTransaction`: the indexes of their addresses, in the
    internal and in the external chain. -/
def signingIndexes (w : BRWallet) (tx : BRTransaction) :
    Option (List UInt32 × List UInt32) :=
  tx.inputs.foldlM (fun (idx : List UInt32 × List UInt32) input => do
    let internalIdx ← matchChain tx.inputs.length w.internalChain input.address idx.1
    let externalIdx ← matchChain tx.inputs.length w.externalChain input.address idx.2
    some (internalIdx, externalIdx)) ([], [])

/-- The keys that `BRWalletSignTransaction` gives to `BRTransactionSign`. -/
def signingKeys (w : BRWallet) (tx : BRTransaction) (seed : Bytes) : Option (List BRKey) := do
  let (internalIdx, externalIdx) ← w.signingIndexes tx
  let internal ← BIP44PrivKeyList S hmac seed 175 0 SEQUENCE_INTERNAL_CHAIN internalIdx
  let external ← BIP44PrivKeyList S hmac seed 175 0 SEQUENCE_EXTERNAL_CHAIN externalIdx
  some (internal ++ external)

end BRWallet

end

/-! ## The indexes of the inputs -/

section
variable {size : ℕ} {chain addrs : List BRAddress} {addr : BRAddress} {idx : List UInt32}

/-- The pushed indexes fit into the array, or there is no result. -/
theorem foldlM_pushIndex {p : ℕ → Prop} [DecidablePred p] {js : List ℕ}
    (h : idx.length + (js.filter p).length ≤ size) :
    js.foldlM (fun idx j => if p j then pushIndex size idx j else some idx) idx =
      some (idx ++ (js.filter p).map UInt32.ofNat) := by
  induction js generalizing idx with
  | nil => simp
  | cons j js ih =>
    rw [List.foldlM_cons]
    by_cases hj : p j
    · rw [List.filter_cons_of_pos (by simpa using hj), List.length_cons] at h
      have hlt : idx.length < size := by omega
      have hlen : (idx ++ [UInt32.ofNat j]).length + (js.filter p).length ≤ size := by
        rw [List.length_append, List.length_singleton]
        omega
      rw [if_pos hj, pushIndex, if_pos hlt]
      refine (ih hlen).trans ?_
      rw [List.filter_cons_of_pos (by simpa using hj), List.map_cons, List.append_assoc,
        List.singleton_append]
    · rw [List.filter_cons_of_neg (by simpa using hj)] at h ⊢
      rw [if_neg hj]
      exact ih h

/-- An address is in at most one place of a chain without repetitions. -/
theorem length_filter_le_one (hn : chain.Nodup) (addr : BRAddress) :
    ((List.range chain.length).reverse.filter fun j => chain[j]? = some addr).length ≤ 1 := by
  have hnodup : ((List.range chain.length).reverse.filter fun j => chain[j]? = some addr).Nodup :=
    (List.nodup_reverse.2 List.nodup_range).filter _
  have heq : ∀ i ∈ (List.range chain.length).reverse.filter (fun j => chain[j]? = some addr),
      ∀ j ∈ (List.range chain.length).reverse.filter (fun j => chain[j]? = some addr), i = j := by
    intro i hi j hj
    simp only [List.mem_filter, List.mem_reverse, List.mem_range, decide_eq_true_eq] at hi hj
    exact (List.getElem?_inj hi.1 hn).1 (hi.2.trans hj.2.symm)
  generalize (List.range chain.length).reverse.filter (fun j => chain[j]? = some addr) = js at *
  rcases js with _ | ⟨i, _ | ⟨j, js⟩⟩
  · simp
  · simp
  · obtain rfl := heq i (by simp) j (by simp)
    simp at hnodup

/-- The indexes of addresses in a chain. -/
structure Located (chain addrs : List BRAddress) (idx : List UInt32) : Prop where
  length_le : idx.length ≤ addrs.length
  position : ∀ i ∈ idx, ∃ j, j < chain.length ∧ i = UInt32.ofNat j
  found : ∀ a ∈ addrs, ∀ j, chain[j]? = some a → UInt32.ofNat j ∈ idx

theorem Located.matchChain (h : Located chain addrs idx) (hn : chain.Nodup)
    (hsize : addrs.length < size) (addr : BRAddress) :
    ∃ idx', matchChain size chain addr idx = some idx' ∧ Located chain (addrs ++ [addr]) idx' := by
  have hone := length_filter_le_one hn addr
  have hlen := h.length_le
  refine ⟨_, foldlM_pushIndex (p := fun j => chain[j]? = some addr) (by omega), ?_, ?_, ?_⟩
  · rw [List.length_append, List.length_append, List.length_map, List.length_singleton]
    omega
  · intro i hi
    rcases List.mem_append.1 hi with hi | hi
    · exact h.position i hi
    · obtain ⟨j, hj, rfl⟩ := List.mem_map.1 hi
      have hj := List.mem_of_mem_filter hj
      rw [List.mem_reverse, List.mem_range] at hj
      exact ⟨j, hj, rfl⟩
  · intro a ha j hj
    rw [List.mem_append]
    rcases List.mem_append.1 ha with ha | ha
    · exact Or.inl (h.found a ha j hj)
    · obtain rfl := List.mem_singleton.1 ha
      refine Or.inr (List.mem_map_of_mem ?_)
      rw [List.mem_filter, List.mem_reverse, List.mem_range]
      exact ⟨(List.getElem?_eq_some_iff.1 hj).1, by simpa using hj⟩

theorem Located.nil : Located chain [] [] where
  length_le := Nat.le_refl _
  position i hi := by cases hi
  found a ha := by cases ha

end

/-- The loop stays inside its arrays, and finds the addresses of all inputs. -/
theorem BRWallet.signingIndexes_located {w : BRWallet} (tx : BRTransaction)
    (hn : ∀ internal, (w.chain internal).Nodup) : ∃ idx, w.signingIndexes tx = some idx ∧
      Located w.internalChain (tx.inputs.map BRTxInput.address) idx.1 ∧
      Located w.externalChain (tx.inputs.map BRTxInput.address) idx.2 := by
  refine foldlM_isSome_prefix (P := fun done (idx : List UInt32 × List UInt32) =>
    Located w.internalChain (done.map BRTxInput.address) idx.1 ∧
      Located w.externalChain (done.map BRTxInput.address) idx.2) ?_ ⟨Located.nil, Located.nil⟩
  rintro done input idx hpre ⟨hi, he⟩
  have hsize : (done.map BRTxInput.address).length < tx.inputs.length := by
    have hle := hpre.length_le
    rw [List.length_append, List.length_singleton] at hle
    rwa [List.length_map]
  obtain ⟨i', hi', hli⟩ := hi.matchChain (hn true) hsize input.address
  obtain ⟨e', he', hle⟩ := he.matchChain (hn false) hsize input.address
  refine ⟨(i', e'), by rw [hi', he']; rfl, ?_⟩
  rw [List.map_append]
  exact ⟨hli, hle⟩

/-! ## Chains of derived addresses -/

/-- The calls that extend the chains: the operations, and `BRWalletUnusedAddrs`. -/
inductive ChainOp where
  | op (op : WalletOp)
  | unusedAddrs (gapLimit : ℕ) (internal : Bool)

namespace BRWallet

/-- The wallet with calls of `BRWalletUnusedAddrs` between the operations. -/
def chainSystem (env : Env) : System BRWallet ChainOp where
  init := (system env).init
  step w op w' := match op with
    | .op op => step env w op w'
    | .unusedAddrs gapLimit internal =>
      ∃ fuel addrs, w.unusedAddrs env fuel gapLimit internal = some (w', addrs)

/-- The addresses are the derived ones with their positions. -/
def Derived (env : Env) (internal : Bool) (chain : List BRAddress) : Prop :=
  ∀ j a, chain[j]? = some a → env.address internal (UInt32.ofNat j) = some a

variable {env : Env} {w w' : BRWallet}

theorem Derived.nil {internal : Bool} : Derived env internal [] := by
  intro j a h
  simp at h

theorem Derived.grows {internal : Bool} {used : Finset BRAddress} {gap : ℕ}
    {chain chain' : List BRAddress} (hc : Derived env internal chain)
    (h : Grows env internal used gap chain chain') : Derived env internal chain' := by
  induction h with
  | refl => exact hc
  | @step chain' b _ _ hb _ ih =>
    intro j a hj
    rcases Nat.lt_trichotomy j chain'.length with hlt | rfl | hgt
    · rw [List.getElem?_append_left hlt] at hj
      exact ih j a hj
    · rw [List.getElem?_concat_length, Option.some.injEq] at hj
      rwa [← hj]
    · rw [List.getElem?_eq_none (by simp; omega)] at hj
      cases hj

/-- What runs keep of the chains: their addresses are derived, and `allAddrs` holds them. -/
structure Chained (env : Env) (w : BRWallet) : Prop where
  internal : Derived env true w.internalChain
  external : Derived env false w.externalChain
  allAddrs : w.AllAddrs

theorem Chained.chain (h : Chained env w) (internal : Bool) :
    Derived env internal (w.chain internal) := by
  cases internal with
  | true => exact h.internal
  | false => exact h.external

theorem Chained.unusedAddrs {fuel gap : ℕ} {internal : Bool} {addrs : List BRAddress}
    (hw : Chained env w) (h : w.unusedAddrs env fuel gap internal = some (w', addrs)) :
    Chained env w' := by
  obtain ⟨c, aa, hg, rfl, ha⟩ := unusedAddrs_some h
  have hc := (hw.chain internal).grows hg
  cases internal with
  | true => exact ⟨hc, hw.external, ha hw.allAddrs⟩
  | false => exact ⟨hw.internal, hc, ha hw.allAddrs⟩

theorem kept_chained (env : Env) : Kept env (Chained env) :=
  kept_chains fun hw hi he ha => ⟨hw.internal.grows hi, hw.external.grows he, ha hw.allAddrs⟩

theorem step_chained {op : ChainOp} (hw : Chained env w) (h : (chainSystem env).step w op w') :
    Chained env w' := by
  cases op with
  | op op => exact (kept_chained env).step hw h
  | unusedAddrs gapLimit internal =>
    obtain ⟨fuel, addrs, h⟩ := h
    exact hw.unusedAddrs h

theorem init_chained (h : (chainSystem env).init w) : Chained env w :=
  (kept_chained env).init (fun _ => ⟨Derived.nil, Derived.nil, rfl⟩) h

/-- In every run the addresses of the chains are the derived ones. -/
theorem run_derived {G : BRWallet → ChainOp → Prop} (h : (chainSystem env).Run G w) :
    Chained env w :=
  h.invariant (J := fun _ => True) (fun _ => trivial) init_chained
    fun _ hw _ hs _ => step_chained hw hs

end BRWallet

/-! ## The keys of the inputs -/

section
variable {Point : Type} [AddCommGroup Point] {S : Secp256k1 Point} {H : Hashes}
  {hmac : Bytes → Bytes → Bytes}

theorem BRKey.address_congr {key key' : BRKey} (h : key.getPubKey S = key'.getPubKey S) :
    key.address S H = key'.address S H := by
  rw [address, address, hash160, hash160, h]

/-- The address generated for an index is that of every key with this public key. -/
theorem address_of_chainAddress [DecidableEq Point] {mpk : BRMasterPubKey} {internal : Bool}
    {index : UInt32} {a : BRAddress} {key : BRKey}
    (ha : chainAddress S H hmac mpk internal index = some a)
    (hkey : key.getPubKey S = some (BIP32PubKey S hmac mpk
      (if internal then SEQUENCE_INTERNAL_CHAIN else SEQUENCE_EXTERNAL_CHAIN) index)) :
    key.address S H = some a := by
  rw [chainAddress, Option.bind_eq_bind, Option.bind_eq_some_iff] at ha
  obtain ⟨key', hset, ha⟩ := ha
  rw [BRKey.setPubKey, Option.map_eq_some_iff] at hset
  obtain ⟨-, -, rfl⟩ := hset
  rw [← ha]
  exact BRKey.address_congr hkey

/-- The indexes are below 2^31. -/
theorem Located.lt_hard {chain addrs : List BRAddress} {idx : List UInt32}
    (h : Located chain addrs idx) (hlen : chain.length ≤ 2 ^ 31) :
    ∀ i ∈ idx, i < BIP32_HARD := by
  intro i hi
  obtain ⟨j, hj, rfl⟩ := h.position i hi
  rw [UInt32.lt_iff_toNat_lt, show BIP32_HARD.toNat = 2 ^ 31 from rfl, UInt32.toNat_ofNat']
  exact (Nat.mod_le _ _).trans_lt (hj.trans_le hlen)

/-- The keys for the found indexes have the addresses that were looked for. -/
theorem Located.exists_key [DecidableEq Point] (internal : Bool) {mpk : BRMasterPubKey}
    {env : Env} (henv : env.address = chainAddress S H hmac mpk) {chain addrs : List BRAddress}
    {idx : List UInt32} (h : Located chain addrs idx)
    (hchain : BRWallet.Derived env internal chain) {keys : List BRKey}
    (hkeys : keys.map (BRKey.getPubKey S) = idx.map fun index => some (BIP32PubKey S hmac mpk
      (if internal then SEQUENCE_INTERNAL_CHAIN else SEQUENCE_EXTERNAL_CHAIN) index))
    {a : BRAddress} (ha : a ∈ addrs) (hmem : a ∈ chain) :
    ∃ key ∈ keys, key.address S H = some a := by
  obtain ⟨j, hj⟩ := List.mem_iff_getElem?.1 hmem
  have hidx := h.found a ha j hj
  have haddr := hchain j a hj
  rw [henv] at haddr
  have hpub := List.mem_map_of_mem (f := fun index => some (BIP32PubKey S hmac mpk
      (if internal then SEQUENCE_INTERNAL_CHAIN else SEQUENCE_EXTERNAL_CHAIN) index)) hidx
  rw [← hkeys] at hpub
  obtain ⟨key, hkey, hget⟩ := List.mem_map.1 hpub
  exact ⟨key, hkey, address_of_chainAddress haddr hget⟩

variable [DecidableEq Point]

/-- The public keys of an account are derived to those of its private keys; hence every input with
    an address of the wallet gets its key. -/
theorem watched_spendable (S : Secp256k1 Point) (H : Hashes) (hmac : Bytes → Bytes → Bytes)
    (seed : Bytes) (hvalid : TweaksValid S hmac seed 175 0) :
    ∃ mpk, BIP44MasterPubKey S H hmac seed 175 0 = some mpk ∧
      (∀ chain indexes, chain < BIP32_HARD → (∀ index ∈ indexes, index < BIP32_HARD) →
        ∃ keys, BIP44PrivKeyList S hmac seed 175 0 chain indexes = some keys ∧
          keys.map (BRKey.getPubKey S) =
            indexes.map fun index => some (BIP32PubKey S hmac mpk chain index)) ∧
      ∀ (env : Env) (G : BRWallet → ChainOp → Prop) (w : BRWallet) (tx : BRTransaction),
        env.address = chainAddress S H hmac mpk → (BRWallet.chainSystem env).Run G w →
        (∀ internal, (w.chain internal).Nodup ∧ (w.chain internal).length ≤ 2 ^ 31) →
        (∀ input ∈ tx.inputs, input.address ∈ w.allAddrs) →
        ∃ keys, w.signingKeys S hmac tx seed = some keys ∧
          ∀ input ∈ tx.inputs, ∃ key ∈ keys, key.address S H = some input.address := by
  obtain ⟨mpk, hmpk, hkeys⟩ := pubKey_of_privKeyList (H := H) hvalid
  refine ⟨mpk, hmpk, hkeys, ?_⟩
  intro env G w tx henv hrun hchains hinputs
  have hw := BRWallet.run_derived hrun
  obtain ⟨⟨internalIdx, externalIdx⟩, hidx, hi, he⟩ :=
    BRWallet.signingIndexes_located tx fun internal => (hchains internal).1
  obtain ⟨internal, hint, hpubi⟩ := hkeys SEQUENCE_INTERNAL_CHAIN internalIdx (by decide)
    (hi.lt_hard (hchains true).2)
  obtain ⟨external, hext, hpube⟩ := hkeys SEQUENCE_EXTERNAL_CHAIN externalIdx (by decide)
    (he.lt_hard (hchains false).2)
  refine ⟨internal ++ external, ?_, ?_⟩
  · rw [BRWallet.signingKeys, hidx]
    dsimp only [Option.bind_eq_bind, Option.bind_some]
    rw [hint, Option.bind_some, hext, Option.bind_some]
  · intro input hmem
    have haddr := hinputs input hmem
    rw [hw.allAddrs, Finset.mem_union, List.mem_toFinset, List.mem_toFinset] at haddr
    have hmap := List.mem_map_of_mem (f := BRTxInput.address) hmem
    rcases haddr with ha | ha
    · obtain ⟨key, hkey, haddress⟩ :=
        hi.exists_key true henv hw.internal hpubi hmap ha
      exact ⟨key, List.mem_append_left _ hkey, haddress⟩
    · obtain ⟨key, hkey, haddress⟩ :=
        he.exists_key false henv hw.external hpube hmap ha
      exact ⟨key, List.mem_append_right _ hkey, haddress⟩

end

/-! ## A small group -/

/-- The integers modulo 2003. -/
def smallGroup : Secp256k1 (ZMod 2003) where
  G := 1
  n := 2003
  serialize P := toBE 33 P.val
  parse bs := some (ofBE bs)
  addOrderOf_G := ZMod.addOrderOf_one 2003
  n_le := by norm_num
  parse_serialize P _ := by
    have hlt : P.val < 256 ^ 33 := (ZMod.val_lt P).trans (by norm_num)
    rw [ofBE_toBE hlt, ZMod.natCast_zmod_val]

/-- A tweak from 1 to 256, given by the last byte. -/
def smallHmac (_ data : Bytes) : Bytes :=
  toBE 32 (1 + (data.getLastD 0).toNat) ++ List.replicate 32 0

/-- Only the key 225 has an address. -/
def smallHashes : Hashes where
  sha256_2 _ := List.replicate 32 0
  hash160 data := List.replicate 19 0 ++ [if data = toBE 33 225 then 1 else 0]
  length_sha256_2 _ := rfl
  length_hash160 _ := rfl

/-- Tweaks are valid as long as their sum stays below the order. -/
theorem smallHmac_validPath : ∀ {path : List UInt32} {k c : Bytes},
    ofBE k + 256 * path.length < 2003 → smallGroup.ValidPath smallHmac k c path
  | [], _, _, _ => trivial
  | i :: path, k, c, h => by
    intro buf _
    have htweak : ofBE ((smallHmac c buf).take 32) = 1 + (buf.getLastD 0).toNat := by
      rw [smallHmac, List.take_left' (by simp [toBE]), ofBE_toBE]
      have hlast := (buf.getLastD 0).toNat_lt
      omega
    have hlast := (buf.getLastD 0).toNat_lt
    rw [List.length_cons] at h
    have hvalid : smallGroup.ValidTweak k ((smallHmac c buf).take 32) := by
      rw [Secp256k1.ValidTweak, htweak, show smallGroup.n = 2003 from rfl]
      omega
    refine ⟨hvalid, smallHmac_validPath ?_⟩
    rw [hvalid.ofBE_modAdd, htweak, show smallGroup.n = 2003 from rfl]
    omega

/-- The master public key of the account for the seed 0. -/
def smallMasterPubKey : BRMasterPubKey where
  fingerPrint := List.replicate 4 0
  chainCode := List.replicate 32 0
  pubKey := toBE 33 223

/-- The address of the first receive key. -/
def smallAddress : BRAddress :=
  base58CheckEncode smallHashes ADDRESS_SIZE
    (RAVENCOIN_PUBKEY_ADDRESS :: (List.replicate 19 0 ++ [1]))

def smallEnv : Env where
  address := chainAddress smallGroup smallHashes smallHmac smallMasterPubKey
  moved _ _ := false

/-- Two inputs with the same address. -/
def smallTx : BRTransaction :=
  { inputs := [{ txHash := 1, index := 0, address := smallAddress },
      { txHash := 1, index := 1, address := smallAddress }] }

theorem exists_smallWallet : ∃ w, (BRWallet.chainSystem smallEnv).init w ∧
    w.internalChain = [] ∧ w.externalChain = [smallAddress] := by
  have hnew : (BRWallet.new smallEnv 2 0 .empty []).map
      (fun r => r.map fun w => (w.internalChain, w.externalChain)) =
        some (some ([], [smallAddress])) := by decide +kernel
  obtain ⟨r, hr, hnew⟩ := Option.map_eq_some_iff.1 hnew
  obtain ⟨w, rfl, hw⟩ := Option.map_eq_some_iff.1 hnew
  obtain ⟨hi, he⟩ := Prod.mk.inj hw
  exact ⟨w, ⟨2, 0, .empty, [], hr⟩, hi, he⟩

theorem watched_spendable_small : ∃ w keys, (BRWallet.chainSystem smallEnv).init w ∧
    w.signingKeys smallGroup smallHmac smallTx [0] = some keys ∧
    ∃ key ∈ keys, key.address smallGroup smallHashes = some smallAddress := by
  obtain ⟨w, hinit, hi, he⟩ := exists_smallWallet
  have hsecret : ofBE (masterKey smallHmac [0]).1 = 1 := by decide +kernel
  have hmaster : BIP44MasterPubKey smallGroup smallHashes smallHmac [0] 175 0 =
      some smallMasterPubKey := by decide +kernel
  have hvalid : TweaksValid smallGroup smallHmac [0] 175 0 := by
    intro chain index _ _
    apply smallHmac_validPath
    rw [hsecret]
    simp
  obtain ⟨mpk, hmpk, -, hsign⟩ := watched_spendable smallGroup smallHashes smallHmac [0] hvalid
  obtain rfl := Option.some.inj (hmaster.symm.trans hmpk)
  obtain ⟨keys, hkeys, hall⟩ := hsign smallEnv (fun _ _ => True) w smallTx rfl (.init hinit)
    (by rintro (_ | _) <;> simp [BRWallet.chain, hi, he])
    (by
      rw [(BRWallet.init_chained hinit).allAddrs, hi, he]
      simp [smallTx])
  have hfirst := hall ⟨1, 0, smallAddress, 0, none, none, TXIN_SEQUENCE⟩ (by simp [smallTx])
  dsimp only at hfirst
  exact ⟨w, keys, hinit, hkeys, hfirst⟩

end RavenWallet
