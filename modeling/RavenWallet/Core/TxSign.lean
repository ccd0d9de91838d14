/-
  The signatures of a transaction (`BRTransactionSign` of BRTransaction.c).

  The inputs are signed one after the other, in the transaction itself.  What is
  signed for an input has no signature in it, so it does not matter which inputs
  were signed before.

  * `sign_stable`: the bytes that are signed for an input depend on no other
    script, signature or amount, and a second call changes nothing;
  * `sign_isSome_iff`: the elements that are read are there unless an input spends
    what was paid to a public key itself.
-/
import RavenWallet.Lib.InPlace
import RavenWallet.Core.TxData
import RavenWallet.Core.TxBounds
import RavenWallet.Core.Receiving

namespace RavenWallet

/-! ## Keys -/

/-- The calls into libsecp256k1, with the sizes of what they write. -/
structure Ecdsa where
  /-- `secp256k1_ec_pubkey_create` and `secp256k1_ec_pubkey_serialize`, compressed or not -/
  pubkey : Bool → Bytes → Option Bytes
  /-- `secp256k1_ec_pubkey_parse` -/
  isPoint : Bytes → Bool
  /-- `secp256k1_ecdsa_sign` into 72 bytes, empty if it fails -/
  sign : Bytes → Bytes → Bytes
  length_pubkey : ∀ compressed secret pk, pubkey compressed secret = some pk →
    pk.length = if compressed then 33 else 65
  length_sign : ∀ secret md, (sign secret md).length ≤ 72

/-- A `BRKey` whose public key has either form; its bytes are zero until they are asked for. -/
structure SigningKey where
  secret : Bytes
  compressed : Bool
  pubKey : Bytes := List.replicate 65 0
  length_pubKey : pubKey.length = 65 := by rfl
  deriving DecidableEq

namespace SigningKey

variable (E : Ecdsa) (H : Hashes) (key : SigningKey)

/-- `BRKeyPubKey`; empty if there is none. -/
def getPubKey : Bytes :=
  let size := if key.compressed then 33 else 65
  if key.pubKey.take size = List.replicate size 0 then (E.pubkey key.compressed key.secret).getD []
  else key.pubKey.take size

/-- `BRKeyHash160`. -/
def hash160 : Bytes :=
  if key.getPubKey E ≠ [] ∧ E.isPoint (key.getPubKey E) then H.hash160 (key.getPubKey E)
  else List.replicate 20 0

/-- `BRKeyAddress`; `ADDRESS_NONE` if it writes nothing. -/
def address : BRAddress :=
  if key.hash160 E H = List.replicate 20 0 then []
  else base58CheckEncode H ADDRESS_SIZE (RAVENCOIN_PUBKEY_ADDRESS :: key.hash160 E H)

/-- The script that signs `md`, with the public key for pay-to-pubkey-hash. -/
def scriptSig (md : Bytes) (pubKeyHash : Bool) : Bytes :=
  scriptPushData (E.sign key.secret md ++ [UInt8.ofNat SIGHASH_ALL.toNat]) ++
    if pubKeyHash then scriptPushData (key.getPubKey E) else []

end SigningKey

theorem length_scriptPushData {data : Bytes} (h : data.length < OP_PUSHDATA1.toNat) :
    (scriptPushData data).length = 1 + data.length := by
  rw [scriptPushData, if_pos h, List.length_cons, Nat.add_comm]

namespace SigningKey

variable {E : Ecdsa} {H : Hashes} (key : SigningKey)

theorem length_getPubKey_le : (key.getPubKey E).length ≤ 65 := by
  have hsize : (if key.compressed then 33 else 65) ≤ 65 := by split_ifs <;> decide
  rw [getPubKey]
  by_cases hzero : key.pubKey.take (if key.compressed then 33 else 65) =
      List.replicate (if key.compressed then 33 else 65) 0
  · rw [if_pos hzero]
    cases hpk : E.pubkey key.compressed key.secret with
    | none => exact Nat.zero_le _
    | some pk =>
      rw [Option.getD_some, E.length_pubkey _ _ _ hpk]
      exact hsize
  · rw [if_neg hzero]
    exact (List.length_take_le _ _).trans hsize

theorem length_hash160 : (key.hash160 E H).length = 20 := by
  rw [hash160]
  split_ifs
  · exact H.length_hash160 _
  · rfl

end SigningKey

/-! ## Signing -/

/-- `BRTxInputSetSignature`. -/
def BRTxInput.setSignature (H : Hashes) (input : BRTxInput) (signature : Bytes) : BRTxInput :=
  { input with
    signature := some signature
    address := if input.address = [] then BRAddress.fromScriptSig H signature else input.address }

/-- `*elems[elemsCount - n]`; fails before the first element. -/
def elemBack (ops : Bytes) (n : ℕ) : Option UInt8 :=
  if n ≤ ops.length then ops[ops.length - n]? else none

/-- The test for pay-to-pubkey-hash, on the opcodes of the elements. -/
def isPubKeyHash (ops : Bytes) : Option Bool :=
  if ops.length < 2 then some false
  else do
    let op ← elemBack ops 2
    if op = OP_EQUALVERIFY then some true
    else do
      let op ← elemBack ops 5
      some (decide (op = OP_EQUALVERIFY))

section
variable (E : Ecdsa) (H : Hashes) (keys : List SigningKey)

/-- The first key with the address of the script that an input spends. -/
def BRTxInput.signingKey (input : BRTxInput) : Option SigningKey :=
  let address := BRAddress.fromScriptPubKey H (input.script.getD [])
  if address = [] then none else keys.find? fun key => key.address E H = address

namespace BRTransaction

variable (tx : BRTransaction)

/-- The loop body of `BRTransactionSign` for the input at `i`; fails where an element is read that
    is not there. -/
def signAt (i : ℕ) (input : BRTxInput) : Option BRTxInput :=
  match input.signingKey E H keys with
  | none => some input
  | some key => (isPubKeyHash (scriptOps (input.script.getD []))).map fun pubKeyHash =>
      input.setSignature H
        (key.scriptSig E (H.sha256_2 (tx.transactionData (some i) SIGHASH_ALL)) pubKeyHash)

/-- The hash that `BRTransactionSign` stores, once every input is signed. -/
def hashSigned : BRTransaction × Bool :=
  if tx.isSigned then
    ({ tx with txHash := get256 (H.sha256_2 (tx.transactionData none 0)) }, true)
  else (tx, false)

/-- `BRTransactionSign`. -/
def sign : Option (BRTransaction × Bool) :=
  (replaceEach (fun inputs => signAt E H keys { tx with inputs }) tx.inputs).map fun inputs =>
    hashSigned H { tx with inputs }

/-- The transactions agree in what is signed for the input at `i`. -/
structure AgreesAt (i : ℕ) (tx tx' : BRTransaction) : Prop where
  version : tx.version = tx'.version
  lockTime : tx.lockTime = tx'.lockTime
  outputs : tx.outputs = tx'.outputs
  inputs : tx.inputs.map (fun input => (input.txHash, input.index, input.sequence)) =
    tx'.inputs.map fun input => (input.txHash, input.index, input.sequence)
  script : tx.inputs[i]?.map BRTxInput.script = tx'.inputs[i]?.map BRTxInput.script

end BRTransaction

/-- An input without its signature, its amount and its address. -/
def BRTxInput.unsigned (input : BRTxInput) : UInt256 × UInt32 × Option Bytes × UInt32 :=
  (input.txHash, input.index, input.script, input.sequence)

namespace BRTransaction

/-- The transactions differ at most in the signatures, the amounts and the addresses of their
    inputs. -/
structure SameUnsigned (tx tx' : BRTransaction) : Prop where
  version : tx.version = tx'.version
  lockTime : tx.lockTime = tx'.lockTime
  outputs : tx.outputs = tx'.outputs
  inputs : tx.inputs.map BRTxInput.unsigned = tx'.inputs.map BRTxInput.unsigned

/-- Signed is what is paid to the hash of a public key, never what is paid to one itself. -/
def SpendsKeyHashes (tx : BRTransaction) : Prop :=
  ∀ input ∈ tx.inputs, input.signingKey E H keys ≠ none →
    scriptOps (input.script.getD []) ≠ [65, OP_CHECKSIG] ∧
      scriptOps (input.script.getD []) ≠ [33, OP_CHECKSIG]

end BRTransaction

end

/-! ## What is signed -/

namespace BRTransaction

section
variable {tx tx' : BRTransaction} {i j : ℕ} {sigHash : UInt32}

/-- What is written of an input to sign the one at `i`. -/
theorem signInput_congr {input input' : BRTxInput}
    (h : (input.txHash, input.index, input.sequence) =
      (input'.txHash, input'.index, input'.sequence))
    (hscript : i = j → input.script = input'.script) :
    txInputData (signInput (some i) sigHash j input) =
      txInputData (signInput (some i) sigHash j input') := by
  simp only [Prod.mk.injEq] at h
  obtain ⟨hhash, hindex, hsequence⟩ := h
  unfold signInput
  by_cases hij : i = j
  · rw [if_pos (congrArg some hij), if_pos (congrArg some hij), txInputData, txInputData]
    simp only [hhash, hindex, hsequence, hscript hij]
  · have hne : ¬ some i = some j := fun h => hij (Option.some.inj h)
    have hnone : ∀ p : Prop, ¬ (some i = none ∧ p) := fun p h => Option.some_ne_none _ h.1
    rw [if_neg hne, if_neg (hnone _), if_pos (Option.some_ne_none i), if_neg hne,
      if_neg (hnone _), if_pos (Option.some_ne_none i), txInputData, txInputData]
    simp only [hhash, hindex, hsequence]

/-- What is signed for an input does not depend on the other scripts, the signatures and the
    amounts. -/
theorem transactionData_congr (h : AgreesAt i tx tx') :
    tx.transactionData (some i) SIGHASH_ALL = tx'.transactionData (some i) SIGHASH_ALL := by
  have hinput : ∀ j : ℕ,
      tx.inputs[j]?.map (fun input => (input.txHash, input.index, input.sequence)) =
        tx'.inputs[j]?.map fun input => (input.txHash, input.index, input.sequence) := by
    intro j
    rw [← List.getElem?_map, ← List.getElem?_map, h.inputs]
  have hlen : tx.inputs.length = tx'.inputs.length := by
    have hmap := congrArg List.length h.inputs
    rwa [List.length_map, List.length_map] at hmap
  have hdata : tx.inputs.mapIdx (fun j input =>
        txInputData (signInput (some i) (SIGHASH_ALL &&& 0x1f) j input)) =
      tx'.inputs.mapIdx fun j input =>
        txInputData (signInput (some i) (SIGHASH_ALL &&& 0x1f) j input) := by
    refine List.ext_getElem? fun j => ?_
    rw [List.getElem?_mapIdx, List.getElem?_mapIdx]
    have hj := hinput j
    have hscript := h.script
    cases hin : tx.inputs[j]? with
    | none =>
      rw [hin] at hj
      rw [Option.map_eq_none_iff.1 hj.symm]
    | some input =>
      rw [hin] at hj
      obtain ⟨input', hin', hsame⟩ := Option.map_eq_some_iff.1 hj.symm
      rw [hin', Option.map_some, Option.map_some]
      refine congrArg some (signInput_congr hsame.symm ?_)
      rintro rfl
      rw [hin, hin'] at hscript
      exact Option.some.inj hscript
  rw [transactionData, transactionData, inputsData, inputsData, hdata, hlen, outputsData,
    outputsData, h.version, h.lockTime, h.outputs]
  have hall : ¬ SIGHASH_ALL &&& SIGHASH_ANYONECANPAY ≠ 0 := by decide
  rw [if_neg hall, if_neg hall]

theorem SameUnsigned.agreesAt (h : SameUnsigned tx tx') (i : ℕ) : AgreesAt i tx tx' where
  version := h.version
  lockTime := h.lockTime
  outputs := h.outputs
  inputs := by
    have hmap := congrArg (List.map fun u => (u.1, u.2.1, u.2.2.2)) h.inputs
    rwa [List.map_map, List.map_map] at hmap
  script := by
    have hget := congrArg (fun us => us[i]?.map fun u => u.2.2.1) h.inputs
    rwa [List.getElem?_map, List.getElem?_map, Option.map_map, Option.map_map] at hget

end

end BRTransaction

/-! ## The loop -/

section
variable {E : Ecdsa} {H : Hashes} {keys : List SigningKey} {tx tx' t : BRTransaction}
  {input input' : BRTxInput} {inputs : List BRTxInput} {i : ℕ} {r : Bool}

theorem BRTxInput.setSignature_idem (input : BRTxInput) (signature : Bytes) :
    (input.setSignature H signature).setSignature H signature = input.setSignature H signature := by
  by_cases haddress : input.address = []
  · by_cases hfound : BRAddress.fromScriptSig H signature = []
    · simp [setSignature, haddress, hfound]
    · simp [setSignature, haddress, hfound]
  · simp [setSignature, haddress]

theorem BRTxInput.signingKey_congr (h : input'.script = input.script) :
    input'.signingKey E H keys = input.signingKey E H keys := by
  rw [signingKey, h]
  rfl

namespace BRTransaction

theorem signAt_isSome : (tx.signAt E H keys i input).isSome ↔
    (input.signingKey E H keys ≠ none →
      (isPubKeyHash (scriptOps (input.script.getD []))).isSome) := by
  rw [signAt]
  cases input.signingKey E H keys with
  | none => simp
  | some key => simp

/-- Signing an input leaves what it spends. -/
theorem signAt_eq_some (h : tx.signAt E H keys i input = some input') :
    input'.unsigned = input.unsigned := by
  rw [signAt] at h
  cases hkey : input.signingKey E H keys with
  | none =>
    rw [hkey] at h
    rw [Option.some.inj h]
  | some key =>
    rw [hkey] at h
    obtain ⟨pubKeyHash, -, rfl⟩ := Option.map_eq_some_iff.1 h
    rfl

theorem signAt_congr (h : SameUnsigned tx tx') : signAt E H keys tx = signAt E H keys tx' := by
  funext i input
  rw [signAt, signAt, transactionData_congr (h.agreesAt i)]

theorem sameUnsigned_inputs {inputs' : List BRTxInput}
    (h : inputs.map BRTxInput.unsigned = inputs'.map BRTxInput.unsigned) :
    SameUnsigned { tx with inputs } { tx with inputs := inputs' } := ⟨rfl, rfl, rfl, h⟩

/-- The loop over the inputs signs each one in the transaction as it was. -/
theorem replaceEach_signAt (tx : BRTransaction) :
    replaceEach (fun inputs => signAt E H keys { tx with inputs }) tx.inputs =
      mapEach (fun inputs => signAt E H keys { tx with inputs }) tx.inputs := by
  refine (@replaceEach_eq _ _ _ (List.map BRTxInput.unsigned) ?_ ?_ tx.inputs).1
  · exact fun h => signAt_congr (sameUnsigned_inputs h)
  · intro xs i x y hx hy
    have hsame : (xs.map BRTxInput.unsigned)[i]? = some y.unsigned := by
      rw [List.getElem?_map, hx, Option.map_some, signAt_eq_some hy]
    obtain ⟨hlt, hget⟩ := List.getElem?_eq_some_iff.1 hsame
    rw [List.map_set, ← hget, List.set_getElem_self]

theorem hashSigned_inputs (tx : BRTransaction) : (hashSigned H tx).1.inputs = tx.inputs := by
  rw [hashSigned]
  split_ifs <;> rfl

theorem hashSigned_idem (tx : BRTransaction) :
    hashSigned H (hashSigned H tx).1 = hashSigned H tx := by
  by_cases hsigned : tx.isSigned
  · have hall : isSigned { tx with txHash := get256 (H.sha256_2 (tx.transactionData none 0)) } :=
      hsigned
    rw [hashSigned, hashSigned, if_pos hsigned, if_pos hall]
    rfl
  · rw [hashSigned, hashSigned, if_neg hsigned, if_neg hsigned]

/-- What signing gives: each input is signed in the transaction as it was. -/
theorem sign_eq_some (h : sign E H keys tx = some (t, r)) :
    ∃ inputs, inputs.length = tx.inputs.length ∧
      (∀ i input, tx.inputs[i]? = some input → tx.signAt E H keys i input = inputs[i]?) ∧
      hashSigned H { tx with inputs } = (t, r) ∧ t.inputs = inputs := by
  rw [sign, replaceEach_signAt] at h
  obtain ⟨inputs, hinputs, h⟩ := Option.map_eq_some_iff.1 h
  obtain ⟨hlen, hall⟩ := mapEach_eq_some.1 hinputs
  have ht := hashSigned_inputs (H := H) { tx with inputs }
  rw [h] at ht
  exact ⟨inputs, hlen, hall, h, ht⟩

theorem sign_isSome : (sign E H keys tx).isSome ↔
    ∀ i input, tx.inputs[i]? = some input → (tx.signAt E H keys i input).isSome := by
  rw [sign, replaceEach_signAt, Option.isSome_map, mapEach_isSome]

/-- The script that signs an input is that of the transaction as it was. -/
theorem sign_signature {key : SigningKey} (h : sign E H keys tx = some (t, r))
    (hin : tx.inputs[i]? = some input) (hkey : input.signingKey E H keys = some key) :
    ∃ pubKeyHash, isPubKeyHash (scriptOps (input.script.getD [])) = some pubKeyHash ∧
      t.inputs[i]?.map BRTxInput.signature =
        some (some (key.scriptSig E
          (H.sha256_2 (tx.transactionData (some i) SIGHASH_ALL)) pubKeyHash)) := by
  obtain ⟨inputs, hlen, hall, -, rfl⟩ := sign_eq_some h
  have hat := hall i input hin
  obtain ⟨hlt, -⟩ := List.getElem?_eq_some_iff.1 hin
  rw [← hlen] at hlt
  rw [List.getElem?_eq_getElem hlt, signAt, hkey] at hat
  obtain ⟨pubKeyHash, hops, hset⟩ := Option.map_eq_some_iff.1 hat
  refine ⟨pubKeyHash, hops, ?_⟩
  rw [List.getElem?_eq_getElem hlt, ← hset]
  rfl

/-- A signed input is signed in the same way again. -/
theorem signAt_idem (h : tx.signAt E H keys i input = some input') :
    tx.signAt E H keys i input' = some input' := by
  have hscript : input'.script = input.script := congrArg (fun u => u.2.2.1) (signAt_eq_some h)
  rw [signAt] at h ⊢
  rw [BRTxInput.signingKey_congr hscript, hscript]
  cases hkey : input.signingKey E H keys with
  | none => rfl
  | some key =>
    rw [hkey] at h
    obtain ⟨pubKeyHash, hops, rfl⟩ := Option.map_eq_some_iff.1 h
    rw [hops]
    exact congrArg some (BRTxInput.setSignature_idem input _)

/-- What is signed twice is signed once. -/
theorem sign_sign (h : sign E H keys tx = some (t, r)) : sign E H keys t = some (t, r) := by
  obtain ⟨inputs, hlen, hall, hhash, hinputs⟩ := sign_eq_some h
  have hback : ∀ i input', inputs[i]? = some input' →
      ∃ input, tx.inputs[i]? = some input ∧ tx.signAt E H keys i input = some input' := by
    intro i input' hin
    obtain ⟨hlt, -⟩ := List.getElem?_eq_some_iff.1 hin
    rw [hlen] at hlt
    refine ⟨tx.inputs[i], List.getElem?_eq_getElem hlt, ?_⟩
    rw [hall i _ (List.getElem?_eq_getElem hlt), hin]
  have hunsigned : t.inputs.map BRTxInput.unsigned = tx.inputs.map BRTxInput.unsigned := by
    rw [hinputs]
    refine List.ext_getElem? fun i => ?_
    rw [List.getElem?_map, List.getElem?_map]
    cases hin : inputs[i]? with
    | none =>
      have hle := List.getElem?_eq_none_iff.1 hin
      rw [hlen] at hle
      rw [List.getElem?_eq_none_iff.2 hle]
    | some input' =>
      obtain ⟨input, hat, hsign⟩ := hback i input' hin
      rw [hat, Option.map_some, Option.map_some, signAt_eq_some hsign]
  have hsame : SameUnsigned t tx := by
    have ht : t = (hashSigned H { tx with inputs }).1 := by rw [hhash]
    refine ⟨?_, ?_, ?_, hunsigned⟩ <;> rw [ht, hashSigned] <;> split_ifs <;> rfl
  have hloop : mapEach (fun inputs => signAt E H keys { t with inputs }) t.inputs =
      some t.inputs := by
    refine mapEach_eq_some.2 ⟨rfl, fun i input' hin => ?_⟩
    have hat : t.signAt E H keys i input' = some input' := by
      obtain ⟨input, -, hsign⟩ := hback i input' (hinputs ▸ hin)
      rw [signAt_congr hsame]
      exact signAt_idem hsign
    rw [hin]
    exact hat
  have hidem := hashSigned_idem (H := H) { tx with inputs }
  rw [hhash] at hidem
  rw [sign, replaceEach_signAt, hloop, Option.map_some]
  exact congrArg some hidem

theorem SameUnsigned.symm (h : SameUnsigned tx tx') : SameUnsigned tx' tx :=
  ⟨h.version.symm, h.lockTime.symm, h.outputs.symm, h.inputs.symm⟩

theorem SameUnsigned.input_at (h : SameUnsigned tx tx') (hin : tx.inputs[i]? = some input) :
    ∃ input', tx'.inputs[i]? = some input' ∧ input'.script = input.script := by
  have hat := congrArg (fun us => us[i]?) h.inputs
  rw [List.getElem?_map, List.getElem?_map, hin] at hat
  obtain ⟨input', hin', hsame⟩ := Option.map_eq_some_iff.1 hat.symm
  exact ⟨input', hin', congrArg (fun u => u.2.2.1) hsame⟩

theorem sign_isSome_congr (h : SameUnsigned tx tx') (hsome : (sign E H keys tx).isSome) :
    (sign E H keys tx').isSome := by
  rw [sign_isSome] at hsome ⊢
  intro i input' hin'
  obtain ⟨input, hin, hscript⟩ := h.symm.input_at hin'
  have hat := hsome i input hin
  rw [signAt_isSome] at hat ⊢
  rwa [← BRTxInput.signingKey_congr hscript, ← hscript]

/-- Each input gets the same signature whatever signatures there are. -/
theorem sign_congr (h : SameUnsigned tx tx') {t' : BRTransaction} {r' : Bool}
    (hsign : sign E H keys tx = some (t, r)) (hsign' : sign E H keys tx' = some (t', r'))
    (hin : tx.inputs[i]? = some input) (hkey : input.signingKey E H keys ≠ none) :
    t.inputs[i]?.map BRTxInput.signature = t'.inputs[i]?.map BRTxInput.signature := by
  obtain ⟨key, hkey⟩ := Option.ne_none_iff_exists'.1 hkey
  obtain ⟨input', hin', hscript⟩ := h.input_at hin
  have hkey' : input'.signingKey E H keys = some key := by
    rw [BRTxInput.signingKey_congr hscript, hkey]
  obtain ⟨p, hops, hsig⟩ := sign_signature hsign hin hkey
  obtain ⟨p', hops', hsig'⟩ := sign_signature hsign' hin' hkey'
  rw [hscript, hops] at hops'
  obtain rfl := Option.some.inj hops'
  rw [hsig, hsig', transactionData_congr (h.agreesAt i)]

end BRTransaction

/-! ## The elements of the script -/

/-- Only what is paid to the hash of a public key, or to one itself, has the address of a key. -/
theorem BRTxInput.paysKeyHash {key : SigningKey} (h : input.signingKey E H keys = some key) :
    BRAddress.PaysKeyHash (input.script.getD []) := by
  rw [signingKey] at h
  split_ifs at h with hnone
  have haddress : key.address E H = BRAddress.fromScriptPubKey H (input.script.getD []) := by
    have hfound := List.find?_some h
    exact of_decide_eq_true hfound
  rw [← haddress] at hnone
  rw [← BRAddress.isP2PKH_fromScriptPubKey (H := H), ← haddress]
  rw [SigningKey.address] at hnone ⊢
  split_ifs at hnone ⊢ with hzero
  · exact absurd rfl hnone
  · exact (BRAddress.isP2PKH_encode (by decide) key.length_hash160).2 rfl

/-- The elements that the test reads are there, unless a public key is paid. -/
theorem isPubKeyHash_isSome {script : Bytes} (h : BRAddress.PaysKeyHash script) :
    (isPubKeyHash (scriptOps script)).isSome ↔
      scriptOps script ≠ [65, OP_CHECKSIG] ∧ scriptOps script ≠ [33, OP_CHECKSIG] := by
  obtain ⟨-, -, ⟨ops, hops, hlen⟩ | hkey | hkey⟩ := h
  · have hne : ∀ op, scriptOps script ≠ [op, OP_CHECKSIG] := by
      intro op heq
      have hlength := congrArg List.length (hops.symm.trans heq)
      rw [List.length_append] at hlength
      have hfive : BRAddress.p2pkhOps.length = 5 := rfl
      have htwo : [op, OP_CHECKSIG].length = 2 := rfl
      omega
    refine iff_of_true ?_ ⟨hne 65, hne 33⟩
    rw [hops]
    rcases hlen with hlen | hlen
    · obtain rfl := List.eq_nil_of_length_eq_zero hlen
      rfl
    · obtain ⟨a, b, c, rfl⟩ := List.length_eq_three.1 hlen
      simp [isPubKeyHash, elemBack, BRAddress.p2pkhOps]
  · rw [hkey]
    decide
  · rw [hkey]
    decide

end

/-! ## The key 1 -/

def secretOne : Bytes := List.replicate 31 0 ++ [1]

/-- The point G of secp256k1. -/
def pointOne : Bytes :=
  [2, 121, 190, 102, 126, 249, 220, 187, 172, 85, 160, 98, 149, 206, 135, 11, 7, 2, 155, 252, 219,
    45, 206, 40, 217, 89, 242, 129, 91, 22, 248, 23, 152]

def hashOne : Bytes :=
  [117, 30, 118, 232, 25, 145, 150, 212, 84, 148, 28, 69, 209, 179, 163, 35, 241, 67, 59, 214]

def keyOne : SigningKey := { secret := secretOne, compressed := true }

/-- What was paid to the hash of the key, and is paid to it again. -/
def txOne : BRTransaction where
  version := 1
  inputs := [{ txHash := 1, index := 0, script := some (BRAddress.p2pkh hashOne) }]
  outputs := [{ amount := 5000, script := some (BRAddress.p2pkh hashOne) }]

/-- The signature of `txOne`, in DER. -/
def signatureOne : Bytes :=
  [48, 69, 2, 33, 0, 205, 104, 88, 220, 34, 92, 205, 104, 197, 31, 203, 107, 139, 67, 74, 168, 33,
    107, 81, 63, 117, 240, 138, 7, 228, 139, 115, 185, 12, 227, 98, 232, 2, 32, 60, 55, 72, 195,
    194, 5, 21, 1, 23, 158, 1, 95, 248, 146, 129, 184, 211, 96, 60, 162, 246, 3, 114, 228, 81, 75,
    141, 59, 156, 198, 1, 53]

/-- What is signed in `txOne`, hashed. -/
def digestOne : Bytes :=
  [92, 0, 205, 164, 146, 32, 123, 78, 0, 211, 72, 236, 241, 129, 100, 128, 145, 55, 183, 38, 70,
    179, 196, 37, 192, 10, 48, 128, 223, 139, 3, 167]

def scriptSigOne : Bytes := scriptPushData (signatureOne ++ [1]) ++ scriptPushData pointOne

def ecdsaOne : Ecdsa where
  pubkey compressed secret := if compressed ∧ secret = secretOne then some pointOne else none
  isPoint pubKey := pubKey = pointOne
  sign secret md := if secret = secretOne ∧ md = digestOne then signatureOne else []
  length_pubkey compressed secret pk h := by
    split_ifs at h with hone
    obtain rfl := Option.some.inj h
    rw [if_pos hone.1]
    rfl
  length_sign secret md := by
    split_ifs
    · decide
    · exact Nat.zero_le _

/-- `txOne` as it is signed. -/
def signedOne : BRTransaction :=
  { txOne with inputs := txOne.inputs.map fun input => { input with signature := scriptSigOne } }

/-- The hashes of the key, of its address, of what is signed and of what is sent. -/
def hashesOne : Hashes where
  sha256_2 data :=
    if data = RAVENCOIN_PUBKEY_ADDRESS :: hashOne then
      [209, 73, 75, 98, 154, 49, 99, 42, 138, 227, 71, 132, 27, 142, 216, 142, 87, 104, 234, 203,
        191, 75, 25, 204, 246, 62, 123, 226, 222, 198, 113, 210]
    else if data = txOne.transactionData (some 0) SIGHASH_ALL then digestOne
    else if data = signedOne.transactionData none 0 then
      [188, 164, 139, 3, 101, 21, 243, 126, 3, 142, 32, 245, 222, 64, 20, 106, 63, 90, 195, 178,
        108, 216, 115, 136, 171, 251, 142, 80, 60, 86, 213, 161]
    else List.replicate 32 0
  hash160 data := if data = pointOne then hashOne else List.replicate 20 0
  length_sha256_2 data := by split_ifs <;> rfl
  length_hash160 data := by split_ifs <;> rfl

/-- `txOne` signed, with the address that comes from the signature. -/
def sentOne : BRTransaction :=
  { signedOne with
    txHash := get256 (hashesOne.sha256_2 (signedOne.transactionData none 0))
    inputs := signedOne.inputs.map fun input =>
      { input with address := keyOne.address ecdsaOne hashesOne } }

theorem sign_txOne : BRTransaction.sign ecdsaOne hashesOne [keyOne] txOne =
    some (sentOne, true) := by decide +kernel

/-! ## Results -/

namespace BRTransaction

/-- The bytes that are signed for an input depend on no other script, signature or amount; so each
    input gets the same signature whatever was signed before, and signing again changes nothing. -/
theorem sign_stable (E : Ecdsa) (H : Hashes) (keys : List SigningKey) (tx : BRTransaction) :
    (∀ tx' i, AgreesAt i tx tx' →
      tx.transactionData (some i) SIGHASH_ALL = tx'.transactionData (some i) SIGHASH_ALL) ∧
    (∀ t r, sign E H keys tx = some (t, r) → ∀ (i : ℕ) (input : BRTxInput) (key : SigningKey),
      tx.inputs[i]? = some input → input.signingKey E H keys = some key →
        ∃ pubKeyHash, t.inputs[i]?.map BRTxInput.signature =
          some (some (key.scriptSig E (H.sha256_2 (tx.transactionData (some i) SIGHASH_ALL))
            pubKeyHash))) ∧
    (∀ tx', SameUnsigned tx tx' →
      ((sign E H keys tx).isSome ↔ (sign E H keys tx').isSome) ∧
      ∀ t r t' r', sign E H keys tx = some (t, r) → sign E H keys tx' = some (t', r') →
        ∀ (i : ℕ) (input : BRTxInput), tx.inputs[i]? = some input →
          input.signingKey E H keys ≠ none →
            t.inputs[i]?.map BRTxInput.signature = t'.inputs[i]?.map BRTxInput.signature) ∧
    ∀ t r, sign E H keys tx = some (t, r) → sign E H keys t = some (t, r) := by
  refine ⟨fun tx' i h => transactionData_congr h, ?_, ?_, fun t r h => sign_sign h⟩
  · intro t r h i input key hin hkey
    obtain ⟨pubKeyHash, -, hsig⟩ := sign_signature h hin hkey
    exact ⟨pubKeyHash, hsig⟩
  · intro tx' h
    refine ⟨⟨sign_isSome_congr h, sign_isSome_congr h.symm⟩, ?_⟩
    intro t r t' r' hsign hsign' i input hin hkey
    exact sign_congr h hsign hsign' hin hkey

theorem sign_stable_txOne :
    sign ecdsaOne hashesOne [keyOne] txOne = some (sentOne, true) ∧
    txOne.transactionData (some 0) SIGHASH_ALL = sentOne.transactionData (some 0) SIGHASH_ALL ∧
    (∃ pubKeyHash, sentOne.inputs[0]?.map BRTxInput.signature =
      some (some (keyOne.scriptSig ecdsaOne
        (hashesOne.sha256_2 (txOne.transactionData (some 0) SIGHASH_ALL)) pubKeyHash))) ∧
    ((sign ecdsaOne hashesOne [keyOne] txOne).isSome ↔
      (sign ecdsaOne hashesOne [keyOne] signedOne).isSome) ∧
    sign ecdsaOne hashesOne [keyOne] sentOne = some (sentOne, true) := by
  obtain ⟨hdata, hdigest, hsame, hagain⟩ := sign_stable ecdsaOne hashesOne [keyOne] txOne
  refine ⟨sign_txOne, hdata sentOne 0 ⟨rfl, rfl, rfl, by decide +kernel, by decide +kernel⟩, ?_,
    (hsame signedOne ⟨rfl, rfl, rfl, rfl⟩).1, hagain _ _ sign_txOne⟩
  exact hdigest _ _ sign_txOne 0 _ keyOne rfl (by decide +kernel)

/-- No element is read that is not there, unless a public key is paid by what an input spends. -/
theorem sign_isSome_iff (E : Ecdsa) (H : Hashes) (keys : List SigningKey) (tx : BRTransaction) :
    (sign E H keys tx).isSome ↔ SpendsKeyHashes E H keys tx := by
  rw [sign_isSome]
  constructor
  · intro h input hin hkey
    obtain ⟨i, hi⟩ := List.getElem?_of_mem hin
    obtain ⟨key, hfound⟩ := Option.ne_none_iff_exists'.1 hkey
    have hsome := signAt_isSome.1 (h i input hi) hkey
    exact (isPubKeyHash_isSome (BRTxInput.paysKeyHash hfound)).1 hsome
  · intro h i input hi
    refine signAt_isSome.2 fun hkey => ?_
    obtain ⟨key, hfound⟩ := Option.ne_none_iff_exists'.1 hkey
    exact (isPubKeyHash_isSome (BRTxInput.paysKeyHash hfound)).2
      (h input (List.mem_of_getElem? hi) hkey)

/-- What was paid to the public key itself. -/
def keyTx : BRTransaction :=
  { txOne with inputs := [{ txHash := 1, index := 0
                            script := some (33 :: (pointOne ++ [OP_CHECKSIG])) }] }

theorem not_sign_isSome : ¬ ∀ (E : Ecdsa) (H : Hashes) (keys : List SigningKey)
    (tx : BRTransaction),
    (∀ input ∈ tx.inputs, BRAddress.fromScriptPubKey H (input.script.getD []) ≠ []) →
      (sign E H keys tx).isSome := by
  intro h
  have hsome := h ecdsaOne hashesOne [keyOne] keyTx (by decide +kernel)
  have hnone : sign ecdsaOne hashesOne [keyOne] keyTx = none := by decide +kernel
  rw [hnone] at hsome
  cases hsome

end BRTransaction

end RavenWallet
