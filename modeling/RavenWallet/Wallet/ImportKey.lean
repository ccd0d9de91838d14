/-
  Sweeping an imported key (`handleData` and `publish` of
  StartImportViewController.swift, for outputs that are no assets).

  The fee is computed from an estimate of the size, before the inputs are signed.
  What traps, or is not published, is `none`.

  * `sign_eq_signed`: what is published has a signature and the public key in each
    input;
  * `size_of_sign`: its size, from the lengths of the signatures;
  * `importKey_iff`: when the fee is enough for that size.
-/
import RavenWallet.Core.TxSign
import RavenWallet.Wallet.CoinSelection

namespace RavenWallet

/-! ## The code -/

structure SimpleUTXO where
  hash : UInt256
  index : UInt32
  script : Bytes
  satoshis : UInt64
  deriving DecidableEq

/-- `a + b`, which traps if it overflows. -/
def addChecked (a b : UInt64) : Option UInt64 :=
  if a.toNat + b.toNat < 2 ^ 64 then some (a + b) else none

section
variable (E : Ecdsa) (H : Hashes)

/-- The transaction with an input for each output. -/
def spendAll (outputs : List SimpleUTXO) : BRTransaction :=
  outputs.foldl (fun tx output =>
    tx.addInput H output.hash output.index output.satoshis (some output.script) TXIN_SEQUENCE) {}

/-- The argument of `feeForTxSize`. -/
def feeSize (tx : BRTransaction) (pubKeyLength : ℤ) : ℤ :=
  tx.size + 34 + (pubKeyLength - 34) * tx.inputs.length

/-- `handleData`, up to the call of `publish`: the transaction, the balance and the fee.
    `feePerKb` are the regular fees. -/
def handleData (w : BRWallet) (feePerKb : UInt64) (key : SigningKey) (outputs : List SimpleUTXO) :
    Option (BRTransaction × UInt64 × UInt64) :=
  if key.address E H = [] ∨ key.address E H ∈ w.allAddrs then none
  else do
    let balance ← outputs.foldlM (fun balance output => addChecked balance output.satoshis) 0
    let tx := spendAll H outputs
    let fee := txFee feePerKb (feeSize tx (key.getPubKey E).length).toNat
    if outputs = [] ∨ balance = 0 then none
    else do
      let least ← addChecked fee { w with feePerKb }.minOutputAmount
      if least ≤ balance then some (tx, balance, fee) else none

/-- `publish`: the transaction that is given to the peers. -/
def publish (tx : BRTransaction) (balance fee : UInt64) (key : SigningKey)
    (receiveAddress : BRAddress) : Option BRTransaction :=
  let script := BRAddress.scriptPubKey H receiveAddress
  if script = [] ∨ balance < fee then none
  else do
    let (tx, _) ← (tx.addOutput H (balance - fee) (some script)).sign E H [key]
    if tx.isSigned then some tx else none

/-- The transaction that the import screen publishes. -/
def importKey (w : BRWallet) (feePerKb : UInt64) (key : SigningKey) (receiveAddress : BRAddress)
    (outputs : List SimpleUTXO) : Option BRTransaction := do
  let (tx, balance, fee) ← handleData E H w feePerKb key outputs
  publish E H tx balance fee key receiveAddress

end

/-! ## What is published -/

/-- Each listed output is spent once, what is left without the fee is paid to one output, and the
    fee is enough for the size of the transaction. -/
structure PaysSweep (feePerKb : UInt64) (outputs : List SimpleUTXO) (tx : BRTransaction) :
    Prop where
  outpoints : tx.outpoints = outputs.map fun output => ⟨output.hash, output.index⟩
  fee : ∃ fee ≤ (outputs.map fun output => output.satoshis.toNat).sum,
    tx.outputs.map (fun output => output.amount.toNat) =
      [(outputs.map fun output => output.satoshis.toNat).sum - fee] ∧
    (txFee feePerKb tx.size).toNat ≤ fee

/-- The estimate for `n` inputs and a public key of `p` bytes. -/
def estimatedSize (n p : ℕ) : ℕ := 9 + varIntSize n + (114 + p) * n + 34

/-- The size with signatures of these lengths, with their hash types. -/
def sweptSize (p : ℕ) (lengths : List ℕ) : ℕ :=
  9 + varIntSize lengths.length + (lengths.map fun s => 43 + s + p).sum + 34

/-- The lengths of the signatures with their hash types: the first bytes of the scripts. -/
def signatureLengths (tx : BRTransaction) : List ℕ :=
  tx.inputs.map fun input => ((input.signature.getD []).headD 0).toNat

/-- Each signature of more than 71 bytes adds to the estimate, and each shorter one takes away. -/
theorem sweptSize_add (p : ℕ) (lengths : List ℕ) :
    sweptSize p lengths + 71 * lengths.length =
      estimatedSize lengths.length p + lengths.sum := by
  have hsum : (lengths.map fun s => 43 + s + p).sum + 71 * lengths.length =
      (114 + p) * lengths.length + lengths.sum := by
    induction lengths with
    | nil => rfl
    | cons s lengths ih =>
      rw [List.map_cons, List.sum_cons, List.length_cons, List.sum_cons, Nat.mul_succ, Nat.mul_succ]
      omega
  rw [sweptSize, estimatedSize]
  omega

section
variable {E : Ecdsa} {H : Hashes} {key : SigningKey} {tx t : BRTransaction} {r : Bool}

/-- A public key that has an address has one of the two lengths. -/
theorem SigningKey.length_getPubKey (h : key.address E H ≠ []) :
    (key.getPubKey E).length = if key.compressed then 33 else 65 := by
  have hne : key.getPubKey E ≠ [] := by
    intro hnil
    have hzero : key.hash160 E H = List.replicate 20 0 := if_neg fun hkey => hkey.1 hnil
    exact h (if_pos hzero)
  rw [getPubKey] at hne ⊢
  split_ifs at hne ⊢ with hcompressed hzero hzero
  · cases hpk : E.pubkey key.compressed key.secret with
    | none => rw [hpk] at hne; exact absurd rfl hne
    | some pk => rw [Option.getD_some, E.length_pubkey _ _ _ hpk, if_pos hcompressed]
  · rw [List.length_take, key.length_pubKey]
    rfl
  · cases hpk : E.pubkey key.compressed key.secret with
    | none => rw [hpk] at hne; exact absurd rfl hne
    | some pk => rw [Option.getD_some, E.length_pubkey _ _ _ hpk, if_neg hcompressed]
  · rw [List.length_take, key.length_pubKey]
    rfl

theorem isPubKeyHash_eq_true {script : Bytes} {pubKeyHash : Bool}
    (h : BRAddress.PaysKeyHash script)
    (hops : isPubKeyHash (scriptOps script) = some pubKeyHash) : pubKeyHash = true := by
  have hsome := (isPubKeyHash_isSome h).1 (by rw [hops]; rfl)
  obtain ⟨-, -, ⟨ops, htemplate, hlen⟩ | hkey | hkey⟩ := h
  · rw [htemplate] at hops
    rcases hlen with hlen | hlen
    · obtain rfl := List.eq_nil_of_length_eq_zero hlen
      exact (Option.some.inj hops).symm
    · obtain ⟨a, b, c, rfl⟩ := List.length_eq_three.1 hlen
      simpa [isPubKeyHash, elemBack, BRAddress.p2pkhOps] using hops.symm
  · exact absurd hkey hsome.1
  · exact absurd hkey hsome.2

/-- Each input of what is signed with one key has a signature of that key, and the key. -/
theorem sign_eq_signed (hsign : tx.sign E H [key] = some (t, r)) (hsigned : t.isSigned = true)
    (hnone : ∀ input ∈ tx.inputs, input.signature = none) :
    t.outputs = tx.outputs ∧ t.outpoints = tx.outpoints ∧
      ∀ input ∈ t.inputs, ∃ md, input.signature = some (key.scriptSig E md true) := by
  obtain ⟨inputs, hlen, hall, hhash, rfl⟩ := BRTransaction.sign_eq_some hsign
  have hat (i : ℕ) (input' : BRTxInput) (hin' : t.inputs[i]? = some input') :
      ∃ input, tx.inputs[i]? = some input ∧ tx.signAt E H [key] i input = some input' := by
    obtain ⟨hlt, -⟩ := List.getElem?_eq_some_iff.1 hin'
    rw [hlen] at hlt
    exact ⟨tx.inputs[i], List.getElem?_eq_getElem hlt,
      (hall i _ (List.getElem?_eq_getElem hlt)).trans hin'⟩
  refine ⟨?_, ?_, fun input' hmem => ?_⟩
  · have ht : t = (BRTransaction.hashSigned H { tx with inputs := t.inputs }).1 := by rw [hhash]
    rw [ht, BRTransaction.hashSigned]
    split_ifs <;> rfl
  · refine List.ext_getElem? fun i => ?_
    rw [BRTransaction.outpoints, BRTransaction.outpoints, List.getElem?_map, List.getElem?_map]
    cases hin' : t.inputs[i]? with
    | none =>
      rw [List.getElem?_eq_none_iff, hlen, ← List.getElem?_eq_none_iff] at hin'
      rw [hin']
    | some input' =>
      obtain ⟨input, hin, hsignAt⟩ := hat i input' hin'
      have hsame := BRTransaction.signAt_eq_some hsignAt
      simp only [BRTxInput.unsigned, Prod.mk.injEq] at hsame
      rw [hin, Option.map_some, Option.map_some, BRTxInput.outpoint, BRTxInput.outpoint, hsame.1,
        hsame.2.1]
  · obtain ⟨i, hin'⟩ := List.mem_iff_getElem?.1 hmem
    obtain ⟨input, hin, hsignAt⟩ := hat i input' hin'
    rw [BRTransaction.signAt] at hsignAt
    cases hkey : input.signingKey E H [key] with
    | none =>
      rw [hkey] at hsignAt
      obtain rfl := Option.some.inj hsignAt
      have hsome := List.all_eq_true.1 hsigned input hmem
      rw [hnone input (List.mem_of_getElem? hin)] at hsome
      cases hsome
    | some key' =>
      rw [hkey] at hsignAt
      obtain ⟨pubKeyHash, hops, rfl⟩ := Option.map_eq_some_iff.1 hsignAt
      obtain rfl := isPubKeyHash_eq_true (BRTxInput.paysKeyHash hkey) hops
      have hkey' : key' = key := by
        rw [BRTxInput.signingKey] at hkey
        split_ifs at hkey
        exact List.mem_singleton.1 (List.mem_of_find?_eq_some hkey)
      rw [hkey']
      exact ⟨_, rfl⟩

/-- The script with a signature and the public key. -/
theorem SigningKey.length_scriptSig (haddress : key.address E H ≠ []) (md : Bytes) :
    (key.scriptSig E md true).length =
      ((key.scriptSig E md true).headD 0).toNat + (key.getPubKey E).length + 2 ∧
      ((key.scriptSig E md true).headD 0).toNat ≤ 73 := by
  have hop : OP_PUSHDATA1.toNat = 76 := rfl
  have hsig := E.length_sign key.secret md
  have hpk : (key.getPubKey E).length < 76 := by
    rw [length_getPubKey haddress]
    split_ifs <;> decide
  set push := E.sign key.secret md ++ [UInt8.ofNat SIGHASH_ALL.toNat] with hpush
  have hlen : push.length ≤ 73 := by
    rw [hpush, List.length_append, List.length_singleton]
    omega
  have hscript : key.scriptSig E md true =
      (UInt8.ofNat push.length :: push) ++ scriptPushData (key.getPubKey E) := by
    rw [scriptSig, if_pos rfl, ← hpush, scriptPushData, if_pos (by omega)]
  have hhead : ((key.scriptSig E md true).headD 0).toNat = push.length := by
    rw [hscript, List.cons_append, List.headD_cons, UInt8.toNat_ofNat']
    omega
  refine ⟨?_, hhead ▸ hlen⟩
  rw [hhead, hscript, List.length_append, length_scriptPushData (by omega), List.length_cons]
  omega

/-- The input that spends an output. -/
def SimpleUTXO.toInput (H : Hashes) (output : SimpleUTXO) : BRTxInput where
  txHash := output.hash
  index := output.index
  address := BRAddress.fromScriptPubKey H output.script
  amount := output.satoshis
  script := some output.script
  sequence := TXIN_SEQUENCE

theorem spendAll_eq (outputs : List SimpleUTXO) :
    spendAll H outputs = { inputs := outputs.map (SimpleUTXO.toInput H) } := by
  have hfold : ∀ (outputs : List SimpleUTXO) (tx : BRTransaction),
      outputs.foldl (fun tx output => tx.addInput H output.hash output.index output.satoshis
        (some output.script) TXIN_SEQUENCE) tx =
          { tx with inputs := tx.inputs ++ outputs.map (SimpleUTXO.toInput H) } := by
    intro outputs
    induction outputs with
    | nil => intro tx; rw [List.map_nil, List.append_nil, List.foldl_nil]
    | cons output outputs ih =>
      intro tx
      rw [List.foldl_cons, ih, BRTransaction.addInput, List.append_assoc, List.singleton_append,
        List.map_cons]
      rfl
  rw [spendAll, hfold, List.nil_append]

/-- The fee is computed for the estimated size. -/
theorem feeSize_spendAll (outputs : List SimpleUTXO) (p : ℕ) :
    (feeSize (spendAll H outputs) p).toNat = estimatedSize outputs.length p := by
  have hinput : ∀ input ∈ outputs.map (SimpleUTXO.toInput H), input.signature = none := by
    intro input hinput
    obtain ⟨output, -, rfl⟩ := List.mem_map.1 hinput
    rfl
  have hsize : (spendAll H outputs).size =
      9 + varIntSize outputs.length + 148 * outputs.length := by
    have hzero : varIntSize 0 = 1 := rfl
    have hin : TX_INPUT_SIZE = 148 := rfl
    rw [spendAll_eq, BRTransaction.size, BRTransaction.sum_inputSize hinput, List.length_map,
      List.length_nil, List.map_nil, List.sum_nil, hzero, hin]
    omega
  have hcount : (spendAll H outputs).inputs.length = outputs.length := by
    rw [spendAll_eq, List.length_map]
  have hmul : ((p : ℤ) - 34) * outputs.length =
      (p * outputs.length : ℕ) - 34 * outputs.length := by
    push_cast
    ring
  rw [feeSize, hsize, hcount, hmul, estimatedSize, Nat.add_mul]
  omega

/-- The size of what is signed, from the lengths of the signatures. -/
theorem size_of_sign (haddress : key.address E H ≠ [])
    (hinputs : ∀ input ∈ t.inputs, ∃ md, input.signature = some (key.scriptSig E md true))
    {output : BRTxOutput} (houtputs : t.outputs = [output])
    (hscript : scriptLen output.script = 25) :
    t.size = sweptSize (key.getPubKey E).length (signatureLengths t) := by
  have hpk : (key.getPubKey E).length ≤ 65 := key.length_getPubKey_le
  have hinput : t.inputs.map BRTransaction.inputSize =
      (signatureLengths t).map fun s => 43 + s + (key.getPubKey E).length := by
    rw [signatureLengths, List.map_map]
    refine List.map_congr_left fun input hmem => ?_
    obtain ⟨md, hmd⟩ := hinputs input hmem
    obtain ⟨hlen, hle⟩ := SigningKey.length_scriptSig haddress md
    have hvar : varIntSize (key.scriptSig E md true).length = 1 := if_pos (by omega)
    rw [BRTransaction.inputSize, hmd]
    dsimp only [Function.comp]
    rw [hmd, Option.getD_some, hvar]
    omega
  have houtput : BRTransaction.outputSize output = 34 := by
    rw [BRTransaction.outputSize, hscript]
    rfl
  have hone : varIntSize 1 = 1 := rfl
  rw [BRTransaction.size, hinput, houtputs, List.map_singleton, List.sum_singleton, houtput,
    List.length_singleton, hone, sweptSize, signatureLengths, List.length_map]
  omega

/-- The sum of the amounts, if it does not trap. -/
theorem foldlM_addChecked {outputs : List SimpleUTXO} {a balance : UInt64}
    (h : outputs.foldlM (fun balance output => addChecked balance output.satoshis) a =
      some balance) :
    balance.toNat = a.toNat + (outputs.map fun output => output.satoshis.toNat).sum := by
  induction outputs generalizing a with
  | nil =>
    obtain rfl := Option.some.inj h
    rfl
  | cons output outputs ih =>
    rw [List.foldlM_cons, Option.bind_eq_bind, Option.bind_eq_some_iff] at h
    obtain ⟨b, hb, h⟩ := h
    unfold addChecked at hb
    split_ifs at hb with hlt
    obtain rfl := Option.some.inj hb
    rw [ih h, toNat_add_of_lt hlt, List.map_cons, List.sum_cons, Nat.add_assoc]

/-- What is published: its inputs, its output and the fee. -/
theorem importKey_eq_some {w : BRWallet} {feePerKb : UInt64} {receiveAddress : BRAddress}
    {outputs : List SimpleUTXO} (h : importKey E H w feePerKb key receiveAddress outputs = some t) :
    ∃ balance fee : UInt64,
      balance.toNat = (outputs.map fun output => output.satoshis.toNat).sum ∧
      fee = txFee feePerKb (estimatedSize outputs.length (key.getPubKey E).length) ∧
      fee.toNat ≤ balance.toNat ∧ key.address E H ≠ [] ∧
      t.outpoints = outputs.map (fun output => ⟨output.hash, output.index⟩) ∧
      (∀ input ∈ t.inputs, ∃ md, input.signature = some (key.scriptSig E md true)) ∧
      ∃ output : BRTxOutput, t.outputs = [output] ∧ output.amount = balance - fee ∧
        output.script = some (BRAddress.scriptPubKey H receiveAddress) := by
  unfold importKey at h
  simp only [Option.bind_eq_bind, Option.bind_eq_some_iff] at h
  obtain ⟨⟨tx, balance, fee⟩, hdata, hpublish⟩ := h
  unfold handleData at hdata
  split_ifs at hdata with haddress
  obtain ⟨balance', hbalance, hdata⟩ := Option.bind_eq_some_iff.1 hdata
  split_ifs at hdata
  obtain ⟨least, hleast, hdata⟩ := Option.bind_eq_some_iff.1 hdata
  split_ifs at hdata
  simp only [Option.some.injEq, Prod.mk.injEq] at hdata
  obtain ⟨rfl, rfl, rfl⟩ := hdata
  dsimp only at hpublish
  unfold publish at hpublish
  dsimp only at hpublish
  split_ifs at hpublish with hscript
  obtain ⟨⟨t', r⟩, hsign, hpublish⟩ := Option.bind_eq_some_iff.1 hpublish
  dsimp only at hpublish
  split_ifs at hpublish with hsigned
  obtain rfl := Option.some.inj hpublish
  rw [not_or] at hscript haddress
  have hnone : ∀ input ∈ (spendAll H outputs).inputs, input.signature = none := by
    rw [spendAll_eq]
    intro input hinput
    obtain ⟨output, -, rfl⟩ := List.mem_map.1 hinput
    rfl
  obtain ⟨houtputs, houtpoints, hinputs⟩ := sign_eq_signed hsign hsigned hnone
  refine ⟨balance', _, ?_, rfl, ?_, haddress.1, ?_, hinputs, ?_⟩
  · rw [foldlM_addChecked hbalance]
    exact Nat.zero_add _
  · rw [← feeSize_spendAll]
    exact UInt64.le_iff_toNat_le.1 (UInt64.not_lt.1 hscript.2)
  · rw [houtpoints, BRTransaction.outpoints, BRTransaction.addOutput, spendAll_eq, List.map_map]
    rfl
  · have hnil : (spendAll H outputs).outputs = [] := by rw [spendAll_eq]
    rw [BRTransaction.addOutput, hnil, List.nil_append] at houtputs
    exact ⟨_, houtputs, by rw [feeSize_spendAll], rfl⟩

end

/-- The fee of the estimate is enough for the size with the signatures. -/
def Covers (feePerKb : UInt64) (p : ℕ) (lengths : List ℕ) : Prop :=
  txFee feePerKb (sweptSize p lengths) ≤ txFee feePerKb (estimatedSize lengths.length p)

/-- Without an overflow, the fee is enough exactly if the signatures have at most 71 bytes on
    average, or the bytes above do not change the fee that is rounded. -/
theorem covers_iff {feePerKb : UInt64} {p : ℕ} {lengths : List ℕ}
    (hfits : FeeFits feePerKb.toNat (max (sweptSize p lengths) (estimatedSize lengths.length p))) :
    Covers feePerKb p lengths ↔ lengths.sum ≤ 71 * lengths.length ∨
      feeOf feePerKb.toNat (sweptSize p lengths) =
        feeOf feePerKb.toNat (estimatedSize lengths.length p) := by
  have hadd := sweptSize_add p lengths
  rw [Covers, UInt64.le_iff_toNat_le, txFee_toNat (hfits.mono (Nat.le_max_left _ _)),
    txFee_toNat (hfits.mono (Nat.le_max_right _ _))]
  constructor
  · intro hle
    rcases Nat.le_total lengths.sum (71 * lengths.length) with hsum | hsum
    · exact Or.inl hsum
    · exact Or.inr (Nat.le_antisymm hle (feeOf_mono (by omega)))
  · rintro (hsum | heq)
    · exact feeOf_mono (by omega)
    · exact heq.le

/-- A sweep spends each output once and pays the rest without its fee; whether the fee is enough
    depends on the lengths of the signatures. -/
theorem paysSweep_iff {E : Ecdsa} {H : Hashes} {w : BRWallet} {feePerKb : UInt64} {key : SigningKey}
    {receiveAddress : BRAddress} {outputs : List SimpleUTXO} {t : BRTransaction}
    (haddr : BRWallet.IsPubkeyAddress H receiveAddress)
    (h : importKey E H w feePerKb key receiveAddress outputs = some t) :
    PaysSweep feePerKb outputs t ↔
      Covers feePerKb (key.getPubKey E).length (signatureLengths t) := by
  obtain ⟨balance, fee, hbalance, hfee, hle, haddress, houtpoints, hinputs, output, houtputs,
    hamount, hscript⟩ := importKey_eq_some h
  have hsize : t.size = sweptSize (key.getPubKey E).length (signatureLengths t) := by
    refine size_of_sign haddress hinputs houtputs ?_
    rw [hscript, scriptLen, Option.getD_some, haddr.length_scriptPubKey]
  have hcount : (signatureLengths t).length = outputs.length := by
    have hlen := congrArg List.length houtpoints
    rwa [BRTransaction.outpoints, List.length_map, List.length_map,
      ← List.length_map fun input : BRTxInput => ((input.signature.getD []).headD 0).toNat]
      at hlen
  have hpaid : t.outputs.map (fun output => output.amount.toNat) =
      [(outputs.map fun output => output.satoshis.toNat).sum - fee.toNat] := by
    rw [houtputs, List.map_singleton, hamount, toNat_sub_of_le hle, hbalance]
  rw [Covers, hcount, ← hsize, ← hfee, UInt64.le_iff_toNat_le]
  constructor
  · rintro ⟨-, fee', hle', hpaid', hfee'⟩
    rw [hpaid] at hpaid'
    have heq := (List.cons.inj hpaid').1
    omega
  · exact fun hcovers => ⟨houtpoints, fee.toNat, hbalance ▸ hle, hpaid, hcovers⟩

/-- A sweep does what it should exactly if the fee of the estimate covers the signatures.  Without
    an overflow of the fee that is: if the signatures, with their hash types, have at most 71 bytes
    on average, or rounding covers the bytes above. -/
theorem importKey_iff {E : Ecdsa} {H : Hashes} {w : BRWallet} {feePerKb : UInt64} {key : SigningKey}
    {receiveAddress : BRAddress} {outputs : List SimpleUTXO} {t : BRTransaction}
    (haddr : BRWallet.IsPubkeyAddress H receiveAddress)
    (h : importKey E H w feePerKb key receiveAddress outputs = some t) :
    (PaysSweep feePerKb outputs t ↔
      Covers feePerKb (key.getPubKey E).length (signatureLengths t)) ∧
    ∀ p lengths,
      FeeFits feePerKb.toNat (max (sweptSize p lengths) (estimatedSize lengths.length p)) →
        (Covers feePerKb p lengths ↔ lengths.sum ≤ 71 * lengths.length ∨
          feeOf feePerKb.toNat (sweptSize p lengths) =
            feeOf feePerKb.toNat (estimatedSize lengths.length p)) :=
  ⟨paysSweep_iff haddr h, fun _ _ => covers_iff⟩

/-! ## Two outputs of the key 1 -/

/-- The hash of the key 2. -/
def hashTwo : Bytes :=
  [6, 175, 212, 107, 205, 253, 34, 239, 148, 172, 18, 42, 161, 31, 36, 18, 68, 163, 126, 204]

def outputOne (index : UInt32) : SimpleUTXO := ⟨1, index, BRAddress.p2pkh hashOne, 10000000⟩

/-- What is signed to sweep an output of the key 1 to the key 2, at a rate of 10,000 satoshis a
    byte. -/
def sweepOne (index : UInt32) (signature : Option Bytes) : BRTransaction where
  inputs := [{ txHash := 1, index, script := some (BRAddress.p2pkh hashOne), signature }]
  outputs := [{ amount := 8090000, script := some (BRAddress.p2pkh hashTwo) }]

/-- The digests for the outputs 0 and 2, and their signatures in DER. -/
def sweepDigest (index : UInt32) : Bytes :=
  if index = 0 then
    [56, 143, 235, 166, 88, 5, 249, 225, 24, 145, 195, 126, 217, 241, 4, 31, 21, 211, 144, 20, 106,
      255, 216, 90, 121, 33, 110, 216, 76, 157, 27, 208]
  else
    [134, 240, 6, 137, 44, 1, 13, 133, 42, 165, 155, 224, 159, 44, 110, 178, 1, 33, 24, 155, 11,
      115, 227, 156, 132, 29, 123, 132, 213, 229, 155, 243]

def sweepSignature (index : UInt32) : Bytes :=
  if index = 0 then
    [48, 68, 2, 32, 104, 153, 28, 192, 173, 74, 174, 119, 140, 253, 201, 103, 76, 58, 125, 93, 203,
      9, 210, 86, 17, 51, 6, 215, 185, 239, 20, 85, 58, 144, 111, 168, 2, 32, 62, 98, 170, 212, 155,
      0, 240, 172, 183, 80, 124, 135, 78, 179, 18, 99, 62, 174, 25, 30, 27, 155, 5, 148, 79, 236,
      228, 123, 253, 94, 123, 146]
  else
    [48, 69, 2, 33, 0, 247, 236, 85, 2, 208, 225, 4, 3, 117, 64, 31, 41, 215, 131, 57, 187, 91, 251,
      11, 226, 246, 72, 67, 166, 254, 165, 194, 95, 65, 152, 5, 183, 2, 32, 70, 56, 105, 90, 255, 4,
      112, 49, 201, 232, 137, 189, 9, 141, 254, 94, 37, 136, 101, 105, 156, 127, 207, 19, 202, 240,
      236, 102, 128, 177, 83, 9]

def sweepScript (index : UInt32) : Bytes :=
  scriptPushData (sweepSignature index ++ [1]) ++ scriptPushData pointOne

def ecdsaSweep : Ecdsa where
  pubkey compressed secret := if compressed ∧ secret = secretOne then some pointOne else none
  isPoint pubKey := pubKey = pointOne
  sign secret md :=
    if secret = secretOne ∧ md = sweepDigest 0 then sweepSignature 0
    else if secret = secretOne ∧ md = sweepDigest 2 then sweepSignature 2
    else []
  length_pubkey := ecdsaOne.length_pubkey
  length_sign secret md := by
    split_ifs
    · decide
    · decide
    · exact Nat.zero_le _

/-- The hashes of the addresses, of what is signed and of what is sent. -/
def hashesSweep : Hashes where
  sha256_2 data :=
    if data = RAVENCOIN_PUBKEY_ADDRESS :: hashOne then
      [209, 73, 75, 98, 154, 49, 99, 42, 138, 227, 71, 132, 27, 142, 216, 142, 87, 104, 234, 203,
        191, 75, 25, 204, 246, 62, 123, 226, 222, 198, 113, 210]
    else if data = RAVENCOIN_PUBKEY_ADDRESS :: hashTwo then
      [160, 243, 33, 72, 85, 17, 91, 241, 227, 55, 75, 42, 63, 76, 255, 132, 113, 72, 185, 241, 194,
        159, 9, 57, 76, 247, 84, 240, 242, 149, 209, 73]
    else if data = (sweepOne 0 none).transactionData (some 0) SIGHASH_ALL then sweepDigest 0
    else if data = (sweepOne 2 none).transactionData (some 0) SIGHASH_ALL then sweepDigest 2
    else if data = (sweepOne 0 (some (sweepScript 0))).transactionData none 0 then
      [173, 16, 131, 188, 131, 66, 133, 47, 198, 166, 71, 10, 127, 196, 142, 118, 139, 72, 75, 176,
        36, 244, 2, 18, 66, 39, 206, 117, 152, 228, 138, 77]
    else if data = (sweepOne 2 (some (sweepScript 2))).transactionData none 0 then
      [174, 14, 41, 129, 209, 42, 225, 230, 43, 195, 117, 171, 239, 224, 157, 66, 121, 187, 116,
        247, 168, 211, 246, 252, 221, 107, 100, 101, 37, 165, 203, 199]
    else List.replicate 32 0
  hash160 data := if data = pointOne then hashOne else List.replicate 20 0
  length_sha256_2 data := by split_ifs <;> rfl
  length_hash160 := hashesOne.length_hash160

/-- The address of the key 2. -/
def addressTwo : BRAddress :=
  base58CheckEncode hashesSweep ADDRESS_SIZE (RAVENCOIN_PUBKEY_ADDRESS :: hashTwo)

theorem isPubkeyAddress_two : BRWallet.IsPubkeyAddress hashesSweep addressTwo := by
  unfold BRWallet.IsPubkeyAddress
  decide +kernel

/-- The first one has a signature of 71 bytes, the second one of 72. -/
theorem importKey_lengths :
    (importKey ecdsaSweep hashesSweep {} 10000000 keyOne addressTwo [outputOne 0]).map
      signatureLengths = some [71] ∧
    (importKey ecdsaSweep hashesSweep {} 10000000 keyOne addressTwo [outputOne 2]).map
      signatureLengths = some [72] := by decide +kernel

/-- A signature of 71 bytes is covered, at any rate. -/
theorem importKey_iff_one : ∃ t,
    importKey ecdsaSweep hashesSweep {} 10000000 keyOne addressTwo [outputOne 0] = some t ∧
      PaysSweep 10000000 [outputOne 0] t := by
  obtain ⟨t, hsweep, hlengths⟩ := Option.map_eq_some_iff.1 importKey_lengths.1
  have hpk : (keyOne.getPubKey ecdsaSweep).length = 33 := by decide
  refine ⟨t, hsweep, (importKey_iff isPubkeyAddress_two hsweep).1.2 ?_⟩
  rw [hlengths, hpk]
  exact UInt64.le_refl (txFee 10000000 191)

/-- A signature of 72 bytes is not: the transaction has 192 bytes, and pays for 191. -/
theorem not_importKey :
    ¬ ∀ (E : Ecdsa) (H : Hashes) (w : BRWallet) (feePerKb : UInt64) (key : SigningKey)
      (receiveAddress : BRAddress) (outputs : List SimpleUTXO) (t : BRTransaction),
      (∀ secret md, (E.sign secret md).length + 1 ≤ 72) →
      BRWallet.IsPubkeyAddress H receiveAddress → outputs ≠ [] →
      importKey E H w feePerKb key receiveAddress outputs = some t →
        PaysSweep feePerKb outputs t := by
  intro h
  obtain ⟨t, hsweep, hlengths⟩ := Option.map_eq_some_iff.1 importKey_lengths.2
  have hsign : ∀ secret md, (ecdsaSweep.sign secret md).length + 1 ≤ 72 := by
    intro secret md
    dsimp only [ecdsaSweep]
    split_ifs <;> decide
  have hpays := h _ _ _ _ _ _ _ t hsign isPubkeyAddress_two (List.cons_ne_nil _ _) hsweep
  have hpk : (keyOne.getPubKey ecdsaSweep).length = 33 := by decide
  have hcovers := (paysSweep_iff isPubkeyAddress_two hsweep).1 hpays
  rw [hlengths, hpk] at hcovers
  have hfee : ¬ txFee 10000000 192 ≤ txFee 10000000 191 := by decide
  exact hfee hcovers

end RavenWallet
