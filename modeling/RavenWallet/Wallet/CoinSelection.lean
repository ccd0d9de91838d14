/-
  Building transactions from the UTXOs of a wallet (`BRWalletCreateTxForOutputs`
  of BRWallet.c).

  UTXOs are taken one after the other until their amounts cover the requested
  outputs and the fee; what is left over goes to an unused address of the wallet,
  unless it is too little.  A transaction that gets too large is built again for
  less.

  * `selectInputs_done`: what the loop has taken when it ends;
  * `createTxForOutputs_funded`: a transaction that is returned pays the requested
    outputs and its fee, and none is returned only if the UTXOs cannot.
-/
import RavenWallet.Core.AssetScripts
import RavenWallet.Core.Transaction
import RavenWallet.Wallet.Accounting
import RavenWallet.Wallet.Spec

namespace RavenWallet

namespace BRWallet

/-! ## The loop -/

/-- `BRWalletMinOutputAmount`. -/
def minOutputAmount (w : BRWallet) : UInt64 :=
  let amount := (TX_MIN_OUTPUT_AMOUNT * w.feePerKb + MIN_FEE_PER_KB - 1) / MIN_FEE_PER_KB
  if amount > TX_MIN_OUTPUT_AMOUNT then amount else TX_MIN_OUTPUT_AMOUNT

/-- The variables of the loop. -/
structure Selection where
  transaction : BRTransaction
  balance : UInt64 := 0
  feeAmount : UInt64

/-- How the loop ends: with a transaction, or before one that would be too large. -/
inductive Selected where
  | done (s : Selection)
  | tooLarge (s : Selection)

/-- The transaction and the output of a UTXO, none if it is passed over.  No result if the index is
    beyond the outputs, which are read first. -/
def spendable (w : BRWallet) (o : UTXO) : Option (Option (BRTransaction × BRTxOutput)) :=
  match w.tx? o.hash with
  | none => some none
  | some tx => tx.outputs[o.n.toNat]?.map fun output =>
    if output.amount = 0 then none else some (tx, output)

/-- The fee, increased to round off the balance that remains in the wallet. -/
def roundFee (w : BRWallet) (amount feeAmount : UInt64) : UInt64 :=
  if w.balance > amount + feeAmount then feeAmount + (w.balance - (amount + feeAmount)) % 100
  else feeAmount

/-- The loop of `BRWalletCreateTxForOutputs`. -/
def selectInputs (H : Hashes) (w : BRWallet) (amount minAmount : UInt64) :
    List UTXO → Selection → Option Selected
  | [], s => some (.done s)
  | o :: utxos, s =>
    (w.spendable o).bind fun
      | none => selectInputs H w amount minAmount utxos s
      | some (tx, output) =>
        let transaction :=
          s.transaction.addInput H tx.txHash o.n output.amount output.script TXIN_SEQUENCE
        if transaction.size + TX_OUTPUT_SIZE > TX_MAX_SIZE then some (.tooLarge s)
        else
          let balance := s.balance + output.amount
          let feeAmount :=
            w.roundFee amount (txFee w.feePerKb (transaction.size + TX_OUTPUT_SIZE))
          if balance = amount + feeAmount ∨ balance ≥ amount + feeAmount + minAmount then
            some (.done { transaction, balance, feeAmount })
          else selectInputs H w amount minAmount utxos { transaction, balance, feeAmount }

/-- The transaction with the requested outputs, and no inputs yet. -/
def requestTx (H : Hashes) (outputs : List BRTxOutput) : BRTransaction :=
  outputs.foldl (fun tx o => tx.addOutput H o.amount o.script) {}

def requestAmount (outputs : List BRTxOutput) : UInt64 := (outputs.map BRTxOutput.amount).sum

/-- The loop on all UTXOs. -/
def select (H : Hashes) (w : BRWallet) (outputs : List BRTxOutput) : Option Selected :=
  w.selectInputs H (requestAmount outputs) w.minOutputAmount w.utxos
    { transaction := requestTx H outputs
      feeAmount := txFee w.feePerKb ((requestTx H outputs).size + TX_OUTPUT_SIZE) }

/-! ## The transaction -/

/-- The transaction with a change output, if what is left over is enough; none for insufficient
    funds. -/
def addChange (H : Hashes) (env : Env) (rand : ℕ → ℕ) (fuel : ℕ) (w : BRWallet)
    (amount : UInt64) (s : Selection) : Option (BRWallet × Option BRTransaction) :=
  if s.balance < amount + s.feeAmount then some (w, none)
  else if s.balance - (amount + s.feeAmount) > w.minOutputAmount then
    (w.unusedAddrs env fuel 1 true).map fun (w, addrs) =>
      (w, some ((s.transaction.addOutput H (s.balance - (amount + s.feeAmount))
        (some (BRAddress.scriptPubKey H (addrs.headD [])))).shuffleOutputs rand))
  else some (w, some s.transaction)

/-- The outputs that a smaller transaction is built for. -/
def smallerOutputs (w : BRWallet) (outputs : List BRTxOutput) (last : BRTxOutput) (s : Selection) :
    List BRTxOutput :=
  let amount := requestAmount outputs
  if last.amount > amount + s.feeAmount + w.minOutputAmount - s.balance then
    outputs.dropLast ++ [{ last with amount := last.amount - (amount + s.feeAmount - s.balance) }]
  else outputs.dropLast

/-- `BRWalletCreateTxForOutputs`: the wallet with its address chains extended, and the transaction
    if there is one.  No result if more smaller ones are tried than `fuel` says. -/
def createTxForOutputs (H : Hashes) (env : Env) (rand : ℕ → ℕ) :
    ℕ → BRWallet → List BRTxOutput → Option (BRWallet × Option BRTransaction)
  | 0, _, _ => none
  | fuel + 1, w, outputs =>
    (w.select H outputs).bind fun
      | .done s =>
        if outputs = [] then some (w, none)
        else w.addChange H env rand fuel (requestAmount outputs) s
      | .tooLarge s =>
        if w.balance < requestAmount outputs + txFee w.feePerKb (10 +
            w.utxos.length * TX_INPUT_SIZE + (outputs.length + 1) * TX_OUTPUT_SIZE) then
          some (w, none)
        else outputs.getLast?.bind fun last =>
          createTxForOutputs H env rand fuel w (w.smallerOutputs outputs last s)

/-! ## What the loop has taken -/

/-- The UTXOs exist, each once, and the balance is the sum of their amounts. -/
structure LedgerIdentity (w : BRWallet) : Prop where
  balance : w.balance.toNat = (w.utxos.map w.amount).sum
  nodup : w.utxos.Nodup
  exist : ∀ u ∈ w.utxos, ∃ tx, w.tx? u.hash = some tx ∧ tx.txHash = u.hash ∧
    u.n.toNat < tx.outputs.length

/-- The input for a UTXO is added, unless the UTXO is passed over. -/
def takeInput (H : Hashes) (w : BRWallet) (transaction : BRTransaction) (u : UTXO) :
    BRTransaction :=
  match w.spendable u with
  | some (some (tx, output)) =>
    transaction.addInput H tx.txHash u.n output.amount output.script TXIN_SEQUENCE
  | _ => transaction

/-- The requested outputs, with the inputs for the given UTXOs. -/
def withInputs (H : Hashes) (w : BRWallet) (outputs : List BRTxOutput) (us : List UTXO) :
    BRTransaction :=
  us.foldl (w.takeInput H) (requestTx H outputs)

/-- The amounts and the fee of the transaction with all inputs do not overflow. -/
structure NoOverflow (H : Hashes) (w : BRWallet) (outputs : List BRTxOutput) : Prop where
  fee : FeeFits w.feePerKb.toNat ((w.withInputs H outputs w.utxos).size + TX_OUTPUT_SIZE)
  sum : (outputs.map fun o => o.amount.toNat).sum +
    feeOf w.feePerKb.toNat ((w.withInputs H outputs w.utxos).size + TX_OUTPUT_SIZE) + 99 +
      w.minOutputAmount.toNat < 2 ^ 64

/-- The fee of a transaction before its change output is added. -/
def requiredFee (w : BRWallet) (tx : BRTransaction) : ℕ :=
  (txFee w.feePerKb (tx.size + TX_OUTPUT_SIZE)).toNat

/-- The variables after the given UTXOs. -/
structure Taken (H : Hashes) (w : BRWallet) (outputs : List BRTxOutput) (us : List UTXO)
    (s : Selection) : Prop where
  transaction : s.transaction = w.withInputs H outputs us
  balance : s.balance.toNat = (us.map w.amount).sum
  fee_ge : w.requiredFee s.transaction ≤ s.feeAmount.toNat
  fee_le : s.feeAmount.toNat ≤ w.requiredFee s.transaction + 99
  rounded : w.requiredFee s.transaction < s.feeAmount.toNat →
    (outputs.map fun o => o.amount.toNat).sum + s.feeAmount.toNat ≤ w.balance.toNat

section
variable {H : Hashes} {w : BRWallet} {outputs : List BRTxOutput} {us vs : List UTXO} {u : UTXO}

theorem withInputs_append : w.withInputs H outputs (us ++ vs) =
    vs.foldl (w.takeInput H) (w.withInputs H outputs us) := List.foldl_append

theorem size_takeInput_le (tx : BRTransaction) : tx.size ≤ (w.takeInput H tx u).size := by
  unfold takeInput
  split
  · exact BRTransaction.size_addInput_le ..
  · exact le_refl _

theorem size_foldl_takeInput_le (tx : BRTransaction) :
    tx.size ≤ (us.foldl (w.takeInput H) tx).size := by
  induction us generalizing tx with
  | nil => exact le_refl _
  | cons u us ih => exact (size_takeInput_le tx).trans (ih _)

theorem size_withInputs_le (h : us ++ vs = w.utxos) :
    (w.withInputs H outputs us).size ≤ (w.withInputs H outputs w.utxos).size := by
  rw [← h, withInputs_append]
  exact size_foldl_takeInput_le _

/-- Up to the last UTXO, no fee overflows. -/
theorem NoOverflow.feeFits (hw : w.NoOverflow H outputs) (h : us ++ vs = w.utxos) :
    FeeFits w.feePerKb.toNat ((w.withInputs H outputs us).size + TX_OUTPUT_SIZE) :=
  hw.fee.mono (Nat.add_le_add_right (size_withInputs_le h) _)

theorem NoOverflow.requiredFee_le (hw : w.NoOverflow H outputs) (h : us ++ vs = w.utxos) :
    (outputs.map fun o => o.amount.toNat).sum + w.requiredFee (w.withInputs H outputs us) + 99 +
      w.minOutputAmount.toNat < 2 ^ 64 := by
  have hsum := hw.sum
  have hmono : feeOf w.feePerKb.toNat ((w.withInputs H outputs us).size + TX_OUTPUT_SIZE) ≤
      feeOf w.feePerKb.toNat ((w.withInputs H outputs w.utxos).size + TX_OUTPUT_SIZE) :=
    feeOf_mono (Nat.add_le_add_right (size_withInputs_le h) _)
  rw [requiredFee, txFee_toNat (hw.feeFits h)]
  omega

theorem requestAmount_toNat (hw : w.NoOverflow H outputs) :
    (requestAmount outputs).toNat = (outputs.map fun o => o.amount.toNat).sum := by
  have hsum := hw.sum
  have hamounts : (outputs.map BRTxOutput.amount).map UInt64.toNat =
      outputs.map fun o => o.amount.toNat := by
    rw [List.map_map]
    rfl
  rw [requestAmount, toNat_sum_of_lt (by rw [hamounts]; omega), hamounts]

/-- A UTXO is passed over if its amount is zero. -/
theorem spendable_eq (hw : w.LedgerIdentity) (hu : u ∈ w.utxos) : ∃ tx o,
    w.tx? u.hash = some tx ∧ tx.txHash = u.hash ∧ w.amount u = o.amount.toNat ∧
      w.spendable u = some (if o.amount = 0 then none else some (tx, o)) := by
  obtain ⟨tx, htx, hhash, hn⟩ := hw.exist u hu
  have ho : tx.outputs[u.n.toNat]? = some tx.outputs[u.n.toNat] := List.getElem?_eq_getElem hn
  refine ⟨tx, tx.outputs[u.n.toNat], htx, hhash, ?_, ?_⟩
  · rw [amount, output?, htx, Option.bind_eq_bind, Option.bind_some, ho]
    rfl
  · rw [spendable, htx]
    dsimp only
    rw [ho, Option.map_some]

theorem roundFee_spec {amount feeAmount : UInt64}
    (h : amount.toNat + feeAmount.toNat + 99 < 2 ^ 64) :
    feeAmount.toNat ≤ (w.roundFee amount feeAmount).toNat ∧
      (w.roundFee amount feeAmount).toNat ≤ feeAmount.toNat + 99 ∧
      (feeAmount.toNat < (w.roundFee amount feeAmount).toNat →
        amount.toNat + (w.roundFee amount feeAmount).toNat ≤ w.balance.toNat) := by
  have hadd : (amount + feeAmount).toNat = amount.toNat + feeAmount.toNat :=
    toNat_add_of_lt (by omega)
  rw [roundFee]
  by_cases hmore : w.balance > amount + feeAmount
  · have hlt : amount.toNat + feeAmount.toNat < w.balance.toNat :=
      hadd ▸ UInt64.lt_iff_toNat_lt.1 hmore
    have hsub : (w.balance - (amount + feeAmount)).toNat =
        w.balance.toNat - (amount.toNat + feeAmount.toNat) := by
      rw [toNat_sub_of_le (by omega), hadd]
    have hmod : ((w.balance - (amount + feeAmount)) % 100).toNat =
        (w.balance.toNat - (amount.toNat + feeAmount.toNat)) % 100 := by
      rw [UInt64.toNat_mod, hsub]
      rfl
    have hround : (feeAmount + (w.balance - (amount + feeAmount)) % 100).toNat =
        feeAmount.toNat + (w.balance.toNat - (amount.toNat + feeAmount.toNat)) % 100 := by
      rw [toNat_add_of_lt (by omega), hmod]
    rw [if_pos hmore, hround]
    omega
  · rw [if_neg hmore]
    omega

theorem Taken.pass {s : Selection} (h : Taken H w outputs us s) (hu : w.spendable u = some none)
    (h0 : w.amount u = 0) : Taken H w outputs (us ++ [u]) s := by
  have htx : w.withInputs H outputs (us ++ [u]) = w.withInputs H outputs us := by
    rw [withInputs_append, List.foldl_cons, List.foldl_nil, takeInput, hu]
  refine ⟨h.transaction.trans htx.symm, ?_, h.fee_ge, h.fee_le, h.rounded⟩
  rw [h.balance, List.map_append, List.sum_append, List.map_singleton, List.sum_singleton, h0,
    Nat.add_zero]

/-- The variables after one more input. -/
theorem Taken.take {s : Selection} (h : Taken H w outputs us s) (hw : w.LedgerIdentity)
    (hover : w.NoOverflow H outputs) (hall : us ++ u :: vs = w.utxos) {tx : BRTransaction}
    {o : BRTxOutput} (hu : w.spendable u = some (some (tx, o))) (ho : w.amount u = o.amount.toNat) :
    let transaction := s.transaction.addInput H tx.txHash u.n o.amount o.script TXIN_SEQUENCE
    Taken H w outputs (us ++ [u]) { transaction, balance := s.balance + o.amount
                                    feeAmount := w.roundFee (requestAmount outputs)
                                      (txFee w.feePerKb (transaction.size + TX_OUTPUT_SIZE)) } := by
  intro transaction
  have hall' : (us ++ [u]) ++ vs = w.utxos := by rw [List.append_assoc, List.singleton_append, hall]
  have htx : transaction = w.withInputs H outputs (us ++ [u]) := by
    rw [withInputs_append, List.foldl_cons, List.foldl_nil, takeInput, hu, ← h.transaction]
  have hfit := hover.requiredFee_le hall'
  rw [← htx, requiredFee] at hfit
  have hround : (requestAmount outputs).toNat +
      (txFee w.feePerKb (transaction.size + TX_OUTPUT_SIZE)).toNat + 99 < 2 ^ 64 := by
    rw [requestAmount_toNat hover]
    omega
  obtain ⟨hge, hle, hrounded⟩ := roundFee_spec (w := w) hround
  rw [requestAmount_toNat hover] at hrounded
  refine ⟨htx, ?_, hge, hle, hrounded⟩
  -- the balance so far is a part of that of the wallet
  have hsum : (us.map w.amount).sum + (o.amount.toNat + (vs.map w.amount).sum) =
      w.balance.toNat := by
    rw [hw.balance, ← hall, List.map_append, List.sum_append, List.map_cons, List.sum_cons, ho]
  have hlt := w.balance.toNat_lt
  have hbalance := h.balance
  change (s.balance + o.amount).toNat = _
  rw [toNat_add_of_lt (by omega), hbalance, List.map_append, List.sum_append, List.map_singleton,
    List.sum_singleton, ho]

/-- The loop is left when the balance covers the outputs and the fee. -/
theorem le_of_enough {amount feeAmount minAmount balance : UInt64}
    (h : amount.toNat + feeAmount.toNat + minAmount.toNat < 2 ^ 64)
    (henough : balance = amount + feeAmount ∨ balance ≥ amount + feeAmount + minAmount) :
    amount.toNat + feeAmount.toNat ≤ balance.toNat := by
  have hadd : (amount + feeAmount).toNat = amount.toNat + feeAmount.toNat :=
    toNat_add_of_lt (by omega)
  rcases henough with heq | hge
  · rw [heq, hadd]
  · have hmin : (amount + feeAmount + minAmount).toNat =
        amount.toNat + feeAmount.toNat + minAmount.toNat := by
      rw [toNat_add_of_lt (by omega), hadd]
    have hle := UInt64.le_iff_toNat_le.1 hge
    omega

/-- The loop ends with enough, or with all UTXOs. -/
theorem selectInputs_done {s s' : Selection} (hw : w.LedgerIdentity)
    (hover : w.NoOverflow H outputs) (hall : us ++ vs = w.utxos) (h : Taken H w outputs us s)
    (hs : w.selectInputs H (requestAmount outputs) w.minOutputAmount vs s = some (.done s')) :
    ∃ us' vs', us' ++ vs' = w.utxos ∧ Taken H w outputs us' s' ∧
      (vs' = [] ∨ (outputs.map fun o => o.amount.toNat).sum + s'.feeAmount.toNat ≤
        s'.balance.toNat) := by
  induction vs generalizing us s with
  | nil =>
    rw [selectInputs] at hs
    obtain rfl := Selected.done.inj (Option.some.inj hs)
    exact ⟨us, [], hall, h, Or.inl rfl⟩
  | cons u vs ih =>
    have hall' : (us ++ [u]) ++ vs = w.utxos := by
      rw [List.append_assoc, List.singleton_append, hall]
    obtain ⟨tx, o, -, -, ho, hu⟩ := spendable_eq hw (hall ▸ List.mem_append_right us List.mem_cons_self)
    rw [selectInputs, hu, Option.bind_some] at hs
    by_cases h0 : o.amount = 0
    · rw [if_pos h0] at hu hs
      exact ih hall' (h.pass hu (by rw [ho, h0]; rfl)) hs
    · rw [if_neg h0] at hu hs
      have htake := h.take hw hover hall hu ho
      dsimp only at hs
      split_ifs at hs with hlarge henough
      · cases hs
      · obtain rfl := Selected.done.inj (Option.some.inj hs)
        refine ⟨us ++ [u], vs, hall', htake, Or.inr ?_⟩
        have hfit := hover.requiredFee_le hall'
        have hle := htake.fee_le
        rw [htake.transaction] at hle
        rw [← requestAmount_toNat hover] at hfit ⊢
        exact le_of_enough (by omega) henough
      · exact ih hall' htake hs

/-- The loop adds inputs only. -/
theorem selectInputs_outputs {amount minAmount : UInt64} {s s' : Selection}
    (hs : w.selectInputs H amount minAmount vs s = some (.done s')) :
    s'.transaction.outputs = s.transaction.outputs := by
  induction vs generalizing s with
  | nil =>
    rw [selectInputs] at hs
    obtain rfl := Selected.done.inj (Option.some.inj hs)
    rfl
  | cons u vs ih =>
    rw [selectInputs] at hs
    obtain ⟨o, -, hs⟩ := Option.bind_eq_some_iff.1 hs
    rcases o with _ | ⟨tx, o⟩
    · exact ih hs
    · dsimp only at hs
      split_ifs at hs with hlarge henough
      · cases hs
      · obtain rfl := Selected.done.inj (Option.some.inj hs)
        rfl
      · have hrest := ih hs
        exact hrest

/-- With the UTXOs of the ledger identity, no index is out of range. -/
theorem selectInputs_isSome (hw : w.LedgerIdentity) (amount minAmount : UInt64)
    (hsub : ∀ u ∈ vs, u ∈ w.utxos) (s : Selection) :
    (w.selectInputs H amount minAmount vs s).isSome := by
  induction vs generalizing s with
  | nil => rfl
  | cons u vs ih =>
    have ih' := ih fun v hv => hsub v (List.mem_cons_of_mem u hv)
    obtain ⟨tx, o, -, -, -, hu⟩ := spendable_eq hw (hsub u List.mem_cons_self)
    rw [selectInputs, hu, Option.bind_some]
    by_cases h0 : o.amount = 0
    · rw [if_pos h0]
      exact ih' s
    · rw [if_neg h0]
      dsimp only
      split_ifs
      · rfl
      · rfl
      · exact ih' _

theorem select_done {s : Selection} (hw : w.LedgerIdentity) (hover : w.NoOverflow H outputs)
    (hs : w.select H outputs = some (.done s)) :
    ∃ us vs, us ++ vs = w.utxos ∧ Taken H w outputs us s ∧
      (vs = [] ∨ (outputs.map fun o => o.amount.toNat).sum + s.feeAmount.toNat ≤
        s.balance.toNat) :=
  selectInputs_done hw hover (List.nil_append _)
    ⟨rfl, rfl, le_refl _, Nat.le_add_right _ _, fun h => absurd h (lt_irrefl _)⟩ hs

/-! ## Inputs and outputs -/

theorem takeInputs_outputs (tx : BRTransaction) :
    (us.foldl (w.takeInput H) tx).outputs = tx.outputs := by
  induction us generalizing tx with
  | nil => rfl
  | cons u us ih =>
    rw [List.foldl_cons, ih, takeInput]
    split <;> rfl

/-- The inputs are the UTXOs that are worth something. -/
theorem takeInputs_inputs (hw : w.LedgerIdentity) (hsub : ∀ u ∈ us, u ∈ w.utxos)
    (tx : BRTransaction) :
    (us.foldl (w.takeInput H) tx).outpoints =
        tx.outpoints ++ us.filter (fun u => decide (w.amount u ≠ 0)) ∧
      (us.foldl (w.takeInput H) tx).inAmount = tx.inAmount + (us.map w.amount).sum := by
  induction us generalizing tx with
  | nil => exact ⟨(List.append_nil _).symm, rfl⟩
  | cons u us ih =>
    obtain ⟨t, o, -, hhash, ho, hu⟩ := spendable_eq hw (hsub u List.mem_cons_self)
    obtain ⟨houtpoints, hamount⟩ :=
      ih (fun v hv => hsub v (List.mem_cons_of_mem u hv)) (w.takeInput H tx u)
    rw [List.foldl_cons, houtpoints, hamount, takeInput, hu, List.map_cons, List.sum_cons]
    by_cases h0 : o.amount = 0
    · have hzero : w.amount u = 0 := by rw [ho, h0]; rfl
      rw [if_pos h0, List.filter_cons_of_neg (by simp [hzero]), hzero, Nat.zero_add]
      exact ⟨rfl, rfl⟩
    · have hne : w.amount u ≠ 0 := fun h => h0 (UInt64.toNat_inj.1 (ho.symm.trans h))
      rw [if_neg h0, List.filter_cons_of_pos (by simp [hne]), BRTransaction.inAmount_addInput, ho,
        Nat.add_assoc]
      refine ⟨?_, rfl⟩
      simp only [BRTransaction.outpoints, BRTransaction.addInput, List.map_append, List.map_cons,
        List.map_nil, List.append_assoc, List.singleton_append, BRTxInput.outpoint, hhash]

/-- What an output pays. -/
def paid (o : BRTxOutput) : UInt64 × Option Bytes := (o.amount, o.script)

theorem requestTx_outputs (outputs : List BRTxOutput) (tx : BRTransaction) :
    ((outputs.foldl (fun tx o => tx.addOutput H o.amount o.script) tx).outputs.map paid =
        tx.outputs.map paid ++ outputs.map paid) ∧
      (outputs.foldl (fun tx o => tx.addOutput H o.amount o.script) tx).inputs = tx.inputs := by
  induction outputs generalizing tx with
  | nil => exact ⟨(List.append_nil _).symm, rfl⟩
  | cons o outputs ih =>
    obtain ⟨houtputs, hinputs⟩ := ih (tx.addOutput H o.amount o.script)
    rw [List.foldl_cons, houtputs, hinputs, List.map_cons]
    refine ⟨?_, rfl⟩
    rw [BRTransaction.addOutput, List.map_append, List.append_assoc]
    rfl

theorem outAmount_eq (tx : BRTransaction) :
    tx.outAmount = ((tx.outputs.map paid).map fun p => p.1.toNat).sum := by
  rw [BRTransaction.outAmount, List.map_map]
  rfl

/-! ## The result -/

/-- An address that stands for a public key. -/
def IsPubkeyAddress (H : Hashes) (a : BRAddress) : Prop :=
  (BRAddress.decode H a).length = 21 ∧
    (BRAddress.decode H a).headD 0 = RAVENCOIN_PUBKEY_ADDRESS

/-- The internal addresses can be derived, and stand for public keys. -/
structure Derives (H : Hashes) (env : Env) (w : BRWallet) : Prop where
  derived : ∀ k, ∃ a, env.address true k = some a
  pubkey : ∀ k a, env.address true k = some a → IsPubkeyAddress H a
  chain : ∀ a ∈ w.internalChain, IsPubkeyAddress H a

/-- The transaction spends UTXOs of the wallet, each once. -/
structure Spends (w : BRWallet) (tx : BRTransaction) : Prop where
  nodup : tx.outpoints.Nodup
  utxos : ∀ u ∈ tx.outpoints, u ∈ w.utxos
  amounts : tx.inAmount = (tx.outpoints.map w.amount).sum

/-- The transaction pays what was requested and, with at most one more output, an address that is
    unused. -/
structure Pays (H : Hashes) (w w' : BRWallet) (outputs change : List BRTxOutput)
    (tx : BRTransaction) : Prop where
  outputs : (tx.outputs.map paid).Perm (outputs.map paid ++ change.map paid)
  single : change.length ≤ 1
  unused : ∀ o ∈ change, ∃ a ∈ w'.internalChain, a ∉ w.usedAddrs ∧
    o.script = some (BRAddress.scriptPubKey H a)

/-- The fee is enough and not too much.  With a change output that lengthens the encoding of the
    number of outputs, nothing is said. -/
structure PaysFee (w : BRWallet) (outputs change : List BRTxOutput) (tx : BRTransaction)
    (fee : ℕ) : Prop where
  sum : tx.inAmount = tx.outAmount + fee
  ge : change = [] ∨ varIntSize (outputs.length + 1) = varIntSize outputs.length →
    (txFee w.feePerKb tx.size).toNat ≤ fee
  le_change : change ≠ [] → varIntSize (outputs.length + 1) = varIntSize outputs.length →
    fee ≤ (txFee w.feePerKb tx.size).toNat + 99
  le_no_change : change = [] →
    fee ≤ (txFee w.feePerKb (tx.size + TX_OUTPUT_SIZE)).toNat + w.minOutputAmount.toNat + 99

theorem IsPubkeyAddress.length_scriptPubKey {a : BRAddress} (h : IsPubkeyAddress H a) :
    (BRAddress.scriptPubKey H a).length = 25 := by
  rw [BRAddress.scriptPubKey, if_pos h.1, if_pos h.2]
  exact BRAddress.length_p2pkh (by rw [List.length_tail, h.1])

theorem IsPubkeyAddress.ne_nil {a : BRAddress} (h : IsPubkeyAddress H a) : a ≠ [] := by
  rintro rfl
  have hlength : (BRAddress.decode H []).length = 0 := rfl
  exact absurd (hlength.symm.trans h.1) (by decide)

/-- The address of the change output. -/
theorem unusedAddrs_pubkey {env : Env} {fuel : ℕ} {w' : BRWallet} {addrs : List BRAddress}
    (hd : w.Derives H env) (h : w.unusedAddrs env fuel 1 true = some (w', addrs)) :
    ∃ a, addrs = [a] ∧ a ∈ w'.internalChain ∧ a ∉ w.usedAddrs ∧ IsPubkeyAddress H a := by
  obtain ⟨hmem, hlength⟩ := unusedAddrs_addrs h
  have hderived : ∀ k, ∃ a, env.address true k = some a ∧ a ≠ [] := by
    intro k
    obtain ⟨a, ha⟩ := hd.derived k
    exact ⟨a, ha, (hd.pubkey k a ha).ne_nil⟩
  obtain ⟨a, rfl⟩ := List.length_eq_one_iff.1 (hlength hderived)
  obtain ⟨hchain, hunused⟩ := hmem a List.mem_cons_self
  obtain ⟨c, aa, hgrows, rfl, -⟩ := unusedAddrs_some h
  exact ⟨a, rfl, hchain, hunused, hgrows.forall hd.chain hd.pubkey a hchain⟩

/-- The inputs and outputs that were taken. -/
theorem Taken.spends {s : Selection} (h : Taken H w outputs us s) (hw : w.LedgerIdentity)
    (hall : us ++ vs = w.utxos) : w.Spends s.transaction ∧
      s.transaction.inAmount = s.balance.toNat ∧
      s.transaction.outputs.map paid = outputs.map paid := by
  have hsub : ∀ u ∈ us, u ∈ w.utxos := fun u hu => hall ▸ List.mem_append_left vs hu
  have hnodup : us.Nodup := (hall ▸ hw.nodup : (us ++ vs).Nodup).of_append_left
  obtain ⟨houtpoints, hamount⟩ := takeInputs_inputs hw hsub (requestTx H outputs)
  have hinputs := (requestTx_outputs (H := H) outputs {}).2
  have hout : (us.foldl (w.takeInput H) (requestTx H outputs)).outputs =
      (requestTx H outputs).outputs := takeInputs_outputs _
  have hnone : (requestTx H outputs).outpoints = [] := by
    rw [BRTransaction.outpoints, requestTx, hinputs]
    rfl
  have hzero : (requestTx H outputs).inAmount = 0 := by
    rw [BRTransaction.inAmount, requestTx, hinputs]
    rfl
  rw [hnone, List.nil_append] at houtpoints
  rw [hzero, Nat.zero_add] at hamount
  rw [h.transaction, withInputs, h.balance]
  refine ⟨⟨?_, ?_, ?_⟩, hamount, ?_⟩
  · rw [houtpoints]
    exact hnodup.filter _
  · intro u hu
    rw [houtpoints] at hu
    exact hsub u (List.mem_of_mem_filter hu)
  · have hsplit := List.sum_map_filter_add_sum_map_filter_not (fun u => w.amount u ≠ 0) w.amount us
    have hrest : ((us.filter fun u => ¬ w.amount u ≠ 0).map w.amount).sum = 0 := by
      refine List.sum_eq_zero fun x hx => ?_
      obtain ⟨u, hu, rfl⟩ := List.mem_map.1 hx
      exact not_not.1 (of_decide_eq_true (List.mem_filter.1 hu).2)
    rw [hamount, houtpoints, ← hsplit, hrest, Nat.add_zero]
  · rw [hout, requestTx, (requestTx_outputs outputs {}).1]
    rfl

theorem outAmount_of_paid {tx : BRTransaction}
    (h : tx.outputs.map paid = outputs.map paid) :
    tx.outAmount = (outputs.map fun o => o.amount.toNat).sum := by
  rw [outAmount_eq, h, List.map_map]
  rfl

/-- Without a change output, what is left over is part of the fee. -/
theorem Taken.no_change {s : Selection} (h : Taken H w outputs us s) (hw : w.LedgerIdentity)
    (hover : w.NoOverflow H outputs) (hall : us ++ vs = w.utxos)
    (hle : (outputs.map fun o => o.amount.toNat).sum + s.feeAmount.toNat ≤ s.balance.toNat)
    (hsmall : s.balance.toNat - ((outputs.map fun o => o.amount.toNat).sum + s.feeAmount.toNat) ≤
      w.minOutputAmount.toNat) :
    w.PaysFee outputs [] s.transaction
      (s.balance.toNat - (outputs.map fun o => o.amount.toNat).sum) := by
  obtain ⟨-, hin, hout⟩ := h.spends hw hall
  have hge := h.fee_ge
  have hfee := h.fee_le
  have hfits := hover.feeFits hall
  rw [← h.transaction] at hfits
  have hmono : (txFee w.feePerKb s.transaction.size).toNat ≤ w.requiredFee s.transaction := by
    rw [requiredFee, txFee_toNat hfits, txFee_toNat (hfits.mono (Nat.le_add_right _ _))]
    exact feeOf_mono (Nat.le_add_right _ _)
  refine ⟨?_, fun _ => by omega, fun hne => absurd rfl hne, fun _ => ?_⟩
  · rw [hin, outAmount_of_paid hout]
    omega
  · rw [requiredFee] at hfee
    omega

/-- A change output takes what is left over. -/
theorem Taken.change {s : Selection} (h : Taken H w outputs us s) (hw : w.LedgerIdentity)
    (hall : us ++ vs = w.utxos) {amount : UInt64} {script : Bytes} (hscript : script.length = 25)
    (hamount : (outputs.map fun o => o.amount.toNat).sum + s.feeAmount.toNat + amount.toNat =
      s.balance.toNat) (o : BRTxOutput) (rand : ℕ → ℕ) :
    w.PaysFee outputs [o] ((s.transaction.addOutput H amount (some script)).shuffleOutputs rand)
      s.feeAmount.toNat := by
  obtain ⟨-, hin, hout⟩ := h.spends hw hall
  have hlength : s.transaction.outputs.length = outputs.length := by
    rw [← List.length_map paid, hout, List.length_map]
  have hsize : varIntSize (outputs.length + 1) = varIntSize outputs.length →
      ((s.transaction.addOutput H amount (some script)).shuffleOutputs rand).size =
        s.transaction.size + TX_OUTPUT_SIZE := by
    intro hcount
    have hadd : (s.transaction.addOutput H amount (some script)).size +
        varIntSize s.transaction.outputs.length = s.transaction.size +
        varIntSize (s.transaction.outputs.length + 1) + (8 + varIntSize script.length +
        script.length) := BRTransaction.size_addOutput amount script
    have hsmall : varIntSize script.length = 1 := by rw [hscript]; rfl
    have houtput : TX_OUTPUT_SIZE = 34 := rfl
    rw [hlength, hcount, hsmall, hscript] at hadd
    rw [BRTransaction.size_shuffleOutputs]
    omega
  refine ⟨?_, ?_, ?_, fun hnil => absurd hnil (List.cons_ne_nil _ _)⟩
  · rw [BRTransaction.outAmount_shuffleOutputs, BRTransaction.outAmount_addOutput,
      outAmount_of_paid hout]
    change s.transaction.inAmount = _
    omega
  · rintro (hnil | hcount)
    · cases hnil
    · rw [hsize hcount]
      exact h.fee_ge
  · intro _ hcount
    rw [hsize hcount]
    exact h.fee_le

/-- The three results. -/
theorem addChange_cases {env : Env} {rand : ℕ → ℕ} {fuel : ℕ} {w' : BRWallet} {amount : UInt64}
    {s : Selection} {r : Option BRTransaction}
    (h : w.addChange H env rand fuel amount s = some (w', r)) :
    (s.balance < amount + s.feeAmount ∧ r = none) ∨
    (amount + s.feeAmount ≤ s.balance ∧ s.balance - (amount + s.feeAmount) ≤ w.minOutputAmount ∧
      r = some s.transaction) ∨
    (amount + s.feeAmount ≤ s.balance ∧ ∃ addrs, w.unusedAddrs env fuel 1 true = some (w', addrs) ∧
      r = some ((s.transaction.addOutput H (s.balance - (amount + s.feeAmount))
        (some (BRAddress.scriptPubKey H (addrs.headD [])))).shuffleOutputs rand)) := by
  rw [addChange] at h
  split_ifs at h with hno hmore
  · exact Or.inl ⟨hno, (Prod.mk.inj (Option.some.inj h)).2.symm⟩
  · obtain ⟨⟨w₁, addrs⟩, haddrs, h⟩ := Option.map_eq_some_iff.1 h
    obtain ⟨rfl, rfl⟩ := Prod.mk.inj h
    exact Or.inr (Or.inr ⟨UInt64.not_lt.1 hno, addrs, haddrs, rfl⟩)
  · exact Or.inr (Or.inl ⟨UInt64.not_lt.1 hno, UInt64.not_lt.1 hmore,
      (Prod.mk.inj (Option.some.inj h)).2.symm⟩)

/-- The transaction that is returned pays the requested outputs, and a fee that is enough; none is
    returned only if the UTXOs cannot pay for all of it. -/
theorem createTxForOutputs_funded {env : Env} {rand : ℕ → ℕ} {fuel : ℕ} {w' : BRWallet}
    {r : Option BRTransaction} (hw : w.LedgerIdentity) (hd : w.Derives H env)
    (hover : w.NoOverflow H outputs) (hne : outputs ≠ [])
    (hsmall : ∀ s, w.select H outputs ≠ some (.tooLarge s))
    (hr : createTxForOutputs H env rand fuel w outputs = some (w', r)) :
    (∀ tx, r = some tx → w.Spends tx ∧ ∃ change fee, Pays H w w' outputs change tx ∧
      w.PaysFee outputs change tx fee) ∧
    (r = none → (w.utxos.map w.amount).sum < (outputs.map fun o => o.amount.toNat).sum +
      (txFee w.feePerKb ((w.withInputs H outputs w.utxos).size + TX_OUTPUT_SIZE)).toNat) := by
  obtain ⟨s, hs⟩ : ∃ s, w.select H outputs = some (.done s) := by
    obtain ⟨sel, hsel⟩ := Option.isSome_iff_exists.1 (selectInputs_isSome (H := H) hw
      (requestAmount outputs) w.minOutputAmount (fun u hu => hu) _)
    cases sel with
    | done s => exact ⟨s, hsel⟩
    | tooLarge s => exact absurd hsel (hsmall s)
  obtain ⟨us, vs, hall, htaken, henough⟩ := select_done hw hover hs
  obtain ⟨hspends, hin, hout⟩ := htaken.spends hw hall
  have hfit := hover.requiredFee_le hall
  have hfee := htaken.fee_le
  rw [htaken.transaction] at hfee
  have hrequest := requestAmount_toNat hover
  have hadd : (requestAmount outputs + s.feeAmount).toNat =
      (outputs.map fun o => o.amount.toNat).sum + s.feeAmount.toNat := by
    rw [toNat_add_of_lt (by omega), hrequest]
  cases fuel with
  | zero => cases hr
  | succ fuel =>
  rw [createTxForOutputs, hs, Option.bind_some] at hr
  dsimp only at hr
  rw [if_neg hne] at hr
  rcases addChange_cases hr with ⟨hno, rfl⟩ | ⟨hle, hmin, rfl⟩ | ⟨hle, addrs, haddrs, rfl⟩
  · -- the loop has taken all UTXOs, and has not rounded the fee
    refine ⟨fun tx htx => absurd htx (Option.some_ne_none tx).symm, fun _ => ?_⟩
    have hlt := UInt64.lt_iff_toNat_lt.1 hno
    rw [hadd] at hlt
    obtain rfl : vs = [] := henough.resolve_right (Nat.not_le.2 hlt)
    rw [List.append_nil] at hall
    subst hall
    have hbalance := htaken.balance
    have hrounded := htaken.rounded
    have hge := htaken.fee_ge
    have hledger := hw.balance
    rw [htaken.transaction] at hrounded hge
    rw [requiredFee] at hrounded hge
    omega
  · refine ⟨fun tx htx => ?_, fun h => absurd h (Option.some_ne_none _)⟩
    obtain rfl := Option.some.inj htx
    have hle' := UInt64.le_iff_toNat_le.1 hle
    have hmin' := UInt64.le_iff_toNat_le.1 hmin
    rw [toNat_sub_of_le hle', hadd] at hmin'
    rw [hadd] at hle'
    refine ⟨hspends, [], _, ⟨?_, Nat.zero_le _, fun o ho => absurd ho List.not_mem_nil⟩,
      htaken.no_change hw hover hall hle' hmin'⟩
    rw [hout, List.map_nil, List.append_nil]
  · refine ⟨fun tx htx => ?_, fun h => absurd h (Option.some_ne_none _)⟩
    obtain rfl := Option.some.inj htx
    obtain ⟨a, rfl, hchain, hunused, hpubkey⟩ := unusedAddrs_pubkey hd haddrs
    have hle' := UInt64.le_iff_toNat_le.1 hle
    have hsub := toNat_sub_of_le hle'
    rw [hadd] at hsub hle'
    refine ⟨⟨hspends.nodup, hspends.utxos, hspends.amounts⟩,
      [{ amount := s.balance - (requestAmount outputs + s.feeAmount)
         script := some (BRAddress.scriptPubKey H a) }], _, ⟨?_, le_refl _, ?_⟩,
      htaken.change hw hall hpubkey.length_scriptPubKey (by omega) _ rand⟩
    · refine ((shuffle_perm rand _).map paid).trans (List.Perm.of_eq ?_)
      rw [BRTransaction.addOutput, List.map_append, hout]
      rfl
    · intro o ho
      rw [List.mem_singleton.1 ho]
      exact ⟨a, hchain, hunused, rfl⟩

/-- An address for all indices. -/
def keyAddress : BRAddress :=
  base58CheckEncode sampleHashes ADDRESS_SIZE (RAVENCOIN_PUBKEY_ADDRESS :: List.replicate 20 1)

def keyEnv : Env := ⟨fun _ _ => some keyAddress, fun _ _ => false⟩

/-- A wallet with a single UTXO. -/
def coinWallet : BRWallet :=
  { balance := 3000000, utxos := [⟨1, 0⟩], transactions := [0], allTx := AList.singleton 1 0
    heap := ⟨[some { txHash := 1, outputs := [{ address := keyAddress, amount := 3000000 }] }]⟩ }

theorem coinWallet_ledgerIdentity : coinWallet.LedgerIdentity := by
  refine ⟨by decide, by decide, fun u hu => ?_⟩
  obtain rfl : u = ⟨1, 0⟩ := List.mem_singleton.1 hu
  exact ⟨_, rfl, rfl, by decide⟩

theorem coinWallet_derives : coinWallet.Derives sampleHashes keyEnv := by
  have hkey : IsPubkeyAddress sampleHashes keyAddress := by
    unfold IsPubkeyAddress
    decide +kernel
  refine ⟨fun _ => ⟨keyAddress, rfl⟩, fun k a ha => ?_, fun a ha => absurd ha List.not_mem_nil⟩
  rwa [← Option.some.inj ha]

theorem ne_tooLarge (h : (w.select H outputs).all fun
    | .done _ => true
    | .tooLarge _ => false) (s : Selection) : w.select H outputs ≠ some (.tooLarge s) := by
  intro hs
  rw [hs] at h
  exact Bool.false_ne_true h

/-- A payment that leaves change. -/
def smallOutput : BRTxOutput := { amount := 1000000, script := some (List.replicate 25 0) }

theorem createTxForOutputs_funded_coinWallet : ∃ w' tx,
    createTxForOutputs sampleHashes keyEnv id 3 coinWallet [smallOutput] = some (w', some tx) ∧
      coinWallet.Spends tx ∧ ∃ change fee, Pays sampleHashes coinWallet w' [smallOutput] change tx ∧
        coinWallet.PaysFee [smallOutput] change tx fee := by
  have hsome : (createTxForOutputs sampleHashes keyEnv id 3 coinWallet [smallOutput]).any
      (fun r => r.2.isSome) = true := by decide +kernel
  obtain ⟨⟨w', r⟩, hr, hr'⟩ := (Option.any_eq_true _ _).1 hsome
  obtain ⟨tx, rfl⟩ := Option.isSome_iff_exists.1 hr'
  obtain ⟨hspends, hpays⟩ := (createTxForOutputs_funded coinWallet_ledgerIdentity
    coinWallet_derives ⟨⟨by decide +kernel, by decide +kernel⟩, by decide +kernel⟩
    (List.cons_ne_nil _ _) (ne_tooLarge (by decide +kernel)) hr).1 tx rfl
  exact ⟨w', tx, hr, hspends, hpays⟩

/-- A payment with a long script, which leaves no change. -/
def longOutput : BRTxOutput := { amount := 1000000, script := some (List.replicate 820 0) }

/-- Without a change output, there are two started kilobytes in the fee, but one in the size. -/
theorem not_createTxForOutputs_fee : ¬ ∀ (H : Hashes) (env : Env) (rand : ℕ → ℕ) (fuel : ℕ)
    (w w' : BRWallet) (outputs : List BRTxOutput) (tx : BRTransaction), w.LedgerIdentity →
    w.Derives H env → w.NoOverflow H outputs → outputs ≠ [] →
    (∀ s, w.select H outputs ≠ some (.tooLarge s)) →
    createTxForOutputs H env rand fuel w outputs = some (w', some tx) →
    ∃ fee, tx.inAmount = tx.outAmount + fee ∧ (txFee w.feePerKb tx.size).toNat ≤ fee ∧
      fee ≤ (txFee w.feePerKb tx.size).toNat + w.minOutputAmount.toNat + 99 := by
  intro h
  have hsome : (createTxForOutputs sampleHashes keyEnv id 3 coinWallet [longOutput]).any
      (fun r => r.2.any fun tx => decide (tx.outAmount + (txFee coinWallet.feePerKb tx.size).toNat +
        coinWallet.minOutputAmount.toNat + 99 < tx.inAmount)) = true := by decide +kernel
  obtain ⟨⟨w', r⟩, hr, hr'⟩ := (Option.any_eq_true _ _).1 hsome
  obtain ⟨tx, rfl, hfee⟩ := (Option.any_eq_true _ _).1 hr'
  obtain ⟨fee, hsum, -, hle⟩ := h _ _ _ _ _ _ _ _ coinWallet_ledgerIdentity coinWallet_derives
    ⟨⟨by decide +kernel, by decide +kernel⟩, by decide +kernel⟩ (List.cons_ne_nil _ _)
    (ne_tooLarge (by decide +kernel)) hr
  have hlt := of_decide_eq_true hfee
  omega

end

end BRWallet

end RavenWallet
