/-
  The selection of inputs by the number of coins it takes.

  The UTXOs that are worth something are the coins of a wallet.  Each of them adds
  an input of the same size, so the variables of the loop are known for every number
  of coins: `selectionAt`.

  * `selectInputs_coins`: the loop takes the coins until there is enough;
  * `size_selectionAt`, `balance_selectionAt`: the size and the balance.
-/
import RavenWallet.Lib.Taking
import RavenWallet.Wallet.CoinSelection

namespace RavenWallet

namespace BRWallet

/-! ## Coins -/

/-- A UTXO and the output that it names. -/
structure Coin where
  utxo : UTXO
  output : BRTxOutput

def coin? (w : BRWallet) (u : UTXO) : Option Coin :=
  (w.output? u).bind fun output => if output.amount = 0 then none else some ⟨u, output⟩

/-- The UTXOs that are worth something. -/
def coinList (w : BRWallet) : List Coin := w.utxos.filterMap w.coin?

variable (H : Hashes) (w : BRWallet) (amount minAmount : UInt64)

/-- The input that spends a coin. -/
def Coin.input (c : Coin) : BRTxInput where
  txHash := c.utxo.hash
  index := c.utxo.n
  address := (c.output.script.map (BRAddress.fromScriptPubKey H)).getD []
  amount := c.output.amount
  script := c.output.script

/-- The variables after one more input. -/
def addCoin (s : Selection) (c : Coin) : Selection :=
  let transaction := s.transaction.addInput H c.utxo.hash c.utxo.n c.output.amount c.output.script
    TXIN_SEQUENCE
  { transaction, balance := s.balance + c.output.amount
    feeAmount := w.roundFee amount (txFee w.feePerKb (transaction.size + TX_OUTPUT_SIZE)) }

/-- The transaction would be too large with a change output. -/
def TooLarge (s : Selection) : Prop := s.transaction.size + TX_OUTPUT_SIZE > TX_MAX_SIZE

/-- The balance covers the amount and the fee exactly, or leaves enough for a change output. -/
def Enough (s : Selection) : Prop :=
  s.balance = amount + s.feeAmount ∨ s.balance ≥ amount + s.feeAmount + minAmount

instance : DecidablePred TooLarge :=
  fun s => inferInstanceAs (Decidable (s.transaction.size + TX_OUTPUT_SIZE > TX_MAX_SIZE))

instance : DecidablePred (Enough amount minAmount) :=
  fun s => inferInstanceAs (Decidable (s.balance = amount + s.feeAmount ∨
    s.balance ≥ amount + s.feeAmount + minAmount))

/-- The variables with the first `j` coins. -/
def selectionAt (s : Selection) (j : ℕ) : Selection := after (w.addCoin H amount) w.coinList s j

/-- The variables before the loop. -/
def startSelection (H : Hashes) (w : BRWallet) (outputs : List BRTxOutput) : Selection where
  transaction := requestTx H outputs
  feeAmount := txFee w.feePerKb ((requestTx H outputs).size + TX_OUTPUT_SIZE)

def Taking.selected : Taking Selection → Selected
  | .done s => .done s
  | .refused s => .tooLarge s

section
variable {H w amount minAmount} {s s' : Selection} {us : List UTXO} {u : UTXO} {cs : List Coin}
  {j : ℕ}

theorem coin?_eq (hw : w.LedgerIdentity) (hu : u ∈ w.utxos) : ∃ tx o, tx.txHash = u.hash ∧
    w.amount u = o.amount.toNat ∧
    w.spendable u = some (if o.amount = 0 then none else some (tx, o)) ∧
    w.coin? u = if o.amount = 0 then none else some ⟨u, o⟩ := by
  obtain ⟨tx, o, htx, hhash, ho, hspend⟩ := spendable_eq hw hu
  refine ⟨tx, o, hhash, ho, hspend, ?_⟩
  rw [spendable, htx] at hspend
  dsimp only at hspend
  obtain ⟨output, houtput, heq⟩ := Option.map_eq_some_iff.1 hspend
  have ho' : w.output? u = some output := by
    rw [output?, htx]
    exact houtput
  rw [coin?, ho', Option.bind_some]
  by_cases h0 : output.amount = 0
  · rw [if_pos h0] at heq ⊢
    by_cases h0' : o.amount = 0
    · rw [if_pos h0']
    · rw [if_neg h0'] at heq
      cases heq
  · rw [if_neg h0] at heq ⊢
    by_cases h0' : o.amount = 0
    · rw [if_pos h0'] at heq
      cases heq
    · rw [if_neg h0'] at heq ⊢
      rw [(Prod.mk.inj (Option.some.inj heq)).2]

theorem selectInputs_cons {tx : BRTransaction} {o : BRTxOutput} (hhash : tx.txHash = u.hash)
    (hu : w.spendable u = some (some (tx, o))) :
    w.selectInputs H amount minAmount (u :: us) s =
      if TooLarge (w.addCoin H amount s ⟨u, o⟩) then some (.tooLarge s)
      else if Enough amount minAmount (w.addCoin H amount s ⟨u, o⟩) then
        some (.done (w.addCoin H amount s ⟨u, o⟩))
      else w.selectInputs H amount minAmount us (w.addCoin H amount s ⟨u, o⟩) := by
  rw [selectInputs, hu, Option.bind_some]
  dsimp only
  rw [hhash]
  rfl

/-- The loop takes the coins until there is enough. -/
theorem selectInputs_coins (hw : w.LedgerIdentity) (hsub : ∀ u ∈ us, u ∈ w.utxos) :
    w.selectInputs H amount minAmount us s = some (Taking.selected
      (takeUntil (w.addCoin H amount) TooLarge (Enough amount minAmount)
        (us.filterMap w.coin?) s)) := by
  induction us generalizing s with
  | nil => rfl
  | cons u us ih =>
    have ih' := fun s => @ih s fun v hv => hsub v (List.mem_cons_of_mem u hv)
    obtain ⟨tx, o, hhash, -, hspend, hcoin⟩ := coin?_eq hw (hsub u List.mem_cons_self)
    by_cases h0 : o.amount = 0
    · rw [if_pos h0] at hspend hcoin
      rw [selectInputs, hspend, List.filterMap_cons_none hcoin]
      exact ih' s
    · rw [if_neg h0] at hspend hcoin
      rw [selectInputs_cons hhash hspend, List.filterMap_cons_some hcoin, takeUntil]
      split_ifs
      · rfl
      · rfl
      · exact ih' _

/-- The loop on all UTXOs ends with the first coins that are enough, or with all. -/
theorem selectInputs_done_iff (hw : w.LedgerIdentity) :
    w.selectInputs H amount minAmount w.utxos s = some (.done s') ↔
      ∃ j, j ≤ w.coinList.length ∧ s' = w.selectionAt H amount s j ∧
        (∀ i, i < j → ¬ TooLarge (w.selectionAt H amount s (i + 1))) ∧
        (∀ i, i + 1 < j → ¬ Enough amount minAmount (w.selectionAt H amount s (i + 1))) ∧
        (j = w.coinList.length ∨ j ≠ 0 ∧ Enough amount minAmount (w.selectionAt H amount s j)) := by
  rw [selectInputs_coins hw fun u hu => hu, Option.some.injEq, ← coinList]
  refine Iff.trans ?_ takeUntil_done_iff
  cases takeUntil (w.addCoin H amount) TooLarge (Enough amount minAmount) w.coinList s with
  | done t => rw [Taking.selected, Selected.done.injEq, Taking.done.injEq]
  | refused t => exact iff_of_false (fun h => by cases h) fun h => by cases h

/-- It ends before the first coin that is too much, if there was not enough before. -/
theorem selectInputs_tooLarge_iff (hw : w.LedgerIdentity) :
    w.selectInputs H amount minAmount w.utxos s = some (.tooLarge s') ↔
      ∃ j, j < w.coinList.length ∧ s' = w.selectionAt H amount s j ∧
        (∀ i, i < j → ¬ TooLarge (w.selectionAt H amount s (i + 1)) ∧
          ¬ Enough amount minAmount (w.selectionAt H amount s (i + 1))) ∧
        TooLarge (w.selectionAt H amount s (j + 1)) := by
  rw [selectInputs_coins hw fun u hu => hu, Option.some.injEq, ← coinList]
  refine Iff.trans ?_ takeUntil_refused_iff
  cases takeUntil (w.addCoin H amount) TooLarge (Enough amount minAmount) w.coinList s with
  | done t => exact iff_of_false (fun h => by cases h) fun h => by cases h
  | refused t => rw [Taking.selected, Selected.tooLarge.injEq, Taking.refused.injEq]

theorem select_done_iff {outputs : List BRTxOutput} (hw : w.LedgerIdentity) :
    w.select H outputs = some (.done s') ↔ ∃ j, j ≤ w.coinList.length ∧
      s' = w.selectionAt H (requestAmount outputs) (startSelection H w outputs) j ∧
      (∀ i, i < j → ¬ TooLarge
        (w.selectionAt H (requestAmount outputs) (startSelection H w outputs) (i + 1))) ∧
      (∀ i, i + 1 < j → ¬ Enough (requestAmount outputs) w.minOutputAmount
        (w.selectionAt H (requestAmount outputs) (startSelection H w outputs) (i + 1))) ∧
      (j = w.coinList.length ∨ j ≠ 0 ∧ Enough (requestAmount outputs) w.minOutputAmount
        (w.selectionAt H (requestAmount outputs) (startSelection H w outputs) j)) :=
  selectInputs_done_iff hw

theorem select_tooLarge_iff {outputs : List BRTxOutput} (hw : w.LedgerIdentity) :
    w.select H outputs = some (.tooLarge s') ↔ ∃ j, j < w.coinList.length ∧
      s' = w.selectionAt H (requestAmount outputs) (startSelection H w outputs) j ∧
      (∀ i, i < j → ¬ TooLarge
          (w.selectionAt H (requestAmount outputs) (startSelection H w outputs) (i + 1)) ∧
        ¬ Enough (requestAmount outputs) w.minOutputAmount
          (w.selectionAt H (requestAmount outputs) (startSelection H w outputs) (i + 1))) ∧
      TooLarge (w.selectionAt H (requestAmount outputs) (startSelection H w outputs) (j + 1)) :=
  selectInputs_tooLarge_iff hw

/-! ## The variables -/

theorem foldl_addCoin_transaction : (cs.foldl (w.addCoin H amount) s).transaction =
    { s.transaction with inputs := s.transaction.inputs ++ cs.map (Coin.input H) } := by
  induction cs generalizing s with
  | nil => rw [List.map_nil, List.append_nil]; rfl
  | cons c cs ih =>
    rw [List.foldl_cons, ih, List.map_cons, List.append_cons]
    rfl

theorem foldl_addCoin_balance : (cs.foldl (w.addCoin H amount) s).balance =
    s.balance + (cs.map fun c => c.output.amount).sum := by
  induction cs generalizing s with
  | nil => exact (UInt64.add_zero s.balance).symm
  | cons c cs ih =>
    rw [List.foldl_cons, ih, List.map_cons, List.sum_cons, ← UInt64.add_assoc]
    rfl

theorem selectionAt_transaction : (w.selectionAt H amount s j).transaction =
    { s.transaction with
      inputs := s.transaction.inputs ++ (w.coinList.take j).map (Coin.input H) } :=
  foldl_addCoin_transaction

theorem selectionAt_balance : (w.selectionAt H amount s j).balance =
    s.balance + ((w.coinList.take j).map fun c => c.output.amount).sum :=
  foldl_addCoin_balance

/-- The fee is computed anew for every coin. -/
theorem selectionAt_feeAmount (hj : j < w.coinList.length) :
    (w.selectionAt H amount s (j + 1)).feeAmount = w.roundFee amount
      (txFee w.feePerKb ((w.selectionAt H amount s (j + 1)).transaction.size + TX_OUTPUT_SIZE)) := by
  rw [selectionAt, after, List.take_add_one, List.getElem?_eq_getElem hj, List.foldl_append]
  rfl

/-- The size of a transaction with `j` more inputs that are unsigned. -/
def sizeWith (tx : BRTransaction) (j : ℕ) : ℕ :=
  8 + varIntSize (tx.inputs.length + j) + varIntSize tx.outputs.length +
    ((tx.inputs.map BRTransaction.inputSize).sum + TX_INPUT_SIZE * j) +
    (tx.outputs.map BRTransaction.outputSize).sum

theorem size_selectionAt (hj : j ≤ w.coinList.length) :
    (w.selectionAt H amount s j).transaction.size = sizeWith s.transaction j := by
  have hsizes : (((w.coinList.take j).map (Coin.input H)).map BRTransaction.inputSize).sum =
      TX_INPUT_SIZE * j := by
    rw [BRTransaction.sum_inputSize (List.forall_mem_map.2 fun _ _ => rfl), List.length_map,
      List.length_take_of_le hj]
  rw [selectionAt_transaction, BRTransaction.size, sizeWith, List.map_append, List.sum_append,
    hsizes, List.length_append, List.length_map, List.length_take_of_le hj]

theorem tooLarge_selectionAt (hj : j ≤ w.coinList.length) :
    TooLarge (w.selectionAt H amount s j) ↔
      ¬ sizeWith s.transaction j + TX_OUTPUT_SIZE ≤ TX_MAX_SIZE := by
  rw [TooLarge, size_selectionAt hj, Nat.not_le]

theorem sizeWith_zero {tx : BRTransaction} : sizeWith tx 0 = tx.size := by
  rw [sizeWith, BRTransaction.size, Nat.add_zero, Nat.mul_zero, Nat.add_zero]

theorem sizeWith_mono {tx : BRTransaction} {i : ℕ} (h : i ≤ j) : sizeWith tx i ≤ sizeWith tx j := by
  have hcount : varIntSize (tx.inputs.length + i) ≤ varIntSize (tx.inputs.length + j) :=
    BRTransaction.varIntSize_mono (by omega)
  have hinputs : TX_INPUT_SIZE * i ≤ TX_INPUT_SIZE * j := Nat.mul_le_mul_left _ h
  unfold sizeWith
  omega

/-! ## The coins of the ledger -/

theorem coin?_some {c : Coin} (h : w.coin? u = some c) :
    c.utxo = u ∧ w.amount u = c.output.amount.toNat ∧ w.amount u ≠ 0 := by
  rw [coin?, Option.bind_eq_some_iff] at h
  obtain ⟨o, ho, h⟩ := h
  split_ifs at h with h0
  obtain rfl := Option.some.inj h
  have hamount : w.amount u = o.amount.toNat := by
    rw [BRWallet.amount, ho]
    rfl
  refine ⟨rfl, hamount, ?_⟩
  rw [hamount]
  exact fun hzero => h0 (UInt64.toNat_inj.1 hzero)

theorem coin?_none (h : w.coin? u = none) : w.amount u = 0 := by
  rw [BRWallet.amount]
  cases ho : w.output? u with
  | none => rfl
  | some o =>
    rw [coin?, ho, Option.bind_some] at h
    split_ifs at h with h0
    exact congrArg UInt64.toNat h0

theorem filterMap_coin?_utxo (us : List UTXO) : (us.filterMap w.coin?).map Coin.utxo =
    us.filter fun u => decide (w.amount u ≠ 0) := by
  induction us with
  | nil => rfl
  | cons u us ih =>
    cases hc : w.coin? u with
    | none =>
      have h0 := coin?_none hc
      rw [List.filterMap_cons_none hc, List.filter_cons_of_neg (by simpa using h0), ih]
    | some c =>
      obtain ⟨hu, -, h0⟩ := coin?_some hc
      rw [List.filterMap_cons_some hc, List.filter_cons_of_pos (by simpa using h0), List.map_cons,
        ih, hu]

theorem filterMap_coin?_amount (us : List UTXO) :
    ((us.filterMap w.coin?).map fun c => c.output.amount.toNat).sum = (us.map w.amount).sum := by
  induction us with
  | nil => rfl
  | cons u us ih =>
    cases hc : w.coin? u with
    | none =>
      rw [List.filterMap_cons_none hc, ih, List.map_cons, List.sum_cons, coin?_none hc, Nat.zero_add]
    | some c =>
      obtain ⟨-, hamount, -⟩ := coin?_some hc
      rw [List.filterMap_cons_some hc, List.map_cons, List.sum_cons, ih, List.map_cons,
        List.sum_cons, hamount]

/-- The amounts of the first `j` coins. -/
def worth (w : BRWallet) (j : ℕ) : ℕ := ((w.coinList.take j).map fun c => c.output.amount.toNat).sum

theorem worth_add_drop (hw : w.LedgerIdentity) : w.worth j +
    ((w.coinList.drop j).map fun c => c.output.amount.toNat).sum = w.balance.toNat := by
  rw [worth, ← List.sum_append, ← List.map_append, List.take_append_drop, coinList,
    filterMap_coin?_amount, hw.balance]

theorem worth_le (hw : w.LedgerIdentity) : w.worth j ≤ w.balance.toNat :=
  worth_add_drop hw (j := j) ▸ Nat.le_add_right _ _

theorem toNat_worth (hw : w.LedgerIdentity) : (UInt64.ofNat (w.worth j)).toNat = w.worth j :=
  toNat_ofNat_of_lt ((worth_le hw).trans_lt w.balance.toNat_lt)

theorem worth_length (hw : w.LedgerIdentity) : w.worth w.coinList.length = w.balance.toNat := by
  have h := worth_add_drop hw (j := w.coinList.length)
  rwa [List.drop_length, List.map_nil, List.sum_nil, Nat.add_zero] at h

/-- The balance of the first coins does not overflow. -/
theorem toNat_balance_selectionAt (hw : w.LedgerIdentity) (h0 : s.balance = 0) :
    (w.selectionAt H amount s j).balance.toNat = w.worth j := by
  have hmap : ((w.coinList.take j).map fun c => c.output.amount).map UInt64.toNat =
      (w.coinList.take j).map fun c => c.output.amount.toNat := by
    rw [List.map_map]
    rfl
  have hlt : ((w.coinList.take j).map fun c => c.output.amount.toNat).sum < 2 ^ 64 :=
    (worth_le hw (j := j)).trans_lt w.balance.toNat_lt
  rw [selectionAt_balance, h0, UInt64.zero_add, toNat_sum_of_lt (by rw [hmap]; exact hlt), hmap,
    worth]

theorem balance_selectionAt (hw : w.LedgerIdentity) (h0 : s.balance = 0) :
    (w.selectionAt H amount s j).balance = UInt64.ofNat (w.worth j) := by
  refine UInt64.toNat_inj.1 ?_
  rw [toNat_worth hw, toNat_balance_selectionAt hw h0]

end

end BRWallet

end RavenWallet
