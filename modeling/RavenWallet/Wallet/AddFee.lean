/-
  Adding a fee to a transaction (`BRWalletAddFeeToTransaction` of BRWallet.c).

  The coins of the wallet are added as inputs until they cover the fee, and what is
  left over goes to an unused address.  If they are not enough, the transaction that
  was given is freed.

  `addFeeToTransaction_pays_iff`: the numbers of coins, for which the transaction is
  kept and pays its fee.
-/
import RavenWallet.Wallet.MaxAmount

namespace RavenWallet

namespace BRWallet

/-- The variables before the loop. -/
def feeStart (w : BRWallet) (transaction : BRTransaction) : Selection where
  transaction := transaction
  feeAmount := txFee w.feePerKb (transaction.size + TX_OUTPUT_SIZE)

/-- `BRWalletAddFeeToTransaction`: the wallet with its address chains extended, and the transaction
    that was given, none if it has been freed.  The loop is that of `createTxForOutputs` for the
    amount 0. -/
def addFeeToTransaction (H : Hashes) (env : Env) (rand : ℕ → ℕ) (fuel : ℕ) (w : BRWallet)
    (transaction : BRTransaction) : Option (BRWallet × Option BRTransaction) :=
  (w.selectInputs H 0 w.minOutputAmount w.utxos (w.feeStart transaction)).bind fun
    | .done s => w.addChange H env rand fuel 0 s
    | .tooLarge _ =>
      if w.balance < txFee w.feePerKb (10 + w.utxos.length * TX_INPUT_SIZE +
          (1 + 1) * TX_OUTPUT_SIZE) then
        some (w, none)
      else
        -- the transaction that is built here is lost
        (createTxForOutputs H env rand fuel w []).map fun r => (r.1, none)

/-! ## What is added -/

/-- The inputs and the change output that are added pay the fee of the whole transaction. -/
structure AddsFee (w : BRWallet) (tx tx' : BRTransaction) (added : List BRTxInput)
    (change : List BRTxOutput) : Prop where
  inputs : tx'.inputs = tx.inputs ++ added
  nodup : (added.map BRTxInput.outpoint).Nodup
  utxos : ∀ i ∈ added, i.outpoint ∈ w.utxos ∧ w.amount i.outpoint = i.amount.toNat ∧
    i.amount ≠ 0
  outputs : tx'.outputs.Perm (tx.outputs ++ change)
  single : change.length ≤ 1
  fee : (txFee w.feePerKb tx'.size).toNat + (change.map fun o => o.amount.toNat).sum ≤
    (added.map fun i => i.amount.toNat).sum

/-- No coins are worth the fee of the transaction with their inputs. -/
def Insufficient (w : BRWallet) (tx : BRTransaction) : Prop :=
  ∀ cs : List Coin, cs.Sublist w.coinList →
    (cs.map fun c => c.output.amount.toNat).sum < (txFee w.feePerKb (sizeWith tx cs.length)).toNat

/-- The fee is added, or the UTXOs do not suffice and nothing changes. -/
def FeeAdded (w : BRWallet) (tx tx' : BRTransaction) : Prop :=
  (∃ added change, w.AddsFee tx tx' added change) ∨
    w.Insufficient tx ∧ tx'.inputs = tx.inputs ∧ tx'.outputs = tx.outputs

/-- The fee after `j` coins. -/
def feeWith (w : BRWallet) (tx : BRTransaction) : ℕ → UInt64
  | 0 => txFee w.feePerKb (sizeWith tx 0 + TX_OUTPUT_SIZE)
  | j + 1 => w.roundFee 0 (txFee w.feePerKb (sizeWith tx (j + 1) + TX_OUTPUT_SIZE))

/-- What `j` coins are worth is the fee, or leaves enough for a change output. -/
def EnoughWith (w : BRWallet) (tx : BRTransaction) (j : ℕ) : Prop :=
  UInt64.ofNat (w.worth j) = w.feeWith tx j ∨
    UInt64.ofNat (w.worth j) ≥ w.feeWith tx j + w.minOutputAmount

def LeavesChange (w : BRWallet) (tx : BRTransaction) (j : ℕ) : Prop :=
  UInt64.ofNat (w.worth j) - w.feeWith tx j > w.minOutputAmount

/-- The size with `j` more inputs and a change output. -/
def sizeWithChange (tx : BRTransaction) (j : ℕ) : ℕ :=
  sizeWith tx j + TX_OUTPUT_SIZE +
    (varIntSize (tx.outputs.length + 1) - varIntSize tx.outputs.length)

/-- The first `j` coins fit, are the first ones that are enough or all, and cover the fee; the fee
    was computed for at least the size that the transaction has in the end. -/
structure CoversFee (w : BRWallet) (tx : BRTransaction) (j : ℕ) : Prop where
  le : j ≤ w.coinList.length
  fits : ∀ i, i < j → sizeWith tx (i + 1) + TX_OUTPUT_SIZE ≤ TX_MAX_SIZE
  first : ∀ i, i + 1 < j → ¬ w.EnoughWith tx (i + 1)
  stop : j = w.coinList.length ∨ j ≠ 0 ∧ w.EnoughWith tx j
  covers : w.feeWith tx j ≤ UInt64.ofNat (w.worth j)
  change : j ≠ 0 → w.LeavesChange tx j → txFee w.feePerKb (sizeWithChange tx j) ≤ w.feeWith tx j
  no_change : j ≠ 0 → ¬ w.LeavesChange tx j →
    txFee w.feePerKb (sizeWith tx j) ≤ UInt64.ofNat (w.worth j)

variable {H : Hashes} {env : Env} {rand : ℕ → ℕ} {fuel : ℕ} {w : BRWallet}
  {tx : BRTransaction} {j : ℕ}

/-! ## The variables -/

theorem feeStart_size (hj : j ≤ w.coinList.length) :
    (w.selectionAt H 0 (w.feeStart tx) j).transaction.size = sizeWith tx j :=
  size_selectionAt hj

theorem feeStart_feeAmount (hj : j ≤ w.coinList.length) :
    (w.selectionAt H 0 (w.feeStart tx) j).feeAmount = w.feeWith tx j := by
  cases j with
  | zero =>
    rw [feeWith, sizeWith_zero]
    rfl
  | succ j => rw [selectionAt_feeAmount hj, feeStart_size hj, feeWith]

theorem feeStart_enough (hw : w.LedgerIdentity) (hj : j ≤ w.coinList.length) :
    Enough 0 w.minOutputAmount (w.selectionAt H 0 (w.feeStart tx) j) ↔ w.EnoughWith tx j := by
  rw [Enough, EnoughWith, balance_selectionAt hw rfl, feeStart_feeAmount hj, UInt64.zero_add]

theorem feeStart_tooLarge (hj : j ≤ w.coinList.length) :
    ¬ TooLarge (w.selectionAt H 0 (w.feeStart tx) j) ↔
      sizeWith tx j + TX_OUTPUT_SIZE ≤ TX_MAX_SIZE := by
  rw [tooLarge_selectionAt hj, not_not]
  rfl

/-- The coins that the loop takes. -/
theorem feeStart_done_iff {s : Selection} (hw : w.LedgerIdentity) :
    w.selectInputs H 0 w.minOutputAmount w.utxos (w.feeStart tx) = some (.done s) ↔
      ∃ j, s = w.selectionAt H 0 (w.feeStart tx) j ∧ j ≤ w.coinList.length ∧
        (∀ i, i < j → sizeWith tx (i + 1) + TX_OUTPUT_SIZE ≤ TX_MAX_SIZE) ∧
        (∀ i, i + 1 < j → ¬ w.EnoughWith tx (i + 1)) ∧
        (j = w.coinList.length ∨ j ≠ 0 ∧ w.EnoughWith tx j) := by
  rw [selectInputs_done_iff hw]
  refine exists_congr fun j => ?_
  constructor
  · rintro ⟨hj, hs, hfit, hfirst, hstop⟩
    refine ⟨hs, hj, ?_, ?_, ?_⟩
    · intro i hi
      exact (feeStart_tooLarge (by omega)).1 (hfit i hi)
    · intro i hi henough
      exact hfirst i hi ((feeStart_enough hw (by omega)).2 henough)
    · exact hstop.imp_right fun h => ⟨h.1, (feeStart_enough hw hj).1 h.2⟩
  · rintro ⟨hs, hj, hfit, hfirst, hstop⟩
    refine ⟨hj, hs, ?_, ?_, ?_⟩
    · intro i hi
      exact (feeStart_tooLarge (by omega)).2 (hfit i hi)
    · intro i hi henough
      exact hfirst i hi ((feeStart_enough hw (by omega)).1 henough)
    · exact hstop.imp_right fun h => ⟨h.1, (feeStart_enough hw hj).2 h.2⟩

/-! ## The inputs -/

/-- The inputs of the first coins. -/
theorem coinInputs_spec (hw : w.LedgerIdentity) :
    ((((w.coinList.take j).map (Coin.input H)).map BRTxInput.outpoint).Nodup ∧
      ∀ i ∈ (w.coinList.take j).map (Coin.input H), i.outpoint ∈ w.utxos ∧
        w.amount i.outpoint = i.amount.toNat ∧ i.amount ≠ 0) ∧
      (((w.coinList.take j).map (Coin.input H)).map fun i => i.amount.toNat).sum = w.worth j := by
  refine ⟨⟨?_, ?_⟩, ?_⟩
  · have hutxos : ((w.coinList.take j).map (Coin.input H)).map BRTxInput.outpoint =
        (w.coinList.take j).map Coin.utxo := by
      rw [List.map_map]
      rfl
    rw [hutxos]
    refine List.Nodup.sublist ((List.take_sublist j w.coinList).map Coin.utxo) ?_
    rw [coinList, filterMap_coin?_utxo]
    exact hw.nodup.filter _
  · intro i hi
    obtain ⟨c, hc, rfl⟩ := List.mem_map.1 hi
    obtain ⟨u, hu, hcoin⟩ := List.mem_filterMap.1 (List.mem_of_mem_take hc)
    obtain ⟨rfl, hamount, h0⟩ := coin?_some hcoin
    refine ⟨hu, hamount, ?_⟩
    intro hzero
    exact h0 (hamount.trans (congrArg UInt64.toNat hzero))
  · rw [List.map_map]
    rfl

/-- The size with a change output to a public key. -/
theorem size_change (hj : j ≤ w.coinList.length) {amount : UInt64} {script : Bytes}
    (hscript : script.length = 25) :
    (((w.selectionAt H 0 (w.feeStart tx) j).transaction.addOutput H amount
      (some script)).shuffleOutputs rand).size = sizeWithChange tx j := by
  have hadd : ((w.selectionAt H 0 (w.feeStart tx) j).transaction.addOutput H amount
      (some script)).size + _ = _ := BRTransaction.size_addOutput amount script
  have hlength : (w.selectionAt H 0 (w.feeStart tx) j).transaction.outputs.length =
      tx.outputs.length := by
    rw [selectionAt_transaction]
    rfl
  have hcount : varIntSize tx.outputs.length ≤ varIntSize (tx.outputs.length + 1) :=
    BRTransaction.varIntSize_mono (Nat.le_succ _)
  have hsmall : varIntSize script.length = 1 := by rw [hscript]; rfl
  have houtput : TX_OUTPUT_SIZE = 34 := rfl
  rw [feeStart_size hj, hlength, hsmall, hscript] at hadd
  rw [BRTransaction.size_shuffleOutputs, sizeWithChange]
  omega

/-! ## The fee -/

/-- The transaction after the call, if it is kept. -/
theorem addChange_zero_cases {w' : BRWallet} {r : BRTransaction} (hd : w.Derives H env)
    (hw : w.LedgerIdentity) (hj : j ≤ w.coinList.length)
    (h : w.addChange H env rand fuel 0 (w.selectionAt H 0 (w.feeStart tx) j) = some (w', some r)) :
    w.feeWith tx j ≤ UInt64.ofNat (w.worth j) ∧
      r.inputs = tx.inputs ++ (w.coinList.take j).map (Coin.input H) ∧
      ((w.LeavesChange tx j ∧ ∃ o : BRTxOutput,
          o.amount = UInt64.ofNat (w.worth j) - w.feeWith tx j ∧
          r.outputs.Perm (tx.outputs ++ [o]) ∧ r.size = sizeWithChange tx j) ∨
        (¬ w.LeavesChange tx j ∧ r.outputs = tx.outputs ∧ r.size = sizeWith tx j)) := by
  rw [addChange, UInt64.zero_add, balance_selectionAt hw rfl, feeStart_feeAmount hj] at h
  split_ifs at h with hno hmore
  · cases h
  · obtain ⟨⟨w₁, addrs⟩, haddrs, h⟩ := Option.map_eq_some_iff.1 h
    obtain ⟨a, rfl, -, -, hpubkey⟩ := unusedAddrs_pubkey hd haddrs
    obtain rfl := Option.some.inj (Prod.mk.inj h).2
    refine ⟨UInt64.not_lt.1 hno, ?_, Or.inl ⟨hmore,
      { amount := UInt64.ofNat (w.worth j) - w.feeWith tx j
        script := some (BRAddress.scriptPubKey H a)
        address := BRAddress.fromScriptPubKey H (BRAddress.scriptPubKey H a) }, rfl, ?_,
      size_change hj hpubkey.length_scriptPubKey⟩⟩
    · rw [selectionAt_transaction]
      rfl
    · rw [selectionAt_transaction]
      exact shuffle_perm rand _
  · obtain rfl := Option.some.inj (Prod.mk.inj (Option.some.inj h)).2
    refine ⟨UInt64.not_lt.1 hno, ?_, Or.inr ⟨hmore, ?_, feeStart_size hj⟩⟩
    · rw [selectionAt_transaction]
      rfl
    · rw [selectionAt_transaction]
      rfl

/-- The transaction that is kept pays its fee exactly if the fee was computed for its size. -/
theorem feeAdded_iff {r : BRTransaction} (hw : w.LedgerIdentity) (hj : j ≤ w.coinList.length)
    (hstop : j = w.coinList.length ∨ j ≠ 0 ∧ w.EnoughWith tx j)
    (hcovers : w.feeWith tx j ≤ UInt64.ofNat (w.worth j))
    (hinputs : r.inputs = tx.inputs ++ (w.coinList.take j).map (Coin.input H))
    (hr : (w.LeavesChange tx j ∧ ∃ o : BRTxOutput,
          o.amount = UInt64.ofNat (w.worth j) - w.feeWith tx j ∧
          r.outputs.Perm (tx.outputs ++ [o]) ∧ r.size = sizeWithChange tx j) ∨
        (¬ w.LeavesChange tx j ∧ r.outputs = tx.outputs ∧ r.size = sizeWith tx j)) :
    w.FeeAdded tx r ↔
      (j ≠ 0 → w.LeavesChange tx j → txFee w.feePerKb (sizeWithChange tx j) ≤ w.feeWith tx j) ∧
      (j ≠ 0 → ¬ w.LeavesChange tx j →
        txFee w.feePerKb (sizeWith tx j) ≤ UInt64.ofNat (w.worth j)) := by
  obtain ⟨⟨hnodup, hutxos⟩, hworth⟩ := coinInputs_spec (H := H) (j := j) hw
  have hsub : (UInt64.ofNat (w.worth j) - w.feeWith tx j).toNat =
      w.worth j - (w.feeWith tx j).toNat := by
    rw [toNat_sub_of_le (UInt64.le_iff_toNat_le.1 hcovers), toNat_worth hw]
  have hcovers' : (w.feeWith tx j).toNat ≤ w.worth j := by
    rw [← toNat_worth hw]
    exact UInt64.le_iff_toNat_le.1 hcovers
  rw [UInt64.le_iff_toNat_le, UInt64.le_iff_toNat_le, toNat_worth hw]
  constructor
  · rintro (⟨added, change, hadds⟩ | ⟨-, hsame, -⟩)
    · obtain rfl : (w.coinList.take j).map (Coin.input H) = added :=
        List.append_cancel_left (hinputs.symm.trans hadds.inputs)
      have hfee := hadds.fee
      rw [hworth] at hfee
      rcases hr with ⟨hmore, o, ho, houtputs, hsize⟩ | ⟨hmore, houtputs, hsize⟩
      · have hchange : change = [o] := List.perm_singleton.1
          ((List.perm_append_left_iff _).1 (hadds.outputs.symm.trans houtputs))
        rw [hchange, List.map_singleton, List.sum_singleton, ho, hsub, hsize] at hfee
        exact ⟨fun _ _ => by omega, fun _ h => absurd hmore h⟩
      · rw [hsize] at hfee
        exact ⟨fun _ h => absurd h hmore, fun _ _ => (Nat.le_add_right _ _).trans hfee⟩
    · -- nothing was added, so no coin was taken
      have hnil : (w.coinList.take j).map (Coin.input H) = [] :=
        List.append_right_eq_self.1 (hinputs.symm.trans hsame)
      have hzero : j = 0 := by
        have hlength := congrArg List.length hnil
        rwa [List.length_map, List.length_take_of_le hj] at hlength
      exact ⟨fun h => absurd hzero h, fun h => absurd hzero h⟩
  · rintro ⟨hchange, hno⟩
    by_cases hzero : j = 0
    · -- there are no coins
      subst hzero
      have hnone : w.coinList.length = 0 := (hstop.resolve_right fun h => h.1 rfl).symm
      have hw0 : w.worth 0 = 0 := rfl
      have hfee0 : (w.feeWith tx 0).toNat = 0 := by omega
      have hfee : w.feeWith tx 0 = 0 := UInt64.toNat_inj.1 hfee0
      have hless : ¬ w.LeavesChange tx 0 := by
        rw [LeavesChange, hw0, hfee]
        exact UInt64.not_lt.2 (UInt64.zero_le)
      obtain ⟨-, houtputs, hsize⟩ := hr.resolve_left fun h => hless h.1
      rw [List.take_zero, List.map_nil, List.append_nil] at hinputs
      by_cases hfree : (txFee w.feePerKb (sizeWith tx 0)).toNat = 0
      · refine Or.inl ⟨[], [], ?_, List.nodup_nil, ?_, ?_, Nat.zero_le _, ?_⟩
        · rw [hinputs, List.append_nil]
        · intro i hi
          cases hi
        · rw [houtputs, List.append_nil]
        · rw [hsize, hfree, Nat.zero_add]
          exact le_refl _
      · refine Or.inr ⟨?_, hinputs, houtputs⟩
        intro cs hcs
        obtain rfl : cs = [] := by
          rw [List.eq_nil_of_length_eq_zero hnone] at hcs
          exact List.sublist_nil.1 hcs
        exact Nat.pos_of_ne_zero hfree
    · rcases hr with ⟨hmore, o, ho, houtputs, hsize⟩ | ⟨hmore, houtputs, hsize⟩
      · refine Or.inl ⟨_, [o], hinputs, hnodup, hutxos, houtputs, le_refl _, ?_⟩
        have hle := hchange hzero hmore
        rw [hworth, List.map_singleton, List.sum_singleton, ho, hsub, hsize]
        omega
      · refine Or.inl ⟨_, [], hinputs, hnodup, hutxos, ?_, Nat.zero_le _, ?_⟩
        · rw [houtputs, List.append_nil]
        · rw [hworth, hsize, List.map_nil, List.sum_nil, Nat.add_zero]
          exact hno hzero hmore

/-- The transaction is kept and pays its fee if and only if some number of coins covers it. -/
theorem addFeeToTransaction_pays_iff (rand : ℕ → ℕ) (hw : w.LedgerIdentity) (hd : w.Derives H env)
    (hfree : ∃ k, ∀ a, env.address true k = some a → a ∉ w.usedAddrs) (tx : BRTransaction) :
    (∃ n, ∀ fuel, n ≤ fuel → ∃ w' tx',
      w.addFeeToTransaction H env rand fuel tx = some (w', some tx') ∧ w.FeeAdded tx tx') ↔
      ∃ j, w.CoversFee tx j := by
  constructor
  · rintro ⟨n, hn⟩
    obtain ⟨w', tx', h, hadded⟩ := hn n (le_refl n)
    obtain ⟨sel, hsel, h⟩ := Option.bind_eq_some_iff.1 h
    cases sel with
    | done s =>
      obtain ⟨j, rfl, hj, hfit, hfirst, hstop⟩ := (feeStart_done_iff hw).1 hsel
      obtain ⟨hcovers, hinputs, hr⟩ := addChange_zero_cases hd hw hj h
      obtain ⟨hchange, hno⟩ := (feeAdded_iff hw hj hstop hcovers hinputs hr).1 hadded
      exact ⟨j, hj, hfit, hfirst, hstop, hcovers, hchange, hno⟩
    | tooLarge s =>
      dsimp only at h
      split_ifs at h
      · cases h
      · obtain ⟨r, -, h⟩ := Option.map_eq_some_iff.1 h
        cases h
  · rintro ⟨j, hj, hfit, hfirst, hstop, hcovers, hchange, hno⟩
    have hsel : w.selectInputs H 0 w.minOutputAmount w.utxos (w.feeStart tx) = _ :=
      (feeStart_done_iff hw).2 ⟨j, rfl, hj, hfit, hfirst, hstop⟩
    obtain ⟨n, hn⟩ := unusedAddrs_one_isSome hfree
    refine ⟨n, ?_⟩
    intro fuel hfuel
    obtain ⟨w', tx', h⟩ : ∃ w' tx', w.addChange H env rand fuel 0
        (w.selectionAt H 0 (w.feeStart tx) j) = some (w', some tx') := by
      rw [addChange, UInt64.zero_add, balance_selectionAt hw rfl, feeStart_feeAmount hj,
        if_neg (UInt64.not_lt.2 hcovers)]
      split_ifs with hmore
      · obtain ⟨⟨w', addrs⟩, haddrs⟩ := Option.isSome_iff_exists.1 (hn fuel hfuel)
        rw [haddrs]
        exact ⟨_, _, rfl⟩
      · exact ⟨_, _, rfl⟩
    obtain ⟨-, hinputs, hr⟩ := addChange_zero_cases hd hw hj h
    refine ⟨w', tx', ?_, (feeAdded_iff hw hj hstop hcovers hinputs hr).2 ⟨hchange, hno⟩⟩
    rw [addFeeToTransaction, hsel]
    exact h

/-- A transaction that spends what is not in the wallet. -/
def sweepTx : BRTransaction :=
  { inputs := [{ txHash := 2, index := 0, amount := 5000 }], outputs := [smallOutput] }

theorem addFeeToTransaction_pays_iff_coinWallet : ∃ n, ∀ fuel, n ≤ fuel → ∃ w' tx',
    coinWallet.addFeeToTransaction sampleHashes keyEnv id fuel sweepTx = some (w', some tx') ∧
      coinWallet.FeeAdded sweepTx tx' := by
  refine (addFeeToTransaction_pays_iff id coinWallet_ledgerIdentity coinWallet_derives
    (keyEnv_unused (Finset.notMem_empty _)) sweepTx).2 ⟨1, ?_⟩
  have hlength : coinWallet.coinList.length = 1 := by decide +kernel
  refine ⟨by omega, by decide +kernel, fun i hi => by omega, Or.inl hlength.symm,
    by decide +kernel, ?_, ?_⟩
  · intro _ _
    decide +kernel
  · intro _ _
    decide +kernel

/-- A wallet with a coin that is worth less than a fee. -/
def poorWallet : BRWallet :=
  { balance := 600000, utxos := [⟨1, 0⟩], transactions := [0], allTx := AList.singleton 1 0
    heap := ⟨[some { txHash := 1, outputs := [{ address := keyAddress, amount := 600000 }] }]⟩ }

theorem poorWallet_ledgerIdentity : poorWallet.LedgerIdentity := by
  refine ⟨by decide, by decide, ?_⟩
  intro u hu
  obtain rfl : u = ⟨1, 0⟩ := List.mem_singleton.1 hu
  exact ⟨_, rfl, rfl, by decide⟩

theorem addFeeToTransaction_eq_none
    (h : (w.selectInputs H 0 w.minOutputAmount w.utxos (w.feeStart tx)).any
      (Selected.lacks 0) = true) :
    w.addFeeToTransaction H env rand fuel tx = some (w, none) := by
  obtain ⟨sel, hsel, hlacks⟩ := (Option.any_eq_true _ _).1 h
  cases sel with
  | done s =>
    rw [addFeeToTransaction, hsel, Option.bind_some]
    dsimp only
    rw [addChange, if_pos (of_decide_eq_true hlacks)]
  | tooLarge s => cases hlacks

/-- With insufficient funds the transaction is freed. -/
theorem not_addFeeToTransaction_pays : ¬ ∀ (H : Hashes) (env : Env) (rand : ℕ → ℕ) (w : BRWallet)
    (tx : BRTransaction), w.LedgerIdentity → w.Derives H env →
    (∃ k, ∀ a, env.address true k = some a → a ∉ w.usedAddrs) →
    ∃ n, ∀ fuel, n ≤ fuel → ∃ w' tx',
      w.addFeeToTransaction H env rand fuel tx = some (w', some tx') ∧ w.FeeAdded tx tx' := by
  intro h
  have hderives : poorWallet.Derives sampleHashes keyEnv :=
    ⟨coinWallet_derives.derived, coinWallet_derives.pubkey, fun a ha => absurd ha List.not_mem_nil⟩
  obtain ⟨n, hn⟩ := h sampleHashes keyEnv id poorWallet sweepTx poorWallet_ledgerIdentity hderives
    (keyEnv_unused (Finset.notMem_empty _))
  obtain ⟨w', tx', hkept, -⟩ := hn n (le_refl n)
  rw [addFeeToTransaction_eq_none (by decide +kernel)] at hkept
  cases hkept

end BRWallet

end RavenWallet
