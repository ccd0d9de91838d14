/-
  The accounting identity of `_BRWalletUpdateBalance`.

  If the transactions are distinct and resolve, and their amounts do not
  overflow, the loop never underflows and leaves `Accounts`: the balance is the
  sum of the UTXOs, which are the outputs of the settled transactions that were
  not pruned, and the totals and the history agree with it.
-/
import Mathlib.Algebra.BigOperators.Group.List.Basic
import Mathlib.Algebra.Order.BigOperators.Group.List
import Mathlib.Algebra.Order.Group.Nat
import RavenWallet.Lib.Word
import RavenWallet.Wallet.Balance

namespace RavenWallet

/-- The sum of the output amounts of `txs`. -/
def totalAmount (txs : List BRTransaction) : ℕ :=
  (txs.map fun t => (t.outputs.map fun o => o.amount.toNat).sum).sum

namespace LedgerIn

variable (E : LedgerIn)

/-- The amount of a UTXO, as a number. -/
def amount (u : UTXO) : ℕ := (E.amountOf u).elim 0 UInt64.toNat

def amounts (us : List UTXO) : ℕ := (us.map E.amount).sum

@[simp] theorem amounts_nil : E.amounts [] = 0 := rfl

@[simp] theorem amounts_cons (u : UTXO) (us : List UTXO) :
    E.amounts (u :: us) = E.amount u + E.amounts us := by simp [amounts]

@[simp] theorem amounts_append (us vs : List UTXO) :
    E.amounts (us ++ vs) = E.amounts us + E.amounts vs := by simp [amounts]

/-- `E` resolves `tx`: its hash leads back to it, and its outputs have distinct indices. -/
structure Resolves (tx : BRTransaction) : Prop where
  lookup : E.allTx tx.txHash = some tx
  index : tx.outputs.length ≤ 2 ^ 32

variable {E}

theorem ownedFrom_sum_le (hash : UInt256) (j : ℕ) (os : List BRTxOutput) :
    ((E.ownedFrom hash j os).map fun p => p.2.toNat).sum ≤
      (os.map fun o => o.amount.toNat).sum := by
  induction os generalizing j with
  | nil => simp [ownedFrom]
  | cons o os ih =>
    have hos := ih (j + 1)
    unfold ownedFrom
    split_ifs
    · simp only [List.map_cons, List.sum_cons]; omega
    · simp only [List.map_cons, List.sum_cons]; omega

theorem index_toNat {tx : BRTransaction} (ht : E.Resolves tx) {k : ℕ} {o : BRTxOutput}
    (hk : tx.outputs[k]? = some o) : (UInt32.ofNat k).toNat = k := by
  have hlt := (List.getElem?_eq_some_iff.1 hk).1
  have := ht.index
  exact UInt32.toNat_ofNat_of_lt' (by unfold UInt32.size; omega)

theorem amountOf_ownedFrom {tx : BRTransaction} (ht : E.Resolves tx) {p : UTXO × UInt64}
    (hp : p ∈ E.ownedFrom tx.txHash 0 tx.outputs) : E.amountOf p.1 = some p.2 := by
  obtain ⟨k, o, ho, -, rfl⟩ := E.mem_ownedFrom.1 hp
  simp only [Nat.zero_add, amountOf, ht.lookup, Option.bind_eq_bind, Option.bind_some,
    index_toNat ht ho, ho]

/-- The outputs that `tx` pays to the wallet have distinct outpoints. -/
theorem nodup_ownedFrom {hash : UInt256} {os : List BRTxOutput} {j : ℕ}
    (hj : j + os.length ≤ 2 ^ 32) : ((E.ownedFrom hash j os).map Prod.fst).Nodup := by
  induction os generalizing j with
  | nil => simp [ownedFrom]
  | cons o os ih =>
    rw [List.length_cons] at hj
    have ih' := ih (j := j + 1) (by omega)
    unfold ownedFrom
    split_ifs
    · rw [List.map_cons, List.nodup_cons]
      refine ⟨fun hm => ?_, ih'⟩
      obtain ⟨p, hp, hpj⟩ := List.mem_map.1 hm
      obtain ⟨k, o', ho', -, rfl⟩ := E.mem_ownedFrom.1 hp
      have hk := (List.getElem?_eq_some_iff.1 ho').1
      have he : (UInt32.ofNat (j + 1 + k)).toNat = (UInt32.ofNat j).toNat := by
        injection hpj with _ h; rw [h]
      rw [UInt32.toNat_ofNat_of_lt' (by unfold UInt32.size; omega),
        UInt32.toNat_ofNat_of_lt' (by unfold UInt32.size; omega)] at he
      omega
    · exact ih'

theorem nodup_owned {tx : BRTransaction} (ht : E.Resolves tx) : (E.owned tx).Nodup :=
  nodup_ownedFrom (by have := ht.index; omega)

theorem amounts_owned {tx : BRTransaction} (ht : E.Resolves tx) : E.amounts (E.owned tx) =
    ((E.ownedFrom tx.txHash 0 tx.outputs).map fun p => p.2.toNat).sum := by
  unfold amounts owned
  rw [List.map_map]
  refine congrArg List.sum (List.map_congr_left fun p hp => ?_)
  simp [amount, amountOf_ownedFrom ht hp]

theorem paid_toNat {tx : BRTransaction} (ht : E.Resolves tx)
    (h : totalAmount [tx] < 2 ^ 64) : (E.paid tx).toNat = E.amounts (E.owned tx) := by
  have hle := E.ownedFrom_sum_le tx.txHash 0 tx.outputs
  have hsum : ((E.ownedFrom tx.txHash 0 tx.outputs).map Prod.snd).map UInt64.toNat =
      (E.ownedFrom tx.txHash 0 tx.outputs).map fun p => p.2.toNat := by simp
  simp only [totalAmount, List.map_cons, List.map_nil, List.sum_cons, List.sum_nil] at h
  rw [paid, toNat_sum_of_lt (by rw [hsum]; omega), hsum, amounts_owned ht]

end LedgerIn

theorem totalAmount_snoc (pre : List BRTransaction) (tx : BRTransaction) :
    totalAmount (pre ++ [tx]) = totalAmount pre + totalAmount [tx] := by
  simp [totalAmount]

namespace Ledger

variable {E : LedgerIn} {pre : List BRTransaction} {L : Ledger} {tx : BRTransaction}

theorem checkedSub_of_le {a b : UInt64} (h : b.toNat ≤ a.toNat) :
    checkedSub a b = some (a - b) := if_pos (UInt64.le_iff_toNat_le.2 h)

theorem checkedSub_wrapSub {a b c : UInt64} (h : checkedSub a b = some c) :
    wrapSub a b = some c := by
  unfold checkedSub at h
  split_ifs at h
  exact h

theorem excess_checked (a b : UInt64) :
    ∃ e, excess checkedSub a b = some e ∧ e.toNat = a.toNat - b.toNat := by
  unfold excess
  by_cases h : b < a
  · have hle : b.toNat ≤ a.toNat := le_of_lt (UInt64.lt_iff_toNat_lt.1 h)
    exact ⟨a - b, by rw [if_pos h, checkedSub_of_le hle], toNat_sub_of_le hle⟩
  · have hle : a.toNat ≤ b.toNat := UInt64.le_iff_toNat_le.1 (UInt64.not_lt.1 h)
    exact ⟨0, if_neg h, by rw [UInt64.toNat_zero]; omega⟩

/-- Pruning does not underflow if the balance covers the UTXOs. -/
theorem pruneSpent_checked (spent : Finset UTXO) {us : List UTXO} {b : UInt64}
    (hr : ∀ u ∈ us, ∃ a, E.amountOf u = some a) (hb : E.amounts us ≤ b.toNat) :
    ∃ b', pruneSpent E checkedSub spent us b = some (us.filter fun u => decide (u ∉ spent), b') ∧
      b'.toNat + E.amounts us = b.toNat + E.amounts (us.filter fun u => decide (u ∉ spent)) := by
  induction us with
  | nil => exact ⟨b, rfl, rfl⟩
  | cons u us ih =>
    rw [LedgerIn.amounts_cons] at hb
    obtain ⟨c, hc, hsum⟩ := ih (fun v hv => hr v (by simp [hv])) (by omega)
    obtain ⟨a, ha⟩ := hr u (by simp)
    have hau : E.amount u = a.toNat := by simp [LedgerIn.amount, ha]
    by_cases hu : u ∈ spent
    · have hac : a.toNat ≤ c.toNat := by omega
      refine ⟨c - a, pruneSpent_cons.2 ⟨_, c, hc, Or.inl ⟨hu, ?_, a, ha, checkedSub_of_le hac⟩⟩, ?_⟩
      · simp [hu]
      · rw [toNat_sub_of_le hac, LedgerIn.amounts_cons, List.filter_cons_of_neg (by simp [hu])]
        omega
    · refine ⟨c, pruneSpent_cons.2 ⟨_, c, hc, Or.inr ⟨hu, ?_, rfl⟩⟩, ?_⟩
      · simp [hu]
      · rw [LedgerIn.amounts_cons, List.filter_cons_of_pos (by simp [hu]), LedgerIn.amounts_cons]
        omega

/-- The books of the loop after a prefix. -/
structure Books (E : LedgerIn) (pre : List BRTransaction) (L : Ledger) : Prop where
  refines : Refines E L (E.rules.run pre)
  balance : L.balance.toNat = E.amounts L.utxos
  prev : L.prevBalance = L.balance
  totals : L.totalReceived.toNat = L.totalSent.toNat + L.balance.toNat
  bound : L.totalReceived.toNat ≤ totalAmount pre
  hist : L.balanceHist.length = pre.length
  last : ∀ b, L.balanceHist.getLast? = some b → b = L.balance

theorem resolved (hr : ∀ t ∈ pre, E.Resolves t) (hL : Refines E L (E.rules.run pre)) :
    ∀ u ∈ L.utxos, ∃ a, E.amountOf u = some a := by
  intro u hu
  rw [hL.utxos] at hu
  obtain ⟨⟨t, ht, hut⟩, -⟩ := LedgerRules.mem_unspent.1 hu
  obtain ⟨p, hp, rfl⟩ := List.mem_map.1 hut
  exact ⟨p.2, LedgerIn.amountOf_ownedFrom (hr t ((E.rules.settled_sublist pre).subset ht)) hp⟩

theorem nodup_unspent {txs : List BRTransaction} (hd : (txs.map BRTransaction.txHash).Nodup)
    (hr : ∀ t ∈ txs, E.Resolves t) :
    (LedgerRules.unspent E.owned (E.rules.run txs)).Nodup := by
  have hsub := E.rules.settled_sublist txs
  have hd' : ((E.rules.run txs).settled.map BRTransaction.txHash).Nodup := hd.sublist (hsub.map _)
  refine List.Nodup.filter _ (List.nodup_flatMap.2 ⟨fun t ht => ?_, ?_⟩)
  · exact LedgerIn.nodup_owned (hr t (hsub.subset ht))
  · refine (List.pairwise_map.1 hd').imp fun {s t} hst u hs ht => hst ?_
    obtain ⟨k, o, -, -, hu⟩ := E.mem_owned.1 hs
    obtain ⟨k', o', -, -, hu'⟩ := E.mem_owned.1 ht
    exact congrArg UTXO.hash (hu.symm.trans hu')

/-- A transaction that settles: what was paid is added, what is spent is taken off, and the
    difference is booked as received or sent. -/
theorem settle_books (hL : Books E pre L) (hr : ∀ t ∈ pre ++ [tx], E.Resolves t)
    (hb : totalAmount (pre ++ [tx]) < 2 ^ 64) (hc : E.rules.Settles pre tx) :
    ∃ L', step E checkedSub L tx = some L' ∧ Books E (pre ++ [tx]) L' := by
  have htx : E.Resolves tx := hr tx (by simp)
  have hpre := resolved (fun t ht => hr t (by simp [ht])) hL.refines
  have hle := hL.bound
  have htot := hL.totals
  rw [totalAmount_snoc] at hb
  have hpaid := LedgerIn.paid_toNat htx (by omega)
  have howned : E.amounts (E.owned tx) ≤ totalAmount [tx] := by
    rw [LedgerIn.amounts_owned htx]
    simpa [totalAmount] using E.ownedFrom_sum_le tx.txHash 0 tx.outputs
  have hsum : (L.balance + E.paid tx).toNat = E.amounts (L.utxos ++ E.owned tx) := by
    rw [toNat_add_of_lt (by omega), hpaid, hL.balance, LedgerIn.amounts_append]
  have hres : ∀ u ∈ L.utxos ++ E.owned tx, ∃ a, E.amountOf u = some a := by
    intro u hu
    rcases List.mem_append.1 hu with hu | hu
    · exact hpre u hu
    · obtain ⟨p, hp, rfl⟩ := List.mem_map.1 hu
      exact ⟨p.2, LedgerIn.amountOf_ownedFrom htx hp⟩
  obtain ⟨b, hprune, hbal⟩ := pruneSpent_checked (L.spend tx).spentOutputs hres hsum.ge
  obtain ⟨r, hr, hrn⟩ := excess_checked b L.prevBalance
  obtain ⟨s, hs, hsn⟩ := excess_checked L.prevBalance b
  have hstep : step E checkedSub L tx = _ :=
    (step_settles hL.refines hc).trans (settle_some.2 ⟨_, b, r, s, hprune, hr, hs, rfl⟩)
  have hprev : L.prevBalance.toNat = L.balance.toNat := by rw [hL.prev]
  have hfilter : E.amounts ((L.utxos ++ E.owned tx).filter
      fun u => decide (u ∉ (L.spend tx).spentOutputs)) ≤ E.amounts (L.utxos ++ E.owned tx) :=
    (List.filter_sublist.map E.amount).sum_le_sum fun _ _ => Nat.zero_le _
  rw [LedgerIn.amounts_append] at hsum hbal hfilter
  have hbalance := hL.balance
  have hreceived : (L.totalReceived + r).toNat = L.totalReceived.toNat + r.toNat :=
    toNat_add_of_lt (by omega)
  have hsent : (L.totalSent + s).toNat = L.totalSent.toNat + s.toNat :=
    toNat_add_of_lt (by omega)
  refine ⟨_, hstep, step_refines hL.refines hstep, ?_, rfl, ?_, ?_, ?_, ?_⟩
  · show b.toNat = _
    simp only [spend] at hbal ⊢
    omega
  · show (L.totalReceived + r).toNat = (L.totalSent + s).toNat + b.toNat
    omega
  · show (L.totalReceived + r).toNat ≤ _
    rw [totalAmount_snoc]
    omega
  · show (L.balanceHist ++ [b]).length = _
    rw [List.length_append, List.length_append, hL.hist, List.length_singleton,
      List.length_singleton]
  · intro c hcl
    have hcl : (L.balanceHist ++ [b]).getLast? = some c := hcl
    simpa using hcl.symm

theorem step_books (hL : Books E pre L) (hr : ∀ t ∈ pre ++ [tx], E.Resolves t)
    (hb : totalAmount (pre ++ [tx]) < 2 ^ 64) :
    ∃ L', step E checkedSub L tx = some L' ∧ Books E (pre ++ [tx]) L' := by
  have hbound : L.totalReceived.toNat ≤ totalAmount (pre ++ [tx]) := by
    have := hL.bound
    rw [totalAmount_snoc]; omega
  have hhist : (L.balanceHist ++ [L.balance]).length = (pre ++ [tx]).length := by
    simp [hL.hist]
  have hlast : ∀ b, (L.balanceHist ++ [L.balance]).getLast? = some b → b = L.balance :=
    fun b hb => by simpa using hb.symm
  rcases E.rules.class_cases pre tx with hc | hc | hc
  · have hstep : step E checkedSub L tx = _ := step_invalid hL.refines hc
    exact ⟨_, hstep, step_refines hL.refines hstep, hL.balance, hL.prev, hL.totals, hbound, hhist,
      hlast⟩
  · have hstep : step E checkedSub L tx = _ := step_pending hL.refines hc
    exact ⟨_, hstep, step_refines hL.refines hstep, hL.balance, hL.prev, hL.totals, hbound, hhist,
      hlast⟩
  · exact settle_books hL hr hb hc

/-- The loop neither fails nor underflows, and keeps its books. -/
theorem run_books {txs : List BRTransaction} (hr : ∀ t ∈ txs, E.Resolves t)
    (hb : totalAmount txs < 2 ^ 64) : ∃ L, run E checkedSub txs = some L ∧ Books E txs L := by
  induction txs using List.reverseRecOn with
  | nil =>
    refine ⟨{}, rfl, ⟨rfl, rfl, rfl, rfl, rfl⟩, rfl, rfl, rfl, Nat.zero_le _, rfl, fun b h => ?_⟩
    cases h
  | append_singleton txs tx ih =>
    have hb' := hb
    rw [totalAmount_snoc] at hb'
    obtain ⟨L, hrun, hL⟩ := ih (fun t ht => hr t (by simp [ht])) (by omega)
    obtain ⟨L', hstep, hL'⟩ := step_books hL hr hb
    exact ⟨L', by rw [run_snoc, hrun, Option.bind_some, hstep], hL'⟩

/-! ## Runs without underflow

A run that never underflows is a run of the wrapping loop too. -/

theorem pruneSpent_wrapSub {spent : Finset UTXO} {us us' : List UTXO} {b b' : UInt64}
    (h : pruneSpent E checkedSub spent us b = some (us', b')) :
    pruneSpent E wrapSub spent us b = some (us', b') := by
  induction us generalizing us' b' with
  | nil => exact h
  | cons u us ih =>
    obtain ⟨vs, c, hvs, h⟩ := pruneSpent_cons.1 h
    refine pruneSpent_cons.2 ⟨vs, c, ih hvs, ?_⟩
    rcases h with ⟨hu, hus, a, ha, hc⟩ | h
    · exact Or.inl ⟨hu, hus, a, ha, checkedSub_wrapSub hc⟩
    · exact Or.inr h

theorem excess_wrapSub {a b e : UInt64} (h : excess checkedSub a b = some e) :
    excess wrapSub a b = some e := by
  unfold excess at h ⊢
  split_ifs at h ⊢
  · exact checkedSub_wrapSub h
  · exact h

theorem step_wrapSub {L' : Ledger} (h : step E checkedSub L tx = some L') :
    step E wrapSub L tx = some L' := by
  unfold step at h ⊢
  dsimp only at h ⊢
  split_ifs at h ⊢
  · exact h
  · exact h
  · obtain ⟨utxos, balance, r, s, hp, hr, hs, hL⟩ := settle_some.1 h
    exact settle_some.2 ⟨utxos, balance, r, s, pruneSpent_wrapSub hp, excess_wrapSub hr,
      excess_wrapSub hs, hL⟩

theorem run_wrapSub {txs : List BRTransaction} (h : run E checkedSub txs = some L) :
    run E wrapSub txs = some L := by
  induction txs using List.reverseRecOn generalizing L with
  | nil => exact h
  | append_singleton txs tx ih =>
    rw [run_snoc, Option.bind_eq_some_iff] at h ⊢
    obtain ⟨L₀, h₀, hs⟩ := h
    exact ⟨L₀, ih h₀, step_wrapSub hs⟩

end Ledger

namespace BRWallet

variable (w : BRWallet)

/-- The output of a listed transaction that is neither invalid nor pending, and that pays an
    address of the wallet. -/
def Earned (txs : List BRTransaction) (u : UTXO) : Prop :=
  ∃ tx ∈ txs, tx.txHash ∉ w.invalidTx ∧ tx.txHash ∉ w.pendingTx ∧ ∃ k o, tx.outputs[k]? = some o ∧
    o.address ≠ [] ∧ o.address ∈ w.allAddrs ∧ u = ⟨tx.txHash, UInt32.ofNat k⟩

/-- `u` is spent by the time it can be pruned: a transaction that is not invalid consumes it, and
    that one or a later one is not pending either. -/
def Pruned (txs : List BRTransaction) (u : UTXO) : Prop :=
  ∃ pre tx post, txs = pre ++ tx :: post ∧ tx.txHash ∉ w.invalidTx ∧ u ∈ tx.outpoints ∧
    ∃ s ∈ tx :: post, s.txHash ∉ w.invalidTx ∧ s.txHash ∉ w.pendingTx

/-- The amount a UTXO is worth. -/
def amount (u : UTXO) : ℕ := (w.output? u).elim 0 fun o => o.amount.toNat

/-- The accounting identity of a wallet whose transactions are `txs`. -/
structure Accounts (txs : List BRTransaction) : Prop where
  balance : w.balance.toNat = (w.utxos.map w.amount).sum
  nodup : w.utxos.Nodup
  exist : ∀ u ∈ w.utxos, (w.output? u).isSome
  mem_utxos : ∀ u, u ∈ w.utxos ↔ w.Earned txs u ∧ ¬ w.Pruned txs u
  totals : w.totalReceived.toNat = w.totalSent.toNat + w.balance.toNat
  hist : w.balanceHist.length = txs.length
  last : ∀ b, w.balanceHist.getLast? = some b → b = w.balance

variable {w}

theorem amountOf_ledgerIn (now : ℤ) (u : UTXO) :
    (w.ledgerIn now).amountOf u = (w.output? u).map BRTxOutput.amount := by
  simp only [LedgerIn.amountOf, output?, ledgerIn, Option.bind_eq_bind, Option.map_bind]
  refine Option.bind_congr fun t _ => ?_
  cases h : t.outputs[u.n.toNat]? <;> simp [h]

theorem amount_ledgerIn (now : ℤ) : (w.ledgerIn now).amount = w.amount := by
  funext u
  rw [LedgerIn.amount, amountOf_ledgerIn, amount]
  cases w.output? u <;> rfl

/-- The transactions are resolvable and their amounts do not overflow: the update neither fails
    nor underflows, and its result keeps the accounting identity. -/
theorem updateBalance_accounts (now : ℤ) {txs : List BRTransaction}
    (hr : w.registered = some txs) (hd : (txs.map BRTransaction.txHash).Nodup)
    (hl : ∀ tx ∈ txs, w.tx? tx.txHash = some tx) (hn : ∀ tx ∈ txs, tx.outputs.length ≤ 2 ^ 32)
    (hb : totalAmount txs < 2 ^ 64) :
    ∃ w', w.updateBalance now = some w' ∧ w.updateBalanceWith checkedSub now = some w' ∧
      w'.Accounts txs := by
  have hres : ∀ tx ∈ txs, (w.ledgerIn now).Resolves tx := fun tx htx => ⟨hl tx htx, hn tx htx⟩
  obtain ⟨L, hrun, hL⟩ := Ledger.run_books hres hb
  refine ⟨w.setLedger now L, updateBalanceWith_some.2 ⟨txs, L, hr, Ledger.run_wrapSub hrun, rfl⟩,
    updateBalanceWith_some.2 ⟨txs, L, hr, hrun, rfl⟩, ?_⟩
  have hinvalid : (w.setLedger now L).invalidTx = ((w.rules now).run txs).invalid :=
    hL.refines.invalid
  have hpending : (w.setLedger now L).pendingTx = ((w.rules now).run txs).pending :=
    hL.refines.pending
  have hutxos : (w.setLedger now L).utxos =
      LedgerRules.unspent (w.ledgerIn now).owned ((w.rules now).run txs) := hL.refines.utxos
  refine ⟨?_, ?_, ?_, fun u => ?_, hL.totals, hL.hist, hL.last⟩
  · have hamount : (w.setLedger now L).amount = (w.ledgerIn now).amount := (amount_ledgerIn now).symm
    rw [hamount]
    exact hL.balance
  · rw [hutxos]
    exact Ledger.nodup_unspent hd hres
  · intro u hu
    obtain ⟨a, ha⟩ := Ledger.resolved hres hL.refines u hu
    rw [amountOf_ledgerIn, Option.map_eq_some_iff] at ha
    obtain ⟨o, ho, -⟩ := ha
    exact Option.isSome_of_eq_some ho
  · unfold Earned Pruned
    rw [hutxos, hinvalid, hpending, LedgerRules.mem_unspent]
    refine and_congr ?_ (not_congr (LedgerRules.mem_swept_iff hd))
    simp only [LedgerRules.mem_settled_iff (R := w.rules now) hd, LedgerIn.mem_owned, and_assoc]
    rfl

theorem updateBalance_accounts_spendingWallet :
    ∃ w', spendingWallet.updateBalance 0 = some w' ∧
      spendingWallet.updateBalanceWith checkedSub 0 = some w' ∧
      w'.Accounts [payment, spending] :=
  updateBalance_accounts 0 rfl (by decide) (by decide) (by decide) (by decide)

end BRWallet

end RavenWallet
