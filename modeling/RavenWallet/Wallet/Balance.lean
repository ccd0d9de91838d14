/-
  `_BRWalletUpdateBalance`: the ledger of the wallet (BRWallet.c).

  The loop over `transactions` keeps the fields it rebuilds in a `Ledger`.  It
  is written over the subtraction it uses, so that the same loop can be run
  with a subtraction that traps instead of wrapping around.
-/
import Mathlib.Data.Finset.Lattice.Lemmas
import RavenWallet.Lib.Ledger
import RavenWallet.Wallet.State

namespace RavenWallet

/-- What the loop reads besides the transactions. -/
structure LedgerIn where
  now : ℤ
  blockHeight : UInt32
  allAddrs : Finset BRAddress
  allTx : UInt256 → Option BRTransaction

/-- The wallet fields the loop rebuilds, and its `prevBalance`. -/
structure Ledger where
  balance : UInt64 := 0
  prevBalance : UInt64 := 0
  totalSent : UInt64 := 0
  totalReceived : UInt64 := 0
  balanceHist : List UInt64 := []
  utxos : List UTXO := []
  spentOutputs : Finset UTXO := ∅
  invalidTx : Finset UInt256 := ∅
  pendingTx : Finset UInt256 := ∅
  usedAddrs : Finset BRAddress := ∅

/-- Subtraction of the C type, which wraps around. -/
def wrapSub (a b : UInt64) : Option UInt64 := some (a - b)

/-- Subtraction that traps on underflow. -/
def checkedSub (a b : UInt64) : Option UInt64 := if b ≤ a then some (a - b) else none

namespace LedgerIn

variable (E : LedgerIn)

/-- The future lock time tests on one input. -/
def lockedInput (tx : BRTransaction) (i : BRTxInput) : Bool :=
  (tx.lockTime < TX_MAX_LOCK_HEIGHT && tx.lockTime > E.blockHeight - 180) ||
    (i.sequence < UINT32_MAX && decide ((tx.lockTime.toNat : ℤ) > E.now))

/-- The outputs of `tx` from index `j` on that pay an address of the wallet, with their amounts. -/
def ownedFrom (hash : UInt256) : ℕ → List BRTxOutput → List (UTXO × UInt64)
  | _, [] => []
  | j, o :: os =>
    if o.address ≠ [] ∧ o.address ∈ E.allAddrs then
      (⟨hash, UInt32.ofNat j⟩, o.amount) :: ownedFrom hash (j + 1) os
    else ownedFrom hash (j + 1) os

/-- The amount of the output a UTXO names; fails if it does not exist. -/
def amountOf (u : UTXO) : Option UInt64 := do
  let t ← E.allTx u.hash
  let o ← t.outputs[u.n.toNat]?
  some o.amount

end LedgerIn

namespace Ledger

variable (E : LedgerIn) (sub : UInt64 → UInt64 → Option UInt64)

/-- Some input of the unconfirmed `tx` is invalid or already spent. -/
def isInvalid (L : Ledger) (tx : BRTransaction) : Bool :=
  tx.inputs.any fun i => i.outpoint ∈ L.spentOutputs || i.txHash ∈ L.invalidTx

def isPending (L : Ledger) (tx : BRTransaction) : Bool :=
  decide (tx.size > TX_MAX_SIZE) ||
    tx.inputs.any fun i => E.lockedInput tx i || i.txHash ∈ L.pendingTx

/-- Adds the outputs from index `j` on to the UTXOs. -/
def addOutputs (hash : UInt256) : ℕ → List BRTxOutput → Ledger → Ledger
  | _, [], L => L
  | j, o :: os, L =>
    if o.address ≠ [] then
      let L := { L with usedAddrs := insert o.address L.usedAddrs }
      if o.address ∈ E.allAddrs then
        addOutputs hash (j + 1) os
          { L with utxos := L.utxos ++ [⟨hash, UInt32.ofNat j⟩], balance := L.balance + o.amount }
      else addOutputs hash (j + 1) os L
    else addOutputs hash (j + 1) os L

/-- Removes the spent UTXOs, last one first, and their amounts from the balance. -/
def pruneSpent (spent : Finset UTXO) : List UTXO → UInt64 → Option (List UTXO × UInt64)
  | [], balance => some ([], balance)
  | u :: us, balance => do
    let (us, balance) ← pruneSpent spent us balance
    if u ∈ spent then
      let amount ← E.amountOf u
      let balance ← sub balance amount
      some (us, balance)
    else some (u :: us, balance)

/-- How much `a` exceeds `b`. -/
def excess (a b : UInt64) : Option UInt64 := if b < a then sub a b else some 0

/-- The end of an iteration: the totals and the history. -/
def record (L : Ledger) : Option Ledger := do
  let received ← excess sub L.balance L.prevBalance
  let sent ← excess sub L.prevBalance L.balance
  some { L with
    totalReceived := L.totalReceived + received
    totalSent := L.totalSent + sent
    balanceHist := L.balanceHist ++ [L.balance]
    prevBalance := L.balance }

/-- The part of an iteration that an invalid or pending transaction skips. -/
def settle (L : Ledger) (tx : BRTransaction) : Option Ledger := do
  let L := L.addOutputs E tx.txHash 0 tx.outputs
  let (utxos, balance) ← pruneSpent E sub L.spentOutputs L.utxos L.balance
  record sub { L with utxos, balance }

/-- Adds the inputs to the spent output set. -/
def spend (L : Ledger) (tx : BRTransaction) : Ledger :=
  { L with spentOutputs := L.spentOutputs ∪ tx.outpoints.toFinset }

/-- One iteration of the loop. -/
def step (L : Ledger) (tx : BRTransaction) : Option Ledger :=
  if tx.blockHeight = TX_UNCONFIRMED ∧ L.isInvalid tx then
    some { L with
      invalidTx := insert tx.txHash L.invalidTx, balanceHist := L.balanceHist ++ [L.balance] }
  else
    let L := L.spend tx
    if tx.blockHeight = TX_UNCONFIRMED ∧ L.isPending E tx then
      some { L with
        pendingTx := insert tx.txHash L.pendingTx, balanceHist := L.balanceHist ++ [L.balance] }
    else L.settle E sub tx

def run (txs : List BRTransaction) : Option Ledger := txs.foldlM (step E sub) {}

end Ledger

namespace BRWallet

variable (w : BRWallet)

def ledgerIn (now : ℤ) : LedgerIn := ⟨now, w.blockHeight, w.allAddrs, w.tx?⟩

/-- The wallet with the fields of `L`. -/
def setLedger (now : ℤ) (L : Ledger) : BRWallet :=
  { w with
    balance := L.balance, totalSent := L.totalSent, totalReceived := L.totalReceived
    balanceHist := L.balanceHist, utxos := L.utxos, spentOutputs := L.spentOutputs
    invalidTx := L.invalidTx, pendingTx := L.pendingTx, usedAddrs := L.usedAddrs
    updatedAt := now }

/-- `_BRWalletUpdateBalance` at clock `now`, with the subtraction `sub`. -/
def updateBalanceWith (sub : UInt64 → UInt64 → Option UInt64) (now : ℤ) : Option BRWallet := do
  let txs ← w.registered
  let L ← Ledger.run (w.ledgerIn now) sub txs
  some (w.setLedger now L)

/-- `_BRWalletUpdateBalance`. -/
def updateBalance (now : ℤ) : Option BRWallet := w.updateBalanceWith wrapSub now

end BRWallet

/-! ## Refinement of the abstract ledger -/

/-- The addresses that `os` pays. -/
def BRTxOutput.paidAddrs (os : List BRTxOutput) : List BRAddress :=
  (os.map address).filter fun a => a ≠ []

theorem BRTxOutput.paidAddrs_cons (o : BRTxOutput) (os : List BRTxOutput) :
    paidAddrs (o :: os) = if o.address ≠ [] then o.address :: paidAddrs os else paidAddrs os := by
  by_cases h : o.address = []
  · simp [paidAddrs, h]
  · simp [paidAddrs, h]

namespace LedgerIn

variable (E : LedgerIn)

/-- The wallet's reading of transactions: the unconfirmed ones are open, and held
    back if too large or locked. -/
def rules : LedgerRules BRTransaction UTXO UInt256 where
  id := BRTransaction.txHash
  ins := BRTransaction.outpoints
  src := UTXO.hash
  final tx := decide (tx.blockHeight ≠ TX_UNCONFIRMED)
  held tx := decide (tx.size > TX_MAX_SIZE) || tx.inputs.any (E.lockedInput tx)

@[simp] theorem rules_id (tx : BRTransaction) : E.rules.id tx = tx.txHash := rfl
@[simp] theorem rules_ins (tx : BRTransaction) : E.rules.ins tx = tx.outpoints := rfl
@[simp] theorem rules_src (u : UTXO) : E.rules.src u = u.hash := rfl

@[simp] theorem rules_final (tx : BRTransaction) :
    E.rules.final tx = decide (tx.blockHeight ≠ TX_UNCONFIRMED) := rfl

@[simp] theorem rules_held (tx : BRTransaction) : E.rules.held tx =
    (decide (tx.size > TX_MAX_SIZE) || tx.inputs.any (E.lockedInput tx)) := rfl

/-- The outputs of `tx` that pay an address of the wallet. -/
def owned (tx : BRTransaction) : List UTXO := (E.ownedFrom tx.txHash 0 tx.outputs).map Prod.fst

/-- The sum of their amounts. -/
def paid (tx : BRTransaction) : UInt64 := ((E.ownedFrom tx.txHash 0 tx.outputs).map Prod.snd).sum

theorem mem_ownedFrom {hash : UInt256} {p : UTXO × UInt64} : ∀ {j : ℕ} {os : List BRTxOutput},
    p ∈ E.ownedFrom hash j os ↔ ∃ k o, os[k]? = some o ∧ (o.address ≠ [] ∧
      o.address ∈ E.allAddrs) ∧ p = (⟨hash, UInt32.ofNat (j + k)⟩, o.amount)
  | j, [] => by simp [ownedFrom]
  | j, o :: os => by
    have ih := @mem_ownedFrom hash p (j + 1) os
    have hsplit : (∃ k o', (o :: os)[k]? = some o' ∧ (o'.address ≠ [] ∧ o'.address ∈ E.allAddrs) ∧
        p = (⟨hash, UInt32.ofNat (j + k)⟩, o'.amount)) ↔
        ((o.address ≠ [] ∧ o.address ∈ E.allAddrs) ∧ p = (⟨hash, UInt32.ofNat j⟩, o.amount)) ∨
          p ∈ E.ownedFrom hash (j + 1) os := by
      rw [ih]
      constructor
      · rintro ⟨k, o', ho', ha, hp⟩
        cases k with
        | zero => simp at ho'; subst ho'; exact Or.inl ⟨ha, hp⟩
        | succ k =>
          refine Or.inr ⟨k, o', by simpa using ho', ha, ?_⟩
          rw [hp, show j + (k + 1) = j + 1 + k by omega]
      · rintro (⟨ha, hp⟩ | ⟨k, o', ho', ha, hp⟩)
        · exact ⟨0, o, rfl, ha, hp⟩
        · refine ⟨k + 1, o', by simpa using ho', ha, ?_⟩
          rw [hp, show j + (k + 1) = j + 1 + k by omega]
    rw [hsplit, ownedFrom]
    split_ifs with h
    · rw [List.mem_cons]; simp [h]
    · simp [h]

theorem mem_owned {tx : BRTransaction} {u : UTXO} :
    u ∈ E.owned tx ↔ ∃ k o, tx.outputs[k]? = some o ∧ (o.address ≠ [] ∧ o.address ∈ E.allAddrs) ∧
      u = ⟨tx.txHash, UInt32.ofNat k⟩ := by
  simp only [owned, List.mem_map, mem_ownedFrom, Nat.zero_add]
  constructor
  · rintro ⟨p, ⟨k, o, ho, ha, rfl⟩, rfl⟩; exact ⟨k, o, ho, ha, rfl⟩
  · rintro ⟨k, o, ho, ha, rfl⟩; exact ⟨_, ⟨k, o, ho, ha, rfl⟩, rfl⟩

end LedgerIn

namespace Ledger

variable {E : LedgerIn} {sub : UInt64 → UInt64 → Option UInt64}

/-- What `addOutputs` changes. -/
theorem addOutputs_eq (hash : UInt256) (os : List BRTxOutput) (j : ℕ) (L : Ledger) :
    addOutputs E hash j os L =
      { L with
        usedAddrs := L.usedAddrs ∪ (BRTxOutput.paidAddrs os).toFinset
        utxos := L.utxos ++ (E.ownedFrom hash j os).map Prod.fst
        balance := L.balance + ((E.ownedFrom hash j os).map Prod.snd).sum } := by
  induction os generalizing j L with
  | nil => simp [addOutputs, LedgerIn.ownedFrom, BRTxOutput.paidAddrs, Finset.union_empty]
  | cons o os ih =>
    unfold addOutputs LedgerIn.ownedFrom
    by_cases h : o.address ≠ []
    · by_cases ha : o.address ∈ E.allAddrs
      · simp only [h, ha, ne_eq, not_false_eq_true, if_true, and_self, ih, List.map_cons,
          List.sum_cons, List.append_assoc, List.singleton_append, UInt64.add_assoc,
          BRTxOutput.paidAddrs_cons, List.toFinset_cons, Finset.insert_union_comm]
      · simp only [h, ha, ne_eq, not_false_eq_true, if_true, and_false, if_false, ih,
          BRTxOutput.paidAddrs_cons, List.toFinset_cons, Finset.insert_union_comm]
    · simp only [h, if_false, false_and, ih, BRTxOutput.paidAddrs_cons]

theorem pruneSpent_cons {spent : Finset UTXO} {u : UTXO} {us us' : List UTXO} {b b' : UInt64} :
    pruneSpent E sub spent (u :: us) b = some (us', b') ↔
      ∃ vs c, pruneSpent E sub spent us b = some (vs, c) ∧
        ((u ∈ spent ∧ us' = vs ∧ ∃ a, E.amountOf u = some a ∧ sub c a = some b') ∨
          (u ∉ spent ∧ us' = u :: vs ∧ b' = c)) := by
  simp only [pruneSpent, Option.bind_eq_bind, Option.bind_eq_some_iff, Prod.exists]
  refine exists_congr fun vs => exists_congr fun c => and_congr_right fun _ => ?_
  by_cases hu : u ∈ spent
  · simp only [hu, if_true, Option.bind_eq_some_iff, true_and, not_true_eq_false, false_and,
      or_false, Option.some.injEq, Prod.mk.injEq]
    constructor
    · rintro ⟨a, ha, d, hd, rfl, rfl⟩; exact ⟨rfl, a, ha, hd⟩
    · rintro ⟨rfl, a, ha, hd⟩; exact ⟨a, ha, _, hd, rfl, rfl⟩
  · simp only [hu, if_false, false_and, not_false_eq_true, true_and, false_or, Option.some.injEq,
      Prod.mk.injEq]
    exact and_congr eq_comm eq_comm

theorem pruneSpent_utxos {spent : Finset UTXO} : ∀ {us us' : List UTXO} {b b' : UInt64},
    pruneSpent E sub spent us b = some (us', b') → us' = us.filter fun u => decide (u ∉ spent)
  | [], us', b, b', h => by simp [pruneSpent] at h; simp [h.1]
  | u :: us, us', b, b', h => by
    obtain ⟨vs, c, hvs, h⟩ := pruneSpent_cons.1 h
    have ih := pruneSpent_utxos hvs
    rcases h with ⟨hu, rfl, -⟩ | ⟨hu, rfl, -⟩
    · simp [hu, ih]
    · simp [hu, ih]

theorem record_some {L L' : Ledger} :
    record sub L = some L' ↔ ∃ received sent, excess sub L.balance L.prevBalance = some received ∧
      excess sub L.prevBalance L.balance = some sent ∧
      L' = { L with
        totalReceived := L.totalReceived + received, totalSent := L.totalSent + sent
        balanceHist := L.balanceHist ++ [L.balance], prevBalance := L.balance } := by
  simp only [record, Option.bind_eq_bind, Option.bind_eq_some_iff, Option.some.injEq]
  constructor
  · rintro ⟨r, hr, s, hs, rfl⟩; exact ⟨r, s, hr, hs, rfl⟩
  · rintro ⟨r, s, hr, hs, rfl⟩; exact ⟨r, hr, s, hs, rfl⟩

/-- The loop agrees with the abstract ledger on a prefix. -/
structure Refines (E : LedgerIn) (L : Ledger) (c : Classes BRTransaction UTXO UInt256) : Prop where
  spent : L.spentOutputs = c.spent
  invalid : L.invalidTx = c.invalid
  pending : L.pendingTx = c.pending
  used : L.usedAddrs = (c.settled.flatMap fun t => BRTxOutput.paidAddrs t.outputs).toFinset
  utxos : L.utxos = LedgerRules.unspent E.owned c

variable {pre : List BRTransaction} {L L' : Ledger} {tx : BRTransaction}

theorem isInvalid_iff (hL : Refines E L (E.rules.run pre)) :
    (tx.blockHeight = TX_UNCONFIRMED ∧ L.isInvalid tx) ↔ E.rules.Invalid pre tx := by
  unfold LedgerRules.Invalid LedgerRules.conflicts isInvalid
  rw [hL.spent, hL.invalid]
  simp only [LedgerIn.rules_final, LedgerIn.rules_ins, LedgerIn.rules_src, BRTransaction.outpoints,
    List.any_map, Bool.and_eq_true, ne_eq, decide_not, Bool.not_not, decide_eq_true_eq]
  rfl

theorem isPending_iff (hp : L.pendingTx = (E.rules.run pre).pending) :
    (tx.blockHeight = TX_UNCONFIRMED ∧ L.isPending E tx) ↔ E.rules.waits (E.rules.run pre) tx := by
  unfold LedgerRules.waits isPending
  rw [hp]
  simp only [LedgerIn.rules_final, LedgerIn.rules_ins, LedgerIn.rules_src, LedgerIn.rules_held,
    BRTransaction.outpoints, List.any_map, Bool.and_eq_true, ne_eq, decide_not, Bool.not_not,
    decide_eq_true_eq, Bool.or_eq_true, List.any_eq_true, Function.comp, or_assoc]
  refine and_congr_right fun _ => or_congr_right ?_
  constructor
  · rintro ⟨i, hi, h | h⟩
    · exact Or.inl ⟨i, hi, h⟩
    · exact Or.inr ⟨i, hi, decide_eq_true h⟩
  · rintro (⟨i, hi, h⟩ | ⟨i, hi, h⟩)
    · exact ⟨i, hi, Or.inl h⟩
    · exact ⟨i, hi, Or.inr (of_decide_eq_true h)⟩

theorem step_invalid (hL : Refines E L (E.rules.run pre)) (h : E.rules.Invalid pre tx) :
    step E sub L tx = some { L with
      invalidTx := insert tx.txHash L.invalidTx, balanceHist := L.balanceHist ++ [L.balance] } := by
  rw [step, if_pos ((isInvalid_iff hL).2 h)]

theorem step_pending (hL : Refines E L (E.rules.run pre)) (h : E.rules.Pending pre tx) :
    step E sub L tx = some { L.spend tx with
      pendingTx := insert tx.txHash L.pendingTx, balanceHist := L.balanceHist ++ [L.balance] } := by
  rw [step, if_neg ((isInvalid_iff hL).not.2 h.1)]
  exact if_pos ((isPending_iff (L := L.spend tx) hL.pending).2 h.2)

theorem step_settles (hL : Refines E L (E.rules.run pre)) (h : E.rules.Settles pre tx) :
    step E sub L tx = (L.spend tx).settle E sub tx := by
  rw [step, if_neg ((isInvalid_iff hL).not.2 h.1)]
  exact if_neg ((isPending_iff (L := L.spend tx) hL.pending).not.2 h.2)

theorem settle_some : settle E sub L tx = some L' ↔
    ∃ utxos balance received sent,
      pruneSpent E sub L.spentOutputs (L.utxos ++ E.owned tx) (L.balance + E.paid tx) =
        some (utxos, balance) ∧
      excess sub balance L.prevBalance = some received ∧
      excess sub L.prevBalance balance = some sent ∧
      L' = { L with
        usedAddrs := L.usedAddrs ∪ (BRTxOutput.paidAddrs tx.outputs).toFinset
        utxos := utxos, balance := balance, prevBalance := balance
        totalReceived := L.totalReceived + received, totalSent := L.totalSent + sent
        balanceHist := L.balanceHist ++ [balance] } := by
  simp only [settle, addOutputs_eq, Option.bind_eq_bind, Option.bind_eq_some_iff, Prod.exists,
    record_some]
  constructor
  · rintro ⟨utxos, balance, hp, received, sent, hr, hs, rfl⟩
    exact ⟨utxos, balance, received, sent, hp, hr, hs, rfl⟩
  · rintro ⟨utxos, balance, received, sent, hp, hr, hs, rfl⟩
    exact ⟨utxos, balance, hp, received, sent, hr, hs, rfl⟩

/-- One iteration keeps the loop in agreement with the abstract ledger. -/
theorem step_refines (hL : Refines E L (E.rules.run pre)) (h : step E sub L tx = some L') :
    Refines E L' (E.rules.run (pre ++ [tx])) := by
  rcases E.rules.class_cases pre tx with hc | hc | hc
  · rw [step_invalid hL hc, Option.some.injEq] at h
    subst h
    rw [E.rules.run_invalid hc]
    exact ⟨hL.spent, by simp [hL.invalid], hL.pending, hL.used, hL.utxos⟩
  · rw [step_pending hL hc, Option.some.injEq] at h
    subst h
    rw [E.rules.run_pending hc]
    exact ⟨by simp [spend, LedgerRules.spend, hL.spent], hL.invalid, by simp [hL.pending], hL.used,
      hL.utxos⟩
  · rw [step_settles hL hc, settle_some] at h
    obtain ⟨utxos, balance, -, -, hp, -, -, rfl⟩ := h
    have hspent : (L.spend tx).spentOutputs = E.rules.spend (E.rules.run pre) tx := by
      simp [spend, LedgerRules.spend, hL.spent]
    have hu : LedgerRules.unspent E.owned (E.rules.run (pre ++ [tx])) = _ :=
      LedgerRules.unspent_settles hc
    rw [← hspent, ← hL.utxos] at hu
    have hu := hu.trans (pruneSpent_utxos hp).symm
    rw [E.rules.run_settles hc] at hu ⊢
    exact ⟨hspent, hL.invalid, hL.pending, by simp [spend, hL.used], hu.symm⟩

theorem run_snoc (txs : List BRTransaction) (tx : BRTransaction) :
    run E sub (txs ++ [tx]) = (run E sub txs).bind fun L => step E sub L tx := by
  simp [run, List.foldlM_append]

/-- The loop refines the abstract ledger. -/
theorem run_refines {txs : List BRTransaction} (h : run E sub txs = some L) :
    Refines E L (E.rules.run txs) := by
  induction txs using List.reverseRecOn generalizing L with
  | nil =>
    obtain rfl : {} = L := by simpa [run] using h
    exact ⟨rfl, rfl, rfl, rfl, rfl⟩
  | append_singleton txs tx ih =>
    rw [run_snoc, Option.bind_eq_some_iff] at h
    obtain ⟨L₀, h₀, hs⟩ := h
    exact step_refines (ih h₀) hs

end Ledger

namespace BRWallet

theorem updateBalanceWith_some {w w' : BRWallet} {sub : UInt64 → UInt64 → Option UInt64} {now : ℤ} :
    w.updateBalanceWith sub now = some w' ↔ ∃ txs L, w.registered = some txs ∧
      Ledger.run (w.ledgerIn now) sub txs = some L ∧ w' = w.setLedger now L := by
  simp only [updateBalanceWith, Option.bind_eq_bind, Option.bind_eq_some_iff, Option.some.injEq]
  constructor
  · rintro ⟨txs, hr, L, hL, rfl⟩; exact ⟨txs, L, hr, hL, rfl⟩
  · rintro ⟨txs, L, hr, hL, rfl⟩; exact ⟨txs, hr, L, hL, rfl⟩

/-- The rules by which the ledger of `w` is read at clock `now`. -/
abbrev rules (w : BRWallet) (now : ℤ) : LedgerRules BRTransaction UTXO UInt256 :=
  (w.ledgerIn now).rules

/-- The cached ledger after `updateBalance` is the abstract one. -/
theorem updateBalance_refines {w w' : BRWallet} {now : ℤ} {txs : List BRTransaction}
    (hr : w.registered = some txs) (hw : w.updateBalance now = some w') :
    w'.spentOutputs = ((w.rules now).run txs).spent ∧
      w'.invalidTx = ((w.rules now).run txs).invalid ∧
      w'.pendingTx = ((w.rules now).run txs).pending ∧
      w'.utxos = LedgerRules.unspent (w.ledgerIn now).owned ((w.rules now).run txs) := by
  obtain ⟨txs', L, hr', hL, rfl⟩ := updateBalanceWith_some.1 hw
  obtain rfl : txs = txs' := Option.some.inj (hr.symm.trans hr')
  have h := Ledger.run_refines hL
  exact ⟨h.spent, h.invalid, h.pending, h.utxos⟩

/-! ## Double spends -/

/-- No UTXO is spent. -/
def NoDoubleSpend (w : BRWallet) : Prop := ∀ o ∈ w.utxos, o ∉ w.spentOutputs

instance (w : BRWallet) : Decidable w.NoDoubleSpend :=
  inferInstanceAs (Decidable (∀ o ∈ w.utxos, o ∉ w.spentOutputs))

/-- The spent outputs are those of the transactions that are not invalid.  A UTXO is
    among them exactly when a pending transaction behind the last settled one consumes
    an output that a settled transaction before it pays to the wallet. -/
theorem updateBalance_noDoubleSpend {w w' : BRWallet} {now : ℤ} {txs : List BRTransaction}
    (hr : w.registered = some txs) (hw : w.updateBalance now = some w') :
    (∀ tx ∈ txs, tx.txHash ∉ w'.invalidTx → ∀ o ∈ tx.outpoints, o ∈ w'.spentOutputs) ∧
      (w'.NoDoubleSpend ↔ ∀ pre tx post, (w.rules now).Trailing txs pre tx post →
        ∀ o ∈ tx.outpoints, ∀ s ∈ ((w.rules now).run pre).settled, o ∉ (w.ledgerIn now).owned s) := by
  obtain ⟨hspent, hinvalid, -, hutxos⟩ := updateBalance_refines hr hw
  constructor
  · intro tx htx hv o ho
    obtain ⟨pre, post, rfl⟩ := List.append_of_mem htx
    rw [hinvalid, LedgerRules.mem_invalid] at hv
    rw [hspent, LedgerRules.mem_spent]
    exact ⟨pre, tx, post, rfl, fun hi => hv ⟨pre, tx, post, rfl, hi, rfl⟩, ho⟩
  · unfold NoDoubleSpend
    rw [hspent, hutxos]
    exact LedgerRules.unspent_disjoint_iff txs

/-- A confirmed payment to the wallet. -/
def payment : BRTransaction :=
  { txHash := 1, outputs := [{ address := [1], amount := 100 }], blockHeight := 200 }

/-- It is spent by an unconfirmed transaction that may not be mined before block 201. -/
def spending : BRTransaction :=
  { txHash := 2, inputs := [{ txHash := 1, index := 0 }]
    outputs := [{ address := [2], amount := 90 }], lockTime := 200 }

def spendingWallet : BRWallet :=
  { blockHeight := 200, externalChain := [[1]], allAddrs := {[1]}, transactions := [0, 1]
    allTx := AList.insert 2 1 (AList.singleton 1 0), heap := ⟨[some payment, some spending]⟩ }

theorem not_updateBalance_noDoubleSpend :
    ¬ ∀ (w w' : BRWallet) (now : ℤ), w.updateBalance now = some w' → w'.NoDoubleSpend := by
  intro h
  have hw : ∃ w', spendingWallet.updateBalance 0 = some w' ∧ ¬ w'.NoDoubleSpend := by
    refine ⟨_, rfl, ?_⟩
    decide
  obtain ⟨w', hw, hn⟩ := hw
  exact hn (h _ _ _ hw)

theorem updateBalance_noDoubleSpend_spendingWallet :
    ∃ w', spendingWallet.updateBalance 0 = some w' ∧
      (∀ tx ∈ [payment, spending], tx.txHash ∉ w'.invalidTx →
        ∀ o ∈ tx.outpoints, o ∈ w'.spentOutputs) ∧
      (w'.NoDoubleSpend ↔ ∀ pre tx post,
        (spendingWallet.rules 0).Trailing [payment, spending] pre tx post →
        ∀ o ∈ tx.outpoints, ∀ s ∈ ((spendingWallet.rules 0).run pre).settled,
          o ∉ (spendingWallet.ledgerIn 0).owned s) :=
  ⟨_, rfl, updateBalance_noDoubleSpend (w := spendingWallet) rfl rfl⟩

end BRWallet

end RavenWallet
