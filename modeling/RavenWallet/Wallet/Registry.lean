/-
  Registry integrity: no listed transaction is freed.

  `BRWalletUpdateTransactions` frees a transaction that is confirmed and does not
  belong to the wallet, whether it is listed or not.  `run_intact`: in every run in
  which no update frees a listed transaction, all listed transactions stay on the
  heap and all UTXOs resolve.
-/
import RavenWallet.Wallet.Filed
import RavenWallet.Wallet.Update

namespace RavenWallet

namespace BRWallet

/-- Every listed transaction is in `allTx` and not freed, and every UTXO resolves. -/
structure Intact (w : BRWallet) : Prop where
  listed : ∀ p ∈ w.transactions, ∃ tx, w.heap.load p = some tx ∧ w.allTx.lookup tx.txHash = some p
  utxos : ∀ u ∈ w.utxos, ∃ tx, w.tx? u.hash = some tx ∧ u.n.toNat < tx.outputs.length

/-- An update with these arguments frees no listed transaction. -/
def KeepsListed (w : BRWallet) (hs : List UInt256) (b t : UInt32) : Prop :=
  ∀ p ∈ w.transactions, ∀ tx, w.heap.load p = some tx → w.touches hs p = true →
    w.frees b t tx = false

/-- No update frees a listed transaction. -/
def registryGuard (w : BRWallet) : WalletOp → Prop
  | .updateTransactions _ hs b t => w.KeepsListed hs b t
  | _ => True

/-- The invariant: the listed transactions are on the heap, and the UTXOs are outputs of them. -/
structure Registry (w : BRWallet) : Prop where
  live : ∀ p ∈ w.transactions, w.heap.Live p
  utxos : ∀ u ∈ w.utxos, ∃ p ∈ w.transactions, ∃ tx, w.heap.load p = some tx ∧
    tx.txHash = u.hash ∧ u.n.toNat < tx.outputs.length

variable {env : Env} {w w' : BRWallet} {p : Ptr} {tx : BRTransaction} {op : WalletOp} {now : ℤ}

theorem Registry.intact (h : w.Registry) (hl : w.Listed) : w.Intact where
  listed p hp := by
    obtain ⟨tx, ht⟩ := h.live p hp
    exact ⟨tx, ht, hl.listed hp ht⟩
  utxos u hu := by
    obtain ⟨p, hp, tx, ht, hh, hn⟩ := h.utxos u hu
    refine ⟨tx, ?_, hn⟩
    rw [tx?, ← hh, hl.listed hp ht, Option.bind_some, ht]

/-- Wallets with the same list, UTXOs and outputs. -/
theorem Registry.congr (h : w.Registry) (ht : w'.transactions = w.transactions)
    (hu : w'.utxos = w.utxos) (hload : ∀ p ∈ w.transactions, ∀ tx, w.heap.load p = some tx →
      ∃ tx', w'.heap.load p = some tx' ∧ tx'.txHash = tx.txHash ∧ tx'.outputs = tx.outputs) :
    w'.Registry where
  live p hp := by
    rw [ht] at hp
    obtain ⟨tx, htx⟩ := h.live p hp
    obtain ⟨tx', h', -⟩ := hload p hp tx htx
    exact ⟨tx', h'⟩
  utxos u hm := by
    rw [hu] at hm
    obtain ⟨p, hp, tx, htx, hh, hn⟩ := h.utxos u hm
    obtain ⟨tx', h', hh', ho⟩ := hload p hp tx htx
    exact ⟨p, ht ▸ hp, tx', h', hh'.trans hh, ho ▸ hn⟩

/-- The ledger is computed from listed transactions on the heap. -/
theorem registry_setLedger {txs : List BRTransaction} {L : Ledger} (hr : w.registered = some txs)
    (hL : Ledger.run (w.ledgerIn now) wrapSub txs = some L) : (w.setLedger now L).Registry where
  live p hp := by
    obtain ⟨tx, -, ht⟩ := Heap.loadAll_mem hr hp
    exact ⟨tx, ht⟩
  utxos u hu := by
    have hu : u ∈ L.utxos := hu
    rw [(Ledger.run_refines hL).utxos] at hu
    obtain ⟨⟨tx, htx, hut⟩, -⟩ := LedgerRules.mem_unspent.1 hu
    have htx := ((w.ledgerIn now).rules.settled_sublist txs).subset htx
    obtain ⟨p, hp, ht⟩ := Heap.mem_of_loadAll hr htx
    obtain ⟨k, o, ho, -, rfl⟩ := (w.ledgerIn now).mem_owned.1 hut
    refine ⟨p, hp, tx, ht, rfl, ?_⟩
    have hk := (List.getElem?_eq_some_iff.1 ho).1
    have hle : (UInt32.ofNat k).toNat ≤ k := by
      rw [UInt32.toNat_ofNat']
      exact Nat.mod_le _ _
    exact hle.trans_lt hk

/-- The transaction that a removal takes out is no longer listed. -/
theorem Erased.not_mem {ts : List Ptr} (hl : w.Listed) (hk : w.allTx.lookup tx.txHash = some p)
    (h : w.Erased tx ts) : p ∉ ts := by
  obtain ⟨t, ht, -⟩ := hl.known hk
  exact hl.filed.not_mem_erased hk ht h

theorem Registry.removeTx {fuel : ℕ} {h : UInt256} (hl : w.Listed)
    (hk : w.allTx.lookup h = some p) (hp : w.heap.load p = some tx)
    (h : w.removeTx now fuel p tx h = some w') : w'.Registry := by
  obtain ⟨ts, txs, L, cs, he, hr, hL, rfl⟩ := removeTx_some h
  obtain rfl := hl.filed.hash hk hp
  have hn : p ∉ ts := he.not_mem hl hk
  refine (registry_setLedger hr hL).congr rfl rfl fun q hq tx' hq' => ⟨tx', ?_, rfl, rfl⟩
  show (w.heap.free p).load q = some tx'
  rw [Heap.load_free_ne]
  · exact hq'
  · rintro rfl
    exact hn hq

theorem Registry.updateLoop {hs : List UInt256} {b t : UInt32} {s : Updating}
    (h : w.Registry) (hg : w.KeepsListed hs b t) (hu : Updated w hs b t s) :
    s.wallet.Registry := by
  obtain ⟨heap, allTx, hf⟩ := hu.fields
  refine h.congr (by rw [hf]) (by rw [hf]) fun p hp tx ht => ?_
  rw [hu.load, ht, Option.bind_some, updated]
  split_ifs with htouch hfree
  · rw [hg p hp tx ht htouch] at hfree; cases hfree
  · exact ⟨_, rfl, rfl, rfl⟩
  · exact ⟨_, rfl, rfl, rfl⟩

theorem step_registry (hl : w.Listed) (hw : w.Registry) (hg : registryGuard w op)
    (h : step env w op w') : w'.Registry := by
  cases op with
  | alloc tx =>
    obtain rfl := h
    exact hw.congr rfl rfl fun p _ tx' ht => ⟨tx', Heap.load_alloc tx ht, rfl, rfl⟩
  | setCallbacks callbacks => obtain rfl := h; exact ⟨hw.live, hw.utxos⟩
  | registerTransaction now p =>
    obtain ⟨fuel, r, h⟩ := h
    obtain ⟨tx, hp, h⟩ := registerTransaction_cases h
    cases h with
    | added _ _ _ ha =>
      obtain ⟨ts, txs, L, ic, ec, aa, cs, -, hr, hL, -, -, rfl⟩ := ha.fields
      have hreg := registry_setLedger hr hL
      exact ⟨hreg.live, hreg.utxos⟩
    | parked => exact ⟨hw.live, hw.utxos⟩
    | _ => exact hw
  | removeTransaction now h' =>
    obtain ⟨fuel, h⟩ := h
    exact (removeTransaction_invariant (P := fun w => w.Listed ∧ w.Registry)
      (fun hw hk hp h => ⟨hw.1.removeTx hk hp h, .removeTx hw.1 hk hp h⟩) ⟨hl, hw⟩ h).2
  | updateTransactions now hs b t =>
    obtain ⟨s, cs, hs, h⟩ := updateTransactions_some h
    have hw₀ : (w.raised b).Registry := ⟨hw.live, hw.utxos⟩
    have hs := hw₀.updateLoop hg (updateLoop (w := w.raised b) hl.filed hs).1
    rcases h with ⟨-, rfl⟩ | ⟨-, txs, L, hr, hL, rfl⟩
    · exact ⟨hs.live, hs.utxos⟩
    · have hreg := registry_setLedger hr hL
      exact ⟨hreg.live, hreg.utxos⟩
  | setTxUnconfirmedAfter now b =>
    obtain ⟨ps, heap, hs, -, hu, ⟨rfl, rfl⟩ | ⟨-, txs, L, cs, hr, hL, rfl⟩⟩ :=
      setTxUnconfirmedAfter_some h
    · simp only [unconfirm, Option.some.injEq, Prod.mk.injEq] at hu
      obtain ⟨rfl, -⟩ := hu
      exact ⟨hw.live, hw.utxos⟩
    · have hreg := registry_setLedger hr hL
      exact ⟨hreg.live, hreg.utxos⟩

theorem init_registry (h : (system env).init w) : w.Registry := by
  obtain ⟨fuel, now, heap, transactions, h⟩ := h
  obtain ⟨w₀, ic, ec, aa, txs, L, -, hr, hL, rfl, -⟩ := new_some h
  exact registry_setLedger hr hL

theorem run_registry {G : BRWallet → WalletOp → Prop} (hG : ∀ w op, G w op → registryGuard w op)
    (h : (system env).Run G w) : w.Registry :=
  h.invariant run_listed init_registry fun hl hw hg hs _ => step_registry hl hw (hG _ _ hg) hs

/-- No listed transaction is freed in a run whose updates free no listed transaction. -/
theorem run_intact (h : (system env).Run registryGuard w) : w.Intact :=
  (run_registry (fun _ _ hg => hg) h).intact (run_listed h)

/-- `BRWalletNew` lists a transaction of others, which is freed once it is confirmed. -/
theorem not_run_intact :
    ¬ ∀ (env : Env) (w : BRWallet), (system env).Run (fun _ _ => True) w → w.Intact := by
  intro h
  have hbad : ∃ w, new sampleEnv 100 0 ⟨[some receipt, some foreign]⟩ [0, 1] = some (some w) ∧
      ∃ w', w.updateTransactions 0 [2] 100 0 = some w' ∧ 1 ∈ w'.transactions ∧
        w'.heap.load 1 = none :=
    ⟨_, rfl, _, rfl, by decide, rfl⟩
  obtain ⟨w, hw, w', hw', hm, hfree⟩ := hbad
  have hinit : (system sampleEnv).init w := ⟨100, 0, _, _, hw⟩
  have hstep : (system sampleEnv).step w (.updateTransactions 0 [2] 100 0) w' := hw'
  have hrun : (system sampleEnv).Run (fun _ _ => True) w' := .step (.init hinit) trivial hstep
  obtain ⟨tx, ht, -⟩ := (h sampleEnv w' hrun).listed 1 hm
  rw [hfree] at ht
  cases ht

theorem run_intact_receipt : ∃ w w', (system sampleEnv).init w ∧
    w.updateTransactions 0 [1] 100 0 = some w' ∧ w'.Intact := by
  have hw : ∃ w, new sampleEnv 100 0 ⟨[some receipt]⟩ [0] = some (some w) ∧
      w.transactions = [0] ∧ w.heap.load 0 = some receipt ∧ w.frees 100 0 receipt = false ∧
      ∃ w', w.updateTransactions 0 [1] 100 0 = some w' :=
    ⟨_, rfl, by decide, by decide, by decide, _, rfl⟩
  obtain ⟨w, hw, hts, hp, hf, w', hw'⟩ := hw
  have hg : registryGuard w (.updateTransactions 0 [1] 100 0) := by
    intro p hm tx ht _
    rw [hts, List.mem_singleton] at hm
    rw [hm, hp, Option.some.injEq] at ht
    rw [← ht, hf]
  have hinit : (system sampleEnv).init w := ⟨100, 0, _, _, hw⟩
  have hstep : (system sampleEnv).step w (.updateTransactions 0 [1] 100 0) w' := hw'
  exact ⟨w, w', hinit, hw', run_intact (.step (.init hinit) hg hstep)⟩

end BRWallet

end RavenWallet
