/-
  What the callbacks tell the application (BRWallet.c).

  The application keeps a record of every transaction that it gives to
  `BRWalletNew` or that `txAdded` announces, until `txDeleted`.  A parked
  transaction is in `allTx` without having been announced, and is reported all
  the same if it comes to belong to the wallet, or is removed.

  * `step_tells`: the records after an operation, one lemma for each operation
    before it;
  * `run_orderly`: as long as no call is about a parked transaction of that
    kind, only announced transactions are reported as updated or deleted.
-/
import RavenWallet.Lib.Records
import RavenWallet.Wallet.Removal

namespace RavenWallet

open Report (Announced Orderly tell)

/-- What a call of a callback tells; a transaction is read through its pointer. -/
def WalletEvent.report (heap : Heap BRTransaction) : WalletEvent → Option (Report UInt256)
  | .balanceChanged _ => none
  | .txAdded p => (heap.load p).map fun tx => .added tx.txHash
  | .txUpdated txHashes _ _ => some (.updated txHashes)
  | .txDeleted txHash _ _ => some (.deleted txHash)

namespace BRWallet

/-- A wallet, the hashes in the list given to `BRWalletNew`, and what was reported so far. -/
structure Reporting where
  wallet : BRWallet
  given : Finset UInt256
  reports : List (Report UInt256)

def givenHashes (heap : Heap BRTransaction) (transactions : List Ptr) : Finset UInt256 :=
  (transactions.filterMap fun p => (heap.load p).map BRTransaction.txHash).toFinset

/-- The calls that led to the wallet `w'` are reported. -/
def Reporting.after (s : Reporting) (w' : BRWallet) : Reporting :=
  { s with
    wallet := w'
    reports := s.reports ++
      (w'.calls.drop s.wallet.calls.length).filterMap (WalletEvent.report w'.heap) }

/-- The callbacks are set once, after `BRWalletNew`. -/
def reportSystem (env : Env) : System Reporting WalletOp where
  init s := ∃ fuel now heap transactions w, ∃ callbacks : Callbacks,
    new env fuel now heap transactions = some (some w) ∧ callbacks.txAdded = true ∧
      s = ⟨{ w with callbacks }, givenHashes heap transactions, []⟩
  step s op s' := (∀ callbacks, op ≠ .setCallbacks callbacks) ∧
    ∃ w', step env s.wallet op w' ∧ s' = s.after w'

/-- An update reports no parked transaction that was not announced, and a removal removes none. -/
def reportGuard (s : Reporting) : WalletOp → Prop
  | .updateTransactions _ txHashes blockHeight timestamp =>
    ∀ h ∈ txHashes, ∀ p tx, s.wallet.allTx.lookup h = some p → p ∉ s.wallet.transactions →
      s.wallet.heap.load p = some tx →
      ¬ (tx.blockHeight = blockHeight ∧ tx.timestamp = timestamp) →
      s.wallet.containsTx tx = true → Announced s.given s.reports h
  | .removeTransaction _ h =>
    ∀ p, s.wallet.allTx.lookup h = some p → p ∉ s.wallet.transactions →
      Announced s.given s.reports h
  | _ => True

/-! ## Calls and records -/

variable {env : Env} {w w' w'' : BRWallet} {heap : Heap BRTransaction} {fuel : ℕ} {now : ℤ}
  {p : Ptr} {tx : BRTransaction} {h : UInt256} {R R' R'' : Finset UInt256}

theorem emit_calls (w : BRWallet) (set : Bool) (e : WalletEvent) :
    (w.emit set e).calls = w.calls ++ if set then [e] else [] := by
  cases set with
  | true => rfl
  | false => exact (List.append_nil _).symm

section
variable (w : BRWallet) (set : Bool) (e : WalletEvent)

@[simp] theorem emit_heap : (w.emit set e).heap = w.heap := by cases set <;> rfl
@[simp] theorem emit_callbacks : (w.emit set e).callbacks = w.callbacks := by cases set <;> rfl
@[simp] theorem emit_transactions : (w.emit set e).transactions = w.transactions := by
  cases set <;> rfl

end

/-- The calls from `w` to `w'` turn the records `R` into `R'`. -/
def Tells (heap : Heap BRTransaction) (w w' : BRWallet) (R R' : Finset UInt256) : Prop :=
  ∃ es, w'.calls = w.calls ++ es ∧
    (es.filterMap (WalletEvent.report heap)).foldlM tell R = some R'

theorem Tells.of_eq (h : w'.calls = w.calls) : Tells heap w w' R R :=
  ⟨[], by rw [h, List.append_nil], rfl⟩

theorem Tells.trans (h : Tells heap w w' R R') (h' : Tells heap w' w'' R' R'') :
    Tells heap w w'' R R'' := by
  obtain ⟨es, hes, hR⟩ := h
  obtain ⟨es', hes', hR'⟩ := h'
  refine ⟨es ++ es', by rw [hes', hes, List.append_assoc], ?_⟩
  rw [List.filterMap_append, List.foldlM_append, hR]
  exact hR'

/-- The listed transactions have records. -/
def Recorded (w : BRWallet) (R : Finset UInt256) : Prop :=
  ∀ p tx, p ∈ w.transactions → w.heap.load p = some tx → tx.txHash ∈ R

/-! ## Registration -/

theorem registerTransaction_calls {r : Bool}
    (h : w.registerTransaction env fuel now p = some (w', r)) :
    w'.heap = w.heap ∧ w'.callbacks = w.callbacks ∧
      (w'.transactions = w.transactions ∧ w'.calls = w.calls ∨
        w'.transactions.Perm (p :: w.transactions) ∧ ∃ balance, w'.calls = w.calls ++
          (if w.callbacks.balanceChanged then [.balanceChanged balance] else []) ++
          if w.callbacks.txAdded then [.txAdded p] else []) := by
  simp only [registerTransaction, Option.bind_eq_bind, Option.bind_eq_some_iff] at h
  obtain ⟨tx, hp, h⟩ := h
  split_ifs at h with hs hk hc hu
  · obtain ⟨rfl, -⟩ := Prod.mk.inj (Option.some.inj h)
    exact ⟨rfl, rfl, Or.inl ⟨rfl, rfl⟩⟩
  · simp only [Option.bind_eq_some_iff, Prod.exists, Option.some.injEq, Prod.mk.injEq] at h
    obtain ⟨w₁, h₁, w₂, h₂, w₃, as, h₃, w₄, as', h₄, rfl, -⟩ := h
    obtain ⟨ts, hi, rfl⟩ := insertTx_enlist h₁
    obtain ⟨txs, L, -, -, rfl⟩ := updateBalance_some.1 h₂
    obtain ⟨ic, ec, aa, -, -, rfl, -⟩ := unusedAddrs_both h₃ h₄
    simp only [emit_heap, emit_callbacks, emit_transactions, emit_calls]
    exact ⟨rfl, rfl, Or.inr ⟨hi.perm, L.balance, rfl⟩⟩
  · obtain ⟨rfl, -⟩ := Prod.mk.inj (Option.some.inj h)
    exact ⟨rfl, rfl, Or.inl ⟨rfl, rfl⟩⟩
  · obtain ⟨rfl, -⟩ := Prod.mk.inj (Option.some.inj h)
    exact ⟨rfl, rfl, Or.inl ⟨rfl, rfl⟩⟩
  · obtain ⟨rfl, -⟩ := Prod.mk.inj (Option.some.inj h)
    exact ⟨rfl, rfl, Or.inl ⟨rfl, rfl⟩⟩

theorem registerTransaction_tells {r : Bool} (hr : Recorded w R)
    (hc : w.callbacks.txAdded = true)
    (h : w.registerTransaction env fuel now p = some (w', r)) :
    ∃ R', Tells w'.heap w w' R R' ∧ Recorded w' R' := by
  obtain ⟨tx, hp, -⟩ := registerTransaction_cases h
  obtain ⟨hheap, -, ⟨hts, hcalls⟩ | ⟨hts, balance, hcalls⟩⟩ := registerTransaction_calls h
  · refine ⟨R, .of_eq hcalls, ?_⟩
    intro q t hq ht
    exact hr q t (hts ▸ hq) (hheap ▸ ht)
  · refine ⟨insert tx.txHash R, ⟨_, (List.append_assoc ..).symm ▸ hcalls, ?_⟩, ?_⟩
    · have hreport : WalletEvent.report w'.heap (.txAdded p) = some (.added tx.txHash) := by
        rw [WalletEvent.report, hheap, hp]
        rfl
      rw [hc, if_pos rfl, List.filterMap_append, List.filterMap_cons_some hreport]
      cases w.callbacks.balanceChanged <;> rfl
    · intro q t hq ht
      rw [hheap] at ht
      rcases List.mem_cons.1 (hts.mem_iff.1 hq) with rfl | hq
      · obtain rfl := Option.some.inj (hp.symm.trans ht)
        exact Finset.mem_insert_self _ _
      · exact Finset.mem_insert_of_mem (hr q t hq ht)

/-! ## Heights -/

/-- What the loop of `BRWalletUpdateTransactions` started with, and what it reports. -/
structure Continues (b t : UInt32) (w : BRWallet) (R : Finset UInt256) (s : Updating) : Prop where
  known : ∀ {h p}, s.wallet.allTx.lookup h = some p → w.allTx.lookup h = some p
  load : ∀ {p tx}, s.wallet.heap.load p = some tx →
    ∃ tx₀, w.heap.load p = some tx₀ ∧ (tx = tx₀ ∨ tx = tx₀.setBlock b t)
  transactions : s.wallet.transactions = w.transactions
  allAddrs : s.wallet.allAddrs = w.allAddrs
  callbacks : s.wallet.callbacks = w.callbacks
  calls : s.wallet.calls = w.calls
  hashes : ∀ h ∈ s.hashes, h ∈ R

theorem Continues.owns {b t : UInt32} {s : Updating} (hs : Continues b t w R s) {u : UTXO}
    (h : s.wallet.Owns u) : w.Owns u := by
  obtain ⟨o, ho, ha⟩ := h
  simp only [output?, tx?, Option.bind_eq_bind, Option.bind_eq_some_iff] at ho
  obtain ⟨tx, ⟨p, hk, hp⟩, ho⟩ := ho
  obtain ⟨tx₀, hp₀, htx⟩ := hs.load hp
  refine ⟨o, ?_, hs.allAddrs ▸ ha⟩
  simp only [output?, tx?, Option.bind_eq_bind, Option.bind_eq_some_iff]
  refine ⟨tx₀, ⟨p, hs.known hk, hp₀⟩, ?_⟩
  rcases htx with rfl | rfl
  · exact ho
  · exact ho

/-- What belongs to the wallet during the loop, belonged to it before. -/
theorem Continues.containsTx {b t : UInt32} {s : Updating} (hs : Continues b t w R s)
    (h : s.wallet.containsTx tx = true) : w.containsTx tx = true := by
  rw [containsTx_iff] at h ⊢
  rcases h with ⟨o, ho, ha⟩ | ⟨u, hu, hown⟩
  · exact Or.inl ⟨o, ho, hs.allAddrs ▸ ha⟩
  · exact Or.inr ⟨u, hu, hs.owns hown⟩

/-- A height is written through a pointer. -/
theorem Continues.store {b t : UInt32} {s : Updating} (hs : Continues b t w R s)
    (hp : s.wallet.heap.load p = some tx) {q : Ptr} {tx' : BRTransaction}
    (hq : (s.wallet.heap.store p (tx.setBlock b t)).load q = some tx') :
    ∃ tx₀, w.heap.load q = some tx₀ ∧ (tx' = tx₀ ∨ tx' = tx₀.setBlock b t) := by
  by_cases hpq : p = q
  · subst hpq
    rw [Heap.load_store_self _ hp, Option.some.injEq] at hq
    obtain ⟨tx₀, hp₀, rfl | rfl⟩ := hs.load hp
    · exact ⟨tx, hp₀, Or.inr hq.symm⟩
    · exact ⟨tx₀, hp₀, Or.inr hq.symm⟩
  · rw [Heap.load_store_ne _ _ hpq] at hq
    exact hs.load hq

theorem Continues.updates {b t : UInt32} {s s' : Updating} (hs : Continues b t w R s)
    (hlisted : w.Listed) (hr : Recorded w R)
    (hg : ∀ p tx, w.allTx.lookup h = some p → p ∉ w.transactions → w.heap.load p = some tx →
      ¬ (tx.blockHeight = b ∧ tx.timestamp = t) → w.containsTx tx = true → h ∈ R)
    (hu : Updates b t s h s') : Continues b t w R s' := by
  cases hu with
  | unknown => exact hs
  | same => exact hs
  | @listed p tx hk hp hblock hown =>
    obtain ⟨tx₀, hp₀, htx⟩ := hs.load hp
    obtain rfl : tx = tx₀ := htx.resolve_right fun heq => hblock (heq ▸ ⟨rfl, rfl⟩)
    have hmem : h ∈ R := by
      have hk₀ := hs.known hk
      by_cases hlist : p ∈ w.transactions
      · obtain ⟨t', ht', rfl⟩ := hlisted.known hk₀
        exact hr p t' hlist ht'
      · exact hg p tx hk₀ hlist hp₀ hblock (hs.containsTx hown)
    refine { hs with load := fun hq => hs.store hp hq, hashes := ?_ }
    intro h' hh'
    rcases List.mem_append.1 hh' with hh' | hh'
    · exact hs.hashes h' hh'
    · rwa [List.mem_singleton.1 hh']
  | @freed p tx hk hp hblock _ _ =>
    refine { hs with known := fun {k q} hq => ?_, load := fun {q tx'} hq => ?_ }
    · have hq : (s.wallet.allTx.erase tx.txHash).lookup k = some q := hq
      by_cases he : k = tx.txHash
      · rw [he, AList.lookup_erase] at hq
        cases hq
      · rw [AList.lookup_erase_ne he] at hq
        exact hs.known hq
    · exact hs.store hp (Heap.load_free_some hq).2
  | parked _ hp _ _ _ => exact { hs with load := fun hq => hs.store hp hq }

theorem updateTransactions_calls {hs : List UInt256} {b t : UInt32}
    (h : w.updateTransactions now hs b t = some w') :
    ∃ s, hs.foldlM (updateTx b t) ⟨w.raised b, [], false⟩ = some s ∧
      w'.heap = s.wallet.heap ∧ w'.transactions = s.wallet.transactions ∧
      w'.callbacks = s.wallet.callbacks ∧ w'.calls = s.wallet.calls ++
        if decide (s.hashes ≠ []) && s.wallet.callbacks.txUpdated then
          [.txUpdated s.hashes b t] else [] := by
  simp only [updateTransactions, raised_eq, Option.bind_eq_bind, Option.bind_eq_some_iff,
    Option.some.injEq] at h
  obtain ⟨s, hs, w₁, h₁, rfl⟩ := h
  refine ⟨s, hs, ?_⟩
  simp only [emit_heap, emit_callbacks, emit_transactions, emit_calls]
  unfold updateIf at h₁
  split_ifs at h₁ with hn
  · obtain ⟨txs, L, -, -, rfl⟩ := updateBalance_some.1 h₁
    exact ⟨rfl, rfl, rfl, rfl⟩
  · obtain rfl := Option.some.inj h₁
    exact ⟨rfl, rfl, rfl, rfl⟩

theorem Tells.updated {ks : List UInt256} {b t : UInt32} {set : Bool} (hks : ∀ k ∈ ks, k ∈ R)
    (h : w'.calls = w.calls ++ if set then [.txUpdated ks b t] else []) :
    Tells heap w w' R R := by
  refine ⟨_, h, ?_⟩
  cases set with
  | false => rfl
  | true => exact (congrArg (fun r => Option.bind r fun R => some R) (if_pos hks)).trans rfl

theorem updateTransactions_tells (heap : Heap BRTransaction) {hs : List UInt256} {b t : UInt32}
    (hl : w.Listed) (hr : Recorded w R)
    (hg : ∀ h ∈ hs, ∀ p tx, w.allTx.lookup h = some p → p ∉ w.transactions →
      w.heap.load p = some tx → ¬ (tx.blockHeight = b ∧ tx.timestamp = t) →
      w.containsTx tx = true → h ∈ R)
    (h : w.updateTransactions now hs b t = some w') :
    Tells heap w w' R R ∧ Recorded w' R ∧ w'.callbacks = w.callbacks := by
  obtain ⟨s, hloop, hheap, hts, hcb, hcalls⟩ := updateTransactions_calls h
  have hs : Continues b t w R s := by
    refine updateLoop_invariant (P := Continues b t w R)
      (fun hm hs hu => hs.updates hl hr (hg _ hm) hu) ?_ hloop
    exact ⟨fun h => h, fun h => ⟨_, h, Or.inl rfl⟩, rfl, rfl, rfl, rfl, by simp⟩
  refine ⟨.updated hs.hashes (hs.calls ▸ hcalls), ?_, hcb.trans hs.callbacks⟩
  intro q tx hq hp
  rw [hts, hs.transactions] at hq
  rw [hheap] at hp
  obtain ⟨tx₀, hp₀, rfl | rfl⟩ := hs.load hp
  · exact hr q tx hq hp₀
  · exact hr q tx₀ hq hp₀

theorem unconfirm_hashes {d : UInt256} :
    ∀ {ps : List Ptr} {heap heap' : Heap BRTransaction} {hs : List UInt256},
      unconfirm heap ps = some (heap', hs) → d ∈ hs →
        ∃ q ∈ ps, ∃ tx, heap.load q = some tx ∧ tx.txHash = d
  | [], heap, heap', hs, h, hd => by
    obtain ⟨-, rfl⟩ := Prod.mk.inj (Option.some.inj h)
    cases hd
  | p :: ps, heap, heap', hs, h, hd => by
    simp only [unconfirm, Option.bind_eq_bind, Option.bind_eq_some_iff, Prod.exists,
      Option.some.injEq, Prod.mk.injEq] at h
    obtain ⟨tx, hp, heap₁, hs₁, h₁, -, rfl⟩ := h
    rcases List.mem_cons.1 hd with rfl | hd
    · exact ⟨p, List.mem_cons_self, tx, hp, rfl⟩
    · obtain ⟨q, hq, tx', htx', rfl⟩ := unconfirm_hashes h₁ hd
      by_cases hpq : p = q
      · subst hpq
        rw [Heap.load_store_self _ hp, Option.some.injEq] at htx'
        exact ⟨p, List.mem_cons_self, tx, hp, by rw [← htx', BRTransaction.setBlock_txHash]⟩
      · rw [Heap.load_store_ne _ _ hpq] at htx'
        exact ⟨q, List.mem_cons_of_mem _ hq, tx', htx', rfl⟩

theorem setTxUnconfirmedAfter_calls {b : UInt32} (h : w.setTxUnconfirmedAfter now b = some w') :
    ∃ ps hs, w.suffix (fun height => decide (height > b)) = some ps ∧
      unconfirm w.heap ps = some (w'.heap, hs) ∧ w'.transactions = w.transactions ∧
      w'.callbacks = w.callbacks ∧ w'.calls = w.calls ++
        if decide (ps ≠ []) && w.callbacks.txUpdated then [.txUpdated hs TX_UNCONFIRMED 0]
        else [] := by
  simp only [setTxUnconfirmedAfter, Option.bind_eq_bind, Option.bind_eq_some_iff, Prod.exists] at h
  obtain ⟨ps, hps, heap, hs, hheap, h⟩ := h
  refine ⟨ps, hs, hps, ?_⟩
  split_ifs at h with hn
  · obtain rfl := Option.some.inj h
    subst hn
    exact ⟨hheap, rfl, rfl, (List.append_nil _).symm⟩
  · simp only [Option.bind_eq_some_iff, Option.some.injEq] at h
    obtain ⟨w₁, h₁, rfl⟩ := h
    obtain ⟨txs, L, -, -, rfl⟩ := updateBalance_some.1 h₁
    simp only [emit_heap, emit_callbacks, emit_transactions, emit_calls]
    rw [decide_eq_true hn, Bool.true_and]
    exact ⟨hheap, rfl, rfl, rfl⟩

theorem setTxUnconfirmedAfter_tells (heap : Heap BRTransaction) {b : UInt32} (hr : Recorded w R)
    (h : w.setTxUnconfirmedAfter now b = some w') :
    Tells heap w w' R R ∧ Recorded w' R ∧ w'.callbacks = w.callbacks := by
  obtain ⟨ps, hs, hps, hu, hts, hcb, hcalls⟩ := setTxUnconfirmedAfter_calls h
  have hlisted : ∀ q ∈ ps, q ∈ w.transactions := by
    intro q hq
    have hpre := (scanBack_start (suffix_some hps)).subset (List.mem_reverse.2 hq)
    exact List.mem_reverse.1 hpre
  refine ⟨.updated ?_ hcalls, ?_, hcb⟩
  · intro d hd
    obtain ⟨q, hq, tx, hp, rfl⟩ := unconfirm_hashes hu hd
    exact hr q tx (hlisted q hq) hp
  · intro q tx hq hp
    obtain ⟨tx₀, hp₀, _, rfl⟩ := unconfirm_src hu hp
    exact hr q tx₀ (hts ▸ hq) hp₀

/-! ## Removal -/

theorem removeTx_calls {k : UInt256} (h : w.removeTx now fuel p tx k = some w') :
    ∃ balance notifyUser recommendRescan, w'.callbacks = w.callbacks ∧ w'.calls = w.calls ++
      ((if w.callbacks.balanceChanged then [.balanceChanged balance] else []) ++
        if w.callbacks.txDeleted then [.txDeleted k notifyUser recommendRescan] else []) := by
  simp only [removeTx, Option.bind_eq_bind, Option.bind_eq_some_iff, Prod.exists,
    Option.some.injEq] at h
  obtain ⟨w₁, h₁, w₂, h₂, u, v, -, rfl⟩ := h
  simp only [unlist, Option.bind_eq_bind, Option.bind_eq_some_iff, Option.some.injEq] at h₁
  obtain ⟨r, -, rfl⟩ := h₁
  obtain ⟨txs, L, -, -, rfl⟩ := updateBalance_some.1 h₂
  refine ⟨L.balance, u, v, ?_⟩
  simp only [emit_callbacks, emit_calls]
  exact ⟨rfl, List.append_assoc ..⟩

/-- A removal leaves the records `R'`, and with them all it still knows that had one. -/
structure Forgets (w : BRWallet) (R : Finset UInt256) (w' : BRWallet) (R' : Finset UInt256) :
    Prop where
  tells : ∀ heap, Tells heap w w' R R'
  listed : w'.Listed
  recorded : Recorded w' R'
  callbacks : w'.callbacks = w.callbacks
  known : ∀ {k p}, w'.allTx.lookup k = some p → w.allTx.lookup k = some p
  kept : ∀ {k p}, w'.allTx.lookup k = some p → k ∈ R → k ∈ R'

theorem Forgets.refl (hl : w.Listed) (hr : Recorded w R) : Forgets w R w R where
  tells _ := .of_eq rfl
  listed := hl
  recorded := hr
  callbacks := rfl
  known h := h
  kept _ h := h

theorem Forgets.trans (h : Forgets w R w' R') (h' : Forgets w' R' w'' R'') :
    Forgets w R w'' R'' where
  tells heap := (h.tells heap).trans (h'.tells heap)
  listed := h'.listed
  recorded := h'.recorded
  callbacks := h'.callbacks.trans h.callbacks
  known hk := h.known (h'.known hk)
  kept hk hR := h'.kept hk (h.kept (h'.known hk) hR)

theorem removeTx_forgets {k : UInt256} (hl : w.Listed) (hr : Recorded w R)
    (hk : w.allTx.lookup k = some p) (hp : w.heap.load p = some tx) (hR : k ∈ R)
    (h : w.removeTx now fuel p tx k = some w') : ∃ R', Forgets w R w' R' := by
  have hl' := hl.removeTx hk hp h
  obtain ⟨balance, u, v, hcb, hcalls⟩ := removeTx_calls h
  obtain ⟨ts, txs, L, cs, he, -, -, rfl⟩ := removeTx_some h
  obtain rfl := hl.filed.hash hk hp
  have hknown : ∀ {k q}, (w.allTx.erase tx.txHash).lookup k = some q →
      k ≠ tx.txHash ∧ w.allTx.lookup k = some q := by
    intro k q hq
    have hne : k ≠ tx.txHash := by
      rintro rfl
      rw [AList.lookup_erase] at hq
      cases hq
    exact ⟨hne, by rwa [AList.lookup_erase_ne hne] at hq⟩
  have hrec : ∀ q t', q ∈ ts → (w.heap.free p).load q = some t' →
      t'.txHash ≠ tx.txHash ∧ t'.txHash ∈ R := by
    intro q t' hq ht'
    refine ⟨(hknown (hl'.listed hq ht')).1, ?_⟩
    exact hr q t' (he.sublist.subset hq) (Heap.load_free_some ht').2
  by_cases hset : w.callbacks.txDeleted = true
  · refine ⟨R.erase tx.txHash, ⟨fun heap => ⟨_, hcalls, ?_⟩, hl', ?_, hcb,
      fun hq => (hknown hq).2, ?_⟩⟩
    · rw [if_pos hset, List.filterMap_append]
      have htell : tell R (.deleted tx.txHash) = some (R.erase tx.txHash) := if_pos hR
      cases w.callbacks.balanceChanged <;>
        exact (congrArg (fun r => Option.bind r fun R => some R) htell).trans rfl
    · intro q t' hq ht'
      exact Finset.mem_erase.2 (hrec q t' hq ht')
    · intro k q hq hkR
      exact Finset.mem_erase.2 ⟨(hknown hq).1, hkR⟩
  · refine ⟨R, ⟨fun heap => ⟨_, hcalls, ?_⟩, hl', ?_, hcb, fun hq => (hknown hq).2, fun _ h => h⟩⟩
    · rw [if_neg hset, List.append_nil]
      cases w.callbacks.balanceChanged <;> rfl
    · intro q t' hq ht'
      exact (hrec q t' hq ht').2

theorem removeTransaction_forgets (hl : w.Listed) (hr : Recorded w R)
    (hR : ∀ p, w.allTx.lookup h = some p → h ∈ R)
    (hrem : removeTransaction now fuel w h = some w') : ∃ R', Forgets w R w' R' := by
  induction fuel generalizing w w' h R with
  | zero => cases hrem
  | succ fuel ih =>
    unfold removeTransaction at hrem
    rcases hk : w.allTx.lookup h with _ | p
    · simp only [hk, Option.some.injEq] at hrem
      obtain rfl := hrem
      exact ⟨R, .refl hl hr⟩
    · simp only [hk, Option.bind_eq_bind, Option.bind_eq_some_iff] at hrem
      obtain ⟨tx, hp, hashes, hd, hrem⟩ := hrem
      split_ifs at hrem with hne
      · obtain ⟨w₁, h₁, hrem⟩ := Option.bind_eq_some_iff.1 hrem
        -- the dependents are listed, and stay so until they are removed
        have hdeps : ∃ R₁, Forgets w R w₁ R₁ := by
          refine foldlM_invariant (P := fun v => ∃ R₁, Forgets w R v R₁) ?_ ⟨R, .refl hl hr⟩ h₁
          rintro v d v' hmem ⟨R₁, hv⟩ hd'
          obtain ⟨q, hq, t, ht, rfl, -⟩ := dependents_mem hd (List.mem_reverse.1 hmem)
          have hdR := hr q t (List.mem_reverse.1 hq) ht
          obtain ⟨R₂, hv'⟩ := ih hv.listed hv.recorded (fun p hp => hv.kept hp hdR) hd'
          exact ⟨R₂, hv.trans hv'⟩
        obtain ⟨R₁, hw₁⟩ := hdeps
        obtain ⟨R₂, hw'⟩ := ih hw₁.listed hw₁.recorded (fun q hq => hw₁.kept hq (hR p hk)) hrem
        exact ⟨R₂, hw₁.trans hw'⟩
      · exact removeTx_forgets hl hr hk hp (hR p hk) hrem

/-! ## Runs -/

/-- What runs keep: the records are there, and the listed transactions have one. -/
structure Reports (s : Reporting) : Prop where
  listed : s.wallet.Listed
  set : s.wallet.callbacks.txAdded = true
  records : ∃ R, s.reports.foldlM tell s.given = some R ∧ Recorded s.wallet R

theorem step_tells {s : Reporting} {op : WalletOp} (hs : Reports s) (hg : reportGuard s op)
    (hop : ∀ callbacks, op ≠ .setCallbacks callbacks) (h : step env s.wallet op w') :
    ∀ R, s.reports.foldlM tell s.given = some R → Recorded s.wallet R →
      w'.callbacks = s.wallet.callbacks ∧ ∃ R', Tells w'.heap s.wallet w' R R' ∧ Recorded w' R' := by
  intro R hR hr
  cases op with
  | alloc tx =>
    obtain rfl := h
    refine ⟨rfl, R, .of_eq rfl, ?_⟩
    intro q t hq ht
    exact hr q t hq (Heap.load_alloc_of_lt tx (hs.listed.old hq) ▸ ht)
  | setCallbacks callbacks => exact absurd rfl (hop callbacks)
  | registerTransaction now p =>
    obtain ⟨fuel, r, h⟩ := h
    exact ⟨(registerTransaction_calls h).2.1, registerTransaction_tells hr hs.set h⟩
  | removeTransaction now k =>
    obtain ⟨fuel, h⟩ := h
    have hk : ∀ p, s.wallet.allTx.lookup k = some p → k ∈ R := by
      intro p hp
      by_cases hlist : p ∈ s.wallet.transactions
      · obtain ⟨t, ht, rfl⟩ := hs.listed.known hp
        exact hr p t hlist ht
      · exact (Report.mem_records_iff hR).2 (hg p hp hlist)
    obtain ⟨R', hR'⟩ := removeTransaction_forgets hs.listed hr hk h
    exact ⟨hR'.callbacks, R', hR'.tells _, hR'.recorded⟩
  | updateTransactions now hashes b t =>
    obtain ⟨htells, hrec, hcb⟩ := updateTransactions_tells w'.heap hs.listed hr
      (fun k hk p tx hl hp hload hblock hown =>
        (Report.mem_records_iff hR).2 (hg k hk p tx hl hp hload hblock hown)) h
    exact ⟨hcb, R, htells, hrec⟩
  | setTxUnconfirmedAfter now b =>
    obtain ⟨htells, hrec, hcb⟩ := setTxUnconfirmedAfter_tells w'.heap hr h
    exact ⟨hcb, R, htells, hrec⟩

theorem step_reports {s s' : Reporting} {op : WalletOp} (hs : Reports s) (hg : reportGuard s op)
    (h : (reportSystem env).step s op s') : Reports s' := by
  obtain ⟨hop, w', hstep, rfl⟩ := h
  obtain ⟨R, hR, hr⟩ := hs.records
  obtain ⟨hcb, R', ⟨es, hes, htell⟩, hr'⟩ := step_tells hs hg hop hstep R hR hr
  refine ⟨step_listed hs.listed hstep, hcb ▸ hs.set, R', ?_, hr'⟩
  rw [Reporting.after, hes, List.drop_left, List.foldlM_append, hR]
  exact htell

theorem init_reports {s : Reporting} (h : (reportSystem env).init s) : Reports s := by
  obtain ⟨fuel, now, heap, transactions, w, callbacks, hnew, hset, rfl⟩ := h
  have hl : w.Listed := init_listed ⟨fuel, now, heap, transactions, hnew⟩
  refine ⟨hl, hset, _, rfl, ?_⟩
  obtain ⟨w₀, ic, ec, aa, txs, L, h₀, -, -, rfl, -⟩ := new_some hnew
  have hgiven : w₀.heap = heap ∧ ∀ p ∈ w₀.transactions, p ∈ transactions := by
    refine foldlM_invariant
      (P := fun v : BRWallet => v.heap = heap ∧ ∀ p ∈ v.transactions, p ∈ transactions)
      ?_ ⟨rfl, by simp⟩ h₀
    rintro v p v' hmem ⟨hheap, hts⟩ h
    rcases addTx_cases h with rfl | ⟨tx, ts, -, -, -, hi, rfl⟩
    · exact ⟨hheap, hts⟩
    · refine ⟨hheap, fun q hq => ?_⟩
      rcases List.mem_cons.1 (hi.perm.mem_iff.1 hq) with rfl | hq
      · exact hmem
      · exact hts q hq
  intro q tx hq hp
  have hp : w₀.heap.load q = some tx := hp
  rw [hgiven.1] at hp
  rw [givenHashes, List.mem_toFinset, List.mem_filterMap]
  exact ⟨q, hgiven.2 q hq, by rw [hp]; rfl⟩

/-- In a run in which no parked transaction is updated or removed unannounced, every transaction
    reported as updated or deleted was given to `BRWalletNew` or announced, and not deleted since. -/
theorem run_orderly {s : Reporting} (h : (reportSystem env).Run reportGuard s) :
    Orderly s.given s.reports := by
  have hs : Reports s := h.invariant (J := fun _ => True) (fun _ => trivial) init_reports
    fun _ hs hg hst _ => step_reports hs hg hst
  obtain ⟨R, hR, -⟩ := hs.records
  exact Report.orderly_iff.2 ⟨R, hR⟩

def allCallbacks : Callbacks := ⟨true, true, true, true⟩

/-- Pays the first address behind those of a new wallet. -/
def earlyReceipt : BRTransaction :=
  { txHash := 5, outputs := [{ address := [0, 10], amount := 30 }] }

/-- A new wallet without transactions, with all callbacks. -/
def reporting (w : BRWallet) : Reporting := ⟨{ w with callbacks := allCallbacks }, ∅, []⟩

/-- A payment is parked, and its address generated afterwards; then the payment is confirmed. -/
theorem not_run_orderly : ¬ ∀ (env : Env) (s : Reporting),
    (reportSystem env).Run (fun _ _ => True) s → Orderly s.given s.reports := by
  intro h
  have hbad : ∃ w, new sampleEnv 100 0 ⟨[some earlyReceipt, some receipt]⟩ [] = some (some w) ∧
      ∃ w₁, (reporting w).wallet.registerTransaction sampleEnv 100 0 0 = some (w₁, false) ∧
        ∃ w₂, w₁.registerTransaction sampleEnv 100 0 1 = some (w₂, true) ∧
          ∃ w₃, w₂.updateTransactions 0 [5] 100 0 = some w₃ ∧
            ((((reporting w).after w₁).after w₂).after w₃).reports = [.added 1, .updated [5]] :=
    ⟨_, rfl, _, rfl, _, rfl, _, rfl, by decide⟩
  obtain ⟨w, hw, w₁, h₁, w₂, h₂, w₃, h₃, hreports⟩ := hbad
  have hinit : (reportSystem sampleEnv).init (reporting w) :=
    ⟨100, 0, _, [], w, allCallbacks, hw, rfl, rfl⟩
  have hstep₁ : (reportSystem sampleEnv).step (reporting w) (.registerTransaction 0 0)
      ((reporting w).after w₁) := ⟨by simp, w₁, ⟨100, false, h₁⟩, rfl⟩
  have hstep₂ : (reportSystem sampleEnv).step ((reporting w).after w₁) (.registerTransaction 0 1)
      (((reporting w).after w₁).after w₂) := ⟨by simp, w₂, ⟨100, true, h₂⟩, rfl⟩
  have hstep₃ : (reportSystem sampleEnv).step (((reporting w).after w₁).after w₂)
      (.updateTransactions 0 [5] 100 0) ((((reporting w).after w₁).after w₂).after w₃) :=
    ⟨by simp, w₃, h₃, rfl⟩
  have horderly := h sampleEnv _
    (.step (.step (.step (.init hinit) trivial hstep₁) trivial hstep₂) trivial hstep₃)
  rw [hreports] at horderly
  obtain ⟨R, hR⟩ := Report.orderly_iff.1 horderly
  cases hR

/-- A registered payment is confirmed. -/
theorem run_orderly_receipt : ∃ s : Reporting, (reportSystem sampleEnv).Run reportGuard s ∧
    s.reports = [.added 1, .updated [1]] ∧ Orderly s.given s.reports := by
  have hrun : ∃ w, new sampleEnv 100 0 ⟨[some receipt]⟩ [] = some (some w) ∧
      ∃ w₁, (reporting w).wallet.registerTransaction sampleEnv 100 0 0 = some (w₁, true) ∧
        w₁.transactions = [0] ∧ w₁.allTx.lookup 1 = some 0 ∧
        ∃ w₂, w₁.updateTransactions 0 [1] 100 0 = some w₂ ∧
          (((reporting w).after w₁).after w₂).reports = [.added 1, .updated [1]] :=
    ⟨_, rfl, _, rfl, by decide, by decide, _, rfl, by decide⟩
  obtain ⟨w, hw, w₁, h₁, hlist, hknown, w₂, h₂, hreports⟩ := hrun
  have hinit : (reportSystem sampleEnv).init (reporting w) :=
    ⟨100, 0, _, [], w, allCallbacks, hw, rfl, rfl⟩
  have hstep₁ : (reportSystem sampleEnv).step (reporting w) (.registerTransaction 0 0)
      ((reporting w).after w₁) := ⟨by simp, w₁, ⟨100, true, h₁⟩, rfl⟩
  have hstep₂ : (reportSystem sampleEnv).step ((reporting w).after w₁)
      (.updateTransactions 0 [1] 100 0) (((reporting w).after w₁).after w₂) :=
    ⟨by simp, w₂, h₂, rfl⟩
  have hguard : reportGuard ((reporting w).after w₁) (.updateTransactions 0 [1] 100 0) := by
    intro k hk p tx hp hnot
    obtain rfl := List.mem_singleton.1 hk
    obtain rfl := Option.some.inj (hknown.symm.trans hp)
    exact absurd (hlist ▸ List.mem_singleton_self 0) hnot
  have hall := System.Run.step (.step (.init hinit) trivial hstep₁) hguard hstep₂
  exact ⟨_, hall, hreports, run_orderly hall⟩

end BRWallet

end RavenWallet
