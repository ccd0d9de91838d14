/-
  The wallet's files when transactions are freed by others.

  A transaction of the wallet may be freed elsewhere while the wallet still refers
  to it.  What is left is filed as it should be: a known transaction that is not
  freed has its hash, and a listed one that is not freed is known.

  * `step_filed`: the operations keep it.
-/
import RavenWallet.Wallet.Runs

namespace RavenWallet

namespace BRWallet

variable {env : Env} {w w' : BRWallet} {p q : Ptr} {tx t : BRTransaction} {op : WalletOp}
  {now : ℤ} {fuel : ℕ} {h : UInt256} {hs : List UInt256} {b time : UInt32}

abbrev Filed (w : BRWallet) : Prop := Filing w.heap w.allTx w.transactions

theorem Listed.filed (hw : w.Listed) : w.Filed := hw.filing

/-- The known transaction is the one that is taken off the list. -/
theorem Filed.not_mem_erased {ts : List Ptr} (hw : w.Filed) (hk : w.allTx.lookup tx.txHash = some p)
    (hp : w.heap.load p = some t) (h : w.Erased tx ts) : p ∉ ts := by
  have hhash : t.txHash = tx.txHash := hw.hash hk hp
  have hnodup : w.transactions.reverse.Nodup := List.nodup_reverse.2 hw.nodup
  rw [← List.mem_reverse]
  rcases eraseBack_split h with ⟨a, y, b, hts, hr, hy⟩ | ⟨hr, hn⟩
  · rw [Option.map_eq_some_iff] at hy
    obtain ⟨t', ht', hy⟩ := hy
    have hyl : y ∈ w.transactions := by
      rw [← List.mem_reverse, hts]
      simp
    have hky := hw.listed hyl ht'
    rw [of_decide_eq_true hy, hk, Option.some.injEq] at hky
    subst hky
    rw [hts, List.nodup_append] at hnodup
    rw [hr, List.mem_append]
    rintro (hp | hp)
    · exact hnodup.2.2 p hp p (by simp) rfl
    · exact (List.nodup_cons.1 hnodup.2.1).1 hp
  · rw [hr]
    intro hmem
    have hpn := hn p hmem
    rw [hp, Option.map_some, Option.some.injEq] at hpn
    exact of_decide_eq_false hpn hhash

theorem kept_filed (env : Env) : Kept env Filed where
  alloc hw tx := Filing.retains hw (.alloc _ _ tx)
  enlist hw hp hn hts := Filing.enlist hw hp hn hts
  park hw hp hn := Filing.insert hw hp hn
  forget hw hk hp hts := by
    obtain rfl := hw.hash hk hp
    exact hw.forget hk (.free _ _ _) (Heap.load_free_self _ _) hts
  store hw hp _ _ := Filing.retains hw (.store hp rfl)
  same hw hheap hall hts _ _ _ := by
    rw [Filed, hheap, hall, hts]
    exact hw

theorem Filed.removeTx (hw : w.Filed) (hk : w.allTx.lookup h = some p)
    (hp : w.heap.load p = some tx) (hr : w.removeTx now fuel p tx h = some w') : w'.Filed :=
  (kept_filed sampleEnv).removeTx hw hk hp hr

theorem removeTransaction_filed (hw : w.Filed)
    (hr : removeTransaction now fuel w h = some w') : w'.Filed :=
  removeTransaction_invariant (P := Filed) (fun hw hk hp hr => hw.removeTx hk hp hr) hw hr

theorem step_filed (hw : w.Filed) (hstep : step env w op w') : w'.Filed :=
  (kept_filed env).step hw hstep

/-! ## What is freed -/

theorem registerTransaction_heap {r : Bool}
    (hr : w.registerTransaction env fuel now p = some (w', r)) : w'.heap = w.heap := by
  obtain ⟨tx, -, hr⟩ := registerTransaction_cases hr
  cases hr with
  | added _ _ _ ha =>
    obtain ⟨ts, txs, L, ic, ec, aa, cs, -, -, -, -, -, rfl⟩ := ha.fields
    rfl
  | _ => rfl

theorem setTxUnconfirmedAfter_live (hr : w.setTxUnconfirmedAfter now b = some w')
    (hq : w.heap.Live q) : w'.heap.Live q := by
  obtain ⟨ps, heap, hs, -, hu, hcases⟩ := setTxUnconfirmedAfter_some hr
  have hlive : heap.Live q := unconfirm_live hu hq
  rcases hcases with ⟨-, rfl⟩ | ⟨-, txs, L, cs, -, -, rfl⟩
  · exact hlive
  · exact hlive

/-- An update without a confirmation changes heights and timestamps only. -/
theorem updateTransactions_unconfirmed
    (hr : w.updateTransactions now hs TX_UNCONFIRMED time = some w') :
    w'.transactions = w.transactions ∧ w'.allTx = w.allTx ∧
      ∀ q t', w'.heap.load q = some t' → ∃ t, w.heap.load q = some t ∧
        (t' = t ∨ t' = t.setBlock TX_UNCONFIRMED time ∧ ∃ h ∈ hs, w.allTx.lookup h = some q) := by
  obtain ⟨s, cs, hloop, hcases⟩ := updateTransactions_some hr
  have hsame : s.wallet.transactions = w.transactions ∧ s.wallet.allTx = w.allTx ∧
      ∀ q t', s.wallet.heap.load q = some t' → ∃ t, w.heap.load q = some t ∧
        (t' = t ∨ t' = t.setBlock TX_UNCONFIRMED time ∧ ∃ h ∈ hs, w.allTx.lookup h = some q) := by
    refine updateLoop_invariant (P := fun s => s.wallet.transactions = w.transactions ∧
      s.wallet.allTx = w.allTx ∧ ∀ q t', s.wallet.heap.load q = some t' → ∃ t,
        w.heap.load q = some t ∧ (t' = t ∨ t' = t.setBlock TX_UNCONFIRMED time ∧
          ∃ h ∈ hs, w.allTx.lookup h = some q)) ?_ ⟨rfl, rfl, fun q t' ht' => ⟨t', ht', Or.inl rfl⟩⟩
      hloop
    rintro s h s' hmem ⟨hts, hall, hload⟩ hu
    have hstore : ∀ {p u}, s.wallet.allTx.lookup h = some p → s.wallet.heap.load p = some u →
        ∀ q t', (s.wallet.heap.store p (u.setBlock TX_UNCONFIRMED time)).load q = some t' → ∃ t,
          w.heap.load q = some t ∧ (t' = t ∨ t' = t.setBlock TX_UNCONFIRMED time ∧
            ∃ h ∈ hs, w.allTx.lookup h = some q) := by
      intro p u hk hp q t' ht'
      by_cases hpq : p = q
      · subst hpq
        rw [Heap.load_store_self _ hp, Option.some.injEq] at ht'
        obtain ⟨t, ht, hcases⟩ := hload p u hp
        refine ⟨t, ht, Or.inr ⟨?_, h, hmem, hall ▸ hk⟩⟩
        rcases hcases with rfl | ⟨rfl, -⟩
        · exact ht'.symm
        · exact ht'.symm
      · rw [Heap.load_store_ne _ _ hpq] at ht'
        exact hload q t' ht'
    cases hu with
    | unknown => exact ⟨hts, hall, hload⟩
    | same => exact ⟨hts, hall, hload⟩
    | listed hk hp => exact ⟨hts, hall, hstore hk hp⟩
    | freed _ _ _ _ hb => exact absurd rfl hb
    | parked hk hp => exact ⟨hts, hall, hstore hk hp⟩
  rcases hcases with ⟨-, rfl⟩ | ⟨-, txs, L, -, -, rfl⟩
  · exact hsame
  · exact hsame

/-- What is asked for is listed, and of the given height at least. -/
theorem txUnconfirmedBefore_mem {n : ℕ} {ps : List Ptr} (hps : w.txUnconfirmedBefore n b = some ps)
    (hp : p ∈ ps) : p ∈ w.transactions ∧ ∃ tx, w.heap.load p = some tx ∧ b ≤ tx.blockHeight := by
  simp only [txUnconfirmedBefore, Option.bind_eq_bind, Option.bind_eq_some_iff,
    Option.some.injEq] at hps
  obtain ⟨qs, hqs, rfl⟩ := hps
  have hscan := suffix_some hqs
  have hp := List.mem_reverse.2 (List.mem_of_mem_take hp)
  refine ⟨List.mem_reverse.1 ((scanBack_start hscan).subset hp), ?_⟩
  obtain ⟨tx, htx, htest⟩ := Option.map_eq_some_iff.1 (scanBack_test hscan p hp)
  exact ⟨tx, htx, of_decide_eq_true htest⟩

end BRWallet

end RavenWallet
