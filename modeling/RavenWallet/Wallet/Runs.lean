/-
  The wallet as a system, and what holds in all its runs.

  A run starts with `BRWalletNew`; the caller then allocates transactions and
  calls the operations in any order.  Without any condition on the calls:

  * `run_listed`: what `allTx` holds is not freed, a listed transaction that is
    not freed is in `allTx`, and no pointer is listed twice;
  * `run_allAddrs`: `allAddrs` are the addresses of the chains.
-/
import RavenWallet.Wallet.Spec

namespace RavenWallet

/-- The caller's part of a run, and the operations with the clock and their arguments. -/
inductive WalletOp where
  | alloc (tx : BRTransaction)
  | setCallbacks (callbacks : Callbacks)
  | registerTransaction (now : ℤ) (p : Ptr)
  | removeTransaction (now : ℤ) (txHash : UInt256)
  | updateTransactions (now : ℤ) (txHashes : List UInt256) (blockHeight timestamp : UInt32)
  | setTxUnconfirmedAfter (now : ℤ) (blockHeight : UInt32)

namespace BRWallet

def step (env : Env) (w : BRWallet) (op : WalletOp) (w' : BRWallet) : Prop :=
  match op with
  | .alloc tx => w' = { w with heap := w.heap.alloc tx }
  | .setCallbacks callbacks => w' = { w with callbacks }
  | .registerTransaction now p =>
    ∃ fuel r, w.registerTransaction env fuel now p = some (w', r)
  | .removeTransaction now h => ∃ fuel, removeTransaction now fuel w h = some w'
  | .updateTransactions now hs b t => w.updateTransactions now hs b t = some w'
  | .setTxUnconfirmedAfter now b => w.setTxUnconfirmedAfter now b = some w'

/-- The wallets that `BRWalletNew` returns, and the steps they take. -/
def system (env : Env) : System BRWallet WalletOp where
  init w := ∃ fuel now heap transactions, new env fuel now heap transactions = some (some w)
  step := step env

/-! ## A small setting -/

/-- Addresses that name their chain and index. -/
def sampleEnv : Env where
  address internal i := some [if internal then 1 else 0, UInt8.ofNat i.toNat]
  moved _ _ := false

/-- A payment to the first receive address. -/
def receipt : BRTransaction := { txHash := 1, outputs := [{ address := [0, 0], amount := 100 }] }

/-- A payment to the second receive address. -/
def secondReceipt : BRTransaction :=
  { txHash := 3, outputs := [{ address := [0, 1], amount := 70 }] }

/-- A payment between others. -/
def foreign : BRTransaction := { txHash := 2, outputs := [{ address := [9], amount := 5 }] }

/-! ## What each change keeps -/

/-- What each change keeps that an operation makes: operations add a transaction to the list or
    only note it, take one out, write heights, and extend the chains. -/
structure Kept (env : Env) (P : BRWallet → Prop) : Prop where
  alloc {w : BRWallet} (hw : P w) (tx : BRTransaction) : P { w with heap := w.heap.alloc tx }
  enlist {w : BRWallet} {p : Ptr} {tx : BRTransaction} {ts : List Ptr} (hw : P w)
    (hp : w.heap.load p = some tx) (hn : w.allTx.lookup tx.txHash = none)
    (hts : ts.Perm (p :: w.transactions)) : P (w.enlist p tx ts)
  park {w : BRWallet} {p : Ptr} {tx : BRTransaction} (hw : P w) (hp : w.heap.load p = some tx)
    (hn : w.allTx.lookup tx.txHash = none) : P { w with allTx := w.allTx.insert tx.txHash p }
  forget {w : BRWallet} {p : Ptr} {tx : BRTransaction} {h : UInt256} {ts : List Ptr} (hw : P w)
    (hk : w.allTx.lookup h = some p) (hp : w.heap.load p = some tx)
    (hts : ts.Sublist w.transactions) : P { w.delist tx ts with heap := w.heap.free p }
  store {w : BRWallet} {p : Ptr} {tx : BRTransaction} (hw : P w) (hp : w.heap.load p = some tx)
    (b t : UInt32) : P { w with heap := w.heap.store p (tx.setBlock b t) }
  same {w w' : BRWallet} {used used' : Finset BRAddress} {gap gap' : ℕ} (hw : P w)
    (hheap : w'.heap = w.heap) (hall : w'.allTx = w.allTx) (hts : w'.transactions = w.transactions)
    (hi : Grows env true used gap w.internalChain w'.internalChain)
    (he : Grows env false used' gap' w.externalChain w'.externalChain)
    (ha : w.AllAddrs → w'.AllAddrs) : P w'

namespace Kept

variable {env : Env} {P : BRWallet → Prop} {w w' : BRWallet} {p : Ptr} {tx : BRTransaction}
  {h : UInt256} {op : WalletOp} {now : ℤ} {fuel : ℕ}

/-- Ledgers, heights and callbacks do not matter. -/
theorem settle (hP : Kept env P) (hw : P w) (hheap : w'.heap = w.heap) (hall : w'.allTx = w.allTx)
    (hts : w'.transactions = w.transactions) (hi : w'.internalChain = w.internalChain)
    (he : w'.externalChain = w.externalChain) (ha : w'.allAddrs = w.allAddrs) : P w' := by
  refine @hP.same w w' ∅ ∅ 0 0 hw hheap hall hts (hi ▸ .refl) (he ▸ .refl) ?_
  rw [AllAddrs, AllAddrs, ha, hi, he]
  exact id

theorem removeTx (hP : Kept env P) (hw : P w) (hk : w.allTx.lookup h = some p)
    (hp : w.heap.load p = some tx) (hr : w.removeTx now fuel p tx h = some w') : P w' := by
  obtain ⟨ts, txs, L, cs, he, -, -, rfl⟩ := removeTx_some hr
  exact hP.settle (hP.forget hw hk hp he.sublist) rfl rfl rfl rfl rfl rfl

theorem updateTx (hP : Kept env P) {b t : UInt32} {s s' : Updating} (hs : P s.wallet)
    (hu : Updates b t s h s') : P s'.wallet := by
  cases hu with
  | unknown => exact hs
  | same => exact hs
  | listed _ hp => exact hP.store hs hp b t
  | @freed p tx hk hp =>
    have hload : (s.wallet.heap.store p (tx.setBlock b t)).load p = some (tx.setBlock b t) :=
      Heap.load_store_self _ hp
    have hforget := hP.forget (hP.store hs hp b t) hk hload (.refl _)
    exact hforget
  | parked _ hp => exact hP.store hs hp b t

theorem unconfirm (hP : Kept env P) {ps : List Ptr} {heap : Heap BRTransaction} {hs : List UInt256}
    (hw : P w) (hu : unconfirm w.heap ps = some (heap, hs)) : P { w with heap } := by
  induction ps generalizing w hs with
  | nil =>
    obtain ⟨rfl, -⟩ := Prod.mk.inj (Option.some.inj hu)
    exact hw
  | cons p ps ih =>
    simp only [BRWallet.unconfirm, Option.bind_eq_bind, Option.bind_eq_some_iff, Prod.exists,
      Option.some.injEq, Prod.mk.injEq] at hu
    obtain ⟨tx, hp, heap₁, hs₁, hu, rfl, -⟩ := hu
    have hrest := ih (hP.store hw hp _ _) hu
    exact hrest

theorem step (hP : Kept env P) (hw : P w) (h : step env w op w') : P w' := by
  cases op with
  | alloc tx =>
    obtain rfl := h
    exact hP.alloc hw tx
  | setCallbacks callbacks =>
    obtain rfl := h
    exact hP.settle hw rfl rfl rfl rfl rfl rfl
  | registerTransaction now p =>
    obtain ⟨fuel, r, h⟩ := h
    obtain ⟨tx, hp, h⟩ := registerTransaction_cases h
    cases h with
    | added _ hn _ hadd =>
      have hall := hadd.allAddrs
      obtain ⟨ts, txs, L, ic, ec, aa, cs, hts, -, -, hi, he, rfl⟩ := hadd.fields
      exact hP.same (hP.enlist hw hp hn hts.perm) rfl rfl rfl hi he hall
    | parked _ hn => exact hP.park hw hp hn
    | _ => exact hw
  | removeTransaction now h' =>
    obtain ⟨fuel, h⟩ := h
    exact removeTransaction_invariant (fun hw hk hp hr => hP.removeTx hw hk hp hr) hw h
  | updateTransactions now hs b t =>
    obtain ⟨s, cs, hs, h⟩ := updateTransactions_some h
    have hraised : P (w.raised b) := hP.settle hw rfl rfl rfl rfl rfl rfl
    have hloop : P s.wallet :=
      updateLoop_invariant (P := fun s => P s.wallet) (fun _ hs hu => hP.updateTx hs hu) hraised hs
    rcases h with ⟨-, rfl⟩ | ⟨-, txs, L, -, -, rfl⟩
    · exact hP.settle hloop rfl rfl rfl rfl rfl rfl
    · exact hP.settle hloop rfl rfl rfl rfl rfl rfl
  | setTxUnconfirmedAfter now b =>
    obtain ⟨ps, heap, hs, -, hu, ⟨-, rfl⟩ | ⟨-, txs, L, cs, -, -, rfl⟩⟩ :=
      setTxUnconfirmedAfter_some h
    · exact hP.settle (hP.unconfirm hw hu) rfl rfl rfl rfl rfl rfl
    · exact hP.settle (hP.unconfirm hw hu) rfl rfl rfl rfl rfl rfl

theorem addTx (hP : Kept env P) (hw : P w) (h : w.addTx fuel p = some w') : P w' := by
  rcases addTx_cases h with rfl | ⟨tx, ts, hp, -, hn, hts, rfl⟩
  · exact hw
  · exact hP.settle (hP.enlist hw hp hn hts.perm) rfl rfl rfl rfl rfl rfl

theorem init (hP : Kept env P) (hempty : ∀ heap, P { heap := heap }) (h : (system env).init w) :
    P w := by
  obtain ⟨fuel, now, heap, transactions, h⟩ := h
  obtain ⟨w₁, w₂, w₃, as, as', txs, L, h₁, h₂, h₃, -, -, rfl⟩ := new_cases h
  obtain ⟨ic, ec, aa, hi, he, rfl, ha⟩ := unusedAddrs_both h₂ h₃
  have hw₁ : P w₁ := foldlM_invariant (fun _ hw h => hP.addTx hw h) (hempty heap) h₁
  exact hP.same hw₁ rfl rfl rfl hi he ha

theorem run {G : BRWallet → WalletOp → Prop} (hP : Kept env P) (hempty : ∀ heap, P { heap := heap })
    (h : (system env).Run G w) : P w :=
  h.invariant (J := fun _ => True) (fun _ => trivial) (hP.init hempty) fun _ hw _ hs _ =>
    hP.step hw hs

end Kept

end BRWallet

/-! ## Listed and known transactions -/

/-- What `allTx` knows has its hash, and what is listed is known, unless it was freed. -/
structure Filing (heap : Heap BRTransaction) (allTx : AList fun _ : UInt256 => Ptr)
    (ts : List Ptr) : Prop where
  known : ∀ {h p}, allTx.lookup h = some p →
    p < heap.fresh ∧ ∀ tx, heap.load p = some tx → tx.txHash = h
  listed : ∀ {p tx}, p ∈ ts → heap.load p = some tx → allTx.lookup tx.txHash = some p
  nodup : ts.Nodup
  old : ∀ {p}, p ∈ ts → p < heap.fresh

namespace Filing

variable {heap heap' : Heap BRTransaction} {allTx : AList fun _ : UInt256 => Ptr}
  {ts ts' : List Ptr} {p q : Ptr} {tx t : BRTransaction} {h : UInt256}

theorem hash (hf : Filing heap allTx ts) (hk : allTx.lookup h = some p)
    (hp : heap.load p = some tx) : tx.txHash = h := (hf.known hk).2 tx hp

/-- Anything may be allocated, freed or written, as long as no hash changes. -/
theorem retains (hf : Filing heap allTx ts) (hr : Heap.Retains BRTransaction.txHash heap heap') :
    Filing heap' allTx ts where
  known hk := by
    obtain ⟨hlt, hhash⟩ := hf.known hk
    refine ⟨hlt.trans_le hr.fresh, fun t ht => ?_⟩
    obtain ⟨tx, htx, heq⟩ := hr.load hlt ht
    exact heq.symm.trans (hhash tx htx)
  listed hp ht := by
    obtain ⟨tx, htx, heq⟩ := hr.load (hf.old hp) ht
    rw [← heq]
    exact hf.listed hp htx
  nodup := hf.nodup
  old hp := (hf.old hp).trans_le hr.fresh

theorem insert (hf : Filing heap allTx ts) (hp : heap.load p = some tx)
    (hn : allTx.lookup tx.txHash = none) : Filing heap (allTx.insert tx.txHash p) ts where
  known {k q} hk := by
    by_cases heq : k = tx.txHash
    · rw [heq, AList.lookup_insert, Option.some.injEq] at hk
      subst hk
      refine ⟨Heap.load_lt hp, fun t ht => ?_⟩
      obtain rfl := Option.some.inj (hp.symm.trans ht)
      exact heq.symm
    · rw [AList.lookup_insert_ne heq] at hk
      exact hf.known hk
  listed {q t} hq ht := by
    have hk := hf.listed hq ht
    rw [AList.lookup_insert_ne]
    · exact hk
    · intro heq
      rw [heq, hn] at hk
      cases hk
  nodup := hf.nodup
  old := hf.old

theorem enlist (hf : Filing heap allTx ts) (hp : heap.load p = some tx)
    (hn : allTx.lookup tx.txHash = none) (hts : ts'.Perm (p :: ts)) :
    Filing heap (allTx.insert tx.txHash p) ts' where
  known := (hf.insert hp hn).known
  listed {q t} hq ht := by
    rcases List.mem_cons.1 (hts.mem_iff.1 hq) with rfl | hq
    · obtain rfl := Option.some.inj (hp.symm.trans ht)
      exact AList.lookup_insert _
    · exact (hf.insert hp hn).listed hq ht
  nodup := by
    refine hts.nodup_iff.2 (List.nodup_cons.2 ⟨fun hm => ?_, hf.nodup⟩)
    have hk := hf.listed hm hp
    rw [hn] at hk
    cases hk
  old {q} hq := by
    rcases List.mem_cons.1 (hts.mem_iff.1 hq) with rfl | hq
    · exact Heap.load_lt hp
    · exact hf.old hq

/-- A freed transaction is no longer known, and some are no longer listed. -/
theorem forget (hf : Filing heap allTx ts) (hk : allTx.lookup h = some p)
    (hr : Heap.Retains BRTransaction.txHash heap heap') (hp : heap'.load p = none)
    (hts : ts'.Sublist ts) : Filing heap' (allTx.erase h) ts' where
  known {k q} hq := by
    by_cases heq : k = h
    · rw [heq, AList.lookup_erase] at hq
      cases hq
    · rw [AList.lookup_erase_ne heq] at hq
      exact (hf.retains hr).known hq
  listed {q t} hq ht := by
    have hqk := (hf.retains hr).listed (hts.subset hq) ht
    rw [AList.lookup_erase_ne]
    · exact hqk
    · intro heq
      rw [heq, hk, Option.some.injEq] at hqk
      rw [← hqk, hp] at ht
      cases ht
  nodup := hf.nodup.sublist hts
  old hq := (hf.retains hr).old (hts.subset hq)

end Filing

/-- What `allTx` knows is on the heap, and what is listed and on the heap is known. -/
structure Listing (heap : Heap BRTransaction) (allTx : AList fun _ : UInt256 => Ptr)
    (ts : List Ptr) : Prop where
  known : ∀ {h p}, allTx.lookup h = some p → ∃ tx, heap.load p = some tx ∧ tx.txHash = h
  listed : ∀ {p tx}, p ∈ ts → heap.load p = some tx → allTx.lookup tx.txHash = some p
  nodup : ts.Nodup
  old : ∀ {p}, p ∈ ts → p < heap.fresh

namespace Listing

variable {heap heap' : Heap BRTransaction} {allTx : AList fun _ : UInt256 => Ptr}
  {ts ts' : List Ptr} {p q : Ptr} {tx : BRTransaction} {k : UInt256}

theorem empty (heap : Heap BRTransaction) : Listing heap ∅ [] where
  known h := by simp at h
  listed h := by simp at h
  nodup := List.nodup_nil
  old h := by simp at h

theorem filing (h : Listing heap allTx ts) : Filing heap allTx ts where
  known hk := by
    obtain ⟨tx, htx, hhash⟩ := h.known hk
    refine ⟨Heap.load_lt htx, fun t ht => ?_⟩
    obtain rfl := Option.some.inj (htx.symm.trans ht)
    exact hhash
  listed := h.listed
  nodup := h.nodup
  old := h.old

theorem live (h : Listing heap allTx ts) (hk : allTx.lookup k = some p) : heap.Live p := by
  obtain ⟨tx, htx, -⟩ := h.known hk
  exact ⟨tx, htx⟩

theorem of_filing (h : Filing heap allTx ts)
    (hlive : ∀ {k p}, allTx.lookup k = some p → heap.Live p) : Listing heap allTx ts where
  known hk := by
    obtain ⟨tx, htx⟩ := hlive hk
    exact ⟨tx, htx, h.hash hk htx⟩
  listed := h.listed
  nodup := h.nodup
  old := h.old

theorem alloc (h : Listing heap allTx ts) (tx : BRTransaction) :
    Listing (heap.alloc tx) allTx ts :=
  of_filing (h.filing.retains (.alloc _ _ tx)) fun hk => (h.live hk).alloc tx

/-- A live transaction that is not known is not listed. -/
theorem not_mem (h : Listing heap allTx ts) (hp : heap.load p = some tx)
    (hn : allTx.lookup tx.txHash = none) : p ∉ ts := by
  intro hm
  rw [h.listed hm hp] at hn
  cases hn

theorem insert (h : Listing heap allTx ts) (hp : heap.load p = some tx)
    (hn : allTx.lookup tx.txHash = none) : Listing heap (allTx.insert tx.txHash p) ts := by
  refine of_filing (h.filing.insert hp hn) fun {k q} hk => ?_
  by_cases heq : k = tx.txHash
  · rw [heq, AList.lookup_insert, Option.some.injEq] at hk
    exact ⟨tx, hk ▸ hp⟩
  · rw [AList.lookup_insert_ne heq] at hk
    exact h.live hk

theorem enlist (h : Listing heap allTx ts) (hp : heap.load p = some tx)
    (hn : allTx.lookup tx.txHash = none) (hts : ts'.Perm (p :: ts)) :
    Listing heap (allTx.insert tx.txHash p) ts' :=
  of_filing (h.filing.enlist hp hn hts) (h.insert hp hn).live

theorem store (h : Listing heap allTx ts) (hp : heap.load p = some tx) (b t : UInt32) :
    Listing (heap.store p (tx.setBlock b t)) allTx ts :=
  of_filing (h.filing.retains (.store hp rfl)) fun hk => (h.live hk).store _ hp

theorem free (h : Listing heap allTx ts) (hl : allTx.lookup tx.txHash = some p)
    (hts : ts'.Sublist ts) : Listing (heap.free p) (allTx.erase tx.txHash) ts' := by
  refine of_filing (h.filing.forget hl (.free _ _ _) (Heap.load_free_self _ _) hts)
    fun {k q} hk => ?_
  by_cases heq : k = tx.txHash
  · rw [heq, AList.lookup_erase] at hk
    cases hk
  · rw [AList.lookup_erase_ne heq] at hk
    obtain ⟨t, ht, hhash⟩ := h.known hk
    refine ⟨t, ?_⟩
    rw [Heap.load_free_ne _ ?_, ht]
    rintro rfl
    exact heq (hhash.symm.trans (h.filing.hash hl ht))

/-- A transaction that is no longer listed may be forgotten. -/
theorem delist (h : Listing heap allTx ts) (hl : allTx.lookup tx.txHash = some p)
    (hts : ts'.Sublist ts) (hp : p ∉ ts') : Listing heap (allTx.erase tx.txHash) ts' where
  known {k q} hk := by
    by_cases he : k = tx.txHash
    · rw [he, AList.lookup_erase] at hk; cases hk
    · rw [AList.lookup_erase_ne he] at hk
      exact h.known hk
  listed {q t} hq ht := by
    have hqt := h.listed (hts.subset hq) ht
    rw [AList.lookup_erase_ne]
    · exact hqt
    · intro he
      rw [he, hl, Option.some.injEq] at hqt
      exact hp (hqt ▸ hq)
  nodup := h.nodup.sublist hts
  old hq := h.old (hts.subset hq)

end Listing

namespace BRWallet

variable {env : Env} {w w' : BRWallet} {p : Ptr} {tx : BRTransaction} {op : WalletOp}

abbrev Listed (w : BRWallet) : Prop := Listing w.heap w.allTx w.transactions

/-- The registered transactions have distinct hashes. -/
theorem Listed.nodup_hashes {txs : List BRTransaction} (hl : w.Listed)
    (hr : w.registered = some txs) : (txs.map BRTransaction.txHash).Nodup := by
  have hmap : txs.map BRTransaction.txHash =
      w.transactions.map fun p => (w.heap.load p).elim 0 BRTransaction.txHash :=
    Heap.loadAll_map (fun hp => by rw [hp]; rfl) hr
  rw [hmap]
  refine List.Nodup.map_on (fun p hp q hq hpq => ?_) hl.nodup
  obtain ⟨x, -, hx⟩ := Heap.loadAll_mem hr hp
  obtain ⟨y, -, hy⟩ := Heap.loadAll_mem hr hq
  have hpx := hl.listed hp hx
  rw [hx, hy] at hpq
  rw [show x.txHash = y.txHash from hpq, hl.listed hq hy, Option.some.injEq] at hpx
  exact hpx.symm

theorem kept_listed (env : Env) : Kept env Listed where
  alloc hw tx := Listing.alloc hw tx
  enlist hw hp hn hts := Listing.enlist hw hp hn hts
  park hw hp hn := Listing.insert hw hp hn
  forget hw hk hp hts := by
    obtain ⟨t, ht, rfl⟩ := hw.known hk
    obtain rfl := Option.some.inj (ht.symm.trans hp)
    exact hw.free hk hts
  store hw hp b t := Listing.store hw hp b t
  same hw hheap hall hts _ _ _ := by
    rw [Listed, hheap, hall, hts]
    exact hw

theorem Listed.removeTx {now : ℤ} {fuel : ℕ} {h : UInt256} (hw : w.Listed)
    (hl : w.allTx.lookup h = some p) (hp : w.heap.load p = some tx)
    (h : w.removeTx now fuel p tx h = some w') : w'.Listed :=
  (kept_listed sampleEnv).removeTx hw hl hp h

theorem Listed.updateTx {b t : UInt32} {s s' : Updating} {h : UInt256} (hs : s.wallet.Listed)
    (hu : Updates b t s h s') : s'.wallet.Listed :=
  (kept_listed sampleEnv).updateTx hs hu

theorem Listed.unconfirm {ps : List Ptr} {heap : Heap BRTransaction} {hs : List UInt256}
    (hw : w.Listed) (h : unconfirm w.heap ps = some (heap, hs)) :
    Listing heap w.allTx w.transactions :=
  (kept_listed sampleEnv).unconfirm hw h

theorem step_listed (hw : w.Listed) (h : step env w op w') : w'.Listed :=
  (kept_listed env).step hw h

theorem addTx_listed {fuel : ℕ} (hw : w.Listed) (h : w.addTx fuel p = some w') : w'.Listed :=
  (kept_listed sampleEnv).addTx hw h

theorem init_listed (h : (system env).init w) : w.Listed :=
  (kept_listed env).init Listing.empty h

/-- In every run the known transactions are not freed, and the listed ones are known. -/
theorem run_listed {G : BRWallet → WalletOp → Prop} (h : (system env).Run G w) : w.Listed :=
  (kept_listed env).run Listing.empty h

/-! ## Addresses -/

/-- What depends on the chains only is kept if it is where they grow. -/
theorem kept_chains {P : BRWallet → Prop}
    (hP : ∀ {w w' : BRWallet} {used used' : Finset BRAddress} {gap gap' : ℕ}, P w →
      Grows env true used gap w.internalChain w'.internalChain →
      Grows env false used' gap' w.externalChain w'.externalChain →
      (w.AllAddrs → w'.AllAddrs) → P w') : Kept env P := by
  have hsame : ∀ {w w' : BRWallet}, P w → w'.internalChain = w.internalChain →
      w'.externalChain = w.externalChain → w'.allAddrs = w.allAddrs → P w' := by
    intro w w' hw hi he ha
    refine @hP w w' ∅ ∅ 0 0 hw (hi ▸ .refl) (he ▸ .refl) ?_
    rw [AllAddrs, AllAddrs, ha, hi, he]
    exact id
  exact {
    alloc := fun hw _ => hsame hw rfl rfl rfl
    enlist := fun hw _ _ _ => hsame hw rfl rfl rfl
    park := fun hw _ _ => hsame hw rfl rfl rfl
    forget := fun hw _ _ _ => hsame hw rfl rfl rfl
    store := fun hw _ _ _ => hsame hw rfl rfl rfl
    same := fun hw _ _ _ hi he ha => hP hw hi he ha }

theorem kept_allAddrs (env : Env) : Kept env AllAddrs := kept_chains fun hw _ _ ha => ha hw

theorem step_allAddrs (hw : w.AllAddrs) (h : step env w op w') : w'.AllAddrs :=
  (kept_allAddrs env).step hw h

theorem init_allAddrs (h : (system env).init w) : w.AllAddrs :=
  (kept_allAddrs env).init (fun _ => rfl) h

/-- In every run `allAddrs` holds exactly the addresses of the chains. -/
theorem run_allAddrs {G : BRWallet → WalletOp → Prop} (h : (system env).Run G w) : w.AllAddrs :=
  (kept_allAddrs env).run (fun _ => rfl) h

/-! ## Hashes -/

/-- No step gives a transaction another hash. -/
theorem step_retains (h : step env w op w') :
    Heap.Retains BRTransaction.txHash w.heap w'.heap := by
  have hkept : Kept env fun v => Heap.Retains BRTransaction.txHash w.heap v.heap := {
    alloc := fun hv tx => hv.trans (.alloc _ _ tx)
    enlist := fun hv _ _ _ => hv
    park := fun hv _ _ => hv
    forget := fun hv _ _ _ => hv.trans (.free _ _ _)
    store := fun hv hp _ _ => hv.trans (.store hp rfl)
    same := fun hv hheap _ _ _ _ _ => hheap ▸ hv }
  exact hkept.step (.refl _ _) h

end BRWallet

end RavenWallet
