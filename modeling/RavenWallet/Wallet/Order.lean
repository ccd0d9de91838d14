/-
  The order of the transactions, and what the scans of the list rely on it for.

  Only `insertTx` sorts; `BRWalletUpdateTransactions` and
  `BRWalletSetTxUnconfirmedAfter` write heights in place.  In every run in which
  they leave the order intact (`orderGuard`),

  * `run_sorted`: the listed transactions are sorted by height, with distinct hashes;
  * `run_scans`: a reorg and a query for unconfirmed transactions find all they look for.
-/
import RavenWallet.Wallet.Registry

namespace RavenWallet

namespace BRWallet

/-- The transactions are sorted by date, oldest first, and have distinct hashes. -/
def Sorted (w : BRWallet) : Prop :=
  ∃ txs, w.registered = some txs ∧ txs.Pairwise (fun x y => x.blockHeight ≤ y.blockHeight) ∧
    (txs.map BRTransaction.txHash).Nodup

/-- No untouched transaction before a touched one is above the new height, and none after one is
    below it. -/
def KeepsOrder (w : BRWallet) (hs : List UInt256) (b : UInt32) : Prop :=
  w.transactions.Pairwise fun p q => ∀ x y, w.heap.load p = some x → w.heap.load q = some y →
    (w.touches hs p = false → w.touches hs q = true → x.blockHeight ≤ b) ∧
      (w.touches hs p = true → w.touches hs q = false → b ≤ y.blockHeight)

/-- If a transaction is above `b`, those that are not are not above the height of an unconfirmed
    one either. -/
def KeepsLast (w : BRWallet) (b : UInt32) : Prop :=
  ∀ p ∈ w.transactions, ∀ q ∈ w.transactions, ∀ x y, w.heap.load p = some x →
    w.heap.load q = some y → b < x.blockHeight → y.blockHeight ≤ b → y.blockHeight ≤ TX_UNCONFIRMED

/-- The operations that write heights free no listed transaction and leave the order intact. -/
def orderGuard (w : BRWallet) : WalletOp → Prop
  | .updateTransactions _ hs b t => w.KeepsListed hs b t ∧ w.KeepsOrder hs b
  | .setTxUnconfirmedAfter _ b => w.KeepsLast b
  | _ => True

def heightAt (heap : Heap BRTransaction) (p : Ptr) : ℕ :=
  (heap.load p).elim 0 fun tx => tx.blockHeight.toNat

theorem heightAt_some {heap : Heap BRTransaction} {p : Ptr} {tx : BRTransaction}
    (h : heap.load p = some tx) : heightAt heap p = tx.blockHeight.toNat := by
  rw [heightAt, h]; rfl

/-- The invariant: the heights do not decrease along the list. -/
def Ordered (w : BRWallet) : Prop :=
  w.transactions.Pairwise fun p q => heightAt w.heap p ≤ heightAt w.heap q

variable {env : Env} {w w' : BRWallet} {p : Ptr} {tx : BRTransaction} {op : WalletOp} {now : ℤ}

theorem orderGuard_registryGuard (h : orderGuard w op) : registryGuard w op := by
  cases op with
  | updateTransactions now hs b t => exact h.1
  | _ => trivial

theorem Ordered.descending : w.Ordered ↔ Descending (heightAt w.heap) w.transactions.reverse :=
  List.pairwise_reverse.symm

theorem Ordered.sorted (h : w.Ordered) (hw : w.Registry) (hl : w.Listed) : w.Sorted := by
  obtain ⟨txs, hr⟩ := Heap.loadAll_isSome hw.live
  have hheights : txs.map (fun tx => tx.blockHeight.toNat) = w.transactions.map (heightAt w.heap) :=
    Heap.loadAll_map (fun hp => (heightAt_some hp).symm) hr
  have hp : (txs.map fun tx => tx.blockHeight.toNat).Pairwise (· ≤ ·) := by
    rw [hheights, List.pairwise_map]; exact h
  exact ⟨txs, hr, (List.pairwise_map.1 hp).imp fun hxy => UInt32.le_iff_toNat_le.2 hxy,
    hl.nodup_hashes hr⟩

/-! ## Insertion -/

theorem txIsAscending_gt {depth : ℕ} {x y : BRTransaction} {r : Bool}
    (h : y.blockHeight.toNat < x.blockHeight.toNat)
    (hr : w.txIsAscending depth (some x) (some y) = some r) : r = true := by
  cases depth with
  | zero => simp [txIsAscending] at hr
  | succ depth =>
    rw [txIsAscending, if_pos (UInt32.lt_iff_toNat_lt.2 h), Option.some.injEq] at hr
    exact hr.symm

theorem txIsAscending_lt {depth : ℕ} {x y : BRTransaction} {r : Bool}
    (h : x.blockHeight.toNat < y.blockHeight.toNat)
    (hr : w.txIsAscending depth (some x) (some y) = some r) : r = false := by
  have hn : ¬ x.blockHeight > y.blockHeight := by
    rw [gt_iff_lt, UInt32.lt_iff_toNat_lt]; omega
  cases depth with
  | zero => simp [txIsAscending] at hr
  | succ depth =>
    rw [txIsAscending, if_neg hn, if_pos (UInt32.lt_iff_toNat_lt.2 h), Option.some.injEq] at hr
    exact hr.symm

/-- The comparison of the insertion never contradicts the heights. -/
theorem isAfter_height {depth : ℕ} {q : Ptr} {r : Bool} (hr : w.isAfter depth tx q = some r) :
    (tx.blockHeight.toNat < heightAt w.heap q → r = true) ∧
      (heightAt w.heap q < tx.blockHeight.toNat → r = false) := by
  simp only [isAfter, Option.bind_eq_bind, Option.bind_eq_some_iff, Option.some.injEq] at hr
  obtain ⟨t, ht, c, hc, rfl⟩ := hr
  rw [heightAt_some ht]
  simp only [txCompare, Option.bind_eq_bind, Option.bind_eq_some_iff] at hc
  obtain ⟨a, ha, hc⟩ := hc
  constructor
  · intro h
    obtain rfl := txIsAscending_gt h ha
    obtain rfl : 1 = c := by simpa using hc
    rfl
  · intro h
    obtain rfl := txIsAscending_lt h ha
    simp only [Bool.false_eq_true, if_false, Option.bind_eq_some_iff] at hc
    obtain ⟨a, ha, hc⟩ := hc
    obtain rfl := txIsAscending_gt h ha
    obtain rfl : -1 = c := by simpa using hc
    rfl

theorem Ordered.enlist (h : w.Ordered) (hp : w.heap.load p = some tx) {ts : List Ptr}
    (hi : w.Inserted p tx ts) : (w.enlist p tx ts).Ordered := by
  obtain ⟨depth, hi⟩ := hi
  have hkey : heightAt w.heap p = tx.blockHeight.toNat := heightAt_some hp
  refine Ordered.descending.2 (insertBack_sorted (fun q _ hlt hf => ?_) (fun q _ hlt ht => ?_) hi
    (Ordered.descending.1 h))
  · exact absurd ((isAfter_height hf).1 (hkey ▸ hlt)) Bool.false_ne_true
  · exact absurd ((isAfter_height ht).2 (hkey ▸ hlt)).symm Bool.false_ne_true

/-! ## Scans -/

/-- The height of the transaction at `p` passes `test`. -/
def heightTest (w : BRWallet) (test : UInt32 → Bool) (p : Ptr) : Bool :=
  (w.heap.load p).any fun tx => test tx.blockHeight

theorem heightTest_load (hw : ∀ p ∈ w.transactions, w.heap.Live p) (test : UInt32 → Bool) :
    ∀ q ∈ w.transactions.reverse,
      (w.heap.load q).map (fun t => test t.blockHeight) = some (w.heightTest test q) := by
  intro q hq
  obtain ⟨tx, htx⟩ := hw q (List.mem_reverse.1 hq)
  simp [heightTest, htx]

/-- If no listed transaction was freed, then the scan finds those at the end that pass. -/
theorem suffix_rtakeWhile (hw : ∀ p ∈ w.transactions, w.heap.Live p) (test : UInt32 → Bool) :
    w.suffix test = some (w.transactions.rtakeWhile (w.heightTest test)) := by
  rw [suffix, scanBack_takeWhile (heightTest_load hw test)]
  rfl

/-- On an ordered list the scan from the end finds all transactions at or above a height. -/
theorem suffix_eq (ho : w.Ordered) (hw : w.Registry) {test : UInt32 → Bool}
    (ht : ∀ x y, x ≤ y → test x = true → test y = true) :
    w.suffix test = some (w.transactions.filter (w.heightTest test)) := by
  have hload := heightTest_load hw.live test
  have hmono : ∀ a ∈ w.transactions.reverse, ∀ b ∈ w.transactions.reverse,
      heightAt w.heap b ≤ heightAt w.heap a → w.heightTest test a = false →
        w.heightTest test b = false := by
    intro a ha b hb hab hta
    obtain ⟨x, hx⟩ := hw.live a (List.mem_reverse.1 ha)
    obtain ⟨y, hy⟩ := hw.live b (List.mem_reverse.1 hb)
    rw [heightAt_some hx, heightAt_some hy] at hab
    simp only [heightTest, hx, hy, Option.any_some] at hta ⊢
    by_contra htb
    rw [Bool.not_eq_false] at htb
    rw [ht _ _ (UInt32.le_iff_toNat_le.2 hab) htb] at hta
    cases hta
  have hf := scanBack_filter hmono hload (scanBack_takeWhile hload) (Ordered.descending.1 ho)
  rw [suffix_rtakeWhile hw.live, List.rtakeWhile, hf, List.filter_reverse, List.reverse_reverse]

theorem mem_suffix {test : UInt32 → Bool} (hp : w.heap.load p = some tx) :
    p ∈ w.transactions.filter (w.heightTest test) ↔
      p ∈ w.transactions ∧ test tx.blockHeight = true := by
  rw [List.mem_filter, heightTest, hp, Option.any_some]

theorem gt_mono (b x y : UInt32) (hxy : x ≤ y) (hx : decide (x > b) = true) :
    decide (y > b) = true := by
  rw [decide_eq_true_eq, gt_iff_lt, UInt32.lt_iff_toNat_lt] at hx ⊢
  exact hx.trans_le (UInt32.le_iff_toNat_le.1 hxy)

theorem ge_mono (b x y : UInt32) (hxy : x ≤ y) (hx : decide (x ≥ b) = true) :
    decide (y ≥ b) = true := by
  rw [decide_eq_true_eq, ge_iff_le, UInt32.le_iff_toNat_le] at hx ⊢
  exact hx.trans (UInt32.le_iff_toNat_le.1 hxy)

/-- What a reorg makes of the listed transactions. -/
theorem unconfirm_suffix (ho : w.Ordered) (hw : w.Registry) {b : UInt32} {ps : List Ptr}
    {heap : Heap BRTransaction} {hs : List UInt256}
    (hps : w.suffix (fun height => decide (height > b)) = some ps)
    (hu : unconfirm w.heap ps = some (heap, hs)) (hp : w.heap.load p = some tx)
    (hm : p ∈ w.transactions) : heap.load p =
      some (if tx.blockHeight > b then tx.setBlock TX_UNCONFIRMED tx.timestamp else tx) := by
  rw [suffix_eq ho hw (gt_mono b), Option.some.injEq] at hps
  subst hps
  rw [unconfirm_load hu, hp]
  by_cases hb : tx.blockHeight > b
  · rw [if_pos ((mem_suffix hp).2 ⟨hm, decide_eq_true hb⟩), if_pos hb, Option.map_some]
  · rw [if_neg, if_neg hb]
    intro hmem
    exact hb (of_decide_eq_true ((mem_suffix hp).1 hmem).2)

/-! ## Runs -/

theorem Ordered.congr (h : w.Ordered) (ht : w'.transactions.Sublist w.transactions)
    (hh : ∀ p ∈ w'.transactions, heightAt w'.heap p = heightAt w.heap p) : w'.Ordered := by
  refine (List.Pairwise.sublist ht h).imp_of_mem fun hp hq hpq => ?_
  rwa [hh _ hp, hh _ hq]

theorem Ordered.removeTx {fuel : ℕ} {h : UInt256} (ho : w.Ordered) (hl : w.Listed)
    (hk : w.allTx.lookup h = some p) (hp : w.heap.load p = some tx)
    (h : w.removeTx now fuel p tx h = some w') : w'.Ordered := by
  obtain ⟨ts, txs, L, cs, he, -, -, rfl⟩ := removeTx_some h
  obtain rfl := hl.filed.hash hk hp
  refine ho.congr he.sublist fun q hq => ?_
  show heightAt (w.heap.free p) q = _
  rw [heightAt, Heap.load_free_ne]
  · rfl
  · rintro rfl
    exact he.not_mem hl hk hq

/-- The loop of `BRWalletUpdateTransactions` writes the height of the transactions it finds. -/
theorem Updated.heightAt {hs : List UInt256} {b t : UInt32} {s : Updating}
    (hu : Updated w hs b t s) (hw : w.Registry) (hk : w.KeepsListed hs b t) :
    ∀ q ∈ w.transactions, BRWallet.heightAt s.wallet.heap q =
      if w.touches hs q then b.toNat else BRWallet.heightAt w.heap q := by
  intro q hq
  obtain ⟨x, hx⟩ := hw.live q hq
  rw [heightAt_some hx, BRWallet.heightAt, hu.load, hx, Option.bind_some, updated]
  split_ifs with htouch hfree
  · rw [hk q hq x hx htouch] at hfree; cases hfree
  · rfl
  · rfl

theorem Ordered.updateLoop {hs : List UInt256} {b t : UInt32} {s : Updating} (ho : w.Ordered)
    (hw : w.Registry) (hk : w.KeepsListed hs b t) (hg : w.KeepsOrder hs b)
    (hu : Updated w hs b t s) : s.wallet.Ordered := by
  obtain ⟨heap, allTx, hf⟩ := hu.fields
  have hts : s.wallet.transactions = w.transactions := by rw [hf]
  have hheight := hu.heightAt hw hk
  unfold Ordered
  rw [hts]
  refine (List.Pairwise.and ho hg).imp_of_mem fun {p q} hp hq hpq => ?_
  obtain ⟨x, hx⟩ := hw.live p hp
  obtain ⟨y, hy⟩ := hw.live q hq
  obtain ⟨hpq, hkeep⟩ := hpq
  obtain ⟨h₁, h₂⟩ := hkeep x y hx hy
  rw [hheight p hp, hheight q hq]
  rw [heightAt_some hx, heightAt_some hy] at hpq ⊢
  rcases hpt : w.touches hs p with _ | _ <;> rcases hqt : w.touches hs q with _ | _
  · exact hpq
  · exact UInt32.le_iff_toNat_le.1 (h₁ hpt hqt)
  · exact UInt32.le_iff_toNat_le.1 (h₂ hpt hqt)
  · exact le_refl _

/-- A reorg that keeps the order of what it lifts keeps the order of two heights. -/
theorem unconfirm_heightAt_le {b : UInt32} {ps : List Ptr} {heap : Heap BRTransaction}
    {hs : List UInt256} {p q : Ptr} (ho : w.Ordered) (hw : w.Registry) (hg : w.KeepsLast b)
    (hps : w.suffix (fun height => decide (height > b)) = some ps)
    (hu : unconfirm w.heap ps = some (heap, hs)) (hp : p ∈ w.transactions)
    (hq : q ∈ w.transactions) (hpq : heightAt w.heap p ≤ heightAt w.heap q) :
    heightAt heap p ≤ heightAt heap q := by
  obtain ⟨x, hx⟩ := hw.live p hp
  obtain ⟨y, hy⟩ := hw.live q hq
  have hpx := unconfirm_suffix ho hw hps hu hx hp
  have hqy := unconfirm_suffix ho hw hps hu hy hq
  rw [heightAt_some hx, heightAt_some hy] at hpq
  rw [heightAt_some hpx, heightAt_some hqy]
  by_cases hxb : b < x.blockHeight <;> by_cases hyb : b < y.blockHeight
  · simp [hxb, hyb]
  · rw [UInt32.lt_iff_toNat_lt] at hxb hyb
    omega
  · rw [if_neg hxb, if_pos hyb]
    exact UInt32.le_iff_toNat_le.1 (hg q hq p hp y x hy hx hyb (UInt32.not_lt.1 hxb))
  · rw [if_neg hxb, if_neg hyb]
    exact hpq

theorem Ordered.unconfirm {b : UInt32} {ps : List Ptr} {heap : Heap BRTransaction}
    {hs : List UInt256} (ho : w.Ordered) (hw : w.Registry) (hg : w.KeepsLast b)
    (hps : w.suffix (fun height => decide (height > b)) = some ps)
    (hu : unconfirm w.heap ps = some (heap, hs)) :
    w.transactions.Pairwise fun p q => heightAt heap p ≤ heightAt heap q :=
  ho.imp_of_mem fun hp hq hpq => unconfirm_heightAt_le ho hw hg hps hu hp hq hpq

theorem step_ordered (hl : w.Listed) (hw : w.Registry) (ho : w.Ordered) (hg : orderGuard w op)
    (h : step env w op w') : w'.Ordered := by
  cases op with
  | alloc tx =>
    obtain rfl := h
    refine ho.congr (List.Sublist.refl _) fun p hp => ?_
    show heightAt (w.heap.alloc tx) p = _
    rw [heightAt, Heap.load_alloc_of_lt tx (hl.old hp), heightAt]
  | setCallbacks callbacks => obtain rfl := h; exact ho
  | registerTransaction now p =>
    obtain ⟨fuel, r, h⟩ := h
    obtain ⟨tx, hp, h⟩ := registerTransaction_cases h
    cases h with
    | added _ _ _ ha =>
      obtain ⟨ts, txs, L, ic, ec, aa, cs, hi, -, -, -, -, rfl⟩ := ha.fields
      exact ho.enlist hp hi
    | _ => exact ho
  | removeTransaction now h' =>
    obtain ⟨fuel, h⟩ := h
    exact (removeTransaction_invariant (P := fun w => w.Listed ∧ w.Ordered)
      (fun hw hk hp h => ⟨hw.1.removeTx hk hp h, hw.2.removeTx hw.1 hk hp h⟩) ⟨hl, ho⟩ h).2
  | updateTransactions now hs b t =>
    obtain ⟨s, cs, hs, h⟩ := updateTransactions_some h
    have hs : s.wallet.Ordered := Ordered.updateLoop (w := w.raised b) ho
      ⟨hw.live, hw.utxos⟩ hg.1 hg.2 (updateLoop (w := w.raised b) hl.filed hs).1
    rcases h with ⟨-, rfl⟩ | ⟨-, txs, L, -, -, rfl⟩
    · exact hs
    · exact hs
  | setTxUnconfirmedAfter now b =>
    obtain ⟨ps, heap, hs, hps, hu, ⟨-, rfl⟩ | ⟨-, txs, L, cs, -, -, rfl⟩⟩ :=
      setTxUnconfirmedAfter_some h
    · exact ho.unconfirm hw hg hps hu
    · exact ho.unconfirm hw hg hps hu

theorem init_ordered (h : (system env).init w) : w.Ordered := by
  obtain ⟨fuel, now, heap, transactions, h⟩ := h
  obtain ⟨w₀, ic, ec, aa, txs, L, h₀, -, -, rfl, -⟩ := new_some h
  have hempty : ({ heap := heap } : BRWallet).Ordered := List.Pairwise.nil
  have hw₀ : w₀.Ordered := by
    refine foldlM_invariant (fun _ hw h => ?_) hempty h₀
    rcases addTx_cases h with rfl | ⟨tx, ts, hp, -, -, hi, rfl⟩
    · exact hw
    · exact hw.enlist hp hi
  exact hw₀

theorem run_ordered (h : (system env).Run orderGuard w) : w.Ordered :=
  h.invariant (J := fun w => w.Listed ∧ w.Registry)
    (fun h => ⟨run_listed h, run_registry (fun _ _ => orderGuard_registryGuard) h⟩) init_ordered
    fun hj ho hg hs _ => step_ordered hj.1 hj.2 ho hg hs

/-- The list is sorted in a run whose updates leave its order intact. -/
theorem run_sorted (h : (system env).Run orderGuard w) : w.Sorted :=
  (run_ordered h).sorted (run_registry (fun _ _ => orderGuard_registryGuard) h) (run_listed h)

/-- The second of two unconfirmed transactions is confirmed, and stays behind the first. -/
theorem not_run_sorted :
    ¬ ∀ (env : Env) (w : BRWallet), (system env).Run (fun _ _ => True) w → w.Sorted := by
  intro h
  have hbad : ∃ w, new sampleEnv 100 0 ⟨[some receipt, some secondReceipt]⟩ [0, 1] =
      some (some w) ∧ ∃ w', w.updateTransactions 0 [3] 100 0 = some w' ∧
        w'.registered = some [receipt, secondReceipt.setBlock 100 0] :=
    ⟨_, rfl, _, rfl, by decide⟩
  obtain ⟨w, hw, w', hw', hr⟩ := hbad
  have hinit : (system sampleEnv).init w := ⟨100, 0, _, _, hw⟩
  have hstep : (system sampleEnv).step w (.updateTransactions 0 [3] 100 0) w' := hw'
  have hrun : (system sampleEnv).Run (fun _ _ => True) w' := .step (.init hinit) trivial hstep
  obtain ⟨txs, htxs, hs, -⟩ := h sampleEnv w' hrun
  rw [hr, Option.some.injEq] at htxs
  subst htxs
  revert hs
  decide

/-- The first of two unconfirmed transactions is confirmed. -/
theorem sample_orderGuard : ∃ w w', (system sampleEnv).init w ∧
    w.updateTransactions 0 [1] 100 0 = some w' ∧ (system sampleEnv).Run orderGuard w' := by
  have hw : ∃ w, new sampleEnv 100 0 ⟨[some receipt, some secondReceipt]⟩ [0, 1] =
      some (some w) ∧ w.transactions = [0, 1] ∧ w.heap.load 0 = some receipt ∧
      w.heap.load 1 = some secondReceipt ∧ w.frees 100 0 receipt = false ∧
      w.touches [1] 1 = false ∧ ∃ w', w.updateTransactions 0 [1] 100 0 = some w' :=
    ⟨_, rfl, by decide, by decide, by decide, by decide, by decide, _, rfl⟩
  obtain ⟨w, hw, hts, h0, h1, hf, ht, w', hw'⟩ := hw
  have hg : orderGuard w (.updateTransactions 0 [1] 100 0) := by
    constructor
    · intro p hm tx hp htouch
      rw [hts] at hm
      rcases List.mem_pair.1 hm with rfl | rfl
      · rw [h0, Option.some.injEq] at hp
        rw [← hp, hf]
      · rw [ht] at htouch; cases htouch
    · unfold KeepsOrder
      rw [hts, List.pairwise_pair]
      intro x y hx hy
      rw [ht]
      rw [h1, Option.some.injEq] at hy
      subst hy
      exact ⟨fun _ hn => absurd hn Bool.false_ne_true, fun _ _ => by decide⟩
  have hinit : (system sampleEnv).init w := ⟨100, 0, _, _, hw⟩
  have hstep : (system sampleEnv).step w (.updateTransactions 0 [1] 100 0) w' := hw'
  exact ⟨w, w', hinit, hw', .step (.init hinit) hg hstep⟩

theorem run_sorted_sample : ∃ w w', (system sampleEnv).init w ∧
    w.updateTransactions 0 [1] 100 0 = some w' ∧ w'.Sorted := by
  obtain ⟨w, w', hi, hu, hrun⟩ := sample_orderGuard
  exact ⟨w, w', hi, hu, run_sorted hrun⟩

/-- A reorg at `b` unconfirms exactly the listed transactions above `b`, and the query for those
    unconfirmed before `b` finds exactly the listed ones at or above `b`. -/
structure Scans (w : BRWallet) : Prop where
  reorg : ∀ {now b w'}, w.setTxUnconfirmedAfter now b = some w' →
    w'.transactions = w.transactions ∧ ∀ p ∈ w.transactions, ∃ tx, w.heap.load p = some tx ∧
      w'.heap.load p =
        some (if tx.blockHeight > b then tx.setBlock TX_UNCONFIRMED tx.timestamp else tx)
  query : ∀ {b n}, w.transactions.length ≤ n → w.txUnconfirmedBefore n b =
    some (w.transactions.filter fun p =>
      (w.heap.load p).any fun tx => decide (tx.blockHeight ≥ b))

/-- The scans find all they look for in a run whose updates leave the order intact. -/
theorem run_scans (h : (system env).Run orderGuard w) : w.Scans := by
  have ho := run_ordered h
  have hw := run_registry (fun _ _ => orderGuard_registryGuard) h
  refine ⟨fun {now b w'} h => ?_, fun {b n} hn => ?_⟩
  · obtain ⟨ps, heap, hs, hps, hu, hw'⟩ := setTxUnconfirmedAfter_some h
    have hload : ∀ p ∈ w.transactions, ∃ tx, w.heap.load p = some tx ∧ heap.load p =
        some (if tx.blockHeight > b then tx.setBlock TX_UNCONFIRMED tx.timestamp else tx) := by
      intro p hp
      obtain ⟨tx, ht⟩ := hw.live p hp
      exact ⟨tx, ht, unconfirm_suffix ho hw hps hu ht hp⟩
    rcases hw' with ⟨-, rfl⟩ | ⟨-, txs, L, cs, -, -, rfl⟩
    · exact ⟨rfl, hload⟩
    · exact ⟨rfl, hload⟩
  · simp only [txUnconfirmedBefore, suffix_eq ho hw (ge_mono b), Option.bind_eq_bind,
      Option.bind_some, Option.some.injEq]
    exact List.take_of_length_le ((List.length_filter_le _ _).trans hn)

/-- The transactions are confirmed in the wrong order; a reorg between their heights stops at the
    lower one and leaves the higher one confirmed. -/
theorem not_run_scans :
    ¬ ∀ (env : Env) (w : BRWallet), (system env).Run (fun _ _ => True) w → w.Scans := by
  intro h
  have hbad : ∃ w, new sampleEnv 100 0 ⟨[some receipt, some secondReceipt]⟩ [0, 1] =
      some (some w) ∧ ∃ w', w.updateTransactions 0 [3] 100 0 = some w' ∧
        ∃ w₂, w'.updateTransactions 0 [1] 150 0 = some w₂ ∧
          0 ∈ w₂.transactions ∧ w₂.heap.load 0 = some (receipt.setBlock 150 0) ∧
          ∃ w₃, w₂.setTxUnconfirmedAfter 0 120 = some w₃ ∧
            w₃.heap.load 0 = some (receipt.setBlock 150 0) :=
    ⟨_, rfl, _, rfl, _, rfl, by decide, by decide, _, rfl, by decide⟩
  obtain ⟨w, hw, w', hw', w₂, hw₂, hm, hp, w₃, hw₃, hp₃⟩ := hbad
  have hinit : (system sampleEnv).init w := ⟨100, 0, _, _, hw⟩
  have hstep : (system sampleEnv).step w (.updateTransactions 0 [3] 100 0) w' := hw'
  have hstep₂ : (system sampleEnv).step w' (.updateTransactions 0 [1] 150 0) w₂ := hw₂
  have hrun : (system sampleEnv).Run (fun _ _ => True) w₂ :=
    .step (.step (.init hinit) trivial hstep) trivial hstep₂
  obtain ⟨-, hload⟩ := (h sampleEnv w₂ hrun).reorg hw₃
  obtain ⟨tx, ht, ht₃⟩ := hload 0 hm
  rw [hp, Option.some.injEq] at ht
  rw [hp₃, ← ht] at ht₃
  revert ht₃
  decide

theorem run_scans_sample : ∃ w w', (system sampleEnv).init w ∧
    w.updateTransactions 0 [1] 100 0 = some w' ∧ w'.Scans := by
  obtain ⟨w, w', hi, hu, hrun⟩ := sample_orderGuard
  exact ⟨w, w', hi, hu, run_scans hrun⟩

end BRWallet

end RavenWallet
