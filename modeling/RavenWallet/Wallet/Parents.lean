/-
  Parents before their children.

  The ledger goes through the transactions in list order, the queries about a
  transaction go back through its inputs.  They speak of the same parents if each
  known parent is listed before its child.  `insertTx` is meant to see to that, but
  its comparison is not a total order: it may stop at a transaction it cannot
  compare, behind a child of the new one.

  * `KeepsParents`: what the comparisons have to say for an insertion to put a
    transaction behind its parents and in front of its children;
  * `run_parentsFirst`: if they say so whenever a transaction is added, then parents
    stand first in every state.
-/
import RavenWallet.Lib.Precedence
import RavenWallet.Wallet.Removal

namespace RavenWallet

namespace BRWallet

/-- The transaction at `q` spends an output of the known one at `s`. -/
def Needs (w : BRWallet) (q s : Ptr) : Prop :=
  ∃ t, w.heap.load q = some t ∧ ∃ i ∈ t.inputs, w.allTx.lookup i.txHash = some s

/-- The listed transaction at `q` is a child of the known one at `s`. -/
def Descends (w : BRWallet) (q s : Ptr) : Prop := q ∈ w.transactions ∧ w.Needs q s

/-- The known parents of a listed transaction are listed before it. -/
def ParentsFirst (w : BRWallet) : Prop := Founded w.Needs w.transactions

/-- The wallet that knows `tx` at `p`. -/
def noted (w : BRWallet) (p : Ptr) (tx : BRTransaction) : BRWallet :=
  { w with allTx := w.allTx.insert tx.txHash p }

/-- The comparison says of the transaction at `r` whether it belongs after `tx`. -/
def Compares (w : BRWallet) (tx : BRTransaction) (r : Ptr) (after : Bool) : Prop :=
  ∀ depth c, w.isAfter depth tx r = some c → c = after

/-- The listed transaction at `q` spends an output of one with the hash `h`. -/
def SpentBy (w : BRWallet) (h : UInt256) (q : Ptr) : Prop :=
  q ∈ w.transactions ∧ ∃ t, w.heap.load q = some t ∧ ∃ i ∈ t.inputs, i.txHash = h

/-- Behind a parent, or at it, the scan from the end stops; down to a child it goes on. -/
structure KeepsParents (w : BRWallet) (p : Ptr) (tx : BRTransaction) : Prop where
  parents : ∀ i ∈ tx.inputs, ∀ s, (w.noted p tx).allTx.lookup i.txHash = some s →
    ∃ a b, w.transactions = a ++ s :: b ∧ ∃ r ∈ s :: b, (w.noted p tx).Compares tx r false
  children : ∀ a q b, w.transactions = a ++ q :: b → w.SpentBy tx.txHash q →
    ∀ r ∈ q :: b, (w.noted p tx).Compares tx r true

/-- If the transaction at `p` is new, its insertion keeps the parents first. -/
def Admits (w : BRWallet) (p : Ptr) : Prop :=
  ∀ tx, w.heap.load p = some tx → tx.isSigned = true → w.allTx.lookup tx.txHash = none →
    w.KeepsParents p tx

/-- A registration keeps the parents first; a transaction that is only noted has no listed
    children. -/
def parentsGuard (w : BRWallet) : WalletOp → Prop
  | .registerTransaction _ p => ∀ tx, w.heap.load p = some tx → tx.isSigned = true →
      w.allTx.lookup tx.txHash = none →
      (w.containsTx tx = true → w.KeepsParents p tx) ∧
        (w.containsTx tx = false → ∀ q, ¬ w.SpentBy tx.txHash q)
  | _ => True

/-- The wallets that `BRWalletNew` returns if each transaction that it adds is admitted by the wallet
    of those before it. -/
def admittingSystem (env : Env) (A : BRWallet → Ptr → Prop) : System BRWallet WalletOp where
  init w := ∃ fuel now heap transactions,
    new env fuel now heap transactions = some (some w) ∧
    ∀ done p rest w₀, transactions = done ++ p :: rest →
      done.foldlM (addTx fuel) { heap := heap } = some w₀ → A w₀ p
  step := step env

/-- The insertions of `BRWalletNew` keep the parents first. -/
def parentsSystem (env : Env) : System BRWallet WalletOp := admittingSystem env Admits

variable {env : Env} {w w' : BRWallet} {p q : Ptr} {tx : BRTransaction} {op : WalletOp} {now : ℤ}
  {A : BRWallet → Ptr → Prop}

theorem run_of_admitting {G : BRWallet → WalletOp → Prop} (h : (admittingSystem env A).Run G w) :
    (system env).Run G w := by
  have hi : ∀ v, (admittingSystem env A).init v → (system env).init v := by
    rintro v ⟨fuel, now, heap, transactions, hnew, -⟩
    exact ⟨fuel, now, heap, transactions, hnew⟩
  exact h.restrict hi fun _ _ _ hs => hs

/-- What the insertion of an admitted transaction keeps holds of the list that `BRWalletNew`
    builds. -/
theorem addTxs_invariant {P : BRWallet → Prop} {fuel : ℕ} {transactions : List Ptr}
    (hP : ∀ {w w' p}, w.Listed → P w → A w p → w.addTx fuel p = some w' → P w') (hl : w.Listed)
    (hw : P w) (hA : ∀ done p rest w₀, transactions = done ++ p :: rest →
      done.foldlM (addTx fuel) w = some w₀ → A w₀ p)
    (h : transactions.foldlM (addTx fuel) w = some w') : P w' := by
  induction transactions generalizing w with
  | nil =>
    obtain rfl := Option.some.inj h
    exact hw
  | cons p ps ih =>
    rw [List.foldlM_cons, Option.bind_eq_bind, Option.bind_eq_some_iff] at h
    obtain ⟨w₁, h₁, h⟩ := h
    refine ih (addTx_listed hl h₁) (hP hl hw (hA [] p ps w rfl rfl) h₁) ?_ h
    intro done q rest w₀ hps hrun
    refine hA (p :: done) q rest w₀ (by rw [hps, List.cons_append]) ?_
    rw [List.foldlM_cons, h₁]
    exact hrun

/-- The list and the transactions that `BRWalletNew` leaves are those of a wallet built by admitted
    insertions. -/
theorem init_admitting {P : BRWallet → Prop} (h : (admittingSystem env A).init w)
    (hP : ∀ {fuel w w' p}, w.Listed → P w → A w p → w.addTx fuel p = some w' → P w')
    (h0 : ∀ heap, P { heap := heap }) : ∃ w₀, P w₀ ∧ w₀.transactions = w.transactions ∧
      w₀.heap = w.heap ∧ w₀.allTx = w.allTx := by
  obtain ⟨fuel, now, heap, transactions, h, hA⟩ := h
  obtain ⟨w₀, ic, ec, aa, txs, L, h₀, -, -, rfl, -⟩ := new_some h
  exact ⟨w₀, addTxs_invariant hP (.empty heap) (h0 heap) hA h₀, rfl, rfl, rfl⟩

/-! ## Steps -/

/-- Wallets with the same list, whose transactions spend no more known ones. -/
theorem ParentsFirst.congr (h : w.ParentsFirst) (ht : w'.transactions = w.transactions)
    (hn : ∀ q ∈ w.transactions, ∀ s, w'.Needs q s → w.Needs q s) : w'.ParentsFirst := by
  unfold ParentsFirst
  rw [ht]
  exact h.mono hn

/-- The transactions have the same inputs as before, and no more are known. -/
theorem Needs.of_load {s : Ptr} (hs : w'.Needs q s)
    (hload : ∀ t', w'.heap.load q = some t' → ∃ t, w.heap.load q = some t ∧ t'.inputs = t.inputs)
    (hl : ∀ h, w'.allTx.lookup h = some s → w.allTx.lookup h = some s) : w.Needs q s := by
  obtain ⟨t', ht', i, hi, his⟩ := hs
  obtain ⟨t, ht, hinputs⟩ := hload t' ht'
  exact ⟨t, ht, i, hinputs ▸ hi, hl _ his⟩

theorem ParentsFirst.enlist (h : w.ParentsFirst) (hl : w.Listed) (hp : w.heap.load p = some tx)
    (hn : w.allTx.lookup tx.txHash = none) (hk : w.KeepsParents p tx) {ts : List Ptr}
    (hi : w.Inserted p tx ts) : (w.enlist p tx ts).ParentsFirst := by
  have hnd : ts.Nodup := hi.perm.nodup_iff.2 (List.nodup_cons.2 ⟨hl.not_mem hp hn, hl.nodup⟩)
  obtain ⟨depth, hi⟩ := hi
  obtain ⟨b, a, hts, hr, hb, ha⟩ := insertBack_split hi
  have hold : w.transactions = a.reverse ++ b.reverse := by
    rw [← List.reverse_append, ← hts, List.reverse_reverse]
  have hnew : ts = a.reverse ++ p :: b.reverse := by
    rw [← List.reverse_reverse ts, hr]
    simp
  -- what is behind `p` belongs after `tx`, and the transaction in front of `p` does not
  have hbehind : ∀ r ∈ b.reverse, ¬ (w.noted p tx).Compares tx r false := fun r hr hc => by
    cases hc depth true (hb r (List.mem_reverse.1 hr))
  have hfront : ∀ q ∈ a.reverse, ¬ w.SpentBy tx.txHash q := by
    intro q hq hspent
    obtain ⟨c, d, hcd⟩ := List.append_of_mem hq
    have hlast : ∃ r ∈ q :: d, r ∈ a.head? := by
      rw [← List.reverse_reverse a, hcd, List.head?_reverse]
      refine ⟨(q :: d).getLast (List.cons_ne_nil _ _), List.getLast_mem _, ?_⟩
      rw [List.getLast?_append_of_ne_nil _ (List.cons_ne_nil _ _), List.getLast?_eq_some_getLast]
      rfl
    obtain ⟨r, hr, hra⟩ := hlast
    have hcomp := hk.children c q (d ++ b.reverse)
      (by rw [hold, hcd, List.append_assoc, List.cons_append]) hspent r
      (List.cons_append ▸ List.mem_append_left _ hr)
    cases hcomp depth false (ha r hra)
  unfold ParentsFirst
  rw [show (w.enlist p tx ts).transactions = a.reverse ++ p :: b.reverse from hnew]
  have hfounded : Founded w.Needs (a.reverse ++ b.reverse) := hold ▸ h
  refine hfounded.insert (hnew ▸ hnd) ?_ ?_ ?_
  · rintro q hq s ⟨t, ht, i, hit, his⟩
    refine ⟨t, ht, i, hit, ?_⟩
    have hne : i.txHash ≠ tx.txHash := fun heq =>
      hfront q hq ⟨hold ▸ List.mem_append_left _ hq, t, ht, i, hit, heq⟩
    have his : (w.allTx.insert tx.txHash p).lookup i.txHash = some s := his
    rwa [AList.lookup_insert_ne hne] at his
  · rintro q hq s ⟨t, ht, i, hit, his⟩
    have his : (w.allTx.insert tx.txHash p).lookup i.txHash = some s := his
    by_cases heq : i.txHash = tx.txHash
    · rw [heq, AList.lookup_insert, Option.some.injEq] at his
      exact Or.inr his.symm
    · rw [AList.lookup_insert_ne heq] at his
      exact Or.inl ⟨t, ht, i, hit, his⟩
  · rintro s ⟨t, ht, i, hit, his⟩
    obtain rfl : tx = t := Option.some.inj (hp.symm.trans ht)
    obtain ⟨c, d, hcd, r, hr, hcomp⟩ := hk.parents i hit s his
    rw [hold] at hcd
    rcases List.append_eq_append_iff.1 hcd with ⟨e, -, he⟩ | ⟨e, he, hd⟩
    · exact absurd hcomp (hbehind r (he ▸ List.mem_append_right _ hr))
    · cases e with
      | nil => exact absurd hcomp (hbehind r (by rw [← List.nil_append b.reverse, ← hd]; exact hr))
      | cons x e =>
        obtain ⟨rfl, -⟩ := List.cons.inj hd
        rw [he]
        simp

theorem ParentsFirst.removeTx {fuel : ℕ} {h : UInt256} (hw : w.ParentsFirst) (hl : w.Listed)
    (hk : w.allTx.lookup h = some p) (hp : w.heap.load p = some tx)
    (h : w.removeTx now fuel p tx h = some w') : w'.ParentsFirst := by
  obtain ⟨ts, txs, L, cs, he, -, -, rfl⟩ := removeTx_some h
  obtain rfl := hl.filed.hash hk hp
  refine Founded.sublist hw he.sublist fun q hq s hs => ?_
  obtain ⟨t', ht', i, hi, his⟩ := hs
  have hload := (Heap.load_free_some ht').2
  have hlook : w.allTx.lookup i.txHash = some s ∧ s ≠ p := by
    have herase : (w.allTx.erase tx.txHash).lookup i.txHash = some s := his
    by_cases heq : i.txHash = tx.txHash
    · rw [heq, AList.lookup_erase] at herase
      cases herase
    · rw [AList.lookup_erase_ne heq] at herase
      refine ⟨herase, ?_⟩
      rintro rfl
      exact heq (hl.filed.hash herase hp).symm
  exact ⟨⟨t', hload, i, hi, hlook.1⟩, fun hs => (he.mem_iff hl.filed hk hp).2 ⟨hs, hlook.2⟩⟩

/-- A reorg leaves the inputs as they are. -/
theorem unconfirm_inputs {heap heap' : Heap BRTransaction} {ps : List Ptr} {hs : List UInt256}
    (hu : unconfirm heap ps = some (heap', hs)) {t' : BRTransaction}
    (ht' : heap'.load q = some t') : ∃ t, heap.load q = some t ∧ t'.inputs = t.inputs := by
  obtain ⟨t, ht, _, rfl⟩ := unconfirm_src hu ht'
  exact ⟨t, ht, rfl⟩

theorem step_parentsFirst (hl : w.Listed) (hw : w.ParentsFirst) (hg : parentsGuard w op)
    (h : step env w op w') : w'.ParentsFirst := by
  cases op with
  | alloc tx =>
    obtain rfl := h
    refine hw.congr rfl fun q hq s hs => hs.of_load (fun t ht => ?_) fun _ hk => hk
    exact ⟨t, Heap.load_alloc_of_lt tx (hl.old hq) ▸ ht, rfl⟩
  | setCallbacks callbacks =>
    obtain rfl := h
    exact hw
  | registerTransaction now p =>
    obtain ⟨fuel, r, h⟩ := h
    obtain ⟨tx, hp, h⟩ := registerTransaction_cases h
    cases h with
    | added hsigned hn hc ha =>
      obtain ⟨ts, txs, L, ic, ec, aa, cs, hi, -, -, -, -, rfl⟩ := ha.fields
      exact hw.enlist hl hp hn ((hg tx hp hsigned hn).1 hc) hi
    | parked hsigned hn hc hu =>
      have hspent := (hg tx hp hsigned hn).2 hc
      refine hw.congr rfl ?_
      rintro q hq s ⟨t, ht, i, hi, his⟩
      have hne : i.txHash ≠ tx.txHash := fun heq => hspent q ⟨hq, t, ht, i, hi, heq⟩
      exact ⟨t, ht, i, hi, by rwa [AList.lookup_insert_ne hne] at his⟩
    | _ => exact hw
  | removeTransaction now h' =>
    obtain ⟨fuel, h⟩ := h
    exact (removeTransaction_invariant (P := fun w => w.Listed ∧ w.ParentsFirst)
      (fun hw hk hp h => ⟨hw.1.removeTx hk hp h, hw.2.removeTx hw.1 hk hp h⟩) ⟨hl, hw⟩ h).2
  | updateTransactions now hs b t =>
    obtain ⟨s, cs, hs, h⟩ := updateTransactions_some h
    have hu := (updateLoop (w := w.raised b) hl.filed hs).1
    obtain ⟨heap, allTx, hf⟩ := hu.fields
    have hs : s.wallet.ParentsFirst := by
      refine hw.congr (by rw [hf]; rfl) fun q _ s' hs' => hs'.of_load (fun t' ht' => ?_) ?_
      · obtain ⟨t₀, ht₀, _, _, rfl⟩ := hu.src ht'
        exact ⟨t₀, ht₀, rfl⟩
      · intro k hk
        exact ((hu.lookup k s').1 hk).1
    rcases h with ⟨-, rfl⟩ | ⟨-, txs, L, -, -, rfl⟩
    · exact hs
    · exact hs
  | setTxUnconfirmedAfter now b =>
    obtain ⟨ps, heap, hs, -, hu, h⟩ := setTxUnconfirmedAfter_some h
    rcases h with ⟨-, rfl⟩ | ⟨-, txs, L, cs, -, -, rfl⟩
    · exact hw.congr rfl fun q _ s hs => hs.of_load (fun _ => unconfirm_inputs hu) fun _ hk => hk
    · exact hw.congr rfl fun q _ s hs => hs.of_load (fun _ => unconfirm_inputs hu) fun _ hk => hk

theorem addTx_parentsFirst {fuel : ℕ} (hl : w.Listed) (hw : w.ParentsFirst) (hg : w.Admits p)
    (h : w.addTx fuel p = some w') : w'.ParentsFirst := by
  rcases addTx_cases h with rfl | ⟨tx, ts, hp, hsigned, hn, hi, rfl⟩
  · exact hw
  · exact hw.enlist hl hp hn (hg tx hp hsigned hn) hi

theorem init_parentsFirst (h : (parentsSystem env).init w) : w.ParentsFirst := by
  obtain ⟨w₀, hw₀, htransactions, hheap, hall⟩ :=
    init_admitting h addTx_parentsFirst fun _ => Founded.nil
  refine hw₀.congr htransactions.symm fun q _ s hs => hs.of_load (fun t ht => ?_) fun k hk => ?_
  · exact ⟨t, hheap ▸ ht, rfl⟩
  · rwa [hall]

/-- If no insertion misplaces a transaction, then known parents are listed before their
    children. -/
theorem run_parentsFirst (h : (parentsSystem env).Run parentsGuard w) : w.ParentsFirst :=
  h.invariant (fun h => run_listed (run_of_admitting h)) init_parentsFirst
    fun hl hw hg hs _ => step_parentsFirst hl hw hg hs

/-! ## Comparisons -/

/-- `tx` spends an output of `t`. -/
def Spending (tx t : BRTransaction) : Prop := ∃ i ∈ tx.inputs, i.txHash = t.txHash

theorem any_spending {tx t : BRTransaction} :
    (tx.inputs.any fun i => decide (i.txHash = t.txHash)) = true ↔ Spending tx t := by
  simp [Spending]

theorem txIsAscending_child {depth : ℕ} {x y : BRTransaction} {r : Bool}
    (hh : x.blockHeight = y.blockHeight) (hs : Spending x y)
    (hr : w.txIsAscending depth (some x) (some y) = some r) : r = true := by
  cases depth with
  | zero => simp [txIsAscending] at hr
  | succ depth =>
    rw [txIsAscending, hh, if_neg (UInt32.lt_irrefl _), if_neg (UInt32.lt_irrefl _),
      if_pos (any_spending.2 hs), Option.some.injEq] at hr
    exact hr.symm

theorem txIsAscending_parent {depth : ℕ} {x y : BRTransaction} {r : Bool}
    (hh : x.blockHeight = y.blockHeight) (hn : ¬ Spending x y) (hs : Spending y x)
    (hr : w.txIsAscending depth (some x) (some y) = some r) : r = false := by
  cases depth with
  | zero => simp [txIsAscending] at hr
  | succ depth =>
    rw [txIsAscending, hh, if_neg (UInt32.lt_irrefl _), if_neg (UInt32.lt_irrefl _),
      if_neg (any_spending.not.2 hn), if_pos (any_spending.2 hs), Option.some.injEq] at hr
    exact hr.symm

/-- A parent that is not above its child does not belong after it. -/
theorem compares_parent {t : BRTransaction} (hq : w.heap.load q = some t) (hs : Spending tx t)
    (hn : ¬ Spending t tx) (hh : t.blockHeight ≤ tx.blockHeight) : w.Compares tx q false := by
  intro depth c hc
  rcases Nat.lt_or_eq_of_le (UInt32.le_iff_toNat_le.1 hh) with hlt | heq
  · exact (isAfter_height hc).2 (heightAt_some hq ▸ hlt)
  · have heq : t.blockHeight = tx.blockHeight := UInt32.toNat_inj.1 heq
    simp only [isAfter, Option.bind_eq_bind, Option.bind_eq_some_iff, Option.some.injEq] at hc
    obtain ⟨t', ht', k, hk, rfl⟩ := hc
    obtain rfl := Option.some.inj (hq.symm.trans ht')
    simp only [txCompare, Option.bind_eq_bind, Option.bind_eq_some_iff] at hk
    obtain ⟨a, ha, hk⟩ := hk
    obtain rfl := txIsAscending_parent heq hn hs ha
    simp only [Bool.false_eq_true, if_false, Option.bind_eq_some_iff] at hk
    obtain ⟨b, hb, hk⟩ := hk
    obtain rfl := txIsAscending_child heq.symm hs hb
    obtain rfl : -1 = k := by simpa using hk
    rfl

/-- It spends the first receipt. -/
def spendsReceipt : BRTransaction :=
  { txHash := 13, inputs := [{ txHash := 1, index := 0, signature := some [] }]
    outputs := [{ address := [0, 1], amount := 90 }] }

def sampleHeap : Heap BRTransaction := ⟨[some receipt, some spendsReceipt]⟩

theorem sampleHeap_load (h : sampleHeap.load p = some tx) :
    (p = 0 ∧ tx = receipt) ∨ (p = 1 ∧ tx = spendsReceipt) := by
  rcases p with _ | _ | p
  · exact Or.inl ⟨rfl, (Option.some.inj h).symm⟩
  · exact Or.inr ⟨rfl, (Option.some.inj h).symm⟩
  · simp [sampleHeap, Heap.load] at h

/-- A parent and its child, in this order. -/
theorem init_sample (h₀ : A { heap := sampleHeap } 0)
    (h₁ : ∀ v : BRWallet, v.transactions = [0] → v.heap = sampleHeap →
      v.allTx = AList.singleton 1 0 → A v 1) :
    ∃ w, (admittingSystem sampleEnv A).init w ∧ w.transactions = [0, 1] ∧ w.heap = sampleHeap ∧
      ∃ w', w.updateBalance 0 = some w' := by
  have hw : ∃ w, new sampleEnv 100 0 sampleHeap [0, 1] = some (some w) ∧ w.transactions = [0, 1] ∧
      w.heap = sampleHeap ∧ ∃ w', w.updateBalance 0 = some w' :=
    ⟨_, rfl, by decide, rfl, _, rfl⟩
  obtain ⟨w, hnew, hw⟩ := hw
  refine ⟨w, ⟨100, 0, _, _, hnew, ?_⟩, hw⟩
  intro done p rest w₀ hsplit hrun
  rcases done with _ | ⟨a, _ | ⟨b, done⟩⟩
  · obtain ⟨rfl, -⟩ := List.cons.inj hsplit
    obtain rfl := Option.some.inj hrun
    exact h₀
  · simp only [List.cons_append, List.nil_append, List.cons.injEq] at hsplit
    obtain ⟨rfl, rfl, -⟩ := hsplit
    obtain ⟨v, hv, hlist, hheap, hall⟩ : ∃ v, [0].foldlM (addTx 100) { heap := sampleHeap } =
        some v ∧ v.transactions = [0] ∧ v.heap = sampleHeap ∧ v.allTx = AList.singleton 1 0 :=
      ⟨_, rfl, rfl, rfl, rfl⟩
    obtain rfl := Option.some.inj (hv.symm.trans hrun)
    exact h₁ v hlist hheap hall
  · simp at hsplit

theorem init_spendsReceipt : ∃ w, (parentsSystem sampleEnv).init w ∧
    w.transactions = [0, 1] ∧ w.heap = sampleHeap ∧ ∃ w', w.updateBalance 0 = some w' := by
  refine init_sample ?_ fun v hlist hheap hall => ?_
  · intro tx htx _ _
    obtain rfl := Option.some.inj htx
    exact ⟨by simp [receipt], by simp⟩
  · intro tx htx _ _
    rw [hheap] at htx
    obtain rfl := Option.some.inj htx
    have hlook : (v.noted 1 spendsReceipt).allTx.lookup 1 = some 0 := by
      show (v.allTx.insert spendsReceipt.txHash 1).lookup 1 = some 0
      rw [hall]
      decide
    have hparent : (v.noted 1 spendsReceipt).heap.load 0 = some receipt := by
      rw [noted, hheap]
      rfl
    constructor
    · intro i hi s hs
      rw [List.mem_singleton.1 hi] at hs
      obtain rfl := Option.some.inj (hlook.symm.trans hs)
      refine ⟨[], [], hlist, 0, List.mem_cons_self, compares_parent hparent ?_ ?_ ?_⟩
      · exact ⟨_, List.mem_cons_self, rfl⟩
      · simp [Spending, receipt]
      · exact UInt32.le_refl _
    · rintro a q b - ⟨hq, t, ht, i, hi, -⟩
      rw [hlist, List.mem_singleton] at hq
      subst hq
      obtain rfl := Option.some.inj (hparent.symm.trans ht)
      cases hi

/-! ## The registered transactions -/

variable {txs : List BRTransaction}

/-- `t` spends an output of the known transaction `u`. -/
def Parent (w : BRWallet) (t u : BRTransaction) : Prop :=
  ∃ i ∈ t.inputs, w.tx? i.txHash = some u

theorem ParentsFirst.registered (h : w.ParentsFirst) (hl : w.Listed)
    (hr : w.registered = some txs) : Founded w.Parent txs := by
  have hneeds : ∀ p q x y, w.heap.load p = some x → w.heap.load q = some y → q ∈ w.transactions →
      w.Parent x y → w.Needs p q := by
    rintro p q x y hp hq hm ⟨i, hi, hy⟩
    obtain ⟨s, hs, hsy⟩ := Option.bind_eq_some_iff.1 hy
    obtain ⟨z, hz, hzi⟩ := hl.known hs
    obtain rfl := Option.some.inj (hz.symm.trans hsy)
    have hlook := hl.listed hm hq
    rw [hzi, hs, Option.some.injEq] at hlook
    exact ⟨x, hp, i, hi, hlook ▸ hs⟩
  refine ⟨fun t ht u hu => ?_, ?_, fun t ht htt => ?_⟩
  · obtain ⟨p, hp, hpt⟩ := Heap.mem_of_loadAll hr ht
    obtain ⟨i, hi, hu⟩ := hu
    obtain ⟨s, hs, hsu⟩ := Option.bind_eq_some_iff.1 hu
    have hm := h.closed p hp s ⟨t, hpt, i, hi, hs⟩
    obtain ⟨x, hx, hsx⟩ := Heap.loadAll_mem hr hm
    obtain rfl := Option.some.inj (hsx.symm.trans hsu)
    exact hx
  · have horder : w.transactions.Pairwise fun p q => q ∈ w.transactions ∧ ¬ w.Needs p q :=
      h.order.imp_of_mem fun _ hq hpq => ⟨hq, hpq⟩
    refine Heap.loadAll_pairwise hr horder ?_
    rintro p q x y hp hq ⟨hm, hpq⟩ hxy
    exact hpq (hneeds p q x y hp hq hm hxy)
  · obtain ⟨p, hp, hpt⟩ := Heap.mem_of_loadAll hr ht
    exact h.irrefl p hp (hneeds p p t t hpt hpt hp htt)

end BRWallet

end RavenWallet
