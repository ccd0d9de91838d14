/-
  Removal with all dependents.

  `BRWalletRemoveTransaction` looks for dependents from the end of the list and stops
  at the first transaction below the one to be removed.  This finds them all if the list
  is sorted and no transaction is below one that it spends an output of.

  * `removeTransaction_cleared`: then nothing that is left depends on what was removed;
  * `run_closes`: in every run that keeps the heights so (`closureGuard`), a removal ends,
    and takes out exactly the transaction and what depends on it.
-/
import RavenWallet.Wallet.Parents

namespace RavenWallet

namespace BRWallet

/-- No listed transaction is below a listed one that it spends an output of. -/
def Rising (w : BRWallet) : Prop :=
  ∀ q s, w.Descends q s → s ∈ w.transactions → heightAt w.heap s ≤ heightAt w.heap q

/-- `tx` is not below its listed parents, and not above its listed children. -/
structure RisesWith (w : BRWallet) (tx : BRTransaction) : Prop where
  parents : ∀ i ∈ tx.inputs, ∀ s ∈ w.transactions, w.allTx.lookup i.txHash = some s →
    heightAt w.heap s ≤ tx.blockHeight.toNat
  children : ∀ q, w.SpentBy tx.txHash q → tx.blockHeight.toNat ≤ heightAt w.heap q

/-- If the transaction at `p` is new, its height is between those of its parents and children. -/
def AdmitsHeight (w : BRWallet) (p : Ptr) : Prop :=
  ∀ tx, w.heap.load p = some tx → tx.isSigned = true → w.allTx.lookup tx.txHash = none →
    w.RisesWith tx

/-- No untouched parent of a touched transaction is above the new height, and no untouched child of
    one is below it. -/
def KeepsRising (w : BRWallet) (hs : List UInt256) (b : UInt32) : Prop :=
  ∀ q s, w.Descends q s → s ∈ w.transactions →
    (w.touches hs s = false → w.touches hs q = true → heightAt w.heap s ≤ b.toNat) ∧
      (w.touches hs s = true → w.touches hs q = false → b.toNat ≤ heightAt w.heap q)

/-- The operations leave the heights as they have to be along the inputs. -/
def risingGuard (w : BRWallet) : WalletOp → Prop
  | .registerTransaction _ p => ∀ tx, w.heap.load p = some tx → w.containsTx tx = true →
      w.AdmitsHeight p
  | .updateTransactions _ hs b _ => w.KeepsRising hs b
  | _ => True

/-- The operations leave the heights as they have to be, in the list and along the inputs. -/
def closureGuard (w : BRWallet) (op : WalletOp) : Prop := orderGuard w op ∧ risingGuard w op

/-- `BRWalletNew` is given transactions with such heights. -/
def closingSystem (env : Env) : System BRWallet WalletOp := admittingSystem env AdmitsHeight

/-- `w'` is `w` without the transaction at `p` and those that depend on it, directly or through
    others, and none of those left spends an output of a removed one. -/
structure Closes (w : BRWallet) (p : Ptr) (w' : BRWallet) : Prop where
  sublist : w'.transactions.Sublist w.transactions
  transactions : ∀ q, q ∈ w'.transactions ↔ q ∈ w.transactions ∧ ¬ Chain w.Descends q p
  lookup : ∀ h q, w'.allTx.lookup h = some q ↔
    w.allTx.lookup h = some q ∧ ¬ Chain w.Descends q p
  independent : ∀ q ∈ w'.transactions, ∀ s, Chain w.Descends s p → ∀ t u,
    w.heap.load q = some t → w.heap.load s = some u → ∀ i ∈ t.inputs, i.txHash ≠ u.txHash

variable {env : Env} {w w' : BRWallet} {p q s : Ptr} {tx t : BRTransaction} {op : WalletOp}
  {now : ℤ} {fuel : ℕ} {h k : UInt256} {F : Ptr → Prop}

/-! ## One removal -/

/-- On a list in descending order the scan finds all dependents at or above the transaction. -/
theorem dependents_complete {qs : List Ptr} {hashes : List UInt256}
    (hdesc : Descending (heightAt w.heap) qs) (hd : w.dependents tx k qs = some hashes)
    (hq : q ∈ qs) (ht : w.heap.load q = some t) (hne : t.txHash ≠ tx.txHash)
    (hi : ∃ i ∈ t.inputs, i.txHash = k) (hle : tx.blockHeight.toNat ≤ heightAt w.heap q) :
    t.txHash ∈ hashes := by
  induction qs generalizing hashes with
  | nil => cases hq
  | cons r qs ih =>
    obtain ⟨hr, hdesc⟩ := List.pairwise_cons.1 hdesc
    obtain ⟨u, hu, hd⟩ := Option.bind_eq_some_iff.1 hd
    have hqr : heightAt w.heap q ≤ heightAt w.heap r := by
      rcases List.mem_cons.1 hq with rfl | hq
      · exact Nat.le_refl _
      · exact hr q hq
    -- so the scan does not stop before it is at `q`
    have hnlt : ¬ u.blockHeight < tx.blockHeight := by
      rw [heightAt_some hu] at hqr
      rw [UInt32.lt_iff_toNat_lt]
      omega
    rw [if_neg hnlt] at hd
    obtain ⟨rest, hrest, hd⟩ := Option.bind_eq_some_iff.1 hd
    rcases List.mem_cons.1 hq with rfl | hq
    · obtain rfl := Option.some.inj (ht.symm.trans hu)
      obtain ⟨i, hit, hik⟩ := hi
      have hdep : t.txHash ≠ tx.txHash ∧ (t.inputs.any fun i => decide (i.txHash = k)) = true :=
        ⟨hne, List.any_eq_true.2 ⟨i, hit, decide_eq_true hik⟩⟩
      rw [if_pos hdep, Option.some.injEq] at hd
      rw [← hd]
      exact List.mem_cons_self
    · have hmem := ih hdesc hrest hq
      split_ifs at hd
      · cases hd
        exact List.mem_cons_of_mem _ hmem
      · cases hd
        exact hmem

theorem Removed.heightAt_eq (hF : Removed w F w') (hq : w'.heap.Live q) :
    heightAt w'.heap q = heightAt w.heap q := by
  obtain ⟨t, ht⟩ := hq
  rw [heightAt_some ht, heightAt_some (hF.heap.load_some ht).1]

theorem Removed.descends (hF : Removed w F w') (hd : w'.Descends q s) : w.Descends q s := by
  obtain ⟨hq, t, ht, i, hi, his⟩ := hd
  exact ⟨((hF.mem q).1 hq).1, t, (hF.heap.load_some ht).1, i, hi, ((hF.lookup _ s).1 his).1⟩

/-- What is left depends on what is left as before. -/
theorem Removed.needs (hF : Removed w F w') (hq : w'.heap.Live q) (hs : ¬ F s) (hn : w.Needs q s) :
    w'.Needs q s := by
  obtain ⟨t, ht, i, hi, his⟩ := hn
  obtain ⟨t', ht'⟩ := hq
  obtain rfl := Option.some.inj ((hF.heap.load_some ht').1.symm.trans ht)
  exact ⟨t', ht', i, hi, (hF.lookup _ s).2 ⟨his, hs⟩⟩

theorem Rising.removed (hw : w.Rising) (hl : w'.Holding) (hF : Removed w F w') : w'.Rising := by
  intro q s hd hs
  rw [hF.heightAt_eq (hl.live q hd.1), hF.heightAt_eq (hl.live s hs)]
  exact hw q s (hF.descends hd) ((hF.mem s).1 hs).1

/-- A transaction without dependents is one that no other listed one spends an output of. -/
theorem no_dependents (hw : w.Holding) (ho : w.Ordered) (hr : w.Rising)
    (hk : w.allTx.lookup k = some p) (hp : w.heap.load p = some tx) (hm : p ∈ w.transactions)
    (hd : w.dependents tx k w.transactions.reverse = some []) (hq : q ∈ w.transactions)
    (hne : q ≠ p) : ¬ w.Needs q p := by
  intro hn
  have hle := hr q p ⟨hq, hn⟩ hm
  obtain ⟨t, ht, i, hi, hip⟩ := hn
  obtain ⟨tx', htx', rfl⟩ := hw.listed.known hk
  obtain rfl := Option.some.inj (htx'.symm.trans hp)
  have hhash : t.txHash ≠ tx'.txHash := by
    intro heq
    have hlook := hw.listed.listed hq ht
    rw [heq, hk, Option.some.injEq] at hlook
    exact hne hlook.symm
  have hik : i.txHash = tx'.txHash := by
    obtain ⟨u, hu, hui⟩ := hw.listed.known hip
    obtain rfl := Option.some.inj (hu.symm.trans hp)
    exact hui.symm
  rw [heightAt_some hp] at hle
  have hmem := dependents_complete (Ordered.descending.1 ho) hd (List.mem_reverse.2 hq) ht hhash
    ⟨i, hi, hik⟩ hle
  cases hmem

/-! ## The removal with the dependents -/

/-- Where heights do not decrease, nothing that is left depends on what was removed. -/
theorem removeTransaction_cleared (hw : w.Holding) (ho : w.Ordered) (hr : w.Rising)
    (h : removeTransaction now fuel w k = some w') : ∃ F, Removed w F w' ∧
      ∀ q ∈ w'.transactions, ∀ s ∈ w.transactions, F s → ¬ w.Needs q s := by
  have hall := removeTransaction_induct
    (P := fun v => v.Holding ∧ v.Ordered ∧ v.Rising ∧ ∃ F, Removed w F v ∧
      ∀ q ∈ v.transactions, ∀ s ∈ w.transactions, F s → ¬ w.Needs q s) ?_
    ⟨hw, ho, hr, _, .refl w, fun _ _ _ _ hF => hF.elim⟩ h
  · exact hall.2.2.2
  · rintro v v' p tx k fuel ⟨hv, hvo, hvr, F, hF, hclear⟩ hk hp hd hstep
    have hv' := hv.removeTx hk hp hstep
    have hG := removeTx_removed hv.listed.filed hk hp hstep
    refine ⟨hv', hvo.removeTx hv.listed hk hp hstep, hvr.removed hv' hG, _, hF.trans hG, ?_⟩
    intro q hq s hs hFs hn
    obtain ⟨hqv, hqp⟩ := (hG.mem q).1 hq
    rcases hFs with hFs | rfl
    · exact hclear q hqv s hs hFs hn
    · have hFs := ((hF.lookup k s).1 hk).2
      have hsv : s ∈ v.transactions := (hF.mem s).2 ⟨hs, hFs⟩
      exact no_dependents hv hvo hvr hk hp hsv hd hqv hqp (hF.needs (hv.live q hqv) hFs hn)

/-- What follows a listed transaction depends on it. -/
theorem Follows.descends (hl : w.Listed) (hp : p ∈ w.transactions) (hc : Chain w.Follows q p) :
    q ∈ w.transactions ∧ Chain w.Descends q p := by
  induction hc using Relation.ReflTransGen.head_induction_on with
  | refl => exact ⟨hp, .refl p⟩
  | @head q s hqs _ ih =>
    obtain ⟨hs, hchain⟩ := ih
    obtain ⟨hq, t, u, ht, hu, -, i, hi, hiu⟩ := hqs
    have hlook := hl.listed hs hu
    exact ⟨hq, hchain.head ⟨hq, t, ht, i, hi, hiu ▸ hlook⟩⟩

/-- Where heights do not decrease, a removal takes out exactly the transaction and what depends
    on it. -/
theorem removeTransaction_closes (hw : w.Holding) (ho : w.Ordered) (hr : w.Rising)
    (hm : p ∈ w.transactions) (hp : w.heap.load p = some tx)
    (h : removeTransaction now fuel w tx.txHash = some w') : w.Closes p w' := by
  have hk := hw.listed.listed hm hp
  obtain ⟨F, hF, hgiven, hdepends⟩ := removeTransaction_takes hw.listed.filed h
  obtain ⟨G, hG, hclear⟩ := removeTransaction_cleared hw ho hr h
  have hFG : ∀ s ∈ w.transactions, F s → G s := by
    intro s hs hFs
    by_contra hGs
    exact ((hF.mem s).1 ((hG.mem s).2 ⟨hs, hGs⟩)).2 hFs
  have hlisted : ∀ s, Chain w.Descends s p → s ∈ w.transactions := by
    intro s hs
    rcases hs.cases with rfl | ⟨b, hsb, -⟩
    · exact hm
    · exact hsb.1
  have hiff : ∀ q, F q ↔ Chain w.Descends q p := by
    intro q
    constructor
    · intro hq
      obtain ⟨p', hk', hchain⟩ := hdepends q hq
      obtain rfl := Option.some.inj (hk.symm.trans hk')
      exact (Follows.descends hw.listed hm hchain).2
    · intro hq
      induction hq using Relation.ReflTransGen.head_induction_on with
      | refl => exact hgiven p hk
      | @head q s hqs hsp ih =>
        -- a child that is left would depend on a removed parent
        by_contra hFq
        have hs := hlisted s hsp
        exact hclear q ((hF.mem q).2 ⟨hqs.1, hFq⟩) s hs (hFG s hs ih) hqs.2
  refine ⟨hF.sublist, fun q => by rw [hF.mem, hiff], fun k q => by rw [hF.lookup, hiff], ?_⟩
  intro q hq s hs t u ht hu i hi heq
  have hsw := hlisted s hs
  refine hclear q hq s hsw (hFG s hsw ((hiff s).2 hs)) ⟨t, ht, i, hi, ?_⟩
  rw [heq]
  exact hw.listed.listed hsw hu

/-! ## Runs -/

/-- Wallets with the same list and heights, whose transactions spend no more known ones. -/
theorem Rising.congr (hw : w.Rising) (ht : w'.transactions = w.transactions)
    (hh : ∀ q ∈ w.transactions, heightAt w'.heap q = heightAt w.heap q)
    (hn : ∀ q ∈ w.transactions, ∀ s ∈ w.transactions, w'.Needs q s → w.Needs q s) :
    w'.Rising := by
  rintro q s ⟨hq, hqs⟩ hs
  rw [ht] at hq hs
  rw [hh q hq, hh s hs]
  exact hw q s ⟨hq, hn q hq s hs hqs⟩ hs

theorem Rising.enlist (hw : w.Rising) (hl : w.Listed) (hp : w.heap.load p = some tx)
    (hr : w.RisesWith tx) {ts : List Ptr} (hi : w.Inserted p tx ts) :
    (w.enlist p tx ts).Rising := by
  have hmem : ∀ q ∈ ts, q = p ∨ q ∈ w.transactions := fun q hq =>
    List.mem_cons.1 (hi.perm.mem_iff.1 hq)
  rintro q s ⟨hq, t, ht, i, hit, his⟩ hs
  show heightAt w.heap s ≤ heightAt w.heap q
  have hlook : (w.allTx.insert tx.txHash p).lookup i.txHash = some s := his
  by_cases heq : i.txHash = tx.txHash
  · rw [heq, AList.lookup_insert, Option.some.injEq] at hlook
    subst hlook
    rw [heightAt_some hp]
    rcases hmem q hq with rfl | hq
    · rw [heightAt_some hp]
    · exact hr.children q ⟨hq, t, ht, i, hit, heq⟩
  · rw [AList.lookup_insert_ne heq] at hlook
    have hsw : s ∈ w.transactions := by
      refine (hmem s hs).resolve_left ?_
      rintro rfl
      obtain ⟨u, hu, hui⟩ := hl.known hlook
      obtain rfl := Option.some.inj (hu.symm.trans hp)
      exact heq hui.symm
    rcases hmem q hq with rfl | hq
    · obtain rfl := Option.some.inj (hp.symm.trans ht)
      rw [heightAt_some hp]
      exact hr.parents i hit s hsw hlook
    · exact hw q s ⟨hq, t, ht, i, hit, hlook⟩ hsw

theorem Rising.updateLoop {hs : List UInt256} {b t : UInt32} {s : Updating} (hw : w.Rising)
    (hreg : w.Registry) (hk : w.KeepsListed hs b t) (hg : w.KeepsRising hs b)
    (hu : Updated w hs b t s) : s.wallet.Rising := by
  obtain ⟨heap, allTx, hf⟩ := hu.fields
  have hts : s.wallet.transactions = w.transactions := by rw [hf]
  have hheight := hu.heightAt hreg hk
  rintro q r ⟨hq, t', ht', i, hi, hir⟩ hr
  rw [hts] at hq hr
  have hd : w.Descends q r := by
    obtain ⟨t₀, ht₀, _, _, rfl⟩ := hu.src ht'
    exact ⟨hq, t₀, ht₀, i, hi, ((hu.lookup _ r).1 hir).1⟩
  obtain ⟨h₁, h₂⟩ := hg q r hd hr
  rw [hheight q hq, hheight r hr]
  rcases hrt : w.touches hs r with _ | _ <;> rcases hqt : w.touches hs q with _ | _
  · exact hw q r hd hr
  · exact h₁ hrt hqt
  · exact h₂ hrt hqt
  · exact le_refl _

/-- A reorg lifts a parent with its children; a parent that stays is not above the height of an
    unconfirmed transaction. -/
theorem Rising.unconfirm {b : UInt32} {ps : List Ptr} {heap : Heap BRTransaction}
    {hs : List UInt256} (hw : w.Rising) (ho : w.Ordered) (hreg : w.Registry) (hg : w.KeepsLast b)
    (hps : w.suffix (fun height => decide (height > b)) = some ps)
    (hu : unconfirm w.heap ps = some (heap, hs)) (hd : w.Descends q s) (hsm : s ∈ w.transactions) :
    heightAt heap s ≤ heightAt heap q :=
  unconfirm_heightAt_le ho hreg hg hps hu hsm hd.1 (hw q s hd hsm)

theorem step_rising (hl : w.Listed) (hreg : w.Registry) (ho : w.Ordered) (hw : w.Rising)
    (hg : closureGuard w op) (h : step env w op w') : w'.Rising := by
  obtain ⟨hog, hrg⟩ := hg
  cases op with
  | alloc tx =>
    obtain rfl := h
    have hload : ∀ q ∈ w.transactions, (w.heap.alloc tx).load q = w.heap.load q :=
      fun q hq => Heap.load_alloc_of_lt tx (hl.old hq)
    refine hw.congr rfl (fun q hq => ?_) fun q hq s _ hs => hs.of_load (fun t ht => ?_) fun _ hk => hk
    · show heightAt (w.heap.alloc tx) q = _
      rw [heightAt, hload q hq, heightAt]
    · exact ⟨t, hload q hq ▸ ht, rfl⟩
  | setCallbacks callbacks =>
    obtain rfl := h
    exact hw
  | registerTransaction now p =>
    obtain ⟨fuel, r, h⟩ := h
    obtain ⟨tx, hp, h⟩ := registerTransaction_cases h
    cases h with
    | added hsigned hn hc ha =>
      obtain ⟨ts, txs, L, ic, ec, aa, cs, hi, -, -, -, -, rfl⟩ := ha.fields
      exact hw.enlist hl hp (hrg tx hp hc tx hp hsigned hn) hi
    | parked _ hn =>
      refine hw.congr rfl (fun _ _ => rfl) ?_
      rintro q hq s hs ⟨t, ht, i, hi, his⟩
      refine ⟨t, ht, i, hi, ?_⟩
      by_cases heq : i.txHash = tx.txHash
      · -- the transaction that is only noted is not listed
        rw [heq, AList.lookup_insert, Option.some.injEq] at his
        exact absurd hs (his ▸ hl.not_mem hp hn)
      · rwa [AList.lookup_insert_ne heq] at his
    | _ => exact hw
  | removeTransaction now h' =>
    obtain ⟨fuel, h⟩ := h
    refine (removeTransaction_invariant (P := fun w => w.Holding ∧ w.Rising) ?_
      ⟨⟨hl, hreg.live⟩, hw⟩ h).2
    intro v v' p tx k fuel hv hk hp hstep
    have hv' := hv.1.removeTx hk hp hstep
    exact ⟨hv', hv.2.removed hv' (removeTx_removed hv.1.listed.filed hk hp hstep)⟩
  | updateTransactions now hs b t =>
    obtain ⟨s, cs, hs, h⟩ := updateTransactions_some h
    have hs : s.wallet.Rising := Rising.updateLoop (w := w.raised b) hw
      ⟨hreg.live, hreg.utxos⟩ hog.1 hrg (updateLoop (w := w.raised b) hl.filed hs).1
    rcases h with ⟨-, rfl⟩ | ⟨-, txs, L, -, -, rfl⟩
    · exact hs
    · exact hs
  | setTxUnconfirmedAfter now b =>
    obtain ⟨ps, heap, hs, hps, hu, h⟩ := setTxUnconfirmedAfter_some h
    have hload : ∀ q t', heap.load q = some t' →
        ∃ t, w.heap.load q = some t ∧ t'.inputs = t.inputs := fun q t' => unconfirm_inputs hu
    have hrise : ∀ q s, q ∈ w.transactions → s ∈ w.transactions → w.Needs q s →
        heightAt heap s ≤ heightAt heap q := fun q s hq hs hn =>
      hw.unconfirm ho hreg hog hps hu ⟨hq, hn⟩ hs
    rcases h with ⟨-, rfl⟩ | ⟨-, txs, L, cs, -, -, rfl⟩
    · exact fun q s hd hs => hrise q s hd.1 hs (hd.2.of_load (hload q) fun _ hk => hk)
    · exact fun q s hd hs => hrise q s hd.1 hs (hd.2.of_load (hload q) fun _ hk => hk)

theorem addTx_rising (hl : w.Listed) (hw : w.Rising) (hg : w.AdmitsHeight p)
    (h : w.addTx fuel p = some w') : w'.Rising := by
  rcases addTx_cases h with rfl | ⟨tx, ts, hp, hsigned, hn, hi, rfl⟩
  · exact hw
  · exact hw.enlist hl hp (hg tx hp hsigned hn) hi

theorem init_rising (h : (closingSystem env).init w) : w.Rising := by
  obtain ⟨w₀, hw₀, htransactions, hheap, hall⟩ := init_admitting h addTx_rising
    fun heap q s hd _ => absurd hd.1 (List.not_mem_nil)
  refine hw₀.congr htransactions.symm (fun q _ => by rw [hheap]) fun q _ s _ hs => ?_
  refine hs.of_load (fun t ht => ⟨t, hheap ▸ ht, rfl⟩) fun k hk => ?_
  rwa [hall]

theorem run_rising (h : (closingSystem env).Run closureGuard w) : w.Rising :=
  h.invariant (J := fun w => w.Listed ∧ w.Registry ∧ w.Ordered)
    (fun h => by
      have h := (run_of_admitting h).mono fun _ _ hg => (show orderGuard _ _ from hg.1)
      exact ⟨run_listed h, run_registry (fun _ _ => orderGuard_registryGuard) h, run_ordered h⟩)
    init_rising fun hj hw hg hs _ => step_rising hj.1 hj.2.1 hj.2.2 hw hg hs

/-- In every run that keeps the heights in order, in the list and along the inputs, a removal ends,
    and takes out exactly the transaction and what depends on it. -/
theorem run_closes (h : (closingSystem env).Run closureGuard w) (hac : Acyclic w.heap)
    (hm : p ∈ w.transactions) (hp : w.heap.load p = some tx) (now : ℤ) :
    ∃ n, ∀ fuel ≥ n, ∃ w', removeTransaction now fuel w tx.txHash = some w' ∧ w.Closes p w' := by
  have hr := run_rising h
  have h := (run_of_admitting h).mono fun _ _ hg => (show orderGuard _ _ from hg.1)
  have hreg := run_registry (fun _ _ => orderGuard_registryGuard) h
  have hw : w.Holding := ⟨run_listed h, hreg.live⟩
  obtain ⟨n, rank, hn, hrank⟩ := hac.ranked
  refine ⟨w.transactions.length * (n + 1) + (n - rank tx.txHash) + n + 1, fun fuel hfuel => ?_⟩
  obtain ⟨w', hw'⟩ := removeTransaction_isSome hn hw hrank hfuel
  exact ⟨w', hw', removeTransaction_closes hw (run_ordered h) hr hm hp hw'⟩

/-- A third transaction, behind the child, is confirmed: the scan for the dependents of the parent
    stops at it, and the child is left. -/
theorem not_run_closes : ¬ ∀ (env : Env) (w : BRWallet) (p : Ptr) (tx : BRTransaction) (now : ℤ),
    (system env).Run (fun _ _ => True) w → p ∈ w.transactions → w.heap.load p = some tx →
      ∃ n, ∀ fuel ≥ n, ∃ w', removeTransaction now fuel w tx.txHash = some w' ∧ w.Closes p w' := by
  intro h
  have hbad : ∃ w, new sampleEnv 100 0
      ⟨[some receipt, some spendsReceipt, some secondReceipt]⟩ [0, 1, 2] = some (some w) ∧
      ∃ w₁, w.updateTransactions 0 [3] 100 0 = some w₁ ∧ w₁.transactions = [0, 1, 2] ∧
        w₁.heap.load 0 = some receipt ∧ w₁.heap.load 1 = some spendsReceipt ∧
        w₁.allTx.lookup 1 = some 0 ∧
        ∀ fuel, ∃ w', removeTransaction 0 (fuel + 1) w₁ 1 = some w' ∧ 1 ∈ w'.transactions :=
    ⟨_, rfl, _, rfl, by decide, rfl, rfl, by decide, fun _ => ⟨_, rfl, by decide⟩⟩
  obtain ⟨w, hw, w₁, hw₁, hts, h0, h1, hlook, hremove⟩ := hbad
  have hinit : (system sampleEnv).init w := ⟨100, 0, _, _, hw⟩
  have hstep : (system sampleEnv).step w (.updateTransactions 0 [3] 100 0) w₁ := hw₁
  have hrun : (system sampleEnv).Run (fun _ _ => True) w₁ := .step (.init hinit) trivial hstep
  obtain ⟨n, hn⟩ := h sampleEnv w₁ 0 receipt 0 hrun (by simp [hts]) h0
  obtain ⟨w', hw', hcloses⟩ := hn (n + 1) (Nat.le_succ n)
  obtain ⟨w₂, hw₂, hleft⟩ := hremove n
  obtain rfl := Option.some.inj (hw'.symm.trans hw₂)
  have hchild : w₁.Descends 1 0 := by
    refine ⟨by simp [hts], spendsReceipt, h1, _, List.mem_cons_self, hlook⟩
  exact ((hcloses.transactions 1).1 hleft).2 (.single hchild)

theorem run_closes_sample : ∃ w, (closingSystem sampleEnv).init w ∧
    ∃ n, ∀ fuel ≥ n, ∃ w', removeTransaction 0 fuel w receipt.txHash = some w' ∧ w.Closes 0 w' := by
  have hinit : ∃ w, (closingSystem sampleEnv).init w ∧ w.transactions = [0, 1] ∧
      w.heap = sampleHeap ∧ ∃ w', w.updateBalance 0 = some w' := by
    refine init_sample ?_ fun v hlist hheap _ => ?_
    · intro tx htx _ _
      obtain rfl := Option.some.inj htx
      exact ⟨by simp [receipt], fun q hq => absurd hq.1 List.not_mem_nil⟩
    · intro tx htx _ _
      rw [hheap] at htx
      obtain rfl := Option.some.inj htx
      refine ⟨fun i _ s hs _ => ?_, fun q hq => ?_⟩
      · rw [hlist, List.mem_singleton] at hs
        rw [hs, hheap]
        exact Nat.le_refl _
      · have hq := hq.1
        rw [hlist, List.mem_singleton] at hq
        rw [hq, hheap]
        exact Nat.le_refl _
  obtain ⟨w, hw, hlist, hheap, -⟩ := hinit
  have hranked : Ranked sampleHeap fun h => if h = 13 then 1 else 0 := by
    rintro h g ⟨p, tx, hp, rfl, i, hi, rfl⟩
    rcases sampleHeap_load hp with ⟨-, rfl⟩ | ⟨-, rfl⟩
    · cases hi
    · rw [List.mem_singleton.1 hi]
      decide
  have hacyclic : Acyclic w.heap := by
    rw [hheap]
    exact hranked.acyclic
  exact ⟨w, hw, run_closes (.init hw) hacyclic (by simp [hlist]) (by rw [hheap]; rfl) 0⟩

end BRWallet

end RavenWallet
