/-
  What `BRWalletRemoveTransaction` takes out of the wallet and frees.

  It first removes the transactions that spend outputs of the one to be removed.

  * `removeTransaction_takes`: with a transaction only those are removed that depend on
    it, directly or through others, and nothing else of the wallet is freed; with an
    unconfirmed one they are unconfirmed (`removeTransaction_drops`);
  * `removeTransaction_isSome`: if no transaction depends on itself, then the
    recursion ends, and it reads no transaction that it has freed.
-/
import Mathlib.Data.FinEnum
import RavenWallet.Lib.Ancestry
import RavenWallet.Wallet.Reorg

namespace RavenWallet

/-! ## Dependence -/

/-- A transaction with hash `h` spends an output of one with hash `g`. -/
def SpendsHash (heap : Heap BRTransaction) (h g : UInt256) : Prop :=
  ∃ p tx, heap.load p = some tx ∧ tx.txHash = h ∧ ∃ i ∈ tx.inputs, i.txHash = g

/-- No transaction depends on itself. -/
def Acyclic (heap : Heap BRTransaction) : Prop := ∀ h, ¬ Relation.TransGen (SpendsHash heap) h h

/-- A transaction is above those that it spends outputs of. -/
def Ranked (heap : Heap BRTransaction) (rank : UInt256 → ℕ) : Prop :=
  ∀ h g, SpendsHash heap h g → rank g < rank h

theorem Acyclic.ranked {heap : Heap BRTransaction} (h : Acyclic heap) :
    ∃ (n : ℕ) (rank : UInt256 → ℕ), (∀ g, rank g < n) ∧ Ranked heap rank := exists_rank h

theorem Ranked.acyclic {heap : Heap BRTransaction} {rank : UInt256 → ℕ} (hr : Ranked heap rank) :
    Acyclic heap := by
  have hlt : ∀ h g, Relation.TransGen (SpendsHash heap) h g → rank g < rank h := by
    intro h g hhg
    induction hhg with
    | single hs => exact hr _ _ hs
    | tail _ hs ih => exact (hr _ _ hs).trans ih
  exact fun h hh => Nat.lt_irrefl _ (hlt h h hh)

/-- The transactions on a heap are those of another one, but for their heights. -/
theorem Ranked.of_load {heap heap' : Heap BRTransaction} {rank : UInt256 → ℕ}
    (h : Ranked heap rank)
    (hload : ∀ p tx', heap'.load p = some tx' →
      ∃ tx, heap.load p = some tx ∧ tx.txHash = tx'.txHash ∧ tx.inputs = tx'.inputs) :
    Ranked heap' rank := by
  rintro a b ⟨p, tx', hp, rfl, i, hi, rfl⟩
  obtain ⟨tx, htx, hhash, hinputs⟩ := hload p tx' hp
  exact h _ _ ⟨p, tx, htx, hhash, i, hinputs ▸ hi, rfl⟩

namespace BRWallet

/-- What the wallet refers to is on the heap. -/
structure Holding (w : BRWallet) : Prop where
  listed : w.Listed
  live : ∀ p ∈ w.transactions, w.heap.Live p

/-- The transaction at `q` is listed and not below that at `p`, and spends an output of it. -/
def Follows (w : BRWallet) (q p : Ptr) : Prop :=
  q ∈ w.transactions ∧ ∃ t tx, w.heap.load q = some t ∧ w.heap.load p = some tx ∧
    tx.blockHeight ≤ t.blockHeight ∧ ∃ i ∈ t.inputs, i.txHash = tx.txHash

/-- The transaction at `q` is listed and unconfirmed, and spends an output of that at `p`. -/
def SpendsFrom (w : BRWallet) (q p : Ptr) : Prop :=
  q ∈ w.transactions ∧ ∃ t tx, w.heap.load q = some t ∧ w.heap.load p = some tx ∧
    TX_UNCONFIRMED ≤ t.blockHeight ∧ ∃ i ∈ t.inputs, i.txHash = tx.txHash

/-- The known transaction with the hash is unconfirmed. -/
def HashUnconfirmed (w : BRWallet) (h : UInt256) : Prop :=
  ∀ p tx, w.allTx.lookup h = some p → w.heap.load p = some tx → TX_UNCONFIRMED ≤ tx.blockHeight

/-- `w'` is `w` without the transactions of which `F` holds, which are freed. -/
structure Removed (w : BRWallet) (F : Ptr → Prop) (w' : BRWallet) : Prop where
  sublist : w'.transactions.Sublist w.transactions
  mem : ∀ q, q ∈ w'.transactions ↔ q ∈ w.transactions ∧ ¬ F q
  lookup : ∀ h q, w'.allTx.lookup h = some q ↔ w.allTx.lookup h = some q ∧ ¬ F q
  heap : Heap.Frees F w.heap w'.heap

/-- The known transaction with hash `h` is removed, and with it only ones that depend on it. -/
def Takes (w : BRWallet) (h : UInt256) (w' : BRWallet) : Prop :=
  ∃ F, Removed w F w' ∧ (∀ p, w.allTx.lookup h = some p → F p) ∧
    ∀ q, F q → ∃ p, w.allTx.lookup h = some p ∧ Chain w.Follows q p

/-- The known transaction with hash `h` is removed, and with it only unconfirmed ones that depend
    on it. -/
def Drops (w : BRWallet) (h : UInt256) (w' : BRWallet) : Prop :=
  ∃ F, Removed w F w' ∧ (∀ p, w.allTx.lookup h = some p → F p) ∧
    ∀ q, F q → ∃ p, w.allTx.lookup h = some p ∧ Chain w.SpendsFrom q p

variable {w w₁ w' : BRWallet} {F G : Ptr → Prop} {now : ℤ} {fuel n : ℕ} {p q : Ptr}
  {tx t : BRTransaction} {h d : UInt256} {hashes : List UInt256} {rank : UInt256 → ℕ}

/-! ## Removed transactions -/

theorem Removed.refl (w : BRWallet) : Removed w (fun _ => False) w where
  sublist := .refl _
  mem _ := (and_iff_left not_false).symm
  lookup _ _ := (and_iff_left not_false).symm
  heap := .refl (fun _ => not_false) _

theorem Removed.trans (h : Removed w F w₁) (h₁ : Removed w₁ G w') :
    Removed w (fun q => F q ∨ G q) w' where
  sublist := h₁.sublist.trans h.sublist
  mem q := by rw [h₁.mem, h.mem, not_or, and_assoc]
  lookup k q := by rw [h₁.lookup, h.lookup, not_or, and_assoc]
  heap := h.heap.trans h₁.heap

theorem Removed.ranked (h : Removed w F w') (hr : Ranked w.heap rank) : Ranked w'.heap rank :=
  hr.of_load fun _ tx' hp => ⟨tx', (h.heap.load_some hp).1, rfl, rfl⟩

theorem Removed.follows (h : Removed w F w') (hs : w'.Follows q p) : w.Follows q p := by
  obtain ⟨hq, t, tx, ht, htx, hheight, hinput⟩ := hs
  exact ⟨((h.mem q).1 hq).1, t, tx, (h.heap.load_some ht).1, (h.heap.load_some htx).1, hheight,
    hinput⟩

theorem Removed.chain (h : Removed w F w') (hc : Chain w'.Follows q p) : Chain w.Follows q p :=
  hc.mono fun _ _ hs => h.follows hs

/-- What follows an unconfirmed transaction is unconfirmed. -/
theorem Follows.spendsFrom (hp : w.heap.load p = some tx) (hun : TX_UNCONFIRMED ≤ tx.blockHeight)
    (hc : Chain w.Follows q p) : Chain w.SpendsFrom q p := by
  have hboth : Chain w.SpendsFrom q p ∧
      ∀ t, w.heap.load q = some t → TX_UNCONFIRMED ≤ t.blockHeight := by
    induction hc using Relation.ReflTransGen.head_induction_on with
    | refl =>
      refine ⟨.refl p, fun t ht => ?_⟩
      obtain rfl := Option.some.inj (hp.symm.trans ht)
      exact hun
    | @head q s hqs _ ih =>
      obtain ⟨hchain, hheight⟩ := ih
      obtain ⟨hq, t, u, ht, hu, hle, hinput⟩ := hqs
      have ht' := UInt32.le_trans (hheight u hu) hle
      refine ⟨hchain.head ⟨hq, t, u, ht, hu, ht', hinput⟩, fun t' ht₂ => ?_⟩
      obtain rfl := Option.some.inj (ht.symm.trans ht₂)
      exact ht'
  exact hboth.1

/-! ## One removal -/

theorem Erased.mem_iff {ts : List Ptr} (hw : w.Filed) (hk : w.allTx.lookup tx.txHash = some p)
    (hp : w.heap.load p = some t) (h : w.Erased tx ts) :
    q ∈ ts ↔ q ∈ w.transactions ∧ q ≠ p := by
  constructor
  · intro hq
    refine ⟨h.sublist.subset hq, ?_⟩
    rintro rfl
    exact hw.not_mem_erased hk hp h hq
  · rintro ⟨hq, hne⟩
    rw [← List.mem_reverse] at hq ⊢
    rcases eraseBack_split h with ⟨a, y, b, hts, hr, hy⟩ | ⟨hr, -⟩
    · have hyl : y ∈ w.transactions := by
        rw [← List.mem_reverse, hts]
        simp
      obtain ⟨t, ht, heq⟩ := Option.map_eq_some_iff.1 hy
      have hky := hw.listed hyl ht
      rw [of_decide_eq_true heq, hk, Option.some.injEq] at hky
      rw [hts, List.mem_append, List.mem_cons, ← hky] at hq
      rw [hr, List.mem_append]
      exact hq.imp_right fun hq => hq.resolve_left hne
    · rw [hr]
      exact hq

theorem Holding.removeTx (hw : w.Holding) (hk : w.allTx.lookup h = some p)
    (hp : w.heap.load p = some tx) (hr : w.removeTx now fuel p tx h = some w') : w'.Holding :=
  ⟨hw.listed.removeTx hk hp hr, (Registry.removeTx hw.listed hk hp hr).live⟩

theorem removeTransaction_holding (hw : w.Holding)
    (hr : removeTransaction now fuel w h = some w') : w'.Holding :=
  removeTransaction_invariant (fun hw hk hp hr => Holding.removeTx hw hk hp hr) hw hr

theorem removeTx_removed (hw : w.Filed) (hk : w.allTx.lookup h = some p)
    (hp : w.heap.load p = some tx) (hr : w.removeTx now fuel p tx h = some w') :
    Removed w (fun q => q = p) w' := by
  obtain ⟨ts, txs, L, cs, he, -, -, rfl⟩ := removeTx_some hr
  obtain rfl := hw.hash hk hp
  refine ⟨he.sublist, ?_, ?_, .free _ _⟩
  · intro q
    exact he.mem_iff hw hk hp
  · intro k q
    show (w.allTx.erase tx.txHash).lookup k = some q ↔ _
    by_cases heq : k = tx.txHash
    · rw [heq, AList.lookup_erase, hk, Option.some.injEq]
      simp [eq_comm]
    · rw [AList.lookup_erase_ne heq]
      refine (and_iff_left_of_imp ?_).symm
      rintro hkq rfl
      exact heq (hw.hash hkq hp).symm

/-! ## The removal with the dependents -/

theorem dependents_mem {qs : List Ptr} (hd : w.dependents tx h qs = some hashes)
    (hm : d ∈ hashes) : ∃ q ∈ qs, ∃ t, w.heap.load q = some t ∧ t.txHash = d ∧
      tx.blockHeight ≤ t.blockHeight ∧ ∃ i ∈ t.inputs, i.txHash = h := by
  induction qs generalizing hashes with
  | nil =>
    cases hd
    cases hm
  | cons q qs ih =>
    obtain ⟨t, ht, hd⟩ := Option.bind_eq_some_iff.1 hd
    by_cases hlt : t.blockHeight < tx.blockHeight
    · rw [if_pos hlt] at hd
      cases hd
      cases hm
    · rw [if_neg hlt] at hd
      obtain ⟨rest, hrest, hd⟩ := Option.bind_eq_some_iff.1 hd
      have hlater : d ∈ rest → ∃ q' ∈ q :: qs, ∃ t, w.heap.load q' = some t ∧ t.txHash = d ∧
          tx.blockHeight ≤ t.blockHeight ∧ ∃ i ∈ t.inputs, i.txHash = h := by
        intro hm
        obtain ⟨q', hq', hrest⟩ := ih hrest hm
        exact ⟨q', List.mem_cons_of_mem _ hq', hrest⟩
      split_ifs at hd with hdep
      · cases hd
        rcases List.mem_cons.1 hm with rfl | hm
        · obtain ⟨i, hi, heq⟩ := List.any_eq_true.1 hdep.2
          exact ⟨q, List.mem_cons_self, t, ht, rfl, UInt32.not_lt.1 hlt, i, hi,
            of_decide_eq_true heq⟩
        · exact hlater hm
      · cases hd
        exact hlater hm

/-- The dependents of a transaction are listed and known. -/
theorem dependents_follows (hw : w.Filed) (hk : w.allTx.lookup h = some p)
    (hp : w.heap.load p = some tx)
    (hd : w.dependents tx h w.transactions.reverse = some hashes) (hm : d ∈ hashes) :
    ∃ q, w.allTx.lookup d = some q ∧ w.Follows q p := by
  obtain ⟨q, hq, t, ht, rfl, hle, i, hi, hih⟩ := dependents_mem hd hm
  rw [List.mem_reverse] at hq
  obtain rfl := hw.hash hk hp
  exact ⟨q, hw.listed hq ht, hq, t, tx, ht, hp, hle, i, hi, hih⟩

/-- A transaction is removed, and with it only those that depend on it. -/
theorem removeTransaction_takes (hw : w.Filed) (hr : removeTransaction now fuel w h = some w') :
    Takes w h w' := by
  induction fuel generalizing w w' h with
  | zero => cases hr
  | succ fuel ih =>
    unfold removeTransaction at hr
    cases hk : w.allTx.lookup h with
    | none =>
      rw [hk] at hr
      cases hr
      refine ⟨fun _ => False, .refl w, ?_, ?_⟩
      · intro p hp
        rw [hk] at hp
        cases hp
      · intro q hq
        exact hq.elim
    | some p =>
      rw [hk] at hr
      simp only [Option.bind_eq_bind, Option.bind_eq_some_iff] at hr
      obtain ⟨tx, hp, hashes, hd, hr⟩ := hr
      split_ifs at hr with hne
      · obtain ⟨w₁, hfold, hr⟩ := Option.bind_eq_some_iff.1 hr
        have hdone : w₁.Filed ∧ ∃ F, Removed w F w₁ ∧ ∀ q, F q → Chain w.Follows q p := by
          refine foldlM_invariant (P := fun v => v.Filed ∧
            ∃ F, Removed w F v ∧ ∀ q, F q → Chain w.Follows q p) ?_ ?_ hfold
          · rintro v d v' hmem ⟨hv, F, hF, hFp⟩ hstep
            obtain ⟨q, hq, hqp⟩ := dependents_follows hw hk hp hd (List.mem_reverse.1 hmem)
            have hv' := removeTransaction_filed hv hstep
            obtain ⟨G, hG, -, hGq⟩ := ih hv hstep
            refine ⟨hv', _, hF.trans hG, ?_⟩
            rintro r (hFr | hGr)
            · exact hFp r hFr
            · obtain ⟨q', hkq, hchain⟩ := hGq r hGr
              obtain rfl := Option.some.inj (hq.symm.trans ((hF.lookup d q').1 hkq).1)
              exact (hF.chain hchain).trans (.single hqp)
          · exact ⟨hw, _, .refl w, fun q hq => hq.elim⟩
        obtain ⟨hw₁, F, hF, hFp⟩ := hdone
        obtain ⟨G, hG, hGh, hGp⟩ := ih hw₁ hr
        refine ⟨_, hF.trans hG, ?_, ?_⟩
        · intro p' hp'
          obtain rfl := Option.some.inj (hk.symm.trans hp')
          by_cases hFq : F p
          · exact Or.inl hFq
          · exact Or.inr (hGh p ((hF.lookup h p).2 ⟨hk, hFq⟩))
        · rintro r (hFr | hGr)
          · exact ⟨p, hk, hFp r hFr⟩
          · obtain ⟨p', hkp, hchain⟩ := hGp r hGr
            exact ⟨p', ((hF.lookup h p').1 hkp).1, hF.chain hchain⟩
      · refine ⟨_, removeTx_removed hw hk hp hr, ?_, ?_⟩
        · intro p' hp'
          exact Option.some.inj (hp'.symm.trans hk)
        · rintro r rfl
          exact ⟨r, hk, .refl r⟩

/-- A transaction that is removed was not freed before. -/
theorem removeTransaction_live (hr : removeTransaction now fuel w h = some w')
    (hk : w.allTx.lookup h = some p) : w.heap.Live p := by
  cases fuel with
  | zero => cases hr
  | succ fuel =>
    unfold removeTransaction at hr
    rw [hk] at hr
    simp only [Option.bind_eq_bind, Option.bind_eq_some_iff] at hr
    obtain ⟨tx, hp, -⟩ := hr
    exact ⟨tx, hp⟩

/-- An unconfirmed transaction is removed, and with it only unconfirmed ones. -/
theorem removeTransaction_drops (hw : w.Filed)
    (hun : w.HashUnconfirmed h) (hr : removeTransaction now fuel w h = some w') :
    Drops w h w' := by
  obtain ⟨F, hF, hgiven, hdepends⟩ := removeTransaction_takes hw hr
  refine ⟨F, hF, hgiven, fun q hq => ?_⟩
  obtain ⟨p, hk, hchain⟩ := hdepends q hq
  obtain ⟨tx, hp⟩ := removeTransaction_live hr hk
  exact ⟨p, hk, Follows.spendsFrom hp (hun p tx hk hp) hchain⟩

/-! ## Enough fuel -/

theorem transactionIsValid_isSome (hl : w.Listed) (hrank : Ranked w.heap rank)
    (htx : ∃ p, w.heap.load p = some tx) (hlt : rank tx.txHash < fuel) :
    ∃ b, w.transactionIsValid fuel tx = some b := by
  induction fuel generalizing tx with
  | zero => exact absurd hlt (Nat.not_lt_zero _)
  | succ fuel ih =>
    obtain ⟨p, hp⟩ := htx
    have hinput : ∀ i ∈ tx.inputs, ∀ t, w.tx? i.txHash = some t →
        ∃ b, w.transactionIsValid fuel t = some b := by
      intro i hi t ht
      obtain ⟨q, hq, hload⟩ := Option.bind_eq_some_iff.1 ht
      obtain ⟨t', ht', heq⟩ := hl.known hq
      obtain rfl := Option.some.inj (ht'.symm.trans hload)
      have hstep := hrank _ _ ⟨p, tx, hp, rfl, i, hi, heq.symm⟩
      exact ih ⟨q, hload⟩ (by omega)
    unfold transactionIsValid
    dsimp only
    split_ifs
    any_goals exact ⟨_, rfl⟩
    all_goals
      refine allM_isSome ?_
      intro i hi
      cases ht : w.tx? i.txHash with
      | none => exact ⟨true, rfl⟩
      | some t => exact hinput i hi t ht

theorem dependents_isSome {qs : List Ptr} (hlive : ∀ q ∈ qs, w.heap.Live q) :
    ∃ hashes, w.dependents tx h qs = some hashes := by
  induction qs with
  | nil => exact ⟨[], rfl⟩
  | cons q qs ih =>
    obtain ⟨t, ht⟩ := hlive q List.mem_cons_self
    obtain ⟨hashes, hrest⟩ := ih fun q' hq' => hlive q' (List.mem_cons_of_mem _ hq')
    rw [dependents, ht]
    simp only [Option.bind_eq_bind, Option.bind_some, hrest]
    split_ifs <;> exact ⟨_, rfl⟩

theorem Holding.delist {ts : List Ptr} (hw : w.Holding) (hk : w.allTx.lookup tx.txHash = some p)
    (he : w.Erased tx ts) : (w.delist tx ts).Holding := by
  refine ⟨hw.listed.delist hk he.sublist (he.not_mem hw.listed hk), ?_⟩
  intro q hq
  exact hw.live q (he.sublist.subset hq)

theorem removeTx_isSome (hw : w.Holding) (hrank : Ranked w.heap rank)
    (hk : w.allTx.lookup h = some p) (hp : w.heap.load p = some tx)
    (hlt : rank tx.txHash < fuel) : ∃ w', w.removeTx now fuel p tx h = some w' := by
  have hkt : w.allTx.lookup tx.txHash = some p := hw.listed.filed.hash hk hp ▸ hk
  have herase : ∃ r, eraseBack (fun q => (w.heap.load q).map fun t => decide (t.txHash = tx.txHash))
      w.transactions.reverse = some r := by
    refine eraseBack_isSome ?_
    intro q hq
    obtain ⟨t, ht⟩ := hw.live q (List.mem_reverse.1 hq)
    exact ⟨_, by rw [ht]; rfl⟩
  obtain ⟨r, hr⟩ := herase
  have hunlist : w.unlist tx = some (w.delist tx r.reverse) := by
    rw [unlist, hr]
    rfl
  have hdelist : (w.delist tx r.reverse).Holding := by
    refine hw.delist hkt ?_
    rw [Erased, List.reverse_reverse]
    exact hr
  obtain ⟨w₂, h₂⟩ := updateBalance_of_live hdelist.listed hdelist.live now
  have hvalid : ∃ b, w₂.transactionIsValid fuel tx = some b := by
    obtain ⟨txs, L, -, -, rfl⟩ := updateBalance_some.1 h₂
    have hranked : Ranked ((w.delist tx r.reverse).setLedger now L).heap rank := hrank
    exact transactionIsValid_isSome hdelist.listed hranked ⟨p, hp⟩ hlt
  have hflags : ∃ f, w₂.deletionFlags fuel tx = some f := by
    obtain ⟨b, hb⟩ := hvalid
    rw [deletionFlags, hb]
    split_ifs <;> exact ⟨_, rfl⟩
  obtain ⟨f, hf⟩ := hflags
  simp only [removeTx, hunlist, h₂, hf, Option.bind_eq_bind, Option.bind_some]
  exact ⟨_, rfl⟩

/-- The recursion ends: each removal is of a higher transaction, or from a shorter list. -/
theorem removeTransaction_isSome (hn : ∀ g, rank g < n) (hw : w.Holding)
    (hrank : Ranked w.heap rank)
    (hle : w.transactions.length * (n + 1) + (n - rank h) + n + 1 ≤ fuel) :
    ∃ w', removeTransaction now fuel w h = some w' := by
  induction fuel generalizing w h with
  | zero => omega
  | succ fuel ih =>
    unfold removeTransaction
    cases hk : w.allTx.lookup h with
    | none => exact ⟨w, rfl⟩
    | some p =>
      obtain ⟨tx, hp, hhash⟩ := hw.listed.known hk
      obtain ⟨hashes, hd⟩ : ∃ hashes, w.dependents tx h w.transactions.reverse = some hashes :=
        dependents_isSome fun q hq => hw.live q (List.mem_reverse.1 hq)
      simp only [hp, hd, Option.bind_eq_bind, Option.bind_some]
      by_cases hne : hashes = []
      · rw [if_neg (not_not.2 hne)]
        refine removeTx_isSome hw hrank hk hp ?_
        have hlt := hn tx.txHash
        omega
      · rw [if_pos hne]
        have hfold : ∃ w₁, hashes.reverse.foldlM (removeTransaction now fuel) w = some w₁ ∧
            w₁.Holding ∧ (∃ F, Removed w F w₁) ∧
            ∀ d ∈ hashes.reverse, w₁.allTx.lookup d = none := by
          refine foldlM_isSome (P := fun done v => v.Holding ∧ (∃ F, Removed w F v) ∧
            ∀ d ∈ done, v.allTx.lookup d = none) ?_ ⟨hw, ⟨_, .refl w⟩, by simp⟩
          rintro done d v hmem ⟨hv, ⟨F, hF⟩, hdone⟩
          obtain ⟨q, hq, hqp⟩ := dependents_follows hw.listed.filed hk hp hd (List.mem_reverse.1 hmem)
          -- the dependent is above the transaction
          have hrise : rank h < rank d := by
            obtain ⟨-, t, tx', ht, htx', -, i, hi, heq⟩ := hqp
            obtain ⟨t', ht', rfl⟩ := hw.listed.known hq
            obtain rfl := Option.some.inj (ht'.symm.trans ht)
            obtain rfl := Option.some.inj (hp.symm.trans htx')
            rw [← hhash]
            exact hrank _ _ ⟨q, t', ht, rfl, i, hi, heq⟩
          have hlen := Nat.mul_le_mul_right (n + 1) hF.sublist.length_le
          have hnd := hn d
          obtain ⟨v', hv'⟩ := ih (h := d) hv (hF.ranked hrank) (by omega)
          obtain ⟨G, hG, hGd, -⟩ := removeTransaction_takes hv.listed.filed hv'
          refine ⟨v', hv', removeTransaction_holding hv hv', ⟨_, hF.trans hG⟩, ?_⟩
          intro d' hd'
          rw [Option.eq_none_iff_forall_ne_some]
          intro r hr
          obtain ⟨hr, hGr⟩ := (hG.lookup d' r).1 hr
          rcases List.mem_append.1 hd' with hd' | hd'
          · rw [hdone d' hd'] at hr
            cases hr
          · rw [List.mem_singleton] at hd'
            exact hGr (hGd r (hd' ▸ hr))
        obtain ⟨w₁, hw₁, hhold, ⟨F, hF⟩, hgone⟩ := hfold
        rw [hw₁, Option.bind_some]
        refine ih hhold (hF.ranked hrank) ?_
        -- a dependent is no longer listed
        obtain ⟨d, hdm⟩ := List.exists_mem_of_ne_nil _ hne
        obtain ⟨q, hq, hqp⟩ := dependents_follows hw.listed.filed hk hp hd hdm
        have hnot : q ∉ w₁.transactions := by
          intro hqm
          have hlook := (hF.lookup d q).2 ⟨hq, ((hF.mem q).1 hqm).2⟩
          rw [hgone d (List.mem_reverse.2 hdm)] at hlook
          cases hlook
        have hshort : w₁.transactions.length < w.transactions.length := by
          refine lt_of_le_of_ne hF.sublist.length_le ?_
          intro heq
          exact hnot (hF.sublist.eq_of_length heq ▸ hqp.1)
        have hlen := Nat.mul_le_mul_right (n + 1) (Nat.succ_le_of_lt hshort)
        rw [Nat.succ_mul] at hlen
        omega

/-! ## The other operations -/

theorem Holding.registerTransaction {env : Env} {r : Bool} (hw : w.Holding)
    (hr : w.registerTransaction env fuel now p = some (w', r)) :
    w'.Holding ∧ w'.heap = w.heap := by
  have hstep : step env w (.registerTransaction now p) w' := ⟨fuel, r, hr⟩
  have hlisted := step_listed hw.listed hstep
  obtain ⟨tx, hp, hcases⟩ := registerTransaction_cases hr
  cases hcases with
  | added _ _ _ ha =>
    obtain ⟨ts, txs, L, ic, ec, aa, cs, -, hreg, hL, -, -, rfl⟩ := ha.fields
    exact ⟨⟨hlisted, (registry_setLedger hreg hL).live⟩, rfl⟩
  | _ => exact ⟨⟨hlisted, hw.live⟩, rfl⟩

theorem keepsListed_unconfirmed (w : BRWallet) (hs : List UInt256) (t : UInt32) :
    w.KeepsListed hs TX_UNCONFIRMED t := by
  intro p _ tx _ _
  simp [frees]

theorem updateLoop_holding {hs : List UInt256} {b t : UInt32} {s : Updating} (hw : w.Holding)
    (hkeep : w.KeepsListed hs b t)
    (hs' : hs.foldlM (updateTx b t) ⟨w.raised b, [], false⟩ = some s) :
    s.wallet.Holding ∧ s.wallet.transactions = w.transactions ∧
      ∀ q, s.wallet.heap.load q = (w.heap.load q).bind (w.updated hs b t q) := by
  have hlisted : (w.raised b).Listed := hw.listed
  have hupdated : Updated (w.raised b) hs b t s := (updateLoop hlisted.filed hs').1
  obtain ⟨heap, allTx, hfields⟩ := hupdated.fields
  have htransactions : s.wallet.transactions = w.transactions := by
    rw [hfields]
    rfl
  refine ⟨⟨?_, ?_⟩, htransactions, hupdated.load⟩
  · exact updateLoop_invariant (P := fun s => s.wallet.Listed) (fun _ hs hu => hs.updateTx hu)
      hlisted hs'
  · intro q hq
    rw [htransactions] at hq
    obtain ⟨tx, htx⟩ := hw.live q hq
    have hload : s.wallet.heap.load q = w.updated hs b t q tx := by
      rw [hupdated.load]
      show (w.heap.load q).bind _ = _
      rw [htx]
      rfl
    rw [Heap.Live, hload, updated]
    by_cases htouch : w.touches hs q = true
    · rw [if_pos htouch, hkeep q hq tx htx htouch]
      exact ⟨_, rfl⟩
    · rw [if_neg htouch]
      exact ⟨_, rfl⟩

theorem Holding.updateIf (hw : w.Holding) (now : ℤ) (needsUpdate : Bool) :
    ∃ w', w.updateIf now needsUpdate = some w' ∧ w'.Holding ∧ w'.transactions = w.transactions ∧
      w'.heap = w.heap := by
  unfold BRWallet.updateIf
  cases needsUpdate with
  | true =>
    obtain ⟨w', hw'⟩ := updateBalance_of_live hw.listed hw.live now
    refine ⟨w', hw', ?_⟩
    obtain ⟨txs, L, -, -, rfl⟩ := updateBalance_some.1 hw'
    exact ⟨⟨hw.listed, hw.live⟩, rfl, rfl⟩
  | false => exact ⟨w, rfl, hw, rfl, rfl⟩

/-- An update does not fail, and frees only known transactions. -/
theorem Holding.updateTransactions {hs : List UInt256} {b t : UInt32} (hw : w.Holding)
    (hkeep : w.KeepsListed hs b t) (now : ℤ) :
    ∃ w', w.updateTransactions now hs b t = some w' ∧ w'.Holding ∧
      w'.transactions = w.transactions ∧
      ∀ q, w'.heap.load q = (w.heap.load q).bind (w.updated hs b t q) := by
  have hlisted : (w.raised b).Listed := hw.listed
  obtain ⟨s, hs'⟩ := updateLoop_isSome hlisted hs b t
  obtain ⟨hloop, htransactions, hload⟩ := updateLoop_holding hw hkeep hs'
  obtain ⟨w₁, hw₁, hhold, hlist, hheap⟩ := hloop.updateIf now s.needsUpdate
  obtain ⟨cs, hcs⟩ := emit_eq w₁ (decide (s.hashes ≠ []) && w₁.callbacks.txUpdated)
    (.txUpdated s.hashes b t)
  refine ⟨{ w₁ with calls := cs }, ?_, ⟨hhold.listed, hhold.live⟩, hlist.trans htransactions, ?_⟩
  · simp only [BRWallet.updateTransactions, raised_eq, hs', hw₁, Option.bind_eq_bind,
      Option.bind_some]
    exact congrArg some hcs
  · intro q
    show w₁.heap.load q = _
    rw [hheap]
    exact hload q

theorem Holding.setTxUnconfirmedAfter {b : UInt32} (hw : w.Holding)
    (hr : w.setTxUnconfirmedAfter now b = some w') :
    w'.Holding ∧ ∀ q, w.heap.Live q → w'.heap.Live q := by
  have hstep : step sampleEnv w (.setTxUnconfirmedAfter now b) w' := hr
  have hlisted := step_listed hw.listed hstep
  obtain ⟨ps, heap, hs, -, hu, h⟩ := setTxUnconfirmedAfter_some hr
  have hlive : ∀ q, w.heap.Live q → heap.Live q := fun _ hq => unconfirm_live hu hq
  rcases h with ⟨-, rfl⟩ | ⟨-, txs, L, cs, -, -, rfl⟩
  · exact ⟨⟨hlisted, fun q hq => hlive q (hw.live q hq)⟩, hlive⟩
  · exact ⟨⟨hlisted, fun q hq => hlive q (hw.live q hq)⟩, hlive⟩

end BRWallet

end RavenWallet
