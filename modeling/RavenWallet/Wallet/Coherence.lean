/-
  The cached ledger against the one that `_BRWalletUpdateBalance` would compute.

  * `run_coins`: the UTXOs and the balance as a function of the classes of the
    transactions and of the addresses;
  * `run_coherent`: in every run in which an operation that does not recompute the
    ledger leaves its inputs alone (`coherenceGuard`), the cached UTXOs, balance,
    invalid and pending transactions are those of a recomputation.
-/
import RavenWallet.Wallet.Accounting
import RavenWallet.Wallet.Registry
import RavenWallet.Wallet.Membership

namespace RavenWallet

namespace LedgerIn

variable (E : LedgerIn)

/-- The outputs that pay the wallet and were not swept, with their amounts. -/
def coins (c : Classes BRTransaction UTXO UInt256) : List (UTXO × UInt64) :=
  LedgerRules.unspentBy (fun t => E.ownedFrom t.txHash 0 t.outputs) Prod.fst c

theorem coins_fst (c : Classes BRTransaction UTXO UInt256) :
    (E.coins c).map Prod.fst = LedgerRules.unspent E.owned c := by
  unfold coins LedgerRules.unspent LedgerRules.unspentBy owned
  rw [← List.map_flatMap, List.filter_map]
  rfl

variable {E} {E' : LedgerIn}

/-- Only the addresses of the wallet decide what it owns. -/
theorem ownedFrom_congr (ha : E'.allAddrs = E.allAddrs) (hash : UInt256) (j : ℕ)
    (os : List BRTxOutput) : E'.ownedFrom hash j os = E.ownedFrom hash j os := by
  induction os generalizing j with
  | nil => rfl
  | cons o os ih => rw [ownedFrom, ownedFrom, ha, ih]

variable (hsub : E.allAddrs ⊆ E'.allAddrs)
include hsub

theorem ownedFrom_swept {swept : Finset UTXO} (hash : UInt256) (os : List BRTxOutput) (j : ℕ)
    (h : ∀ k o, os[k]? = some o → o.address ∈ E'.allAddrs → o.address ∉ E.allAddrs →
      ⟨hash, UInt32.ofNat (j + k)⟩ ∈ swept) :
    (E'.ownedFrom hash j os).filter (fun c => decide (c.1 ∉ swept)) =
      (E.ownedFrom hash j os).filter fun c => decide (c.1 ∉ swept) := by
  induction os generalizing j with
  | nil => rfl
  | cons o os ih =>
    have ih := ih (j + 1) fun k o' ho' => by
      rw [show j + 1 + k = j + (k + 1) by omega]
      exact h (k + 1) o' (by simpa using ho')
    unfold ownedFrom
    by_cases ha : o.address ≠ []
    · by_cases hold : o.address ∈ E.allAddrs
      · rw [if_pos ⟨ha, hsub hold⟩, if_pos ⟨ha, hold⟩, List.filter_cons, List.filter_cons, ih]
      · rw [if_neg (show ¬ (o.address ≠ [] ∧ o.address ∈ E.allAddrs) from fun h => hold h.2)]
        by_cases hnew : o.address ∈ E'.allAddrs
        · have hs := h 0 o rfl hnew hold
          rw [if_pos ⟨ha, hnew⟩, List.filter_cons_of_neg (by simpa using hs), ih]
        · rw [if_neg (show ¬ (o.address ≠ [] ∧ o.address ∈ E'.allAddrs) from fun h => hnew h.2), ih]
    · rw [if_neg (show ¬ (o.address ≠ [] ∧ o.address ∈ E'.allAddrs) from fun h => ha h.1),
        if_neg (show ¬ (o.address ≠ [] ∧ o.address ∈ E.allAddrs) from fun h => ha h.1), ih]

/-- Addresses that only swept outputs pay add no coins. -/
theorem coins_swept {c : Classes BRTransaction UTXO UInt256}
    (h : ∀ s ∈ c.settled, ∀ k o, s.outputs[k]? = some o → o.address ∈ E'.allAddrs →
      o.address ∉ E.allAddrs → ⟨s.txHash, UInt32.ofNat k⟩ ∈ c.swept) :
    E'.coins c = E.coins c := by
  unfold coins LedgerRules.unspentBy
  rw [List.filter_flatMap, List.filter_flatMap]
  refine List.flatMap_congr fun s hs => ownedFrom_swept hsub s.txHash s.outputs 0 fun k o ho => ?_
  rw [Nat.zero_add]
  exact h s hs k o ho

end LedgerIn

namespace Ledger

variable {E : LedgerIn} {pre : List BRTransaction} {L : Ledger} {tx : BRTransaction}

/-- Pruning takes the amounts of the spent coins off the balance. -/
theorem pruneSpent_wrap (spent : Finset UTXO) {cs : List (UTXO × UInt64)} {b : UInt64}
    (hr : ∀ c ∈ cs, E.amountOf c.1 = some c.2) :
    ∃ b', pruneSpent E wrapSub spent (cs.map Prod.fst) b =
        some ((cs.filter fun c => decide (c.1 ∉ spent)).map Prod.fst, b') ∧
      b' + (cs.map Prod.snd).sum =
        b + ((cs.filter fun c => decide (c.1 ∉ spent)).map Prod.snd).sum := by
  induction cs with
  | nil => exact ⟨b, rfl, rfl⟩
  | cons c cs ih =>
    obtain ⟨b', hb', hsum⟩ := ih fun d hd => hr d (by simp [hd])
    have hc := hr c (by simp)
    by_cases hs : c.1 ∈ spent
    · refine ⟨b' - c.2, ?_, ?_⟩
      · rw [List.map_cons, List.filter_cons_of_neg (by simp [hs])]
        exact pruneSpent_cons.2 ⟨_, b', hb', Or.inl ⟨hs, rfl, c.2, hc, rfl⟩⟩
      · rw [List.map_cons, List.sum_cons, List.filter_cons_of_neg (by simp [hs]), ← hsum]
        grind
    · refine ⟨b', ?_, ?_⟩
      · rw [List.map_cons, List.filter_cons_of_pos (by simp [hs]), List.map_cons]
        exact pruneSpent_cons.2 ⟨_, b', hb', Or.inr ⟨hs, rfl, rfl⟩⟩
      · rw [List.map_cons, List.sum_cons, List.filter_cons_of_pos (by simp [hs]), List.map_cons,
          List.sum_cons]
        grind

theorem excess_wrap (a b : UInt64) : ∃ e, excess wrapSub a b = some e := by
  unfold excess
  split_ifs
  · exact ⟨_, rfl⟩
  · exact ⟨_, rfl⟩

theorem pruneSpent_isSome (spent : Finset UTXO) {us : List UTXO} {b : UInt64}
    (hr : ∀ u ∈ us, ∃ a, E.amountOf u = some a) :
    ∃ us' b', pruneSpent E wrapSub spent us b = some (us', b') := by
  induction us with
  | nil => exact ⟨[], b, rfl⟩
  | cons u us ih =>
    obtain ⟨us', b', h⟩ := ih fun v hv => hr v (by simp [hv])
    obtain ⟨a, ha⟩ := hr u (by simp)
    by_cases hu : u ∈ spent
    · exact ⟨us', b' - a, pruneSpent_cons.2 ⟨us', b', h, Or.inl ⟨hu, rfl, a, ha, rfl⟩⟩⟩
    · exact ⟨u :: us', b', pruneSpent_cons.2 ⟨us', b', h, Or.inr ⟨hu, rfl, rfl⟩⟩⟩

/-- The loop reads only outputs of transactions that it has gone through. -/
theorem run_isSome {txs : List BRTransaction} (hr : ∀ t ∈ txs, E.allTx t.txHash = some t) :
    ∃ L, run E wrapSub txs = some L := by
  induction txs using List.reverseRecOn with
  | nil => exact ⟨{}, rfl⟩
  | append_singleton pre tx ih =>
    obtain ⟨L, hrun⟩ := ih fun t ht => hr t (by simp [ht])
    have hL := run_refines hrun
    rw [run_snoc, hrun, Option.bind_some]
    rcases E.rules.class_cases pre tx with hc | hc | hc
    · exact ⟨_, step_invalid hL hc⟩
    · exact ⟨_, step_pending hL hc⟩
    · have hout : ∀ t ∈ pre ++ [tx], ∀ u ∈ E.owned t, ∃ a, E.amountOf u = some a := by
        intro t ht u hu
        obtain ⟨k, o, ho, -, rfl⟩ := E.mem_owned.1 hu
        -- an index beyond 32 bits names an earlier output
        have hle : (UInt32.ofNat k).toNat ≤ k := by
          rw [UInt32.toNat_ofNat']
          exact Nat.mod_le _ _
        have hk := hle.trans_lt (List.getElem?_eq_some_iff.1 ho).1
        refine ⟨(t.outputs[(UInt32.ofNat k).toNat]).amount, ?_⟩
        simp only [LedgerIn.amountOf, hr t ht, List.getElem?_eq_getElem hk, Option.bind_eq_bind,
          Option.bind_some]
      have hres : ∀ u ∈ L.utxos ++ E.owned tx, ∃ a, E.amountOf u = some a := by
        intro u hu
        rcases List.mem_append.1 hu with hu | hu
        · rw [hL.utxos, LedgerRules.mem_unspent] at hu
          obtain ⟨⟨t, ht, hut⟩, -⟩ := hu
          have ht := (E.rules.settled_sublist pre).subset ht
          exact hout t (by simp [ht]) u hut
        · exact hout tx (by simp) u hu
      obtain ⟨us, b, hp⟩ := pruneSpent_isSome (b := L.balance + E.paid tx)
        (L.spend tx).spentOutputs hres
      obtain ⟨r, hrec⟩ := excess_wrap b L.prevBalance
      obtain ⟨s, hsent⟩ := excess_wrap L.prevBalance b
      exact ⟨_, (step_settles hL hc).trans (settle_some.2 ⟨us, b, r, s, hp, hrec, hsent, rfl⟩)⟩

/-- The loop computes the coins and their sum. -/
theorem run_coins {txs : List BRTransaction} (hr : ∀ t ∈ txs, E.Resolves t) :
    ∃ L, run E wrapSub txs = some L ∧
      L.balance = ((E.coins (E.rules.run txs)).map Prod.snd).sum := by
  induction txs using List.reverseRecOn with
  | nil => exact ⟨{}, rfl, rfl⟩
  | append_singleton pre tx ih =>
    obtain ⟨L, hrun, hbal⟩ := ih fun t ht => hr t (by simp [ht])
    have hL := run_refines hrun
    have hstep : ∀ L', step E wrapSub L tx = some L' → run E wrapSub (pre ++ [tx]) = some L' :=
      fun L' h => by rw [run_snoc, hrun, Option.bind_some, h]
    rcases E.rules.class_cases pre tx with hc | hc | hc
    · refine ⟨_, hstep _ (step_invalid hL hc), ?_⟩
      rw [E.rules.run_invalid hc]
      exact hbal
    · refine ⟨_, hstep _ (step_pending hL hc), ?_⟩
      rw [E.rules.run_pending hc]
      exact hbal
    · have hres : ∀ c ∈ E.coins (E.rules.run pre) ++ E.ownedFrom tx.txHash 0 tx.outputs,
          E.amountOf c.1 = some c.2 := by
        intro c hcm
        rcases List.mem_append.1 hcm with hcm | hcm
        · obtain ⟨t, ht, hct⟩ := List.mem_flatMap.1 (List.mem_filter.1 hcm).1
          have ht := (E.rules.settled_sublist pre).subset ht
          exact LedgerIn.amountOf_ownedFrom (hr t (by simp [ht])) hct
        · exact LedgerIn.amountOf_ownedFrom (hr tx (by simp)) hcm
      have hspent : (L.spend tx).spentOutputs = E.rules.spend (E.rules.run pre) tx := by
        simp [spend, LedgerRules.spend, hL.spent]
      obtain ⟨b, hp, hb⟩ := pruneSpent_wrap (b := L.balance + E.paid tx)
        (E.rules.spend (E.rules.run pre) tx) hres
      obtain ⟨r, hrec⟩ := excess_wrap b L.prevBalance
      obtain ⟨s, hsent⟩ := excess_wrap L.prevBalance b
      rw [List.map_append, LedgerIn.coins_fst, ← hL.utxos, ← hspent] at hp
      have hset : step E wrapSub L tx = _ :=
        (step_settles hL hc).trans (settle_some.2 ⟨_, b, r, s, hp, hrec, hsent, rfl⟩)
      refine ⟨_, hstep _ hset, ?_⟩
      have hcoins : E.coins (E.rules.run (pre ++ [tx])) = _ := E.rules.unspentBy_settles hc
      rw [hcoins]
      rw [List.map_append, List.sum_append, ← hbal] at hb
      have hpaid : E.paid tx = ((E.ownedFrom tx.txHash 0 tx.outputs).map Prod.snd).sum := rfl
      rw [← hpaid] at hb
      show b = _
      unfold LedgerIn.coins at hb
      grind

end Ledger

namespace BRWallet

/-- A recomputation at the clock of the last one would give the same ledger. -/
def Coherent (w : BRWallet) : Prop :=
  ∃ w', w.updateBalance w.updatedAt = some w' ∧ w'.utxos = w.utxos ∧ w'.balance = w.balance ∧
    w'.invalidTx = w.invalidTx ∧ w'.pendingTx = w.pendingTx

/-- The outputs of every transaction on the heap are indexed by 32 bits. -/
def Indexed (w : BRWallet) : Prop :=
  ∀ p tx, w.heap.load p = some tx → tx.outputs.length ≤ 2 ^ 32

/-- Each listed transaction that is unconfirmed once `f` has set the heights is judged at its place
    as before, at the new height of the wallet: it conflicts if it did, and else waits if it did. -/
def KeepsClasses (w : BRWallet) (blockHeight : UInt32) (f : BRTransaction → BRTransaction) : Prop :=
  ∀ txs pre tx post, w.registered = some txs → txs = pre ++ tx :: post →
    (f tx).blockHeight = TX_UNCONFIRMED →
    let c := (w.rules w.updatedAt).run pre
    let R := ({ w with blockHeight }.rules w.updatedAt)
    R.conflicts c (f tx) = (w.rules w.updatedAt).conflicts c tx ∧
      ((w.rules w.updatedAt).conflicts c tx = false →
        R.waits c (f tx) = (w.rules w.updatedAt).waits c tx)

/-- Of the outputs of settled transactions, only swept ones pay a due address. -/
def DueSpent (env : Env) (now : ℤ) (w : BRWallet) (p : Ptr) (tx : BRTransaction) : Prop :=
  ∀ ts txs, w.Inserted p tx ts → (w.enlist p tx ts).registered = some txs →
    ∀ s ∈ ((w.rules now).run txs).settled, ∀ k o, s.outputs[k]? = some o →
      Due env now w p tx o.address → ⟨s.txHash, UInt32.ofNat k⟩ ∈ ((w.rules now).run txs).swept

/-- What an update makes of a listed transaction. -/
def setBlockOf (hs : List UInt256) (b t : UInt32) (tx : BRTransaction) : BRTransaction :=
  if tx.txHash ∈ hs then tx.setBlock b t else tx

/-- An operation recomputes the ledger after all its changes, or they do not matter to it. -/
def coherenceGuard (env : Env) (w : BRWallet) : WalletOp → Prop
  | .registerTransaction now p => w.Indexed ∧ ∀ tx, w.heap.load p = some tx →
      tx.isSigned = true → w.allTx.lookup tx.txHash = none → w.containsTx tx = true →
      DueSpent env now w p tx
  | .updateTransactions _ hs b t => w.Indexed ∧ w.KeepsListed hs b t ∧
      (w.Recomputes hs b t ∨ w.KeepsClasses (w.raised b).blockHeight (setBlockOf hs b t))
  | .setTxUnconfirmedAfter _ b => w.Indexed ∧
      (w.suffix (fun height => decide (height > b)) = some [] → w.KeepsClasses b fun tx => tx)
  | _ => w.Indexed

/-- The coins of the listed transactions `txs`. -/
def coins (w : BRWallet) (now : ℤ) (txs : List BRTransaction) : List (UTXO × UInt64) :=
  (w.ledgerIn now).coins ((w.rules now).run txs)

/-- The invariant: the cache is a function of the listed transactions, the addresses and the
    height. -/
structure Cached (w : BRWallet) (txs : List BRTransaction) : Prop where
  registered : w.registered = some txs
  utxos : w.utxos = (w.coins w.updatedAt txs).map Prod.fst
  balance : w.balance = ((w.coins w.updatedAt txs).map Prod.snd).sum
  invalid : w.invalidTx = ((w.rules w.updatedAt).run txs).invalid
  pending : w.pendingTx = ((w.rules w.updatedAt).run txs).pending

variable {env : Env} {w w' : BRWallet} {p : Ptr} {tx : BRTransaction} {op : WalletOp} {now : ℤ}
  {txs : List BRTransaction}

theorem indexed_of_single (hh : w.heap = ⟨[some tx]⟩) (ht : tx.outputs.length ≤ 2 ^ 32) :
    w.Indexed := by
  intro p t hp
  rw [hh] at hp
  have hlt : p < 1 := Heap.load_lt hp
  obtain rfl : p = 0 := Nat.lt_one_iff.1 hlt
  obtain rfl : tx = t := Option.some.inj hp
  exact ht

theorem resolves (hl : w.Listed) (hi : w.Indexed) (hr : w.registered = some txs) (now : ℤ) :
    ∀ t ∈ txs, (w.ledgerIn now).Resolves t := by
  intro t ht
  obtain ⟨p, hp, hpt⟩ := Heap.mem_of_loadAll hr ht
  refine ⟨?_, hi p t hpt⟩
  show w.tx? t.txHash = some t
  rw [tx?, hl.listed hp hpt, Option.bind_some, hpt]

/-- The ledger can be recomputed as long as no listed transaction was freed. -/
theorem updateBalance_of_live (hl : w.Listed) (hlive : ∀ p ∈ w.transactions, w.heap.Live p)
    (now : ℤ) : ∃ w', w.updateBalance now = some w' := by
  obtain ⟨txs, htxs⟩ := Heap.loadAll_isSome hlive
  have hknown : ∀ t ∈ txs, (w.ledgerIn now).allTx t.txHash = some t := by
    intro t ht
    obtain ⟨p, hp, hpt⟩ := Heap.mem_of_loadAll htxs ht
    show w.tx? t.txHash = some t
    rw [tx?, hl.listed hp hpt, Option.bind_some, hpt]
  obtain ⟨L, hL⟩ := Ledger.run_isSome hknown
  exact ⟨_, updateBalance_some.2 ⟨txs, L, htxs, hL, rfl⟩⟩

/-- A computed ledger is cached as the coins say. -/
theorem cached_setLedger {L : Ledger} (hl : w.Listed) (hi : w.Indexed)
    (hr : w.registered = some txs) (hL : Ledger.run (w.ledgerIn now) wrapSub txs = some L) :
    (w.setLedger now L).Cached txs := by
  obtain ⟨L', hL', hbal⟩ := Ledger.run_coins (resolves hl hi hr now)
  obtain rfl := Option.some.inj (hL.symm.trans hL')
  have href := Ledger.run_refines hL
  exact ⟨hr, by rw [coins, LedgerIn.coins_fst]; exact href.utxos, hbal, href.invalid, href.pending⟩

theorem coins_congr (hb : w'.blockHeight = w.blockHeight) (ha : w'.allAddrs = w.allAddrs)
    (now : ℤ) (txs : List BRTransaction) : w'.coins now txs = w.coins now txs := by
  have hrules : w'.rules now = w.rules now := by
    show LedgerIn.rules ⟨now, w'.blockHeight, w'.allAddrs, w'.tx?⟩ = _
    rw [hb]; rfl
  unfold coins LedgerIn.coins LedgerRules.unspentBy
  rw [hrules]
  congr 1
  exact List.flatMap_congr fun t _ => LedgerIn.ownedFrom_congr ha ..

/-- Wallets with the same list, addresses, heights and cache. -/
theorem Cached.congr (h : w.Cached txs) (hr : w'.registered = w.registered)
    (hb : w'.blockHeight = w.blockHeight) (ha : w'.allAddrs = w.allAddrs)
    (hup : w'.updatedAt = w.updatedAt) (hutxos : w'.utxos = w.utxos)
    (hbal : w'.balance = w.balance) (hinv : w'.invalidTx = w.invalidTx)
    (hpend : w'.pendingTx = w.pendingTx) : w'.Cached txs := by
  have hrules : w'.rules w.updatedAt = w.rules w.updatedAt := by
    show LedgerIn.rules ⟨w.updatedAt, w'.blockHeight, w'.allAddrs, w'.tx?⟩ = _
    rw [hb]; rfl
  refine ⟨hr.trans h.registered, ?_, ?_, ?_, ?_⟩
  · rw [hup, coins_congr hb ha, hutxos]; exact h.utxos
  · rw [hup, coins_congr hb ha, hbal]; exact h.balance
  · rw [hup, hrules, hinv]; exact h.invalid
  · rw [hup, hrules, hpend]; exact h.pending

theorem Cached.coherent (h : w.Cached txs) (hl : w.Listed) (hi : w.Indexed) : w.Coherent := by
  obtain ⟨L, hL, hbal⟩ := Ledger.run_coins (resolves hl hi h.registered w.updatedAt)
  have href := Ledger.run_refines hL
  refine ⟨w.setLedger w.updatedAt L, updateBalance_some.2 ⟨txs, L, h.registered, hL, rfl⟩, ?_, ?_,
    ?_, ?_⟩
  · rw [h.utxos, coins, LedgerIn.coins_fst]; exact href.utxos
  · rw [h.balance]; exact hbal
  · rw [h.invalid]; exact href.invalid
  · rw [h.pending]; exact href.pending

/-! ## Registration -/

theorem Added.subset (hw : w.AllAddrs) (h : Added env now w p tx w') :
    w.allAddrs ⊆ w'.allAddrs := by
  have haa := h.allAddrs hw
  obtain ⟨ts, txs, L, ic, ec, aa, cs, -, -, -, hic, hec, rfl⟩ := h.fields
  unfold AllAddrs at hw haa
  rw [hw, haa]
  refine Finset.union_subset_union (fun a ha => ?_) fun a ha => ?_
  · exact List.mem_toFinset.2 (hic.isPrefix.subset (List.mem_toFinset.1 ha))
  · exact List.mem_toFinset.2 (hec.isPrefix.subset (List.mem_toFinset.1 ha))

theorem Cached.added (hl : w.Listed) (ha : w.AllAddrs) (hi : w.Indexed)
    (hp : w.heap.load p = some tx) (hn : w.allTx.lookup tx.txHash = none)
    (hg : DueSpent env now w p tx) (h : Added env now w p tx w') : ∃ txs, w'.Cached txs := by
  have hsub := h.subset ha
  have hdue : ∀ {a}, a ∈ w'.allAddrs → a ∈ w.allAddrs ∨ Due env now w p tx a := fun h' => h.due ha h'
  obtain ⟨ts, txs, L, ic, ec, aa, cs, hins, hr, hL, -, -, hw'⟩ := h.fields
  have hc : ((w.enlist p tx ts).setLedger now L).Cached txs :=
    cached_setLedger (Listing.enlist hl hp hn hins.perm) hi hr hL
  have hcoins : w'.coins now txs = (w.enlist p tx ts).coins now txs := by
    rw [hw']
    refine LedgerIn.coins_swept (by rw [hw'] at hsub; exact hsub) fun s hs k o ho hnew hold => ?_
    rcases hdue (a := o.address) (by rw [hw']; exact hnew) with h' | h'
    · exact absurd h' hold
    · exact hg ts txs hins hr s hs k o ho h'
  have hup : w'.updatedAt = now := by rw [hw']; rfl
  refine ⟨txs, ?_, ?_, ?_, ?_, ?_⟩
  · rw [hw']; exact hr
  · rw [hup, hcoins, hw']; exact hc.utxos
  · rw [hup, hcoins, hw']; exact hc.balance
  · rw [hw']; exact hc.invalid
  · rw [hw']; exact hc.pending

/-! ## Removal -/

theorem Indexed.removeTx {fuel : ℕ} {h : UInt256} (hi : w.Indexed)
    (h : w.removeTx now fuel p tx h = some w') : w'.Indexed := by
  obtain ⟨ts, txs, L, cs, -, -, -, rfl⟩ := removeTx_some h
  intro q t hq
  exact hi q t (Heap.load_free_some hq).2

theorem Cached.removeTx {fuel : ℕ} {h : UInt256} (hl : w.Listed) (hi : w.Indexed)
    (hk : w.allTx.lookup h = some p) (hp : w.heap.load p = some tx)
    (h : w.removeTx now fuel p tx h = some w') : ∃ txs, w'.Cached txs := by
  obtain ⟨ts, txs, L, cs, he, hr, hL, rfl⟩ := removeTx_some h
  obtain rfl := hl.filed.hash hk hp
  have hn : p ∉ ts := he.not_mem hl hk
  have hc : ((w.delist tx ts).setLedger now L).Cached txs :=
    cached_setLedger (Listing.delist hl hk he.sublist hn) hi hr hL
  have hfree : (w.heap.free p).loadAll ts = w.heap.loadAll ts := by
    refine Heap.loadAll_congr fun q hq => Heap.load_free_ne _ ?_
    rintro rfl
    exact hn hq
  exact ⟨txs, hc.congr (hfree.trans rfl) rfl rfl rfl rfl rfl rfl rfl⟩

/-! ## Heights -/

/-- The coins of the transactions do not change with their heights, if their classes do not. -/
theorem Cached.map {f : BRTransaction → BRTransaction} {b : UInt32} (h : w.Cached txs)
    (hf : ∀ t, (f t).txHash = t.txHash ∧ (f t).outpoints = t.outpoints ∧
      (f t).outputs = t.outputs)
    (hk : w.KeepsClasses b f)
    (hfinal : ∀ pre t post, txs = pre ++ t :: post → (f t).blockHeight ≠ TX_UNCONFIRMED →
      (w.rules w.updatedAt).Settles pre t)
    (hr : w'.registered = some (txs.map f)) (hb : w'.blockHeight = b)
    (ha : w'.allAddrs = w.allAddrs) (hup : w'.updatedAt = w.updatedAt)
    (hutxos : w'.utxos = w.utxos) (hbal : w'.balance = w.balance)
    (hinv : w'.invalidTx = w.invalidTx) (hpend : w'.pendingTx = w.pendingTx) :
    w'.Cached (txs.map f) := by
  have hrules : w'.rules w.updatedAt = ({ w with blockHeight := b }.rules w.updatedAt) := by
    show LedgerIn.rules ⟨w.updatedAt, w'.blockHeight, w'.allAddrs, w'.tx?⟩ = _
    rw [hb]; rfl
  have hrun : (w'.rules w.updatedAt).run (txs.map f) =
      { (w.rules w.updatedAt).run txs with
        settled := ((w.rules w.updatedAt).run txs).settled.map f } := by
    rw [hrules]
    refine LedgerRules.run_map (fun t => (hf t).1) (fun t => (hf t).2.1) fun pre t post hs => ?_
    by_cases hu : (f t).blockHeight = TX_UNCONFIRMED
    · exact hk txs pre t post h.registered hs hu
    · obtain ⟨hc, hw⟩ := hfinal pre t post hs hu
      have hfin : ({ w with blockHeight := b }.rules w.updatedAt).final (f t) = true := by
        simpa using hu
      refine ⟨?_, fun _ => ?_⟩
      · rw [LedgerRules.conflicts, hfin, show (w.rules w.updatedAt).conflicts _ t = false by
          exact Bool.eq_false_iff.2 hc]
        rfl
      · rw [LedgerRules.waits, hfin, show (w.rules w.updatedAt).waits _ t = false by
          exact Bool.eq_false_iff.2 hw]
        rfl
  have hcoins : w'.coins w.updatedAt (txs.map f) = w.coins w.updatedAt txs := by
    unfold coins LedgerIn.coins LedgerRules.unspentBy
    rw [hrun, List.flatMap_map]
    congr 1
    refine List.flatMap_congr fun t _ => ?_
    rw [(hf t).1, (hf t).2.2]
    exact LedgerIn.ownedFrom_congr ha ..
  refine ⟨hr, ?_, ?_, ?_, ?_⟩
  · rw [hup, hcoins, hutxos]; exact h.utxos
  · rw [hup, hcoins, hbal]; exact h.balance
  · rw [hup, hrun, hinv]; exact h.invalid
  · rw [hup, hrun, hpend]; exact h.pending

section
variable {hs : List UInt256} {b t : UInt32} {s : Updating}

/-- A listed transaction that is kept gets the new height if its hash is given. -/
theorem updated_listed (hl : w.Listed) (hk : w.KeepsListed hs b t) (hm : p ∈ w.transactions)
    (hp : w.heap.load p = some tx) : w.updated hs b t p tx = some (setBlockOf hs b t tx) := by
  have htouch := touches_iff hs hl hp (hl.listed hm hp)
  unfold updated setBlockOf
  by_cases ht : w.touches hs p = true
  · rw [if_pos ht, if_pos (htouch.1 ht), hk p hm tx hp ht]; rfl
  · rw [if_neg ht, if_neg (htouch.not.1 ht)]

theorem Updated.registered (hl : w.Listed) (hk : w.KeepsListed hs b t) (hu : Updated w hs b t s)
    (hr : w.registered = some txs) :
    s.wallet.registered = some (txs.map (setBlockOf hs b t)) := by
  obtain ⟨heap, allTx, hf⟩ := hu.fields
  have hts : s.wallet.transactions = w.transactions := by rw [hf]
  unfold BRWallet.registered
  rw [hts]
  refine Heap.loadAll_update (fun p hm tx hp => ?_) hr
  rw [hu.load, hp, Option.bind_some, updated_listed hl hk hm hp]

/-- What an update confirms without a recomputation had settled before. -/
theorem Cached.settles (h : w.Cached txs) (hl : w.Listed) (hk : w.KeepsListed hs b t)
    (hn : ¬ w.Recomputes hs b t) {pre post : List BRTransaction} (hsplit : txs = pre ++ tx :: post)
    (hb : (setBlockOf hs b t tx).blockHeight ≠ TX_UNCONFIRMED) :
    (w.rules w.updatedAt).Settles pre tx := by
  by_cases hopen : tx.blockHeight = TX_UNCONFIRMED
  · -- the update confirms `tx`
    have hm : tx.txHash ∈ hs := by
      by_contra hm
      rw [setBlockOf, if_neg hm] at hb
      exact hb hopen
    rw [setBlockOf, if_pos hm, BRTransaction.setBlock_blockHeight] at hb
    have hch : changes b t tx = true := changes_of_ne fun hs => hb (hs.1 ▸ hopen)
    obtain ⟨p, hp, hpt⟩ := Heap.mem_of_loadAll h.registered (x := tx) (by simp [hsplit])
    have hlookup := hl.listed hp hpt
    have htouch : w.touches hs p = true :=
      List.any_eq_true.2 ⟨tx.txHash, hm, decide_eq_true hlookup⟩
    have hfree := hk p hp tx hpt htouch
    have hc : w.containsTx tx = true := by
      by_contra hc
      simp [frees, hb, hch, hc] at hfree
    have hset : ¬ (tx.txHash ∈ w.pendingTx ∨ tx.txHash ∈ w.invalidTx) := fun hset =>
      hn ⟨tx.txHash, hm, p, tx, hlookup, hpt, hch, hc, hset⟩
    rw [not_or, h.pending, h.invalid] at hset
    exact (LedgerRules.settles_iff (hl.nodup_hashes h.registered) hsplit).2 hset.symm
  · exact LedgerRules.settles_of_final _ (by simpa using hopen) pre

theorem Updated.indexed (hi : w.Indexed) (hu : Updated w hs b t s) : s.wallet.Indexed := by
  intro q tx' hq
  obtain ⟨tx, htx, _, _, rfl⟩ := hu.src hq
  exact hi q tx htx

/-- The loop of an update leaves the cache in place, if it notes no recomputation. -/
theorem Cached.updateLoop (h : w.Cached txs) (hl : w.Listed) (hk : w.KeepsListed hs b t)
    (hg : w.Recomputes hs b t ∨ w.KeepsClasses (w.raised b).blockHeight (setBlockOf hs b t))
    (hu : Updated (w.raised b) hs b t s) (hn : ¬ w.Recomputes hs b t) :
    s.wallet.Cached (txs.map (setBlockOf hs b t)) := by
  have hf : ∀ tx, (setBlockOf hs b t tx).txHash = tx.txHash ∧
      (setBlockOf hs b t tx).outpoints = tx.outpoints ∧
      (setBlockOf hs b t tx).outputs = tx.outputs := by
    intro tx
    unfold setBlockOf
    split_ifs
    · exact ⟨rfl, rfl, rfl⟩
    · exact ⟨rfl, rfl, rfl⟩
  have hr : s.wallet.registered = some (txs.map (setBlockOf hs b t)) :=
    Updated.registered (w := w.raised b) hl hk hu h.registered
  have hclasses := hg.resolve_left hn
  obtain ⟨heap, allTx, hw⟩ := hu.fields
  refine h.map hf hclasses (fun pre tx post => h.settles hl hk hn) hr ?_ ?_ ?_ ?_ ?_ ?_ ?_
  · exact congrArg (fun w => w.blockHeight) hw
  · exact congrArg (fun w => w.allAddrs) hw
  · exact congrArg (fun w => w.updatedAt) hw
  · exact congrArg (fun w => w.utxos) hw
  · exact congrArg (fun w => w.balance) hw
  · exact congrArg (fun w => w.invalidTx) hw
  · exact congrArg (fun w => w.pendingTx) hw

end

theorem unconfirm_indexed {heap : Heap BRTransaction} {hashes : List UInt256} {ps : List Ptr}
    {b : UInt32} (hi : w.Indexed) (hu : unconfirm w.heap ps = some (heap, hashes)) :
    { w with blockHeight := b, heap }.Indexed := by
  intro q tx hq
  obtain ⟨tx₀, hq₀, _, rfl⟩ := unconfirm_src hu hq
  exact hi q tx₀ hq₀

/-! ## Runs -/

theorem step_cached (hl : w.Listed) (ha : w.AllAddrs) (hw : w.Indexed → ∃ txs, w.Cached txs)
    (hg : coherenceGuard env w op) (h : step env w op w') : ∃ txs, w'.Cached txs := by
  cases op with
  | alloc tx =>
    obtain rfl := h
    obtain ⟨txs, hc⟩ := hw hg
    refine ⟨txs, hc.congr ?_ rfl rfl rfl rfl rfl rfl rfl⟩
    exact Heap.loadAll_congr fun q hq => Heap.load_alloc_of_lt tx (hl.old hq)
  | setCallbacks callbacks =>
    obtain rfl := h
    obtain ⟨txs, hc⟩ := hw hg
    exact ⟨txs, hc.congr rfl rfl rfl rfl rfl rfl rfl rfl⟩
  | registerTransaction now p =>
    obtain ⟨fuel, r, h⟩ := h
    obtain ⟨tx, hp, h⟩ := registerTransaction_cases h
    obtain ⟨hi, hg⟩ := hg
    obtain ⟨txs, hc⟩ := hw hi
    cases h with
    | added hs hn hcon hadd => exact Cached.added hl ha hi hp hn (hg tx hp hs hn hcon) hadd
    | parked => exact ⟨txs, hc.congr rfl rfl rfl rfl rfl rfl rfl rfl⟩
    | _ => exact ⟨txs, hc⟩
  | removeTransaction now h' =>
    obtain ⟨fuel, h⟩ := h
    exact (removeTransaction_invariant
      (P := fun w => w.Listed ∧ w.Indexed ∧ ∃ txs, w.Cached txs)
      (fun hw hk hp h => ⟨hw.1.removeTx hk hp h, hw.2.1.removeTx h,
        Cached.removeTx hw.1 hw.2.1 hk hp h⟩)
      ⟨hl, hg, hw hg⟩ h).2.2
  | updateTransactions now hs b t =>
    obtain ⟨s, cs, hs, h⟩ := updateTransactions_some h
    obtain ⟨hi, hk, hg⟩ := hg
    obtain ⟨txs, hc⟩ := hw hi
    obtain ⟨hu, hneeds⟩ := updateLoop (w := w.raised b) hl.filed hs
    rcases h with ⟨hn, rfl⟩ | ⟨-, txs', L, hr, hL, rfl⟩
    · have hnot : ¬ w.Recomputes _ b t := fun hrec => by
        rw [hneeds hrec] at hn; cases hn
      have hcu := hc.updateLoop hl hk hg hu hnot
      exact ⟨_, hcu.congr rfl rfl rfl rfl rfl rfl rfl rfl⟩
    · have hls : s.wallet.Listed := updateLoop_invariant (P := fun s => s.wallet.Listed)
        (fun _ hs hu => hs.updateTx hu) hl hs
      have hcu := cached_setLedger hls (hu.indexed (w := w.raised b) hi) hr hL
      exact ⟨txs', hcu.congr rfl rfl rfl rfl rfl rfl rfl rfl⟩
  | setTxUnconfirmedAfter now b =>
    obtain ⟨ps, heap, hs, hps, hu, h⟩ := setTxUnconfirmedAfter_some h
    obtain ⟨hi, hg⟩ := hg
    obtain ⟨txs, hc⟩ := hw hi
    rcases h with ⟨rfl, rfl⟩ | ⟨-, txs', L, cs, hr, hL, rfl⟩
    · simp only [unconfirm, Option.some.injEq, Prod.mk.injEq] at hu
      obtain ⟨rfl, -⟩ := hu
      refine ⟨_, hc.map (f := fun tx => tx) (fun _ => ⟨rfl, rfl, rfl⟩) (hg hps)
        (fun pre tx post _ hb => LedgerRules.settles_of_final _ (by simpa using hb) pre)
        ?_ rfl rfl rfl rfl rfl rfl rfl⟩
      rw [List.map_id']
      exact hc.registered
    · have hcu := cached_setLedger (w := { w with blockHeight := b, heap }) (hl.unconfirm hu)
        (unconfirm_indexed hi hu) hr hL
      exact ⟨txs', hcu.congr rfl rfl rfl rfl rfl rfl rfl rfl⟩

theorem init_cached (h : (system env).init w) (hi : w.Indexed) : ∃ txs, w.Cached txs := by
  have hl := init_listed h
  obtain ⟨fuel, now, heap, transactions, h⟩ := h
  obtain ⟨w₀, ic, ec, aa, txs, L, -, hr, hL, rfl, -⟩ := new_some h
  exact ⟨txs, cached_setLedger hl hi hr hL⟩

/-- In every run whose operations recompute the ledger or leave its inputs alone, the cached ledger
    is the one that a recomputation would give. -/
theorem run_coherent (h : (system env).Run (coherenceGuard env) w) (hi : w.Indexed) :
    w.Coherent := by
  have hc : w.Indexed → ∃ txs, w.Cached txs :=
    h.invariant (J := fun w => w.Listed ∧ w.AllAddrs) (fun h => ⟨run_listed h, run_allAddrs h⟩)
      init_cached fun hj hw hg hs _ _ => step_cached hj.1 hj.2 hw hg hs
  obtain ⟨txs, hc⟩ := hc hi
  exact hc.coherent (run_listed h) hi

/-- A payment to the first receive address, and to the first one beyond the gap limit. -/
def farReceipt : BRTransaction :=
  { txHash := 5
    outputs := [{ address := [0, 0], amount := 100 }, { address := [0, 10], amount := 50 }] }

/-- The second output is paid to an address that the registration adds after it recomputed. -/
theorem not_run_coherent :
    ¬ ∀ (env : Env) (w : BRWallet), (system env).Run (fun _ _ => True) w → w.Indexed →
      w.Coherent := by
  intro h
  have hbad : ∃ w, new sampleEnv 100 0 ⟨[some farReceipt]⟩ [] = some (some w) ∧
      ∃ w', w.registerTransaction sampleEnv 100 0 0 = some (w', true) ∧
        w'.heap = ⟨[some farReceipt]⟩ ∧
        ∃ w₂, w'.updateBalance w'.updatedAt = some w₂ ∧ w₂.balance ≠ w'.balance :=
    ⟨_, rfl, _, rfl, by decide, _, rfl, by decide⟩
  obtain ⟨w, hw, w', hw', hheap, w₂, hw₂, hne⟩ := hbad
  have hinit : (system sampleEnv).init w := ⟨100, 0, _, _, hw⟩
  have hstep : (system sampleEnv).step w (.registerTransaction 0 0) w' := ⟨100, true, hw'⟩
  have hrun : (system sampleEnv).Run (fun _ _ => True) w' := .step (.init hinit) trivial hstep
  obtain ⟨w₃, hw₃, -, hbal, -⟩ := h sampleEnv w' hrun (indexed_of_single hheap (by decide))
  obtain rfl := Option.some.inj (hw₂.symm.trans hw₃)
  exact hne hbal

theorem run_coherent_receipt : ∃ w w', (system sampleEnv).init w ∧
    w.registerTransaction sampleEnv 100 0 0 = some (w', true) ∧ w'.Coherent := by
  have hw : ∃ w, new sampleEnv 100 0 ⟨[some receipt]⟩ [] = some (some w) ∧
      w.heap = ⟨[some receipt]⟩ ∧ w.transactions = [] ∧ [0, 0] ∈ w.allAddrs ∧
      ∃ w', w.registerTransaction sampleEnv 100 0 0 = some (w', true) ∧
        w'.heap = ⟨[some receipt]⟩ :=
    ⟨_, rfl, by decide, by decide, by decide, _, rfl, by decide⟩
  obtain ⟨w, hw, hheap, hts, haddr, w', hw', hheap'⟩ := hw
  have hi : w.Indexed := indexed_of_single hheap (by decide)
  have hg : coherenceGuard sampleEnv w (.registerTransaction 0 0) := by
    refine ⟨hi, fun tx hp _ _ _ ts txs hins hr s hs k o ho hdue => ?_⟩
    -- the only output pays an address that the wallet has
    have hperm := hins.perm
    rw [hts, List.perm_singleton] at hperm
    have hs := (LedgerRules.settled_sublist _ txs).subset hs
    obtain ⟨q, hq, hqs⟩ := Heap.mem_of_loadAll hr hs
    have hq : q ∈ ts := hq
    rw [hperm, List.mem_singleton] at hq
    have hqs : w.heap.load q = some s := hqs
    rw [hheap, hq] at hqs
    obtain rfl : receipt = s := Option.some.inj hqs
    have ho : o ∈ receipt.outputs := List.mem_of_getElem? ho
    obtain rfl := List.mem_singleton.1 ho
    exact absurd haddr hdue.1
  have hinit : (system sampleEnv).init w := ⟨100, 0, _, _, hw⟩
  have hstep : (system sampleEnv).step w (.registerTransaction 0 0) w' := ⟨100, true, hw'⟩
  exact ⟨w, w', hinit, hw',
    run_coherent (.step (.init hinit) hg hstep) (indexed_of_single hheap' (by decide))⟩

end BRWallet

end RavenWallet
