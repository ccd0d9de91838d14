/-
  Which transactions are listed.

  A transaction is judged once, when it is registered.  An unconfirmed one that
  is foreign then is parked in `allTx`, and neither a parent that arrives later,
  nor a new address, nor a second registration has it judged again.
  `run_noneLost`: in every run in which no registration makes a parked
  transaction belong to the wallet (`memberGuard`), all transactions of the
  wallet are listed, and a registration reports whether its transaction is.
-/
import RavenWallet.Wallet.Update

namespace RavenWallet

namespace BRWallet

/-- Every known transaction that belongs to the wallet is listed. -/
def NoneLost (w : BRWallet) : Prop :=
  ∀ h p tx, w.allTx.lookup h = some p → w.heap.load p = some tx → w.containsTx tx = true →
    p ∈ w.transactions

/-- A transaction with this hash is listed. -/
def Lists (w : BRWallet) (h : UInt256) : Prop :=
  ∃ p ∈ w.transactions, ∃ tx, w.heap.load p = some tx ∧ tx.txHash = h

/-- The addresses that the settled transactions of `txs` pay. -/
def settledAddrs (w : BRWallet) (now : ℤ) (txs : List BRTransaction) : Finset BRAddress :=
  (((w.rules now).run txs).settled.flatMap fun t => BRTxOutput.paidAddrs t.outputs).toFinset

/-- `a` is new to the wallet, and one of the addresses that follow the last used ones once the
    transaction at `p` is listed. -/
def Due (env : Env) (now : ℤ) (w : BRWallet) (p : Ptr) (tx : BRTransaction) (a : BRAddress) :
    Prop :=
  a ∉ w.allAddrs ∧ ∃ ts txs, w.Inserted p tx ts ∧ (w.enlist p tx ts).registered = some txs ∧
    ((∃ c, Grows env true (w.settledAddrs now txs) SEQUENCE_GAP_LIMIT_INTERNAL w.internalChain c ∧
        a ∈ c) ∨
      ∃ c, Grows env false (w.settledAddrs now txs) SEQUENCE_GAP_LIMIT_EXTERNAL w.externalChain c ∧
        a ∈ c)

/-- Listing the transaction `tx` at `p` makes the foreign `t` belong to the wallet: `t` pays a due
    address, or spends a known output that does, or spends an output of `tx` that pays the
    wallet. -/
def Adopts (env : Env) (now : ℤ) (w : BRWallet) (p : Ptr) (tx t : BRTransaction) : Prop :=
  (∃ o ∈ t.outputs, Due env now w p tx o.address) ∨
    (∃ u ∈ t.outpoints, ∃ o, w.output? u = some o ∧ Due env now w p tx o.address) ∨
    ∃ u ∈ t.outpoints, u.hash = tx.txHash ∧ ∃ o, tx.outputs[u.n.toNat]? = some o ∧
      (o.address ∈ w.allAddrs ∨ Due env now w p tx o.address)

/-- A registered transaction is signed and not parked, and if it is listed no parked one becomes
    one of the wallet.  Nothing is removed. -/
def memberGuard (env : Env) (w : BRWallet) : WalletOp → Prop
  | .registerTransaction now p => ∀ tx, w.heap.load p = some tx → tx.isSigned = true ∧
      (∀ q, w.allTx.lookup tx.txHash = some q → q ∈ w.transactions) ∧
      (w.allTx.lookup tx.txHash = none → w.containsTx tx = true → ∀ h q t,
        w.allTx.lookup h = some q → q ∉ w.transactions → w.heap.load q = some t →
          ¬ Adopts env now w p tx t)
  | .removeTransaction _ _ => False
  | _ => True

variable {env : Env} {w w' : BRWallet} {p : Ptr} {tx : BRTransaction} {op : WalletOp} {now : ℤ}

/-- Every address that the wallet holds after it listed `tx` is an old one or due. -/
theorem Added.due (hw : w.AllAddrs) (h : Added env now w p tx w') {a : BRAddress}
    (ha : a ∈ w'.allAddrs) : a ∈ w.allAddrs ∨ Due env now w p tx a := by
  have haa := h.allAddrs hw
  obtain ⟨ts, txs, L, ic, ec, aa, cs, hi, hr, hL, hic, hec, rfl⟩ := h.fields
  by_cases hold : a ∈ w.allAddrs
  · exact Or.inl hold
  have hused : L.usedAddrs = w.settledAddrs now txs := (Ledger.run_refines hL).used
  rw [hused] at hic hec
  unfold AllAddrs at haa
  rw [haa, Finset.mem_union, List.mem_toFinset, List.mem_toFinset] at ha
  refine Or.inr ⟨hold, ts, txs, hi, hr, ?_⟩
  rcases ha with ha | ha
  · exact Or.inl ⟨ic, hic, ha⟩
  · exact Or.inr ⟨ec, hec, ha⟩

theorem tx?_insert (ha : w'.allTx = w.allTx.insert tx.txHash p) (hh : w'.heap = w.heap)
    (hp : w.heap.load p = some tx) (h : UInt256) :
    w'.tx? h = if h = tx.txHash then some tx else w.tx? h := by
  unfold tx?
  rw [ha, hh]
  split_ifs with he
  · rw [he, AList.lookup_insert, Option.bind_some, hp]
  · rw [AList.lookup_insert_ne he]

/-- What the wallet owns after `tx` became known is an output of `tx`, or was owned before but for
    the address. -/
theorem owns_insert (ha : w'.allTx = w.allTx.insert tx.txHash p) (hh : w'.heap = w.heap)
    (hp : w.heap.load p = some tx) {u : UTXO} (ho : w'.Owns u) :
    (u.hash = tx.txHash ∧ ∃ o, tx.outputs[u.n.toNat]? = some o ∧ o.address ∈ w'.allAddrs) ∨
      ∃ o, w.output? u = some o ∧ o.address ∈ w'.allAddrs := by
  obtain ⟨o, ho, hoa⟩ := ho
  unfold output? at ho
  rw [tx?_insert ha hh hp] at ho
  split_ifs at ho with he
  · exact Or.inl ⟨he, o, ho, hoa⟩
  · exact Or.inr ⟨o, ho, hoa⟩

/-- A foreign transaction that belongs to the wallet after `tx` was listed was adopted. -/
theorem Added.adopts (hw : w.AllAddrs) (hp : w.heap.load p = some tx)
    (h : Added env now w p tx w') {t : BRTransaction} (hf : w.containsTx t = false)
    (ht : w'.containsTx t = true) : Adopts env now w p tx t := by
  have hdue : ∀ {a}, a ∈ w'.allAddrs → a ∈ w.allAddrs ∨ Due env now w p tx a :=
    fun ha => h.due hw ha
  have hnot : ¬ ((∃ o ∈ t.outputs, o.address ∈ w.allAddrs) ∨ ∃ u ∈ t.outpoints, w.Owns u) := by
    rw [← containsTx_iff, hf]; exact Bool.false_ne_true
  obtain ⟨ts, txs, L, ic, ec, aa, cs, -, -, -, -, -, hw'⟩ := h.fields
  have hallTx : w'.allTx = w.allTx.insert tx.txHash p := by rw [hw']; rfl
  have hheap : w'.heap = w.heap := by rw [hw']; rfl
  rcases containsTx_iff.1 ht with ⟨o, ho, hoa⟩ | ⟨u, hu, huo⟩
  · rcases hdue hoa with hold | hnew
    · exact absurd (Or.inl ⟨o, ho, hold⟩) hnot
    · exact Or.inl ⟨o, ho, hnew⟩
  · rcases owns_insert hallTx hheap hp huo with ⟨he, o, ho, hoa⟩ | ⟨o, ho, hoa⟩
    · exact Or.inr (Or.inr ⟨u, hu, he, o, ho, hdue hoa⟩)
    · rcases hdue hoa with hold | hnew
      · exact absurd (Or.inr ⟨u, hu, o, ho, hold⟩) hnot
      · exact Or.inr (Or.inl ⟨u, hu, o, ho, hnew⟩)

/-- A foreign transaction that becomes known changes nothing: none of its outputs is owned. -/
theorem containsTx_park (hp : w.heap.load p = some tx) (hf : w.containsTx tx = false)
    {t : BRTransaction}
    (ht : { w with allTx := w.allTx.insert tx.txHash p }.containsTx t = true) :
    w.containsTx t = true := by
  rw [containsTx_iff] at ht ⊢
  rcases ht with ht | ⟨u, hu, huo⟩
  · exact Or.inl ht
  · have hown := @owns_insert w { w with allTx := w.allTx.insert tx.txHash p } p tx rfl rfl hp u huo
    rcases hown with ⟨-, o, ho, hoa⟩ | ⟨o, ho, hoa⟩
    · have hc : w.containsTx tx = true :=
        containsTx_iff.2 (Or.inl ⟨o, List.mem_of_getElem? ho, hoa⟩)
      rw [hf] at hc; cases hc
    · exact Or.inr ⟨u, hu, o, ho, hoa⟩

/-- Heights do not decide what belongs to the wallet. -/
theorem NoneLost.congr (h : w.NoneLost) (hts : w'.transactions = w.transactions)
    (ho : ∀ t, w'.containsTx t = w.containsTx t)
    (hl : ∀ k q t', w'.allTx.lookup k = some q → w'.heap.load q = some t' →
      ∃ t, w.allTx.lookup k = some q ∧ w.heap.load q = some t ∧ t'.inputs = t.inputs ∧
        t'.outputs = t.outputs) : w'.NoneLost := by
  intro k q t' hk hq hc
  obtain ⟨t, hk', hq', hi, hout⟩ := hl k q t' hk hq
  rw [hts]
  refine h k q t hk' hq' ?_
  rw [← ho, ← hc]
  exact (containsTx_congr rfl (fun _ => Iff.rfl) hi hout).symm

/-- Listing `tx` loses none, if it adopts none. -/
theorem Added.noneLost (h : Added env now w p tx w') (ha : w.AllAddrs) (hw : w.NoneLost)
    (hp : w.heap.load p = some tx)
    (hadopt : ∀ k q t, w.allTx.lookup k = some q → q ∉ w.transactions →
      w.heap.load q = some t → ¬ Adopts env now w p tx t) : w'.NoneLost := by
  intro k q t hk hq ht
  obtain ⟨ts, txs, L, ic, ec, aa, cs, hi, -, -, -, -, hw'⟩ := h.fields
  have hmem : ∀ x, x ∈ w'.transactions ↔ x = p ∨ x ∈ w.transactions := by
    intro x
    rw [hw']
    exact hi.perm.mem_iff.trans List.mem_cons
  have hk : (w.allTx.insert tx.txHash p).lookup k = some q := by rw [hw'] at hk; exact hk
  have hq : w.heap.load q = some t := by rw [hw'] at hq; exact hq
  rw [hmem]
  by_cases he : k = tx.txHash
  · rw [he, AList.lookup_insert, Option.some.injEq] at hk
    exact Or.inl hk.symm
  · rw [AList.lookup_insert_ne he] at hk
    refine Or.inr (by_contra fun hnot => ?_)
    refine hadopt k q t hk hnot hq (h.adopts ha hp ?_ ht)
    rw [Bool.eq_false_iff]
    exact fun hct => hnot (hw k q t hk hq hct)

theorem NoneLost.unconfirm {ps : List Ptr} {heap : Heap BRTransaction} {hs : List UInt256}
    {b : UInt32} (hw : w.NoneLost) (hu : BRWallet.unconfirm w.heap ps = some (heap, hs)) :
    { w with blockHeight := b, heap }.NoneLost := by
  have hload : ∀ q, (heap.load q).map BRTransaction.outputs =
      (w.heap.load q).map BRTransaction.outputs := by
    intro q
    rw [unconfirm_load hu q]
    split_ifs
    · rw [Option.map_map]; rfl
    · rfl
  refine hw.congr rfl (fun t => containsTx_congr rfl (owns_congr rfl fun k => ?_) rfl rfl)
    fun k q t' hk hq => ?_
  · unfold tx?
    rcases w.allTx.lookup k with _ | q
    · rfl
    · exact hload q
  · obtain ⟨t, ht, _, rfl⟩ := unconfirm_src hu hq
    exact ⟨t, hk, ht, rfl, rfl⟩

theorem step_noneLost (hl : w.Listed) (ha : w.AllAddrs) (hw : w.NoneLost)
    (hg : memberGuard env w op) (h : step env w op w') : w'.NoneLost := by
  cases op with
  | alloc tx =>
    obtain rfl := h
    have htx : ∀ k, { w with heap := w.heap.alloc tx }.tx? k = w.tx? k := by
      intro k
      unfold tx?
      rcases hk : w.allTx.lookup k with _ | q
      · rfl
      · obtain ⟨t, ht, -⟩ := hl.known hk
        rw [Option.bind_some, Option.bind_some, Heap.load_alloc tx ht, ht]
    refine hw.congr rfl (fun t => containsTx_congr rfl
      (owns_congr rfl fun k => by rw [htx]) rfl rfl) fun k q t' hk hq => ?_
    obtain ⟨t, ht, -⟩ := hl.known hk
    obtain rfl := Option.some.inj ((Heap.load_alloc tx ht).symm.trans hq)
    exact ⟨t, hk, ht, rfl, rfl⟩
  | setCallbacks callbacks => obtain rfl := h; exact hw
  | registerTransaction now p =>
    obtain ⟨fuel, r, h⟩ := h
    obtain ⟨tx, hp, h⟩ := registerTransaction_cases h
    obtain ⟨-, -, hadopt⟩ := hg tx hp
    cases h with
    | added _ hn hc hadd => exact hadd.noneLost ha hw hp (hadopt hn hc)
    | parked _ hn hf _ =>
      intro k q t hk hq ht
      have hct := containsTx_park hp hf ht
      have hk : (w.allTx.insert tx.txHash p).lookup k = some q := hk
      by_cases he : k = tx.txHash
      · rw [he, AList.lookup_insert, Option.some.injEq] at hk
        subst hk
        obtain rfl := Option.some.inj (hp.symm.trans hq)
        rw [hf] at hct; cases hct
      · rw [AList.lookup_insert_ne he] at hk
        exact hw k q t hk hq hct
    | _ => exact hw
  | removeTransaction now h' => exact hg.elim
  | updateTransactions now hs b t =>
    obtain ⟨s, cs, hs, h⟩ := updateTransactions_some h
    obtain ⟨hu, -⟩ := updateLoop (w := w.raised b) hl.filed hs
    have hs : s.wallet.NoneLost := by
      obtain ⟨heap, allTx, hf⟩ := hu.fields
      refine NoneLost.congr (w := w.raised b) hw (by rw [hf]) hu.containsTx fun k q t' hk hq => ?_
      obtain ⟨t₀, hq₀, _, _, rfl⟩ := hu.src hq
      exact ⟨t₀, ((hu.lookup k q).1 hk).1, hq₀, rfl, rfl⟩
    rcases h with ⟨-, rfl⟩ | ⟨-, txs, L, -, -, rfl⟩
    · exact hs
    · exact hs
  | setTxUnconfirmedAfter now b =>
    obtain ⟨ps, heap, hs, -, hu, h⟩ := setTxUnconfirmedAfter_some h
    have hw₁ : { w with blockHeight := b, heap }.NoneLost := hw.unconfirm hu
    rcases h with ⟨-, rfl⟩ | ⟨-, txs, L, cs, -, -, rfl⟩
    · exact hw₁
    · exact hw₁

theorem init_noneLost (h : (system env).init w) : w.NoneLost := by
  obtain ⟨fuel, now, heap, transactions, h⟩ := h
  obtain ⟨w₀, ic, ec, aa, txs, L, h₀, -, -, rfl, -⟩ := new_some h
  have hknown : ∀ k q, w₀.allTx.lookup k = some q → q ∈ w₀.transactions := by
    refine foldlM_invariant (P := fun w => ∀ k q, w.allTx.lookup k = some q → q ∈ w.transactions)
      (fun {v p v'} _ hw h => ?_) (fun k q hk => by cases hk) h₀
    rcases addTx_cases h with rfl | ⟨tx, ts, -, -, -, hi, rfl⟩
    · exact hw
    · intro k q hk
      refine hi.perm.mem_iff.2 (List.mem_cons.2 ?_)
      have hk : (v.allTx.insert tx.txHash p).lookup k = some q := hk
      by_cases he : k = tx.txHash
      · rw [he, AList.lookup_insert, Option.some.injEq] at hk
        exact Or.inl hk.symm
      · rw [AList.lookup_insert_ne he] at hk
        exact Or.inr (hw k q hk)
  exact fun k q _ hk _ _ => hknown k q hk

/-- A registration reports whether the transaction is listed. -/
theorem registerTransaction_lists {fuel : ℕ} {r : Bool} (hl : w.Listed)
    (hg : memberGuard env w (.registerTransaction now p)) (hp : w.heap.load p = some tx)
    (h : w.registerTransaction env fuel now p = some (w', r)) :
    r = true ↔ w'.Lists tx.txHash := by
  obtain ⟨tx', hp', h⟩ := registerTransaction_cases h
  obtain rfl := Option.some.inj (hp.symm.trans hp')
  obtain ⟨hs, hpark, -⟩ := hg tx hp
  have hnot : w.allTx.lookup tx.txHash = none → ¬ w.Lists tx.txHash := by
    rintro hn ⟨q, hq, t, ht, hth⟩
    have hq := hl.listed hq ht
    rw [hth, hn] at hq
    cases hq
  cases h with
  | unsigned hu => rw [hs] at hu; cases hu
  | @known q _ hk =>
    obtain ⟨t, ht, hth⟩ := hl.known hk
    exact iff_of_true rfl ⟨q, hpark q hk, t, ht, hth⟩
  | added _ _ _ hadd =>
    obtain ⟨ts, txs, L, ic, ec, aa, cs, hi, -, -, -, -, rfl⟩ := hadd.fields
    exact iff_of_true rfl ⟨p, hi.perm.mem_iff.2 (by simp), tx, hp, rfl⟩
  | parked _ hn => exact iff_of_false Bool.false_ne_true (hnot hn)
  | ignored _ hn => exact iff_of_false Bool.false_ne_true (hnot hn)

/-- No transaction of the wallet is lost in a run in which no parked transaction comes to belong to
    it, and a registration reports whether its transaction is listed. -/
theorem run_noneLost (h : (system env).Run (memberGuard env) w) :
    w.NoneLost ∧ ∀ {fuel now p tx w' r}, memberGuard env w (.registerTransaction now p) →
      w.heap.load p = some tx → w.registerTransaction env fuel now p = some (w', r) →
      (r = true ↔ w'.Lists tx.txHash) := by
  refine ⟨?_, fun hg hp hr => registerTransaction_lists (run_listed h) hg hp hr⟩
  exact h.invariant (J := fun w => w.Listed ∧ w.AllAddrs)
    (fun h => ⟨run_listed h, run_allAddrs h⟩) init_noneLost
    fun hj hw hg hs _ => step_noneLost hj.1 hj.2 hw hg hs

/-- Spends the output of `receipt`, and pays others. -/
def child : BRTransaction :=
  { txHash := 4, inputs := [{ txHash := 1, index := 0, signature := some [] }]
    outputs := [{ address := [9], amount := 90 }] }

/-- The child is registered before its parent. -/
theorem not_run_noneLost :
    ¬ ∀ (env : Env) (w : BRWallet), (system env).Run (fun _ _ => True) w → w.NoneLost := by
  intro h
  have hbad : ∃ w, new sampleEnv 100 0 ⟨[some child, some receipt]⟩ [] = some (some w) ∧
      ∃ w', w.registerTransaction sampleEnv 100 0 0 = some (w', false) ∧
        ∃ w₂, w'.registerTransaction sampleEnv 100 0 1 = some (w₂, true) ∧
          w₂.allTx.lookup 4 = some 0 ∧ w₂.heap.load 0 = some child ∧
          w₂.containsTx child = true ∧ 0 ∉ w₂.transactions :=
    ⟨_, rfl, _, rfl, _, rfl, by decide, by decide, by decide, by decide⟩
  obtain ⟨w, hw, w', hw', w₂, hw₂, hk, hp, hc, hn⟩ := hbad
  have hinit : (system sampleEnv).init w := ⟨100, 0, _, _, hw⟩
  have hstep : (system sampleEnv).step w (.registerTransaction 0 0) w' := ⟨100, false, hw'⟩
  have hstep₂ : (system sampleEnv).step w' (.registerTransaction 0 1) w₂ := ⟨100, true, hw₂⟩
  have hrun : (system sampleEnv).Run (fun _ _ => True) w₂ :=
    .step (.step (.init hinit) trivial hstep) trivial hstep₂
  exact hn (h sampleEnv w₂ hrun 4 0 child hk hp hc)

/-- No due address is the one that a payment between others is to. -/
theorem not_adopts_foreign (hi : ∀ a ∈ w.internalChain, a ≠ [9])
    (he : ∀ a ∈ w.externalChain, a ≠ [9]) : ¬ Adopts sampleEnv now w p tx foreign := by
  have hderived : ∀ internal k a, sampleEnv.address internal k = some a → a ≠ [9] := by
    rintro internal k a h rfl
    have hlen : 2 = 1 := congrArg List.length (Option.some.inj h)
    cases hlen
  rintro (⟨o, ho, -, ts, txs, -, -, ⟨c, hg, hc⟩ | ⟨c, hg, hc⟩⟩ | ⟨u, hu, -⟩ | ⟨u, hu, -⟩)
  · obtain rfl := List.mem_singleton.1 ho
    exact hg.forall hi (hderived true) _ hc rfl
  · obtain rfl := List.mem_singleton.1 ho
    exact hg.forall he (hderived false) _ hc rfl
  · cases hu
  · cases hu

/-- A payment between others is parked, and then one to the wallet is listed. -/
theorem run_noneLost_receipt : ∃ w₁ w₂ : BRWallet,
    (system sampleEnv).Run (memberGuard sampleEnv) w₂ ∧ w₁.allTx.lookup foreign.txHash = some 0 ∧
    w₁.registerTransaction sampleEnv 100 0 1 = some (w₂, true) ∧ w₂.NoneLost ∧
    w₂.transactions = [1] ∧ w₂.Lists receipt.txHash := by
  have hw : ∃ w, new sampleEnv 100 0 ⟨[some foreign, some receipt]⟩ [] = some (some w) ∧
      w.allTx.entries = [] ∧ w.heap.load 0 = some foreign ∧
      ∃ w₁, w.registerTransaction sampleEnv 100 0 0 = some (w₁, false) ∧
        w₁.allTx.entries = [⟨2, 0⟩] ∧ w₁.heap.load 0 = some foreign ∧
        w₁.heap.load 1 = some receipt ∧ (∀ a ∈ w₁.internalChain, a ≠ [9]) ∧
        (∀ a ∈ w₁.externalChain, a ≠ [9]) ∧
        ∃ w₂, w₁.registerTransaction sampleEnv 100 0 1 = some (w₂, true) ∧ w₂.transactions = [1] :=
    ⟨_, rfl, by decide, by decide, _, rfl, by decide, by decide, by decide, by decide, by decide,
      _, rfl, by decide⟩
  obtain ⟨w, hw, hempty, hp, w₁, hw₁, hknown, hp₁, hq, hi, he, w₂, hw₂, hlist⟩ := hw
  have hnone : ∀ h, w.allTx.lookup h = none := by
    intro h
    rw [AList.lookup, hempty, List.dlookup_nil]
  have hg : memberGuard sampleEnv w (.registerTransaction 0 0) := by
    intro tx htx
    obtain rfl := Option.some.inj (hp.symm.trans htx)
    refine ⟨by decide, fun q hq => ?_, fun _ _ h q t hq => ?_⟩
    · rw [hnone] at hq
      cases hq
    · rw [hnone] at hq
      cases hq
  have hlookup : ∀ h q, w₁.allTx.lookup h = some q → h = 2 ∧ q = 0 := by
    intro h q hq
    rw [AList.lookup, hknown] at hq
    by_cases heq : h = 2
    · subst heq
      exact ⟨rfl, (Option.some.inj hq).symm⟩
    · rw [List.dlookup_cons_ne _ _ heq, List.dlookup_nil] at hq
      cases hq
  have hg₁ : memberGuard sampleEnv w₁ (.registerTransaction 0 1) := by
    intro tx htx
    obtain rfl := Option.some.inj (hq.symm.trans htx)
    refine ⟨by decide, fun q hq => ?_, fun _ _ h q t hq _ ht => ?_⟩
    · obtain ⟨heq, -⟩ := hlookup _ _ hq
      cases heq
    · obtain ⟨-, rfl⟩ := hlookup _ _ hq
      obtain rfl := Option.some.inj (hp₁.symm.trans ht)
      exact not_adopts_foreign hi he
  have hrun₁ : (system sampleEnv).Run (memberGuard sampleEnv) w₁ :=
    .step (.init ⟨100, 0, _, _, hw⟩) hg ⟨100, false, hw₁⟩
  have hrun₂ : (system sampleEnv).Run (memberGuard sampleEnv) w₂ := .step hrun₁ hg₁ ⟨100, true, hw₂⟩
  refine ⟨w₁, w₂, hrun₂, ?_, hw₂, (run_noneLost hrun₂).1, hlist,
    ((run_noneLost hrun₁).2 hg₁ hq hw₂).1 rfl⟩
  rw [AList.lookup, hknown]
  rfl

end BRWallet

end RavenWallet
