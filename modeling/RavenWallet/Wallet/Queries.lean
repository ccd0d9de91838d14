/-
  The queries about a transaction against the classes of the ledger.

  `BRWalletTransactionIsValid` and `BRWalletTransactionIsPending` go back through the
  known parents of a transaction; `_BRWalletUpdateBalance` classes the transactions in
  list order.  Where parents are listed first:

  * `run_validAgrees`: after an update of the balance a listed transaction is in
    `invalidTx` exactly when the query says that it is not valid, and the descendants
    of an invalid one are invalid;
  * `run_pendingAgrees_iff`: the two rules for pending transactions agree exactly when
    their tests of a single transaction do, or an ancestor is held back anyway.
-/
import RavenWallet.Wallet.Parents

namespace RavenWallet

namespace BRWallet

/-! ## Valid transactions -/

/-- The query agrees with the ledger on every listed transaction. -/
def ValidAgrees (w : BRWallet) : Prop :=
  ∀ p ∈ w.transactions, ∀ tx, w.heap.load p = some tx →
    Answers (fun fuel => w.transactionIsValid fuel tx) (decide (tx.txHash ∉ w.invalidTx))

/-- The listed descendants of an invalid transaction are invalid, and none of their outputs is a
    UTXO. -/
def DescendantsInvalid (w : BRWallet) : Prop :=
  ∀ p ∈ w.transactions, ∀ tx, w.heap.load p = some tx → tx.txHash ∈ w.invalidTx →
    ∀ q t, Chain w.Descends q p → w.heap.load q = some t →
      t.txHash ∈ w.invalidTx ∧ ∀ u ∈ w.utxos, u.hash ≠ t.txHash

/-- A listed transaction is confirmed only if its known parents are. -/
def ParentsConfirmed (w : BRWallet) : Prop :=
  ∀ q s, w.Descends q s → ∀ t u, w.heap.load q = some t → w.heap.load s = some u →
    t.blockHeight ≠ TX_UNCONFIRMED → u.blockHeight ≠ TX_UNCONFIRMED

variable {env : Env} {w w' : BRWallet} {p q : Ptr} {tx t u : BRTransaction} {now : ℤ}
  {txs pre post : List BRTransaction}

theorem Listed.tx?_hash (hl : w.Listed) {h : UInt256} (ht : w.tx? h = some t) : t.txHash = h := by
  obtain ⟨s, hs, hst⟩ := Option.bind_eq_some_iff.1 ht
  exact hl.filed.hash hs hst

/-- The registered transactions are those that are listed. -/
theorem Listed.tx?_registered (hl : w.Listed) (hr : w.registered = some txs) (ht : t ∈ txs) :
    w.tx? t.txHash = some t := by
  obtain ⟨p, hp, hpt⟩ := Heap.mem_of_loadAll hr ht
  rw [tx?, hl.listed hp hpt]
  exact hpt

theorem transactionIsValid_succ (ht : w.tx? tx.txHash = some t) (fuel : ℕ) :
    w.transactionIsValid (fuel + 1) tx =
      if tx.blockHeight ≠ TX_UNCONFIRMED then some true
      else if tx.txHash ∉ w.invalidTx then
        tx.inputs.allM fun i =>
          (w.tx? i.txHash).elim (some true) fun u => w.transactionIsValid fuel u
      else some false := by
  obtain ⟨s, hs, -⟩ := Option.bind_eq_some_iff.1 ht
  rw [transactionIsValid, hs]
  simp only [Option.isNone_some, Bool.false_eq_true, if_false, decide_eq_true_eq]
  refine if_congr Iff.rfl rfl (if_congr Iff.rfl ?_ rfl)
  congr 1
  funext i
  cases w.tx? i.txHash <;> rfl

/-- If the search answers for each known parent, then there is enough fuel for all. -/
theorem answers_parents {l : List BRTxInput} {f : BRTransaction → ℕ → Option Bool} (d : Bool)
    {b : BRTransaction → Bool}
    (h : ∀ i ∈ l, ∀ u, w.tx? i.txHash = some u → Answers (f u) (b u)) :
    ∃ n, ∀ fuel ≥ n, ∀ i ∈ l, ((w.tx? i.txHash).elim (some d) fun u => f u fuel) =
      some ((w.tx? i.txHash).elim d b) := by
  refine Answers.uniform (b := fun i : BRTxInput => (w.tx? i.txHash).elim d b)
    (f := fun i fuel => (w.tx? i.txHash).elim (some d) fun u => f u fuel) fun i hi => ?_
  cases hu : w.tx? i.txHash with
  | none => exact ⟨0, fun _ _ => rfl⟩
  | some u => exact h i hi u hu

section
variable (hl : w.Listed) (hr : w.registered = some txs) (hw : w.updateBalance now = some w')
include hl hr hw

theorem invalid_open (h : txs = pre ++ t :: post) (hi : t.txHash ∈ w'.invalidTx) :
    t.blockHeight = TX_UNCONFIRMED := by
  by_contra hc
  have hfinal : (w.rules now).final t = true := decide_eq_true hc
  have hiff := LedgerRules.invalid_iff (R := w.rules now) (hl.nodup_hashes hr) h
  rw [(updateBalance_refines hr hw).2.1] at hi
  exact (LedgerRules.settles_of_final _ hfinal pre).1 (hiff.1 hi)

variable (hf : Founded w.Parent txs)
include hf

theorem invalid_of_parent (h : txs = pre ++ t :: post) (ho : t.blockHeight = TX_UNCONFIRMED)
    (hp : w.Parent t u) (hu : u.txHash ∈ w'.invalidTx) : t.txHash ∈ w'.invalidTx := by
  have hmem : u ∈ pre := hf.before h hp
  obtain ⟨i, hi, hui⟩ := hp
  have hopen : (w.rules now).final t = false := by simp [ho]
  rw [(updateBalance_refines hr hw).2.1] at hu ⊢
  exact LedgerRules.invalid_of_parent (R := w.rules now) (hl.nodup_hashes hr) h hopen hmem
    (List.mem_map_of_mem hi) (hl.tx?_hash hui).symm hu

/-- The query and the ledger agree on a transaction if they agree on its parents. -/
theorem transactionIsValid_answers : ∀ t ∈ txs,
    Answers (fun fuel => w'.transactionIsValid fuel t) (decide (t.txHash ∉ w'.invalidTx)) := by
  have htx : w'.tx? = w.tx? := by
    obtain ⟨_, L, -, -, rfl⟩ := updateBalance_some.1 hw
    rfl
  refine hf.induct fun pre t post h ih => ?_
  have ht : w'.tx? t.txHash = some t := by
    rw [htx]
    exact hl.tx?_registered hr (by simp [h])
  have hsucc := transactionIsValid_succ ht
  by_cases hi : t.txHash ∈ w'.invalidTx
  · rw [decide_eq_false (not_not.2 hi)]
    refine .of_succ (n := 0) fun fuel _ => ?_
    rw [hsucc, if_neg (not_not.2 (invalid_open hl hr hw h hi)), if_neg (not_not.2 hi)]
  rw [decide_eq_true hi]
  by_cases hc : t.blockHeight ≠ TX_UNCONFIRMED
  · refine .of_succ (n := 0) fun fuel _ => ?_
    rw [hsucc, if_pos hc]
  · -- the parents of a valid transaction are valid
    have hparents : ∀ i ∈ t.inputs, ∀ u, w'.tx? i.txHash = some u →
        Answers (fun fuel => w'.transactionIsValid fuel u) true := by
      intro i hit u hu
      rw [htx] at hu
      have hans := (ih u ⟨i, hit, hu⟩).2
      rwa [decide_eq_true] at hans
      exact fun hinv => hi (invalid_of_parent hl hr hw hf h (not_not.1 hc) ⟨i, hit, hu⟩ hinv)
    obtain ⟨n, hn⟩ := answers_parents true hparents
    refine .of_succ (n := n) fun fuel hfuel => ?_
    rw [hsucc, if_neg hc, if_pos hi, allM_some (hn fuel hfuel), Option.some.injEq, List.all_eq_true]
    intro i _
    cases w'.tx? i.txHash <;> rfl

end

theorem validAgrees_of_parentsFirst (hl : w.Listed) (hf : w.ParentsFirst)
    (hw : w.updateBalance now = some w') : w'.ValidAgrees := by
  obtain ⟨txs, L, hr, -, rfl⟩ := updateBalance_some.1 hw
  intro p hp tx htx
  obtain ⟨t, ht, hpt⟩ := Heap.loadAll_mem hr hp
  obtain rfl := Option.some.inj (hpt.symm.trans htx)
  exact transactionIsValid_answers hl hr hw (hf.registered hl hr) t ht

/-- A UTXO is an output of a registered transaction that is neither invalid nor pending. -/
theorem utxo_settled (hl : w.Listed) (hr : w.registered = some txs)
    (hw : w.updateBalance now = some w') {v : UTXO} (hv : v ∈ w'.utxos) :
    ∃ s ∈ txs, s.txHash = v.hash ∧ v ∈ (w.ledgerIn now).owned s ∧ s.txHash ∉ w'.invalidTx ∧
      s.txHash ∉ w'.pendingTx := by
  obtain ⟨-, hinvalid, hpending, hutxos⟩ := updateBalance_refines hr hw
  rw [hutxos, LedgerRules.mem_unspent] at hv
  obtain ⟨⟨s, hs, hvs⟩, -⟩ := hv
  have hsettled := (LedgerRules.mem_settled_iff (R := w.rules now) (hl.nodup_hashes hr)).1 hs
  obtain ⟨hs, hi, hp⟩ := hsettled
  obtain ⟨k, o, -, -, rfl⟩ := (w.ledgerIn now).mem_owned.1 hvs
  exact ⟨s, hs, rfl, hvs, hinvalid ▸ hi, hpending ▸ hp⟩

theorem descendantsInvalid_of_parentsFirst (hl : w.Listed) (hf : w.ParentsFirst)
    (hc : w.ParentsConfirmed) (hw : w.updateBalance now = some w') : w'.DescendantsInvalid := by
  obtain ⟨txs, L, hr, -, hw'⟩ := updateBalance_some.1 hw
  have htransactions : w'.transactions = w.transactions := by rw [hw']; rfl
  have hheap : w'.heap = w.heap := by rw [hw']; rfl
  have hdescends : w'.Descends = w.Descends := by rw [hw']; rfl
  intro p hp tx htx hinv q t hchain ht
  rw [htransactions] at hp
  rw [hheap] at htx ht
  rw [hdescends] at hchain
  have hq : q ∈ w.transactions ∧ ∃ t, w.heap.load q = some t ∧ t.txHash ∈ w'.invalidTx := by
    clear ht
    induction hchain using Relation.ReflTransGen.head_induction_on with
    | refl => exact ⟨hp, tx, htx, hinv⟩
    | @head q s hqs _ ih =>
      -- an invalid transaction is unconfirmed, so its child is unconfirmed and invalid
      obtain ⟨hs, u, hu, huinv⟩ := ih
      obtain ⟨hq, t, ht, i, hi, his⟩ := hqs
      obtain ⟨x, hx, hsx⟩ := Heap.loadAll_mem hr hs
      obtain rfl := Option.some.inj (hsx.symm.trans hu)
      obtain ⟨a, b, hab⟩ := List.append_of_mem hx
      have hopen := invalid_open hl hr hw hab huinv
      have hto : t.blockHeight = TX_UNCONFIRMED := by
        by_contra hn
        exact hc q s ⟨hq, t, ht, i, hi, his⟩ t x ht hu hn hopen
      obtain ⟨y, hy, hqy⟩ := Heap.loadAll_mem hr hq
      obtain rfl := Option.some.inj (hqy.symm.trans ht)
      obtain ⟨a, b, hab⟩ := List.append_of_mem hy
      have hparent : w.Parent y x := ⟨i, hi, by rw [tx?, his]; exact hu⟩
      exact ⟨hq, y, ht, invalid_of_parent hl hr hw (hf.registered hl hr) hab hto hparent huinv⟩
  obtain ⟨-, t', ht', hinv⟩ := hq
  obtain rfl := Option.some.inj (ht'.symm.trans ht)
  refine ⟨hinv, fun v hv heq => ?_⟩
  obtain ⟨s, -, hs, -, hn, -⟩ := utxo_settled hl hr hw hv
  exact hn (hs ▸ heq ▸ hinv)

/-- If no insertion misplaces a transaction, then an update of the balance finds exactly the listed
    transactions invalid of which the query says so.  If no child is confirmed before its parents,
    then all the descendants of an invalid transaction are invalid. -/
theorem run_validAgrees (h : (parentsSystem env).Run parentsGuard w)
    (hw : w.updateBalance now = some w') :
    w'.ValidAgrees ∧ (w.ParentsConfirmed → w'.DescendantsInvalid) := by
  have hl := run_listed (run_of_admitting h)
  have hf := run_parentsFirst h
  exact ⟨validAgrees_of_parentsFirst hl hf hw,
    fun hc => descendantsInvalid_of_parentsFirst hl hf hc hw⟩

/-- A payment from an unknown transaction. -/
def firstSpend : BRTransaction :=
  { txHash := 10, inputs := [{ txHash := 9, index := 0, signature := some [] }]
    outputs := [{ address := [0, 0], amount := 50 }] }

/-- It spends the same output. -/
def doubleSpend : BRTransaction :=
  { txHash := 11, inputs := [{ txHash := 9, index := 0, signature := some [] }]
    outputs := [{ address := [0, 1], amount := 50 }] }

/-- It spends an output of the second one. -/
def spendsDouble : BRTransaction :=
  { txHash := 12, inputs := [{ txHash := 11, index := 0, signature := some [] }]
    outputs := [{ address := [0, 2], amount := 40 }] }

/-- The child is given first; its parent is compared with the transaction behind the child, and
    stays there. -/
theorem not_run_validAgrees : ¬ ∀ (env : Env) (w w' : BRWallet) (now : ℤ),
    (system env).Run (fun _ _ => True) w → w.updateBalance now = some w' →
      w'.ValidAgrees ∧ (w.ParentsConfirmed → w'.DescendantsInvalid) := by
  intro h
  have hbad : ∃ w, new sampleEnv 100 0
      ⟨[some spendsDouble, some firstSpend, some doubleSpend]⟩ [0, 1, 2] = some (some w) ∧
      ∃ w', w.updateBalance 0 = some w' ∧ 0 ∈ w'.transactions ∧
        w'.heap.load 0 = some spendsDouble ∧ spendsDouble.txHash ∉ w'.invalidTx ∧
        ∀ fuel, w'.transactionIsValid (fuel + 2) spendsDouble = some false :=
    ⟨_, rfl, _, rfl, by decide, rfl, by decide, fun _ => rfl⟩
  obtain ⟨w, hw, w', hw', hm, hload, hvalid, hquery⟩ := hbad
  have hinit : (system sampleEnv).init w := ⟨100, 0, _, _, hw⟩
  have hagrees := (h sampleEnv w w' 0 (.init hinit) hw').1 0 hm spendsDouble hload
  have hfalse : Answers (fun fuel => w'.transactionIsValid fuel spendsDouble) false :=
    .of_succ (n := 1) fun fuel hfuel => by
      obtain ⟨fuel, rfl⟩ := Nat.exists_eq_add_of_le' hfuel
      exact hquery fuel
  rw [decide_eq_true hvalid] at hagrees
  cases hagrees.unique hfalse

theorem run_validAgrees_spendsReceipt : ∃ w w', (parentsSystem sampleEnv).init w ∧
    w.updateBalance 0 = some w' ∧ w'.ValidAgrees ∧ (w.ParentsConfirmed → w'.DescendantsInvalid) := by
  obtain ⟨w, hinit, -, -, w', hw'⟩ := init_spendsReceipt
  exact ⟨w, w', hinit, hw', run_validAgrees (.init hinit) hw'⟩

/-! ## Pending transactions -/

/-- The tests that `BRWalletTransactionIsPending` makes of `tx` itself. -/
def postdated (w : BRWallet) (now : ℤ) (tx : BRTransaction) : Bool :=
  decide (tx.size > TX_MAX_SIZE) ||
    tx.inputs.any (fun i => i.sequence < UINT32_MAX - 1 ||
      (i.sequence < UINT32_MAX && tx.lockTime < TX_MAX_LOCK_HEIGHT &&
        tx.lockTime > w.blockHeight + 1) ||
      (i.sequence < UINT32_MAX && decide ((tx.lockTime.toNat : ℤ) > now))) ||
    tx.outputs.any fun o => o.amount < TX_MIN_OUTPUT_AMOUNT

/-- `BRWalletTransactionIsPending` at clock `now`. -/
def transactionIsPending (w : BRWallet) (now : ℤ) : ℕ → BRTransaction → Option Bool
  | 0, _ => none
  | fuel + 1, tx =>
    if tx.blockHeight ≠ TX_UNCONFIRMED then some false
    else if w.postdated now tx then some true
    else tx.inputs.anyM fun i => match w.tx? i.txHash with
      | none => some false
      | some t => transactionIsPending w now fuel t

/-- The tests that the ledger makes of `tx` itself. -/
def heldBack (w : BRWallet) (now : ℤ) (tx : BRTransaction) : Bool := (w.rules now).held tx

/-- An unconfirmed transaction passes the test, or an unconfirmed ancestor of it does. -/
inductive Waits (w : BRWallet) (test : BRTransaction → Bool) : BRTransaction → Prop
  | own {t : BRTransaction} : t.blockHeight = TX_UNCONFIRMED → test t = true → Waits w test t
  | parent {t u : BRTransaction} : t.blockHeight = TX_UNCONFIRMED → w.Parent t u →
      Waits w test u → Waits w test t

/-- A registered unconfirmed transaction that is not invalid. -/
structure ValidUnconfirmed (w : BRWallet) (p : Ptr) (tx : BRTransaction) : Prop where
  listed : p ∈ w.transactions
  load : w.heap.load p = some tx
  unconfirmed : tx.blockHeight = TX_UNCONFIRMED
  valid : tx.txHash ∉ w.invalidTx

/-- The query agrees with the ledger on the valid unconfirmed transactions, and their outputs to
    the wallet that are not spent are UTXOs unless the query says pending. -/
structure PendingAgrees (w : BRWallet) (now : ℤ) : Prop where
  query : ∀ p tx, w.ValidUnconfirmed p tx →
    Answers (fun fuel => w.transactionIsPending now fuel tx) (decide (tx.txHash ∈ w.pendingTx))
  outputs : ∀ p tx, w.ValidUnconfirmed p tx → ∀ u ∈ (w.ledgerIn now).owned tx,
    u ∉ w.spentOutputs →
      (u ∈ w.utxos ↔ Answers (fun fuel => w.transactionIsPending now fuel tx) false)

/-- The two tests of a valid unconfirmed transaction agree, or the ledger holds back an ancestor. -/
def TestsAgree (w : BRWallet) (now : ℤ) : Prop :=
  ∀ p tx, w.ValidUnconfirmed p tx →
    w.heldBack now tx = w.postdated now tx ∨ ∃ u, w.Parent tx u ∧ w.Waits (w.heldBack now) u

theorem transactionIsPending_succ (fuel : ℕ) : w.transactionIsPending now (fuel + 1) tx =
    if tx.blockHeight ≠ TX_UNCONFIRMED then some false
    else if w.postdated now tx then some true
    else tx.inputs.anyM fun i =>
      (w.tx? i.txHash).elim (some false) fun u => w.transactionIsPending now fuel u := by
  rw [transactionIsPending]
  refine if_congr Iff.rfl rfl (if_congr Iff.rfl rfl ?_)
  congr 1
  funext i
  cases w.tx? i.txHash <;> rfl

theorem waits_iff {test : BRTransaction → Bool} : w.Waits test tx ↔
    tx.blockHeight = TX_UNCONFIRMED ∧ (test tx = true ∨ ∃ u, w.Parent tx u ∧ w.Waits test u) := by
  constructor
  · intro h
    cases h with
    | own hu ht => exact ⟨hu, Or.inl ht⟩
    | parent hu hp hw => exact ⟨hu, Or.inr ⟨_, hp, hw⟩⟩
  · rintro ⟨hu, ht | ⟨u, hp, hw⟩⟩
    · exact .own hu ht
    · exact .parent hu hp hw

/-- Where the balance was just recomputed, a recomputation changes nothing. -/
theorem updateBalance_again (hw : w.updateBalance now = some w') :
    w'.updateBalance now = some w' := by
  obtain ⟨txs, L, hr, hL, rfl⟩ := updateBalance_some.1 hw
  exact updateBalance_some.2 ⟨txs, L, hr, hL, rfl⟩

open Classical in
/-- The query finds out whether an unconfirmed ancestor passes its tests. -/
theorem transactionIsPending_answers (hf : Founded w.Parent txs) (now : ℤ) : ∀ t ∈ txs,
    Answers (fun fuel => w.transactionIsPending now fuel t)
      (decide (w.Waits (w.postdated now) t)) := by
  refine hf.induct fun pre t post h ih => ?_
  by_cases hu : t.blockHeight ≠ TX_UNCONFIRMED
  · rw [decide_eq_false fun hw => hu (waits_iff.1 hw).1]
    refine .of_succ (n := 0) fun fuel _ => ?_
    rw [transactionIsPending_succ, if_pos hu]
  by_cases ht : w.postdated now t = true
  · rw [decide_eq_true (.own (not_not.1 hu) ht)]
    refine .of_succ (n := 0) fun fuel _ => ?_
    rw [transactionIsPending_succ, if_neg hu, if_pos ht]
  · obtain ⟨n, hn⟩ := answers_parents (w := w) (l := t.inputs) false
      fun i hi u hu => (ih u ⟨i, hi, hu⟩).2
    refine .of_succ (n := n) fun fuel hfuel => ?_
    rw [transactionIsPending_succ, if_neg hu, if_neg ht, anyM_some (hn fuel hfuel)]
    congr 1
    rw [Bool.eq_iff_iff, decide_eq_true_eq, waits_iff, and_iff_right (not_not.1 hu),
      or_iff_right ht, List.any_eq_true]
    constructor
    · rintro ⟨i, hi, hw⟩
      cases hiu : w.tx? i.txHash with
      | none =>
        rw [hiu] at hw
        cases hw
      | some u =>
        rw [hiu] at hw
        exact ⟨u, ⟨i, hi, hiu⟩, of_decide_eq_true hw⟩
    · rintro ⟨u, ⟨i, hi, hiu⟩, hw⟩
      refine ⟨i, hi, ?_⟩
      rw [hiu]
      exact decide_eq_true hw

theorem ValidUnconfirmed.mem (h : w.ValidUnconfirmed p tx) (hr : w.registered = some txs) :
    tx ∈ txs := by
  obtain ⟨t, ht, hpt⟩ := Heap.loadAll_mem hr h.listed
  obtain rfl := Option.some.inj (hpt.symm.trans h.load)
  exact ht

section
variable (hl : w.Listed) (hr : w.registered = some txs) (hw : w.updateBalance now = some w)
include hl hr hw

/-- An unspent output of a valid transaction is a UTXO unless the transaction is pending. -/
theorem mem_utxos_iff (ht : t ∈ txs) (hv : t.txHash ∉ w.invalidTx) {v : UTXO}
    (hvt : v ∈ (w.ledgerIn now).owned t) (hs : v ∉ w.spentOutputs) :
    v ∈ w.utxos ↔ t.txHash ∉ w.pendingTx := by
  obtain ⟨hspent, hinvalid, hpending, hutxos⟩ := updateBalance_refines hr hw
  constructor
  · intro hu
    obtain ⟨s, -, hhash, -, -, hp⟩ := utxo_settled hl hr hw hu
    obtain ⟨k, o, -, -, rfl⟩ := (w.ledgerIn now).mem_owned.1 hvt
    have hhash : s.txHash = t.txHash := hhash
    rwa [hhash] at hp
  · intro hp
    have hsettled := (LedgerRules.mem_settled_iff (R := w.rules now) (hl.nodup_hashes hr)).2
      ⟨ht, hinvalid ▸ hv, hpending ▸ hp⟩
    rw [hutxos, LedgerRules.mem_unspent]
    refine ⟨⟨t, hsettled, hvt⟩, fun hsw => hs ?_⟩
    rw [hspent]
    exact (w.rules now).swept_sub_spent txs hsw

variable (hf : Founded w.Parent txs)
include hf

/-- The ledger finds out whether an unconfirmed ancestor passes its tests. -/
theorem pending_iff_waits : ∀ t ∈ txs, t.txHash ∉ w.invalidTx →
    (t.txHash ∈ w.pendingTx ↔ w.Waits (w.heldBack now) t) := by
  obtain ⟨-, hinvalid, hpending, -⟩ := updateBalance_refines hr hw
  refine hf.induct fun pre t post h ih hv => ?_
  have hiff := LedgerRules.pending_iff_parent (R := w.rules now) (hl.nodup_hashes hr) h
    (hinvalid ▸ hv)
  have hopen : (w.rules now).final t = false ↔ t.blockHeight = TX_UNCONFIRMED := by simp
  rw [hpending, waits_iff, ← hopen]
  refine hiff.trans (and_congr_right fun hu => or_congr_right ?_)
  rw [← hpending]
  -- the parents of a valid transaction are valid
  have hparent : ∀ u, w.Parent t u → (u.txHash ∈ w.pendingTx ↔ w.Waits (w.heldBack now) u) :=
    fun u hp => (ih u hp).2 fun hi => hv (invalid_of_parent hl hr hw hf h (hopen.1 hu) hp hi)
  constructor
  · rintro ⟨o, ho, s, hs, hid, hsp⟩
    obtain ⟨i, hi, rfl⟩ := List.mem_map.1 ho
    have hp : w.Parent t s := by
      refine ⟨i, hi, ?_⟩
      rw [show i.txHash = s.txHash from hid.symm]
      exact hl.tx?_registered hr (by simp [h, hs])
    exact ⟨s, hp, (hparent s hp).1 hsp⟩
  · rintro ⟨u, hp, hwaits⟩
    have hu := (hparent u hp).2 hwaits
    have hmem := hf.before h hp
    obtain ⟨i, hi, hiu⟩ := hp
    exact ⟨i.outpoint, List.mem_map_of_mem hi, u, hmem, hl.tx?_hash hiu, hu⟩

/-- The waiting parents of a valid transaction are registered and valid. -/
theorem ValidUnconfirmed.parent (h : w.ValidUnconfirmed p tx) (hp : w.Parent tx u)
    {test : BRTransaction → Bool} (hu : w.Waits test u) : ∃ s, w.ValidUnconfirmed s u := by
  obtain ⟨pre, post, hsplit⟩ := List.append_of_mem (h.mem hr)
  have hpre : u ∈ pre := hf.before hsplit hp
  obtain ⟨s, hs, hsu⟩ := Heap.mem_of_loadAll hr (show u ∈ txs by simp [hsplit, hpre])
  refine ⟨s, hs, hsu, (waits_iff.1 hu).1, fun hi => h.valid ?_⟩
  exact invalid_of_parent hl hr hw hf hsplit h.unconfirmed hp hi

theorem query_iff (h : w.ValidUnconfirmed p tx) :
    Answers (fun fuel => w.transactionIsPending now fuel tx) (decide (tx.txHash ∈ w.pendingTx)) ↔
      (w.Waits (w.heldBack now) tx ↔ w.Waits (w.postdated now) tx) := by
  classical
  have hquery := transactionIsPending_answers hf now tx (h.mem hr)
  have hledger := pending_iff_waits hl hr hw hf tx (h.mem hr) h.valid
  constructor
  · intro hq
    rw [← hledger, ← decide_eq_decide]
    exact hq.unique hquery
  · intro heq
    rwa [decide_eq_decide.2 (hledger.trans heq)]

/-- If the two rules agree, then the tests do, or an ancestor is held back. -/
theorem testsAgree_of_pendingAgrees (h : w.PendingAgrees now) : w.TestsAgree now := by
  intro p tx htx
  have hiff := (query_iff hl hr hw hf htx).1 (h.query p tx htx)
  by_cases heq : w.heldBack now tx = w.postdated now tx
  · exact Or.inl heq
  refine Or.inr ?_
  rcases hheld : w.heldBack now tx with _ | _
  · -- only the query holds `tx` back, so the ledger does for an ancestor
    have hpost : w.postdated now tx = true := by
      rw [hheld] at heq
      simpa using (Ne.symm heq)
    have hwaits := (waits_iff.1 (hiff.2 (.own htx.unconfirmed hpost))).2
    rw [hheld] at hwaits
    exact hwaits.resolve_left Bool.false_ne_true
  · have hpost : w.postdated now tx = false := by
      rw [hheld] at heq
      simpa using (Ne.symm heq)
    have hwaits := (waits_iff.1 (hiff.1 (.own htx.unconfirmed hheld))).2
    rw [hpost] at hwaits
    obtain ⟨u, hp, hu⟩ := hwaits.resolve_left Bool.false_ne_true
    obtain ⟨s, hs⟩ := htx.parent hl hr hw hf hp hu
    exact ⟨u, hp, ((query_iff hl hr hw hf hs).1 (h.query s u hs)).2 hu⟩

/-- If the tests agree, or an ancestor is held back, then the same transactions wait. -/
theorem waits_of_testsAgree (h : w.TestsAgree now) : ∀ t ∈ txs, ∀ p, w.ValidUnconfirmed p t →
    (w.Waits (w.heldBack now) t ↔ w.Waits (w.postdated now) t) := by
  refine hf.induct fun pre t post hsplit ih p ht => ?_
  have hparents : (∃ u, w.Parent t u ∧ w.Waits (w.heldBack now) u) ↔
      ∃ u, w.Parent t u ∧ w.Waits (w.postdated now) u := by
    constructor
    · rintro ⟨u, hp, hu⟩
      obtain ⟨s, hs⟩ := ht.parent hl hr hw hf hp hu
      exact ⟨u, hp, ((ih u hp).2 s hs).1 hu⟩
    · rintro ⟨u, hp, hu⟩
      obtain ⟨s, hs⟩ := ht.parent hl hr hw hf hp hu
      exact ⟨u, hp, ((ih u hp).2 s hs).2 hu⟩
  rw [waits_iff, waits_iff, hparents]
  refine and_congr_right fun _ => ?_
  rcases h p t ht with heq | hu
  · rw [heq]
  · exact iff_of_true (Or.inr (hparents.1 hu)) (Or.inr (hparents.1 hu))

theorem pendingAgrees_of_testsAgree (h : w.TestsAgree now) : w.PendingAgrees now := by
  have hquery : ∀ p tx, w.ValidUnconfirmed p tx →
      Answers (fun fuel => w.transactionIsPending now fuel tx)
        (decide (tx.txHash ∈ w.pendingTx)) := fun p tx htx =>
    (query_iff hl hr hw hf htx).2 (waits_of_testsAgree hl hr hw hf h tx (htx.mem hr) p htx)
  refine ⟨hquery, fun p tx htx v hv hs => ?_⟩
  have hans := hquery p tx htx
  rw [mem_utxos_iff hl hr hw (htx.mem hr) htx.valid hv hs]
  constructor
  · intro hn
    rwa [decide_eq_false hn] at hans
  · intro hfalse
    exact of_decide_eq_false (hans.unique hfalse)

end

/-- If no insertion misplaces a transaction, then after an update of the balance the two rules for
    pending transactions agree exactly when their tests do, or an ancestor is held back. -/
theorem run_pendingAgrees_iff (h : (parentsSystem env).Run parentsGuard w)
    (hw : w.updateBalance now = some w') : w'.PendingAgrees now ↔ w'.TestsAgree now := by
  have hl := run_listed (run_of_admitting h)
  have hf := run_parentsFirst h
  have hw' := updateBalance_again hw
  obtain ⟨txs, L, hr, -, rfl⟩ := updateBalance_some.1 hw
  have hfounded : Founded w.Parent txs := hf.registered hl hr
  exact ⟨testsAgree_of_pendingAgrees (w := w.setLedger now L) hl hr hw' hfounded,
    pendingAgrees_of_testsAgree (w := w.setLedger now L) hl hr hw' hfounded⟩

/-- A payment of less than `TX_MIN_OUTPUT_AMOUNT`: its output is a UTXO, the query says pending. -/
theorem not_run_pendingAgrees : ¬ ∀ (env : Env) (w w' : BRWallet) (now : ℤ),
    (system env).Run (fun _ _ => True) w → w.updateBalance now = some w' →
      w'.PendingAgrees now := by
  intro h
  have hbad : ∃ w, new sampleEnv 100 0 ⟨[some receipt]⟩ [0] = some (some w) ∧
      ∃ w', w.updateBalance 0 = some w' ∧ 0 ∈ w'.transactions ∧
        w'.heap.load 0 = some receipt ∧ receipt.txHash ∉ w'.invalidTx ∧
        receipt.txHash ∉ w'.pendingTx ∧
        ∀ fuel, w'.transactionIsPending 0 (fuel + 1) receipt = some true :=
    ⟨_, rfl, _, rfl, by decide, rfl, by decide, by decide, fun _ => rfl⟩
  obtain ⟨w, hw, w', hw', hm, hload, hvalid, hpending, hquery⟩ := hbad
  have hinit : (system sampleEnv).init w := ⟨100, 0, _, _, hw⟩
  have hagrees := (h sampleEnv w w' 0 (.init hinit) hw').query 0 receipt ⟨hm, hload, rfl, hvalid⟩
  rw [decide_eq_false hpending] at hagrees
  cases hagrees.unique (.of_succ (n := 0) fun fuel _ => hquery fuel)

theorem run_pendingAgrees_iff_spendsReceipt : ∃ w w', (parentsSystem sampleEnv).init w ∧
    w.updateBalance 0 = some w' ∧ (w'.PendingAgrees 0 ↔ w'.TestsAgree 0) := by
  obtain ⟨w, hinit, -, -, w', hw'⟩ := init_spendsReceipt
  exact ⟨w, w', hinit, hw', run_pendingAgrees_iff (.init hinit) hw'⟩

end BRWallet

end RavenWallet
