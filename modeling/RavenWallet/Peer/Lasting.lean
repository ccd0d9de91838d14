/-
  Published transactions last (BRPeerManager.c).

  A transaction can be freed while it is in `publishedTx`: `BRPeerManagerPublishTx`
  frees one that it refuses, `_requestUnrelayedTxGetdataDone` removes the
  unconfirmed transactions that no peer relays from the wallet, which frees them,
  and in a reorganization the wallet frees what is confirmed and not its own.

  * `Lasting`: what is published is on the heap;
  * `KeepsPublished`: when an event frees nothing that is published;
  * `unpublish_frees`, `cancel_frees`, `request_frees`: what the loops over the
    published transactions free;
  * `dropUnrelayed_walked`: what the walk over the unconfirmed transactions frees is
    removed with one that no peer relays;
  * `run_lasting`: in every run whose steps all meet `KeepsPublished`, what is
    published is on the heap.
-/
import RavenWallet.Peer.Callbacks
import RavenWallet.Wallet.Removal

namespace RavenWallet

namespace BRPeerManager

/-! ## The condition -/

/-- `BRPeerManagerPublishTx` refuses a transaction, and frees it. -/
def Refuses (m : BRPeerManager) (reachable : Bool) (tx : BRTransaction) : Prop :=
  tx.isSigned = false ∨ m.isConnected = false ∧
    (m.connectFailureCount ≥ MAX_CONNECT_FAILURES ∨ reachable = false)

/-- The transaction at `p` is not being published, and no peer relays it or was asked for it. -/
def Unrelayed (m : BRPeerManager) (p : Ptr) : Prop :=
  ∃ tx, m.wallet.heap.load p = some tx ∧
    (∀ e ∈ m.publishedTx, e.txHash = tx.txHash → e.callback = none) ∧
    txPeerListCount m.txRelays tx.txHash = 0 ∧ txPeerListCount m.txRequests tx.txHash = 0

/-- An update of the wallet with these arguments frees nothing that is published. -/
def SparesPublished (m : BRPeerManager) (txHashes : List UInt256) (b t : UInt32) : Prop :=
  ∀ e ∈ m.publishedTx, ∀ tx, m.wallet.heap.load e.tx = some tx →
    m.wallet.touches txHashes e.tx = true → m.wallet.frees b t tx = false

/-- The condition under which an event frees nothing that is published: a transaction that is
    refused is not published, none that is published is, or depends on, one that is removed because
    no peer relays it, and a block of a new main chain frees none. -/
def KeepsPublished (m : BRPeerManager) : ManagerEvent → Prop
  | .publishTx _ reachable p _ => ∀ tx, m.wallet.heap.load p = some tx → m.Refuses reachable tx →
      ∀ e ∈ m.publishedTx, e.tx ≠ p
  | .getdataDone _ peer success => m.maxConnectCount ≤ (m.markSynced peer success).syncedCount →
      ∀ ps, m.wallet.txUnconfirmedBefore (min m.wallet.transactions.length 10000)
          TX_UNCONFIRMED = some ps →
        ∀ p ∈ ps, m.Unrelayed p → ∀ e ∈ m.publishedTx, ¬ Chain m.wallet.SpendsFrom e.tx p
  | .updateTransactions _ txHashes blockHeight timestamp =>
      m.SparesPublished txHashes blockHeight timestamp
  | _ => True

/-- What is published is on the heap, and the wallet's files are in order. -/
structure Lasting (m : BRPeerManager) : Prop where
  known : m.Known
  filed : m.wallet.Filed
  live : ∀ e ∈ m.publishedTx, m.wallet.heap.Live e.tx

section
variable {m m₁ m₂ m' : BRPeerManager} {env : Env} {fuel : ℕ} {now : ℤ} {peer : PeerAddr}
  {p q : Ptr} {tx : BRTransaction} {txHash : UInt256} {callback : Option ℕ}
  {es es' : List PublishedTx} {heap heap' : Heap BRTransaction} {w : BRWallet} {F : Ptr → Prop}

/-! ## What the loops free -/

/-- Two entries for one transaction have one hash. -/
theorem Published.hash_eq {e d : PublishedTx} (h : Published heap es) (he : e ∈ es) (hd : d ∈ es)
    (hlive : heap.Live e.tx) (heq : d.tx = e.tx) : d.txHash = e.txHash := by
  obtain ⟨tx, htx⟩ := hlive
  exact (h.hash hd (heq ▸ htx)).symm.trans (h.hash he htx)

theorem Published.ne_tx {e d : PublishedTx} (h : Published heap (e :: es)) (hd : d ∈ es)
    (hlive : heap.Live e.tx) : d.tx ≠ e.tx := by
  intro heq
  exact h.not_mem d hd
    (h.hash_eq List.mem_cons_self (List.mem_cons_of_mem _ hd) hlive heq)

/-- The entries with the hash are taken out, and freed unless the wallet knows one. -/
theorem unpublish_frees (txHash : UInt256) (h : Published heap es)
    (hlive : ∀ e ∈ es, heap.Live e.tx) :
    ∃ heap', unpublish w txHash es heap =
        some (es.filter fun e => decide (e.txHash ≠ txHash), heap') ∧
      heap.Frees (fun q => w.allTx.lookup txHash = none ∧
        ∃ e ∈ es, e.txHash = txHash ∧ e.tx = q) heap' := by
  induction es with
  | nil => exact ⟨heap, rfl, .refl (by simp) _⟩
  | cons e es ih =>
    obtain ⟨heap₁, h₁, hf⟩ := ih h.tail fun d hd => hlive d (List.mem_cons_of_mem _ hd)
    obtain ⟨tx, htx⟩ := hlive e List.mem_cons_self
    have hhash : tx.txHash = e.txHash := h.hash List.mem_cons_self htx
    have hload : heap₁.load e.tx = some tx := by
      rw [hf.load, htx]
      rintro ⟨-, d, hd, -, heq⟩
      exact h.ne_tx hd ⟨tx, htx⟩ heq
    simp only [unpublish, h₁, hload, Option.bind_eq_bind, Option.bind_some]
    by_cases heq : e.txHash = txHash
    · obtain rfl : tx.txHash = txHash := hhash.trans heq
      rw [if_neg (not_not.2 rfl), List.filter_cons_of_neg (by simp [heq])]
      cases hk : w.allTx.lookup tx.txHash with
      | some q =>
        refine ⟨heap₁, rfl, hf.congr ?_⟩
        intro r
        simp [hk]
      | none =>
        refine ⟨heap₁.free e.tx, rfl, (hf.trans (.free _ _)).congr ?_⟩
        intro r
        simp [hk, heq, eq_comm, or_comm]
    · rw [if_pos (hhash.symm ▸ heq), List.filter_cons_of_pos (by simp [heq])]
      refine ⟨heap₁, rfl, hf.congr ?_⟩
      intro r
      simp [heq]

/-- The entries with a callback are taken out and freed. -/
theorem cancel_frees (h : Published heap es) (hlive : ∀ e ∈ es, heap.Live e.tx) :
    ∃ callbacks heap', cancel es heap =
        some (es.filter fun e => decide (e.callback = none), callbacks, heap') ∧
      heap.Frees (fun q => ∃ e ∈ es, e.callback ≠ none ∧ e.tx = q) heap' := by
  induction es with
  | nil => exact ⟨[], heap, rfl, .refl (by simp) _⟩
  | cons e es ih =>
    obtain ⟨callbacks, heap₁, h₁, hf⟩ := ih h.tail fun d hd => hlive d (List.mem_cons_of_mem _ hd)
    obtain ⟨tx, htx⟩ := hlive e List.mem_cons_self
    have hload : heap₁.load e.tx = some tx := by
      rw [hf.load, htx]
      rintro ⟨d, hd, -, heq⟩
      exact h.ne_tx hd ⟨tx, htx⟩ heq
    simp only [cancel, h₁, Option.bind_eq_bind, Option.bind_some]
    cases hc : e.callback with
    | none =>
      rw [List.filter_cons_of_pos (by simp [hc])]
      refine ⟨callbacks, heap₁, rfl, hf.congr ?_⟩
      intro r
      simp [hc]
    | some k =>
      rw [List.filter_cons_of_neg (by simp [hc])]
      refine ⟨callbacks ++ [k], heap₁.free e.tx, ?_, (hf.trans (.free _ _)).congr ?_⟩
      · simp only [hload, Option.bind_some]
      · intro r
        simp [hc, eq_comm, or_comm]

/-- An invalid transaction is taken out, and freed unless the wallet knows it. -/
theorem request_frees (h : Published heap es) (hlive : ∀ e ∈ es, heap.Live e.tx)
    {s : Requesting} (hs : request fuel w txHash es { heap } = some s) :
    ∃ F, heap.Frees F s.heap ∧ (∀ q, F q → w.allTx.lookup txHash = none ∧
        ∃ e ∈ es, e.txHash = txHash ∧ e.tx = q) ∧
      (∀ e ∈ s.publishedTx, ¬ F e.tx) ∧
      ∀ p, s.tx = some p → s.error = none → ¬ F p ∧ ∃ e ∈ es, e.tx = p := by
  induction es generalizing s with
  | nil =>
    cases hs
    exact ⟨fun _ => False, .refl (by simp) _, by simp, by simp, by simp⟩
  | cons e es ih =>
    simp only [request, Option.bind_eq_bind, Option.bind_eq_some_iff] at hs
    obtain ⟨s₁, hs₁, hs⟩ := hs
    have hes : ∀ d ∈ es, heap.Live d.tx := fun d hd => hlive d (List.mem_cons_of_mem _ hd)
    by_cases heq : e.txHash = txHash
    · -- no other entry has the hash
      have hs₁ : s₁ = { heap, publishedTx := es ++ [] } :=
        request_of_ne (heq ▸ h.not_mem) hs₁
      subst hs₁
      rw [if_neg (not_not.2 heq)] at hs
      simp only [Option.bind_eq_some_iff] at hs
      obtain ⟨tx, htx, valid, -, hs⟩ := hs
      split_ifs at hs with hvalid hknown
      · cases hs
        refine ⟨fun _ => False, .refl (by simp) _, by simp, by simp, ?_⟩
        rintro p hp -
        cases hp
        exact ⟨not_false, e, List.mem_cons_self, rfl⟩
      · cases hs
        refine ⟨fun _ => False, .refl (by simp) _, by simp, by simp, ?_⟩
        rintro p - herror
        cases herror
      · cases hs
        refine ⟨_, .free _ _, ?_, ?_, ?_⟩
        · rintro q rfl
          exact ⟨by simpa using hknown, e, List.mem_cons_self, heq, rfl⟩
        · intro d hd
          exact h.ne_tx (by simpa using hd) (hlive e List.mem_cons_self)
        · rintro p hp -
          cases hp
    · rw [if_pos heq] at hs
      cases hs
      obtain ⟨F, hf, hF, hpublished, htx⟩ := ih h.tail hes hs₁
      refine ⟨F, hf, ?_, ?_, ?_⟩
      · intro q hq
        obtain ⟨hk, d, hd, hdh, hdq⟩ := hF q hq
        exact ⟨hk, d, List.mem_cons_of_mem _ hd, hdh, hdq⟩
      · intro d hd
        rcases List.mem_cons.1 hd with rfl | hd
        · intro hFd
          obtain ⟨-, d', hd', -, heq'⟩ := hF _ hFd
          exact h.ne_tx hd' (hlive _ List.mem_cons_self) heq'
        · exact hpublished d hd
      · intro p hp herror
        obtain ⟨hFp, d, hd, hdp⟩ := htx p hp herror
        exact ⟨hFp, d, List.mem_cons_of_mem _ hd, hdp⟩

/-! ## Frames -/

theorem tx_of_key {e : PublishedTx}
    (hkey : es.map PublishedTx.key ⊆ es'.map PublishedTx.key) (he : e ∈ es) :
    ∃ d ∈ es', d.tx = e.tx := by
  obtain ⟨d, hd, heq⟩ := List.mem_map.1 (hkey (List.mem_map_of_mem he))
  exact ⟨d, hd, congrArg Prod.fst heq⟩

/-- Nothing that is published is freed, and the rest of an entry may change. -/
theorem Lasting.frame (hm : m.Lasting) (hw : m'.wallet.Filed)
    (hr : Heap.Retains BRTransaction.txHash m.wallet.heap m'.wallet.heap)
    (hlive : ∀ e ∈ m.publishedTx, m'.wallet.heap.Live e.tx)
    (hkey : m'.publishedTx.map PublishedTx.key = m.publishedTx.map PublishedTx.key) :
    m'.Lasting := by
  refine ⟨(hm.known.retains hr).sublist (hkey ▸ .refl _), hw, ?_⟩
  intro e he
  obtain ⟨d, hd, heq⟩ := tx_of_key (fun _ h => hkey ▸ h) he
  exact heq ▸ hlive d hd

theorem Lasting.same (hm : m.Lasting) (hw : m'.wallet = m.wallet)
    (hp : m'.publishedTx = m.publishedTx) : m'.Lasting := by
  refine hm.frame (hw ▸ hm.filed) ?_ ?_ (hp ▸ rfl)
  · rw [hw]
    exact .refl _ _
  · rw [hw]
    exact hm.live

/-- Transactions that are not published any more may be freed. -/
theorem Lasting.frees (hm : m.Lasting) (hf : Heap.Frees F m.wallet.heap heap')
    (hes : ∀ e ∈ es, ¬ F e.tx)
    (hkey : (es.map PublishedTx.key).Sublist (m.publishedTx.map PublishedTx.key))
    (hw : m'.wallet = { m.wallet with heap := heap' }) (hp : m'.publishedTx = es) :
    m'.Lasting := by
  have hheap : m'.wallet.heap = heap' := by rw [hw]
  refine ⟨?_, ?_, ?_⟩
  · rw [Known, hheap, hp]
    exact (hm.known.retains (hf.retains _)).sublist hkey
  · rw [hw]
    exact hm.filed.retains (hf.retains _)
  · intro e he
    rw [hp] at he
    rw [hheap]
    obtain ⟨d, hd, heq⟩ := tx_of_key hkey.subset he
    exact hf.live (heq ▸ hm.live d hd) (hes e he)

theorem Lasting.call (hm : m.Lasting) (callback : Option ℕ) (error : Option Errno) :
    (m.call callback error).Lasting := by
  cases callback with
  | none => exact hm
  | some k => exact hm.same rfl rfl

/-- Operations of the wallet that free nothing published. -/
theorem Lasting.wallet {op : WalletOp} (hm : m.Lasting) (hstep : BRWallet.step env m.wallet op w)
    (hlive : ∀ e ∈ m.publishedTx, w.heap.Live e.tx) :
    ({ m with wallet := w } : BRPeerManager).Lasting :=
  hm.frame (BRWallet.step_filed hm.filed hstep) (BRWallet.step_retains hstep) hlive rfl

theorem Lasting.registerTransaction {r : Bool} (hm : m.Lasting)
    (h : m.wallet.registerTransaction env fuel now p = some (w, r)) :
    ({ m with wallet := w } : BRPeerManager).Lasting := by
  have hstep : BRWallet.step env m.wallet (.registerTransaction now p) w := ⟨fuel, r, h⟩
  refine hm.wallet hstep ?_
  rw [BRWallet.registerTransaction_heap h]
  exact hm.live

theorem Lasting.alloc (hm : m.Lasting) (tx : BRTransaction) :
    (m.setHeap (m.wallet.heap.alloc tx)).Lasting :=
  hm.frame (hm.filed.retains (.alloc _ _ tx)) (.alloc _ _ tx)
    (fun e he => (hm.live e he).alloc tx) rfl

theorem Lasting.free (hm : m.Lasting) (hp : ∀ e ∈ m.publishedTx, e.tx ≠ p) :
    (m.setHeap (m.wallet.heap.free p)).Lasting :=
  hm.frees (.free _ p) hp (.refl _) rfl rfl

/-! ## Updates -/

theorem confirm_lasting (hm : m.Lasting) (h : m.confirm txHash = some m') :
    m'.Lasting ∧ m'.publishedTx = m.publishedTx.filter fun e => decide (e.txHash ≠ txHash) := by
  obtain ⟨heap', hu, hf⟩ := unpublish_frees (w := m.wallet) txHash hm.known hm.live
  rw [confirm, hu] at h
  obtain rfl := Option.some.inj h
  refine ⟨hm.frees hf ?_ ((List.filter_sublist).map _) rfl rfl, rfl⟩
  rintro e he ⟨-, d, hd, hdh, heq⟩
  obtain ⟨he, hne⟩ := List.mem_filter.1 he
  rw [← hm.known.hash_eq he hd (hm.live e he) heq, hdh] at hne
  exact of_decide_eq_true hne rfl

/-- What is confirmed is no longer published when the wallet may free it. -/
theorem updateTx_lasting {txHashes : List UInt256} {b t : UInt32} (hm : m.Lasting)
    (h : m.updateTx now txHashes b t = some m') : m'.Lasting := by
  simp only [updateTx, Option.bind_eq_bind, Option.bind_eq_some_iff] at h
  obtain ⟨m₁, h₁, w₁, hw₁, h⟩ := h
  cases h
  have hconfirm : m₁.Lasting ∧
      (b = TX_UNCONFIRMED ∨ ∀ e ∈ m₁.publishedTx, e.txHash ∉ txHashes) := by
    split_ifs at h₁ with hb
    · have hloop : ∀ {hs : List UInt256} {m m₁ : BRPeerManager}, m.Lasting →
          hs.foldlM confirm m = some m₁ → m₁.Lasting ∧
          ∀ e ∈ m₁.publishedTx, e ∈ m.publishedTx ∧ e.txHash ∉ hs := by
        intro hs
        induction hs with
        | nil =>
          intro m m₁ hm h
          obtain rfl := Option.some.inj h
          exact ⟨hm, fun e he => ⟨he, List.not_mem_nil⟩⟩
        | cons k hs ih =>
          intro m m₂ hm h
          rw [List.foldlM_cons] at h
          obtain ⟨m₁, h₁, h⟩ := Option.bind_eq_some_iff.1 h
          obtain ⟨hm₁, hpublished⟩ := confirm_lasting hm h₁
          obtain ⟨hm₂, hgone⟩ := ih hm₁ h
          refine ⟨hm₂, fun e he => ?_⟩
          obtain ⟨he, hnot⟩ := hgone e he
          rw [hpublished] at he
          obtain ⟨he, hne⟩ := List.mem_filter.1 he
          rw [List.mem_cons, not_or]
          exact ⟨he, of_decide_eq_true hne, hnot⟩
      obtain ⟨hm₁, hgone⟩ := hloop hm h₁
      exact ⟨hm₁, Or.inr fun e he => (hgone e he).2⟩
    · obtain rfl := Option.some.inj h₁
      exact ⟨hm, Or.inl (not_not.1 hb)⟩
  obtain ⟨hm₁, hgone⟩ := hconfirm
  have hstep : BRWallet.step BRWallet.sampleEnv m₁.wallet (.updateTransactions now txHashes b t)
      w₁ := hw₁
  refine hm₁.wallet hstep ?_
  intro e he
  obtain ⟨tx, htx⟩ := hm₁.live e he
  refine BRWallet.updateTransactions_live hm₁.filed hw₁ htx ?_
  intro htouch
  rcases hgone with rfl | hgone
  · rw [BRWallet.frees, decide_eq_false (not_not.2 rfl), Bool.false_and, Bool.false_and]
  · obtain ⟨k, hk, hknown⟩ := List.any_eq_true.1 htouch
    refine absurd hk ?_
    rw [← hm₁.filed.hash (of_decide_eq_true hknown) htx, hm₁.known.hash he htx]
    exact hgone e he

/-! ## The handlers -/

/-- Taking a callback out leaves the entries. -/
theorem taken_ne (hm : m.Known) (hp : ∀ e ∈ m.publishedTx, e.tx ≠ p) (txHash : UInt256)
    (peer : PeerAddr) : ∀ e ∈ (m.taken txHash peer).1.publishedTx, e.tx ≠ p := by
  intro e he
  have hkey : (m.taken txHash peer).1.publishedTx.map PublishedTx.key =
      m.publishedTx.map PublishedTx.key := (takeCallback_passes hm).1
  obtain ⟨d, hd, heq⟩ := tx_of_key (fun _ h => hkey ▸ h) he
  exact heq ▸ hp d hd

theorem taken_lasting (hm : m.Lasting) (txHash : UInt256) (peer : PeerAddr) :
    (m.taken txHash peer).1.Lasting :=
  hm.frame hm.filed (.refl _ _) hm.live (takeCallback_passes hm.known).1

/-- What is added to the list was read, or is known to the wallet. -/
theorem addTxToPublishList_live {depth : ℕ} (hlive : ∀ e ∈ m.publishedTx, m.wallet.heap.Live e.tx)
    (h : addTxToPublishList depth m p callback = some m') :
    m'.wallet = m.wallet ∧ ∀ e ∈ m'.publishedTx, m.wallet.heap.Live e.tx := by
  induction depth generalizing m p callback m' with
  | zero => cases h
  | succ depth ih =>
    obtain ⟨tx, htx, h⟩ := Option.bind_eq_some_iff.1 h
    split_ifs at h
    · cases h
      exact ⟨rfl, hlive⟩
    · obtain ⟨published, -, h⟩ := Option.bind_eq_some_iff.1 h
      cases published with
      | true =>
        cases h
        exact ⟨rfl, hlive⟩
      | false =>
        refine foldlM_invariant (P := fun m' : BRPeerManager => m'.wallet = m.wallet ∧
          ∀ e ∈ m'.publishedTx, m.wallet.heap.Live e.tx) ?_ ?_ h
        · rintro m₁ i m₂ - ⟨hw, hlive₁⟩ hstep
          cases hlookup : m₁.wallet.allTx.lookup i.txHash with
          | none =>
            rw [hlookup] at hstep
            cases hstep
            exact ⟨hw, hlive₁⟩
          | some q =>
            rw [hlookup] at hstep
            obtain ⟨hw₂, hlive₂⟩ := ih (hw ▸ hlive₁) hstep
            exact ⟨hw₂.trans hw, hw ▸ hlive₂⟩
        · refine ⟨rfl, ?_⟩
          intro e he
          rcases List.mem_append.1 he with he | he
          · exact hlive e he
          · rw [List.mem_singleton] at he
            rw [he]
            exact ⟨tx, htx⟩

theorem addTxToPublishList_lasting {depth : ℕ} (hm : m.Lasting)
    (h : addTxToPublishList depth m p callback = some m') : m'.Lasting := by
  obtain ⟨hw, hlive⟩ := addTxToPublishList_live hm.live h
  obtain ⟨es, -, hknown, -⟩ := addTxToPublishList_passes hm.known h
  exact ⟨hknown, hw ▸ hm.filed, hw ▸ hlive⟩

theorem preserved_lasting (env : Env) : Preserved env Lasting where
  same hm hw hp _ _ _ _ := hm.same hw hp
  registers hm h := hm.registerTransaction h
  publishes hm h := addTxToPublishList_lasting hm h
  updates hm h := updateTx_lasting hm h

theorem relayedTx_lasting (hm : m.Lasting) (hp : ∀ e ∈ m.publishedTx, e.tx ≠ p)
    (h : m.relayedTx env fuel now peer p = some m') : m'.Lasting := by
  obtain ⟨k, m₁, rfl, hm₁ | rfl⟩ := Preserved.relayedTx (fun _ => preserved_lasting env)
    (fun k => taken_lasting hm k peer) h
  · exact hm₁.call _ _
  · exact Lasting.call ((taken_lasting hm k peer).free (taken_ne hm.known hp k peer)) _ _

theorem hasTx_lasting (hm : m.Lasting) (h : m.hasTx env fuel now peer txHash = some m') :
    m'.Lasting := by
  obtain ⟨m₁, rfl, hm₁⟩ := (preserved_lasting env).hasTx (taken_lasting hm txHash peer) h
  exact hm₁.call _ _

/-- A transaction is refused and freed, or its time is set and it is published. -/
theorem publishTx_cases {reachable hasCallback : Bool}
    (h : m.publishTx fuel now reachable p hasCallback = some m') :
    ∃ tx issued callback, m.wallet.heap.load p = some tx ∧
      ((m.Refuses reachable tx ∧ ∃ error, m' = (({ m with issued } : BRPeerManager).setHeap
          (m.wallet.heap.free p)).call callback error) ∨
        addTxToPublishList fuel (({ m with issued } : BRPeerManager).setHeap
          (m.wallet.heap.store p (tx.setBlock tx.blockHeight (timestamp now)))) p callback =
            some m') := by
  simp only [publishTx, Option.bind_eq_bind, Option.bind_eq_some_iff] at h
  obtain ⟨tx, htx, h⟩ := h
  have hissue : ∃ issued, (m.issue hasCallback).1 = { m with issued } := by
    rw [issue]
    split_ifs <;> exact ⟨_, rfl⟩
  obtain ⟨issued, hissue⟩ := hissue
  rw [hissue] at h
  refine ⟨tx, issued, (m.issue hasCallback).2, htx, ?_⟩
  split_ifs at h with hsigned hconnected
  · exact Or.inl ⟨Or.inl (by simpa using hsigned), _, (Option.some.inj h).symm⟩
  · exact Or.inl ⟨Or.inr hconnected, _, (Option.some.inj h).symm⟩
  · exact Or.inr h

theorem publishTx_lasting {reachable hasCallback : Bool} (hm : m.Lasting)
    (hkeep : ∀ tx, m.wallet.heap.load p = some tx → m.Refuses reachable tx →
      ∀ e ∈ m.publishedTx, e.tx ≠ p)
    (h : m.publishTx fuel now reachable p hasCallback = some m') : m'.Lasting := by
  obtain ⟨tx, issued, callback, htx, ⟨hrefuses, error, rfl⟩ | h⟩ := publishTx_cases h
  · have hm₁ : ({ m with issued } : BRPeerManager).Lasting := hm.same rfl rfl
    exact Lasting.call (hm₁.free (hkeep tx htx hrefuses)) _ _
  · refine addTxToPublishList_lasting ?_ h
    have hr : Heap.Retains BRTransaction.txHash m.wallet.heap
        (m.wallet.heap.store p (tx.setBlock tx.blockHeight (timestamp now))) := .store htx rfl
    exact hm.frame (hm.filed.retains hr) hr (fun e he => (hm.live e he).store _ htx) rfl

theorem requestedTx_lasting (hm : m.Lasting)
    (h : m.requestedTx env fuel now peer txHash = some m') : m'.Lasting := by
  obtain ⟨s, hs, h⟩ := Option.bind_eq_some_iff.1 h
  obtain ⟨F, hf, -, hpublished, -⟩ := request_frees hm.known hm.live hs
  have hm₁ : Lasting { m.setHeap s.heap with publishedTx := s.publishedTx } :=
    hm.frees hf hpublished (request_passes hm.known hs).1 rfl rfl
  split at h
  · obtain ⟨⟨w₁, isWalletTx⟩, hregister, h⟩ := Option.bind_eq_some_iff.1 h
    cases h
    refine Lasting.call ?_ _ _
    exact (hm₁.registerTransaction hregister).same rfl rfl
  · cases h
    exact hm₁.call _ _

/-- What a disconnection frees is no longer published. -/
theorem disconnected_lasting {error : Option Errno} (hm : m.Lasting)
    (h : m.disconnected peer error = some m') : m'.Lasting := by
  obtain ⟨-, ⟨hwallet, hpublished, -⟩ |
    ⟨es, callbacks, heap, txError, hc, hwallet, hpublished, -⟩⟩ := disconnected_some h
  · exact hm.same hwallet hpublished
  · obtain ⟨callbacks', heap', hc', hf⟩ := cancel_frees hm.known hm.live
    obtain ⟨rfl, hrest⟩ := Prod.mk.inj (Option.some.inj (hc.symm.trans hc'))
    obtain ⟨-, rfl⟩ := Prod.mk.inj hrest
    refine hm.frees hf ?_ ((List.filter_sublist).map _) hwallet hpublished
    rintro e he ⟨d, hd, hcallback, heq⟩
    obtain ⟨he, hnone⟩ := List.mem_filter.1 he
    -- both entries have one hash, so they are the same
    have hhash := hm.known.hash_eq he hd (hm.live e he) heq
    have hnodup : (m.publishedTx.map fun e => e.txHash).Nodup := by
      have hn := hm.known.nodup
      rwa [List.map_map] at hn
    obtain rfl := List.inj_on_of_nodup_map hnodup hd he hhash
    exact hcallback (of_decide_eq_true hnone)

/-! ## The walk over the unconfirmed transactions -/

/-- `m` is `m₀` after part of the walk: transactions were removed from the wallet, and heights and
    timestamps of unconfirmed ones were set. -/
structure Walked (m₀ m : BRPeerManager) : Prop where
  lasting : m.Lasting
  publishedTx : m.publishedTx = m₀.publishedTx
  txRelays : m.txRelays = m₀.txRelays
  txRequests : m.txRequests = m₀.txRequests
  listed : ∀ q ∈ m.wallet.transactions, q ∈ m₀.wallet.transactions
  kept : ∀ q ∈ m₀.wallet.transactions, m.wallet.heap.Live q → q ∈ m.wallet.transactions
  load : ∀ q t', m.wallet.heap.load q = some t' → ∃ t, m₀.wallet.heap.load q = some t ∧
    t'.txHash = t.txHash ∧ t'.inputs = t.inputs ∧
    (TX_UNCONFIRMED ≤ t'.blockHeight ↔ TX_UNCONFIRMED ≤ t.blockHeight)

theorem Walked.refl (hm : m.Lasting) : Walked m m where
  lasting := hm
  publishedTx := rfl
  txRelays := rfl
  txRequests := rfl
  listed _ hq := hq
  kept _ hq _ := hq
  load _ t' ht' := ⟨t', ht', rfl, rfl, Iff.rfl⟩

theorem Walked.spendsFrom (hw : Walked m m₁) (h : m₁.wallet.SpendsFrom q p) :
    m.wallet.SpendsFrom q p := by
  obtain ⟨hq, t, tx, ht, htx, hheight, i, hi, hhash⟩ := h
  obtain ⟨t₀, ht₀, -, hinputs, hun⟩ := hw.load q t ht
  obtain ⟨tx₀, htx₀, hhash₀, -⟩ := hw.load p tx htx
  exact ⟨hw.listed q hq, t₀, tx₀, ht₀, htx₀, hun.1 hheight, i, hinputs ▸ hi, hhash.trans hhash₀⟩

theorem Walked.unrelayed (hw : Walked m m₁) (h : m₁.Unrelayed p) : m.Unrelayed p := by
  obtain ⟨tx, htx, hpublished, hrelays, hrequests⟩ := h
  obtain ⟨t, ht, hhash, -⟩ := hw.load p tx htx
  rw [hw.publishedTx, hhash] at hpublished
  rw [hw.txRelays, hhash] at hrelays
  rw [hw.txRequests, hhash] at hrequests
  exact ⟨t, ht, hpublished, hrelays, hrequests⟩

/-- What is not being published has no recorded callback. -/
theorem not_publishing (hm : m.Known) (hp : m.wallet.heap.load p = some tx)
    (h : (m.publishedTx.reverse.anyM fun e => do
      let eq ← txEq m.wallet.heap e.tx p
      some (eq && e.callback.isSome)) = some false) :
    ∀ e ∈ m.publishedTx, e.txHash = tx.txHash → e.callback = none := by
  intro e he hhash
  have htest := anyM_eq_false h e (List.mem_reverse.2 he)
  obtain ⟨b, hb, htest⟩ := Option.bind_eq_some_iff.1 htest
  have hb' : b = true := (txEq_iff hm he hp hb).2 hhash
  rw [hb', Bool.true_and, Option.some.injEq] at htest
  simpa using htest

/-- What is removed depends on a transaction that no peer relays, so it is not published. -/
theorem Walked.remove (hw : Walked m m₁) (hp : p ∈ m.wallet.transactions)
    (htx : m₁.wallet.heap.load p = some tx) (hun : TX_UNCONFIRMED ≤ tx.blockHeight)
    (hkeep : ∀ e ∈ m.publishedTx, ¬ Chain m.wallet.SpendsFrom e.tx p)
    (h : BRWallet.removeTransaction now fuel m₁.wallet tx.txHash = some w) :
    Walked m { m₁ with wallet := w } := by
  have hm₁ := hw.lasting
  have hlisted : p ∈ m₁.wallet.transactions := hw.kept p hp ⟨tx, htx⟩
  have hlookup := hm₁.filed.listed hlisted htx
  have hhash : m₁.wallet.HashUnconfirmed tx.txHash := by
    intro q t hq ht
    obtain rfl := Option.some.inj (hlookup.symm.trans hq)
    obtain rfl := Option.some.inj (htx.symm.trans ht)
    exact hun
  obtain ⟨F, hF, -, hdepends⟩ := BRWallet.removeTransaction_drops hm₁.filed hhash h
  have hstep : BRWallet.step BRWallet.sampleEnv m₁.wallet (.removeTransaction now tx.txHash) w :=
    ⟨fuel, h⟩
  refine ⟨hm₁.wallet hstep ?_, hw.publishedTx, hw.txRelays, hw.txRequests, ?_, ?_, ?_⟩
  · intro e he
    refine hF.heap.live (hm₁.live e he) fun hFe => ?_
    obtain ⟨q, hq, hchain⟩ := hdepends e.tx hFe
    obtain rfl := Option.some.inj (hlookup.symm.trans hq)
    exact hkeep e (hw.publishedTx ▸ he) (hchain.mono fun _ _ hs => hw.spendsFrom hs)
  · intro q hq
    exact hw.listed q (hF.sublist.subset hq)
  · rintro q hq ⟨t, ht⟩
    obtain ⟨ht, hFq⟩ := hF.heap.load_some ht
    exact (hF.mem q).2 ⟨hw.kept q hq ⟨t, ht⟩, hFq⟩
  · intro q t ht
    exact hw.load q t (hF.heap.load_some ht).1

/-- An unconfirmed transaction is marked as unverified. -/
theorem Walked.unverify (hw : Walked m m₁) (hp : p ∈ m.wallet.transactions)
    (htx : m₁.wallet.heap.load p = some tx) (hun : TX_UNCONFIRMED ≤ tx.blockHeight)
    (h : m₁.updateTx now [tx.txHash] TX_UNCONFIRMED 0 = some m₂) : Walked m m₂ := by
  have hlasting := updateTx_lasting hw.lasting h
  have hlisted : p ∈ m₁.wallet.transactions := hw.kept p hp ⟨tx, htx⟩
  have hlookup := hw.lasting.filed.listed hlisted htx
  rw [updateTx, if_neg (not_not.2 rfl)] at h
  simp only [Option.bind_eq_bind, Option.bind_some, Option.bind_eq_some_iff] at h
  obtain ⟨w₁, hw₁, h⟩ := h
  cases h
  obtain ⟨hts, -, hload⟩ := BRWallet.updateTransactions_unconfirmed hw₁
  have hlive : ∀ q, w₁.heap.Live q → m₁.wallet.heap.Live q := by
    rintro q ⟨t', ht'⟩
    obtain ⟨t, ht, -⟩ := hload q t' ht'
    exact ⟨t, ht⟩
  refine ⟨hlasting, hw.publishedTx, hw.txRelays, hw.txRequests, ?_, ?_, ?_⟩
  · intro q hq
    exact hw.listed q (hts ▸ hq)
  · intro q hq hq'
    exact hts ▸ hw.kept q hq (hlive q hq')
  · intro q t' ht'
    obtain ⟨t, ht, rfl | ⟨rfl, k, hk, hq⟩⟩ := hload q t' ht'
    · exact hw.load q t' ht
    · obtain rfl := List.mem_singleton.1 hk
      obtain rfl := Option.some.inj (hlookup.symm.trans hq)
      obtain rfl := Option.some.inj (htx.symm.trans ht)
      obtain ⟨t₀, ht₀, hhash, hinputs, hheight⟩ := hw.load p tx htx
      exact ⟨t₀, ht₀, hhash, hinputs, iff_of_true (UInt32.le_refl _) (hheight.1 hun)⟩

theorem dropUnrelayed_walked (hw : Walked m m₁) (hp : p ∈ m.wallet.transactions)
    (hun : ∃ t, m.wallet.heap.load p = some t ∧ TX_UNCONFIRMED ≤ t.blockHeight)
    (hkeep : m.Unrelayed p → ∀ e ∈ m.publishedTx, ¬ Chain m.wallet.SpendsFrom e.tx p)
    (h : dropUnrelayed fuel now m₁ p = some m₂) : Walked m m₂ := by
  obtain ⟨isPublishing, hpublishing, h⟩ := Option.bind_eq_some_iff.1 h
  cases isPublishing with
  | true =>
    cases h
    exact hw
  | false =>
    rw [if_neg (by simp)] at h
    obtain ⟨tx, htx, h⟩ := Option.bind_eq_some_iff.1 h
    have hun : TX_UNCONFIRMED ≤ tx.blockHeight := by
      obtain ⟨t, ht, hun⟩ := hun
      obtain ⟨t₀, ht₀, -, -, hheight⟩ := hw.load p tx htx
      obtain rfl := Option.some.inj (ht.symm.trans ht₀)
      exact hheight.2 hun
    split_ifs at h with hunrelayed
    · obtain ⟨w, hremove, h⟩ := Option.bind_eq_some_iff.1 h
      cases h
      have hdropped : m₁.Unrelayed p := by
        exact ⟨tx, htx, not_publishing hw.lasting.known htx hpublishing, hunrelayed⟩
      exact hw.remove hp htx hun (hkeep (hw.unrelayed hdropped)) hremove
    · exact hw.unverify hp htx hun h
    · cases h
      exact hw

theorem getdataDone_lasting {success : Bool} (hm : m.Lasting)
    (hkeep : m.KeepsPublished (.getdataDone now peer success))
    (h : m.requestUnrelayedTxGetdataDone fuel now peer success = some m') : m'.Lasting := by
  have hmark : (m.markSynced peer success).Lasting := hm.same rfl rfl
  simp only [requestUnrelayedTxGetdataDone] at h
  rw [show ({ m with connectedPeers := m.connectedPeers.map fun p =>
    if success ∧ p.peer = peer then { p with synced := true } else p } : BRPeerManager) =
      m.markSynced peer success from rfl] at h
  split_ifs at h with hcount
  · cases h
    exact hmark
  · obtain ⟨ps, hps, h⟩ := Option.bind_eq_some_iff.1 h
    have hkeep := hkeep (Nat.le_of_not_lt hcount) ps hps
    have hwalked : Walked (m.markSynced peer success) m' := by
      refine foldlM_invariant (P := Walked (m.markSynced peer success)) ?_ (.refl hmark) h
      intro m₁ p m₂ hp hw hstep
      obtain ⟨hlisted, hun⟩ := BRWallet.txUnconfirmedBefore_mem hps hp
      exact dropUnrelayed_walked hw hlisted hun (hkeep p hp) hstep
    exact hwalked.lasting

/-! ## Runs -/

theorem handle_lasting {event : ManagerEvent} (hm : m.Lasting) (hkeep : m.KeepsPublished event)
    (h : m.handle env fuel event = some m') : m'.Lasting := by
  cases event with
  | alloc tx =>
    cases h
    exact hm.alloc tx
  | publishTx now reachable p hasCallback => exact publishTx_lasting hm hkeep h
  | relayedTx now peer tx =>
    refine relayedTx_lasting (hm.alloc tx) ?_ h
    -- what is published was allocated before
    intro e he heq
    obtain ⟨t, ht⟩ := hm.live e he
    exact absurd (Heap.load_lt ht) (by rw [heq]; exact Nat.lt_irrefl _)
  | hasTx now peer txHash => exact hasTx_lasting hm h
  | requestedTx now peer txHash => exact requestedTx_lasting hm h
  | disconnected peer error => exact disconnected_lasting hm h
  | getdataDone now peer success => exact getdataDone_lasting hm hkeep h
  | relayedBlock now txHashes blockHeight timestamp => exact updateTx_lasting hm h
  | setTxUnconfirmedAfter now blockHeight =>
    obtain ⟨w, hwallet, h⟩ := Option.bind_eq_some_iff.1 h
    cases h
    have hstep : BRWallet.step env m.wallet (.setTxUnconfirmedAfter now blockHeight) w := hwallet
    exact hm.wallet hstep fun e he =>
      BRWallet.setTxUnconfirmedAfter_live hwallet (hm.live e he)
  | updateTransactions now txHashes blockHeight timestamp =>
    obtain ⟨w, hwallet, h⟩ := Option.bind_eq_some_iff.1 h
    cases h
    have hstep : BRWallet.step env m.wallet
      (.updateTransactions now txHashes blockHeight timestamp) w := hwallet
    refine hm.wallet hstep ?_
    intro e he
    obtain ⟨tx, htx⟩ := hm.live e he
    exact BRWallet.updateTransactions_live hm.filed hwallet htx (hkeep e he tx htx)
  | _ => exact (preserved_lasting env).handle hm h trivial

theorem run_lasting {G : BRPeerManager → ManagerEvent → Prop} (h : (system env).Run G m)
    (hG : ∀ s event, G s event → s.KeepsPublished event) : m.Lasting := by
  refine h.invariant (J := fun _ => True) (fun _ => trivial) ?_ ?_
  · rintro s ⟨wallet, hwallet, rfl⟩
    refine ⟨.nil _, (BRWallet.init_listed hwallet).filed, ?_⟩
    intro e he
    cases he
  · rintro s event s' - hs hguard ⟨fuel, hstep⟩ -
    exact handle_lasting hs (hG _ _ hguard) hstep

end

end BRPeerManager

end RavenWallet
