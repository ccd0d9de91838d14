/-
  Who owns a transaction: the peer manager and its wallet.

  A transaction can be published, known to the wallet and listed by it, and is freed in
  several places.  `KeepsTx` says when an event frees nothing that `publishedTx`,
  `allTx` or `transactions` refer to.

  * `Owned`: what they refer to is on the heap;
  * `disconnected_owned`, `hasTx_owned` and so on: the handlers keep `Owned`.
-/
import RavenWallet.Peer.Lasting

namespace RavenWallet

namespace BRWallet

/-- The wallet refers to the transaction at `p`. -/
def Holds (w : BRWallet) (p : Ptr) : Prop :=
  p ∈ w.transactions ∨ ∃ h, w.allTx.lookup h = some p

theorem Holding.frees {w : BRWallet} {F : Ptr → Prop} {heap' : Heap BRTransaction}
    (hw : w.Holding) (hf : Heap.Frees F w.heap heap')
    (hF : ∀ q, F q → ¬ w.Holds q) : ({ w with heap := heap' } : BRWallet).Holding := by
  have hknown : ∀ {h q}, w.allTx.lookup h = some q → heap'.load q = w.heap.load q :=
    fun hk => hf.load _ fun hq => hF _ hq (Or.inr ⟨_, hk⟩)
  refine ⟨⟨?_, ?_, hw.listed.nodup, ?_⟩, ?_⟩
  · intro h q hk
    obtain ⟨tx, htx, hhash⟩ := hw.listed.known hk
    exact ⟨tx, (hknown hk).trans htx, hhash⟩
  · intro q tx hq htx
    exact hw.listed.listed hq (hf.load_some htx).1
  · intro q hq
    rw [show heap'.fresh = w.heap.fresh from hf.fresh]
    exact hw.listed.old hq
  · intro q hq
    exact hf.live (hw.live q hq) fun hFq => hF q hFq (Or.inl hq)

/-- Whether an update frees a listed transaction depends on what the wallet holds. -/
theorem KeepsListed.congr {w : BRWallet} {heap' : Heap BRTransaction} {hs : List UInt256}
    {b t : UInt32} (h : w.KeepsListed hs b t)
    (hload : ∀ q, w.Holds q → heap'.load q = w.heap.load q) :
    ({ w with heap := heap' } : BRWallet).KeepsListed hs b t := by
  have houtputs : ∀ k, (({ w with heap := heap' } : BRWallet).tx? k).map BRTransaction.outputs =
      (w.tx? k).map BRTransaction.outputs := by
    intro k
    unfold tx?
    cases hk : w.allTx.lookup k with
    | none => rfl
    | some q =>
      rw [Option.bind_some, Option.bind_some]
      exact congrArg _ (hload q (Or.inr ⟨k, hk⟩))
  have hcontains : ∀ tx, ({ w with heap := heap' } : BRWallet).containsTx tx = w.containsTx tx :=
    fun tx => containsTx_congr rfl (owns_congr rfl houtputs) rfl rfl
  intro q hq tx htx htouch
  have hload' : heap'.load q = some tx := htx
  rw [hload q (Or.inl hq)] at hload'
  have hkeep := h q hq tx hload' htouch
  unfold frees at hkeep ⊢
  rwa [hcontains]

end BRWallet

namespace BRPeerManager

/-! ## References -/

/-- No transaction that was freed is referred to. -/
structure Intact (m : BRPeerManager) : Prop where
  publishedTx : ∀ e ∈ m.publishedTx, m.wallet.heap.Live e.tx
  allTx : ∀ h p, m.wallet.allTx.lookup h = some p → m.wallet.heap.Live p
  transactions : ∀ p ∈ m.wallet.transactions, m.wallet.heap.Live p

/-- A handler that goes on after it has freed transactions reads none of them, since it has a
    result.  The other ones free a transaction at their end, if at all. -/
def Completes (env : Env) (m : BRPeerManager) : ManagerEvent → Prop
  | .requestedTx _ _ txHash => ∃ fuel s,
      request fuel m.wallet txHash m.publishedTx { heap := m.wallet.heap } = some s ∧
      ∀ p, s.tx = some p → s.error = none → s.heap.Live p
  | .disconnected peer error => ∃ m', m.disconnected peer error = some m'
  | .getdataDone now peer success => ∃ fuel m',
      m.handle env fuel (.getdataDone now peer success) = some m'
  | .relayedBlock now txHashes blockHeight timestamp => ∃ m',
      m.updateTx now txHashes blockHeight timestamp = some m'
  | .updateTransactions now txHashes blockHeight timestamp => ∃ w,
      m.wallet.updateTransactions now txHashes blockHeight timestamp = some w
  | _ => True

/-! ## The condition -/

/-- The transaction at `p` is not referred to. -/
def Unheld (m : BRPeerManager) (p : Ptr) : Prop :=
  ¬ m.wallet.Holds p ∧ ∀ e ∈ m.publishedTx, e.tx ≠ p

/-- `_peerDisconnected` gives up the connection, or the peer has timed out. -/
def Cancels (m : BRPeerManager) (peer : PeerAddr) (error : Option Errno) : Prop :=
  let failed := error ≠ none ∧ error ≠ some .EPROTO
  let failures := if failed then m.connectFailureCount + 1 else m.connectFailureCount
  (error = some .ETIMEDOUT ∧ (m.downloadPeer ≠ some peer ∨ m.syncStartHeight = 0 ∨
      m.connectedPeers.length = 1)) ∨
    if m.downloadPeer = some peer then MAX_CONNECT_FAILURES ≤ failures
    else m.isConnected = false ∧ failures = MAX_CONNECT_FAILURES

/-- The condition under which an event frees no transaction that is still referred to.

    * A transaction that is refused, or whose publication is cancelled, is not in the wallet;
    * no update frees a listed transaction, and none in a reorganization a published one;
    * of the unconfirmed transactions, those that are removed, and those that depend on them, are
      not published, and none of the latter comes later in the snapshot. -/
def KeepsTx (m : BRPeerManager) : ManagerEvent → Prop
  | .publishTx _ reachable p _ => ∀ tx, m.wallet.heap.load p = some tx → m.Refuses reachable tx →
      m.Unheld p
  | .disconnected peer error => m.Cancels peer error →
      ∀ e ∈ m.publishedTx, e.callback ≠ none → ¬ m.wallet.Holds e.tx
  | .relayedBlock _ txHashes blockHeight timestamp =>
      m.wallet.KeepsListed txHashes blockHeight timestamp
  | .updateTransactions _ txHashes blockHeight timestamp =>
      m.wallet.KeepsListed txHashes blockHeight timestamp ∧
        m.SparesPublished txHashes blockHeight timestamp
  | .getdataDone _ peer success => m.maxConnectCount ≤ (m.markSynced peer success).syncedCount →
      Acyclic m.wallet.heap ∧
      ∀ ps, m.wallet.txUnconfirmedBefore (min m.wallet.transactions.length 10000)
          TX_UNCONFIRMED = some ps →
        (ps.Pairwise fun p q => m.Unrelayed p → ¬ Chain m.wallet.SpendsFrom q p) ∧
        ∀ p ∈ ps, m.Unrelayed p → ∀ e ∈ m.publishedTx, ¬ Chain m.wallet.SpendsFrom e.tx p
  | .requestedTx _ _ _ => Acyclic m.wallet.heap
  | _ => True

/-! ## The invariant -/

/-- What the manager and its wallet refer to is on the heap. -/
structure Owned (m : BRPeerManager) : Prop where
  known : m.Known
  wallet : m.wallet.Holding
  published : ∀ e ∈ m.publishedTx, m.wallet.heap.Live e.tx

section
variable {m m₁ m₂ m' : BRPeerManager} {env : Env} {fuel : ℕ} {now : ℤ} {peer : PeerAddr}
  {p q : Ptr} {tx : BRTransaction} {txHash : UInt256} {callback : Option ℕ}
  {es es' : List PublishedTx} {heap heap' : Heap BRTransaction} {w : BRWallet}
  {F : Ptr → Prop}

theorem Owned.intact (hm : m.Owned) : m.Intact where
  publishedTx := hm.published
  allTx h p hp := by
    obtain ⟨tx, htx, -⟩ := hm.wallet.listed.known hp
    exact ⟨tx, htx⟩
  transactions := hm.wallet.live

theorem Owned.lasting (hm : m.Owned) : m.Lasting :=
  ⟨hm.known, hm.wallet.listed.filed, hm.published⟩

theorem Lasting.owned (hm : m.Lasting) (hw : m.wallet.Holding) : m.Owned := ⟨hm.known, hw, hm.live⟩

/-- The wallet may change as long as it frees nothing, and the rest of an entry. -/
theorem Owned.frame (hm : m.Owned) (hw : m'.wallet.Holding)
    (hr : Heap.Retains BRTransaction.txHash m.wallet.heap m'.wallet.heap)
    (hlive : ∀ q, m.wallet.heap.Live q → m'.wallet.heap.Live q)
    (hkey : m'.publishedTx.map PublishedTx.key = m.publishedTx.map PublishedTx.key) :
    m'.Owned :=
  (hm.lasting.frame hw.listed.filed hr (fun e he => hlive _ (hm.published e he)) hkey).owned hw

theorem Owned.same (hm : m.Owned) (hw : m'.wallet = m.wallet)
    (hp : m'.publishedTx = m.publishedTx) : m'.Owned :=
  (hm.lasting.same hw hp).owned (hw ▸ hm.wallet)

theorem Owned.call (hm : m.Owned) (callback : Option ℕ) (error : Option Errno) :
    (m.call callback error).Owned := by
  cases callback with
  | none => exact hm
  | some k => exact hm.same rfl rfl

/-! ## Updates -/

/-- What is published and not known to the wallet is not held by it. -/
theorem Owned.not_holds (hm : m.Owned) {e : PublishedTx} (he : e ∈ m.publishedTx)
    (hk : m.wallet.allTx.lookup e.txHash = none) : ¬ m.wallet.Holds e.tx := by
  obtain ⟨tx, htx⟩ := hm.published e he
  have hhash : tx.txHash = e.txHash := hm.known.hash he htx
  rintro (hq | ⟨h, hh⟩)
  · have hlookup := hm.wallet.listed.listed hq htx
    rw [hhash, hk] at hlookup
    cases hlookup
  · rw [← hm.wallet.listed.filed.hash hh htx, hhash, hk] at hh
    cases hh

theorem confirm_owned (hm : m.Owned) (txHash : UInt256) :
    ∃ m', m.confirm txHash = some m' ∧ m'.Owned ∧
      m'.wallet = { m.wallet with heap := m'.wallet.heap } ∧
      ∀ q, m.wallet.Holds q → m'.wallet.heap.load q = m.wallet.heap.load q := by
  obtain ⟨heap', hu, hf⟩ := unpublish_frees (w := m.wallet) txHash hm.known hm.published
  have hF : ∀ q, (m.wallet.allTx.lookup txHash = none ∧
      ∃ e ∈ m.publishedTx, e.txHash = txHash ∧ e.tx = q) → ¬ m.wallet.Holds q := by
    rintro q ⟨hk, e, he, rfl, rfl⟩
    exact hm.not_holds he hk
  have hconfirm : m.confirm txHash = some { m.setHeap heap' with
      publishedTx := m.publishedTx.filter fun e => decide (e.txHash ≠ txHash)
      txRelays := SetMap.drop m.txRelays txHash } := by
    rw [confirm, hu]
    rfl
  refine ⟨_, hconfirm, ?_, rfl, fun q hq => hf.load q fun hFq => hF q hFq hq⟩
  exact (confirm_lasting hm.lasting hconfirm).1.owned (hm.wallet.frees hf hF)

/-- An update does not fail, and leaves what is referred to on the heap. -/
theorem updateTx_owned (now : ℤ) {txHashes : List UInt256} {b t : UInt32} (hm : m.Owned)
    (hkeep : m.wallet.KeepsListed txHashes b t) :
    ∃ m', m.updateTx now txHashes b t = some m' ∧ m'.Owned := by
  have hconfirm : ∃ m₁, (if b ≠ TX_UNCONFIRMED then txHashes.foldlM confirm m else some m) =
      some m₁ ∧ m₁.Owned ∧ m₁.wallet = { m.wallet with heap := m₁.wallet.heap } ∧
      ∀ q, m.wallet.Holds q → m₁.wallet.heap.load q = m.wallet.heap.load q := by
    split_ifs with hb
    · refine foldlM_isSome (P := fun _ (m₁ : BRPeerManager) => m₁.Owned ∧
        m₁.wallet = { m.wallet with heap := m₁.wallet.heap } ∧
        ∀ q, m.wallet.Holds q → m₁.wallet.heap.load q = m.wallet.heap.load q) ?_
        ⟨hm, rfl, fun _ _ => rfl⟩
      rintro done txHash m₁ - ⟨hm₁, hw, hload⟩
      obtain ⟨m₂, h₂, hm₂, hw₂, hload₂⟩ := confirm_owned hm₁ txHash
      have hholds : ∀ q, m.wallet.Holds q → m₁.wallet.Holds q := by
        intro q hq
        rw [hw]
        exact hq
      refine ⟨m₂, h₂, hm₂, ?_, ?_⟩
      · rw [hw₂, hw]
      · intro q hq
        rw [hload₂ q (hholds q hq), hload q hq]
    · exact ⟨m, rfl, hm, rfl, fun _ _ => rfl⟩
  obtain ⟨m₁, h₁, hm₁, hw, hload⟩ := hconfirm
  have hkeep₁ : m₁.wallet.KeepsListed txHashes b t := by
    rw [hw]
    exact hkeep.congr hload
  obtain ⟨w₁, hw₁, hhold, -⟩ := hm₁.wallet.updateTransactions hkeep₁ now
  have hupdate : m.updateTx now txHashes b t = some { m₁ with wallet := w₁ } := by
    rw [updateTx, h₁]
    simp only [Option.bind_eq_bind, Option.bind_some, hw₁]
  exact ⟨_, hupdate, (updateTx_lasting hm.lasting hupdate).owned hhold⟩

/-- Without a confirmation only heights and timestamps change. -/
theorem updateTx_unconfirmed_owned (now : ℤ) {txHashes : List UInt256} {t : UInt32}
    (hm : m.Owned) :
    ∃ w₁, m.updateTx now txHashes TX_UNCONFIRMED t = some { m with wallet := w₁ } ∧
      ({ m with wallet := w₁ } : BRPeerManager).Owned ∧
      w₁.transactions = m.wallet.transactions ∧
      ∀ q, w₁.heap.load q =
        (m.wallet.heap.load q).bind (m.wallet.updated txHashes TX_UNCONFIRMED t q) := by
  have hkeep := BRWallet.keepsListed_unconfirmed m.wallet txHashes t
  obtain ⟨w₁, hw₁, hhold, hlist, hload⟩ := hm.wallet.updateTransactions hkeep now
  have hupdate : m.updateTx now txHashes TX_UNCONFIRMED t = some { m with wallet := w₁ } := by
    rw [updateTx, if_neg (not_not.2 rfl)]
    simp only [Option.bind_eq_bind, Option.bind_some, hw₁]
  obtain ⟨m', hm', howned⟩ := updateTx_owned now hm hkeep
  obtain rfl := Option.some.inj (hupdate.symm.trans hm')
  exact ⟨w₁, hupdate, howned, hlist, hload⟩

/-! ## The handlers that free nothing held -/

theorem Owned.alloc (hm : m.Owned) (tx : BRTransaction) :
    (m.setHeap (m.wallet.heap.alloc tx)).Owned :=
  (hm.lasting.alloc tx).owned
    ⟨hm.wallet.listed.alloc tx, fun q hq => (hm.wallet.live q hq).alloc tx⟩

theorem Owned.registerTransaction {r : Bool} (hm : m.Owned)
    (h : m.wallet.registerTransaction env fuel now p = some (w, r)) :
    ({ m with wallet := w } : BRPeerManager).Owned :=
  (hm.lasting.registerTransaction h).owned (hm.wallet.registerTransaction h).1

theorem taken_owned (hm : m.Owned) (txHash : UInt256) (peer : PeerAddr) :
    (m.taken txHash peer).1.Owned :=
  (taken_lasting hm.lasting txHash peer).owned hm.wallet

theorem addTxToPublishList_owned {depth : ℕ} (hm : m.Owned)
    (h : addTxToPublishList depth m p callback = some m') : m'.Owned := by
  refine (addTxToPublishList_lasting hm.lasting h).owned ?_
  rw [(addTxToPublishList_live hm.published h).1]
  exact hm.wallet

theorem preserved_owned (env : Env) : Preserved env Owned where
  same hm hw hp _ _ _ _ := hm.same hw hp
  registers hm h := hm.registerTransaction h
  publishes hm h := addTxToPublishList_owned hm h
  updates {m m' now txHashes t} hm h := by
    obtain ⟨w₁, hw₁, howned, -⟩ := updateTx_unconfirmed_owned now hm
    cases hw₁.symm.trans h
    exact howned

theorem Owned.free (hm : m.Owned) (hp : m.Unheld p) : (m.setHeap (m.wallet.heap.free p)).Owned := by
  refine (hm.lasting.free hp.2).owned (hm.wallet.frees (.free _ p) ?_)
  rintro q rfl
  exact hp.1

theorem relayedTx_owned (hm : m.Owned) (hp : m.Unheld p)
    (h : m.relayedTx env fuel now peer p = some m') : m'.Owned := by
  obtain ⟨k, m₁, rfl, hm₁ | rfl⟩ := Preserved.relayedTx (fun _ => preserved_owned env)
    (fun k => taken_owned hm k peer) h
  · exact hm₁.call _ _
  · have hunheld : (m.taken k peer).1.Unheld p := ⟨hp.1, taken_ne hm.known hp.2 k peer⟩
    exact Owned.call ((taken_owned hm k peer).free hunheld) _ _

theorem hasTx_owned (hm : m.Owned) (h : m.hasTx env fuel now peer txHash = some m') :
    m'.Owned := by
  obtain ⟨m₁, rfl, hm₁⟩ := (preserved_owned env).hasTx (taken_owned hm txHash peer) h
  exact hm₁.call _ _

/-! ## The handlers that free -/

theorem publishTx_owned {reachable hasCallback : Bool} (hm : m.Owned)
    (hkeep : ∀ tx, m.wallet.heap.load p = some tx → m.Refuses reachable tx → m.Unheld p)
    (h : m.publishTx fuel now reachable p hasCallback = some m') : m'.Owned := by
  obtain ⟨tx, issued, callback, htx, ⟨hrefuses, error, rfl⟩ | h⟩ := publishTx_cases h
  · have hm₁ : ({ m with issued } : BRPeerManager).Owned := hm.same rfl rfl
    exact Owned.call (hm₁.free (hkeep tx htx hrefuses)) _ _
  · refine addTxToPublishList_owned ?_ h
    refine hm.frame ⟨hm.wallet.listed.store htx _ _, ?_⟩ (.store htx rfl) ?_ rfl
    · intro q hq
      exact (hm.wallet.live q hq).store _ htx
    · intro q hq
      exact hq.store _ htx

theorem requestedTx_owned (hm : m.Owned) (h : m.requestedTx env fuel now peer txHash = some m') :
    m'.Owned := by
  refine (requestedTx_lasting hm.lasting h).owned ?_
  obtain ⟨s, hs, h⟩ := Option.bind_eq_some_iff.1 h
  obtain ⟨F, hf, hF, -⟩ := request_frees hm.known hm.published hs
  have hwallet : ({ m.wallet with heap := s.heap } : BRWallet).Holding := by
    refine hm.wallet.frees hf ?_
    intro q hq
    obtain ⟨hk, e, he, rfl, rfl⟩ := hF q hq
    exact hm.not_holds he hk
  split at h
  · obtain ⟨⟨w₁, isWalletTx⟩, hregister, h⟩ := Option.bind_eq_some_iff.1 h
    cases h
    cases s.callback <;> exact (hwallet.registerTransaction hregister).1
  · cases h
    cases s.callback <;> exact hwallet

/-- The loop reads only transactions that it has not freed. -/
theorem request_isSome {rank : UInt256 → ℕ} (hm : m.Owned) (hrank : Ranked m.wallet.heap rank)
    (hfuel : ∀ h, rank h < fuel) {es : List PublishedTx} (hes : ∀ e ∈ es, e ∈ m.publishedTx)
    (h : Published m.wallet.heap es) :
    ∃ s, request fuel m.wallet txHash es { heap := m.wallet.heap } = some s := by
  induction es with
  | nil => exact ⟨_, rfl⟩
  | cons e es ih =>
    obtain ⟨s₁, hs₁⟩ := ih (fun d hd => hes d (List.mem_cons_of_mem _ hd)) h.tail
    simp only [request, hs₁, Option.bind_eq_bind, Option.bind_some]
    by_cases heq : e.txHash = txHash
    · have hs₁ : s₁ = { heap := m.wallet.heap, publishedTx := es ++ [] } :=
        request_of_ne (heq ▸ h.not_mem) hs₁
      subst hs₁
      obtain ⟨tx, htx⟩ := hm.published e (hes e List.mem_cons_self)
      obtain ⟨valid, hvalid⟩ := BRWallet.transactionIsValid_isSome hm.wallet.listed hrank
        ⟨e.tx, htx⟩ (hfuel tx.txHash)
      rw [if_neg (not_not.2 heq)]
      simp only [htx, hvalid, Option.bind_some]
      split_ifs <;> exact ⟨_, rfl⟩
    · rw [if_pos heq]
      exact ⟨_, rfl⟩

/-- Without a cancellation the published transactions stay. -/
theorem disconnected_kept {error : Option Errno} (h : ¬ m.Cancels peer error) :
    ∃ m', m.disconnected peer error = some m' ∧ m'.wallet = m.wallet ∧
      m'.publishedTx = m.publishedTx := by
  simp only [Cancels, not_or] at h
  unfold disconnected
  by_cases hd : m.downloadPeer = some peer
  · simp only [hd, if_true, true_and, min_eq_right_iff] at h ⊢
    simp only [if_neg h.1, if_neg h.2]
    exact ⟨_, rfl, rfl, rfl⟩
  · simp only [hd, if_false] at h ⊢
    simp only [if_neg h.1, if_neg h.2]
    exact ⟨_, rfl, rfl, rfl⟩

theorem disconnected_cancels {error : Option Errno} {callbacks : List ℕ}
    (h : m.Cancels peer error)
    (hc : cancel m.publishedTx m.wallet.heap = some (es, callbacks, heap)) :
    ∃ m', m.disconnected peer error = some m' ∧ m'.wallet = { m.wallet with heap } ∧
      m'.publishedTx = es := by
  simp only [Cancels] at h
  unfold disconnected
  by_cases hd : m.downloadPeer = some peer
  · simp only [hd, if_true, true_and, min_eq_right_iff] at h ⊢
    by_cases hsync : MAX_CONNECT_FAILURES ≤ if error ≠ none ∧ error ≠ some Errno.EPROTO then
        m.connectFailureCount + 1 else m.connectFailureCount
    · simp only [if_pos hsync, hc]
      exact ⟨_, rfl, rfl, rfl⟩
    · simp only [if_neg hsync, if_pos (h.resolve_right hsync), hc]
      exact ⟨_, rfl, rfl, rfl⟩
  · simp only [hd, if_false] at h ⊢
    by_cases hsync : m.isConnected = false ∧
        (if error ≠ none ∧ error ≠ some Errno.EPROTO then m.connectFailureCount + 1
          else m.connectFailureCount) = MAX_CONNECT_FAILURES
    · simp only [if_pos hsync, hc]
      exact ⟨_, rfl, rfl, rfl⟩
    · simp only [if_neg hsync, if_pos (h.resolve_right hsync), hc]
      exact ⟨_, rfl, rfl, rfl⟩

/-- A disconnection does not fail, and frees only what is published with a callback. -/
theorem disconnected_owned {error : Option Errno} (hm : m.Owned)
    (hkeep : m.Cancels peer error →
      ∀ e ∈ m.publishedTx, e.callback ≠ none → ¬ m.wallet.Holds e.tx) :
    ∃ m', m.disconnected peer error = some m' ∧ m'.Owned := by
  by_cases h : m.Cancels peer error
  · obtain ⟨callbacks, heap', hc, hf⟩ := cancel_frees hm.known hm.published
    obtain ⟨m', hm', hw, -⟩ := disconnected_cancels h hc
    refine ⟨m', hm', (disconnected_lasting hm.lasting hm').owned ?_⟩
    rw [hw]
    refine hm.wallet.frees hf ?_
    rintro q ⟨e, he, hcallback, rfl⟩
    exact hkeep h e he hcallback
  · obtain ⟨m', hm', hw, hp⟩ := disconnected_kept h
    exact ⟨m', hm', hm.same hw hp⟩

end

end BRPeerManager

end RavenWallet
