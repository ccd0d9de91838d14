/-
  The peers that relay a transaction, or that it was requested from (`txRelays`
  and `txRequests` of BRPeerManager.c).

  * `handle_distinct`, `run_distinct`: in every run, there is one entry for a
    transaction in each list, with different peers;
  * `disconnected_lists`: what a disconnection leaves of the lists;
  * `bookkeeping_iff`: both lists are maps to sets of peers, and a disconnected
    peer is in neither exactly if nothing was requested from it.
-/
import RavenWallet.Peer.TxManager

namespace RavenWallet

namespace BRPeerManager

/-- There is one entry for a transaction in each list, with different peers. -/
structure Distinct (m : BRPeerManager) : Prop where
  relays : SetMap.Distinct m.txRelays
  requests : SetMap.Distinct m.txRequests

section
variable {m m' : BRPeerManager} {env : Env} {fuel : ℕ} {now : ℤ} {peer : PeerAddr} {p : Ptr}
  {txHash : UInt256}

/-! ## What the parts of the handlers do to the lists -/

theorem Distinct.call (h : m.Distinct) (callback : Option ℕ) (error : Option Errno) :
    (m.call callback error).Distinct := by
  cases callback with
  | none => exact h
  | some k => exact ⟨h.relays, h.requests⟩

theorem Distinct.addTxToPublishList {depth : ℕ} {callback : Option ℕ} (hm : m.Distinct)
    (h : BRPeerManager.addTxToPublishList depth m p callback = some m') : m'.Distinct := by
  induction depth generalizing m p callback m' with
  | zero => cases h
  | succ depth ih =>
    obtain ⟨tx, -, h⟩ := Option.bind_eq_some_iff.1 h
    split_ifs at h
    · cases h
      exact hm
    · obtain ⟨published, -, h⟩ := Option.bind_eq_some_iff.1 h
      split_ifs at h
      · cases h
        exact hm
      · have hm' : ({ m with publishedTx := m.publishedTx ++ [⟨p, tx.txHash, callback⟩] } :
            BRPeerManager).Distinct := ⟨hm.relays, hm.requests⟩
        refine foldlM_invariant (P := Distinct) ?_ hm' h
        intro m i m' _ hm hstep
        cases hlookup : m.wallet.allTx.lookup i.txHash with
        | none =>
          rw [hlookup] at hstep
          cases hstep
          exact hm
        | some q =>
          rw [hlookup] at hstep
          exact ih hm hstep

theorem Distinct.confirm (hm : m.Distinct) (h : m.confirm txHash = some m') : m'.Distinct := by
  obtain ⟨r, -, h⟩ := Option.bind_eq_some_iff.1 h
  cases h
  exact ⟨hm.relays.drop txHash, hm.requests⟩

theorem Distinct.updateTx {txHashes : List UInt256} {blockHeight timestamp : UInt32}
    (hm : m.Distinct) (h : m.updateTx now txHashes blockHeight timestamp = some m') :
    m'.Distinct := by
  simp only [BRPeerManager.updateTx, Option.bind_eq_bind, Option.bind_eq_some_iff] at h
  obtain ⟨m₁, h₁, wallet, -, h⟩ := h
  have hm₁ : m₁.Distinct := by
    split_ifs at h₁
    · exact foldlM_invariant (P := Distinct) (fun _ hm h => Distinct.confirm hm h) hm h₁
    · cases h₁
      exact hm
  cases h
  exact ⟨hm₁.relays, hm₁.requests⟩

theorem takeCallback_distinct {es : List PublishedTx} {s : Taking}
    (h : SetMap.Distinct s.txRelays) :
    SetMap.Distinct (takeCallback txHash peer es s).txRelays := by
  induction es with
  | nil => exact h
  | cons e es ih =>
    rw [takeCallback]
    split_ifs
    · exact ih.add txHash peer
    · exact ih

theorem Distinct.taken (hm : m.Distinct) (txHash : UInt256) (peer : PeerAddr) :
    (m.taken txHash peer).1.Distinct := ⟨takeCallback_distinct hm.relays, hm.requests⟩

/-! ## The handlers -/

theorem preserved_distinct (env : Env) : Preserved env Distinct where
  same hm _ _ _ _ hr hq := ⟨hr hm.relays, hq hm.requests⟩
  registers hm _ := ⟨hm.relays, hm.requests⟩
  publishes hm h := hm.addTxToPublishList h
  updates hm h := hm.updateTx h

theorem Distinct.relayedTx (hm : m.Distinct) (h : m.relayedTx env fuel now peer p = some m') :
    m'.Distinct := by
  obtain ⟨k, m₁, rfl, hm₁ | rfl⟩ := Preserved.relayedTx (fun _ => preserved_distinct env)
    (fun k => hm.taken k peer) h
  · exact hm₁.call _ _
  · refine Distinct.call ?_ _ _
    exact ⟨(hm.taken k peer).relays, (hm.taken k peer).requests⟩

theorem Distinct.hasTx (hm : m.Distinct) (h : m.hasTx env fuel now peer txHash = some m') :
    m'.Distinct := by
  obtain ⟨m₁, rfl, hm₁⟩ := (preserved_distinct env).hasTx (hm.taken txHash peer) h
  exact hm₁.call _ _

theorem Distinct.requestedTx (hm : m.Distinct)
    (h : m.requestedTx env fuel now peer txHash = some m') : m'.Distinct := by
  obtain ⟨s, -, h⟩ := Option.bind_eq_some_iff.1 h
  split at h
  · obtain ⟨wallet, -, h⟩ := Option.bind_eq_some_iff.1 h
    cases h
    refine Distinct.call ?_ _ _
    exact ⟨hm.relays.add txHash peer, hm.requests⟩
  · cases h
    refine Distinct.call ?_ _ _
    exact ⟨hm.relays, hm.requests⟩

/-- A disconnection removes the peer from the first list only. -/
theorem disconnected_lists {error : Option Errno} (h : m.disconnected peer error = some m') :
    m'.txRelays = SetMap.removeAll m.txRelays peer ∧ m'.txRequests = m.txRequests := by
  simp only [disconnected] at h
  split at h
  · cases h
    split_ifs <;> exact ⟨rfl, rfl⟩
  · obtain ⟨r, -, h⟩ := Option.bind_eq_some_iff.1 h
    cases h
    dsimp only
    split_ifs <;> exact ⟨rfl, rfl⟩

theorem Distinct.publishTx {reachable hasCallback : Bool} (hm : m.Distinct)
    (h : m.publishTx fuel now reachable p hasCallback = some m') : m'.Distinct := by
  simp only [BRPeerManager.publishTx, Option.bind_eq_bind, Option.bind_eq_some_iff] at h
  obtain ⟨tx, -, h⟩ := h
  have hissue : (m.issue hasCallback).1.Distinct := by
    rw [issue]
    split_ifs
    · exact ⟨hm.relays, hm.requests⟩
    · exact hm
  split_ifs at h
  · cases h
    refine Distinct.call ?_ _ _
    exact ⟨hissue.relays, hissue.requests⟩
  · cases h
    refine Distinct.call ?_ _ _
    exact ⟨hissue.relays, hissue.requests⟩
  · refine Distinct.addTxToPublishList ?_ h
    exact ⟨hissue.relays, hissue.requests⟩

/-! ## Runs -/

theorem handle_distinct {event : ManagerEvent} (hm : m.Distinct)
    (h : m.handle env fuel event = some m') : m'.Distinct := by
  cases event with
  | alloc tx =>
    cases h
    exact ⟨hm.relays, hm.requests⟩
  | publishTx now reachable p hasCallback => exact Distinct.publishTx hm h
  | relayedTx now peer tx =>
    refine Distinct.relayedTx ?_ h
    exact ⟨hm.relays, hm.requests⟩
  | hasTx now peer txHash => exact Distinct.hasTx hm h
  | requestedTx now peer txHash => exact Distinct.requestedTx hm h
  | disconnected peer error =>
    obtain ⟨hrelays, hrequests⟩ := disconnected_lists h
    refine ⟨?_, ?_⟩
    · rw [hrelays]
      exact hm.relays.removeAll peer
    · rw [hrequests]
      exact hm.requests
  | relayedBlock now txHashes blockHeight timestamp => exact Distinct.updateTx hm h
  | _ =>
    exact (preserved_distinct env).handle_wallet (fun _ hm₁ _ => ⟨hm₁.relays, hm₁.requests⟩) hm h
      trivial

theorem run_distinct {G : BRPeerManager → ManagerEvent → Prop} (h : (system env).Run G m) :
    m.Distinct := by
  refine h.invariant (J := fun _ => True) (fun _ => trivial) ?_ ?_
  · rintro s ⟨wallet, -, rfl⟩
    exact ⟨SetMap.Distinct.nil, SetMap.Distinct.nil⟩
  · rintro s event s' - hs - ⟨fuel, hstep⟩ -
    exact handle_distinct hs hstep

/-! ## Maps to sets of peers -/

/-- The peers that are listed for a transaction. -/
abbrev peersOf (list : List TxPeerList) (txHash : UInt256) : Finset PeerAddr :=
  SetMap.setOf list txHash

/-- The list is a map from transactions to sets of peers, to which the functions on it add and from
    which they remove. -/
structure IsPeerMap (list : List TxPeerList) : Prop where
  hasPeer : ∀ txHash peer,
    txPeerListHasPeer list txHash peer = true ↔ peer ∈ peersOf list txHash
  count : ∀ txHash, txPeerListCount list txHash = (peersOf list txHash).card
  addPeer : ∀ txHash peer, peersOf (txPeerListAddPeer list txHash peer).1 =
    Function.update (peersOf list) txHash (insert peer (peersOf list txHash))
  added : ∀ txHash peer, (txPeerListAddPeer list txHash peer).2 =
    (peersOf (txPeerListAddPeer list txHash peer).1 txHash).card
  removePeer : ∀ txHash peer, peersOf (txPeerListRemovePeer list txHash peer).1 =
    Function.update (peersOf list) txHash ((peersOf list txHash).erase peer)
  found : ∀ txHash peer,
    (txPeerListRemovePeer list txHash peer).2 = true ↔ peer ∈ peersOf list txHash
  /-- also the entries that are not searched have no duplicates -/
  entries : (list.map Prod.fst).Nodup ∧ ∀ e ∈ list, e.2.Nodup

theorem isPeerMap {list : List TxPeerList} (h : SetMap.Distinct list) : IsPeerMap list where
  hasPeer _ _ := SetMap.has_iff
  count txHash := h.count_eq txHash
  addPeer txHash peer := SetMap.setOf_add list txHash peer
  added txHash peer := h.add_count txHash peer
  removePeer txHash peer := h.setOf_remove txHash peer
  found _ _ := SetMap.remove_found
  entries := ⟨h.keys, h.elements⟩

/-- The peer is in no entry of the list. -/
def Unlisted (list : List TxPeerList) (peer : PeerAddr) : Prop := ∀ e ∈ list, peer ∉ e.2

end

/-- In every run both lists are maps from transactions to sets of peers, and a peer that is
    disconnected is in neither exactly if it was in no entry of the requests. -/
theorem bookkeeping_iff (env : Env) {G : BRPeerManager → ManagerEvent → Prop} {m : BRPeerManager}
    (hrun : (system env).Run G m) :
    IsPeerMap m.txRelays ∧ IsPeerMap m.txRequests ∧
    ∀ peer error m', m.disconnected peer error = some m' →
      ((Unlisted m'.txRelays peer ∧ Unlisted m'.txRequests peer) ↔
        Unlisted m.txRequests peer) := by
  have hm := run_distinct hrun
  refine ⟨isPeerMap hm.relays, isPeerMap hm.requests, ?_⟩
  intro peer error m' h
  obtain ⟨hrelays, hrequests⟩ := disconnected_lists h
  rw [hrelays, hrequests]
  refine and_iff_right ?_
  intro e he
  exact SetMap.not_mem_removeAll he

/-- A peer of the local host. -/
def localPeer : PeerAddr := ⟨1, 8767⟩

/-- An unconfirmed transaction is requested from a peer, which then disconnects. -/
theorem not_bookkeeping : ¬ ∀ (env : Env) (m : BRPeerManager),
    (system env).Run (fun _ _ => True) m → ∀ peer error m', m.disconnected peer error = some m' →
      Unlisted m'.txRelays peer ∧ Unlisted m'.txRequests peer := by
  intro h
  have hbad : ∃ w, BRWallet.new BRWallet.sampleEnv 100 0 ⟨[some BRWallet.receipt]⟩ [0] =
      some (some w) ∧ ∃ m, ({ wallet := w } : BRPeerManager).handle BRWallet.sampleEnv 100
        (.publishTxInvDone localPeer) = some m ∧ ∃ m', m.disconnected localPeer none = some m' ∧
        m'.txRequests = [(1, [localPeer])] :=
    ⟨_, rfl, _, rfl, _, rfl, by decide⟩
  obtain ⟨w, hw, m, hstep, m', hdisc, hrequests⟩ := hbad
  have hrun : (system BRWallet.sampleEnv).Run (fun _ _ => True) m :=
    .step (.init ⟨w, ⟨100, 0, _, _, hw⟩, rfl⟩) trivial ⟨100, hstep⟩
  have hlisted := (h BRWallet.sampleEnv m hrun localPeer none m' hdisc).2 (1, [localPeer])
    (by rw [hrequests]; exact List.mem_singleton_self _)
  exact hlisted (List.mem_singleton_self _)

/-- Another peer of the local host. -/
def otherPeer : PeerAddr := ⟨1, 8768⟩

/-- A transaction is requested from one peer, and another one relays it: that one is in no list once
    it is disconnected, and the first one stays in the requests. -/
theorem bookkeeping_receipt : ∃ w m m' m'', (BRWallet.system BRWallet.sampleEnv).init w ∧
    [ManagerEvent.connect localPeer, .connect otherPeer, .publishTxInvDone localPeer,
      .hasTx 0 otherPeer 1].foldlM (handle BRWallet.sampleEnv 100) { wallet := w } = some m ∧
    m.txRequests = [(1, [localPeer])] ∧ m.txRelays = [(1, [otherPeer])] ∧
    m.disconnected otherPeer none = some m' ∧ m.disconnected localPeer none = some m'' ∧
    (Unlisted m'.txRelays otherPeer ∧ Unlisted m'.txRequests otherPeer) ∧
    ¬ (Unlisted m''.txRelays localPeer ∧ Unlisted m''.txRequests localPeer) := by
  have hgood : ∃ w, BRWallet.new BRWallet.sampleEnv 100 0 ⟨[some BRWallet.receipt]⟩ [0] =
      some (some w) ∧ ∃ m, [ManagerEvent.connect localPeer, .connect otherPeer,
        .publishTxInvDone localPeer, .hasTx 0 otherPeer 1].foldlM
          (handle BRWallet.sampleEnv 100) { wallet := w } = some m ∧
      m.txRequests = [(1, [localPeer])] ∧ m.txRelays = [(1, [otherPeer])] ∧
      (∃ m', m.disconnected otherPeer none = some m') ∧
      ∃ m'', m.disconnected localPeer none = some m'' :=
    ⟨_, rfl, _, rfl, by decide, by decide, ⟨_, rfl⟩, _, rfl⟩
  obtain ⟨w, hw, m, hevents, hrequests, hrelays, ⟨m', h'⟩, m'', h''⟩ := hgood
  have hwallet : (BRWallet.system BRWallet.sampleEnv).init w := ⟨100, 0, _, _, hw⟩
  have hrun : (system BRWallet.sampleEnv).Run (fun _ _ => True) m :=
    .foldlM (fun hstep => ⟨trivial, 100, hstep⟩) (.init ⟨w, hwallet, rfl⟩) hevents
  obtain ⟨-, -, hlists⟩ := bookkeeping_iff BRWallet.sampleEnv hrun
  refine ⟨w, m, m', m'', hwallet, hevents, hrequests, hrelays, h', h'', ?_, ?_⟩
  · rw [hlists otherPeer none m' h', hrequests]
    intro e he
    rw [List.mem_singleton.1 he]
    decide
  · rw [hlists localPeer none m'' h'', hrequests]
    intro hunlisted
    exact hunlisted _ (List.mem_singleton_self _) (List.mem_singleton_self _)

end BRPeerManager

end RavenWallet
