/-
  What the peer manager and its wallet refer to is never freed (BRPeerManager.c).

  `KeepsTx` leaves out the events that free what is referred to.  The loop of
  `_requestUnrelayedTxGetdataDone` walks over a snapshot of the unconfirmed
  transactions, and removes some with those that depend on them.

  * `dropUnrelayed_isSome`: a round of the loop reads no freed transaction, and frees only
    what depends on the one that it removes;
  * `handle_intact`, `handle_completes`: the handlers, one event at a time;
  * `run_references`: in every run whose events meet `KeepsTx`, what is referred to is on
    the heap, and no handler reads what it has freed.
-/
import RavenWallet.Peer.Ownership

namespace RavenWallet

namespace BRPeerManager

section
variable {m m₁ m₂ m' : BRPeerManager} {env : Env} {fuel n : ℕ} {now : ℤ} {peer : PeerAddr}
  {p q : Ptr} {tx : BRTransaction} {rank : UInt256 → ℕ} {w : BRWallet} {ps : List Ptr}

theorem Walked.owned (hw : Walked m m₁) (hold : m₁.wallet.Holding) : m₁.Owned :=
  ⟨hw.lasting.known, hold, hw.lasting.live⟩

/-- What is new on the heap is not referred to. -/
theorem Owned.unheld_fresh (hm : m.Owned) (tx : BRTransaction) :
    (m.setHeap (m.wallet.heap.alloc tx)).Unheld m.wallet.heap.fresh := by
  have hlive : ¬ m.wallet.heap.Live m.wallet.heap.fresh := by
    rintro ⟨t, ht⟩
    exact Nat.lt_irrefl _ (Heap.load_lt ht)
  refine ⟨?_, ?_⟩
  · rintro (hp | ⟨h, hp⟩)
    · exact hlive (hm.wallet.live _ hp)
    · exact hlive (hm.intact.allTx h _ hp)
  · intro e he heq
    exact hlive (heq ▸ hm.published e he)

/-! ## The snapshot -/

theorem txUnconfirmedBefore_isSome (hw : w.Holding) (count : ℕ) (b : UInt32) :
    ∃ ps, w.txUnconfirmedBefore count b = some ps := by
  simp only [BRWallet.txUnconfirmedBefore, BRWallet.suffix_rtakeWhile hw.live, Option.bind_eq_bind,
    Option.bind_some]
  exact ⟨_, rfl⟩

/-- Whether a transaction is being published is known while both are on the heap. -/
theorem publishing_isSome (hm : m.Owned) (hp : m.wallet.heap.Live p) :
    ∃ b, (m.publishedTx.reverse.anyM fun e => do
      let eq ← txEq m.wallet.heap e.tx p
      some (eq && e.callback.isSome)) = some b := by
  have htest : ∀ e ∈ m.publishedTx.reverse, txEq m.wallet.heap e.tx p =
      some ((txEq m.wallet.heap e.tx p).getD false) := by
    intro e he
    obtain ⟨t, ht⟩ := hm.published e (List.mem_reverse.1 he)
    obtain ⟨tx, htx⟩ := hp
    rw [txEq]
    split_ifs
    · rfl
    · simp [ht, htx]
  refine ⟨_, anyM_some (p := fun e : PublishedTx => do
    let eq ← txEq m.wallet.heap e.tx p
    some (eq && e.callback.isSome))
    (b := fun e : PublishedTx => (txEq m.wallet.heap e.tx p).getD false && e.callback.isSome)
    fun e he => ?_⟩
  rw [htest e he]
  rfl

/-- An update without a height only changes heights and timestamps. -/
theorem updated_unconfirmed (w : BRWallet) (txHashes : List UInt256) (t : UInt32) (q : Ptr)
    (tx : BRTransaction) :
    ∃ tx', w.updated txHashes TX_UNCONFIRMED t q tx = some tx' ∧ tx'.txHash = tx.txHash ∧
      tx'.inputs = tx.inputs := by
  rw [BRWallet.updated]
  split_ifs with htouch hfree
  · simp [BRWallet.frees] at hfree
  · exact ⟨_, rfl, rfl, rfl⟩
  · exact ⟨_, rfl, rfl, rfl⟩

/-! ## A round of the loop -/

/-- `m₁` is `m` in the middle of the walk, which has still enough fuel. -/
structure Walking (m : BRPeerManager) (rank : UInt256 → ℕ) (m₁ : BRPeerManager) : Prop where
  walked : Walked m m₁
  wallet : m₁.wallet.Holding
  ranked : Ranked m₁.wallet.heap rank
  length : m₁.wallet.transactions.length ≤ m.wallet.transactions.length

theorem Walking.owned (hw : Walking m rank m₁) : m₁.Owned := hw.walked.owned hw.wallet

/-- A removal frees only what depends on the transaction. -/
theorem Walked.drops (hw : Walked m m₁) (hp : p ∈ m.wallet.transactions)
    (htx : m₁.wallet.heap.load p = some tx) (hun : TX_UNCONFIRMED ≤ tx.blockHeight)
    (h : BRWallet.removeTransaction now fuel m₁.wallet tx.txHash = some w) :
    ∃ F, BRWallet.Removed m₁.wallet F w ∧ ∀ q, F q → Chain m.wallet.SpendsFrom q p := by
  have hlookup := hw.lasting.filed.listed (hw.kept p hp ⟨tx, htx⟩) htx
  have hhash : m₁.wallet.HashUnconfirmed tx.txHash := by
    intro q t hq ht
    obtain rfl := Option.some.inj (hlookup.symm.trans hq)
    obtain rfl := Option.some.inj (htx.symm.trans ht)
    exact hun
  obtain ⟨F, hF, -, hdepends⟩ := BRWallet.removeTransaction_drops hw.lasting.filed hhash h
  refine ⟨F, hF, fun q hq => ?_⟩
  obtain ⟨r, hr, hchain⟩ := hdepends q hq
  obtain rfl := Option.some.inj (hlookup.symm.trans hr)
  exact hchain.mono fun _ _ hs => hw.spendsFrom hs

theorem dropUnrelayed_holding (hm : m.Owned) (h : dropUnrelayed fuel now m p = some m') :
    m'.wallet.Holding := by
  obtain rfl | ⟨tx, ⟨w, hremove, rfl⟩ | hupdate⟩ := dropUnrelayed_cases h
  · exact hm.wallet
  · exact BRWallet.removeTransaction_holding hm.wallet hremove
  · obtain ⟨w₁, hw₁, howned, -⟩ := updateTx_unconfirmed_owned now hm
    obtain rfl := Option.some.inj (hw₁.symm.trans hupdate)
    exact howned.wallet

/-- What a round for `p` leaves.  It frees only what depends on `p`, and only if `p` is
    removed. -/
structure Leaves (m : BRPeerManager) (rank : UInt256 → ℕ) (p : Ptr) (m₁ m₂ : BRPeerManager) :
    Prop where
  ranked : Ranked m₂.wallet.heap rank
  length : m₂.wallet.transactions.length ≤ m.wallet.transactions.length
  live : ∀ q, m₁.wallet.heap.Live q → (m.Unrelayed p → ¬ Chain m.wallet.SpendsFrom q p) →
    m₂.wallet.heap.Live q

theorem Walking.leaves (hw : Walking m rank m₁) (p : Ptr) : Leaves m rank p m₁ m₁ :=
  ⟨hw.ranked, hw.length, fun _ hq _ => hq⟩

/-- It is removed with what depends on it. -/
theorem Walking.removes (now : ℤ) (hw : Walking m rank m₁) (hn : ∀ g, rank g < n)
    (hfuel : m.wallet.transactions.length * (n + 1) + n + n + 1 ≤ fuel)
    (hp : p ∈ m.wallet.transactions)
    (hun : ∃ t, m.wallet.heap.load p = some t ∧ TX_UNCONFIRMED ≤ t.blockHeight)
    (htx : m₁.wallet.heap.load p = some tx) (hdropped : m.Unrelayed p) :
    ∃ w, BRWallet.removeTransaction now fuel m₁.wallet tx.txHash = some w ∧
      Leaves m rank p m₁ { m₁ with wallet := w } := by
  have hlen := Nat.mul_le_mul_right (n + 1) hw.length
  have hle : m₁.wallet.transactions.length * (n + 1) + (n - rank tx.txHash) + n + 1 ≤ fuel := by
    omega
  obtain ⟨w, hremove⟩ : ∃ w, BRWallet.removeTransaction now fuel m₁.wallet tx.txHash = some w :=
    BRWallet.removeTransaction_isSome hn hw.wallet hw.ranked hle
  have hheight : TX_UNCONFIRMED ≤ tx.blockHeight := by
    obtain ⟨t, ht, hun⟩ := hun
    obtain ⟨t₀, ht₀, -, -, hheight⟩ := hw.walked.load p tx htx
    obtain rfl := Option.some.inj (ht.symm.trans ht₀)
    exact hheight.2 hun
  obtain ⟨F, hF, hdepends⟩ := hw.walked.drops hp htx hheight hremove
  refine ⟨w, hremove, hF.ranked hw.ranked, hF.sublist.length_le.trans hw.length, ?_⟩
  intro q hq hchain
  exact hF.heap.live hq fun hFq => hchain hdropped (hdepends q hFq)

/-- Only its timestamp changes. -/
theorem Walking.updates (now : ℤ) (hw : Walking m rank m₁) (txHashes : List UInt256) (p : Ptr) :
    ∃ m₂, m₁.updateTx now txHashes TX_UNCONFIRMED 0 = some m₂ ∧ Leaves m rank p m₁ m₂ := by
  obtain ⟨w₁, hw₁, -, hlist, hload⟩ := updateTx_unconfirmed_owned now (t := 0) hw.owned
  refine ⟨_, hw₁, hw.ranked.of_load ?_, hlist ▸ hw.length, ?_⟩
  · intro q t' ht'
    rw [hload] at ht'
    obtain ⟨t, ht, hupdated⟩ := Option.bind_eq_some_iff.1 ht'
    obtain ⟨t₁, ht₁, hhash, hinputs⟩ := updated_unconfirmed m₁.wallet txHashes 0 q t
    obtain rfl := Option.some.inj (hupdated.symm.trans ht₁)
    exact ⟨t, ht, hhash.symm, hinputs.symm⟩
  · rintro q ⟨t, ht⟩ -
    obtain ⟨t₁, ht₁, -⟩ := updated_unconfirmed m₁.wallet txHashes 0 q t
    exact ⟨t₁, by rw [hload, ht, Option.bind_some, ht₁]⟩

theorem dropUnrelayed_isSome (now : ℤ) (hw : Walking m rank m₁) (hn : ∀ g, rank g < n)
    (hfuel : m.wallet.transactions.length * (n + 1) + n + n + 1 ≤ fuel)
    (hp : p ∈ m.wallet.transactions) (hlive : m₁.wallet.heap.Live p)
    (hun : ∃ t, m.wallet.heap.load p = some t ∧ TX_UNCONFIRMED ≤ t.blockHeight)
    (hkeep : m.Unrelayed p → ∀ e ∈ m.publishedTx, ¬ Chain m.wallet.SpendsFrom e.tx p) :
    ∃ m₂, dropUnrelayed fuel now m₁ p = some m₂ ∧ Walking m rank m₂ ∧ Leaves m rank p m₁ m₂ := by
  obtain ⟨tx, htx⟩ := hlive
  obtain ⟨isPublishing, hpublishing⟩ := publishing_isSome hw.owned ⟨tx, htx⟩
  have hround : ∃ m₂, dropUnrelayed fuel now m₁ p = some m₂ ∧ Leaves m rank p m₁ m₂ := by
    rw [dropUnrelayed, hpublishing]
    simp only [htx, Option.bind_eq_bind, Option.bind_some]
    cases isPublishing with
    | true => exact ⟨m₁, rfl, hw.leaves p⟩
    | false =>
      rw [if_neg (by simp)]
      split_ifs with hunrelayed
      · have hdropped : m.Unrelayed p := hw.walked.unrelayed
          ⟨tx, htx, not_publishing hw.walked.lasting.known htx hpublishing, hunrelayed⟩
        obtain ⟨w, hremove, hleaves⟩ := hw.removes now hn hfuel hp hun htx hdropped
        exact ⟨_, by rw [hremove]; rfl, hleaves⟩
      · exact hw.updates now [tx.txHash] p
      · exact ⟨m₁, rfl, hw.leaves p⟩
  obtain ⟨m₂, h, hleaves⟩ := hround
  have hwalked := dropUnrelayed_walked hw.walked hp hun hkeep h
  exact ⟨m₂, h, ⟨hwalked, dropUnrelayed_holding hw.owned h, hleaves.ranked, hleaves.length⟩,
    hleaves⟩

/-- The walk ends, and reads no freed transaction. -/
theorem walk_isSome (now : ℤ) (hw : Walking m rank m₁) (hn : ∀ g, rank g < n)
    (hfuel : m.wallet.transactions.length * (n + 1) + n + n + 1 ≤ fuel)
    (hps : ∀ p ∈ ps, p ∈ m.wallet.transactions ∧
      ∃ t, m.wallet.heap.load p = some t ∧ TX_UNCONFIRMED ≤ t.blockHeight)
    (hlater : ps.Pairwise fun p q => m.Unrelayed p → ¬ Chain m.wallet.SpendsFrom q p)
    (hkeep : ∀ p ∈ ps, m.Unrelayed p → ∀ e ∈ m.publishedTx, ¬ Chain m.wallet.SpendsFrom e.tx p)
    (hlive : ∀ p ∈ ps, m₁.wallet.heap.Live p) :
    ∃ m', ps.foldlM (dropUnrelayed fuel now) m₁ = some m' := by
  induction ps generalizing m₁ with
  | nil => exact ⟨m₁, rfl⟩
  | cons p ps ih =>
    obtain ⟨hp, hun⟩ := hps p List.mem_cons_self
    obtain ⟨hfirst, hlater⟩ := List.pairwise_cons.1 hlater
    have hp' := hlive p List.mem_cons_self
    obtain ⟨m₂, hround, hw₂, hleaves⟩ :=
      dropUnrelayed_isSome now hw hn hfuel hp hp' hun (hkeep p List.mem_cons_self)
    rw [List.foldlM_cons, hround]
    refine ih hw₂ ?_ hlater ?_ ?_
    · intro q hq
      exact hps q (List.mem_cons_of_mem _ hq)
    · intro q hq
      exact hkeep q (List.mem_cons_of_mem _ hq)
    · intro q hq
      -- what comes later in the snapshot does not depend on `p`
      exact hleaves.live q (hlive q (List.mem_cons_of_mem _ hq)) (hfirst q hq)

/-! ## The handlers -/

theorem getdataDone_owned {success : Bool} (hm : m.Owned)
    (hkeep : m.KeepsTx (.getdataDone now peer success))
    (h : m.requestUnrelayedTxGetdataDone fuel now peer success = some m') : m'.Owned := by
  have hmark : (m.markSynced peer success).Owned := hm.same rfl rfl
  change (if (m.markSynced peer success).syncedCount < m.maxConnectCount then _ else _) = _ at h
  split_ifs at h with hcount
  · cases h
    exact hmark
  · obtain ⟨ps, hps, h⟩ := Option.bind_eq_some_iff.1 h
    obtain ⟨-, hkeep⟩ := hkeep (Nat.le_of_not_lt hcount)
    have hwalked : Walked (m.markSynced peer success) m' ∧ m'.wallet.Holding := by
      refine foldlM_invariant (P := fun m₁ : BRPeerManager =>
        Walked (m.markSynced peer success) m₁ ∧ m₁.wallet.Holding) ?_
        ⟨.refl hmark.lasting, hmark.wallet⟩ h
      rintro m₁ p m₂ hp ⟨hw, hold⟩ hstep
      obtain ⟨hlisted, hun⟩ := BRWallet.txUnconfirmedBefore_mem hps hp
      exact ⟨dropUnrelayed_walked hw hlisted hun ((hkeep ps hps).2 p hp) hstep,
        dropUnrelayed_holding (hw.owned hold) hstep⟩
    exact hwalked.1.owned hwalked.2

theorem getdataDone_completes {success : Bool} (hm : m.Owned)
    (hkeep : m.KeepsTx (.getdataDone now peer success)) :
    m.Completes env (.getdataDone now peer success) := by
  have hmark : (m.markSynced peer success).Owned := hm.same rfl rfl
  by_cases hcount : (m.markSynced peer success).syncedCount < m.maxConnectCount
  · refine ⟨0, m.markSynced peer success, ?_⟩
    change (if (m.markSynced peer success).syncedCount < m.maxConnectCount then _ else _) = _
    rw [if_pos hcount]
    rfl
  · obtain ⟨hacyclic, hkeep⟩ := hkeep (Nat.le_of_not_lt hcount)
    obtain ⟨n, rank, hn, hrank⟩ := hacyclic.ranked
    obtain ⟨ps, hps⟩ := txUnconfirmedBefore_isSome hmark.wallet
      (min m.wallet.transactions.length 10000) TX_UNCONFIRMED
    obtain ⟨hlater, hpublished⟩ := hkeep ps hps
    have hlisted : ∀ p ∈ ps, p ∈ m.wallet.transactions ∧
        ∃ t, m.wallet.heap.load p = some t ∧ TX_UNCONFIRMED ≤ t.blockHeight := fun p hp =>
      BRWallet.txUnconfirmedBefore_mem hps hp
    have hw : Walking (m.markSynced peer success) rank (m.markSynced peer success) :=
      ⟨.refl hmark.lasting, hmark.wallet, hrank, le_rfl⟩
    obtain ⟨m', hm'⟩ := walk_isSome now hw hn le_rfl hlisted hlater hpublished
      fun p hp => hm.wallet.live p (hlisted p hp).1
    refine ⟨m.wallet.transactions.length * (n + 1) + n + n + 1, m', ?_⟩
    change (if (m.markSynced peer success).syncedCount < m.maxConnectCount then _ else _) = _
    rw [if_neg hcount]
    have hsnapshot : m.wallet.txUnconfirmedBefore (min m.wallet.transactions.length 10000)
        TX_UNCONFIRMED = some ps := hps
    simp only [hsnapshot, Option.bind_eq_bind, Option.bind_some]
    exact hm'

/-- What the manager and its wallet refer to stays on the heap. -/
theorem handle_intact {event : ManagerEvent} (hm : m.Owned) (hkeep : m.KeepsTx event)
    (h : m.handle env fuel event = some m') : m'.Owned := by
  cases event with
  | alloc tx =>
    cases h
    exact hm.alloc tx
  | publishTx now reachable p hasCallback => exact publishTx_owned hm hkeep h
  | relayedTx now peer tx => exact relayedTx_owned (hm.alloc tx) (hm.unheld_fresh tx) h
  | hasTx now peer txHash => exact hasTx_owned hm h
  | requestedTx now peer txHash => exact requestedTx_owned hm h
  | disconnected peer error =>
    obtain ⟨m₁, h₁, howned⟩ := disconnected_owned hm hkeep
    obtain rfl := Option.some.inj (h₁.symm.trans h)
    exact howned
  | getdataDone now peer success => exact getdataDone_owned hm hkeep h
  | relayedBlock now txHashes blockHeight timestamp =>
    obtain ⟨m₁, h₁, howned⟩ := updateTx_owned now hm hkeep
    obtain rfl := Option.some.inj (h₁.symm.trans h)
    exact howned
  | setTxUnconfirmedAfter now blockHeight =>
    obtain ⟨w, hwallet, h⟩ := Option.bind_eq_some_iff.1 h
    cases h
    have hstep : BRWallet.step env m.wallet (.setTxUnconfirmedAfter now blockHeight) w := hwallet
    obtain ⟨hold, hlive⟩ := hm.wallet.setTxUnconfirmedAfter hwallet
    exact hm.frame hold (BRWallet.step_retains hstep) hlive rfl
  | updateTransactions now txHashes blockHeight timestamp =>
    obtain ⟨hlisted, hspares⟩ := hkeep
    have hpublished : m.KeepsPublished (.updateTransactions now txHashes blockHeight timestamp) :=
      hspares
    have hlasting : m'.Lasting := handle_lasting hm.lasting hpublished h
    obtain ⟨w, hwallet, h⟩ := Option.bind_eq_some_iff.1 h
    cases h
    obtain ⟨w', hw', hold, -⟩ := hm.wallet.updateTransactions hlisted now
    obtain rfl := Option.some.inj (hw'.symm.trans hwallet)
    exact ⟨hlasting.known, hold, hlasting.live⟩
  | _ => exact (preserved_owned env).handle hm h trivial

/-- A handler reads no transaction that it has freed. -/
theorem handle_completes {event : ManagerEvent} (hm : m.Owned) (hkeep : m.KeepsTx event) :
    m.Completes env event := by
  cases event with
  | requestedTx now peer txHash =>
    obtain ⟨n, rank, hn, hrank⟩ := Acyclic.ranked hkeep
    obtain ⟨s, hs⟩ : ∃ s,
        request n m.wallet txHash m.publishedTx { heap := m.wallet.heap } = some s :=
      request_isSome hm hrank hn (fun _ he => he) hm.known
    refine ⟨n, s, hs, ?_⟩
    intro p hp herror
    obtain ⟨F, hF, -, -, hvalid⟩ := request_frees hm.known hm.published hs
    obtain ⟨hFp, e, he, rfl⟩ := hvalid p hp herror
    exact hF.live (hm.published e he) hFp
  | disconnected peer error =>
    obtain ⟨m', h, -⟩ := disconnected_owned hm hkeep
    exact ⟨m', h⟩
  | getdataDone now peer success => exact getdataDone_completes hm hkeep
  | relayedBlock now txHashes blockHeight timestamp =>
    obtain ⟨m', h, -⟩ := updateTx_owned now hm hkeep
    exact ⟨m', h⟩
  | updateTransactions now txHashes blockHeight timestamp =>
    obtain ⟨w, hw, -⟩ := hm.wallet.updateTransactions hkeep.1 now
    exact ⟨w, hw⟩
  | _ => trivial

/-! ## Runs -/

theorem run_owned (h : (system env).Run KeepsTx m) : m.Owned := by
  refine h.invariant (J := fun _ => True) (fun _ => trivial) ?_ ?_
  · rintro s ⟨wallet, hwallet, rfl⟩
    refine ⟨.nil _, ⟨BRWallet.init_listed hwallet, (BRWallet.init_registry hwallet).live⟩, ?_⟩
    intro e he
    cases he
  · rintro s event s' - hs hguard ⟨fuel, hstep⟩ -
    exact handle_intact hs hguard hstep

theorem run_references (h : (system env).Run KeepsTx m) :
    m.Intact ∧ ∀ event, m.KeepsTx event → m.Completes env event :=
  ⟨(run_owned h).intact, fun _ hkeep => handle_completes (run_owned h) hkeep⟩

end

/-- A transaction is refused without a network, and freed. -/
theorem run_references_refused : ∃ w m, (BRWallet.system BRWallet.sampleEnv).init w ∧
    [ManagerEvent.alloc BRWallet.foreign, .publishTx 0 false 1 true].foldlM
      (handle BRWallet.sampleEnv 100) { wallet := w } = some m ∧
    m.wallet.heap.load 1 = none ∧ m.Intact := by
  have hgood : ∃ w, BRWallet.new BRWallet.sampleEnv 100 0 ⟨[some BRWallet.receipt]⟩ [0] =
      some (some w) ∧ w.transactions = [0] ∧ w.heap.load 1 = none ∧
      ∃ m₁ m, handle BRWallet.sampleEnv 100 { wallet := w } (.alloc BRWallet.foreign) =
        some m₁ ∧ m₁.wallet.transactions = w.transactions ∧ m₁.wallet.allTx = w.allTx ∧
      handle BRWallet.sampleEnv 100 m₁ (.publishTx 0 false 1 true) = some m ∧
      m.wallet.heap.load 1 = none :=
    ⟨_, rfl, by decide, by decide, _, _, rfl, rfl, rfl, rfl, by decide⟩
  obtain ⟨w, hw, hlist, hnone, m₁, m, h₁, hts, hall, h₂, hfreed⟩ := hgood
  have hwallet : (BRWallet.system BRWallet.sampleEnv).init w := ⟨100, 0, _, _, hw⟩
  have hguard : m₁.KeepsTx (.publishTx 0 false 1 true) := by
    rintro tx - -
    refine ⟨?_, ?_⟩
    · rintro (hp | ⟨h, hp⟩)
      · rw [hts, hlist] at hp
        exact absurd (List.mem_singleton.1 hp) (by decide)
      · rw [hall] at hp
        obtain ⟨t, ht, -⟩ := (BRWallet.init_listed hwallet).known hp
        rw [hnone] at ht
        cases ht
    · cases h₁
      intro e he
      cases he
  have hinit : (system BRWallet.sampleEnv).init { wallet := w } := ⟨w, hwallet, rfl⟩
  have halloc : KeepsTx { wallet := w } (.alloc BRWallet.foreign) := trivial
  have hrun₁ : (system BRWallet.sampleEnv).Run KeepsTx m₁ := .step (.init hinit) halloc ⟨100, h₁⟩
  refine ⟨w, m, hwallet, ?_, hfreed, ?_⟩
  · simp [List.foldlM_cons, h₁, h₂]
  · exact (run_references (.step hrun₁ hguard ⟨100, h₂⟩)).1

end BRPeerManager

end RavenWallet
