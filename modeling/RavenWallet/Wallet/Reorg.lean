/-
  What a chain reorganization does to the heights of the listed transactions.

  First `BRWalletSetTxUnconfirmedAfter` resets the transactions after the join, then
  `BRWalletUpdateTransactions` is called for one block of the new branch after the
  other.  `rejoin_iff`: when each listed transaction ends up at the height of its
  block of the new branch, and those that are in the old branch only unconfirmed.
-/
import RavenWallet.Wallet.Coherence
import RavenWallet.Wallet.Order

namespace RavenWallet

/-- The transactions of a block, with the height and the time that they get. -/
structure Confirmation where
  count : ℕ
  txHashes : List UInt256
  blockHeight : UInt32
  timestamp : UInt32
  empty : count = 0 → txHashes = []

namespace BRWallet

/-- One iteration of the loop that sets the heights for the new main chain. -/
def confirm (now : ℤ) (w : BRWallet) (c : Confirmation) : Option BRWallet :=
  if c.count > 0 then w.updateTransactions now c.txHashes c.blockHeight c.timestamp else some w

/-- Both loops of the reorganization. -/
def rejoin (now : ℤ) (blockHeight : UInt32) (cs : List Confirmation) (w : BRWallet) :
    Option BRWallet := do
  let w ← w.setTxUnconfirmedAfter now blockHeight
  cs.foldlM (confirm now) w

/-- No listed transaction was freed, and their outputs are indexed by 32 bits. -/
structure Sound (w : BRWallet) : Prop where
  listed : w.Listed
  live : ∀ p ∈ w.transactions, w.heap.Live p
  indexed : w.Indexed

/-- What a confirmation makes of a known transaction. -/
def confirmed (w : BRWallet) (c : Confirmation) (tx : BRTransaction) : Option BRTransaction :=
  if tx.txHash ∈ c.txHashes then
    if w.frees c.blockHeight c.timestamp tx then none
    else some (tx.setBlock c.blockHeight c.timestamp)
  else some tx

/-- What all the confirmations make of a known transaction. -/
def confirmedAll (w : BRWallet) (cs : List Confirmation) (tx : BRTransaction) :
    Option BRTransaction :=
  cs.foldl (fun tx c => tx.bind (w.confirmed c)) (some tx)

/-- The transactions at the end of the list that are all above a height. -/
def late (w : BRWallet) (blockHeight : UInt32) : List Ptr :=
  w.transactions.rtakeWhile (w.heightTest fun height => decide (height > blockHeight))

/-- What `BRWalletSetTxUnconfirmedAfter` makes of the transaction at `p`. -/
def unconfirmed (w : BRWallet) (blockHeight : UInt32) (p : Ptr) (tx : BRTransaction) :
    BRTransaction :=
  if p ∈ w.late blockHeight then tx.setBlock TX_UNCONFIRMED tx.timestamp else tx

variable {w w' : BRWallet} {now : ℤ} {c : Confirmation} {cs : List Confirmation} {p q : Ptr}
  {tx tx' : BRTransaction} {hs : List UInt256} {b t : UInt32}

/-! ## Recomputation -/

theorem updateBalance_isSome (hw : w.Sound) (now : ℤ) : ∃ w', w.updateBalance now = some w' :=
  updateBalance_of_live hw.listed hw.live now

/-! ## One update -/

/-- The loop reads only known transactions. -/
theorem updateLoop_isSome (hl : w.Listed) (hs : List UInt256) (b t : UInt32) :
    ∃ s, hs.foldlM (updateTx b t) ⟨w, [], false⟩ = some s := by
  suffices h : ∀ s : Updating, s.wallet.Listed → ∃ s', hs.foldlM (updateTx b t) s = some s' from
    h ⟨w, [], false⟩ hl
  induction hs with
  | nil =>
    intro s _
    exact ⟨s, rfl⟩
  | cons h hs ih =>
    intro s hl
    have hstep : ∃ s', updateTx b t s h = some s' := by
      unfold updateTx
      cases hk : s.wallet.allTx.lookup h with
      | none => exact ⟨s, rfl⟩
      | some q =>
        obtain ⟨tx, hq, -⟩ := hl.known hk
        simp only [hq, Option.bind_eq_bind, Option.bind_some]
        split_ifs <;> exact ⟨_, rfl⟩
    obtain ⟨s₁, hs₁⟩ := hstep
    obtain ⟨s₂, hs₂⟩ := ih s₁ (hl.updateTx (updateTx_cases hs₁))
    exact ⟨s₂, by rw [List.foldlM_cons, hs₁]; exact hs₂⟩

/-- What an update leaves as it is, and what it makes of the transactions. -/
structure UpdatedBy (w : BRWallet) (c : Confirmation) (w' : BRWallet) : Prop where
  transactions : w'.transactions = w.transactions
  listed : w'.Listed
  containsTx : ∀ tx, w'.containsTx tx = w.containsTx tx
  freed : ∀ q, w.heap.load q = none → w'.heap.load q = none
  load : ∀ {q tx}, w.heap.load q = some tx → w.allTx.lookup tx.txHash = some q →
    w'.heap.load q = w.confirmed c tx
  known : ∀ {q tx tx'}, w.heap.load q = some tx → w.allTx.lookup tx.txHash = some q →
    w'.heap.load q = some tx' → w'.allTx.lookup tx'.txHash = some q
  indexed : w.Indexed → w'.Indexed

/-- Without transactions nothing changes. -/
theorem UpdatedBy.refl (hl : w.Listed) (hc : c.txHashes = []) : UpdatedBy w c w where
  transactions := rfl
  listed := hl
  containsTx _ := rfl
  freed _ hq := hq
  load hq _ := by rw [confirmed, hc, if_neg (by simp), hq]
  known hq hk hq' := by
    rw [hq, Option.some.injEq] at hq'
    rwa [← hq']
  indexed h := h

theorem updateLoop_updatedBy (hl : w.Listed) {s : Updating}
    (hs : c.txHashes.foldlM (updateTx c.blockHeight c.timestamp)
      ⟨w.raised c.blockHeight, [], false⟩ = some s) : UpdatedBy w c s.wallet := by
  obtain ⟨hu, -⟩ := updateLoop (w := w.raised c.blockHeight) hl.filed hs
  obtain ⟨heap, allTx, hf⟩ := hu.fields
  have hfrees : ∀ tx, (w.raised c.blockHeight).frees c.blockHeight c.timestamp tx =
      w.frees c.blockHeight c.timestamp tx := fun _ => rfl
  have hload : ∀ q, s.wallet.heap.load q = (w.heap.load q).bind
      ((w.raised c.blockHeight).updated c.txHashes c.blockHeight c.timestamp q) := hu.load
  refine ⟨by rw [hf]; rfl, ?_, hu.containsTx, ?_, ?_, ?_, ?_⟩
  · exact updateLoop_invariant (P := fun s => s.wallet.Listed) (fun _ hs hu => hs.updateTx hu) hl hs
  · intro q hq
    rw [hload, hq, Option.bind_none]
  · intro q tx hq hk
    have htouch := touches_iff (w := w.raised c.blockHeight) c.txHashes hl hq hk
    rw [hload, hq, Option.bind_some, updated, confirmed, hfrees]
    by_cases hmem : tx.txHash ∈ c.txHashes
    · rw [if_pos (htouch.2 hmem), if_pos hmem]
    · rw [if_neg (htouch.not.2 hmem), if_neg hmem]
  · intro q tx tx' hq hk hq'
    have hup := hq'
    rw [hload, hq, Option.bind_some] at hup
    have hhash : tx'.txHash = tx.txHash := by rcases updated_some hup with rfl | rfl <;> rfl
    rw [hhash]
    exact (hu.lookup _ q).2 ⟨hk, fun _ => ⟨tx', hq'⟩⟩
  · intro hi
    exact Updated.indexed (w := w.raised c.blockHeight) hi hu

/-- The ledger does not matter. -/
theorem UpdatedBy.congr {w₁ : BRWallet} (h : UpdatedBy w c w₁) (hh : w'.heap = w₁.heap)
    (ha : w'.allTx = w₁.allTx) (ht : w'.transactions = w₁.transactions)
    (hc : ∀ tx, w'.containsTx tx = w₁.containsTx tx) : UpdatedBy w c w' where
  transactions := ht.trans h.transactions
  listed := by
    unfold Listed
    rw [hh, ha, ht]
    exact h.listed
  containsTx tx := (hc tx).trans (h.containsTx tx)
  freed q hq := by rw [hh, h.freed q hq]
  load hq hk := by rw [hh, h.load hq hk]
  known hq hk hq' := by
    rw [hh] at hq'
    rw [ha]
    exact h.known hq hk hq'
  indexed hi := by
    unfold Indexed
    rw [hh]
    exact h.indexed hi

theorem updateTransactions_updatedBy (hl : w.Listed)
    (h : w.updateTransactions now c.txHashes c.blockHeight c.timestamp = some w') :
    UpdatedBy w c w' := by
  obtain ⟨s, calls, hs, h⟩ := updateTransactions_some h
  have hloop := updateLoop_updatedBy hl hs
  rcases h with ⟨-, rfl⟩ | ⟨-, txs, L, -, -, rfl⟩
  · exact hloop.congr rfl rfl rfl fun _ => rfl
  · exact hloop.congr rfl rfl rfl fun _ => rfl

theorem confirm_updatedBy (hl : w.Listed) (h : w.confirm now c = some w') : UpdatedBy w c w' := by
  unfold confirm at h
  split_ifs at h with hcount
  · exact updateTransactions_updatedBy hl h
  · cases h
    exact .refl hl (c.empty (by omega))

theorem UpdatedBy.sound (h : UpdatedBy w c w') (hw : w.Sound)
    (hkeep : ∀ p ∈ w.transactions, ∀ tx, w.heap.load p = some tx → w.confirmed c tx ≠ none) :
    w'.Sound := by
  refine ⟨h.listed, ?_, h.indexed hw.indexed⟩
  rw [h.transactions]
  intro p hp
  obtain ⟨tx, hload⟩ := hw.live p hp
  unfold Heap.Live
  rw [h.load hload (hw.listed.listed hp hload)]
  exact Option.ne_none_iff_exists'.1 (hkeep p hp tx hload)

/-- An update that frees no listed transaction has a result. -/
theorem confirm_isSome (hw : w.Sound) (now : ℤ)
    (hkeep : ∀ p ∈ w.transactions, ∀ tx, w.heap.load p = some tx → w.confirmed c tx ≠ none) :
    ∃ w', w.confirm now c = some w' := by
  unfold confirm
  split_ifs with hcount
  · have hl : (w.raised c.blockHeight).Listed := hw.listed
    obtain ⟨s, hs⟩ := updateLoop_isSome hl c.txHashes c.blockHeight c.timestamp
    have hquiet : ∃ w₁, s.wallet.updateIf now s.needsUpdate = some w₁ := by
      unfold updateIf
      split_ifs
      · exact updateBalance_isSome ((updateLoop_updatedBy hw.listed hs).sound hw hkeep) now
      · exact ⟨_, rfl⟩
    obtain ⟨w₁, hw₁⟩ := hquiet
    simp only [updateTransactions, raised_eq, hs, hw₁, Option.bind_eq_bind, Option.bind_some]
    exact ⟨_, rfl⟩
  · exact ⟨w, rfl⟩

/-! ## One transaction -/

theorem confirmed_of_not_mem (h : tx.txHash ∉ c.txHashes) : w.confirmed c tx = some tx := by
  rw [confirmed, if_neg h]

theorem confirmed_some (h : w.confirmed c tx = some tx') :
    tx'.txHash = tx.txHash ∧ w.containsTx tx' = w.containsTx tx := by
  unfold confirmed at h
  split_ifs at h
  · cases h
    exact ⟨rfl, rfl⟩
  · cases h
    exact ⟨rfl, rfl⟩

theorem confirmedAll_cons : w.confirmedAll (c :: cs) tx =
    (w.confirmed c tx).bind (w.confirmedAll cs) := by
  have hnone : cs.foldl (fun tx c => tx.bind (w.confirmed c)) none = none := by
    induction cs with
    | nil => rfl
    | cons d cs ih => exact ih
  unfold confirmedAll
  rw [List.foldl_cons, Option.bind_some]
  cases w.confirmed c tx with
  | none => rw [hnone, Option.bind_none]
  | some tx' => rfl

theorem confirmedAll_concat : w.confirmedAll (cs ++ [c]) tx =
    (w.confirmedAll cs tx).bind (w.confirmed c) := by
  unfold confirmedAll
  rw [List.foldl_append]
  rfl

theorem confirmedAll_of_not_mem (h : ∀ c ∈ cs, tx.txHash ∉ c.txHashes) :
    w.confirmedAll cs tx = some tx := by
  induction cs with
  | nil => rfl
  | cons d cs ih =>
    rw [confirmedAll_cons, confirmed_of_not_mem (h d List.mem_cons_self), Option.bind_some]
    exact ih fun c hc => h c (List.mem_cons_of_mem _ hc)

/-- A transaction in one block only gets the height of that block, unless it is freed. -/
theorem confirmedAll_of_mem (hnodup : (cs.map Confirmation.blockHeight).Nodup) (hc : c ∈ cs)
    (hmem : tx.txHash ∈ c.txHashes)
    (honly : ∀ d ∈ cs, tx.txHash ∈ d.txHashes → d.blockHeight = c.blockHeight) :
    w.confirmedAll cs tx = w.confirmed c tx := by
  induction cs with
  | nil => cases hc
  | cons d cs ih =>
    obtain ⟨hd, hnodup⟩ := List.nodup_cons.1 hnodup
    rw [confirmedAll_cons]
    by_cases hdc : d = c
    · subst hdc
      -- no block of the rest has the height, so none has the transaction
      cases hd' : w.confirmed d tx with
      | none => rfl
      | some tx' =>
        rw [Option.bind_some]
        refine confirmedAll_of_not_mem ?_
        intro e he hmem'
        rw [(confirmed_some hd').1] at hmem'
        exact hd (List.mem_map.2 ⟨e, he, honly e (List.mem_cons_of_mem _ he) hmem'⟩)
    · have hc := (List.mem_cons.1 hc).resolve_left (Ne.symm hdc)
      have hnot : tx.txHash ∉ d.txHashes := by
        intro hmem'
        exact hd (List.mem_map.2 ⟨c, hc, (honly d List.mem_cons_self hmem').symm⟩)
      rw [confirmed_of_not_mem hnot, Option.bind_some]
      exact ih hnodup hc fun e he => honly e (List.mem_cons_of_mem _ he)

/-! ## The loop over the blocks -/

/-- After the confirmations `cs`, with the transactions as they were before. -/
structure Confirmed (w : BRWallet) (cs : List Confirmation) (w' : BRWallet) : Prop where
  transactions : w'.transactions = w.transactions
  listed : w'.Listed
  containsTx : ∀ tx, w'.containsTx tx = w.containsTx tx
  load : ∀ p ∈ w.transactions, ∀ tx, w.heap.load p = some tx →
    w'.heap.load p = w.confirmedAll cs tx

theorem Confirmed.step {w'' : BRWallet} (h : Confirmed w cs w')
    (hstep : UpdatedBy w' c w'') : Confirmed w (cs ++ [c]) w'' := by
  have hsame : w'.confirmed c = w.confirmed c := by
    funext tx
    unfold confirmed frees
    rw [h.containsTx tx]
  refine ⟨hstep.transactions.trans h.transactions, hstep.listed,
    fun tx => (hstep.containsTx tx).trans (h.containsTx tx), ?_⟩
  intro p hp tx hload
  have hbefore := h.load p hp tx hload
  rw [confirmedAll_concat]
  cases hall : w.confirmedAll cs tx with
  | none =>
    rw [hall] at hbefore
    exact hstep.freed p hbefore
  | some tx' =>
    rw [hall] at hbefore
    rw [Option.bind_some, ← hsame]
    exact hstep.load hbefore (h.listed.listed (h.transactions ▸ hp) hbefore)

theorem confirm_confirmed (hl : w.Listed) (h : cs.foldlM (confirm now) w = some w') :
    Confirmed w cs w' := by
  refine foldlM_prefix (P := Confirmed w) ?_ ⟨rfl, hl, fun _ => rfl, ?_⟩ h
  · intro done d s s' _ hs hstep
    exact hs.step (confirm_updatedBy hs.listed hstep)
  · intro p _ tx hload
    exact hload

/-- If each transaction is kept by the confirmations, then they have a result. -/
theorem confirm_foldlM_isSome (hw : w.Sound) (now : ℤ)
    (hkeep : ∀ p ∈ w.transactions, ∀ tx, w.heap.load p = some tx →
      ∀ done, done <+: cs → w.confirmedAll done tx ≠ none) :
    ∃ w', cs.foldlM (confirm now) w = some w' := by
  suffices h : ∀ done, done <+: cs → ∃ w', done.foldlM (confirm now) w = some w' ∧ w'.Sound by
    obtain ⟨w', hw', -⟩ := h cs (List.prefix_refl cs)
    exact ⟨w', hw'⟩
  intro done
  induction done using List.reverseRecOn with
  | nil =>
    intro _
    exact ⟨w, rfl, hw⟩
  | append_singleton done d ih =>
    intro hstart
    obtain ⟨w₁, hw₁, hsound⟩ := ih ((List.prefix_append done [d]).trans hstart)
    have hconfirmed := confirm_confirmed hw.listed hw₁
    have hnext : ∀ p ∈ w₁.transactions, ∀ tx, w₁.heap.load p = some tx →
        w₁.confirmed d tx ≠ none := by
      intro p hp tx₁ hload₁
      rw [hconfirmed.transactions] at hp
      obtain ⟨tx, hload⟩ := hw.live p hp
      have hall := hkeep p hp tx hload _ hstart
      rw [confirmedAll_concat, ← hconfirmed.load p hp tx hload, hload₁, Option.bind_some] at hall
      unfold confirmed frees at hall ⊢
      rwa [hconfirmed.containsTx]
    obtain ⟨w₂, hw₂⟩ := confirm_isSome hsound now hnext
    refine ⟨w₂, ?_, (confirm_updatedBy hsound.listed hw₂).sound hsound hnext⟩
    rw [List.foldlM_append, hw₁]
    simpa using hw₂

/-! ## The transactions after the join -/

theorem unconfirm_isSome : ∀ {ps : List Ptr} {heap : Heap BRTransaction},
    (∀ p ∈ ps, heap.Live p) → ∃ r, unconfirm heap ps = some r := by
  intro ps
  induction ps with
  | nil =>
    intro heap _
    exact ⟨_, rfl⟩
  | cons p ps ih =>
    intro heap hlive
    obtain ⟨tx, hp⟩ := hlive p List.mem_cons_self
    have hrest : ∀ q ∈ ps, (heap.store p (tx.setBlock TX_UNCONFIRMED tx.timestamp)).Live q := by
      intro q hq
      exact (hlive q (List.mem_cons_of_mem _ hq)).store _ hp
    obtain ⟨r, hr⟩ := ih hrest
    rw [unconfirm, hp]
    simp only [Option.bind_eq_bind, Option.bind_some, hr]
    exact ⟨_, rfl⟩

/-- The listed transactions after the join are unconfirmed. -/
structure Unconfirmed (w : BRWallet) (b : UInt32) (w' : BRWallet) : Prop where
  transactions : w'.transactions = w.transactions
  sound : w'.Sound
  containsTx : ∀ tx, w'.containsTx tx = w.containsTx tx
  load : ∀ p ∈ w.transactions, ∀ tx, w.heap.load p = some tx →
    w'.heap.load p = some (w.unconfirmed b p tx)

/-- The wallet after `unconfirm`. -/
theorem unconfirm_unconfirmed (hw : w.Sound) {heap : Heap BRTransaction} {hashes : List UInt256}
    (hu : unconfirm w.heap (w.late b) = some (heap, hashes)) :
    Unconfirmed w b { w with blockHeight := b, heap } := by
  have hload : ∀ p tx, w.heap.load p = some tx → heap.load p = some (w.unconfirmed b p tx) := by
    intro p tx hp
    rw [unconfirm_load hu p, hp, unconfirmed]
    split_ifs <;> rfl
  have houtputs : ∀ p, (heap.load p).map BRTransaction.outputs =
      (w.heap.load p).map BRTransaction.outputs := by
    intro p
    rw [unconfirm_load hu p]
    split_ifs
    · rw [Option.map_map]
      rfl
    · rfl
  refine ⟨rfl, ⟨hw.listed.unconfirm hu, ?_, unconfirm_indexed hw.indexed hu⟩, ?_, ?_⟩
  · intro p hp
    obtain ⟨tx, htx⟩ := hw.live p hp
    exact ⟨_, hload p tx htx⟩
  · intro tx
    refine containsTx_congr rfl (owns_congr rfl fun h => ?_) rfl rfl
    unfold tx?
    cases w.allTx.lookup h with
    | none => rfl
    | some q => exact houtputs q
  · intro p _ tx htx
    exact hload p tx htx

theorem setTxUnconfirmedAfter_unconfirmed (hw : w.Sound)
    (h : w.setTxUnconfirmedAfter now b = some w') : Unconfirmed w b w' := by
  obtain ⟨ps, heap, hs, hps, hu, h⟩ := setTxUnconfirmedAfter_some h
  rw [suffix_rtakeWhile hw.live, Option.some.injEq] at hps
  subst hps
  have hun := unconfirm_unconfirmed hw hu
  rcases h with ⟨-, rfl⟩ | ⟨-, txs, L, cs, -, -, rfl⟩
  · exact hun
  · exact ⟨rfl, ⟨hun.sound.listed, hun.sound.live, hun.sound.indexed⟩, hun.containsTx, hun.load⟩

theorem setTxUnconfirmedAfter_isSome (hw : w.Sound) (now : ℤ) (b : UInt32) :
    ∃ w', w.setTxUnconfirmedAfter now b = some w' := by
  have hlive : ∀ p ∈ w.late b, w.heap.Live p := by
    intro p hp
    exact hw.live p ((List.rtakeWhile_suffix _ _).subset hp)
  obtain ⟨⟨heap, hashes⟩, hu⟩ := unconfirm_isSome hlive
  have hun := unconfirm_unconfirmed hw hu
  obtain ⟨w₁, hw₁⟩ := updateBalance_isSome hun.sound now
  have hsuffix : ({ w with blockHeight := b } : BRWallet).suffix
      (fun height => decide (height > b)) = some (w.late b) :=
    suffix_rtakeWhile hw.live fun height => decide (height > b)
  simp only [setTxUnconfirmedAfter, hsuffix, hu, Option.bind_eq_bind, Option.bind_some]
  split_ifs
  · exact ⟨_, rfl⟩
  · rw [hw₁]
    exact ⟨_, rfl⟩

/-! ## The reorganization -/

/-- The transaction at `p` gets the height of its block in the new branch, and is unconfirmed if
    it is in the old branch only. -/
def Rejoined (cs : List Confirmation) (old : UInt256 → Prop) (w' : BRWallet) (p : Ptr)
    (txHash : UInt256) : Prop :=
  (∀ c ∈ cs, txHash ∈ c.txHashes →
    ∃ tx', w'.heap.load p = some tx' ∧ tx'.blockHeight = c.blockHeight) ∧
  (old txHash → (∀ c ∈ cs, txHash ∉ c.txHashes) →
    ∃ tx', w'.heap.load p = some tx' ∧ tx'.blockHeight = TX_UNCONFIRMED)

/-- The transaction `tx` at `p` is not freed, and in one block of the new branch at most; if it is
    in the old branch only, then it is unconfirmed, or at the end of the list that is above the
    join. -/
def Rejoins (w : BRWallet) (b : UInt32) (cs : List Confirmation) (old : UInt256 → Prop) (p : Ptr)
    (tx : BRTransaction) : Prop :=
  (∀ c ∈ cs, tx.txHash ∈ c.txHashes →
    w.frees c.blockHeight c.timestamp (w.unconfirmed b p tx) = false ∧
      ∀ d ∈ cs, tx.txHash ∈ d.txHashes → d.blockHeight = c.blockHeight) ∧
  (old tx.txHash → (∀ c ∈ cs, tx.txHash ∉ c.txHashes) →
    tx.blockHeight = TX_UNCONFIRMED ∨ p ∈ w.late b)

theorem unconfirmed_txHash (w : BRWallet) (b : UInt32) (p : Ptr) (tx : BRTransaction) :
    (w.unconfirmed b p tx).txHash = tx.txHash := by
  unfold unconfirmed
  split_ifs <;> rfl

theorem confirmed_of_mem (hmem : tx.txHash ∈ c.txHashes)
    (hkeep : w.frees c.blockHeight c.timestamp tx = false) :
    w.confirmed c tx = some (tx.setBlock c.blockHeight c.timestamp) := by
  rw [confirmed, if_pos hmem, hkeep, if_neg Bool.false_ne_true]

/-- If `Rejoins` holds, then no part of the confirmations frees the transaction. -/
theorem Rejoins.kept {old : UInt256 → Prop} {w₁ : BRWallet}
    (hc : ∀ tx, w₁.containsTx tx = w.containsTx tx)
    (hnodup : (cs.map Confirmation.blockHeight).Nodup) (h : w.Rejoins b cs old p tx)
    {done : List Confirmation} (hdone : done <+: cs) :
    w₁.confirmedAll done (w.unconfirmed b p tx) ≠ none := by
  by_cases hmem : ∃ c ∈ done, tx.txHash ∈ c.txHashes
  · obtain ⟨c, hcm, hmem⟩ := hmem
    have hsub := hdone.subset
    obtain ⟨hkeep, honly⟩ := h.1 c (hsub hcm) hmem
    have hkeep₁ : w₁.frees c.blockHeight c.timestamp (w.unconfirmed b p tx) = false := by
      unfold frees at hkeep ⊢
      rwa [hc]
    rw [confirmedAll_of_mem ((hdone.sublist.map _).nodup hnodup) hcm
      (by rwa [unconfirmed_txHash]) (fun d hd hmem' => honly d (hsub hd)
        (by rwa [unconfirmed_txHash] at hmem')),
      confirmed_of_mem (by rwa [unconfirmed_txHash]) hkeep₁]
    exact Option.some_ne_none _
  · rw [confirmedAll_of_not_mem]
    · exact Option.some_ne_none _
    · intro c hcm hmem'
      rw [unconfirmed_txHash] at hmem'
      exact hmem ⟨c, hcm, hmem'⟩

/-- What a listed transaction becomes decides whether it was to be freed, or is left behind. -/
theorem rejoined_iff {old : UInt256 → Prop} {w₁ : BRWallet}
    (hc : ∀ tx, w₁.containsTx tx = w.containsTx tx)
    (hnodup : (cs.map Confirmation.blockHeight).Nodup)
    (hload : w'.heap.load p = w₁.confirmedAll cs (w.unconfirmed b p tx)) :
    Rejoined cs old w' p tx.txHash ↔ w.Rejoins b cs old p tx := by
  have hfrees : ∀ (b t : UInt32) (tx : BRTransaction), w₁.frees b t tx = w.frees b t tx := by
    intro b t tx
    unfold frees
    rw [hc]
  have hhash := unconfirmed_txHash w b p tx
  constructor
  · rintro ⟨hnew, hold⟩
    refine ⟨?_, ?_⟩
    · intro c hcm hmem
      obtain ⟨tx', htx', hheight⟩ := hnew c hcm hmem
      have honly : ∀ d ∈ cs, tx.txHash ∈ d.txHashes → d.blockHeight = c.blockHeight := by
        intro d hd hmem'
        obtain ⟨tx'', htx'', hheight'⟩ := hnew d hd hmem'
        rw [htx', Option.some.injEq] at htx''
        rw [← hheight', ← hheight, htx'']
      refine ⟨?_, honly⟩
      rw [hload, confirmedAll_of_mem hnodup hcm (hhash ▸ hmem) (fun d hd hm => honly d hd (hhash ▸ hm)),
        confirmed, if_pos (hhash ▸ hmem)] at htx'
      split_ifs at htx' with hfree
      rw [← hfrees]
      simpa using hfree
    · intro hin hnot
      obtain ⟨tx', htx', hheight⟩ := hold hin hnot
      rw [hload, confirmedAll_of_not_mem (fun c hcm => hhash ▸ hnot c hcm), Option.some.injEq] at htx'
      by_cases hlate : p ∈ w.late b
      · exact Or.inr hlate
      · rw [unconfirmed, if_neg hlate] at htx'
        exact Or.inl (htx' ▸ hheight)
  · rintro ⟨hnew, hold⟩
    refine ⟨?_, ?_⟩
    · intro c hcm hmem
      obtain ⟨hkeep, honly⟩ := hnew c hcm hmem
      refine ⟨(w.unconfirmed b p tx).setBlock c.blockHeight c.timestamp, hload.trans ?_, rfl⟩
      rw [confirmedAll_of_mem hnodup hcm (hhash ▸ hmem) (fun d hd hm => honly d hd (hhash ▸ hm)),
        confirmed_of_mem (hhash ▸ hmem) ((hfrees _ _ _).trans hkeep)]
    · intro hin hnot
      refine ⟨_, hload.trans (confirmedAll_of_not_mem fun c hcm => hhash ▸ hnot c hcm), ?_⟩
      unfold unconfirmed
      split_ifs with hlate
      · rfl
      · exact (hold hin hnot).resolve_right hlate

/-- When the listed transactions end up as the new branch says. -/
theorem rejoin_iff (hw : w.Sound) (now : ℤ) (b : UInt32)
    (hnodup : (cs.map Confirmation.blockHeight).Nodup) (old : UInt256 → Prop) :
    (∃ w', w.rejoin now b cs = some w' ∧ ∀ p ∈ w.transactions, ∀ tx, w.heap.load p = some tx →
      Rejoined cs old w' p tx.txHash) ↔
    ∀ p ∈ w.transactions, ∀ tx, w.heap.load p = some tx → w.Rejoins b cs old p tx := by
  constructor
  · rintro ⟨w', hw', h⟩ p hp tx htx
    obtain ⟨w₁, hw₁, hw'⟩ := Option.bind_eq_some_iff.1 hw'
    have hun := setTxUnconfirmedAfter_unconfirmed hw hw₁
    have hconfirmed := confirm_confirmed hun.sound.listed hw'
    have hload := hconfirmed.load p (hun.transactions ▸ hp) _ (hun.load p hp tx htx)
    exact (rejoined_iff hun.containsTx hnodup hload).1 (h p hp tx htx)
  · intro h
    obtain ⟨w₁, hw₁⟩ := setTxUnconfirmedAfter_isSome hw now b
    have hun := setTxUnconfirmedAfter_unconfirmed hw hw₁
    have hkeep : ∀ p ∈ w₁.transactions, ∀ tx, w₁.heap.load p = some tx →
        ∀ done, done <+: cs → w₁.confirmedAll done tx ≠ none := by
      intro p hp tx₁ htx₁ done hdone
      rw [hun.transactions] at hp
      obtain ⟨tx, htx⟩ := hw.live p hp
      rw [hun.load p hp tx htx, Option.some.injEq] at htx₁
      rw [← htx₁]
      exact (h p hp tx htx).kept hun.containsTx hnodup hdone
    obtain ⟨w', hw'⟩ := confirm_foldlM_isSome hun.sound now hkeep
    have hconfirmed := confirm_confirmed hun.sound.listed hw'
    refine ⟨w', ?_, ?_⟩
    · simp only [rejoin, hw₁, Option.bind_eq_bind, Option.bind_some]
      exact hw'
    · intro p hp tx htx
      have hload := hconfirmed.load p (hun.transactions ▸ hp) _ (hun.load p hp tx htx)
      exact (rejoined_iff hun.containsTx hnodup hload).2 (h p hp tx htx)

end BRWallet

end RavenWallet
