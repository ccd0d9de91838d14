/-
  What the loop of `BRWalletUpdateTransactions` does to the transactions.

  The loop looks up one hash after the other while it writes heights and frees
  transactions.  `updateLoop`: its result is the same as if each transaction
  were judged by the wallet as it was before the loop: those whose hash is given
  get the new height, except that a confirmed non-wallet transaction is freed.
-/
import RavenWallet.Wallet.Filed

namespace RavenWallet

namespace BRWallet

variable (w : BRWallet) (hs : List UInt256) (b t : UInt32)

/-- One of the hashes leads to `q`. -/
def touches (q : Ptr) : Bool := hs.any fun h => decide (w.allTx.lookup h = some q)

/-- `tx` changes. -/
def changes (tx : BRTransaction) : Bool := !decide (tx.blockHeight = b ∧ tx.timestamp = t)

/-- `tx` changes to a confirmed transaction that does not belong to the wallet. -/
def frees (tx : BRTransaction) : Bool :=
  decide (b ≠ TX_UNCONFIRMED) && changes b t tx && !w.containsTx tx

/-- What the loop makes of `tx` at `q`. -/
def updated (q : Ptr) (tx : BRTransaction) : Option BRTransaction :=
  if w.touches hs q then
    if w.frees b t tx then none else some (tx.setBlock b t)
  else some tx

/-- The loop finds a transaction of the wallet that is pending or invalid, and changes it. -/
def Recomputes : Prop :=
  ∃ h ∈ hs, ∃ p tx, w.allTx.lookup h = some p ∧ w.heap.load p = some tx ∧ changes b t tx = true ∧
    w.containsTx tx = true ∧ (tx.txHash ∈ w.pendingTx ∨ tx.txHash ∈ w.invalidTx)

/-- The loop after the hashes `hs`. -/
structure Updated (s : Updating) : Prop where
  fields : ∃ heap allTx, s.wallet = { w with heap, allTx }
  load : ∀ q, s.wallet.heap.load q = (w.heap.load q).bind (w.updated hs b t q)
  lookup : ∀ h q, s.wallet.allTx.lookup h = some q ↔
    w.allTx.lookup h = some q ∧ (w.heap.Live q → s.wallet.heap.Live q)

variable {w hs b t} {w' : BRWallet} {now : ℤ} {s s' : Updating} {q : Ptr} {tx tx' : BRTransaction}

theorem touches_concat {h : UInt256} :
    w.touches (hs ++ [h]) q = true ↔ w.touches hs q = true ∨ w.allTx.lookup h = some q := by
  simp [touches]

/-- Of the known transactions, those whose hash is given are found. -/
theorem touches_iff (hs : List UInt256) (hl : w.Listed) (hq : w.heap.load q = some tx)
    (hk : w.allTx.lookup tx.txHash = some q) : w.touches hs q = true ↔ tx.txHash ∈ hs := by
  simp only [touches, List.any_eq_true, decide_eq_true_eq]
  constructor
  · rintro ⟨h, hm, hh⟩
    obtain ⟨t', ht', rfl⟩ := hl.known hh
    obtain rfl := Option.some.inj (hq.symm.trans ht')
    exact hm
  · exact fun h => ⟨tx.txHash, h, hk⟩

theorem updated_some (h : w.updated hs b t q tx = some tx') :
    tx' = tx ∨ tx' = tx.setBlock b t := by
  unfold updated at h
  split_ifs at h
  · exact Or.inr (Option.some.inj h).symm
  · exact Or.inl (Option.some.inj h).symm

theorem updated_outputs (h : w.updated hs b t q tx = some tx') : tx'.outputs = tx.outputs := by
  rcases updated_some h with rfl | rfl <;> rfl

/-- The transactions that are left differ from what they were in height and timestamp only. -/
theorem Updated.src (hu : Updated w hs b t s) (hq : s.wallet.heap.load q = some tx') :
    ∃ tx, w.heap.load q = some tx ∧ ∃ b t, tx' = tx.setBlock b t := by
  rw [hu.load, Option.bind_eq_some_iff] at hq
  obtain ⟨tx, htx, hup⟩ := hq
  rcases updated_some hup with rfl | rfl
  · exact ⟨_, htx, tx'.blockHeight, tx'.timestamp, rfl⟩
  · exact ⟨tx, htx, b, t, rfl⟩

theorem changes_of_ne (h : ¬ (tx.blockHeight = b ∧ tx.timestamp = t)) : changes b t tx = true := by
  unfold changes
  rw [decide_eq_false h]; rfl

theorem setBlock_same (h : changes b t tx = false) : tx.setBlock b t = tx := by
  simp only [changes, Bool.not_eq_false', decide_eq_true_eq] at h
  obtain ⟨rfl, rfl⟩ := h
  rfl

/-- A freed transaction has no output that the wallet owns. -/
theorem not_owned_of_frees (h : w.frees b t tx = true) {o : BRTxOutput} (ho : o ∈ tx.outputs) :
    o.address ∉ w.allAddrs := by
  intro ha
  have hc : w.containsTx tx = true := containsTx_iff.2 (Or.inl ⟨o, ho, ha⟩)
  simp [frees, hc] at h

theorem Updated.tx? (hu : Updated w hs b t s) (h : UInt256) : s.wallet.tx? h =
    (w.allTx.lookup h).bind fun q => (w.heap.load q).bind (w.updated hs b t q) := by
  unfold BRWallet.tx?
  rcases hl : s.wallet.allTx.lookup h with _ | q
  · rcases hl' : w.allTx.lookup h with _ | q
    · rfl
    · rw [Option.bind_some, ← hu.load, Option.bind_none]
      rcases hq : s.wallet.heap.load q with _ | tx
      · rfl
      · rw [(hu.lookup h q).2 ⟨hl', fun _ => ⟨tx, hq⟩⟩] at hl; cases hl
  · rw [((hu.lookup h q).1 hl).1, Option.bind_some, Option.bind_some, hu.load]

/-- The loop does not change what belongs to the wallet. -/
theorem Updated.owns (hu : Updated w hs b t s) (u : UTXO) : s.wallet.Owns u ↔ w.Owns u := by
  obtain ⟨heap, allTx, hw⟩ := hu.fields
  have ha : s.wallet.allAddrs = w.allAddrs := by rw [hw]
  unfold Owns output?
  rw [ha, hu.tx?]
  unfold BRWallet.tx?
  rcases w.allTx.lookup u.hash with _ | q
  · simp
  · simp only [Option.bind_some, Option.bind_eq_bind]
    rcases w.heap.load q with _ | tx
    · simp
    · simp only [Option.bind_some]
      rcases hq : w.updated hs b t q tx with _ | tx'
      · have hf : w.frees b t tx = true := by
          unfold updated at hq
          split_ifs at hq with _ hf
          exact hf
        constructor
        · rintro ⟨o, ho, -⟩; cases ho
        · rintro ⟨o, ho, hoa⟩
          exact absurd hoa (not_owned_of_frees hf (List.mem_of_getElem? ho))
      · rw [Option.bind_some, updated_outputs hq]

theorem Updated.containsTx (hu : Updated w hs b t s) (tx : BRTransaction) :
    s.wallet.containsTx tx = w.containsTx tx := by
  obtain ⟨heap, allTx, hw⟩ := hu.fields
  exact containsTx_congr (by rw [hw]) hu.owns rfl rfl

/-- A pointer that can still change was not touched. -/
theorem Updated.untouched (hu : Updated w hs b t s) (hq : s.wallet.heap.load q = some tx)
    (hc : changes b t tx = true) : w.touches hs q = false ∧ w.heap.load q = some tx := by
  rw [hu.load, Option.bind_eq_some_iff] at hq
  obtain ⟨tx₀, h₀, hq⟩ := hq
  unfold updated at hq
  split_ifs at hq with ht
  · obtain rfl := Option.some.inj hq
    simp [changes] at hc
  · obtain rfl := Option.some.inj hq
    exact ⟨by simpa using ht, h₀⟩

/-- Touching a transaction that does not change, or one more time, makes no difference. -/
theorem updated_concat_of_ne {h : UInt256} (hq : w.allTx.lookup h ≠ some q) :
    w.updated (hs ++ [h]) b t q = w.updated hs b t q := by
  have ht : w.touches (hs ++ [h]) q = w.touches hs q := by
    rw [Bool.eq_iff_iff, touches_concat, or_iff_left hq]
  funext tx
  unfold updated
  rw [ht]

theorem updated_concat {h : UInt256} (hq : w.allTx.lookup h = some q) :
    w.updated (hs ++ [h]) b t q tx =
      if w.frees b t tx then none else some (tx.setBlock b t) := by
  unfold updated
  rw [if_pos (touches_concat.2 (Or.inr hq))]

/-- The transactions other than the one with the hash `h` stay as they are. -/
theorem Updated.load_of_ne (hu : Updated w hs b t s) {h : UInt256}
    (hq : w.allTx.lookup h ≠ some q) :
    s.wallet.heap.load q = (w.heap.load q).bind (w.updated (hs ++ [h]) b t q) := by
  rw [updated_concat_of_ne hq, hu.load]

/-- The block of a transaction is written. -/
theorem Updated.write (hu : Updated w hs b t s) {h : UInt256} {p : Ptr}
    {hashes : List UInt256} {needsUpdate : Bool} (hl : s.wallet.allTx.lookup h = some p) (hp : s.wallet.heap.load p = some tx)
    (hch : changes b t tx = true) (hfr : w.frees b t tx = false) :
    Updated w (hs ++ [h]) b t
      ⟨{ s.wallet with heap := s.wallet.heap.store p (tx.setBlock b t) }, hashes, needsUpdate⟩ := by
  obtain ⟨heap, allTx, hf⟩ := hu.fields
  have hl₀ := ((hu.lookup h p).1 hl).1
  obtain ⟨-, hp₀⟩ := hu.untouched hp hch
  refine ⟨⟨_, allTx, by rw [hf]⟩, fun q => ?_, fun k q => ?_⟩
  · by_cases hq : p = q
    · subst hq
      rw [Heap.load_store_self _ hp, hp₀, Option.bind_some, updated_concat hl₀, hfr]
      rfl
    · rw [Heap.load_store_ne _ _ hq, hu.load_of_ne (by rw [hl₀]; simpa using hq)]
  · rw [hu.lookup k q]
    refine and_congr_right fun _ => imp_congr_right fun _ => ?_
    unfold Heap.Live
    by_cases hq : p = q
    · subst hq
      simp [Heap.load_store_self _ hp, hp]
    · rw [Heap.load_store_ne _ _ hq]

/-- A transaction is written and freed. -/
theorem Updated.free (hw : w.Filed) (hu : Updated w hs b t s) {h : UInt256} {p : Ptr}
    {hashes : List UInt256} {needsUpdate : Bool} (hl : s.wallet.allTx.lookup h = some p) (hp : s.wallet.heap.load p = some tx)
    (hch : changes b t tx = true) (hfr : w.frees b t tx = true) :
    Updated w (hs ++ [h]) b t
      ⟨{ s.wallet with
        heap := (s.wallet.heap.store p (tx.setBlock b t)).free p
        allTx := s.wallet.allTx.erase tx.txHash }, hashes, needsUpdate⟩ := by
  obtain ⟨heap, allTx, hf⟩ := hu.fields
  have hl₀ := ((hu.lookup h p).1 hl).1
  obtain ⟨-, hp₀⟩ := hu.untouched hp hch
  have hh : tx.txHash = h := hw.hash hl₀ hp₀
  refine ⟨⟨_, _, by rw [hf]⟩, fun q => ?_, fun k q => ?_⟩
  · by_cases hq : p = q
    · subst hq
      rw [Heap.load_free_self, hp₀, Option.bind_some, updated_concat hl₀, hfr]
      rfl
    · rw [Heap.load_free_ne _ hq, Heap.load_store_ne _ _ hq,
        hu.load_of_ne (by rw [hl₀]; simpa using hq)]
  · have hlive : (((s.wallet.heap.store p (tx.setBlock b t)).free p).Live q) ↔
        p ≠ q ∧ s.wallet.heap.Live q := by
      unfold Heap.Live
      by_cases hq : p = q
      · subst hq
        simp [Heap.load_free_self]
      · rw [Heap.load_free_ne _ hq, Heap.load_store_ne _ _ hq]
        simp [hq]
    simp only
    rw [hlive]
    by_cases hk : k = tx.txHash
    · rw [hk, AList.lookup_erase, hh, hl₀]
      refine iff_of_false (fun h => by cases h) ?_
      rintro ⟨hpq, hfreed⟩
      obtain rfl := Option.some.inj hpq
      exact (hfreed ⟨tx, hp₀⟩).1 rfl
    · rw [AList.lookup_erase_ne hk, hu.lookup k q]
      refine and_congr_right fun hkq => imp_congr_right fun _ => ?_
      rw [and_iff_right]
      rintro rfl
      exact hk (hw.hash hkq hp₀).symm

/-- One iteration of the loop. -/
theorem Updated.step (hw : w.Filed) (hu : Updated w hs b t s) {h : UInt256}
    (hs' : Updates b t s h s') : Updated w (hs ++ [h]) b t s' := by
  obtain ⟨heap, allTx, hf⟩ := hu.fields
  cases hs' with
  | unknown hl =>
    refine ⟨⟨heap, allTx, hf⟩, fun q => ?_, hu.lookup⟩
    by_cases hq : w.allTx.lookup h = some q
    · -- the transaction was freed before
      have hn : ¬ s.wallet.heap.Live q := fun hlive => by
        rw [(hu.lookup h q).2 ⟨hq, fun _ => hlive⟩] at hl; cases hl
      have hnone : s.wallet.heap.load q = none := by
        rcases hsq : s.wallet.heap.load q with _ | tx'
        · rfl
        · exact absurd ⟨tx', hsq⟩ hn
      rcases hp : w.heap.load q with _ | tx
      · exact hnone
      have hfree := hnone
      rw [hu.load, hp, Option.bind_some] at hfree
      rw [hnone, Option.bind_some, updated_concat hq]
      unfold updated at hfree
      split_ifs at hfree with _ hfr
      rw [if_pos hfr]
    · exact hu.load_of_ne hq
  | @same p tx hl hp hsame =>
    have hl₀ := ((hu.lookup h p).1 hl).1
    have hch : changes b t tx = false := by simp [changes, hsame]
    refine ⟨⟨heap, allTx, hf⟩, fun q => ?_, hu.lookup⟩
    by_cases hq : p = q
    · subst hq
      have hload := hp
      rw [hu.load, Option.bind_eq_some_iff] at hload
      obtain ⟨tx₀, hp₀, hup⟩ := hload
      rw [hp, hp₀, Option.bind_some, updated_concat hl₀]
      unfold updated at hup
      split_ifs at hup with ht hfr
      · rw [if_neg hfr, hup]
      · obtain rfl := Option.some.inj hup
        have hfr : w.frees b t tx₀ = false := by simp [frees, hch]
        rw [hfr, setBlock_same hch]; rfl
    · exact hu.load_of_ne (by rw [hl₀]; simpa using hq)
  | @listed p tx hl hp hch hc =>
    rw [hu.containsTx] at hc
    exact hu.write hl hp (changes_of_ne hch) (by simp [frees, hc])
  | @parked p tx hl hp hch hc hb =>
    exact hu.write hl hp (changes_of_ne hch) (by simp [frees, hb])
  | @freed p tx hl hp hch hc hb =>
    rw [hu.containsTx] at hc
    have hch : changes b t tx = true := changes_of_ne hch
    exact hu.free hw hl hp hch (by simp [frees, hb, hch, hc])

/-- The loop notes that the ledger has to be recomputed. -/
theorem Updated.needs (hu : Updated w hs b t s) {h : UInt256}
    (hn : w.Recomputes hs b t → s.needsUpdate = true) (hs' : Updates b t s h s')
    (hr : w.Recomputes (hs ++ [h]) b t) : s'.needsUpdate = true := by
  obtain ⟨heap, allTx, hf⟩ := hu.fields
  have hkeep : s.needsUpdate = true → s'.needsUpdate = true := by
    intro hs
    cases hs' with
    | listed => simp [hs]
    | _ => exact hs
  obtain ⟨k, hk, p, tx, hl, hp, hch, hc, hset⟩ := hr
  rcases List.mem_append.1 hk with hk | hk
  · exact hkeep (hn ⟨k, hk, p, tx, hl, hp, hch, hc, hset⟩)
  obtain rfl := List.mem_singleton.1 hk
  -- the transaction is one that the loop before this iteration kept
  have hfr : w.frees b t tx = false := by simp [frees, hc]
  have hload : ∃ tx', s.wallet.heap.load p = some tx' ∧ (tx' = tx ∨ tx' = tx.setBlock b t) := by
    rw [hu.load, hp, Option.bind_some, updated, hfr, if_neg Bool.false_ne_true]
    split_ifs
    · exact ⟨_, rfl, Or.inr rfl⟩
    · exact ⟨_, rfl, Or.inl rfl⟩
  obtain ⟨tx', hp', htx'⟩ := hload
  have hl' : s.wallet.allTx.lookup k = some p := (hu.lookup k p).2 ⟨hl, fun _ => ⟨tx', hp'⟩⟩
  have hc' : s.wallet.containsTx tx' = true := by
    rw [hu.containsTx]
    rcases htx' with rfl | rfl
    · exact hc
    · exact hc
  cases hs' with
  | unknown hl₁ => rw [hl'] at hl₁; cases hl₁
  | @same q x hl₁ hq hsame =>
    obtain rfl := Option.some.inj (hl'.symm.trans hl₁)
    obtain rfl := Option.some.inj (hp'.symm.trans hq)
    rcases ht : w.touches hs p with _ | _
    · rw [hu.load, hp, Option.bind_some, updated, ht] at hp'
      obtain rfl := Option.some.inj hp'
      simp [changes, hsame] at hch
    · simp only [touches, List.any_eq_true, decide_eq_true_eq] at ht
      obtain ⟨k', hk', hlk'⟩ := ht
      exact hn ⟨k', hk', p, tx, hlk', hp, hch, hc, hset⟩
  | @listed q x hl₁ hq _ _ =>
    obtain rfl := Option.some.inj (hl'.symm.trans hl₁)
    obtain rfl := Option.some.inj (hp'.symm.trans hq)
    have hhash : tx'.txHash = tx.txHash := by rcases htx' with rfl | rfl <;> rfl
    have hpend : s.wallet.pendingTx = w.pendingTx := by rw [hf]
    have hinv : s.wallet.invalidTx = w.invalidTx := by rw [hf]
    rw [hhash, hpend, hinv]
    rcases hset with hset | hset <;> simp [hset]
  | @freed q x hl₁ hq _ hx _ =>
    obtain rfl := Option.some.inj (hl'.symm.trans hl₁)
    obtain rfl := Option.some.inj (hp'.symm.trans hq)
    rw [hc'] at hx; cases hx
  | @parked q x hl₁ hq _ hx _ =>
    obtain rfl := Option.some.inj (hl'.symm.trans hl₁)
    obtain rfl := Option.some.inj (hp'.symm.trans hq)
    rw [hc'] at hx; cases hx

/-- The loop of `BRWalletUpdateTransactions`, judged by the wallet it starts with. -/
theorem updateLoop (hw : w.Filed)
    (h : hs.foldlM (updateTx b t) ⟨w, [], false⟩ = some s) :
    Updated w hs b t s ∧ (w.Recomputes hs b t → s.needsUpdate = true) := by
  refine foldlM_prefix (P := fun done s => Updated w done b t s ∧
    (w.Recomputes done b t → s.needsUpdate = true)) (fun _ hu hs =>
      ⟨hu.1.step hw (updateTx_cases hs), hu.1.needs hu.2 (updateTx_cases hs)⟩) ?_ h
  refine ⟨⟨⟨w.heap, w.allTx, rfl⟩, fun q => ?_, fun k q => ?_⟩, ?_⟩
  · have hup : w.updated [] b t q = some := by
      funext tx; simp [updated, touches]
    rw [hup, Option.bind_fun_some]
  · exact (and_iff_left id).symm
  · rintro ⟨k, hk, -⟩
    cases hk

/-- A transaction stays that the update does not find, or does not free. -/
theorem updateTransactions_live (hw : w.Filed)
    (hr : w.updateTransactions now hs b t = some w') (hq : w.heap.load q = some tx)
    (hkeep : w.touches hs q = true → w.frees b t tx = false) : w'.heap.Live q := by
  obtain ⟨s, cs, hloop, hcases⟩ := updateTransactions_some hr
  obtain ⟨hu, -⟩ := updateLoop (w := w.raised b) hw hloop
  have hlive : s.wallet.heap.Live q := by
    have hload : s.wallet.heap.load q = w.updated hs b t q tx := by
      rw [hu.load, show (w.raised b).heap.load q = some tx from hq]
      rfl
    rw [Heap.Live, hload, updated]
    split_ifs with htouch hfree
    · rw [hkeep htouch] at hfree
      cases hfree
    · exact ⟨_, rfl⟩
    · exact ⟨_, rfl⟩
  rcases hcases with ⟨-, rfl⟩ | ⟨-, txs, L, -, -, rfl⟩
  · exact hlive
  · exact hlive

end BRWallet

end RavenWallet
