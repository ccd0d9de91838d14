/-
  The callbacks of published transactions (`BRPeerManagerPublishTx`).

  A callback that was passed is held if it is recorded in `publishedTx`, or if it was
  invoked.  An entry of `publishedTx` is found by its hash, and there is one for a hash.

  * `Passes`: a step holds no callback more than once, and drops none if a condition
    holds;
  * `handle_passes`: what each handler does to the callbacks;
  * `run_accounted`: in every run a callback is invoked at most once; it is dropped
    only when its transaction is confirmed, published or already in the list.
-/
import RavenWallet.Peer.TxManager

namespace RavenWallet

/-- The transaction and the hash of an element of `publishedTx`. -/
def PublishedTx.key (e : PublishedTx) : Ptr × UInt256 := (e.tx, e.txHash)

namespace BRPeerManager

/-! ## Held callbacks -/

/-- How often a callback is recorded. -/
def recorded (es : List PublishedTx) (k : ℕ) : ℕ := (es.map PublishedTx.callback).count (some k)

/-- How often a callback was invoked. -/
def invoked (m : BRPeerManager) (k : ℕ) : ℕ := (m.calls.map Prod.fst).count k

/-- Once for the callback that a handler has taken. -/
def pending (callback : Option ℕ) (k : ℕ) : ℕ := if callback = some k then 1 else 0

def held (m : BRPeerManager) (k : ℕ) : ℕ := m.invoked k + recorded m.publishedTx k

/-- Once for each callback that was passed. -/
def quota (m : BRPeerManager) (k : ℕ) : ℕ := if k < m.issued then 1 else 0

section
variable {es es' : List PublishedTx} {heap heap' : Heap BRTransaction} {txHash : UInt256}
  {callback : Option ℕ}

@[simp] theorem recorded_nil (k : ℕ) : recorded [] k = 0 := rfl

@[simp] theorem recorded_cons (e : PublishedTx) (es : List PublishedTx) (k : ℕ) :
    recorded (e :: es) k = recorded es k + pending e.callback k := by
  rw [recorded, recorded, pending, List.map_cons, List.count_cons]
  by_cases h : e.callback = some k
  · simp [h]
  · simp [h]

theorem recorded_append (es es' : List PublishedTx) (k : ℕ) :
    recorded (es ++ es') k = recorded es k + recorded es' k := by
  rw [recorded, recorded, recorded, List.map_append, List.count_append]

@[simp] theorem pending_none (k : ℕ) : pending none k = 0 := rfl

theorem held_call (m : BRPeerManager) (callback : Option ℕ) (error : Option Errno) (k : ℕ) :
    (m.call callback error).held k = m.held k + pending callback k := by
  cases callback with
  | none => rfl
  | some j =>
    have hcount : List.count k [j] = pending (some j) k := by
      rw [pending, List.count_singleton]
      by_cases h : j = k
      · simp [h]
      · simp [h]
    simp only [call, held, invoked, List.map_append, List.map_singleton, List.count_append, hcount]
    omega

/-! ## The published transactions -/

/-- The entries have the hashes of their transactions, which are all different. -/
structure Published (heap : Heap BRTransaction) (es : List PublishedTx) : Prop where
  known : ∀ e ∈ es.map PublishedTx.key, e.1 < heap.fresh ∧
    ∀ tx, heap.load e.1 = some tx → tx.txHash = e.2
  nodup : ((es.map PublishedTx.key).map Prod.snd).Nodup

theorem Published.nil (heap : Heap BRTransaction) : Published heap [] := by
  refine ⟨?_, List.nodup_nil⟩
  intro e he
  cases he

theorem Published.retains (h : Published heap es)
    (hr : Heap.Retains BRTransaction.txHash heap heap') : Published heap' es := by
  refine ⟨?_, h.nodup⟩
  intro e he
  obtain ⟨hlt, hhash⟩ := h.known e he
  refine ⟨hlt.trans_le hr.fresh, ?_⟩
  intro tx' htx'
  obtain ⟨tx, htx, heq⟩ := hr.load hlt htx'
  rw [← heq]
  exact hhash tx htx

theorem Published.sublist (h : Published heap es)
    (hs : (es'.map PublishedTx.key).Sublist (es.map PublishedTx.key)) : Published heap es' := by
  refine ⟨?_, h.nodup.sublist (hs.map Prod.snd)⟩
  intro e he
  exact h.known e (hs.subset he)

theorem Published.hash (h : Published heap es) {e : PublishedTx} (he : e ∈ es)
    {tx : BRTransaction} (htx : heap.load e.tx = some tx) : tx.txHash = e.txHash :=
  (h.known e.key (List.mem_map_of_mem he)).2 tx htx

/-- No other entry has the hash of the first one. -/
theorem Published.not_mem {e : PublishedTx} (h : Published heap (e :: es)) :
    ∀ d ∈ es, d.txHash ≠ e.txHash := by
  intro d hd heq
  refine (List.nodup_cons.1 h.nodup).1 ?_
  rw [List.map_map]
  exact List.mem_map.2 ⟨d, hd, heq⟩

theorem Published.tail {e : PublishedTx} (h : Published heap (e :: es)) : Published heap es :=
  h.sublist (List.sublist_cons_self _ _)

theorem Published.concat (h : Published heap es) {p : Ptr} {tx : BRTransaction}
    (hp : heap.load p = some tx) (hnew : ∀ e ∈ es, e.txHash ≠ tx.txHash) :
    Published heap (es ++ [⟨p, tx.txHash, callback⟩]) := by
  refine ⟨?_, ?_⟩
  · intro e he
    rw [List.map_append, List.mem_append] at he
    rcases he with he | he
    · exact h.known e he
    · rw [List.map_singleton, List.mem_singleton] at he
      subst he
      refine ⟨Heap.load_lt hp, ?_⟩
      intro t ht
      rw [show heap.load p = some t from ht, Option.some.injEq] at hp
      exact congrArg BRTransaction.txHash hp
  · rw [List.map_append, List.map_append, List.nodup_append]
    refine ⟨h.nodup, List.nodup_singleton _, ?_⟩
    intro a ha b hb hab
    obtain ⟨d, hd, rfl⟩ := List.mem_map.1 ha
    obtain ⟨e, he, rfl⟩ := List.mem_map.1 hd
    exact hnew e he (hab.trans (List.mem_singleton.1 hb))

/-! ## The loops over the published transactions -/

theorem takeCallback_of_ne {peer : PeerAddr} {s : Taking} (h : ∀ e ∈ es, e.txHash ≠ txHash) :
    takeCallback txHash peer es s = { s with publishedTx := es ++ s.publishedTx } := by
  induction es with
  | nil => rfl
  | cons e es ih =>
    rw [takeCallback, ih fun d hd => h d (List.mem_cons_of_mem _ hd),
      if_neg (h e List.mem_cons_self)]
    rfl

/-- The callback is taken from its entry. -/
theorem takeCallback_passes {peer : PeerAddr} {txRelays : List TxPeerList}
    (h : Published heap es) :
    (takeCallback txHash peer es { txRelays }).publishedTx.map PublishedTx.key =
        es.map PublishedTx.key ∧
    ∀ k, recorded (takeCallback txHash peer es { txRelays }).publishedTx k +
      pending (takeCallback txHash peer es { txRelays }).callback k = recorded es k := by
  induction es with
  | nil => exact ⟨rfl, fun _ => rfl⟩
  | cons e es ih =>
    obtain ⟨hkey, hcount⟩ := ih h.tail
    rw [takeCallback]
    split_ifs with he
    · have hnone : (takeCallback txHash peer es { txRelays }).callback = none := by
        rw [takeCallback_of_ne (he ▸ h.not_mem)]
      refine ⟨congrArg (e.key :: ·) hkey, ?_⟩
      intro k
      have hk := hcount k
      rw [hnone] at hk
      rw [recorded_cons, recorded_cons, ← hk]
    · refine ⟨congrArg (e.key :: ·) hkey, ?_⟩
      intro k
      rw [recorded_cons, recorded_cons, ← hcount k]
      exact Nat.add_right_comm _ _ _

/-- Only entries with the hash are taken out. -/
theorem unpublish_passes {w : BRWallet} (h : Published heap es)
    (hu : unpublish w txHash es heap = some (es', heap')) :
    es'.Sublist es ∧ Heap.Retains BRTransaction.txHash heap heap' ∧
    ((∀ e ∈ es, e.txHash = txHash → e.callback = none) →
      ∀ k, recorded es' k = recorded es k) := by
  induction es generalizing es' heap' with
  | nil =>
    cases hu
    exact ⟨.slnil, .refl _ _, fun _ _ => rfl⟩
  | cons e es ih =>
    simp only [unpublish, Option.bind_eq_bind, Option.bind_eq_some_iff, Prod.exists] at hu
    obtain ⟨ds, heap₁, hds, tx, htx, hu⟩ := hu
    obtain ⟨hsub, hr, hcount⟩ := ih h.tail hds
    have hhash : tx.txHash = e.txHash := (h.retains hr).hash List.mem_cons_self htx
    by_cases he : tx.txHash ≠ txHash
    · rw [if_pos he] at hu
      cases hu
      refine ⟨hsub.cons_cons e, hr, ?_⟩
      intro hnone k
      rw [recorded_cons, recorded_cons, hcount fun d hd => hnone d (List.mem_cons_of_mem _ hd)]
    · have hdropped : (∀ d ∈ e :: es, d.txHash = txHash → d.callback = none) →
          ∀ k, recorded ds k = recorded (e :: es) k := by
        intro hnone k
        have he' : e.txHash = txHash := hhash.symm.trans (not_not.1 he)
        rw [recorded_cons, hnone e List.mem_cons_self he', pending_none,
          hcount fun d hd => hnone d (List.mem_cons_of_mem _ hd), Nat.add_zero]
      rw [if_neg he] at hu
      split_ifs at hu
      · cases hu
        exact ⟨hsub.cons e, hr, hdropped⟩
      · cases hu
        exact ⟨hsub.cons e, hr.trans (.free _ _ _), hdropped⟩

theorem request_of_ne {fuel : ℕ} {w : BRWallet} {s s' : Requesting}
    (h : ∀ e ∈ es, e.txHash ≠ txHash) (hs : request fuel w txHash es s = some s') :
    s' = { s with publishedTx := es ++ s.publishedTx } := by
  induction es generalizing s' with
  | nil =>
    cases hs
    rfl
  | cons e es ih =>
    obtain ⟨s₁, hs₁, hs⟩ := Option.bind_eq_some_iff.1 hs
    rw [if_pos (h e List.mem_cons_self), ih (fun d hd => h d (List.mem_cons_of_mem _ hd)) hs₁] at hs
    cases hs
    rfl

/-- The callback is taken from its entry, which may be taken out. -/
theorem request_passes {fuel : ℕ} {w : BRWallet} {s : Requesting} (h : Published heap es)
    (hs : request fuel w txHash es { heap } = some s) :
    (s.publishedTx.map PublishedTx.key).Sublist (es.map PublishedTx.key) ∧
    Heap.Retains BRTransaction.txHash heap s.heap ∧
    ∀ k, recorded s.publishedTx k + pending s.callback k = recorded es k := by
  induction es generalizing s with
  | nil =>
    cases hs
    exact ⟨.slnil, .refl _ _, fun _ => rfl⟩
  | cons e es ih =>
    simp only [request, Option.bind_eq_bind, Option.bind_eq_some_iff] at hs
    obtain ⟨s₁, hs₁, hs⟩ := hs
    obtain ⟨hkey, hr, hcount⟩ := ih h.tail hs₁
    by_cases he : e.txHash ≠ txHash
    · rw [if_pos he] at hs
      cases hs
      refine ⟨hkey.cons_cons e.key, hr, ?_⟩
      intro k
      rw [recorded_cons, recorded_cons, ← hcount k]
      exact Nat.add_right_comm _ _ _
    · have hnone : s₁.callback = none := by
        rw [request_of_ne (not_not.1 he ▸ h.not_mem) hs₁]
      have htaken : ∀ k, recorded s₁.publishedTx k + pending e.callback k =
          recorded (e :: es) k := by
        intro k
        rw [recorded_cons, ← hcount k, hnone, pending_none, Nat.add_zero]
      rw [if_neg he] at hs
      simp only [Option.bind_eq_some_iff] at hs
      obtain ⟨tx, -, valid, -, hs⟩ := hs
      split_ifs at hs
      · cases hs
        refine ⟨hkey.cons_cons e.key, hr, ?_⟩
        intro k
        rw [recorded_cons]
        exact htaken k
      · cases hs
        exact ⟨hkey.cons e.key, hr, htaken⟩
      · cases hs
        exact ⟨hkey.cons e.key, hr.trans (.free _ _ _), htaken⟩

/-- Every recorded callback is taken. -/
theorem cancel_passes {callbacks : List ℕ} (hc : cancel es heap = some (es', callbacks, heap')) :
    es'.Sublist es ∧ Heap.Retains BRTransaction.txHash heap heap' ∧
    ∀ k, recorded es' k + callbacks.count k = recorded es k := by
  induction es generalizing es' callbacks heap' with
  | nil =>
    cases hc
    exact ⟨.slnil, .refl _ _, fun _ => rfl⟩
  | cons e es ih =>
    simp only [cancel, Option.bind_eq_bind, Option.bind_eq_some_iff, Prod.exists] at hc
    obtain ⟨ds, cs, heap₁, hds, hc⟩ := hc
    obtain ⟨hsub, hr, hcount⟩ := ih hds
    split at hc
    · rename_i hnone
      cases hc
      refine ⟨hsub.cons_cons e, hr, ?_⟩
      intro k
      rw [recorded_cons, recorded_cons, ← hcount k]
      omega
    · rename_i j hj
      obtain ⟨tx, -, hc⟩ := Option.bind_eq_some_iff.1 hc
      cases hc
      refine ⟨hsub.cons e, hr.trans (.free _ _ _), ?_⟩
      intro k
      rw [recorded_cons, ← hcount k, hj, pending, List.count_append, List.count_singleton]
      by_cases h : j = k
      · simp [h, Nat.add_assoc]
      · simp [h]

end

/-! ## What a step does to the callbacks -/

/-- The entries of `publishedTx` are as they should be. -/
abbrev Known (m : BRPeerManager) : Prop := Published m.wallet.heap m.publishedTx

/-- A step that holds no callback once more than it is passed, and as often if `kept` holds. -/
structure Passes (kept : Prop) (m m' : BRPeerManager) : Prop where
  known : m'.Known
  le : ∀ k, m'.held k + m.quota k ≤ m.held k + m'.quota k
  eq : kept → ∀ k, m'.held k + m.quota k = m.held k + m'.quota k

section
variable {kept kept' : Prop} {m m₁ m₂ m' : BRPeerManager} {env : Env} {fuel : ℕ} {now : ℤ}
  {peer : PeerAddr} {p : Ptr} {txHash : UInt256} {callback : Option ℕ}

theorem Passes.of_eq (hm' : m'.Known)
    (h : ∀ k, m'.held k + m.quota k = m.held k + m'.quota k) : Passes kept m m' :=
  ⟨hm', fun k => (h k).le, fun _ => h⟩

theorem Passes.refl (hm : m.Known) : Passes kept m m := .of_eq hm fun _ => rfl

theorem Passes.trans (h : Passes kept m m₁) (h₁ : Passes kept m₁ m') : Passes kept m m' := by
  refine ⟨h₁.known, ?_, ?_⟩
  · intro k
    have hle := h.le k
    have hle₁ := h₁.le k
    omega
  · intro hkept k
    have heq := h.eq hkept k
    have heq₁ := h₁.eq hkept k
    omega

theorem Passes.mono (h : Passes kept m m') (hkept : kept' → kept) : Passes kept' m m' :=
  ⟨h.known, h.le, fun h' => h.eq (hkept h')⟩

/-- The wallet and the lists of peers may change. -/
theorem Passes.frame (hm : m.Known)
    (hr : Heap.Retains BRTransaction.txHash m.wallet.heap m'.wallet.heap)
    (hpublished : m'.publishedTx = m.publishedTx) (hcalls : m'.calls = m.calls)
    (hissued : m'.issued = m.issued) : Passes kept m m' := by
  refine .of_eq ?_ ?_
  · rw [Known, hpublished]
    exact hm.retains hr
  · intro k
    rw [held, held, invoked, invoked, quota, quota, hpublished, hcalls, hissued]

theorem Passes.wallet {op : WalletOp} {w : BRWallet} (hm : m.Known)
    (h : BRWallet.step env m.wallet op w) : Passes kept m { m with wallet := w } :=
  .frame hm (BRWallet.step_retains h) rfl rfl rfl

/-- A callback that was taken is invoked at the end. -/
theorem Passes.call {error : Option Errno}
    (hheld : ∀ k, m₁.held k + pending callback k = m.held k) (hissued : m₁.issued = m.issued)
    (h : Passes True m₁ m₂) :
    Passes kept m (m₂.call callback error) := by
  have hwallet : (m₂.call callback error).wallet = m₂.wallet ∧
      (m₂.call callback error).publishedTx = m₂.publishedTx ∧
      (m₂.call callback error).issued = m₂.issued := by
    cases callback <;> exact ⟨rfl, rfl, rfl⟩
  refine .of_eq ?_ ?_
  · rw [Known, hwallet.1, hwallet.2.1]
    exact h.known
  · intro k
    have hk := hheld k
    have heq := h.eq trivial k
    rw [held_call]
    rw [quota, hissued] at heq
    rw [quota, quota, hwallet.2.2]
    rw [quota] at heq
    omega

/-! ## The parts of the handlers -/

theorem confirm_passes (hm : m.Known) (h : m.confirm txHash = some m') :
    Passes (∀ e ∈ m.publishedTx, e.txHash = txHash → e.callback = none) m m' ∧
    m'.publishedTx.Sublist m.publishedTx := by
  simp only [confirm, Option.bind_eq_bind, Option.bind_eq_some_iff, Prod.exists] at h
  obtain ⟨es, heap, hu, h⟩ := h
  cases h
  obtain ⟨hsub, hr, hcount⟩ := unpublish_passes hm hu
  refine ⟨⟨(hm.retains hr).sublist (hsub.map _), ?_, ?_⟩, hsub⟩
  · intro k
    have hle : recorded es k ≤ recorded m.publishedTx k := (hsub.map _).count_le _
    exact Nat.add_le_add_right (Nat.add_le_add_left hle _) _
  · intro hnone k
    have heq := hcount hnone k
    exact congrArg (m.invoked k + · + m.quota k) heq

theorem updateTx_passes {txHashes : List UInt256} {blockHeight timestamp : UInt32} (hm : m.Known)
    (h : m.updateTx now txHashes blockHeight timestamp = some m') :
    Passes (blockHeight ≠ TX_UNCONFIRMED →
      ∀ e ∈ m.publishedTx, e.txHash ∈ txHashes → e.callback = none) m m' := by
  simp only [updateTx, Option.bind_eq_bind, Option.bind_eq_some_iff] at h
  obtain ⟨m₁, h₁, wallet, hwallet, h⟩ := h
  cases h
  have hstep : BRWallet.step BRWallet.sampleEnv m₁.wallet
      (.updateTransactions now txHashes blockHeight timestamp) wallet := hwallet
  refine Passes.trans ?_ (.wallet ?_ hstep)
  all_goals
    split_ifs at h₁ with hheight
  · refine (foldlM_invariant (P := fun m₁ => Passes (blockHeight ≠ TX_UNCONFIRMED →
      ∀ e ∈ m.publishedTx, e.txHash ∈ txHashes → e.callback = none) m m₁ ∧
      m₁.publishedTx.Sublist m.publishedTx) ?_ ⟨.refl hm, .refl _⟩ h₁).1
    intro m₁ txHash m₂ hmem hm₁ hstep
    obtain ⟨hpasses, hsub⟩ := confirm_passes hm₁.1.known hstep
    refine ⟨hm₁.1.trans (hpasses.mono ?_), hsub.trans hm₁.2⟩
    intro hkept e he heq
    exact hkept hheight e (hm₁.2.subset he) (heq ▸ hmem)
  · cases h₁
    exact .refl hm
  · exact foldlM_invariant (P := Known) (fun _ hm h => (confirm_passes hm h).1.known) hm h₁
  · cases h₁
    exact hm

/-- No callback is dropped if nothing is confirmed. -/
theorem updateTx_unconfirmed_passes {txHashes : List UInt256} {timestamp : UInt32} (hm : m.Known)
    (h : m.updateTx now txHashes TX_UNCONFIRMED timestamp = some m') : Passes kept m m' := by
  refine (updateTx_passes hm h).mono ?_
  intro _ hne
  exact absurd rfl hne

theorem taken_passes (hm : m.Known) (txHash : UInt256) (peer : PeerAddr) :
    (m.taken txHash peer).1.Known ∧
    ∀ k, (m.taken txHash peer).1.held k + pending (m.taken txHash peer).2.1 k = m.held k := by
  have hloop : (takeCallback txHash peer m.publishedTx { txRelays := m.txRelays }).publishedTx.map
      PublishedTx.key = m.publishedTx.map PublishedTx.key ∧ _ := takeCallback_passes hm
  obtain ⟨hkey, hcount⟩ := hloop
  refine ⟨hm.sublist (hkey ▸ .refl _), ?_⟩
  intro k
  rw [held, held, ← hcount k, ← Nat.add_assoc]
  rfl

/-- An entry is for the transaction exactly if it has its hash. -/
theorem txEq_iff {es : List PublishedTx} {heap : Heap BRTransaction} (h : Published heap es)
    {e : PublishedTx} (he : e ∈ es) {tx : BRTransaction} (hp : heap.load p = some tx) {b : Bool}
    (heq : txEq heap e.tx p = some b) : b = true ↔ e.txHash = tx.txHash := by
  rw [txEq] at heq
  split_ifs at heq with hptr
  · cases heq
    rw [← hptr] at hp
    exact iff_of_true rfl (h.hash he hp).symm
  · simp only [Option.bind_eq_bind, Option.bind_eq_some_iff] at heq
    obtain ⟨t, ht, t', ht', heq⟩ := heq
    rw [hp, Option.some.injEq] at ht'
    cases heq
    rw [decide_eq_true_iff, h.hash he ht, ht']

/-- The callback is recorded, unless the transaction is confirmed or in the list already; the inputs
    are added without callbacks. -/
theorem addTxToPublishList_passes {depth : ℕ} (hm : m.Known)
    (h : addTxToPublishList depth m p callback = some m') :
    ∃ es, m' = { m with publishedTx := m.publishedTx ++ es } ∧ m'.Known ∧
      (∀ k, recorded es k ≤ pending callback k) ∧
      ((callback ≠ none → ∀ tx, m.wallet.heap.load p = some tx → tx.blockHeight = TX_UNCONFIRMED ∧
        ∀ e ∈ m.publishedTx, e.txHash ≠ tx.txHash) → ∀ k, recorded es k = pending callback k) := by
  induction depth generalizing m p callback m' with
  | zero => cases h
  | succ depth ih =>
    have hsame : ∀ tx, m.wallet.heap.load p = some tx →
        (tx.blockHeight ≠ TX_UNCONFIRMED ∨ ∃ e ∈ m.publishedTx, e.txHash = tx.txHash) →
        ∃ es, m = { m with publishedTx := m.publishedTx ++ es } ∧ m.Known ∧
        (∀ k, recorded es k ≤ pending callback k) ∧
        ((callback ≠ none → ∀ tx, m.wallet.heap.load p = some tx →
          tx.blockHeight = TX_UNCONFIRMED ∧ ∀ e ∈ m.publishedTx, e.txHash ≠ tx.txHash) →
          ∀ k, recorded es k = pending callback k) := by
      intro tx htx hdropped
      refine ⟨[], ?_, hm, fun k => Nat.zero_le _, ?_⟩
      · rw [List.append_nil]
      · intro hkept k
        by_cases hc : callback = none
        · rw [hc]
          rfl
        · obtain ⟨hheight, hnew⟩ := hkept hc tx htx
          rcases hdropped with hne | ⟨e, he, heq⟩
          · exact absurd hheight hne
          · exact absurd heq (hnew e he)
    obtain ⟨tx, htx, h⟩ := Option.bind_eq_some_iff.1 h
    split_ifs at h with hheight
    · cases h
      exact hsame tx htx (Or.inl hheight)
    · obtain ⟨published, hpublished, h⟩ := Option.bind_eq_some_iff.1 h
      cases published with
      | true =>
        cases h
        obtain ⟨e, he, heq⟩ := anyM_eq_true hpublished
        have he := List.mem_reverse.1 he
        exact hsame tx htx (Or.inr ⟨e, he, (txEq_iff hm he htx heq).1 rfl⟩)
      | false =>
        have hnew : ∀ e ∈ m.publishedTx, e.txHash ≠ tx.txHash := by
          intro e he heq
          have hfalse := anyM_eq_false hpublished e (List.mem_reverse.2 he)
          exact absurd ((txEq_iff hm he htx hfalse).2 heq) Bool.false_ne_true
        refine foldlM_invariant (P := fun m' => ∃ es,
          m' = { m with publishedTx := m.publishedTx ++ es } ∧ m'.Known ∧
          (∀ k, recorded es k ≤ pending callback k) ∧ (_ → ∀ k, recorded es k = pending callback k))
          ?_ ?_ h
        · rintro m₁ i m₂ - ⟨es, rfl, hm₁, hle, heq⟩ hstep
          cases hlookup : m.wallet.allTx.lookup i.txHash with
          | none =>
            rw [show _ = _ from hlookup] at hstep
            cases hstep
            exact ⟨es, rfl, hm₁, hle, heq⟩
          | some q =>
            rw [show _ = _ from hlookup] at hstep
            obtain ⟨ds, rfl, hm₂, hds, -⟩ := ih hm₁ hstep
            have hzero : ∀ k, recorded ds k = 0 := fun k => Nat.le_zero.1 (hds k)
            refine ⟨es ++ ds, by rw [List.append_assoc], hm₂, ?_, ?_⟩
            · intro k
              rw [recorded_append, hzero, Nat.add_zero]
              exact hle k
            · intro hkept k
              rw [recorded_append, hzero, Nat.add_zero]
              exact heq hkept k
        · refine ⟨[⟨p, tx.txHash, callback⟩], rfl, hm.concat htx hnew, ?_, ?_⟩
          · intro k
            rw [recorded_cons, recorded_nil, Nat.zero_add]
          · intro _ k
            rw [recorded_cons, recorded_nil, Nat.zero_add]

/-! ## The handlers -/

theorem addTxToPublishList_none_passes {depth : ℕ} (hm : m.Known)
    (h : addTxToPublishList depth m p none = some m') : Passes kept m m' := by
  obtain ⟨es, rfl, hm', hle, -⟩ := addTxToPublishList_passes hm h
  refine .of_eq hm' ?_
  intro k
  have hzero : recorded es k = 0 := Nat.le_zero.1 (hle k)
  rw [held, held, recorded_append, hzero]
  rfl

/-- A callback is dropped only if its transaction is confirmed or in the list already. -/
theorem publishTx_passes {reachable hasCallback : Bool} (hm : m.Known)
    (h : m.publishTx fuel now reachable p hasCallback = some m') :
    Passes (hasCallback = true → ∀ tx, m.wallet.heap.load p = some tx → tx.isSigned = true →
      (m.isConnected = true ∨ m.connectFailureCount < MAX_CONNECT_FAILURES ∧ reachable = true) →
      tx.blockHeight = TX_UNCONFIRMED ∧ ∀ e ∈ m.publishedTx, e.txHash ≠ tx.txHash) m m' := by
  simp only [publishTx, Option.bind_eq_bind, Option.bind_eq_some_iff] at h
  obtain ⟨tx, htx, h⟩ := h
  have hissue : ∃ issued, (m.issue hasCallback).1 = { m with issued } ∧ (m.issue hasCallback).2 =
      (if hasCallback = true then some m.issued else none) ∧
      ∀ k, (m.issue hasCallback).1.quota k = m.quota k + pending (m.issue hasCallback).2 k := by
    rw [issue]
    split_ifs
    · refine ⟨_, rfl, rfl, ?_⟩
      intro k
      rw [quota, quota, pending]
      simp only [Option.some.injEq]
      split_ifs <;> omega
    · exact ⟨m.issued, rfl, rfl, fun _ => rfl⟩
  obtain ⟨issued, hm₁, hcallback, hquota⟩ := hissue
  rw [hm₁] at h hquota
  -- a refused transaction is freed, and its callback gets the error
  have hrefused : ∀ {kept} error, Passes kept m (({ m with issued }.setHeap
      (m.wallet.heap.free p)).call (m.issue hasCallback).2 (some error)) := by
    intro kept error
    refine .of_eq ?_ ?_
    · have hfree := hm.retains (.free _ _ p)
      cases hc : (m.issue hasCallback).2 with
      | none => exact hfree
      | some k => exact hfree
    · intro k
      have hcall : ((({ m with issued } : BRPeerManager).setHeap (m.wallet.heap.free p)).call
          (m.issue hasCallback).2 (some error)).quota k =
          ({ m with issued } : BRPeerManager).quota k := by
        cases hc : (m.issue hasCallback).2 <;> rfl
      rw [held_call, hcall, hquota k]
      show m.held k + _ + _ = _
      omega
  split_ifs at h with hsigned hconnected
  · cases h
    exact hrefused .EINVAL
  · cases h
    exact hrefused .ENOTCONN
  · have hstore : Heap.Retains BRTransaction.txHash m.wallet.heap
        (m.wallet.heap.store p (tx.setBlock tx.blockHeight (timestamp now))) := .store htx rfl
    obtain ⟨es, hm₂, hm', hle, heq⟩ := addTxToPublishList_passes (m := { m with issued }.setHeap _)
      (hm.retains hstore) h
    have hheld : ∀ k, m'.held k = m.held k + recorded es k := by
      intro k
      rw [hm₂, held, held, recorded_append, ← Nat.add_assoc]
      rfl
    have hquota' : ∀ k, m'.quota k = m.quota k + pending (m.issue hasCallback).2 k := by
      intro k
      rw [hm₂]
      exact hquota k
    refine ⟨hm', ?_, ?_⟩
    · intro k
      have hk := hle k
      rw [hheld, hquota']
      omega
    · intro hkept k
      rw [hheld, hquota', heq ?_ k]
      · omega
      · intro hne t ht
        have hhas : hasCallback = true := by
          rw [hcallback] at hne
          by_contra hnot
          rw [if_neg hnot] at hne
          exact hne rfl
        have hsig : tx.isSigned = true := by simpa using hsigned
        have hreach : m.isConnected = true ∨
            m.connectFailureCount < MAX_CONNECT_FAILURES ∧ reachable = true := by
          by_cases hc : m.isConnected = true
          · exact Or.inl hc
          · refine Or.inr ?_
            have hc' : m.isConnected = false := by simpa using hc
            have hneg : ¬ (m.connectFailureCount ≥ MAX_CONNECT_FAILURES ∨ reachable = false) :=
              fun hor => hconnected ⟨hc', hor⟩
            rw [not_or, not_le] at hneg
            exact ⟨hneg.1, by simpa using hneg.2⟩
        obtain ⟨hheight, hnew⟩ := hkept hhas tx htx hsig hreach
        have hstored : (m.wallet.heap.store p (tx.setBlock tx.blockHeight (timestamp now))).load p =
            some t := ht
        rw [Heap.load_store_self _ htx, Option.some.injEq] at hstored
        rw [← hstored]
        exact ⟨hheight, hnew⟩

theorem preserved_passes (env : Env) (kept : Prop) (m : BRPeerManager) :
    Preserved env fun m' => Passes kept m m' where
  same hm hw hp hc hi _ _ := by
    refine hm.trans (.frame hm.known ?_ hp hc hi)
    rw [hw]
    exact .refl _ _
  registers {m₁ fuel now p w r} hm h := by
    have hstep : BRWallet.step env m₁.wallet (.registerTransaction now p) w := ⟨fuel, r, h⟩
    exact hm.trans (.wallet hm.known hstep)
  publishes hm h := hm.trans (addTxToPublishList_none_passes hm.known h)
  updates hm h := hm.trans (updateTx_unconfirmed_passes hm.known h)

theorem relayedTx_passes (hm : m.Known) (h : m.relayedTx env fuel now peer p = some m') :
    Passes kept m m' := by
  have hm₁ : ∀ k, (m.taken k peer).1.Known := fun k => (taken_passes hm k peer).1
  obtain ⟨k, m₁, rfl, hpasses | rfl⟩ :=
    Preserved.relayedTx (fun k => preserved_passes env True (m.taken k peer).1)
      (fun k => .refl (hm₁ k)) h
  · exact .call (taken_passes hm k peer).2 rfl hpasses
  · refine .call (taken_passes hm k peer).2 rfl ?_
    exact .frame (hm₁ k) (.free _ _ p) rfl rfl rfl

theorem hasTx_passes (hm : m.Known) (h : m.hasTx env fuel now peer txHash = some m') :
    Passes kept m m' := by
  obtain ⟨hm₁, hheld⟩ := taken_passes hm txHash peer
  obtain ⟨m₁, rfl, hpasses⟩ :=
    (preserved_passes env True (m.taken txHash peer).1).hasTx (.refl hm₁) h
  exact .call hheld rfl hpasses

theorem requestedTx_passes (hm : m.Known) (h : m.requestedTx env fuel now peer txHash = some m') :
    Passes kept m m' := by
  obtain ⟨s, hs, h⟩ := Option.bind_eq_some_iff.1 h
  obtain ⟨hkey, hr, hcount⟩ := request_passes hm hs
  have hm₁ : Known { m.setHeap s.heap with publishedTx := s.publishedTx } :=
    (hm.retains hr).sublist hkey
  have hheld : ∀ k, held { m.setHeap s.heap with publishedTx := s.publishedTx } k +
      pending s.callback k = m.held k := by
    intro k
    rw [held, held, ← hcount k, ← Nat.add_assoc]
    rfl
  split at h
  · rename_i p _ _
    obtain ⟨⟨wallet, isWalletTx⟩, hregister, h⟩ := Option.bind_eq_some_iff.1 h
    cases h
    refine Passes.call hheld rfl ?_
    have hstep : BRWallet.step env (m.setHeap s.heap).wallet (.registerTransaction now p) wallet :=
      ⟨fuel, isWalletTx, hregister⟩
    exact .frame hm₁ (BRWallet.step_retains hstep) rfl rfl rfl
  · cases h
    exact .call hheld rfl (.refl hm₁)

/-- A disconnection may cancel the publications. -/
theorem disconnected_some {error : Option Errno} (h : m.disconnected peer error = some m') :
    m'.issued = m.issued ∧
    ((m'.wallet = m.wallet ∧ m'.publishedTx = m.publishedTx ∧ m'.calls = m.calls) ∨
      ∃ es callbacks heap txError, cancel m.publishedTx m.wallet.heap = some (es, callbacks, heap) ∧
        m'.wallet = { m.wallet with heap } ∧ m'.publishedTx = es ∧
        m'.calls = m.calls ++ callbacks.map fun k => (k, some txError)) := by
  simp only [disconnected] at h
  split at h
  · cases h
    refine ⟨?_, Or.inl ⟨?_, ?_, ?_⟩⟩
    all_goals split_ifs <;> rfl
  · rename_i txError _
    simp only [Option.bind_eq_bind, Option.bind_eq_some_iff, Prod.exists] at h
    obtain ⟨es, callbacks, heap, hc, h⟩ := h
    have hcancel : cancel m.publishedTx m.wallet.heap = some (es, callbacks, heap) := by
      split_ifs at hc <;> exact hc
    cases h
    refine ⟨?_, Or.inr ⟨es, callbacks, heap, txError, hcancel, ?_, rfl, ?_⟩⟩
    all_goals
      dsimp only [setHeap]
      split_ifs <;> rfl

theorem disconnected_passes {error : Option Errno} (hm : m.Known)
    (h : m.disconnected peer error = some m') : Passes kept m m' := by
  obtain ⟨hissued, ⟨hwallet, hpublished, hcalls⟩ |
    ⟨es, callbacks, heap, txError, hc, hwallet, hpublished, hcalls⟩⟩ := disconnected_some h
  · refine .frame hm ?_ hpublished hcalls hissued
    rw [hwallet]
    exact .refl _ _
  · obtain ⟨hsub, hr, hcount⟩ := cancel_passes hc
    refine .of_eq ?_ ?_
    · rw [Known, hwallet, hpublished]
      exact (hm.retains hr).sublist (hsub.map _)
    · intro k
      have hk := hcount k
      have hcallbacks : List.count k ((callbacks.map fun k => (k, some txError)).map Prod.fst) =
          callbacks.count k := by
        rw [List.map_map]
        exact congrArg (List.count k) (List.map_id callbacks)
      rw [held, held, invoked, invoked, quota, quota, hcalls, hpublished, hissued, List.map_append,
        List.count_append, hcallbacks]
      omega

/-! ## Runs -/

/-- The condition under which an event drops no callback: a transaction that is published with one
    is unconfirmed and not in the list, unless it is refused, and none with a recorded callback is
    confirmed. -/
def KeepsCallbacks (m : BRPeerManager) : ManagerEvent → Prop
  | .publishTx _ reachable p hasCallback => hasCallback = true →
    ∀ tx, m.wallet.heap.load p = some tx → tx.isSigned = true →
      (m.isConnected = true ∨ m.connectFailureCount < MAX_CONNECT_FAILURES ∧ reachable = true) →
      tx.blockHeight = TX_UNCONFIRMED ∧ ∀ e ∈ m.publishedTx, e.txHash ≠ tx.txHash
  | .relayedBlock _ txHashes blockHeight _ => blockHeight ≠ TX_UNCONFIRMED →
    ∀ e ∈ m.publishedTx, e.txHash ∈ txHashes → e.callback = none
  | _ => True

theorem handle_passes {event : ManagerEvent} (hm : m.Known)
    (h : m.handle env fuel event = some m') : Passes (m.KeepsCallbacks event) m m' := by
  cases event with
  | alloc tx =>
    cases h
    exact .frame hm (.alloc _ _ tx) rfl rfl rfl
  | publishTx now reachable p hasCallback => exact publishTx_passes hm h
  | relayedTx now peer tx =>
    have halloc : Passes (m.KeepsCallbacks (.relayedTx now peer tx)) m
        (m.setHeap (m.wallet.heap.alloc tx)) := .frame hm (.alloc _ _ tx) rfl rfl rfl
    exact halloc.trans (relayedTx_passes halloc.known h)
  | hasTx now peer txHash => exact hasTx_passes hm h
  | requestedTx now peer txHash => exact requestedTx_passes hm h
  | disconnected peer error => exact disconnected_passes hm h
  | relayedBlock now txHashes blockHeight timestamp => exact updateTx_passes hm h
  | _ =>
    exact (preserved_passes env _ m).handle_wallet (fun _ hm₁ hstep =>
      hm₁.trans (.wallet hm₁.known hstep)) (.refl hm) h trivial

theorem run_known {G : BRPeerManager → ManagerEvent → Prop} (h : (system env).Run G m) :
    m.Known := by
  refine h.invariant (J := fun _ => True) (fun _ => trivial) ?_ ?_
  · rintro s ⟨wallet, -, rfl⟩
    exact .nil _
  · rintro s event s' - hs - ⟨fuel, hstep⟩ -
    exact (handle_passes hs hstep).known

end

/-- In every run a callback is invoked at most once.  If no step drops one, then each that was passed
    is invoked or recorded. -/
theorem run_accounted (env : Env) {G : BRPeerManager → ManagerEvent → Prop} {m : BRPeerManager}
    (h : (system env).Run G m) :
    (∀ k, m.invoked k ≤ 1) ∧
    ((∀ s event, G s event → s.KeepsCallbacks event) →
      ∀ k < m.issued, m.invoked k = 1 ∨ ∃ e ∈ m.publishedTx, e.callback = some k) := by
  have hle : ∀ k, m.held k ≤ m.quota k := by
    refine h.invariant (I := fun m => ∀ k, m.held k ≤ m.quota k) run_known ?_ ?_
    · rintro s ⟨wallet, -, rfl⟩ k
      exact Nat.zero_le _
    · rintro s event s' hs hle - ⟨fuel, hstep⟩ - k
      have hk := (handle_passes hs hstep).le k
      have hk' := hle k
      omega
  refine ⟨?_, ?_⟩
  · intro k
    have hk := hle k
    rw [held, quota] at hk
    split_ifs at hk <;> omega
  · intro hG k hissued
    have heq : ∀ k, m.held k = m.quota k := by
      refine h.invariant (I := fun m => ∀ k, m.held k = m.quota k) run_known ?_ ?_
      · rintro s ⟨wallet, -, rfl⟩ k
        rfl
      · rintro s event s' hs heq hguard ⟨fuel, hstep⟩ - k
        have hk := (handle_passes hs hstep).eq (hG _ _ hguard) k
        have hk' := heq k
        omega
    have hk := heq k
    rw [held, quota, if_pos hissued] at hk
    by_cases hzero : recorded m.publishedTx k = 0
    · exact Or.inl (by omega)
    · refine Or.inr ?_
      have hmem := List.count_pos_iff.1 (Nat.pos_of_ne_zero hzero)
      exact List.mem_map.1 hmem

/-- A transaction is published twice, and the second callback is dropped. -/
theorem not_run_accounted : ¬ ∀ (env : Env) (m : BRPeerManager),
    (system env).Run (fun _ _ => True) m →
      ∀ k < m.issued, m.invoked k = 1 ∨ ∃ e ∈ m.publishedTx, e.callback = some k := by
  intro h
  have hbad : ∃ w, BRWallet.new BRWallet.sampleEnv 100 0 ⟨[some BRWallet.receipt]⟩ [0] =
      some (some w) ∧ ∃ m, [ManagerEvent.publishTx 0 true 0 true, .publishTx 0 true 0 true].foldlM
        (handle BRWallet.sampleEnv 100) { wallet := w } = some m ∧ m.issued = 2 ∧
        m.calls = [] ∧ m.publishedTx = [⟨0, 1, some 0⟩] :=
    ⟨_, rfl, _, rfl, rfl, rfl, by decide⟩
  obtain ⟨w, hw, m, hm, hissued, hcalls, hpublished⟩ := hbad
  have hinit : (system BRWallet.sampleEnv).init { wallet := w } := ⟨w, ⟨100, 0, _, _, hw⟩, rfl⟩
  have hrun : (system BRWallet.sampleEnv).Run (fun _ _ => True) m :=
    .foldlM (fun hstep => ⟨trivial, 100, hstep⟩) (.init hinit) hm
  have hsecond := h BRWallet.sampleEnv m hrun 1 (by rw [hissued]; decide)
  rw [invoked, hcalls, hpublished] at hsecond
  revert hsecond
  decide

theorem run_accounted_receipt : ∃ w m,
    (BRWallet.system BRWallet.sampleEnv).init w ∧
    ({ wallet := w } : BRPeerManager).publishTx 100 0 true 0 true = some m ∧ m.issued = 1 ∧
    ∀ k < m.issued, m.invoked k = 1 ∨ ∃ e ∈ m.publishedTx, e.callback = some k := by
  have hgood : ∃ w, BRWallet.new BRWallet.sampleEnv 100 0 ⟨[some BRWallet.receipt]⟩ [0] =
      some (some w) ∧ w.heap.load 0 = some BRWallet.receipt ∧
      ∃ m, ({ wallet := w } : BRPeerManager).publishTx 100 0 true 0 true = some m ∧ m.issued = 1 :=
    ⟨_, rfl, by decide, _, rfl, rfl⟩
  obtain ⟨w, hw, hload, m, hm, hissued⟩ := hgood
  have hwallet : (BRWallet.system BRWallet.sampleEnv).init w := ⟨100, 0, _, _, hw⟩
  have hinit : (system BRWallet.sampleEnv).init { wallet := w } := ⟨w, hwallet, rfl⟩
  have hguard : KeepsCallbacks { wallet := w } (.publishTx 0 true 0 true) := by
    intro _ tx htx _ _
    rw [show w.heap.load 0 = some tx from htx, Option.some.injEq] at hload
    rw [hload]
    refine ⟨by decide, ?_⟩
    intro e he
    cases he
  refine ⟨w, m, hwallet, hm, hissued, ?_⟩
  exact (run_accounted _ (.step (.init hinit) hguard ⟨100, hm⟩)).2 fun _ _ h => h

end BRPeerManager

end RavenWallet
