/-
  What the operations do to the wallet, one lemma for each.

  * `Grows`: how `unusedAddrs` extends a chain;
  * `registerTransaction_cases`, `addTx_cases`, `new_cases`, `updateTx_cases`,
    `setTxUnconfirmedAfter_some`, `removeTx_some`: the states that the operations
    leave, as the fields that differ;
  * `removeTransaction_induct`: a removal is a series of `removeTx`, each of a
    transaction without dependents.
-/
import RavenWallet.Lib.Reach
import RavenWallet.Wallet.Ops

namespace RavenWallet

/-- `chain'` extends `chain` by derived addresses, one at a time while fewer than `gap` addresses
    follow the last used one. -/
inductive Grows (env : Env) (internal : Bool) (used : Finset BRAddress) (gap : ℕ)
    (chain : List BRAddress) : List BRAddress → Prop
  | refl : Grows env internal used gap chain chain
  | step {chain' : List BRAddress} {a : BRAddress} : Grows env internal used gap chain chain' →
      chain'.length < BRWallet.trailingStart used chain' + gap →
      env.address internal (UInt32.ofNat chain'.length) = some a → a ≠ [] →
      Grows env internal used gap chain (chain' ++ [a])

theorem Grows.head {env : Env} {internal : Bool} {used : Finset BRAddress} {gap : ℕ}
    {chain chain' : List BRAddress} {a : BRAddress}
    (hl : chain.length < BRWallet.trailingStart used chain + gap)
    (he : env.address internal (UInt32.ofNat chain.length) = some a) (ha : a ≠ [])
    (h : Grows env internal used gap (chain ++ [a]) chain') :
    Grows env internal used gap chain chain' := by
  induction h with
  | refl => exact .step .refl hl he ha
  | step _ hl' he' ha' ih => exact .step ih hl' he' ha'

theorem Grows.isPrefix {env : Env} {internal : Bool} {used : Finset BRAddress} {gap : ℕ}
    {chain chain' : List BRAddress} (h : Grows env internal used gap chain chain') :
    chain <+: chain' := by
  induction h with
  | refl => exact List.prefix_rfl
  | step _ _ _ _ ih => exact ih.trans (List.prefix_append _ _)

/-- What holds of the addresses of a chain and of all derived ones holds of the longer chain. -/
theorem Grows.forall {env : Env} {internal : Bool} {used : Finset BRAddress} {gap : ℕ}
    {chain chain' : List BRAddress} (h : Grows env internal used gap chain chain')
    {P : BRAddress → Prop} (hchain : ∀ a ∈ chain, P a)
    (hderived : ∀ k a, env.address internal k = some a → P a) : ∀ a ∈ chain', P a := by
  induction h with
  | refl => exact hchain
  | step _ _ he _ ih =>
    intro b hb
    rcases List.mem_append.1 hb with hb | hb
    · exact ih b hb
    · rw [List.mem_singleton.1 hb]
      exact hderived _ _ he

namespace BRWallet

theorem trailingStart_concat (used : Finset BRAddress) (chain : List BRAddress) (a : BRAddress) :
    trailingStart used (chain ++ [a]) =
      if a ∈ used then (chain ++ [a]).length else trailingStart used chain := by
  unfold trailingStart
  by_cases ha : a ∈ used
  · rw [if_pos ha, List.rdropWhile_concat_neg _ _ _ (by simpa using ha)]
  · rw [if_neg ha, List.rdropWhile_concat_pos _ _ _ (by simpa using ha)]

theorem extendChain_grows {env : Env} {internal : Bool} {used : Finset BRAddress} {gap : ℕ} :
    ∀ {fuel : ℕ} {chain chain' : List BRAddress} {i : ℕ},
      extendChain env internal used gap fuel chain (trailingStart used chain) = some (chain', i) →
      Grows env internal used gap chain chain'
  | 0, chain, chain', i, h => by
    unfold extendChain at h
    split_ifs at h
    simp only [Option.some.injEq, Prod.mk.injEq] at h
    rw [← h.1]; exact .refl
  | fuel + 1, chain, chain', i, h => by
    unfold extendChain at h
    split_ifs at h with hl
    · rcases he : env.address internal (UInt32.ofNat chain.length) with _ | a
      · simp only [he, Option.some.injEq, Prod.mk.injEq] at h
        rw [← h.1]; exact .refl
      · simp only [he] at h
        split_ifs at h with ha hu
        · simp only [Option.some.injEq, Prod.mk.injEq] at h
          rw [← h.1]; exact .refl
        · have hs := trailingStart_concat used chain a
          rw [if_pos hu] at hs
          exact .head hl he ha (extendChain_grows (hs ▸ h))
        · have hs := trailingStart_concat used chain a
          rw [if_neg hu] at hs
          exact .head hl he ha (extendChain_grows (hs ▸ h))
    · simp only [Option.some.injEq, Prod.mk.injEq] at h
      rw [← h.1]; exact .refl

/-- The chain is extended until the trailing block is long enough, if addresses can be derived. -/
theorem extendChain_some {env : Env} {internal : Bool} {used : Finset BRAddress} {gap : ℕ} :
    ∀ {fuel : ℕ} {chain chain' : List BRAddress} {i : ℕ},
      extendChain env internal used gap fuel chain (trailingStart used chain) = some (chain', i) →
      i = trailingStart used chain' ∧
        ((∀ k, ∃ a, env.address internal k = some a ∧ a ≠ []) → i + gap ≤ chain'.length)
  | 0, chain, chain', i, h => by
    unfold extendChain at h
    split_ifs at h with hl
    obtain ⟨rfl, rfl⟩ := Prod.mk.inj (Option.some.inj h)
    exact ⟨rfl, fun _ => Nat.le_of_not_lt hl⟩
  | fuel + 1, chain, chain', i, h => by
    unfold extendChain at h
    split_ifs at h with hl
    · rcases he : env.address internal (UInt32.ofNat chain.length) with _ | a
      · simp only [he] at h
        obtain ⟨rfl, rfl⟩ := Prod.mk.inj (Option.some.inj h)
        refine ⟨rfl, fun hd => ?_⟩
        obtain ⟨a, ha, -⟩ := hd (UInt32.ofNat chain.length)
        exact absurd (he.symm.trans ha) (Option.some_ne_none a).symm
      · simp only [he] at h
        have hs := trailingStart_concat used chain a
        split_ifs at h with ha hu
        · obtain ⟨rfl, rfl⟩ := Prod.mk.inj (Option.some.inj h)
          refine ⟨rfl, fun hd => ?_⟩
          obtain ⟨b, hb, hne⟩ := hd (UInt32.ofNat chain.length)
          exact absurd ((Option.some.inj (hb.symm.trans he)).trans ha) hne
        · rw [if_pos hu] at hs
          exact extendChain_some (hs ▸ h)
        · rw [if_neg hu] at hs
          exact extendChain_some (hs ▸ h)
    · obtain ⟨rfl, rfl⟩ := Prod.mk.inj (Option.some.inj h)
      exact ⟨rfl, fun _ => Nat.le_of_not_lt hl⟩

/-- `allAddrs` are the addresses of both chains. -/
def AllAddrs (w : BRWallet) : Prop :=
  w.allAddrs = w.internalChain.toFinset ∪ w.externalChain.toFinset

variable {env : Env} {fuel gap : ℕ} {now : ℤ} {w w' : BRWallet} {p : Ptr} {tx : BRTransaction}

theorem unusedAddrs_some {internal : Bool} {addrs : List BRAddress}
    (h : w.unusedAddrs env fuel gap internal = some (w', addrs)) :
    ∃ c aa, Grows env internal w.usedAddrs gap (w.chain internal) c ∧
      w' = { w.setChain internal c with allAddrs := aa } ∧ (w.AllAddrs → w'.AllAddrs) := by
  simp only [unusedAddrs, Option.bind_eq_bind, Option.bind_eq_some_iff, Prod.exists,
    Option.some.injEq, Prod.mk.injEq] at h
  obtain ⟨c, i, hc, hw, -⟩ := h
  have hg := extendChain_grows hc
  refine ⟨c, _, hg, hw.symm, fun ha => ?_⟩
  rw [← hw]
  unfold AllAddrs at ha ⊢
  split_ifs
  · rfl
  · obtain ⟨new, hnew⟩ := hg.isPrefix
    simp only [← hnew, List.drop_left, ha]
    cases internal with
    | true =>
      simp only [setChain, BRWallet.chain, if_true, List.toFinset_append]
      rw [Finset.union_right_comm]
    | false =>
      simp only [setChain, BRWallet.chain, Bool.false_eq_true, if_false, List.toFinset_append]
      rw [Finset.union_assoc]

/-- The addresses are in the chain and unused, and as many as asked for if they can be derived. -/
theorem unusedAddrs_addrs {internal : Bool} {addrs : List BRAddress}
    (h : w.unusedAddrs env fuel gap internal = some (w', addrs)) :
    (∀ a ∈ addrs, a ∈ w'.chain internal ∧ a ∉ w.usedAddrs) ∧
      ((∀ k, ∃ a, env.address internal k = some a ∧ a ≠ []) → addrs.length = gap) := by
  simp only [unusedAddrs, Option.bind_eq_bind, Option.bind_eq_some_iff, Prod.exists,
    Option.some.injEq, Prod.mk.injEq] at h
  obtain ⟨c, i, hc, hw, haddrs⟩ := h
  obtain ⟨rfl, hfull⟩ := extendChain_some hc
  have hchain : w'.chain internal = c := by
    rw [← hw]
    cases internal <;> rfl
  constructor
  · intro a ha
    rw [← haddrs] at ha
    split_ifs at ha
    · have hmem := List.mem_of_mem_take ha
      refine ⟨hchain ▸ List.mem_of_mem_drop hmem, ?_⟩
      -- behind the start of the trailing block no address is used
      have happend : c.rdropWhile (fun a => a ∉ w.usedAddrs) ++
          c.rtakeWhile (fun a => a ∉ w.usedAddrs) = c := List.rdropWhile_append_rtakeWhile
      have hsplit : c.drop (trailingStart w.usedAddrs c) =
          c.rtakeWhile fun a => a ∉ w.usedAddrs := by
        rw [trailingStart]
        nth_rewrite 2 [← happend]
        exact List.drop_left
      rw [hsplit] at hmem
      have hunused : decide (a ∉ w.usedAddrs) = true :=
        List.mem_rtakeWhile_imp (p := fun a => decide (a ∉ w.usedAddrs)) hmem
      exact of_decide_eq_true hunused
    · cases ha
  · intro hd
    have hle := hfull hd
    rw [← haddrs, if_pos hle, List.length_take, List.length_drop, Nat.min_eq_left (by omega)]

/-- The external and the internal chain are extended, one after the other. -/
theorem unusedAddrs_both {w₁ : BRWallet} {gap' : ℕ} {as as' : List BRAddress}
    (h₁ : w.unusedAddrs env fuel gap false = some (w₁, as))
    (h₂ : w₁.unusedAddrs env fuel gap' true = some (w', as')) :
    ∃ ic ec aa, Grows env true w.usedAddrs gap' w.internalChain ic ∧
      Grows env false w.usedAddrs gap w.externalChain ec ∧
      w' = { w with internalChain := ic, externalChain := ec, allAddrs := aa } ∧
      (w.AllAddrs → w'.AllAddrs) := by
  obtain ⟨ec, aa₁, he, rfl, ha₁⟩ := unusedAddrs_some h₁
  obtain ⟨ic, aa, hi, rfl, ha⟩ := unusedAddrs_some h₂
  exact ⟨ic, ec, aa, hi, he, rfl, fun h => ha (ha₁ h)⟩

theorem emit_eq (w : BRWallet) (set : Bool) (e : WalletEvent) :
    ∃ cs, w.emit set e = { w with calls := cs } := by
  unfold emit
  split_ifs
  · exact ⟨_, rfl⟩
  · exact ⟨w.calls, rfl⟩

theorem updateBalance_some : w.updateBalance now = some w' ↔ ∃ txs L, w.registered = some txs ∧
    Ledger.run (w.ledgerIn now) wrapSub txs = some L ∧ w' = w.setLedger now L :=
  updateBalanceWith_some

theorem insertTx_some {depth : ℕ} : w.insertTx depth p tx = some w' ↔
    ∃ r, insertBack (w.isAfter depth tx) p w.transactions.reverse = some r ∧
      w' = { w with transactions := r.reverse } := by
  simp only [insertTx, Option.bind_eq_bind, Option.bind_eq_some_iff, Option.some.injEq]
  exact exists_congr fun r => and_congr_right fun _ => eq_comm

/-! ## Registration -/

/-- The wallet with `tx` added at `p`, the list in the order `ts`. -/
def enlist (w : BRWallet) (p : Ptr) (tx : BRTransaction) (ts : List Ptr) : BRWallet :=
  { w with allTx := w.allTx.insert tx.txHash p, transactions := ts }

/-- The list with `p` inserted at its place. -/
def Inserted (w : BRWallet) (p : Ptr) (tx : BRTransaction) (ts : List Ptr) : Prop :=
  ∃ depth, insertBack ({ w with allTx := w.allTx.insert tx.txHash p }.isAfter depth tx) p
    w.transactions.reverse = some ts.reverse

theorem Inserted.perm {ts : List Ptr} (h : w.Inserted p tx ts) : ts.Perm (p :: w.transactions) := by
  obtain ⟨depth, h⟩ := h
  have hp := insertBack_perm h
  exact ((List.reverse_perm ts).symm.trans hp).trans ((List.reverse_perm _).cons p)

theorem insertTx_enlist (h : { w with allTx := w.allTx.insert tx.txHash p }.insertTx fuel p tx =
    some w') : ∃ ts, w.Inserted p tx ts ∧ w' = w.enlist p tx ts := by
  obtain ⟨r, hr, rfl⟩ := insertTx_some.1 h
  exact ⟨r.reverse, ⟨fuel, by rw [List.reverse_reverse]; exact hr⟩, rfl⟩

/-- What adding the transaction at `p` leaves. -/
structure Added (env : Env) (now : ℤ) (w : BRWallet) (p : Ptr) (tx : BRTransaction)
    (w' : BRWallet) : Prop where
  fields : ∃ ts txs L ic ec aa cs, w.Inserted p tx ts ∧
    (w.enlist p tx ts).registered = some txs ∧
    Ledger.run ((w.enlist p tx ts).ledgerIn now) wrapSub txs = some L ∧
    Grows env true L.usedAddrs SEQUENCE_GAP_LIMIT_INTERNAL w.internalChain ic ∧
    Grows env false L.usedAddrs SEQUENCE_GAP_LIMIT_EXTERNAL w.externalChain ec ∧
    w' = { (w.enlist p tx ts).setLedger now L with
      internalChain := ic, externalChain := ec, allAddrs := aa, calls := cs }
  allAddrs : w.AllAddrs → w'.AllAddrs

/-- A registration of the transaction at `p` rejects it, finds it known, parks it or adds it. -/
inductive Registers (env : Env) (now : ℤ) (w : BRWallet) (p : Ptr) (tx : BRTransaction) :
    BRWallet → Bool → Prop
  | unsigned : tx.isSigned = false → Registers env now w p tx w false
  | known {q : Ptr} : tx.isSigned = true → w.allTx.lookup tx.txHash = some q →
      Registers env now w p tx w true
  | added {w' : BRWallet} : tx.isSigned = true → w.allTx.lookup tx.txHash = none →
      w.containsTx tx = true → Added env now w p tx w' → Registers env now w p tx w' true
  | parked : tx.isSigned = true → w.allTx.lookup tx.txHash = none → w.containsTx tx = false →
      tx.blockHeight = TX_UNCONFIRMED →
      Registers env now w p tx { w with allTx := w.allTx.insert tx.txHash p } false
  | ignored : tx.isSigned = true → w.allTx.lookup tx.txHash = none → w.containsTx tx = false →
      Registers env now w p tx w false

theorem registerTransaction_cases {r : Bool}
    (h : w.registerTransaction env fuel now p = some (w', r)) :
    ∃ tx, w.heap.load p = some tx ∧ Registers env now w p tx w' r := by
  simp only [registerTransaction, Option.bind_eq_bind, Option.bind_eq_some_iff] at h
  obtain ⟨tx, hp, h⟩ := h
  refine ⟨tx, hp, ?_⟩
  split_ifs at h with hs hk hc hu
  · obtain ⟨q, hq⟩ := Option.isSome_iff_exists.1 hk
    simp only [Option.some.injEq, Prod.mk.injEq] at h
    obtain ⟨rfl, rfl⟩ := h
    exact .known hs hq
  · have hn : w.allTx.lookup tx.txHash = none := by simpa using hk
    simp only [Option.bind_eq_some_iff, Prod.exists, Option.some.injEq, Prod.mk.injEq] at h
    obtain ⟨w₁, h₁, w₂, h₂, w₃, as, h₃, w₄, as', h₄, rfl, rfl⟩ := h
    obtain ⟨ts, hi, rfl⟩ := insertTx_enlist h₁
    obtain ⟨txs, L, hr, hL, rfl⟩ := updateBalance_some.1 h₂
    obtain ⟨ic, ec, aa, hic, hec, rfl, ha⟩ := unusedAddrs_both h₃ h₄
    obtain ⟨cs, h₅⟩ := emit_eq { (w.enlist p tx ts).setLedger now L with
      internalChain := ic, externalChain := ec, allAddrs := aa }
      ((w.enlist p tx ts).setLedger now L).callbacks.balanceChanged
      (.balanceChanged ((w.enlist p tx ts).setLedger now L).balance)
    rw [h₅]
    obtain ⟨cs', h₆⟩ := emit_eq { (w.enlist p tx ts).setLedger now L with
      internalChain := ic, externalChain := ec, allAddrs := aa, calls := cs }
      ((w.enlist p tx ts).setLedger now L).callbacks.txAdded (.txAdded p)
    rw [h₆]
    exact .added hs hn hc ⟨⟨ts, txs, L, ic, ec, aa, cs', hi, hr, hL, hic, hec, rfl⟩, ha⟩
  · have hn : w.allTx.lookup tx.txHash = none := by simpa using hk
    simp only [Option.some.injEq, Prod.mk.injEq] at h
    obtain ⟨rfl, rfl⟩ := h
    exact .parked hs hn (by simpa using hc) hu
  · have hn : w.allTx.lookup tx.txHash = none := by simpa using hk
    simp only [Option.some.injEq, Prod.mk.injEq] at h
    obtain ⟨rfl, rfl⟩ := h
    exact .ignored hs hn (by simpa using hc)
  · simp only [Option.some.injEq, Prod.mk.injEq] at h
    obtain ⟨rfl, rfl⟩ := h
    exact .unsigned (by simpa using hs)

/-- The loop of `BRWalletNew` skips a transaction or inserts it. -/
theorem addTx_cases (h : w.addTx fuel p = some w') : w' = w ∨
    ∃ tx ts, w.heap.load p = some tx ∧ tx.isSigned = true ∧ w.allTx.lookup tx.txHash = none ∧
      w.Inserted p tx ts ∧ w' = { w.enlist p tx ts with
        usedAddrs := w.usedAddrs ∪ (BRTxOutput.paidAddrs tx.outputs).toFinset } := by
  simp only [addTx, Option.bind_eq_bind, Option.bind_eq_some_iff] at h
  obtain ⟨tx, hp, h⟩ := h
  split_ifs at h with hs
  · exact Or.inl (Option.some.inj h).symm
  · simp only [Bool.or_eq_true, Bool.not_eq_true', not_or, Bool.not_eq_true, Bool.not_eq_false,
      Option.isSome_eq_false_iff, Option.isNone_iff_eq_none] at hs
    simp only [Option.bind_eq_some_iff, Option.some.injEq] at h
    obtain ⟨w₁, h₁, rfl⟩ := h
    obtain ⟨ts, hi, rfl⟩ := insertTx_enlist h₁
    exact Or.inr ⟨tx, ts, hp, hs.1, hs.2, hi, rfl⟩

/-- `BRWalletNew` inserts the transactions, extends the chains and computes the balance. -/
theorem new_cases {heap : Heap BRTransaction} {transactions : List Ptr}
    (h : new env fuel now heap transactions = some (some w')) :
    ∃ w₁ w₂ w₃ as as' txs L, transactions.foldlM (addTx fuel) { heap := heap } = some w₁ ∧
      w₁.unusedAddrs env fuel SEQUENCE_GAP_LIMIT_EXTERNAL false = some (w₂, as) ∧
      w₂.unusedAddrs env fuel SEQUENCE_GAP_LIMIT_INTERNAL true = some (w₃, as') ∧
      w₃.registered = some txs ∧ Ledger.run (w₃.ledgerIn now) wrapSub txs = some L ∧
      w' = w₃.setLedger now L := by
  simp only [new, Option.bind_eq_bind, Option.bind_eq_some_iff, Prod.exists] at h
  obtain ⟨w₁, h₁, w₂, as, h₂, w₃, as', h₃, w₄, h₄, h₅⟩ := h
  obtain ⟨txs, L, hr, hL, rfl⟩ := updateBalance_some.1 h₄
  refine ⟨w₁, w₂, w₃, as, as', txs, L, h₁, h₂, h₃, hr, hL, ?_⟩
  cases transactions with
  | nil => exact (Option.some.inj (Option.some.inj h₅)).symm
  | cons p ps =>
    simp only [Option.bind_eq_some_iff, Option.some.injEq] at h₅
    obtain ⟨tx, -, h₅⟩ := h₅
    split_ifs at h₅
    exact (Option.some.inj h₅).symm

theorem new_some {heap : Heap BRTransaction} {transactions : List Ptr}
    (h : new env fuel now heap transactions = some (some w')) :
    ∃ w ic ec aa txs L, transactions.foldlM (addTx fuel) { heap := heap } = some w ∧
      { w with internalChain := ic, externalChain := ec, allAddrs := aa }.registered = some txs ∧
      Ledger.run ({ w with internalChain := ic, externalChain := ec, allAddrs := aa }.ledgerIn now)
        wrapSub txs = some L ∧
      w' = { w with internalChain := ic, externalChain := ec, allAddrs := aa }.setLedger now L ∧
      (w.AllAddrs → w'.AllAddrs) := by
  obtain ⟨w, w₂, w₃, as, as', txs, L, h₁, h₂, h₃, hr, hL, rfl⟩ := new_cases h
  obtain ⟨ic, ec, aa, -, -, rfl, ha⟩ := unusedAddrs_both h₂ h₃
  exact ⟨w, ic, ec, aa, txs, L, h₁, hr, hL, rfl, ha⟩

/-! ## Heights -/

/-- The output that `u` names pays an address of the wallet. -/
def Owns (w : BRWallet) (u : UTXO) : Prop := ∃ o, w.output? u = some o ∧ o.address ∈ w.allAddrs

theorem ownsInput_iff {i : BRTxInput} : w.ownsInput i = true ↔ w.Owns i.outpoint := by
  unfold ownsInput Owns output?
  simp only [BRTxInput.outpoint, Option.bind_eq_bind]
  rcases w.tx? i.txHash with _ | t
  · simp
  · simp only [Option.bind_some]
    rcases t.outputs[i.index.toNat]? with _ | o <;> simp

theorem containsTx_iff : w.containsTx tx = true ↔
    (∃ o ∈ tx.outputs, o.address ∈ w.allAddrs) ∨ ∃ u ∈ tx.outpoints, w.Owns u := by
  simp only [containsTx, Bool.or_eq_true, List.any_eq_true, decide_eq_true_eq, ownsInput_iff,
    BRTransaction.outpoints, List.mem_map, exists_exists_and_eq_and]

theorem containsTx_congr {tx tx' : BRTransaction} (ha : w'.allAddrs = w.allAddrs)
    (ho : ∀ u, w'.Owns u ↔ w.Owns u) (hi : tx'.inputs = tx.inputs)
    (hout : tx'.outputs = tx.outputs) : w'.containsTx tx' = w.containsTx tx := by
  rw [Bool.eq_iff_iff, containsTx_iff, containsTx_iff, ha, hout]
  simp only [BRTransaction.outpoints, hi, ho]

/-- Only the outputs of the known transactions decide what the wallet owns. -/
theorem owns_congr (ha : w'.allAddrs = w.allAddrs)
    (ho : ∀ h, (w'.tx? h).map BRTransaction.outputs = (w.tx? h).map BRTransaction.outputs)
    (u : UTXO) : w'.Owns u ↔ w.Owns u := by
  have hout : w'.output? u = w.output? u := by
    have hu := ho u.hash
    unfold output?
    rcases h' : w'.tx? u.hash with _ | t' <;> rcases h : w.tx? u.hash with _ | t
    · rfl
    · simp [h, h'] at hu
    · simp [h, h'] at hu
    · simp only [h, h', Option.map_some, Option.some.injEq] at hu
      simp [hu]
  unfold Owns
  rw [hout, ha]

/-- Storing a transaction with another height leaves the outputs as they are. -/
theorem tx?_store (hp : w.heap.load p = some tx) (b t : UInt32) (h : UInt256) :
    ({ w with heap := w.heap.store p (tx.setBlock b t) }.tx? h).map BRTransaction.outputs =
      (w.tx? h).map BRTransaction.outputs := by
  unfold tx?
  rcases w.allTx.lookup h with _ | q
  · rfl
  · simp only [Option.bind_some]
    by_cases hq : p = q
    · subst hq
      rw [Heap.load_store_self _ hp, hp]; rfl
    · rw [Heap.load_store_ne _ _ hq]

theorem containsTx_store (hp : w.heap.load p = some tx) (b t : UInt32) :
    { w with heap := w.heap.store p (tx.setBlock b t) }.containsTx (tx.setBlock b t) =
      w.containsTx tx :=
  containsTx_congr rfl (owns_congr rfl (tx?_store hp b t)) rfl rfl

/-- One iteration of `BRWalletUpdateTransactions` skips a transaction, or writes its height and
    keeps it, or frees it. -/
inductive Updates (b t : UInt32) (s : Updating) (h : UInt256) : Updating → Prop
  | unknown : s.wallet.allTx.lookup h = none → Updates b t s h s
  | same {p : Ptr} {tx : BRTransaction} : s.wallet.allTx.lookup h = some p →
      s.wallet.heap.load p = some tx → tx.blockHeight = b ∧ tx.timestamp = t → Updates b t s h s
  | listed {p : Ptr} {tx : BRTransaction} : s.wallet.allTx.lookup h = some p →
      s.wallet.heap.load p = some tx → ¬ (tx.blockHeight = b ∧ tx.timestamp = t) →
      s.wallet.containsTx tx = true →
      Updates b t s h ⟨{ s.wallet with heap := s.wallet.heap.store p (tx.setBlock b t) },
        s.hashes ++ [h], s.needsUpdate || decide (tx.txHash ∈ s.wallet.pendingTx) ||
          decide (tx.txHash ∈ s.wallet.invalidTx)⟩
  | freed {p : Ptr} {tx : BRTransaction} : s.wallet.allTx.lookup h = some p →
      s.wallet.heap.load p = some tx → ¬ (tx.blockHeight = b ∧ tx.timestamp = t) →
      s.wallet.containsTx tx = false → b ≠ TX_UNCONFIRMED →
      Updates b t s h { s with wallet := { s.wallet with
        allTx := s.wallet.allTx.erase tx.txHash
        heap := (s.wallet.heap.store p (tx.setBlock b t)).free p } }
  | parked {p : Ptr} {tx : BRTransaction} : s.wallet.allTx.lookup h = some p →
      s.wallet.heap.load p = some tx → ¬ (tx.blockHeight = b ∧ tx.timestamp = t) →
      s.wallet.containsTx tx = false → b = TX_UNCONFIRMED →
      Updates b t s h { s with wallet := { s.wallet with
        heap := s.wallet.heap.store p (tx.setBlock b t) } }

theorem updateTx_cases {b t : UInt32} {s s' : Updating} {h : UInt256}
    (hs : updateTx b t s h = some s') : Updates b t s h s' := by
  unfold updateTx at hs
  rcases hl : s.wallet.allTx.lookup h with _ | p
  · simp only [hl, Option.some.injEq] at hs
    subst hs; exact .unknown hl
  · simp only [hl, Option.bind_eq_bind, Option.bind_eq_some_iff] at hs
    obtain ⟨tx, hp, hs⟩ := hs
    rw [containsTx_store hp] at hs
    split_ifs at hs with h₁ h₂ h₃
    · obtain rfl := Option.some.inj hs
      exact .same hl hp h₁
    · obtain rfl := Option.some.inj hs
      exact .listed hl hp h₁ h₂
    · obtain rfl := Option.some.inj hs
      exact @Updates.freed b t s h p tx hl hp h₁ (by simpa using h₂) h₃
    · obtain rfl := Option.some.inj hs
      exact .parked hl hp h₁ (by simpa using h₂) (by simpa using h₃)

/-- The wallet that the loop of `BRWalletUpdateTransactions` starts with. -/
def raised (w : BRWallet) (b : UInt32) : BRWallet :=
  { w with blockHeight := if b > w.blockHeight then b else w.blockHeight }

theorem raised_eq (w : BRWallet) (b : UInt32) :
    (if b > w.blockHeight then { w with blockHeight := b } else w) = w.raised b := by
  unfold raised
  split_ifs <;> rfl

/-- What every iteration keeps, the loop of `BRWalletUpdateTransactions` keeps. -/
theorem updateLoop_invariant {P : Updating → Prop} {b t : UInt32} {hs : List UInt256}
    {s s' : Updating} (hP : ∀ {s h s'}, h ∈ hs → P s → Updates b t s h s' → P s') (h0 : P s)
    (h : hs.foldlM (updateTx b t) s = some s') : P s' :=
  foldlM_invariant (fun hm hs hu => hP hm hs (updateTx_cases hu)) h0 h

theorem updateTransactions_some {hs : List UInt256} {b t : UInt32}
    (h : w.updateTransactions now hs b t = some w') :
    ∃ s cs, hs.foldlM (updateTx b t) ⟨w.raised b, [], false⟩ = some s ∧
      ((s.needsUpdate = false ∧ w' = { s.wallet with calls := cs }) ∨
        (s.needsUpdate = true ∧ ∃ txs L, s.wallet.registered = some txs ∧
          Ledger.run (s.wallet.ledgerIn now) wrapSub txs = some L ∧
          w' = { s.wallet.setLedger now L with calls := cs })) := by
  simp only [updateTransactions, raised_eq, Option.bind_eq_bind, Option.bind_eq_some_iff,
    Option.some.injEq] at h
  obtain ⟨s, hs, w₁, h₁, rfl⟩ := h
  obtain ⟨cs, hcs⟩ := emit_eq w₁ (decide (s.hashes ≠ []) && w₁.callbacks.txUpdated)
    (.txUpdated s.hashes b t)
  refine ⟨s, cs, hs, ?_⟩
  rw [hcs]
  unfold updateIf at h₁
  split_ifs at h₁ with hn
  · obtain ⟨txs, L, hr, hL, rfl⟩ := updateBalance_some.1 h₁
    exact Or.inr ⟨hn, txs, L, hr, hL, rfl⟩
  · obtain rfl := Option.some.inj h₁
    exact Or.inl ⟨by simpa using hn, rfl⟩

/-- The heights of the transactions at `ps` are reset, and nothing else. -/
theorem unconfirm_load : ∀ {ps : List Ptr} {heap heap' : Heap BRTransaction} {hs : List UInt256},
    unconfirm heap ps = some (heap', hs) → ∀ q, heap'.load q =
      if q ∈ ps then (heap.load q).map fun tx => tx.setBlock TX_UNCONFIRMED tx.timestamp
      else heap.load q
  | [], heap, heap', hs, h, q => by
    simp only [unconfirm, Option.some.injEq, Prod.mk.injEq] at h
    simp [h.1]
  | p :: ps, heap, heap', hs, h, q => by
    simp only [unconfirm, Option.bind_eq_bind, Option.bind_eq_some_iff, Prod.exists,
      Option.some.injEq, Prod.mk.injEq] at h
    obtain ⟨tx, hp, heap₁, hs₁, h₁, rfl, -⟩ := h
    rw [unconfirm_load h₁ q]
    by_cases hq : q = p
    · subst hq
      rw [Heap.load_store_self _ hp, hp]
      simp [BRTransaction.setBlock]
    · rw [Heap.load_store_ne _ _ (Ne.symm hq)]
      simp [hq]

theorem unconfirm_src {heap heap' : Heap BRTransaction} {ps : List Ptr} {hs : List UInt256}
    {q : Ptr} {tx' : BRTransaction} (h : unconfirm heap ps = some (heap', hs))
    (hq : heap'.load q = some tx') :
    ∃ tx, heap.load q = some tx ∧ ∃ b, tx' = tx.setBlock b tx.timestamp := by
  rw [unconfirm_load h q] at hq
  split_ifs at hq
  · obtain ⟨tx, htx, rfl⟩ := Option.map_eq_some_iff.1 hq
    exact ⟨tx, htx, _, rfl⟩
  · exact ⟨tx', hq, tx'.blockHeight, rfl⟩

theorem unconfirm_live {heap heap' : Heap BRTransaction} {ps : List Ptr} {hs : List UInt256}
    {q : Ptr} (h : unconfirm heap ps = some (heap', hs)) (hq : heap.Live q) : heap'.Live q := by
  obtain ⟨tx, htx⟩ := hq
  rw [Heap.Live, unconfirm_load h q, htx]
  split_ifs
  · exact ⟨_, rfl⟩
  · exact ⟨tx, rfl⟩

theorem suffix_some {test : UInt32 → Bool} {ps : List Ptr} (h : w.suffix test = some ps) :
    scanBack (fun q => (w.heap.load q).map fun t => test t.blockHeight) w.transactions.reverse =
      some ps.reverse := by
  simp only [suffix, Option.bind_eq_bind, Option.bind_eq_some_iff, Option.some.injEq] at h
  obtain ⟨r, hr, rfl⟩ := h
  rw [hr, List.reverse_reverse]

theorem setTxUnconfirmedAfter_some {b : UInt32} (h : w.setTxUnconfirmedAfter now b = some w') :
    ∃ ps heap hs, w.suffix (fun height => decide (height > b)) = some ps ∧
      unconfirm w.heap ps = some (heap, hs) ∧
      ((ps = [] ∧ w' = { w with blockHeight := b, heap }) ∨
        (ps ≠ [] ∧ ∃ txs L cs, { w with blockHeight := b, heap }.registered = some txs ∧
          Ledger.run ({ w with blockHeight := b, heap }.ledgerIn now) wrapSub txs = some L ∧
          w' = { { w with blockHeight := b, heap }.setLedger now L with calls := cs })) := by
  simp only [setTxUnconfirmedAfter, Option.bind_eq_bind, Option.bind_eq_some_iff, Prod.exists] at h
  obtain ⟨ps, hps, heap, hs, hheap, h⟩ := h
  refine ⟨ps, heap, hs, hps, hheap, ?_⟩
  split_ifs at h with hn
  · exact Or.inl ⟨hn, (Option.some.inj h).symm⟩
  · simp only [Option.bind_eq_some_iff, Option.some.injEq] at h
    obtain ⟨w₁, h₁, rfl⟩ := h
    obtain ⟨txs, L, hr, hL, rfl⟩ := updateBalance_some.1 h₁
    obtain ⟨cs, hcs⟩ := emit_eq ({ w with blockHeight := b, heap }.setLedger now L)
      ({ w with blockHeight := b, heap }.setLedger now L).callbacks.txUpdated
      (.txUpdated hs TX_UNCONFIRMED 0)
    rw [hcs]
    exact Or.inr ⟨hn, txs, L, cs, hr, hL, rfl⟩

/-! ## Removal -/

/-- The wallet without `tx`, the list being `ts`. -/
def delist (w : BRWallet) (tx : BRTransaction) (ts : List Ptr) : BRWallet :=
  { w with allTx := w.allTx.erase tx.txHash, transactions := ts }

/-- The list without its last transaction with the hash of `tx`. -/
def Erased (w : BRWallet) (tx : BRTransaction) (ts : List Ptr) : Prop :=
  eraseBack (fun q => (w.heap.load q).map fun t => decide (t.txHash = tx.txHash))
    w.transactions.reverse = some ts.reverse

theorem Erased.sublist {ts : List Ptr} (h : w.Erased tx ts) : ts.Sublist w.transactions :=
  List.reverse_sublist.1 (eraseBack_sublist h)

theorem removeTx_some {h : UInt256} (hw : w.removeTx now fuel p tx h = some w') :
    ∃ ts txs L cs, w.Erased tx ts ∧ (w.delist tx ts).registered = some txs ∧
      Ledger.run ((w.delist tx ts).ledgerIn now) wrapSub txs = some L ∧
      w' = { (w.delist tx ts).setLedger now L with calls := cs, heap := w.heap.free p } := by
  simp only [removeTx, Option.bind_eq_bind, Option.bind_eq_some_iff, Prod.exists,
    Option.some.injEq] at hw
  obtain ⟨w₁, h₁, w₂, h₂, u, v, -, rfl⟩ := hw
  simp only [unlist, Option.bind_eq_bind, Option.bind_eq_some_iff, Option.some.injEq] at h₁
  obtain ⟨r, hr, rfl⟩ := h₁
  obtain ⟨txs, L, hreg, hL, rfl⟩ := updateBalance_some.1 h₂
  have hcalls : ∀ w₀ : BRWallet, ∃ cs,
      (w₀.emit w₀.callbacks.balanceChanged (.balanceChanged w₀.balance)).emit
        (w₀.emit w₀.callbacks.balanceChanged (.balanceChanged w₀.balance)).callbacks.txDeleted
        (.txDeleted h u v) = { w₀ with calls := cs } := by
    intro w₀
    obtain ⟨cs, h₁⟩ := emit_eq w₀ w₀.callbacks.balanceChanged (.balanceChanged w₀.balance)
    rw [h₁]
    exact emit_eq { w₀ with calls := cs } w₀.callbacks.txDeleted (.txDeleted h u v)
  obtain ⟨cs, hcs⟩ := hcalls ((w.delist tx r.reverse).setLedger now L)
  refine ⟨r.reverse, txs, L, cs, by rw [Erased, List.reverse_reverse]; exact hr, hreg, hL, ?_⟩
  exact congrArg (fun v : BRWallet => { v with heap := v.heap.free p }) hcs

/-- A removal is a series of removals of single transactions without dependents: what all of these
    keep, it keeps. -/
theorem removeTransaction_induct {P : BRWallet → Prop}
    (hP : ∀ {w w' p tx h fuel}, P w → w.allTx.lookup h = some p → w.heap.load p = some tx →
      w.dependents tx h w.transactions.reverse = some [] →
      w.removeTx now fuel p tx h = some w' → P w') :
    ∀ {fuel : ℕ} {w w' : BRWallet} {h : UInt256}, P w →
      removeTransaction now fuel w h = some w' → P w'
  | 0, w, w', h, _, hw => by simp [removeTransaction] at hw
  | fuel + 1, w, w', h, h0, hw => by
    unfold removeTransaction at hw
    rcases hl : w.allTx.lookup h with _ | p
    · simp only [hl, Option.some.injEq] at hw
      exact hw ▸ h0
    · simp only [hl, Option.bind_eq_bind, Option.bind_eq_some_iff] at hw
      obtain ⟨tx, hp, hs, hd, hw⟩ := hw
      split_ifs at hw with hne
      · obtain ⟨w₁, h₁, hw⟩ := Option.bind_eq_some_iff.1 hw
        have hw₁ := foldlM_invariant (fun _ hw => removeTransaction_induct hP hw) h0 h₁
        exact removeTransaction_induct hP hw₁ hw
      · rw [not_not.1 hne] at hd
        exact hP h0 hl hp hd hw

/-- What every removal of a single transaction keeps, a removal with dependents keeps. -/
theorem removeTransaction_invariant {P : BRWallet → Prop}
    (hP : ∀ {w w' p tx h fuel}, P w → w.allTx.lookup h = some p → w.heap.load p = some tx →
      w.removeTx now fuel p tx h = some w' → P w') {fuel : ℕ} {w w' : BRWallet} {h : UInt256}
    (hw : P w) (hr : removeTransaction now fuel w h = some w') : P w' :=
  removeTransaction_induct (fun hw hk hp _ h => hP hw hk hp h) hw hr

end BRWallet

end RavenWallet
