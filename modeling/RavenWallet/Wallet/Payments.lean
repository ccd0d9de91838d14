/-
  The payments of `BRWalletCreateTxForOutputs` (BRWallet.c) with a single output.

  The totals that are tried and the coins that are taken depend on the amount of the
  output and the length of its script only.

  `createTxForOutputs_payment`: the amounts and the size of the transaction that is
  returned, by the number of its coins.
-/
import RavenWallet.Wallet.Smaller

namespace RavenWallet

namespace BRWallet

/-! ## Coins -/

/-- The size of a transaction with unsigned inputs, and with outputs whose scripts have the given
    lengths. -/
def unsignedSize (inputs : ℕ) (lengths : List ℕ) : ℕ :=
  8 + varIntSize inputs + varIntSize lengths.length + TX_INPUT_SIZE * inputs +
    (lengths.map fun l => 8 + varIntSize l + l).sum

/-- The size of a payment with a script of the given length, by the number of coins. -/
def paymentSize (length inputs : ℕ) : ℕ := unsignedSize inputs [length]

/-- The totals that are tried for a payment, from its sizes with each number of coins. -/
def totals (w : BRWallet) (size : ℕ → ℕ) (amount : UInt64) : Stages UInt64 UInt64 where
  call _ total := total
  start _ := amount
  step _ total := w.fittingWorth size - w.fittingFee size total
  stops _ total := w.fitting size = w.coinList.length ∨ w.Covered size total ∨ w.Poor 1 total
  leaves _ total :=
    total ≤ total + w.fittingFee size total + w.minOutputAmount - w.fittingWorth size

/-- The total that stops the calls, and the coins that are taken for it: the first ones that are
    enough, or all. -/
structure Selects (w : BRWallet) (size : ℕ → ℕ) (amount total : UInt64) (j : ℕ) : Prop where
  tried : ∃ i, (w.totals size amount).EndsAt 100 1 0 i ∧ (w.totals size amount).value 0 i = total
  le : j ≤ w.coinList.length
  fits : ∀ i, i < j → size (i + 1) + TX_OUTPUT_SIZE ≤ TX_MAX_SIZE
  first : ∀ i, i + 1 < j → ¬ w.EnoughFor size total (i + 1)
  stop : j = w.coinList.length ∨ j ≠ 0 ∧ w.EnoughFor size total j

/-- What `j` coins leave for a change output. -/
def changeFor (w : BRWallet) (size : ℕ → ℕ) (total : UInt64) (j : ℕ) : UInt64 :=
  UInt64.ofNat (w.worth j) - (total + w.feeFor size total j)

/-- The transaction has unsigned inputs, and outputs whose scripts have the given lengths. -/
structure Shaped (tx : BRTransaction) (inputs : ℕ) (lengths : List ℕ) : Prop where
  unsigned : ∀ i ∈ tx.inputs, i.signature = none
  inputs : tx.inputs.length = inputs
  outputs : (tx.outputs.map fun o => scriptLen o.script).Perm lengths

variable {H : Hashes} {env : Env} {rand : ℕ → ℕ} {fuel : ℕ} {w w' : BRWallet}
  {size : ℕ → ℕ} {amount total total' : UInt64} {i j j' n : ℕ} {lengths : List ℕ}
  {tx : BRTransaction} {out : BRTxOutput}

theorem Shaped.size_eq (h : Shaped tx n lengths) : tx.size = unsignedSize n lengths := by
  have hinputs : (tx.inputs.map BRTransaction.inputSize).sum = TX_INPUT_SIZE * n := by
    rw [BRTransaction.sum_inputSize h.unsigned, h.inputs]
  have houtputs : (tx.outputs.map BRTransaction.outputSize).sum =
      (lengths.map fun l => 8 + varIntSize l + l).sum := by
    rw [← (h.outputs.map _).sum_eq, List.map_map]
    rfl
  have hcount : tx.outputs.length = lengths.length := by
    rw [← h.outputs.length_eq, List.length_map]
  rw [BRTransaction.size, unsignedSize, h.inputs, hcount, hinputs, houtputs]

theorem Shaped.change (h : Shaped tx n lengths) (script : Bytes) :
    Shaped ((tx.addOutput H amount (some script)).shuffleOutputs rand) n
      (lengths ++ [script.length]) := by
  refine ⟨h.unsigned, h.inputs, ?_⟩
  refine ((shuffle_perm rand _).map _).trans ?_
  rw [BRTransaction.addOutput, List.map_append]
  exact h.outputs.append_right _

/-! ## One total and one number of coins -/

theorem totals_unique (hi : (w.totals size amount).EndsAt 100 1 0 i)
    (hj : (w.totals size amount).EndsAt 100 1 0 j) : i = j := by
  have hle : ∀ {a b}, (w.totals size amount).EndsAt 100 1 0 a →
      (w.totals size amount).EndsAt 100 1 0 b → a ≤ b := by
    intro a b ha hb
    by_contra hlt
    exact (ha.2.1 b (Nat.not_le.1 hlt)).1 hb.2.2
  exact Nat.le_antisymm (hle hi hj) (hle hj hi)

theorem Selects.unique (h : w.Selects size amount total j) (h' : w.Selects size amount total' j') :
    total = total' ∧ j = j' := by
  obtain ⟨i, hi, rfl⟩ := h.tried
  obtain ⟨i', hi', rfl⟩ := h'.tried
  obtain rfl := totals_unique hi hi'
  exact ⟨rfl, enough_unique h.le h'.le h.first h'.first h.stop h'.stop⟩

/-! ## The transaction -/

theorem sizeWith_single (out : BRTxOutput) :
    sizeWith (requestTx H [out]) = paymentSize (scriptLen out.script) := by
  funext j
  have h : sizeWith (requestTx H [out]) j = 8 + varIntSize (0 + j) + varIntSize 1 +
      (0 + TX_INPUT_SIZE * j) + (8 + varIntSize (scriptLen out.script) +
        scriptLen out.script + 0) := rfl
  rw [h, Nat.zero_add, Nat.zero_add]
  rfl

/-- The totals of a payment are those of its only stage. -/
theorem stages_single (w : BRWallet) (out : BRTxOutput) (i : ℕ) :
    (w.stages H [out]).value 0 i =
        (w.totals (paymentSize (scriptLen out.script)) out.amount).value 0 i ∧
      ((w.stages H [out]).EndsAt 100 1 0 i →
        (w.totals (paymentSize (scriptLen out.script)) out.amount).EndsAt 100 1 0 i) := by
  have hsize : requestSize H [out] 0 = paymentSize (scriptLen out.script) := sizeWith_single out
  have hstart : (w.stages H [out]).start 0 = out.amount := UInt64.add_zero out.amount
  rw [← hsize]
  have hvalue : ∀ i, (w.stages H [out]).value 0 i =
      (w.totals (requestSize H [out] 0) out.amount).value 0 i := by
    intro i
    rw [Stages.value, hstart]
    rfl
  have hleaves : ∀ total, (w.stages H [out]).leaves 0 total ↔
      (w.totals (requestSize H [out] 0) out.amount).leaves 0 total := by
    intro total
    have h : total - requestAmount ([out].take 0) = total := UInt64.sub_zero total
    dsimp only [stages, totals]
    rw [h]
  refine ⟨hvalue i, fun ⟨_, hreaches, hstops⟩ => ⟨fun k hk hlt => by omega, ?_, ?_⟩⟩
  · intro k hk
    rw [← hvalue, ← hleaves]
    exact hreaches k hk
  · rw [← hvalue]
    exact hstops

/-- The transaction with the first coins. -/
theorem selectionAt_single (hj : j ≤ w.coinList.length) {r : BRTransaction}
    (hr : r = (w.selectionAt H total (startSelection H w [out]) j).transaction) :
    Shaped r j [scriptLen out.script] ∧ r.inAmount = w.worth j ∧
      r.outAmount = out.amount.toNat := by
  rw [selectionAt_transaction] at hr
  subst hr
  refine ⟨⟨?_, ?_, ?_⟩, ?_, ?_⟩
  · intro i hi
    obtain ⟨c, -, rfl⟩ := List.mem_map.1 hi
    rfl
  · exact (List.length_map _).trans (List.length_take_of_le hj)
  · exact List.Perm.refl _
  · rw [BRTransaction.inAmount, worth]
    exact congrArg List.sum (List.map_map ..)
  · exact Nat.add_zero _

/-- The coins of the transaction that is returned, its outputs, and what they are worth. -/
theorem createTxForOutputs_payment (hw : w.LedgerIdentity) (hd : w.Derives H env)
    (hlength : scriptLen out.script = n)
    (h : createTxForOutputs H env rand fuel w [out] = some (w', some tx)) :
    ∃ total j, w.Selects (paymentSize n) out.amount total j ∧
      (total + w.feeFor (paymentSize n) total j).toNat ≤ w.worth j ∧ tx.inAmount = w.worth j ∧
      ((w.changeFor (paymentSize n) total j > w.minOutputAmount ∧ Shaped tx j [n, 25] ∧
          tx.outAmount = total.toNat + (w.changeFor (paymentSize n) total j).toNat) ∨
        (¬ w.changeFor (paymentSize n) total j > w.minOutputAmount ∧ Shaped tx j [n] ∧
          tx.outAmount = total.toNat)) := by
  subst hlength
  obtain ⟨-, kept, s, fuel', hends, hselect, hchange⟩ := exists_endsWith h
  obtain ⟨m, hm, i, -, hend, rfl⟩ := (endsWith_iff_stage hw (List.cons_ne_nil _ _)).1 hends
  obtain rfl : m = 0 := by
    rw [List.length_singleton] at hm
    omega
  obtain ⟨hvalue, hended⟩ := stages_single (H := H) w out i
  obtain ⟨total, htotal⟩ : ∃ total, (w.stages H [out]).value 0 i = total := ⟨_, rfl⟩
  obtain ⟨o, ho⟩ : ∃ o : BRTxOutput, o = { out with amount := total } := ⟨_, rfl⟩
  have hkept : (w.stages H [out]).call 0 total = [o] := by
    have hamount : total - requestAmount ([out].take 0) = total := UInt64.sub_zero total
    rw [call_stages rfl, hamount, ho]
    rfl
  have hrequest : requestAmount [o] = total := by
    rw [ho]
    exact UInt64.add_zero total
  have hsize : sizeWith (requestTx H [o]) = paymentSize (scriptLen out.script) := by
    rw [sizeWith_single, ho]
  rw [htotal, hkept] at hselect hchange
  rw [hrequest] at hchange
  obtain ⟨j, hj, hs, hfits, hfirst, hstop⟩ := (select_done_iff hw).1 hselect
  rw [hrequest] at hs hfits hfirst hstop
  have hfee : s.feeAmount = w.feeFor (paymentSize (scriptLen out.script)) total j := by
    rw [hs, feeAmount_start hj, hsize]
  have hbalance : s.balance = UInt64.ofNat (w.worth j) := by
    rw [hs, balance_selectionAt hw rfl]
  obtain ⟨hshape, hin, hout⟩ := selectionAt_single hj (congrArg Selection.transaction hs)
  have hscript : scriptLen o.script = scriptLen out.script := by rw [ho]
  have hamount : o.amount = total := by rw [ho]
  rw [hscript] at hshape
  rw [hamount] at hout
  refine ⟨total, j, ⟨⟨i, hended hend, hvalue.symm.trans htotal⟩, hj, ?_, ?_, ?_⟩, ?_⟩
  · intro k hk
    have hfit := hfits k hk
    rw [tooLarge_start (by omega), hsize] at hfit
    exact not_not.1 hfit
  · intro k hk
    have hless := hfirst k hk
    rwa [enough_start hw (by omega), hsize] at hless
  · rwa [enough_start hw hj, hsize] at hstop
  rw [changeFor, ← hfee, ← hbalance, ← toNat_worth hw, ← hbalance]
  rw [← toNat_worth hw, ← hbalance] at hin
  rw [addChange] at hchange
  split_ifs at hchange with hno hmore
  · cases hchange
  · obtain ⟨⟨w₁, addrs⟩, haddrs, hchange⟩ := Option.map_eq_some_iff.1 hchange
    obtain ⟨a, rfl, -, -, hpubkey⟩ := unusedAddrs_pubkey hd haddrs
    obtain rfl := Option.some.inj (Prod.mk.inj hchange).2
    refine ⟨UInt64.le_iff_toNat_le.1 (UInt64.not_lt.1 hno), hin, Or.inl ⟨hmore, ?_, ?_⟩⟩
    · rw [← hpubkey.length_scriptPubKey]
      exact hshape.change (BRAddress.scriptPubKey H a)
    · rw [BRTransaction.outAmount_shuffleOutputs, BRTransaction.outAmount_addOutput, hout]
  · obtain rfl := Option.some.inj (Prod.mk.inj (Option.some.inj hchange)).2
    exact ⟨UInt64.le_iff_toNat_le.1 (UInt64.not_lt.1 hno), hin, Or.inr ⟨hmore, hshape, hout⟩⟩

end BRWallet

end RavenWallet
