/-
  What the transactions of `BRWalletCreateTxForOutputs` (BRWallet.c) pay, and what was
  requested.

  A transaction has the outputs of the last call, and at most one change output.  The
  amount by which a call reduces the last output is unsigned, so it can also be raised.
  `paysAtMost_iff`: each output can be matched with a requested one that has at least its
  amount, if this is so for the last one of the call.
-/
import RavenWallet.Lib.Matching
import RavenWallet.Wallet.Smaller

namespace RavenWallet

namespace BRWallet

/-- The outputs have one script, and the first one has at most the amount of the other. -/
def AtMost (o o' : BRTxOutput) : Prop := o.script = o'.script ∧ o.amount ≤ o'.amount

instance : IsPreorder BRTxOutput AtMost where
  refl _ := ⟨rfl, UInt64.le_refl _⟩
  trans _ _ _ h h' := ⟨h.1.trans h'.1, UInt64.le_trans h.2 h'.2⟩

/-- The transaction has the outputs `kept` of the last call, and at most one change output to an
    address that is unused. -/
structure Splits (H : Hashes) (env : Env) (w w' : BRWallet) (outputs kept change : List BRTxOutput)
    (tx : BRTransaction) : Prop where
  last : w.EndsWith H outputs kept
  outputs : (tx.outputs.map paid).Perm (kept.map paid ++ change.map paid)
  single : change.length ≤ 1
  unused : ∀ o ∈ change, ∃ fuel addrs, w.unusedAddrs env fuel 1 true = some (w', addrs) ∧
    o.script = some (BRAddress.scriptPubKey H (addrs.headD []))

/-- The outputs but the change output are matched with requested ones, which have at least their
    amounts. -/
def PaysAtMost (H : Hashes) (env : Env) (w w' : BRWallet) (outputs : List BRTxOutput)
    (tx : BRTransaction) : Prop :=
  ∃ kept change, Splits H env w w' outputs kept change tx ∧ Matched AtMost kept outputs

variable {H : Hashes} {env : Env} {rand : ℕ → ℕ} {fuel : ℕ} {w w' : BRWallet}
  {outputs kept : List BRTxOutput} {last : BRTxOutput} {total c : UInt64} {s : Selection}
  {tx : BRTransaction} {i m : ℕ}

theorem select_outputs (h : w.select H kept = some (.done s)) :
    s.transaction.outputs.map paid = kept.map paid := by
  rw [selectInputs_outputs h]
  exact (requestTx_outputs kept {}).1

/-- A transaction that is returned has no other outputs. -/
theorem exists_splits (h : createTxForOutputs H env rand fuel w outputs = some (w', some tx)) :
    ∃ kept change, Splits H env w w' outputs kept change tx := by
  obtain ⟨-, kept, s, fuel', hends, hselect, hchange⟩ := exists_endsWith h
  have houtputs := select_outputs hselect
  rcases addChange_cases hchange with ⟨-, hnone⟩ | ⟨-, -, hsome⟩ | ⟨-, addrs, haddrs, hsome⟩
  · cases hnone
  · obtain rfl := Option.some.inj hsome
    refine ⟨kept, [], hends, ?_, Nat.zero_le _, fun o ho => absurd ho List.not_mem_nil⟩
    rw [houtputs, List.map_nil, List.append_nil]
  · obtain rfl := Option.some.inj hsome
    refine ⟨kept, [{ amount := s.balance - (requestAmount kept + s.feeAmount)
                     script := some (BRAddress.scriptPubKey H (addrs.headD [])) }], hends, ?_,
      le_refl _, fun o ho => ⟨fuel', addrs, haddrs, ?_⟩⟩
    · refine ((shuffle_perm rand _).map paid).trans (List.Perm.of_eq ?_)
      rw [BRTransaction.addOutput, List.map_append, houtputs]
      rfl
    · rw [List.mem_singleton.1 ho]

/-- What pays for everything exactly leaves no change. -/
theorem createTxForOutputs_exact (hne : outputs ≠ []) (h : w.select H outputs = some (.done s))
    (hexact : requestAmount outputs + s.feeAmount = s.balance) :
    createTxForOutputs H env rand (fuel + 1) w outputs = some (w, some s.transaction) := by
  rw [createTxForOutputs, h, Option.bind_some]
  dsimp only
  rw [if_neg hne, addChange, hexact, if_neg (UInt64.lt_irrefl _), UInt64.sub_self,
    if_neg (UInt64.not_lt.2 UInt64.zero_le)]

/-- All outputs but the last one are as requested. -/
theorem matched_call (hm : outputs[m]? = some last) :
    Matched AtMost ((w.stages H outputs).call m total) outputs ↔
      ∃ o ∈ outputs.drop m, last.script = o.script ∧
        total - requestAmount (outputs.take m) ≤ o.amount := by
  have hsplit : Matched AtMost ((w.stages H outputs).call m total) outputs ↔
      Matched AtMost ((w.stages H outputs).call m total) (outputs.take m ++ outputs.drop m) := by
    rw [List.take_append_drop]
  rw [hsplit, call_stages hm, matched_concat_iff]
  rfl

/-- A transaction pays no more than requested exactly if the total, for which the calls end, leaves
    the last output no more than a requested one with its script has, from its own index on. -/
theorem paysAtMost_iff (hw : w.LedgerIdentity)
    (h : createTxForOutputs H env rand fuel w outputs = some (w', some tx)) :
    PaysAtMost H env w w' outputs tx ↔ ∃ m last, outputs[m]? = some last ∧ ∃ i, i ≤ 100 ∧
      (w.stages H outputs).EndsAt 100 outputs.length m i ∧
      ∃ o ∈ outputs.drop m, last.script = o.script ∧
        (w.stages H outputs).value m i - requestAmount (outputs.take m) ≤ o.amount := by
  have hne := (exists_endsWith h).1
  constructor
  · rintro ⟨kept, change, hsplits, hmatched⟩
    obtain ⟨m, hm, i, hi, hend, rfl⟩ := (endsWith_iff_stage hw hne).1 hsplits.last
    have hlast := List.getElem?_eq_getElem hm
    exact ⟨m, _, hlast, i, hi, hend, (matched_call hlast).1 hmatched⟩
  · rintro ⟨m, last, hlast, i, hi, hend, hless⟩
    obtain ⟨kept, change, hsplits⟩ := exists_splits h
    obtain ⟨hm, -⟩ := List.getElem?_eq_some_iff.1 hlast
    have hkept := hsplits.last.unique
      ((endsWith_iff_stage hw hne).2 ⟨m, hm, i, hi, hend, rfl⟩)
    refine ⟨kept, change, hsplits, ?_⟩
    rw [hkept]
    exact (matched_call hlast).2 hless

/-- All coins fit, and the payment is not changed. -/
theorem paysAtMost_iff_coinWallet : ∃ w' tx,
    createTxForOutputs sampleHashes keyEnv id 3 coinWallet [smallOutput] = some (w', some tx) ∧
      PaysAtMost sampleHashes keyEnv coinWallet w' [smallOutput] tx := by
  have hsome : (createTxForOutputs sampleHashes keyEnv id 3 coinWallet [smallOutput]).any
      (fun r => r.2.isSome) = true := by decide +kernel
  obtain ⟨⟨w', r⟩, hr, hr'⟩ := (Option.any_eq_true _ _).1 hsome
  obtain ⟨tx, rfl⟩ := Option.isSome_iff_exists.1 hr'
  refine ⟨w', tx, hr, (paysAtMost_iff coinWallet_ledgerIdentity hr).2
    ⟨0, smallOutput, rfl, 0, Nat.zero_le _, endsAt_coinWallet, smallOutput,
      List.mem_singleton_self _, rfl, by decide⟩⟩

/-- What is left over with all coins that fit is too little for a change output, and the payment is
    raised by it. -/
theorem not_paysAtMost : ¬ ∀ (H : Hashes) (env : Env) (rand : ℕ → ℕ) (fuel : ℕ) (w w' : BRWallet)
    (outputs : List BRTxOutput) (tx : BRTransaction), w.LedgerIdentity →
    createTxForOutputs H env rand fuel w outputs = some (w', some tx) →
    PaysAtMost H env w w' outputs tx := by
  intro h
  have hw : (evenCoins 676 10000000).LedgerIdentity :=
    evenCoins_ledgerIdentity (by decide) (by decide)
  have hcall := evenCoins_nextCall 10000000 6649999000 6650000000 (by decide) (by decide)
    (by decide +kernel) (by decide +kernel) (by decide +kernel) (by decide +kernel)
  obtain ⟨s, hselect, hexact⟩ := evenCoins_select 10000000 6650000000 (by decide) (by decide)
    (by decide +kernel) (by decide +kernel)
  have hends : (evenCoins 676 10000000).EndsWith sampleHashes [payOut 6649999000]
      [payOut 6650000000] := by
    refine .call hcall (List.cons_ne_nil _ _) (.stop ?_)
    rw [nextCall, hselect]
    rfl
  have hcreated : createTxForOutputs sampleHashes keyEnv id 2 (evenCoins 676 10000000)
      [payOut 6649999000] = some (evenCoins 676 10000000, some s.transaction) := by
    rw [createTxForOutputs_call hcall]
    exact createTxForOutputs_exact (List.cons_ne_nil _ _) hselect hexact
  obtain ⟨kept, change, hsplits, hmatched⟩ := h _ _ _ _ _ _ _ _ hw hcreated
  obtain rfl := hsplits.last.unique hends
  have hsame : Matched AtMost ([] ++ [payOut 6650000000]) ([] ++ [payOut 6649999000]) := hmatched
  obtain ⟨o, ho, -, hle⟩ := matched_concat_iff.1 hsame
  rw [List.mem_singleton.1 ho] at hle
  exact absurd hle (by decide)

end BRWallet

end RavenWallet
