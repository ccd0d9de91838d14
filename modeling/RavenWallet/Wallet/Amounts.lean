/-
  The amounts that are displayed and authorised for a transaction
  (`BRWalletAmountReceivedFromTx` and `BRWalletFeeForTx` of BRWallet.c,
  RvnTransaction.swift and WalletManager+Auth.swift).

  The wallet sends its own outputs that the transaction spends, and receives the
  outputs that pay it; the fee counts everyone's.  Swift traps where a sum or a
  difference is out of range; C wraps around, so the fee is written over the
  subtraction it uses.  The transaction is any: registered, unsigned, or an entry
  of `BRTransactionDecompose`.

  * `feeForTxWith_isSome_iff`: when the fee does not wrap around;
  * `rvnTransaction_isSome_iff`: when the amounts of a transaction exist;
  * `amounts_iff`: when no subtraction leaves the range.
-/
import RavenWallet.Lib.Word
import RavenWallet.Wallet.Accounting
import RavenWallet.Wallet.Spec

namespace RavenWallet

def UINT64_MAX : UInt64 := 0xffffffffffffffff

/-- Addition that traps on overflow. -/
def checkedAdd (a b : UInt64) : Option UInt64 :=
  if a.toNat + b.toNat < 2 ^ 64 then some (a + b) else none

namespace BRWallet

/-! ## Received, sent and fee -/

section
variable (sub : UInt64 → UInt64 → Option UInt64) (w : BRWallet) (tx : BRTransaction)

/-- `BRWalletAmountReceivedFromTx`. -/
def amountReceivedFromTx : UInt64 :=
  (tx.outputs.map fun o => if o.address ∈ w.allAddrs then o.amount else 0).sum

/-- The loop over the inputs in `BRWalletFeeForTx`. -/
def addInputs : List BRTxInput → UInt64 → UInt64
  | [], amount => amount
  | i :: inputs, amount =>
    if amount ≠ UINT64_MAX then
      match w.output? i.outpoint with
      | some o => addInputs inputs (amount + o.amount)
      | none => addInputs inputs UINT64_MAX
    else amount

/-- The loop over the outputs in `BRWalletFeeForTx`. -/
def subOutputs : List BRTxOutput → UInt64 → Option UInt64
  | [], amount => some amount
  | o :: outputs, amount =>
    if amount ≠ UINT64_MAX then do
      let amount ← sub amount o.amount
      subOutputs outputs amount
    else some amount

/-- `BRWalletFeeForTx`, with the subtraction `sub`. -/
def feeForTxWith : Option UInt64 := subOutputs sub tx.outputs (w.addInputs tx.inputs 0)

/-- `BRWalletFeeForTx`. -/
def feeForTx : Option UInt64 := w.feeForTxWith wrapSub tx

end

end BRWallet

/-! ## Swift -/

inductive TransactionDirection where
  | sent | received | moved
  deriving DecidableEq

/-- The amounts of a `RvnTransaction`. -/
structure RvnTransaction where
  direction : TransactionDirection
  fee : UInt64
  amount : UInt64
  startingBalance : UInt64
  endingBalance : UInt64
  deriving DecidableEq

section
variable (w : BRWallet) (tx : BRTransaction)

/-- `wallet.feeForTx(tx) ?? 0`. -/
def BRWallet.feeOrZero : Option UInt64 := do
  let fee ← w.feeForTx tx
  some (if fee = UINT64_MAX then 0 else fee)

/-- The direction that `RvnTransaction.init` finds. -/
def TransactionDirection.of (hasAsset : Bool) (amountSent amountReceived fee : UInt64) :
    Option TransactionDirection :=
  let other := if amountSent > 0 then sent else received
  if !hasAsset ∧ amountSent > 0 then do
    let total ← checkedAdd amountReceived fee
    some (if total = amountSent then moved else other)
  else some other

/-- `RvnTransaction.init`, as far as the amounts go, with the balance after the transaction. -/
def RvnTransaction.new (endingBalance : UInt64) : Option RvnTransaction := do
  let amountReceived := w.amountReceivedFromTx tx
  let amountSent := w.amountSentByTx tx
  let fee ← w.feeOrZero tx
  match ← TransactionDirection.of (tx.asset ≠ []) amountSent amountReceived fee with
  | .received =>
    some ⟨.received, fee, amountReceived, endingBalance - amountReceived - fee, endingBalance⟩
  | .sent => do
    let amount ← checkedSub amountSent amountReceived
    let amount ← checkedSub amount fee
    some ⟨.sent, fee, amount, endingBalance + amount + fee, endingBalance⟩
  | .moved => some ⟨.moved, fee, amountSent, endingBalance + fee, endingBalance⟩

/-- What the wallet spends, as the spending limit counts it. -/
def BRWallet.amountSpent : Option UInt64 :=
  checkedSub (w.amountSentByTx tx) (w.amountReceivedFromTx tx)

/-- `canUseBiometrics(forTx:)`, if biometrics are `available` and the limit can be read. -/
def BRWallet.canUseBiometrics (available : Bool) (spendLimit : ℤ) : Option Bool :=
  if available then do
    let amount ← w.amountSpent tx
    let total ← checkedAdd amount w.totalSent
    if 0 ≤ spendLimit then some (decide ((total.toNat : ℤ) ≤ spendLimit)) else none
  else some false

end

namespace BRWallet

/-! ## Totals -/

/-- The sum of the amounts of `os`. -/
def sumOf (os : List BRTxOutput) : ℕ := (os.map fun o => o.amount.toNat).sum

section
variable (w : BRWallet) (os : List BRTxOutput) (inputs : List BRTxInput)

/-- The outputs that pay an address of the wallet. -/
def own : List BRTxOutput := os.filter fun o => o.address ∈ w.allAddrs

def others : List BRTxOutput := os.filter fun o => o.address ∉ w.allAddrs

/-- The outputs that `inputs` spend, as far as they are known. -/
def spends : List BRTxOutput := inputs.filterMap fun i => w.output? i.outpoint

/-- Every output that `inputs` spend is known. -/
def AllKnown : Prop := ∀ i ∈ inputs, (w.output? i.outpoint).isSome

/-- The fee is known: every input is, and their sum is not the value that stands for none. -/
def FeeKnown : Prop := w.AllKnown inputs ∧ sumOf (w.spends inputs) ≠ 2 ^ 64 - 1

instance : Decidable (w.AllKnown inputs) := List.decidableBAll _ _

instance : Decidable (w.FeeKnown inputs) := instDecidableAnd

end

section
variable (w : BRWallet) (tx : BRTransaction)

/-- No subtraction of the amounts of `tx` leaves the range. -/
structure AmountsInRange : Prop where
  fee : (w.feeForTxWith checkedSub tx).isSome
  displayed : ∀ endingBalance, (RvnTransaction.new w tx endingBalance).isSome
  spent : (w.amountSpent tx).isSome

/-- The wallet receives no more than it spends.  If the fee is known, the outputs are no more than
    the inputs, and if the wallet spends something, the others put in no more than they get. -/
structure AmountsCovered : Prop where
  own : sumOf (w.own tx.outputs) ≤ sumOf (w.own (w.spends tx.inputs))
  fee : w.FeeKnown tx.inputs → sumOf tx.outputs ≤ sumOf (w.spends tx.inputs)
  others : w.FeeKnown tx.inputs → 0 < sumOf (w.own (w.spends tx.inputs)) →
    sumOf (w.others (w.spends tx.inputs)) ≤ sumOf (w.others tx.outputs)

end

@[simp] theorem sumOf_nil : sumOf [] = 0 := rfl

@[simp] theorem sumOf_cons (o : BRTxOutput) (os : List BRTxOutput) :
    sumOf (o :: os) = o.amount.toNat + sumOf os := by simp [sumOf]

section
variable {w : BRWallet} {tx : BRTransaction} {os : List BRTxOutput} {o : BRTxOutput}
variable {i : BRTxInput} {inputs : List BRTxInput}

theorem spends_none (h : w.output? i.outpoint = none) :
    w.spends (i :: inputs) = w.spends inputs := List.filterMap_cons_none h

theorem spends_some (h : w.output? i.outpoint = some o) :
    w.spends (i :: inputs) = o :: w.spends inputs := List.filterMap_cons_some h

theorem own_cons (o : BRTxOutput) (os : List BRTxOutput) :
    w.own (o :: os) = if o.address ∈ w.allAddrs then o :: w.own os else w.own os := by
  simp only [own, List.filter_cons, decide_eq_true_eq]

theorem others_cons (o : BRTxOutput) (os : List BRTxOutput) :
    w.others (o :: os) = if o.address ∈ w.allAddrs then w.others os else o :: w.others os := by
  simp only [others, List.filter_cons, decide_eq_true_eq, ite_not]

theorem sumOf_own_add_others (os : List BRTxOutput) :
    sumOf (w.own os) + sumOf (w.others os) = sumOf os := by
  induction os with
  | nil => rfl
  | cons o os ih =>
    rw [own_cons, others_cons, sumOf_cons]
    split_ifs
    · rw [sumOf_cons]
      omega
    · rw [sumOf_cons]
      omega

/-- The amounts of the outputs to the wallet, added up by the machine. -/
theorem toNat_sum_own (h : sumOf os < 2 ^ 64) :
    (os.map fun o : BRTxOutput => if o.address ∈ w.allAddrs then o.amount else 0).sum.toNat =
      sumOf (w.own os) := by
  induction os with
  | nil => rfl
  | cons o os ih =>
    rw [sumOf_cons] at h
    have hown := sumOf_own_add_others (w := w) os
    have hos := ih (by omega)
    rw [List.map_cons, List.sum_cons, own_cons]
    split_ifs
    · rw [sumOf_cons, toNat_add_of_lt (by omega), hos]
    · rw [UInt64.zero_add, hos]

theorem toNat_amountReceivedFromTx (h : sumOf tx.outputs < 2 ^ 64) :
    (w.amountReceivedFromTx tx).toNat = sumOf (w.own tx.outputs) := toNat_sum_own h

/-- What an input sends is what its output pays to the wallet. -/
theorem amountSentByTx_eq : w.amountSentByTx tx =
    ((w.spends tx.inputs).map fun o => if o.address ∈ w.allAddrs then o.amount else 0).sum := by
  unfold amountSentByTx
  induction tx.inputs with
  | nil => rfl
  | cons i inputs ih =>
    rw [List.map_cons, List.sum_cons, ih]
    rcases ho : w.output? i.outpoint with _ | o
    · rw [spends_none ho, Option.elim_none, ite_self, UInt64.zero_add]
    · have howns : w.ownsInput i = true ↔ o.address ∈ w.allAddrs := by
        simp [ownsInput_iff, Owns, ho]
      rw [spends_some ho, List.map_cons, List.sum_cons, Option.elim_some]
      simp only [howns]

theorem toNat_amountSentByTx (h : sumOf (w.spends tx.inputs) < 2 ^ 64) :
    (w.amountSentByTx tx).toNat = sumOf (w.own (w.spends tx.inputs)) := by
  rw [amountSentByTx_eq, toNat_sum_own h]

/-! ## The fee -/

theorem toNat_UINT64_MAX : UINT64_MAX.toNat = 2 ^ 64 - 1 := rfl

theorem ne_max_iff {a : UInt64} : a ≠ UINT64_MAX ↔ a.toNat < 2 ^ 64 - 1 := by
  have hlt := a.toNat_lt
  rw [← UInt64.toNat_inj.ne, toNat_UINT64_MAX]
  omega

theorem addInputs_max (inputs : List BRTxInput) :
    w.addInputs inputs UINT64_MAX = UINT64_MAX := by
  cases inputs with
  | nil => rfl
  | cons i inputs => rw [addInputs, if_neg (not_not_intro rfl)]

/-- The loop adds up all the inputs, or stops at one that is not known. -/
theorem toNat_addInputs (inputs : List BRTxInput) (amount : UInt64)
    (h : amount.toNat + sumOf (w.spends inputs) < 2 ^ 64) :
    (w.addInputs inputs amount).toNat =
      if w.AllKnown inputs then amount.toNat + sumOf (w.spends inputs) else 2 ^ 64 - 1 := by
  induction inputs generalizing amount with
  | nil => rfl
  | cons i inputs ih =>
    by_cases hmax : amount = UINT64_MAX
    · -- the loop stops, and the rest adds nothing
      subst hmax
      have hm := toNat_UINT64_MAX
      rw [addInputs_max]
      split_ifs <;> omega
    · rw [addInputs, if_pos hmax]
      rcases ho : w.output? i.outpoint with _ | o
      · have hunknown : ¬ w.AllKnown (i :: inputs) := by simp [AllKnown, ho]
        rw [if_neg hunknown]
        exact congrArg UInt64.toNat (addInputs_max inputs)
      · rw [spends_some ho, sumOf_cons] at h ⊢
        have hadd : (amount + o.amount).toNat = amount.toNat + o.amount.toNat :=
          toNat_add_of_lt (by omega)
        have hknown : w.AllKnown (i :: inputs) ↔ w.AllKnown inputs := by simp [AllKnown, ho]
        dsimp only
        rw [ih (amount + o.amount) (by omega), hadd, Nat.add_assoc]
        simp only [hknown]

/-- What the loop leaves tells if the fee is known. -/
theorem addInputs_cases (h : sumOf (w.spends inputs) < 2 ^ 64) :
    w.addInputs inputs 0 = UINT64_MAX ∧ ¬ w.FeeKnown inputs ∨
      w.addInputs inputs 0 ≠ UINT64_MAX ∧ w.FeeKnown inputs ∧
        (w.addInputs inputs 0).toNat = sumOf (w.spends inputs) := by
  have hin := toNat_addInputs (w := w) inputs 0 (by simpa using h)
  rw [UInt64.toNat_zero, Nat.zero_add] at hin
  by_cases hfee : w.FeeKnown inputs
  · rw [if_pos hfee.1] at hin
    have hne := hfee.2
    exact Or.inr ⟨ne_max_iff.2 (by omega), hfee, hin⟩
  · refine Or.inl ⟨UInt64.toNat_inj.1 ?_, hfee⟩
    rw [hin, toNat_UINT64_MAX]
    split_ifs with hknown
    · by_contra hne
      exact hfee ⟨hknown, hne⟩
    · rfl

theorem subOutputs_max (sub : UInt64 → UInt64 → Option UInt64) (outputs : List BRTxOutput) :
    subOutputs sub outputs UINT64_MAX = some UINT64_MAX := by
  cases outputs with
  | nil => rfl
  | cons o outputs => rw [subOutputs, if_neg (not_not_intro rfl)]

/-- Where the outputs are covered, a subtraction that is right in the range leaves the rest. -/
theorem subOutputs_eq_some {sub : UInt64 → UInt64 → Option UInt64}
    (hsub : ∀ a b : UInt64, b.toNat ≤ a.toNat → sub a b = some (a - b)) (outputs : List BRTxOutput)
    {amount : UInt64} (hmax : amount ≠ UINT64_MAX) (h : sumOf outputs ≤ amount.toNat) :
    ∃ r, subOutputs sub outputs amount = some r ∧ r.toNat = amount.toNat - sumOf outputs := by
  induction outputs generalizing amount with
  | nil => exact ⟨amount, rfl, rfl⟩
  | cons o outputs ih =>
    rw [sumOf_cons] at h
    have hle : o.amount.toNat ≤ amount.toNat := by omega
    have hrest := toNat_sub_of_le hle
    have hlt := ne_max_iff.1 hmax
    have hne : amount - o.amount ≠ UINT64_MAX := ne_max_iff.2 (by omega)
    obtain ⟨r, hr, hval⟩ := ih hne (by omega)
    refine ⟨r, ?_, by rw [sumOf_cons]; omega⟩
    rw [subOutputs, if_pos hmax, hsub _ _ hle, Option.bind_eq_bind, Option.bind_some, hr]

theorem subOutputs_isSome_iff (outputs : List BRTxOutput) {amount : UInt64}
    (hmax : amount ≠ UINT64_MAX) :
    (subOutputs checkedSub outputs amount).isSome ↔ sumOf outputs ≤ amount.toNat := by
  constructor
  · intro h
    induction outputs generalizing amount with
    | nil => exact Nat.zero_le _
    | cons o outputs ih =>
      rw [subOutputs, if_pos hmax, checkedSub] at h
      split_ifs at h with hle
      · have hle' := UInt64.le_iff_toNat_le.1 hle
        have hrest := toNat_sub_of_le hle'
        have hlt := ne_max_iff.1 hmax
        have := ih (ne_max_iff.2 (by omega)) h
        rw [sumOf_cons]
        omega
      · cases h
  · intro h
    obtain ⟨r, hr, -⟩ := subOutputs_eq_some (fun _ _ => Ledger.checkedSub_of_le) outputs hmax h
    exact Option.isSome_of_eq_some hr

/-- The fee does not wrap around exactly if it is not known, or the inputs cover the outputs. -/
theorem feeForTxWith_isSome_iff (h : sumOf (w.spends tx.inputs) < 2 ^ 64) :
    (w.feeForTxWith checkedSub tx).isSome ↔
      (w.FeeKnown tx.inputs → sumOf tx.outputs ≤ sumOf (w.spends tx.inputs)) := by
  unfold feeForTxWith
  rcases addInputs_cases h with ⟨hmax, hunknown⟩ | ⟨hne, hknown, hin⟩
  · rw [hmax, subOutputs_max]
    exact iff_of_true rfl fun hknown => absurd hknown hunknown
  · rw [subOutputs_isSome_iff _ hne, hin]
    exact ⟨fun hle _ => hle, fun hle => hle hknown⟩

/-- The fee that Swift gets. -/
theorem feeOrZero_eq (h : sumOf (w.spends tx.inputs) < 2 ^ 64)
    (hcover : w.FeeKnown tx.inputs → sumOf tx.outputs ≤ sumOf (w.spends tx.inputs)) :
    ∃ fee, w.feeOrZero tx = some fee ∧ fee.toNat =
      if w.FeeKnown tx.inputs then sumOf (w.spends tx.inputs) - sumOf tx.outputs else 0 := by
  unfold feeOrZero feeForTx feeForTxWith
  rcases addInputs_cases h with ⟨hmax, hunknown⟩ | ⟨hne, hknown, hin⟩
  · rw [hmax, subOutputs_max, if_neg hunknown]
    exact ⟨0, rfl, rfl⟩
  · have hle := hcover hknown
    rw [← hin] at hle
    have hsub : ∀ a b : UInt64, b.toNat ≤ a.toNat → wrapSub a b = some (a - b) :=
      fun _ _ _ => rfl
    obtain ⟨fee, hsome, hval⟩ := subOutputs_eq_some hsub tx.outputs hne hle
    have hlt := ne_max_iff.1 hne
    have hfee : fee ≠ UINT64_MAX := ne_max_iff.2 (by omega)
    refine ⟨fee, ?_, ?_⟩
    · rw [hsome]
      exact congrArg some (if_neg hfee)
    · rw [hval, hin, if_pos hknown]

/-! ## The displayed amount -/

theorem checkedSub_isSome_iff {a b : UInt64} : (checkedSub a b).isSome ↔ b.toNat ≤ a.toNat := by
  unfold checkedSub
  split_ifs with h
  · exact iff_of_true rfl (UInt64.le_iff_toNat_le.1 h)
  · exact iff_of_false Bool.false_ne_true fun hle => h (UInt64.le_iff_toNat_le.2 hle)

/-- Two subtractions stay in the range if the sum of what they take does. -/
theorem checkedSub_twice_isSome_iff {α : Type} (a b c : UInt64) (f : UInt64 → α) :
    ((checkedSub a b).bind fun x => (checkedSub x c).bind fun x => some (f x)).isSome ↔
      b.toNat + c.toNat ≤ a.toNat := by
  by_cases hb : b.toNat ≤ a.toNat
  · have hsub := toNat_sub_of_le hb
    have hmap : ((checkedSub (a - b) c).bind fun x => some (f x)) = (checkedSub (a - b) c).map f :=
      Option.map_eq_bind.symm
    rw [Ledger.checkedSub_of_le hb, Option.bind_some, hmap, Option.isSome_map,
      checkedSub_isSome_iff]
    omega
  · have hnone : checkedSub a b = none := if_neg fun h => hb (UInt64.le_iff_toNat_le.1 h)
    rw [hnone]
    exact iff_of_false Bool.false_ne_true (by omega)

/-- The direction is found if the sum of what is received and the fee fits; it is `sent` unless
    nothing is sent, or just that sum. -/
theorem directionOf_cases (hasAsset : Bool) (amountSent : UInt64) {amountReceived fee : UInt64}
    (hfits : amountReceived.toNat + fee.toNat < 2 ^ 64) :
    let direction := TransactionDirection.of hasAsset amountSent amountReceived fee
    (amountSent = 0 ∧ direction = some .received) ∨
      (0 < amountSent.toNat ∧ direction = some .sent) ∨
        (amountReceived.toNat + fee.toNat = amountSent.toNat ∧ direction = some .moved) := by
  intro direction
  have hadd := toNat_add_of_lt hfits
  have hsum : checkedAdd amountReceived fee = some (amountReceived + fee) := if_pos hfits
  by_cases hsent : amountSent > 0
  · have hpos : 0 < amountSent.toNat := UInt64.lt_iff_toNat_lt.1 hsent
    cases hasAsset with
    | false =>
      have hdir : direction = (checkedAdd amountReceived fee).bind fun total =>
          some (if total = amountSent then .moved else .sent) := by
        simp [direction, TransactionDirection.of, hsent]
      rw [hsum, Option.bind_some] at hdir
      split_ifs at hdir with htotal
      · refine Or.inr (Or.inr ⟨?_, hdir⟩)
        rw [← htotal, hadd]
      · exact Or.inr (Or.inl ⟨hpos, hdir⟩)
    | true => exact Or.inr (Or.inl ⟨hpos, by simp [direction, TransactionDirection.of, hsent]⟩)
  · have hzero : amountSent = 0 := UInt64.le_zero_iff.1 (UInt64.not_lt.1 hsent)
    exact Or.inl ⟨hzero, by simp [direction, TransactionDirection.of, hsent]⟩

/-- The amounts exist exactly if the wallet sends nothing, or what it receives and the fee are
    covered by what it sends. -/
theorem rvnTransaction_isSome_iff {fee : UInt64} (hfee : w.feeOrZero tx = some fee)
    (hfits : (w.amountReceivedFromTx tx).toNat + fee.toNat < 2 ^ 64) (endingBalance : UInt64) :
    (RvnTransaction.new w tx endingBalance).isSome ↔
      (0 < (w.amountSentByTx tx).toNat →
        (w.amountReceivedFromTx tx).toNat + fee.toNat ≤ (w.amountSentByTx tx).toNat) := by
  unfold RvnTransaction.new
  rw [hfee]
  dsimp only [Option.bind_eq_bind, Option.bind_some]
  rcases directionOf_cases (tx.asset ≠ []) (w.amountSentByTx tx) hfits with
    ⟨hzero, hdir⟩ | ⟨hpos, hdir⟩ | ⟨htotal, hdir⟩
  · rw [hdir, hzero]
    exact iff_of_true rfl fun h => absurd h (Nat.lt_irrefl 0)
  · rw [hdir]
    exact (checkedSub_twice_isSome_iff _ _ _ _).trans ⟨fun h _ => h, fun h => h hpos⟩
  · rw [hdir]
    exact iff_of_true rfl fun _ => htotal.le

/-- The amounts stay in the range exactly if they are covered. -/
theorem amounts_iff (w : BRWallet) (tx : BRTransaction)
    (hin : sumOf (w.spends tx.inputs) < 2 ^ 64) (hout : sumOf tx.outputs < 2 ^ 64) :
    w.AmountsInRange tx ↔ w.AmountsCovered tx := by
  have hsent := toNat_amountSentByTx hin
  have hreceived := toNat_amountReceivedFromTx (w := w) hout
  have hspends := sumOf_own_add_others (w := w) (w.spends tx.inputs)
  have houtputs := sumOf_own_add_others (w := w) tx.outputs
  have hspent : (w.amountSpent tx).isSome ↔
      sumOf (w.own tx.outputs) ≤ sumOf (w.own (w.spends tx.inputs)) := by
    rw [amountSpent, checkedSub_isSome_iff, hsent, hreceived]
  have hdisplayed (hcover : w.FeeKnown tx.inputs → sumOf tx.outputs ≤ sumOf (w.spends tx.inputs)) :
      (∀ endingBalance, (RvnTransaction.new w tx endingBalance).isSome) ↔
        (0 < sumOf (w.own (w.spends tx.inputs)) → sumOf (w.own tx.outputs) +
          (if w.FeeKnown tx.inputs then sumOf (w.spends tx.inputs) - sumOf tx.outputs else 0) ≤
            sumOf (w.own (w.spends tx.inputs))) := by
    obtain ⟨fee, hfee, hval⟩ := feeOrZero_eq hin hcover
    have hfits : (w.amountReceivedFromTx tx).toNat + fee.toNat < 2 ^ 64 := by
      rw [hreceived, hval]
      split_ifs with hknown
      · have := hcover hknown
        omega
      · omega
    have hiff := rvnTransaction_isSome_iff hfee hfits
    rw [hsent, hreceived, hval] at hiff
    exact ⟨fun h => (hiff 0).1 (h 0), fun h e => (hiff e).2 h⟩
  constructor
  · rintro ⟨hfee, hshown, hamount⟩
    have hcover := (feeForTxWith_isSome_iff hin).1 hfee
    have hown := hspent.1 hamount
    refine ⟨hown, hcover, fun hknown hpos => ?_⟩
    have hle := (hdisplayed hcover).1 hshown hpos
    have := hcover hknown
    rw [if_pos hknown] at hle
    omega
  · rintro ⟨hown, hcover, hothers⟩
    refine ⟨(feeForTxWith_isSome_iff hin).2 hcover, (hdisplayed hcover).2 fun hpos => ?_,
      hspent.2 hown⟩
    split_ifs with hknown
    · have := hcover hknown
      have := hothers hknown hpos
      omega
    · omega

end

/-- A payment of the wallet, with the change at `[1]`. -/
def paidTx : BRTransaction :=
  { txHash := 1, outputs := [{ address := [1], amount := 3 }, { address := [2], amount := 7 }] }

/-- Its payee pays the wallet 1 in a transaction to which both put in what they have. -/
def jointTx : BRTransaction :=
  { txHash := 2
    inputs := [{ txHash := 1, index := 0, signature := some [] },
      { txHash := 1, index := 1, signature := some [] }]
    outputs := [{ address := [1], amount := 4 }, { address := [2], amount := 5 }] }

/-- The wallet spends its change alone. -/
def changeTx : BRTransaction :=
  { txHash := 3, inputs := [{ txHash := 1, index := 0 }]
    outputs := [{ address := [2], amount := 2 }] }

def jointWallet : BRWallet :=
  { allAddrs := {[1]}, usedAddrs := {[1], [2]}, transactions := [0, 1]
    allTx := AList.insert 2 1 (AList.singleton 1 0), heap := ⟨[some paidTx, some jointTx]⟩ }

theorem amounts_iff_changeTx : jointWallet.AmountsInRange changeTx :=
  (amounts_iff jointWallet changeTx (by decide) (by decide)).2 ⟨by decide, by decide, by decide⟩

theorem not_amounts_inRange : ¬ ∀ (w : BRWallet) (tx : BRTransaction),
    sumOf (w.spends tx.inputs) < 2 ^ 64 → sumOf tx.outputs < 2 ^ 64 → w.AmountsInRange tx := by
  intro h
  have hshown := (h jointWallet jointTx (by decide) (by decide)).displayed 0
  revert hshown
  decide

end BRWallet

end RavenWallet
