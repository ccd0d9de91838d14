/-
  The largest amount that can be sent to one address (`BRWalletMaxOutputAmount` and
  `BRWalletCreateTransaction` of BRWallet.c).

  The fee of the largest amount is that of a transaction with all UTXOs and two
  outputs.  `createTransaction_isSome`: without an overflow, every amount up to it can
  be sent, if the UTXOs fit in a transaction.
-/
import RavenWallet.Wallet.Addresses
import RavenWallet.Wallet.Coins

namespace RavenWallet

/-- The estimated size of a transaction with `inCount` inputs and two outputs. -/
def twoOutputSize (inCount : ℕ) : ℕ :=
  8 + varIntSize inCount + TX_INPUT_SIZE * inCount + varIntSize 2 + TX_OUTPUT_SIZE * 2

/-- An output to an address (`BRTxOutputSetAddress`). -/
def BRTxOutput.toAddress (H : Hashes) (address : BRAddress) (amount : UInt64) : BRTxOutput where
  address := address
  amount := amount
  script := some (BRAddress.scriptPubKey H address)

namespace BRWallet

/-- `BRWalletMaxOutputAmount`. -/
def maxOutputAmount (w : BRWallet) : UInt64 :=
  let amounts := w.utxos.reverse.filterMap fun o => (w.output? o).map BRTxOutput.amount
  let amount := amounts.sum
  let fee := txFee w.feePerKb (twoOutputSize amounts.length)
  if amount > fee then amount - fee else 0

/-- `BRWalletCreateTransaction`. -/
def createTransaction (H : Hashes) (env : Env) (rand : ℕ → ℕ) (fuel : ℕ) (w : BRWallet)
    (amount : UInt64) (addr : BRAddress) : Option (BRWallet × Option BRTransaction) :=
  createTxForOutputs H env rand fuel w [.toAddress H addr amount]

variable {H : Hashes} {env : Env} {rand : ℕ → ℕ} {fuel : ℕ} {w : BRWallet} {amount : UInt64}
  {addr : BRAddress} {internal : Bool} {used : Finset BRAddress}

theorem twoOutputSize_mono {m n : ℕ} (h : m ≤ n) : twoOutputSize m ≤ twoOutputSize n := by
  have hcount := BRTransaction.varIntSize_mono h
  have hinputs : TX_INPUT_SIZE * m ≤ TX_INPUT_SIZE * n := Nat.mul_le_mul_left _ h
  unfold twoOutputSize
  omega

/-! ## The change address -/

theorem extendChain_one_isSome {chain : List BRAddress} {i m : ℕ} (hi : i ≤ chain.length)
    (hm : chain.length ≤ m) (hfuel : m < chain.length + fuel)
    (hfree : ∀ a, env.address internal (UInt32.ofNat m) = some a → a ∉ used) :
    (extendChain env internal used 1 fuel chain i).isSome := by
  induction fuel generalizing chain i with
  | zero => omega
  | succ fuel ih =>
    rw [extendChain]
    split_ifs with hlt
    · cases ha : env.address internal (UInt32.ofNat chain.length) with
      | none => rfl
      | some a =>
        dsimp only
        split_ifs with hnil hused
        · rfl
        · have hne : chain.length ≠ m := by
            rintro rfl
            exact hfree a ha hused
          refine ih (le_refl _) ?_ ?_
          · rw [List.length_append, List.length_singleton]
            omega
          · rw [List.length_append, List.length_singleton]
            omega
        · have hdone : ¬ (chain ++ [a]).length < i + 1 := by
            rw [List.length_append, List.length_singleton]
            omega
          cases fuel with
          | zero => rw [extendChain, if_neg hdone]; rfl
          | succ fuel => rw [extendChain, if_neg hdone]; rfl
    · rfl

/-- An unused address is found if not all addresses are used. -/
theorem unusedAddrs_one_isSome
    (hfree : ∃ k, ∀ a, env.address internal k = some a → a ∉ w.usedAddrs) :
    ∃ n, ∀ fuel, n ≤ fuel → (w.unusedAddrs env fuel 1 internal).isSome := by
  obtain ⟨k, hk⟩ := hfree
  have hindex : UInt32.ofNat (k.toNat + 2 ^ 32 * (w.chain internal).length) = k := by
    rw [← UInt32.toNat_inj, UInt32.toNat_ofNat', Nat.add_mul_mod_self_left,
      Nat.mod_eq_of_lt k.toNat_lt]
  refine ⟨k.toNat + 2 ^ 32 * (w.chain internal).length + 1, ?_⟩
  intro fuel hfuel
  have hextend : (extendChain env internal w.usedAddrs 1 fuel (w.chain internal)
      (trailingStart w.usedAddrs (w.chain internal))).isSome := by
    refine extendChain_one_isSome (m := k.toNat + 2 ^ 32 * (w.chain internal).length)
      ?_ (by omega) (by omega) (hindex.symm ▸ hk)
    exact (List.rdropWhile_prefix _ _).length_le
  obtain ⟨r, hr⟩ := Option.isSome_iff_exists.1 hextend
  rw [unusedAddrs]
  dsimp only
  rw [hr]
  rfl

/-! ## The largest amount -/

theorem filterMap_output?_map (us : List UTXO) (hexist : ∀ u ∈ us, (w.output? u).isSome) :
    ((us.filterMap fun o => (w.output? o).map BRTxOutput.amount).map UInt64.toNat) =
      us.map w.amount := by
  induction us with
  | nil => rfl
  | cons u us ih =>
    obtain ⟨o, ho⟩ := Option.isSome_iff_exists.1 (hexist u List.mem_cons_self)
    have hamount : w.amount u = o.amount.toNat := by
      rw [BRWallet.amount, ho]
      rfl
    rw [List.filterMap_cons_some (by rw [ho]; rfl), List.map_cons, List.map_cons, hamount,
      ih fun v hv => hexist v (List.mem_cons_of_mem u hv)]

theorem maxOutputAmount_eq (hw : w.LedgerIdentity) : w.maxOutputAmount =
    if w.balance > txFee w.feePerKb (twoOutputSize w.utxos.length) then
      w.balance - txFee w.feePerKb (twoOutputSize w.utxos.length)
    else 0 := by
  have hexist : ∀ u ∈ w.utxos.reverse, (w.output? u).isSome := by
    intro u hu
    obtain ⟨tx, htx, -, hn⟩ := hw.exist u (List.mem_reverse.1 hu)
    rw [output?, htx, Option.bind_eq_bind, Option.bind_some, List.getElem?_eq_getElem hn]
    rfl
  have hmap := filterMap_output?_map w.utxos.reverse hexist
  rw [maxOutputAmount]
  generalize hamounts : (w.utxos.reverse.filterMap fun o =>
    (w.output? o).map BRTxOutput.amount) = amounts at hmap ⊢
  have hlength : amounts.length = w.utxos.length := by
    rw [← List.length_map UInt64.toNat, hmap, List.length_map, List.length_reverse]
  have htotal : (amounts.map UInt64.toNat).sum = w.balance.toNat := by
    rw [hmap, List.map_reverse, List.sum_reverse, hw.balance]
  have hsum : amounts.sum = w.balance := by
    refine UInt64.toNat_inj.1 ?_
    rw [toNat_sum_of_lt (by rw [htotal]; exact w.balance.toNat_lt), htotal]
  rw [hlength, hsum]

/-- An amount up to the largest one leaves the fee of all UTXOs. -/
theorem le_maxOutputAmount (hw : w.LedgerIdentity)
    (hfee : FeeFits w.feePerKb.toNat (twoOutputSize w.utxos.length)) (h0 : 0 < amount)
    (hle : amount ≤ w.maxOutputAmount) :
    amount.toNat + feeOf w.feePerKb.toNat (twoOutputSize w.utxos.length) ≤ w.balance.toNat := by
  rw [maxOutputAmount_eq hw] at hle
  rw [← txFee_toNat hfee]
  have hpos := UInt64.lt_iff_toNat_lt.1 h0
  have hle' := UInt64.le_iff_toNat_le.1 hle
  split_ifs at hle' with hmore
  · have hlt := UInt64.lt_iff_toNat_lt.1 hmore
    rw [toNat_sub_of_le (by omega)] at hle'
    omega
  · exact absurd (hpos.trans_le hle') (lt_irrefl _)

/-! ## The selection -/

theorem roundFee_le {feeAmount : UInt64} (h : amount.toNat + feeAmount.toNat ≤ w.balance.toNat) :
    amount.toNat + (w.roundFee amount feeAmount).toNat ≤ w.balance.toNat := by
  have hlt := w.balance.toNat_lt
  have hadd : (amount + feeAmount).toNat = amount.toNat + feeAmount.toNat :=
    toNat_add_of_lt (by omega)
  rw [roundFee]
  split_ifs with hmore
  · have hsub : (w.balance - (amount + feeAmount)).toNat =
        w.balance.toNat - (amount.toNat + feeAmount.toNat) := by
      rw [toNat_sub_of_le (by omega), hadd]
    have hmod : ((w.balance - (amount + feeAmount)) % 100).toNat ≤
        w.balance.toNat - (amount.toNat + feeAmount.toNat) := by
      rw [UInt64.toNat_mod, hsub]
      exact Nat.mod_le _ _
    rw [toNat_add_of_lt (by omega)]
    omega
  · exact h

/-- If the outputs and the fee of all coins are within the balance, the loop finds enough. -/
theorem select_enough {outputs : List BRTxOutput} {s : Selection} {size : ℕ}
    (hw : w.LedgerIdentity) (hpos : 0 < (requestAmount outputs).toNat)
    (hfee : FeeFits w.feePerKb.toNat size)
    (hsize : sizeWith (requestTx H outputs) w.coinList.length + TX_OUTPUT_SIZE ≤ size)
    (hle : (requestAmount outputs).toNat + feeOf w.feePerKb.toNat size ≤ w.balance.toNat)
    (hsum : w.balance.toNat + w.minOutputAmount.toNat < 2 ^ 64)
    (hs : w.select H outputs = some (.done s)) :
    requestAmount outputs + s.feeAmount ≤ s.balance := by
  obtain ⟨j, hj, hsj, -, -, hend⟩ := (select_done_iff hw).1 hs
  have hbalance : s.balance.toNat = w.worth j := hsj ▸ toNat_balance_selectionAt hw rfl
  have htotal := worth_length hw
  have hj0 : j ≠ 0 := by
    rintro rfl
    have h0 := hend.resolve_right fun h => h.1 rfl
    rw [← h0] at htotal
    have hzero : w.worth 0 = 0 := rfl
    omega
  have hfit : (requestAmount outputs).toNat + s.feeAmount.toNat ≤ w.balance.toNat := by
    obtain ⟨i, rfl⟩ := Nat.exists_eq_succ_of_ne_zero hj0
    have hsizej : s.transaction.size + TX_OUTPUT_SIZE ≤ size := by
      have hmono : sizeWith (requestTx H outputs) _ ≤ _ := sizeWith_mono hj
      rw [hsj, size_selectionAt hj]
      exact (Nat.add_le_add_right hmono _).trans hsize
    have hfeej : (txFee w.feePerKb (s.transaction.size + TX_OUTPUT_SIZE)).toNat ≤
        feeOf w.feePerKb.toNat size := by
      rw [txFee_toNat (hfee.mono hsizej)]
      exact feeOf_mono hsizej
    have hround : s.feeAmount = w.roundFee (requestAmount outputs)
        (txFee w.feePerKb (s.transaction.size + TX_OUTPUT_SIZE)) := by
      rw [hsj]
      exact selectionAt_feeAmount hj
    rw [hround]
    exact roundFee_le (by omega)
  have hlt := w.balance.toNat_lt
  have hadd : (requestAmount outputs + s.feeAmount).toNat =
      (requestAmount outputs).toNat + s.feeAmount.toNat := toNat_add_of_lt (by omega)
  rw [UInt64.le_iff_toNat_le, hadd]
  rcases hend with rfl | ⟨-, henough⟩
  · omega
  · rw [← hsj] at henough
    exact le_of_enough (by omega) henough

theorem sizeWith_toAddress (haddr : IsPubkeyAddress H addr) (j : ℕ) :
    sizeWith (requestTx H [.toAddress H addr amount]) j + TX_OUTPUT_SIZE = twoOutputSize j := by
  have hscript : (BRAddress.scriptPubKey H addr).length = 25 := haddr.length_scriptPubKey
  have hvarInt : varIntSize 25 = 1 ∧ varIntSize 1 = 1 ∧ varIntSize 2 = 1 := ⟨rfl, rfl, rfl⟩
  have houtput : TX_OUTPUT_SIZE = 34 := rfl
  simp only [sizeWith, twoOutputSize, requestTx, List.foldl_cons, List.foldl_nil,
    BRTransaction.addOutput, BRTxOutput.toAddress, BRTransaction.outputSize, scriptLen,
    List.nil_append, List.length_nil, List.length_singleton, List.map_nil, List.map_singleton,
    List.sum_nil, List.sum_singleton, Option.getD_some, hscript, hvarInt, houtput, Nat.zero_add]
  omega

/-- Every amount up to the largest one can be sent. -/
theorem createTransaction_isSome (rand : ℕ → ℕ) (hw : w.LedgerIdentity)
    (hfee : FeeFits w.feePerKb.toNat (twoOutputSize w.utxos.length))
    (hsum : w.balance.toNat + w.minOutputAmount.toNat < 2 ^ 64)
    (hfit : twoOutputSize w.coinList.length ≤ TX_MAX_SIZE)
    (hchange : ∃ k, ∀ a, env.address true k = some a → a ∉ w.usedAddrs)
    (haddr : IsPubkeyAddress H addr) (h0 : 0 < amount) (hle : amount ≤ w.maxOutputAmount) :
    ∃ n, ∀ fuel, n ≤ fuel → ∃ w' tx,
      w.createTransaction H env rand fuel amount addr = some (w', some tx) := by
  have hamount : requestAmount [.toAddress H addr amount] = amount := UInt64.add_zero amount
  have hsize : ∀ j, sizeWith (requestTx H [.toAddress H addr amount]) j + TX_OUTPUT_SIZE =
      twoOutputSize j := fun j => sizeWith_toAddress haddr j
  have hcoins : w.coinList.length ≤ w.utxos.length := List.length_filterMap_le _ _
  obtain ⟨s, hs⟩ : ∃ s, w.select H [.toAddress H addr amount] = some (.done s) := by
    obtain ⟨sel, hsel⟩ := Option.isSome_iff_exists.1 (selectInputs_isSome (H := H) hw
      (requestAmount [.toAddress H addr amount]) w.minOutputAmount (fun u hu => hu) _)
    cases sel with
    | done s => exact ⟨s, hsel⟩
    | tooLarge s =>
      obtain ⟨j, hj, -, -, hlarge⟩ := (select_tooLarge_iff hw).1 hsel
      rw [TooLarge, size_selectionAt hj] at hlarge
      have hmono : sizeWith (requestTx H [.toAddress H addr amount]) _ ≤ _ := sizeWith_mono hj
      have hall := hsize w.coinList.length
      exact absurd (hlarge.trans_le (Nat.add_le_add_right hmono _)) (by omega)
  have henough : amount + s.feeAmount ≤ s.balance := by
    have hmax := le_maxOutputAmount hw hfee h0 hle
    have hs' := select_enough hw (by rw [hamount]; exact UInt64.lt_iff_toNat_lt.1 h0) hfee
      (by rw [hsize]; exact twoOutputSize_mono hcoins) (by rw [hamount]; exact hmax) hsum hs
    rwa [hamount] at hs'
  obtain ⟨n, hn⟩ := unusedAddrs_one_isSome hchange
  refine ⟨n + 1, ?_⟩
  intro fuel hfuel
  obtain ⟨fuel, rfl⟩ := Nat.exists_eq_succ_of_ne_zero (show fuel ≠ 0 by omega)
  rw [createTransaction, createTxForOutputs, hs, Option.bind_some]
  dsimp only
  rw [if_neg (List.cons_ne_nil _ _), hamount, addChange, if_neg (UInt64.not_lt.2 henough)]
  split_ifs with hmore
  · obtain ⟨⟨w', addrs⟩, hr⟩ := Option.isSome_iff_exists.1 (hn fuel (by omega))
    rw [hr]
    exact ⟨_, _, rfl⟩
  · exact ⟨_, _, rfl⟩

/-- All addresses are the same, and unused. -/
theorem keyEnv_unused (hused : keyAddress ∉ w.usedAddrs) :
    ∃ k, ∀ a, keyEnv.address true k = some a → a ∉ w.usedAddrs := by
  refine ⟨0, ?_⟩
  intro a ha
  rwa [← Option.some.inj ha]

theorem createTransaction_isSome_coinWallet : ∃ n, ∀ fuel, n ≤ fuel → ∃ w' tx,
    coinWallet.createTransaction sampleHashes keyEnv id fuel 2000000 keyAddress =
      some (w', some tx) :=
  createTransaction_isSome id coinWallet_ledgerIdentity ⟨by decide +kernel, by decide +kernel⟩
    (by decide +kernel) (by decide +kernel) (keyEnv_unused (Finset.notMem_empty _))
    (coinWallet_derives.pubkey 0 _ rfl) (by decide) (by decide +kernel)

/-- The loop has ended with too little. -/
def Selected.lacks (amount : UInt64) : Selected → Bool
  | .done s => decide (s.balance < amount + s.feeAmount)
  | .tooLarge _ => false

/-- Nothing is sent for lack of funds. -/
theorem createTransaction_eq_none
    (h : (w.select H [.toAddress H addr amount]).any (Selected.lacks amount) = true) (fuel : ℕ) :
    w.createTransaction H env rand (fuel + 1) amount addr = some (w, none) := by
  have hamount : requestAmount [.toAddress H addr amount] = amount := UInt64.add_zero amount
  obtain ⟨sel, hsel, hlacks⟩ := (Option.any_eq_true _ _).1 h
  cases sel with
  | done s =>
    rw [createTransaction, createTxForOutputs, hsel, Option.bind_some]
    dsimp only
    rw [if_neg (List.cons_ne_nil _ _), hamount, addChange, if_pos (of_decide_eq_true hlacks)]
  | tooLarge s => cases hlacks

/-- A wallet with two coins that together are the largest balance. -/
def fullWallet : BRWallet :=
  { balance := 0xffffffffffffffff, utxos := [⟨1, 0⟩, ⟨1, 1⟩], transactions := [0]
    allTx := AList.singleton 1 0
    heap := ⟨[some { txHash := 1, outputs := [{ address := keyAddress, amount := 600000 },
      { address := keyAddress, amount := 0xffffffffffffffff - 600000 }] }]⟩ }

theorem fullWallet_ledgerIdentity : fullWallet.LedgerIdentity := by
  refine ⟨by decide, by decide, fun u hu => ?_⟩
  rcases List.mem_pair.1 hu with rfl | rfl
  · exact ⟨_, rfl, rfl, by decide⟩
  · exact ⟨_, rfl, rfl, by decide⟩

/-- The sum of the largest amount, its fee and the smallest change overflows, and the first coin
    seems to be enough. -/
theorem not_createTransaction_isSome : ¬ ∀ (H : Hashes) (env : Env) (rand : ℕ → ℕ) (w : BRWallet)
    (amount : UInt64) (addr : BRAddress), w.LedgerIdentity →
    twoOutputSize w.coinList.length ≤ TX_MAX_SIZE →
    (∃ k, ∀ a, env.address true k = some a → a ∉ w.usedAddrs) →
    IsPubkeyAddress H addr → 0 < amount → amount ≤ w.maxOutputAmount →
    ∃ n, ∀ fuel, n ≤ fuel → ∃ w' tx,
      w.createTransaction H env rand fuel amount addr = some (w', some tx) := by
  intro h
  obtain ⟨n, hn⟩ := h sampleHashes keyEnv id fullWallet (0xffffffffffffffff - 1000000) keyAddress
    fullWallet_ledgerIdentity (by decide +kernel) (keyEnv_unused (Finset.notMem_empty _))
    (coinWallet_derives.pubkey 0 _ rfl) (by decide) (by decide +kernel)
  obtain ⟨w', tx, hsent⟩ := hn (n + 1) (Nat.le_succ n)
  rw [createTransaction_eq_none (by decide +kernel)] at hsent
  cases hsent

end BRWallet

end RavenWallet
