/-
  The smaller transactions of `BRWalletCreateTxForOutputs` (BRWallet.c).

  If the transaction gets too large, the function calls itself for less.  It is then
  called with the first outputs of the request, the last of which has the amount that a
  total leaves for it.  `stages`: the totals that are tried for each number of outputs.

  `endsWith_iff`: the calls end, and none has no outputs, if one of the first 101 totals
  stops them.
-/
import Mathlib.Data.Nat.Find
import RavenWallet.Lib.Stages
import RavenWallet.Wallet.Coins

namespace RavenWallet

namespace BRWallet

/-! ## The calls -/

/-- The outputs that `createTxForOutputs` calls itself with, if it does. -/
def nextCall (H : Hashes) (w : BRWallet) (outputs : List BRTxOutput) : Option (List BRTxOutput) :=
  (w.select H outputs).bind fun
    | .done _ => none
    | .tooLarge s =>
      if w.balance < requestAmount outputs + txFee w.feePerKb (10 +
          w.utxos.length * TX_INPUT_SIZE + (outputs.length + 1) * TX_OUTPUT_SIZE) then none
      else outputs.getLast?.map fun last => w.smallerOutputs outputs last s

/-- The calls end with the outputs `kept`, and none has no outputs. -/
def EndsWith (H : Hashes) (w : BRWallet) (outputs kept : List BRTxOutput) : Prop :=
  Settles (w.nextCall H) (· ≠ []) outputs kept

/-! ## The totals -/

/-- The size of the transaction for the first outputs up to that with the index `m`, with `j`
    coins. -/
def requestSize (H : Hashes) (outputs : List BRTxOutput) (m j : ℕ) : ℕ :=
  sizeWith (requestTx H (outputs.take (m + 1))) j

/-- The fee with `j` coins. -/
def feeFor (w : BRWallet) (size : ℕ → ℕ) (amount : UInt64) : ℕ → UInt64
  | 0 => txFee w.feePerKb (size 0 + TX_OUTPUT_SIZE)
  | j + 1 => w.roundFee amount (txFee w.feePerKb (size (j + 1) + TX_OUTPUT_SIZE))

/-- `j` coins are worth the amount and the fee exactly, or leave enough for a change output. -/
def EnoughFor (w : BRWallet) (size : ℕ → ℕ) (amount : UInt64) (j : ℕ) : Prop :=
  UInt64.ofNat (w.worth j) = amount + w.feeFor size amount j ∨
    UInt64.ofNat (w.worth j) ≥ amount + w.feeFor size amount j + w.minOutputAmount

/-- The number of coins that fit in the transaction. -/
def fitting (w : BRWallet) (size : ℕ → ℕ) : ℕ :=
  Nat.findGreatest (fun j => size j + TX_OUTPUT_SIZE ≤ TX_MAX_SIZE) w.coinList.length

/-- What the coins that fit are worth. -/
def fittingWorth (w : BRWallet) (size : ℕ → ℕ) : UInt64 := UInt64.ofNat (w.worth (w.fitting size))

/-- The fee with the coins that fit. -/
def fittingFee (w : BRWallet) (size : ℕ → ℕ) (amount : UInt64) : UInt64 :=
  w.feeFor size amount (w.fitting size)

/-- Some coins that fit are enough. -/
def Covered (w : BRWallet) (size : ℕ → ℕ) (amount : UInt64) : Prop :=
  ∃ j, j ≤ w.fitting size ∧ j ≠ 0 ∧ w.EnoughFor size amount j

/-- The balance of the wallet is less than the amount and the estimated fee for all UTXOs. -/
def Poor (w : BRWallet) (outCount : ℕ) (amount : UInt64) : Prop :=
  w.balance < amount + txFee w.feePerKb (10 + w.utxos.length * TX_INPUT_SIZE +
    (outCount + 1) * TX_OUTPUT_SIZE)

/-- The outputs up to that with the index `m`, for a total: the last one takes what the others leave
    of it.  No call is made for the total if all coins fit, if some are enough, or if the wallet has
    too little; the last output is removed if what it takes is too little. -/
def stages (H : Hashes) (w : BRWallet) (outputs : List BRTxOutput) :
    Stages (List BRTxOutput) UInt64 where
  call m total := outputs.take m ++ (outputs[m]?.map fun last =>
    { last with amount := total - requestAmount (outputs.take m) }).toList
  start m := requestAmount (outputs.take (m + 1))
  step m total :=
    w.fittingWorth (requestSize H outputs m) - w.fittingFee (requestSize H outputs m) total
  stops m total := w.fitting (requestSize H outputs m) = w.coinList.length ∨
    w.Covered (requestSize H outputs m) total ∨ w.Poor (m + 1) total
  leaves m total := total - requestAmount (outputs.take m) ≤
    total + w.fittingFee (requestSize H outputs m) total + w.minOutputAmount -
      w.fittingWorth (requestSize H outputs m)

/-- The fee with the coins that fit, before it is rounded. -/
def baseFee (w : BRWallet) (size : ℕ → ℕ) : UInt64 :=
  txFee w.feePerKb (size (w.fitting size) + TX_OUTPUT_SIZE)

/-- What the rounding adds to the fee for a total.  Without a coin, nothing is rounded. -/
def rounding (w : BRWallet) (size : ℕ → ℕ) (total : UInt64) : ℕ :=
  if w.fitting size ≠ 0 ∧ w.balance > total + w.baseFee size then
    ((w.balance - (total + w.baseFee size)) % 100).toNat
  else 0

variable {H : Hashes} {env : Env} {rand : ℕ → ℕ} {fuel : ℕ} {w w' : BRWallet}
  {outputs os os' kept : List BRTxOutput} {last : BRTxOutput} {total c : UInt64}
  {s : Selection} {tx : BRTransaction} {size : ℕ → ℕ} {i j m n : ℕ}

/-! ## The function and its calls -/

/-- A call returns what the function returns for the outputs that it is called with. -/
theorem createTxForOutputs_call (h : w.nextCall H outputs = some os) :
    createTxForOutputs H env rand (fuel + 1) w outputs =
      createTxForOutputs H env rand fuel w os := by
  obtain ⟨sel, hsel, h⟩ := Option.bind_eq_some_iff.1 h
  cases sel with
  | done s => cases h
  | tooLarge s =>
    dsimp only at h
    split_ifs at h with hpoor
    obtain ⟨last, hlast, rfl⟩ := Option.map_eq_some_iff.1 h
    rw [createTxForOutputs, hsel, Option.bind_some]
    dsimp only
    rw [if_neg hpoor, hlast, Option.bind_some]

/-- A transaction is returned for the outputs of the last call. -/
theorem exists_endsWith
    (h : createTxForOutputs H env rand fuel w outputs = some (w', some tx)) :
    outputs ≠ [] ∧ ∃ kept s fuel', w.EndsWith H outputs kept ∧
      w.select H kept = some (.done s) ∧
      w.addChange H env rand fuel' (requestAmount kept) s = some (w', some tx) := by
  induction fuel generalizing outputs with
  | zero => cases h
  | succ fuel ih =>
    rw [createTxForOutputs] at h
    obtain ⟨sel, hsel, h⟩ := Option.bind_eq_some_iff.1 h
    cases sel with
    | done s =>
      dsimp only at h
      split_ifs at h with hnil
      · cases h
      · have hlast : w.nextCall H outputs = none := by rw [nextCall, hsel]; rfl
        exact ⟨hnil, outputs, s, fuel, .stop hlast, hsel, h⟩
    | tooLarge s =>
      dsimp only at h
      split_ifs at h with hpoor
      · cases h
      · obtain ⟨last, hlast, h⟩ := Option.bind_eq_some_iff.1 h
        have hcall : w.nextCall H outputs = some (w.smallerOutputs outputs last s) := by
          rw [nextCall, hsel, Option.bind_some]
          dsimp only
          rw [if_neg hpoor, hlast, Option.map_some]
        obtain ⟨hne, kept, s', fuel', hends, hrest⟩ := ih h
        refine ⟨?_, kept, s', fuel', .call hcall hne hends, hrest⟩
        rintro rfl
        cases hlast

/-! ## Rounding -/

/-- The rounding adds less than a hundred. -/
theorem rounding_lt : w.rounding size total < 100 := by
  rw [rounding]
  split_ifs
  · rw [UInt64.toNat_mod]
    exact Nat.mod_lt _ (by decide)
  · decide

theorem fittingFee_eq : w.fittingFee size total =
    w.baseFee size + UInt64.ofNat (w.rounding size total) := by
  rw [fittingFee, rounding, baseFee]
  cases hj : w.fitting size with
  | zero =>
    rw [feeFor, if_neg fun h => h.1 rfl]
    exact (UInt64.add_zero _).symm
  | succ j =>
    rw [feeFor, roundFee]
    by_cases hmore : w.balance > total + txFee w.feePerKb (size (j + 1) + TX_OUTPUT_SIZE)
    · rw [if_pos hmore, if_pos ⟨Nat.succ_ne_zero j, hmore⟩, UInt64.ofNat_toNat]
    · rw [if_neg hmore, if_neg fun h => hmore h.2]
      exact (UInt64.add_zero _).symm

/-! ## What is taken before the transaction gets too large -/

theorem fitting_eq_iff : w.fitting size = j ↔ j ≤ w.coinList.length ∧
    (j ≠ 0 → size j + TX_OUTPUT_SIZE ≤ TX_MAX_SIZE) ∧
    ∀ i, j < i → i ≤ w.coinList.length → ¬ size i + TX_OUTPUT_SIZE ≤ TX_MAX_SIZE :=
  Nat.findGreatest_eq_iff

theorem fitting_spec (w : BRWallet) (size : ℕ → ℕ) : w.fitting size ≤ w.coinList.length ∧
    (w.fitting size ≠ 0 → size (w.fitting size) + TX_OUTPUT_SIZE ≤ TX_MAX_SIZE) ∧
    ∀ i, w.fitting size < i → i ≤ w.coinList.length → ¬ size i + TX_OUTPUT_SIZE ≤ TX_MAX_SIZE :=
  fitting_eq_iff.1 rfl

theorem feeAmount_start (hj : j ≤ w.coinList.length) :
    (w.selectionAt H total (startSelection H w os) j).feeAmount =
      w.feeFor (sizeWith (requestTx H os)) total j := by
  cases j with
  | zero =>
    rw [feeFor, sizeWith_zero]
    rfl
  | succ j => rw [selectionAt_feeAmount hj, size_selectionAt hj, feeFor]; rfl

theorem enough_start (hw : w.LedgerIdentity) (hj : j ≤ w.coinList.length) :
    Enough total w.minOutputAmount (w.selectionAt H total (startSelection H w os) j) ↔
      w.EnoughFor (sizeWith (requestTx H os)) total j := by
  rw [Enough, EnoughFor, balance_selectionAt hw rfl, feeAmount_start hj]

theorem tooLarge_start (hj : j ≤ w.coinList.length) :
    TooLarge (w.selectionAt H total (startSelection H w os) j) ↔
      ¬ sizeWith (requestTx H os) j + TX_OUTPUT_SIZE ≤ TX_MAX_SIZE :=
  tooLarge_selectionAt hj

/-- The transaction gets too large if not all coins fit, and no coins that fit are enough. -/
theorem select_tooLarge (hw : w.LedgerIdentity) : w.select H os = some (.tooLarge s) ↔
    w.fitting (sizeWith (requestTx H os)) ≠ w.coinList.length ∧
      ¬ w.Covered (sizeWith (requestTx H os)) (requestAmount os) ∧
      s = w.selectionAt H (requestAmount os) (startSelection H w os)
        (w.fitting (sizeWith (requestTx H os))) := by
  rw [select_tooLarge_iff hw]
  constructor
  · rintro ⟨j, hj, rfl, hearlier, hlarge⟩
    rw [tooLarge_start hj] at hlarge
    have hfits : w.fitting (sizeWith (requestTx H os)) = j := by
      refine fitting_eq_iff.2 ⟨hj.le, fun h0 => ?_, fun i hji hi hle => hlarge ?_⟩
      · obtain ⟨i, rfl⟩ := Nat.exists_eq_succ_of_ne_zero h0
        exact not_not.1 (mt (tooLarge_start hj.le).2 (hearlier i (Nat.lt_succ_self i)).1)
      · exact (Nat.add_le_add_right (sizeWith_mono hji) _).trans hle
    rw [hfits]
    refine ⟨hj.ne, ?_, rfl⟩
    rintro ⟨i, hi, h0, henough⟩
    rw [hfits] at hi
    obtain ⟨i, rfl⟩ := Nat.exists_eq_succ_of_ne_zero h0
    exact (hearlier i hi).2 ((enough_start hw (hi.trans hj.le)).2 henough)
  · rintro ⟨hne, hcovered, rfl⟩
    obtain ⟨hle, hfits, hlarge⟩ := fitting_spec w (sizeWith (requestTx H os))
    have hlt := Nat.lt_of_le_of_ne hle hne
    refine ⟨_, hlt, rfl, fun i hi => ⟨?_, ?_⟩, ?_⟩
    · rw [tooLarge_start (Nat.le_trans hi hle), not_not]
      exact (Nat.add_le_add_right (sizeWith_mono hi) _).trans (hfits (Nat.ne_of_gt (by omega)))
    · rw [enough_start hw (Nat.le_trans hi hle)]
      exact fun henough => hcovered ⟨i + 1, hi, Nat.succ_ne_zero i, henough⟩
    · rw [tooLarge_start hlt]
      exact hlarge _ (Nat.lt_succ_self _) hlt

/-! ## The calls of a stage -/

theorem requestAmount_append : requestAmount (os ++ [last]) = requestAmount os + last.amount := by
  simp [requestAmount]

/-- The size depends on the scripts of the outputs only. -/
theorem sizeWith_requestTx (h : os.map BRTxOutput.script = os'.map BRTxOutput.script) :
    sizeWith (requestTx H os) = sizeWith (requestTx H os') := by
  have hscripts : ∀ os : List BRTxOutput, (requestTx H os).outputs.map BRTxOutput.script =
      os.map BRTxOutput.script := by
    intro os
    have hpaid := congrArg (List.map Prod.snd) (requestTx_outputs (H := H) os {}).1
    rw [List.map_nil, List.nil_append, List.map_map, List.map_map] at hpaid
    exact hpaid
  have hscript : (requestTx H os).outputs.map BRTxOutput.script =
      (requestTx H os').outputs.map BRTxOutput.script := by
    rw [hscripts, hscripts, h]
  have hlength : (requestTx H os).outputs.length = (requestTx H os').outputs.length := by
    simpa using congrArg List.length hscript
  have hsizes : (requestTx H os).outputs.map BRTransaction.outputSize =
      (requestTx H os').outputs.map BRTransaction.outputSize := by
    have h := congrArg (List.map fun script => 8 + varIntSize (scriptLen script) +
      scriptLen script) hscript
    rw [List.map_map, List.map_map] at h
    exact h
  funext j
  rw [sizeWith, sizeWith, hlength, hsizes, requestTx, requestTx, (requestTx_outputs os {}).2,
    (requestTx_outputs os' {}).2]

theorem nextCall_eq_none (hw : w.LedgerIdentity)
    (h : w.fitting (sizeWith (requestTx H os)) = w.coinList.length ∨
      w.Covered (sizeWith (requestTx H os)) (requestAmount os) ∨
      w.Poor os.length (requestAmount os)) : w.nextCall H os = none := by
  rw [nextCall]
  cases hs : w.select H os with
  | none => rfl
  | some sel =>
    cases sel with
    | done s => rfl
    | tooLarge s =>
      obtain ⟨hfits, hcovered, -⟩ := (select_tooLarge hw).1 hs
      have hpoor := (h.resolve_left hfits).resolve_left hcovered
      rw [Poor] at hpoor
      rw [Option.bind_some]
      dsimp only
      rw [if_pos hpoor]

/-- The last output is reduced, or removed. -/
theorem nextCall_eq_some (os : List BRTxOutput) (last : BRTxOutput) (hw : w.LedgerIdentity)
    (hsize : sizeWith (requestTx H (os ++ [last])) = size)
    (htotal : requestAmount (os ++ [last]) = total)
    (hfits : w.fitting size ≠ w.coinList.length) (hcovered : ¬ w.Covered size total)
    (hpoor : ¬ w.Poor (os ++ [last]).length total) :
    w.nextCall H (os ++ [last]) =
      if last.amount >
          total + w.fittingFee size total + w.minOutputAmount - w.fittingWorth size then
        some (os ++ [{ last with amount :=
          last.amount - (total + w.fittingFee size total - w.fittingWorth size) }])
      else some os := by
  subst hsize htotal
  have hs := (select_tooLarge hw).2 ⟨hfits, hcovered, rfl⟩
  obtain ⟨hle, -⟩ := fitting_spec w (sizeWith (requestTx H (os ++ [last])))
  rw [Poor] at hpoor
  rw [nextCall, hs, Option.bind_some]
  dsimp only
  rw [if_neg hpoor, List.getLast?_concat, Option.map_some, smallerOutputs, List.dropLast_concat,
    feeAmount_start hle, balance_selectionAt hw rfl]
  rw [← fittingFee, ← fittingWorth, apply_ite some]

theorem call_stages (hm : outputs[m]? = some last) : (w.stages H outputs).call m total =
    outputs.take m ++ [{ last with amount := total - requestAmount (outputs.take m) }] := by
  dsimp only [stages]
  rw [hm]
  rfl

theorem take_succ_outputs (hm : outputs[m]? = some last) :
    outputs.take (m + 1) = outputs.take m ++ [last] := by
  rw [List.take_add_one, hm]
  rfl

theorem requestAmount_call (hm : outputs[m]? = some last) (total : UInt64) :
    requestAmount ((w.stages H outputs).call m total) = total := by
  rw [call_stages hm, requestAmount_append, UInt64.add_comm, UInt64.sub_add_cancel]

theorem sizeWith_call (hm : outputs[m]? = some last) (total : UInt64) :
    sizeWith (requestTx H ((w.stages H outputs).call m total)) = requestSize H outputs m := by
  refine sizeWith_requestTx ?_
  rw [call_stages hm, take_succ_outputs hm, List.map_append, List.map_append]
  rfl

theorem length_call (hm : outputs[m]? = some last) (total : UInt64) :
    ((w.stages H outputs).call m total).length = m + 1 := by
  obtain ⟨hlt, -⟩ := List.getElem?_eq_some_iff.1 hm
  rw [call_stages hm, List.length_append, List.length_take_of_le hlt.le, List.length_singleton]

/-- With its own total, a stage has the outputs of the request. -/
theorem call_start (hm : outputs[m]? = some last) :
    (w.stages H outputs).call m ((w.stages H outputs).start m) = outputs.take (m + 1) := by
  have hamount : (w.stages H outputs).start m - requestAmount (outputs.take m) = last.amount := by
    change requestAmount (outputs.take (m + 1)) - _ = _
    rw [take_succ_outputs hm, requestAmount_append, UInt64.add_comm, UInt64.add_sub_cancel]
  rw [call_stages hm, hamount, take_succ_outputs hm]

/-- The call for a total that does not stop the calls. -/
theorem nextCall_stages (hw : w.LedgerIdentity) (hm : outputs[m]? = some last)
    (hstops : ¬ (w.stages H outputs).stops m total) :
    w.nextCall H ((w.stages H outputs).call m total) =
      if total - requestAmount (outputs.take m) > total +
          w.fittingFee (requestSize H outputs m) total + w.minOutputAmount -
          w.fittingWorth (requestSize H outputs m) then
        some ((w.stages H outputs).call m ((w.stages H outputs).step m total))
      else some (outputs.take m) := by
  obtain ⟨hfits, hother⟩ := not_or.1 hstops
  obtain ⟨hcovered, hpoor⟩ := not_or.1 hother
  have hsize := sizeWith_call (H := H) (w := w) hm total
  have htotal := requestAmount_call (H := H) (w := w) hm total
  rw [← length_call (H := H) (w := w) hm total] at hpoor
  rw [call_stages hm] at hsize htotal hpoor
  rw [call_stages hm, call_stages hm, nextCall_eq_some _ _ hw hsize htotal hfits hcovered hpoor]
  have hamount : (w.stages H outputs).step m total - requestAmount (outputs.take m) =
      total - requestAmount (outputs.take m) -
        (total + w.fittingFee (requestSize H outputs m) total -
          w.fittingWorth (requestSize H outputs m)) := by
    dsimp only [stages]
    grind
  rw [hamount]

/-- The calls go through the stages. -/
theorem stages_follow (hw : w.LedgerIdentity) :
    (w.stages H outputs).Follow (w.nextCall H) [] 100 outputs.length where
  stops m hm total h := by
    have hlast := List.getElem?_eq_getElem hm
    refine nextCall_eq_none hw ?_
    rw [sizeWith_call hlast total, requestAmount_call hlast total, length_call hlast total]
    exact h
  step m hm total hstops hleaves := by
    rw [nextCall_stages hw (List.getElem?_eq_getElem hm) hstops, if_pos (UInt64.not_le.1 hleaves)]
  leaves m hm total hstops hleaves := by
    rw [nextCall_stages hw (List.getElem?_eq_getElem hm) hstops, if_neg (UInt64.not_lt.2 hleaves),
      call_start (List.getElem?_eq_getElem (Nat.lt_of_succ_lt hm))]
  bottom hn total hstops hleaves := by
    rw [nextCall_stages hw (List.getElem?_eq_getElem hn) hstops, if_neg (UInt64.not_lt.2 hleaves),
      List.take_zero]
  few m := by
    refine ⟨(Finset.range 100).image fun r => w.fittingWorth (requestSize H outputs m) -
      (w.baseFee (requestSize H outputs m) + UInt64.ofNat r), ?_, fun total => ?_⟩
    · exact Finset.card_image_le.trans (le_of_eq (Finset.card_range 100))
    · refine Finset.mem_image.2 ⟨w.rounding (requestSize H outputs m) total,
        Finset.mem_range.2 rounding_lt, ?_⟩
      rw [← fittingFee_eq]
      rfl

/-! ## The end of the calls -/

theorem call_ne_nil (hm : m < outputs.length) : (w.stages H outputs).call m total ≠ [] := by
  intro h
  have hlength := length_call (H := H) (w := w) (List.getElem?_eq_getElem hm) total
  rw [h] at hlength
  cases hlength

/-- The calls end where a stage stops, after the later stages have been left. -/
theorem endsWith_iff_stage (hw : w.LedgerIdentity) (hne : outputs ≠ []) :
    w.EndsWith H outputs kept ↔ ∃ m, m < outputs.length ∧ ∃ i, i ≤ 100 ∧
      (w.stages H outputs).EndsAt 100 outputs.length m i ∧
      kept = (w.stages H outputs).call m ((w.stages H outputs).value m i) := by
  obtain ⟨n, hn⟩ : ∃ n, outputs.length = n + 1 :=
    Nat.exists_eq_succ_of_ne_zero (mt List.eq_nil_of_length_eq_zero hne)
  have hlt : n < outputs.length := by omega
  have hsettles : Settles (w.nextCall H) (· ≠ [])
      ((w.stages H outputs).call n ((w.stages H outputs).start n)) kept ↔ _ :=
    (stages_follow hw).settles_iff (fun m b hm => call_ne_nil hm) (not_not.2 rfl) hlt
  rw [call_start (List.getElem?_eq_getElem hlt), ← hn, List.take_length] at hsettles
  rw [EndsWith, hsettles]
  simp only [hn, Nat.lt_succ_iff]

/-! ## Coins of one amount -/

/-- An output to the address of the samples. -/
def payOut (amount : UInt64) : BRTxOutput :=
  { address := keyAddress, amount, script := some (BRAddress.p2pkh (List.replicate 20 1)) }

/-- A wallet with `n` UTXOs that are worth `c` each. -/
def evenCoins (n : ℕ) (c : UInt64) : BRWallet :=
  { balance := UInt64.ofNat n * c, utxos := (List.range n).map fun i => ⟨1, UInt32.ofNat i⟩
    transactions := [0], allTx := AList.singleton 1 0
    heap := ⟨[some { txHash := 1, outputs := List.replicate n (payOut c) }]⟩ }

theorem evenCoins_output? (hn : n < 2 ^ 32) (hi : i < n) :
    (evenCoins n c).output? ⟨1, UInt32.ofNat i⟩ = some (payOut c) := by
  have houtput : (evenCoins n c).output? ⟨1, UInt32.ofNat i⟩ =
      (List.replicate n (payOut c))[(UInt32.ofNat i).toNat]? := rfl
  rw [houtput, UInt32.toNat_ofNat_of_lt' (hi.trans hn), List.getElem?_replicate, if_pos hi]

theorem evenCoins_coinList (hn : n < 2 ^ 32) (h0 : c ≠ 0) : (evenCoins n c).coinList =
    (List.range n).map fun i => ⟨⟨1, UInt32.ofNat i⟩, payOut c⟩ := by
  have hcoin : ∀ i ∈ List.range n, (evenCoins n c).coin? ⟨1, UInt32.ofNat i⟩ =
      some ⟨⟨1, UInt32.ofNat i⟩, payOut c⟩ := by
    intro i hi
    rw [coin?, evenCoins_output? hn (List.mem_range.1 hi), Option.bind_some]
    exact if_neg h0
  have hutxos : (evenCoins n c).utxos = (List.range n).map fun i => ⟨1, UInt32.ofNat i⟩ := rfl
  rw [coinList, hutxos, List.filterMap_map]
  exact (List.filterMap_congr hcoin).trans (congrFun List.filterMap_eq_map _)

theorem evenCoins_length (hn : n < 2 ^ 32) (h0 : c ≠ 0) : (evenCoins n c).coinList.length = n := by
  rw [evenCoins_coinList hn h0, List.length_map, List.length_range]

theorem evenCoins_worth (hn : n < 2 ^ 32) (h0 : c ≠ 0) (hj : j ≤ n) :
    (evenCoins n c).worth j = j * c.toNat := by
  have hamounts : ((evenCoins n c).coinList.take j).map (fun c => c.output.amount.toNat) =
      List.replicate j c.toNat := by
    rw [evenCoins_coinList hn h0, ← List.map_take, List.take_range, Nat.min_eq_left hj,
      List.map_map, List.eq_replicate_iff, List.length_map, List.length_range]
    refine ⟨rfl, fun n hn => ?_⟩
    obtain ⟨i, -, rfl⟩ := List.mem_map.1 hn
    rfl
  rw [worth, hamounts, List.sum_replicate_nat]

theorem evenCoins_ledgerIdentity (hn : n < 2 ^ 32) (hc : n * c.toNat < 2 ^ 64) :
    (evenCoins n c).LedgerIdentity := by
  refine ⟨?_, ?_, fun u hu => ?_⟩
  · have hamounts : (evenCoins n c).utxos.map (evenCoins n c).amount =
        List.replicate n c.toNat := by
      change ((List.range n).map fun i => (⟨1, UInt32.ofNat i⟩ : UTXO)).map _ = _
      rw [List.map_map, List.eq_replicate_iff, List.length_map, List.length_range]
      refine ⟨rfl, fun a ha => ?_⟩
      obtain ⟨i, hi, rfl⟩ := List.mem_map.1 ha
      rw [Function.comp_apply, amount, evenCoins_output? hn (List.mem_range.1 hi)]
      rfl
    have hcount : (UInt64.ofNat n).toNat = n := toNat_ofNat_of_lt (by omega)
    rw [hamounts, List.sum_replicate_nat, evenCoins, toNat_mul_of_lt (by rwa [hcount]), hcount]
  · refine List.nodup_range.map_on fun i hi j hj hij => ?_
    have hlt : ∀ i, i ∈ List.range n → (UInt32.ofNat i).toNat = i := fun i hi =>
      UInt32.toNat_ofNat_of_lt' ((List.mem_range.1 hi).trans hn)
    rw [← hlt i hi, ← hlt j hj]
    exact congrArg (fun u : UTXO => u.n.toNat) hij
  · obtain ⟨i, hi, rfl⟩ := List.mem_map.1 hu
    refine ⟨_, rfl, rfl, ?_⟩
    rw [UInt32.toNat_ofNat_of_lt' ((List.mem_range.1 hi).trans hn), List.length_replicate]
    exact List.mem_range.1 hi

/-- The size of a payment with `j` coins. -/
def payOutSize (j : ℕ) : ℕ := 43 + varIntSize j + 148 * j

theorem sizeWith_payOut : sizeWith (requestTx sampleHashes [payOut total]) = payOutSize := by
  funext j
  have h : sizeWith (requestTx sampleHashes [payOut total]) j =
    8 + varIntSize (0 + j) + 1 + (0 + 148 * j) + 34 := rfl
  rw [h, payOutSize, Nat.zero_add, Nat.zero_add]
  omega

theorem requestAmount_payOut : requestAmount [payOut total] = total := UInt64.add_zero total

/-- Of 676 coins, one does not fit. -/
theorem evenCoins_fitting (h0 : c ≠ 0) : (evenCoins 676 c).fitting payOutSize = 675 := by
  rw [fitting_eq_iff, evenCoins_length (by decide) h0]
  refine ⟨by decide, fun _ => by decide, fun i hi hle => ?_⟩
  obtain rfl : i = 676 := by omega
  decide

theorem evenCoins_fittingWorth (h0 : c ≠ 0) :
    (evenCoins 676 c).fittingWorth payOutSize = UInt64.ofNat (675 * c.toNat) := by
  rw [fittingWorth, evenCoins_fitting h0, evenCoins_worth (by decide) h0 (by decide)]

theorem evenCoins_fittingFee (h0 : c ≠ 0) : (evenCoins 676 c).fittingFee payOutSize total =
    (evenCoins 676 c).feeFor payOutSize total 675 := by
  rw [fittingFee, evenCoins_fitting h0]

/-- `j` of the coins are enough for a payment. -/
def EvenEnough (c total : UInt64) (j : ℕ) : Prop :=
  UInt64.ofNat (j * c.toNat) = total + (evenCoins 676 c).feeFor payOutSize total j ∨
    UInt64.ofNat (j * c.toNat) ≥ total + (evenCoins 676 c).feeFor payOutSize total j +
      (evenCoins 676 c).minOutputAmount

instance : DecidablePred (EvenEnough c total) := fun _ => instDecidableOr

theorem evenCoins_covered (h0 : c ≠ 0) : (evenCoins 676 c).Covered payOutSize total ↔
    ∃ j, j < 676 ∧ j ≠ 0 ∧ EvenEnough c total j := by
  rw [Covered, evenCoins_fitting h0]
  refine exists_congr fun j => ?_
  rw [Nat.lt_succ_iff (m := j) (n := 675)]
  refine and_congr_right fun hj => and_congr_right fun _ => ?_
  rw [EnoughFor, EvenEnough, evenCoins_worth (by decide) h0 (by omega)]

/-- A payment that is not covered is tried with another amount. -/
theorem evenCoins_nextCall (c total total' : UInt64) (hc : 676 * c.toNat < 2 ^ 64) (h0 : c ≠ 0)
    (hcovered : ¬ ∃ j, j < 676 ∧ j ≠ 0 ∧ EvenEnough c total j)
    (hrich : total + txFee (evenCoins 676 c).feePerKb 100126 ≤ (evenCoins 676 c).balance)
    (hmore : total > total + (evenCoins 676 c).feeFor payOutSize total 675 +
      (evenCoins 676 c).minOutputAmount - UInt64.ofNat (675 * c.toNat))
    (hstep : UInt64.ofNat (675 * c.toNat) - (evenCoins 676 c).feeFor payOutSize total 675 =
      total') :
    (evenCoins 676 c).nextCall sampleHashes [payOut total] = some [payOut total'] := by
  have hcount : (evenCoins 676 c).utxos.length = 676 := by
    rw [evenCoins, List.length_map, List.length_range]
  have hfits : (evenCoins 676 c).fitting payOutSize ≠ (evenCoins 676 c).coinList.length := by
    rw [evenCoins_fitting h0, evenCoins_length (by decide) h0]
    decide
  have hpoor : ¬ (evenCoins 676 c).Poor 1 total := by
    rw [Poor, hcount]
    exact UInt64.not_lt.2 hrich
  have hcall := nextCall_eq_some [] (payOut total)
    (evenCoins_ledgerIdentity (by decide) hc) sizeWith_payOut requestAmount_payOut hfits
    (mt (evenCoins_covered h0).1 hcovered) hpoor
  have hlast : (payOut total).amount = total := rfl
  have hamount : total - (total + (evenCoins 676 c).feeFor payOutSize total 675 -
      UInt64.ofNat (675 * c.toNat)) = total' := by
    grind
  rw [evenCoins_fittingWorth h0, evenCoins_fittingFee h0, hlast, if_pos hmore, hamount,
    List.nil_append, List.nil_append] at hcall
  simp only [payOut] at hcall ⊢
  exact hcall

/-- The payment is that of 675 coins exactly, and no fewer are enough. -/
theorem evenCoins_select (c total : UInt64) (hc : 676 * c.toNat < 2 ^ 64) (h0 : c ≠ 0)
    (hexact : total + (evenCoins 676 c).feeFor payOutSize total 675 = UInt64.ofNat (675 * c.toNat))
    (hfirst : ∀ j, j < 675 → j ≠ 0 → ¬ EvenEnough c total j) :
    ∃ s, (evenCoins 676 c).select sampleHashes [payOut total] = some (.done s) ∧
      requestAmount [payOut total] + s.feeAmount = s.balance := by
  have hw : (evenCoins 676 c).LedgerIdentity := evenCoins_ledgerIdentity (by decide) hc
  have hlength : (evenCoins 676 c).coinList.length = 676 := evenCoins_length (by decide) h0
  have hsize : sizeWith (requestTx sampleHashes [payOut total]) = payOutSize := sizeWith_payOut
  have hworth : (evenCoins 676 c).worth 675 = 675 * c.toNat :=
    evenCoins_worth (by decide) h0 (by decide)
  refine ⟨_, (select_done_iff hw).2 ⟨675, ?_, rfl, fun i hi => ?_, fun i hi => ?_,
    Or.inr ⟨by decide, ?_⟩⟩, ?_⟩
  · omega
  · rw [tooLarge_start (by omega), not_not]
    exact (Nat.add_le_add_right (sizeWith_mono hi) _).trans (by rw [hsize]; decide)
  · rw [requestAmount_payOut, enough_start hw (by omega), hsize, EnoughFor,
      evenCoins_worth (by decide) h0 (by omega)]
    exact hfirst (i + 1) hi (Nat.succ_ne_zero i)
  · rw [requestAmount_payOut, enough_start hw (by omega), hsize, EnoughFor, hworth]
    exact Or.inl hexact.symm
  · rw [requestAmount_payOut, feeAmount_start (by omega), balance_selectionAt hw rfl, hsize,
      hworth]
    exact hexact

/-- All coins fit for the first total. -/
theorem endsAt_coinWallet : (coinWallet.stages sampleHashes [smallOutput]).EndsAt 100 1 0 0 := by
  refine ⟨fun k hk hlt => ?_, Stages.Reaches.zero, Or.inl (by decide +kernel)⟩
  omega

/-- Coin selection ends without a call with no outputs exactly if, for some number of outputs, one
    of the first 101 totals stops the calls. -/
theorem endsWith_iff (hw : w.LedgerIdentity) (hne : outputs ≠ []) :
    (∃ kept, w.EndsWith H outputs kept) ↔ ∃ m, m < outputs.length ∧ ∃ i, i ≤ 100 ∧
      (w.stages H outputs).EndsAt 100 outputs.length m i := by
  constructor
  · rintro ⟨kept, h⟩
    obtain ⟨m, hm, i, hi, hend, -⟩ := (endsWith_iff_stage hw hne).1 h
    exact ⟨m, hm, i, hi, hend⟩
  · rintro ⟨m, hm, i, hi, hend⟩
    exact ⟨_, (endsWith_iff_stage hw hne).2 ⟨m, hm, i, hi, hend, rfl⟩⟩

theorem endsWith_iff_coinWallet : ∃ kept, coinWallet.EndsWith sampleHashes [smallOutput] kept :=
  (endsWith_iff coinWallet_ledgerIdentity (List.cons_ne_nil _ _)).2
    ⟨0, Nat.zero_lt_one, 0, Nat.zero_le _, endsAt_coinWallet⟩

/-- Two totals follow each other again and again, 50 above and 50 below what the coins that fit can
    pay for. -/
theorem not_endsWith : ¬ ∀ (H : Hashes) (w : BRWallet) (outputs : List BRTxOutput),
    w.LedgerIdentity → outputs ≠ [] → ∃ kept, w.EndsWith H outputs kept := by
  intro h
  have hw : (evenCoins 676 10000050).LedgerIdentity :=
    evenCoins_ledgerIdentity (by decide) (by decide)
  obtain ⟨kept, hends⟩ := h sampleHashes (evenCoins 676 10000050) [payOut 6650033750] hw
    (List.cons_ne_nil _ _)
  have hcall := evenCoins_nextCall 10000050 6650033750 6650033700 (by decide) (by decide)
    (by decide +kernel) (by decide +kernel) (by decide +kernel) (by decide +kernel)
  have hback := evenCoins_nextCall 10000050 6650033700 6650033750 (by decide) (by decide)
    (by decide +kernel) (by decide +kernel) (by decide +kernel) (by decide +kernel)
  refine not_settles (fun x => x = [payOut 6650033750] ∨ x = [payOut 6650033700]) ?_
    (Or.inl rfl) hends
  rintro x (rfl | rfl)
  · exact ⟨_, hcall, Or.inr rfl⟩
  · exact ⟨_, hback, Or.inl rfl⟩

end BRWallet

end RavenWallet
