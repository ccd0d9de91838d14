/-
  The assets that a transaction creates (`BRWalletAssetsReceivedFromTx` and
  `BRTransactionDecompose` of BRWallet.c).

  Both are called twice: without an array they count what they will write, and
  then they write into an array of that size.

  * `reports_iff`: the counted assets are written exactly if their outputs come
    before all others;
  * `decomposes_iff`: when a transaction is taken apart into as many entries as
    were counted, and all the outputs are among them.
-/
import RavenWallet.Core.TxSign
import RavenWallet.Wallet.Ops

namespace RavenWallet

namespace BRWallet

variable (H : Hashes) (w : BRWallet) (tx : BRTransaction)

/-! ## Received assets -/

/-- The outputs that `BRWalletAssetsReceivedFromTx` looks for. -/
def receivesAsset (o : BRTxOutput) : Bool :=
  decide (o.amount = 0) && !isScriptTransferAsset (o.script.getD []) &&
    decide (o.address ∈ w.allAddrs)

/-- `BRWalletAssetsReceivedFromTx` without an array. -/
def assetsReceivedCount : ℕ := tx.outputs.countP w.receivesAsset

/-- The body of its loop over an array; the output and the asset have the same index. -/
def fillAsset (s : List BRAsset × ℕ) (i : ℕ) : Option (List BRAsset × ℕ) := do
  let output ← tx.outputs[i]?
  if w.receivesAsset output then do
    let asset ← s.1[i]?
    let (asset, _) ← getAssetData (output.script.getD []) asset
    some (s.1.set i asset, s.2 + 1)
  else some s

/-- `BRWalletAssetsReceivedFromTx` with an array; fails where an output is read that is not
    there. -/
def assetsReceivedFromTx (assets : List BRAsset) : Option (List BRAsset × ℕ) :=
  (List.range assets.length).foldlM (w.fillAsset tx) (assets, 0)

/-- An array of the counted size is filled with the data of the outputs that are looked for, in
    order, and their number is returned. -/
def ReportsAssets : Prop :=
  ∀ assets : List BRAsset, assets.length = w.assetsReceivedCount tx →
    ∃ filled, w.assetsReceivedFromTx tx assets = some (filled, w.assetsReceivedCount tx) ∧
      ∀ (k : ℕ) (asset : BRAsset) (o : BRTxOutput), assets[k]? = some asset →
        (tx.outputs.filter w.receivesAsset)[k]? = some o →
          ∃ r, filled[k]? = some r ∧ getAssetData (o.script.getD []) asset = some (r, true)

/-- The outputs that are looked for come first, and each carries an asset that can be read. -/
def AssetsFirst : Prop :=
  ∃ front back, tx.outputs = front ++ back ∧
    (∀ o ∈ front, w.receivesAsset o ∧
      ∀ asset, ∃ r, getAssetData (o.script.getD []) asset = some (r, true)) ∧
    ∀ o ∈ back, ¬ w.receivesAsset o

section
variable {w tx} {s t : List BRAsset × ℕ} {l : List ℕ}

/-- What is returned is the number of outputs that were found. -/
theorem foldlM_fillAsset_count (h : l.foldlM (w.fillAsset tx) s = some t) :
    t.2 = s.2 + l.countP fun i => tx.outputs[i]?.any w.receivesAsset := by
  induction l generalizing s with
  | nil =>
    obtain rfl := Option.some.inj h
    rfl
  | cons i l ih =>
    rw [List.foldlM_cons] at h
    obtain ⟨u, hu, h⟩ := Option.bind_eq_some_iff.1 h
    rw [ih h, List.countP_cons]
    rw [fillAsset] at hu
    obtain ⟨o, ho, hu⟩ := Option.bind_eq_some_iff.1 hu
    rw [ho, Option.any_some]
    split_ifs at hu ⊢ with hreceives
    · obtain ⟨asset, -, hu⟩ := Option.bind_eq_some_iff.1 hu
      obtain ⟨r, -, hu⟩ := Option.bind_eq_some_iff.1 hu
      obtain rfl := Option.some.inj hu
      dsimp only
      omega
    · obtain rfl := Option.some.inj hu
      rfl

/-- As long as each output is found and can be read, its data are written beside it. -/
theorem foldlM_fillAsset {assets : List BRAsset} {m : ℕ} (hm : m ≤ assets.length)
    (hall : ∀ i < m, ∃ o, tx.outputs[i]? = some o ∧ w.receivesAsset o ∧
      ∀ asset, ∃ r, getAssetData (o.script.getD []) asset = some (r, true)) :
    ∃ filled, (List.range m).foldlM (w.fillAsset tx) (assets, 0) = some (filled, m) ∧
      filled.length = assets.length ∧ (∀ k ≥ m, filled[k]? = assets[k]?) ∧
      ∀ k < m, ∀ (asset : BRAsset) (o : BRTxOutput), assets[k]? = some asset →
        tx.outputs[k]? = some o →
          ∃ r, filled[k]? = some r ∧ getAssetData (o.script.getD []) asset = some (r, true) := by
  induction m with
  | zero =>
    exact ⟨assets, rfl, rfl, fun _ _ => rfl, fun k hk => absurd hk (Nat.not_lt_zero k)⟩
  | succ m ih =>
    obtain ⟨filled, hloop, hlen, hrest, hdone⟩ :=
      ih (Nat.le_of_succ_le hm) fun i hi => hall i (Nat.lt_succ_of_lt hi)
    obtain ⟨o, ho, hreceives, hread⟩ := hall m (Nat.lt_succ_self m)
    have hasset : filled[m]? = some assets[m] := by
      rw [hrest m le_rfl, List.getElem?_eq_getElem]
    obtain ⟨r, hr⟩ := hread assets[m]
    have hstep : w.fillAsset tx (filled, m) m = some (filled.set m r, m + 1) := by
      rw [fillAsset, ho]
      change (if w.receivesAsset o then _ else _) = _
      rw [if_pos hreceives]
      dsimp only
      rw [hasset]
      change (getAssetData (o.script.getD []) assets[m]).bind _ = _
      rw [hr]
      rfl
    refine ⟨filled.set m r, ?_, by rw [List.length_set, hlen], ?_, ?_⟩
    · rw [List.range_succ, List.foldlM_append, hloop]
      change (w.fillAsset tx (filled, m) m).bind some = _
      rw [hstep, Option.bind_some]
    · intro k hk
      rw [List.getElem?_set_ne (by omega)]
      exact hrest k (by omega)
    · intro k hk asset o' hk' ho'
      rcases Nat.lt_succ_iff_lt_or_eq.1 hk with hlt | rfl
      · rw [List.getElem?_set_ne (by omega)]
        exact hdone k hlt asset o' hk' ho'
      · obtain rfl := Option.some.inj (ho.symm.trans ho')
        rw [List.getElem?_eq_getElem (by omega)] at hk'
        obtain rfl := Option.some.inj hk'
        exact ⟨r, List.getElem?_set_self (by omega), hr⟩

/-- The outputs that are found are those in front. -/
theorem filter_front {front back : List BRTxOutput} (h : tx.outputs = front ++ back)
    (hfront : ∀ o ∈ front, w.receivesAsset o) (hback : ∀ o ∈ back, ¬ w.receivesAsset o) :
    tx.outputs.filter w.receivesAsset = front := by
  rw [h, List.filter_append, List.filter_eq_self.2 hfront, List.filter_eq_nil_iff.2 hback,
    List.append_nil]

/-- If as many outputs are found from the start on as are found at all, then they come first. -/
theorem front_of_count {n : ℕ} (hcount : w.assetsReceivedCount tx = n)
    (h : (List.range n).countP (fun i => tx.outputs[i]?.any w.receivesAsset) = n) :
    (∀ o ∈ tx.outputs.take n, w.receivesAsset o) ∧
      ∀ o ∈ tx.outputs.drop n, ¬ w.receivesAsset o := by
  have hmatch : ∀ i ∈ List.range n, tx.outputs[i]?.any w.receivesAsset := by
    refine List.countP_eq_length.1 ?_
    rw [h, List.length_range]
  have hle : n ≤ tx.outputs.length := hcount ▸ List.countP_le_length
  have hfront : ∀ o ∈ tx.outputs.take n, w.receivesAsset o := by
    intro o ho
    obtain ⟨i, hi, rfl⟩ := List.getElem_of_mem ho
    rw [List.length_take] at hi
    have hat := hmatch i (List.mem_range.2 (by omega))
    rw [List.getElem?_eq_getElem (by omega), Option.any_some] at hat
    rwa [List.getElem_take]
  refine ⟨hfront, List.countP_eq_zero.1 ?_⟩
  have hsplit : (tx.outputs.take n).countP w.receivesAsset +
      (tx.outputs.drop n).countP w.receivesAsset = n := by
    rw [← List.countP_append, List.take_append_drop]
    exact hcount
  rw [List.countP_eq_length.2 hfront, List.length_take_of_le hle] at hsplit
  omega

end

/-- What was counted is written exactly if the outputs that are looked for come first, and each
    carries an asset that can be read. -/
theorem reports_iff : w.ReportsAssets tx ↔ w.AssetsFirst tx := by
  constructor
  · intro h
    have hcounted : (List.range (w.assetsReceivedCount tx)).countP
        (fun i => tx.outputs[i]?.any w.receivesAsset) = w.assetsReceivedCount tx := by
      obtain ⟨filled, hloop, -⟩ := h (List.replicate (w.assetsReceivedCount tx) {}) (by simp)
      have hcount := foldlM_fillAsset_count hloop
      rw [List.length_replicate, Nat.zero_add] at hcount
      exact hcount.symm
    obtain ⟨hfront, hback⟩ := front_of_count rfl hcounted
    have hsplit := (List.take_append_drop (w.assetsReceivedCount tx) tx.outputs).symm
    refine ⟨_, _, hsplit, fun o ho => ⟨hfront o ho, fun asset => ?_⟩, hback⟩
    obtain ⟨i, hi, hget⟩ := List.getElem_of_mem ho
    obtain ⟨filled, -, hfilled⟩ :=
      h (List.replicate (w.assetsReceivedCount tx) asset) List.length_replicate
    have hlt : i < w.assetsReceivedCount tx := by
      rw [List.length_take] at hi
      omega
    obtain ⟨r, -, hr⟩ := hfilled i asset o
      (by rw [List.getElem?_replicate, if_pos hlt])
      (by rw [filter_front hsplit hfront hback, List.getElem?_eq_getElem hi, hget])
    exact ⟨r, hr⟩
  · rintro ⟨front, back, hsplit, hfront, hback⟩ assets hlen
    have hfilter := filter_front hsplit (fun o ho => (hfront o ho).1) hback
    have hcount : w.assetsReceivedCount tx = front.length := by
      rw [assetsReceivedCount, List.countP_eq_length_filter, hfilter]
    rw [hcount] at hlen ⊢
    obtain ⟨filled, hloop, -, -, hdone⟩ := @foldlM_fillAsset w tx _ _ le_rfl
      fun i (hi : i < assets.length) => by
        rw [hlen] at hi
        refine ⟨front[i], ?_, hfront _ (List.getElem_mem hi)⟩
        rw [hsplit, List.getElem?_append_left hi, List.getElem?_eq_getElem hi]
    rw [hlen] at hloop hdone
    refine ⟨filled, ?_, fun k asset o hasset ho => ?_⟩
    · rw [assetsReceivedFromTx, hlen, hloop]
    · rw [hfilter] at ho
      obtain ⟨hk, -⟩ := List.getElem?_eq_some_iff.1 ho
      refine hdone k hk asset o hasset ?_
      rw [hsplit, List.getElem?_append_left hk, ho]

/-- What was burnt, and behind it the owner of the asset. -/
def issuedOwner : BRTransaction where
  outputs := [{ address := [9], amount := 50000000000 }, {
    address := [1]
    script := some (BRAddress.p2pkh (List.replicate 20 0) ++
      assetSuffix (BRTxOutput.setOwnerAssetScript.payload
        { name := [65, 65, 65], nameLen := 3 })) }]

theorem not_reports : ¬ ∀ (w : BRWallet) (tx : BRTransaction), w.ReportsAssets tx := by
  intro h
  obtain ⟨filled, hloop, -⟩ := h { allAddrs := {[1]} } issuedOwner [{}] (by decide +kernel)
  have hnone : assetsReceivedFromTx { allAddrs := {[1]} } issuedOwner [{}] = some ([{}], 0) := by
    decide +kernel
  have hone : assetsReceivedCount { allAddrs := {[1]} } issuedOwner = 1 := by decide +kernel
  rw [hnone, hone] at hloop
  cases hloop

/-! ## Decomposition -/

/-- The outputs that get an entry of their own. -/
def keepsAsset (o : BRTxOutput) : Bool :=
  isScriptAsset (o.script.getD []) && !isScriptTransferAsset (o.script.getD []) &&
    decide (o.address ∈ w.allAddrs)

/-- Whether there is an entry for what is burnt. -/
def burns (fuel : ℕ) : Option Bool :=
  if w.amountSentByTx tx > 0 then w.transactionIsValid fuel tx else some false

end BRWallet

/-- What `BRTransactionAddInput` makes of the fields of an input. -/
def BRTxInput.copy (H : Hashes) (input : BRTxInput) : BRTxInput :=
  let copied := { input with
    address := (input.script.map (BRAddress.fromScriptPubKey H)).getD []
    signature := none }
  match input.signature with
  | none => copied
  | some signature => copied.setSignature H signature

/-- What `BRTransactionAddOutput` makes of the fields of an output. -/
def BRTxOutput.copy (H : Hashes) (output : BRTxOutput) : BRTxOutput :=
  { output with address := (output.script.map (BRAddress.fromScriptPubKey H)).getD [] }

/-- What an output pays, and under which script. -/
def BRTxOutput.content (output : BRTxOutput) : UInt64 × Option Bytes :=
  (output.amount, output.script)

namespace BRWallet

variable (H : Hashes) (w : BRWallet) (tx : BRTransaction)

/-- The loop body over the inputs.  The script that is tested belongs to the output of `tx` itself
    with the index of the output that is spent. -/
def burnInput (inputs : List BRTxInput) (input : BRTxInput) : Option (List BRTxInput) := do
  let output ← tx.outputs[input.index.toNat]?
  some (if isScriptAsset (output.script.getD []) then inputs else inputs ++ [input.copy H])

/-- The entry for what is burnt. -/
def burnEntry : Option BRTransaction := do
  let inputs ← tx.inputs.foldlM (burnInput H tx) []
  let outputs := tx.outputs.filter fun o => !isScriptAsset (o.script.getD [])
  some { tx with inputs, outputs := outputs.map (BRTxOutput.copy H), asset := [] }

/-- The entry for an asset; `NewAsset` gives an empty one. -/
def assetEntry (o : BRTxOutput) : Option BRTransaction := do
  let (asset, _) ← getAssetData (o.script.getD []) {}
  some { tx with inputs := [], outputs := [o.copy H], asset := [asset] }

/-- The next of `txsCount` entries; fails behind the last one. -/
def pushEntry (txsCount : ℕ) (entries : List BRTransaction) (entry : Option BRTransaction) :
    Option (List BRTransaction) := do
  let entry ← entry
  if entries.length < txsCount then some (entries ++ [entry]) else none

/-- The loop body over the outputs. -/
def keepOutput (txsCount : ℕ) (entries : List BRTransaction) (o : BRTxOutput) :
    Option (List BRTransaction) :=
  if w.keepsAsset o then pushEntry txsCount entries (assetEntry H tx o) else some entries

/-- `BRTransactionDecompose` into an array of `txsCount` entries, which are as `BRTransactionNew`
    leaves them; without an array if that is zero. -/
def decompose (fuel : ℕ) (txsCount : ℕ) : Option (List BRTransaction × ℕ) := do
  let burn ← w.burns tx fuel
  let asstCount := w.assetsReceivedCount tx
  if txsCount = 0 then some ([], if burn then asstCount + 1 else asstCount)
  else do
    let entries ← if burn then pushEntry txsCount [] (burnEntry H tx) else some []
    let entries ← tx.outputs.foldlM (w.keepOutput H tx txsCount) entries
    some (entries, entries.length)

/-- The transaction is taken apart into as many entries as the call without an array returned, and
    their outputs are those that carry no asset, if there is an entry for what is burnt, and the
    assets that the wallet keeps. -/
def Decomposes : Prop :=
  ∃ burn n entries N, ∀ fuel ≥ N, w.burns tx fuel = some burn ∧
    w.decompose H tx fuel 0 = some ([], n) ∧ w.decompose H tx fuel n = some (entries, n) ∧
    (entries.flatMap BRTransaction.outputs).map BRTxOutput.content =
      ((if burn then tx.outputs.filter fun o => !isScriptAsset (o.script.getD []) else []) ++
        tx.outputs.filter w.keepsAsset).map BRTxOutput.content

/-- The transactions that are taken apart. -/
structure Decomposable : Prop where
  /-- it is found out whether the transaction is valid -/
  answers : w.amountSentByTx tx > 0 → ∃ b, Answers (w.transactionIsValid · tx) b
  /-- as many outputs without asset are counted as there are assets that are not -/
  counted : tx.outputs.countP (fun o => decide (o.amount = 0) &&
      !isScriptAsset (o.script.getD []) && decide (o.address ∈ w.allAddrs)) =
    tx.outputs.countP fun o => decide (o.amount ≠ 0) && w.keepsAsset o
  /-- there is an output with the index of each output that is spent -/
  inputs : w.amountSentByTx tx > 0 → Answers (w.transactionIsValid · tx) true →
    ∀ input ∈ tx.inputs, input.index.toNat < tx.outputs.length
  /-- the assets can be read -/
  reads : ∀ o ∈ tx.outputs, w.keepsAsset o → (getAssetData (o.script.getD []) {}).isSome

section
variable {H w tx}

theorem countP_add_countP {p q r s : BRTxOutput → Bool}
    (h : ∀ o, (p o).toNat + (q o).toNat = (r o).toNat + (s o).toNat) (os : List BRTxOutput) :
    os.countP p + os.countP q = os.countP r + os.countP s := by
  induction os with
  | nil => rfl
  | cons o os ih =>
    have ho := h o
    have hcons : ∀ p : BRTxOutput → Bool, (o :: os).countP p = os.countP p + (p o).toNat := by
      intro p
      rw [List.countP_cons]
      cases p o <;> rfl
    rw [hcons, hcons, hcons, hcons]
    omega

/-- The outputs that are counted and those that are kept differ in these two kinds. -/
theorem counted_iff : w.assetsReceivedCount tx = tx.outputs.countP w.keepsAsset ↔
    tx.outputs.countP (fun o => decide (o.amount = 0) && !isScriptAsset (o.script.getD []) &&
      decide (o.address ∈ w.allAddrs)) =
    tx.outputs.countP fun o => decide (o.amount ≠ 0) && w.keepsAsset o := by
  have hkinds : ∀ o : BRTxOutput,
      (w.receivesAsset o).toNat + (decide (o.amount ≠ 0) && w.keepsAsset o).toNat =
        (w.keepsAsset o).toNat + (decide (o.amount = 0) && !isScriptAsset (o.script.getD []) &&
          decide (o.address ∈ w.allAddrs)).toNat := by
    intro o
    have htransfer : isScriptTransferAsset (o.script.getD []) →
        isScriptAsset (o.script.getD []) := by
      intro h
      rw [isScriptAsset, h]
      rfl
    rw [receivesAsset, keepsAsset, decide_not]
    revert htransfer
    cases isScriptTransferAsset (o.script.getD []) <;> cases isScriptAsset (o.script.getD []) <;>
      cases decide (o.amount = 0) <;> cases decide (o.address ∈ w.allAddrs) <;> simp
  have hsum := countP_add_countP hkinds tx.outputs
  rw [assetsReceivedCount]
  omega

theorem foldlM_burnInput {inputs acc : List BRTxInput} :
    (inputs.foldlM (burnInput H tx) acc).isSome ↔
      ∀ input ∈ inputs, input.index.toNat < tx.outputs.length := by
  induction inputs generalizing acc with
  | nil => simp
  | cons input inputs ih =>
    rw [List.foldlM_cons, List.forall_mem_cons, burnInput]
    by_cases hlt : input.index.toNat < tx.outputs.length
    · rw [List.getElem?_eq_getElem hlt]
      exact ih.trans (iff_and_self.2 fun _ => hlt)
    · rw [List.getElem?_eq_none_iff.2 (Nat.not_lt.1 hlt)]
      exact iff_of_false (by simp) fun h => hlt h.1

theorem burnEntry_isSome : (burnEntry H tx).isSome ↔
    ∀ input ∈ tx.inputs, input.index.toNat < tx.outputs.length := by
  rw [← @foldlM_burnInput H tx _ [], burnEntry]
  cases tx.inputs.foldlM (burnInput H tx) [] <;> simp

theorem burnEntry_outputs {entry : BRTransaction} (h : burnEntry H tx = some entry) :
    entry.outputs.map BRTxOutput.content =
      (tx.outputs.filter fun o => !isScriptAsset (o.script.getD [])).map BRTxOutput.content := by
  obtain ⟨inputs, -, h⟩ := Option.bind_eq_some_iff.1 h
  obtain rfl := Option.some.inj h
  rw [List.map_map]
  rfl

theorem assetEntry_isSome (o : BRTxOutput) :
    (assetEntry H tx o).isSome ↔ (getAssetData (o.script.getD []) {}).isSome := by
  rw [assetEntry]
  cases getAssetData (o.script.getD []) {} <;> simp

theorem assetEntry_outputs {o : BRTxOutput} {entry : BRTransaction}
    (h : assetEntry H tx o = some entry) : entry.outputs.map BRTxOutput.content = [o.content] := by
  obtain ⟨asset, -, h⟩ := Option.bind_eq_some_iff.1 h
  obtain rfl := Option.some.inj h
  rfl

/-- The entries of some outputs have these outputs. -/
theorem mapM_assetEntry {os : List BRTxOutput} {es : List BRTransaction}
    (h : os.mapM (assetEntry H tx) = some es) :
    (es.flatMap BRTransaction.outputs).map BRTxOutput.content = os.map BRTxOutput.content ∧
      es.length = os.length := by
  induction os generalizing es with
  | nil =>
    obtain rfl := Option.some.inj h
    exact ⟨rfl, rfl⟩
  | cons o os ih =>
    obtain ⟨e, es', he, hes, rfl⟩ := mapM_cons_eq_some.1 h
    obtain ⟨houts, hlen⟩ := ih hes
    rw [List.flatMap_cons, List.map_append, assetEntry_outputs he, houts, List.length_cons, hlen]
    exact ⟨rfl, rfl⟩

/-- The loop over the outputs adds the entries of those that are kept, while there is room. -/
theorem foldlM_keepOutput {n : ℕ} {os : List BRTxOutput} {es es' : List BRTransaction} :
    os.foldlM (w.keepOutput H tx n) es = some es' ↔
    ∃ added, (os.filter w.keepsAsset).mapM (assetEntry H tx) = some added ∧ es' = es ++ added ∧
      (added = [] ∨ es'.length ≤ n) := by
  induction os generalizing es with
  | nil =>
    rw [List.foldlM_nil, List.filter_nil, List.mapM_nil]
    constructor
    · intro h
      obtain rfl := Option.some.inj h
      exact ⟨[], rfl, (List.append_nil _).symm, Or.inl rfl⟩
    · rintro ⟨added, hadded, rfl, -⟩
      obtain rfl := Option.some.inj hadded
      rw [List.append_nil]
      rfl
  | cons o os ih =>
    rw [List.foldlM_cons, keepOutput]
    by_cases hkeeps : w.keepsAsset o
    · rw [if_pos hkeeps, List.filter_cons_of_pos hkeeps]
      cases he : assetEntry H tx o with
      | none =>
        refine iff_of_false (by simp [pushEntry]) ?_
        rintro ⟨added, hadded, -⟩
        obtain ⟨e, added', he', -⟩ := mapM_cons_eq_some.1 hadded
        rw [he] at he'
        cases he'
      | some e =>
        by_cases hroom : es.length < n
        · have hpush : pushEntry n es (some e) = some (es ++ [e]) := if_pos hroom
          rw [hpush]
          refine ih.trans ?_
          constructor
          · rintro ⟨added, hadded, rfl, hle⟩
            refine ⟨e :: added, mapM_cons_eq_some.2 ⟨e, added, he, hadded, rfl⟩, by simp,
              Or.inr ?_⟩
            rcases hle with rfl | hle
            · simp
              omega
            · exact hle
          · rintro ⟨added, hadded, rfl, hle⟩
            obtain ⟨e', added', he', hadded', rfl⟩ := mapM_cons_eq_some.1 hadded
            obtain rfl := Option.some.inj (he.symm.trans he')
            refine ⟨added', hadded', by simp, Or.inr ?_⟩
            rcases hle with hnil | hle
            · cases hnil
            · exact hle
        · have hpush : pushEntry n es (some e) = none := if_neg hroom
          rw [hpush]
          refine iff_of_false (by simp) ?_
          rintro ⟨added, hadded, rfl, hle⟩
          obtain ⟨e', added', -, -, rfl⟩ := mapM_cons_eq_some.1 hadded
          rcases hle with hnil | hle
          · cases hnil
          · rw [List.length_append, List.length_cons] at hle
            omega
    · rw [if_neg hkeeps, List.filter_cons_of_neg hkeeps]
      exact ih

variable (w tx) in
/-- The size that is counted. -/
def entriesCount (burn : Bool) : ℕ :=
  if burn then w.assetsReceivedCount tx + 1 else w.assetsReceivedCount tx

theorem decompose_zero {fuel : ℕ} {burn : Bool} (hburn : w.burns tx fuel = some burn) :
    w.decompose H tx fuel 0 = some ([], w.entriesCount tx burn) := by
  rw [decompose, hburn]
  rfl

theorem pushEntry_first {n : ℕ} (hn : n ≠ 0) (entry : Option BRTransaction) :
    pushEntry n [] entry = entry.map fun e => [e] := by
  cases entry with
  | none => rfl
  | some e => exact if_pos (Nat.pos_of_ne_zero hn)

variable (H tx) in
/-- The entry for what is burnt, if there is one. -/
def firstEntry (burn : Bool) : Option (List BRTransaction) :=
  if burn then (burnEntry H tx).map fun e => [e] else some []

theorem decompose_eq_some {fuel n : ℕ} {burn : Bool} (hburn : w.burns tx fuel = some burn)
    (hn : n ≠ 0) {r : List BRTransaction × ℕ} : w.decompose H tx fuel n = some r ↔
      ∃ first added, firstEntry H tx burn = some first ∧
        (tx.outputs.filter w.keepsAsset).mapM (assetEntry H tx) = some added ∧
        r = (first ++ added, (first ++ added).length) ∧
        (added = [] ∨ (first ++ added).length ≤ n) := by
  have heq : w.decompose H tx fuel n = (firstEntry H tx burn).bind fun first =>
      (tx.outputs.foldlM (w.keepOutput H tx n) first).bind fun entries =>
        some (entries, entries.length) := by
    rw [decompose, hburn, firstEntry, ← pushEntry_first hn]
    cases burn <;> exact if_neg hn
  rw [heq, Option.bind_eq_some_iff]
  constructor
  · rintro ⟨first, hfirst, h⟩
    obtain ⟨entries, hloop, h⟩ := Option.bind_eq_some_iff.1 h
    obtain rfl := Option.some.inj h
    obtain ⟨added, hadded, rfl, hle⟩ := foldlM_keepOutput.1 hloop
    exact ⟨first, added, hfirst, hadded, rfl, hle⟩
  · rintro ⟨first, added, hfirst, hadded, rfl, hle⟩
    refine ⟨first, hfirst, Option.bind_eq_some_iff.2 ⟨first ++ added, ?_, rfl⟩⟩
    exact foldlM_keepOutput.2 ⟨added, hadded, rfl, hle⟩

/-- The entries, one behind the other, have the outputs that they are made of. -/
theorem content_entries {burn : Bool} {first added : List BRTransaction}
    (hfirst : firstEntry H tx burn = some first)
    (hadded : (tx.outputs.filter w.keepsAsset).mapM (assetEntry H tx) = some added) :
    ((first ++ added).flatMap BRTransaction.outputs).map BRTxOutput.content =
      ((if burn then tx.outputs.filter fun o => !isScriptAsset (o.script.getD []) else []) ++
        tx.outputs.filter w.keepsAsset).map BRTxOutput.content ∧
    first.length = (if burn then 1 else 0) ∧
    added.length = tx.outputs.countP w.keepsAsset := by
  obtain ⟨houts, hlen⟩ := mapM_assetEntry hadded
  rw [List.flatMap_append, List.map_append, List.map_append, houts, hlen,
    List.countP_eq_length_filter]
  cases burn with
  | false =>
    obtain rfl := Option.some.inj hfirst
    exact ⟨rfl, rfl, rfl⟩
  | true =>
    obtain ⟨e, he, rfl⟩ := Option.map_eq_some_iff.1 hfirst
    rw [List.flatMap_singleton, burnEntry_outputs he]
    exact ⟨rfl, rfl, rfl⟩

theorem firstEntry_isSome {burn : Bool} : (firstEntry H tx burn).isSome ↔
    (burn = true → ∀ input ∈ tx.inputs, input.index.toNat < tx.outputs.length) := by
  cases burn with
  | false => simp [firstEntry]
  | true => simp only [firstEntry, if_true, Option.isSome_map, burnEntry_isSome, true_imp_iff]

theorem keptEntries_isSome : ((tx.outputs.filter w.keepsAsset).mapM (assetEntry H tx)).isSome ↔
    ∀ o ∈ tx.outputs, w.keepsAsset o → (getAssetData (o.script.getD []) {}).isSome := by
  rw [mapM_isSome]
  simp only [List.mem_filter, assetEntry_isSome, and_imp]

/-- What there is an entry for. -/
theorem burns_eq {N : ℕ} {burn : Bool} (h : ∀ fuel ≥ N, w.burns tx fuel = some burn) :
    (w.amountSentByTx tx > 0 → Answers (w.transactionIsValid · tx) burn) ∧
      (¬ w.amountSentByTx tx > 0 → burn = false) := by
  constructor
  · intro hsent
    refine ⟨N, fun fuel hfuel => ?_⟩
    have hburn := h fuel hfuel
    rwa [burns, if_pos hsent] at hburn
  · intro hsent
    have hburn := h N le_rfl
    rw [burns, if_neg hsent] at hburn
    exact (Option.some.inj hburn).symm

theorem exists_burns (h : w.amountSentByTx tx > 0 → ∃ b, Answers (w.transactionIsValid · tx) b) :
    ∃ burn N, ∀ fuel ≥ N, w.burns tx fuel = some burn := by
  by_cases hsent : w.amountSentByTx tx > 0
  · obtain ⟨b, N, hN⟩ := h hsent
    refine ⟨b, N, fun fuel hfuel => ?_⟩
    rw [burns, if_pos hsent]
    exact hN fuel hfuel
  · refine ⟨false, 0, fun fuel _ => ?_⟩
    rw [burns, if_neg hsent]

end

/-- The sizing call agrees with the entries that are written exactly for the transactions of which
    the counted outputs are as many as the assets, every input has the index of an output, and the
    assets can be read. -/
theorem decomposes_iff (H : Hashes) (w : BRWallet) (tx : BRTransaction) :
    w.Decomposes H tx ↔ w.Decomposable tx := by
  constructor
  · rintro ⟨burn, n, entries, N, h⟩
    obtain ⟨hanswers, -⟩ := burns_eq fun fuel hfuel => (h fuel hfuel).1
    obtain ⟨hburn, hsize, hfill, hcontent⟩ := h N le_rfl
    rw [decompose_zero hburn] at hsize
    obtain rfl : w.entriesCount tx burn = n := (Prod.mk.inj (Option.some.inj hsize)).2
    suffices hall : w.assetsReceivedCount tx = tx.outputs.countP w.keepsAsset ∧
        (burn = true → ∀ input ∈ tx.inputs, input.index.toNat < tx.outputs.length) ∧
        ∀ o ∈ tx.outputs, w.keepsAsset o → (getAssetData (o.script.getD []) {}).isSome from
      ⟨fun hsent => ⟨burn, hanswers hsent⟩, counted_iff.1 hall.1,
        fun hsent hvalid => hall.2.1 ((hanswers hsent).unique hvalid), hall.2.2⟩
    by_cases hn : w.entriesCount tx burn = 0
    · -- nothing is counted, so nothing is written
      rw [hn, decompose_zero hburn] at hfill
      obtain rfl : [] = entries := (Prod.mk.inj (Option.some.inj hfill)).1
      have hkept : tx.outputs.filter w.keepsAsset = [] :=
        (List.append_eq_nil_iff.1 (List.map_eq_nil_iff.1 hcontent.symm)).2
      rw [List.filter_eq_nil_iff] at hkept
      rw [entriesCount] at hn
      split_ifs at hn with htrue
      exact ⟨hn.trans (List.countP_eq_zero.2 hkept).symm, fun h => absurd h htrue,
        fun o ho hkeeps => absurd hkeeps (hkept o ho)⟩
    · obtain ⟨first, added, hfirst, hadded, heq, -⟩ := (decompose_eq_some hburn hn).1 hfill
      obtain ⟨-, hone, hkept⟩ := content_entries hfirst hadded
      have hlen := (Prod.mk.inj heq).2
      rw [List.length_append, hone, hkept, entriesCount] at hlen
      refine ⟨?_, firstEntry_isSome.1 (by rw [hfirst]; rfl),
        keptEntries_isSome.1 (by rw [hadded]; rfl)⟩
      split_ifs at hlen <;> omega
  · intro h
    obtain ⟨burn, N, hburn⟩ := exists_burns h.answers
    obtain ⟨hanswers, hnone⟩ := burns_eq hburn
    have hcount := counted_iff.2 h.counted
    have hinputs : burn = true → ∀ input ∈ tx.inputs, input.index.toNat < tx.outputs.length := by
      rintro rfl
      have hsent : w.amountSentByTx tx > 0 := by
        by_contra hno
        cases hnone hno
      exact h.inputs hsent (hanswers hsent)
    obtain ⟨first, hfirst⟩ := Option.isSome_iff_exists.1 (firstEntry_isSome (H := H).2 hinputs)
    obtain ⟨added, hadded⟩ := Option.isSome_iff_exists.1 (keptEntries_isSome (H := H).2 h.reads)
    obtain ⟨hcontent, hone, hkept⟩ := content_entries hfirst hadded
    have hlen : (first ++ added).length = w.entriesCount tx burn := by
      rw [List.length_append, hone, hkept, entriesCount]
      split_ifs <;> omega
    refine ⟨burn, w.entriesCount tx burn, first ++ added, N, fun fuel hfuel => ?_⟩
    have hb := hburn fuel hfuel
    refine ⟨hb, decompose_zero hb, ?_, hcontent⟩
    by_cases hn : w.entriesCount tx burn = 0
    · rw [hn] at hlen
      rw [hn, decompose_zero hb, hn, List.length_eq_zero_iff.1 hlen]
    · exact (decompose_eq_some hb hn).2 ⟨first, added, hfirst, hadded, by rw [hlen],
        Or.inr hlen.le⟩

/-- An output of nothing, without an asset. -/
def emptyPayment : BRTransaction where
  outputs := [{ address := [1] }]

theorem not_decomposes : ¬ ∀ (H : Hashes) (w : BRWallet) (tx : BRTransaction),
    w.Decomposes H tx := by
  intro h
  obtain ⟨burn, n, entries, N, hall⟩ := h hashesOne { allAddrs := {[1]} } emptyPayment
  obtain ⟨hburn, hsize, hfill, -⟩ := hall N le_rfl
  have hburns : burns { allAddrs := {[1]} } emptyPayment N = some false := rfl
  have hone : entriesCount { allAddrs := {[1]} } emptyPayment false = 1 := by decide +kernel
  have hempty : decompose hashesOne { allAddrs := {[1]} } emptyPayment N 1 = some ([], 0) := by
    rw [decompose, hburns]
    rfl
  rw [decompose_zero hburns, hone] at hsize
  obtain rfl : 1 = n := (Prod.mk.inj (Option.some.inj hsize)).2
  rw [hempty] at hfill
  cases hfill

end BRWallet

end RavenWallet
