/-
  What parsing a transaction reads.

  * `staysInside_iff`: when a buffer is parsed without a read beyond its end;
  * `parseAssets_isSome`: when the assets are read from the scripts of the outputs.
-/
import RavenWallet.Core.TxParse

namespace RavenWallet.BRTransaction

/-! ## The assets -/

/-- The scripts that are looked at for assets: those before the first empty one, and none of them if
    the last one is empty. -/
def scannedScripts (scripts : List Bytes) : List Bytes :=
  if scripts.getLast?.all fun s => decide (s = []) then []
  else scripts.takeWhile fun s => decide (s ≠ [])

/-- The asset of a script, if it has one, lies in it. -/
def AssetFits (script : Bytes) : Prop :=
  isScriptAsset script → (getAssetData script {}).isSome

/-- The scripts of the outputs. -/
def scripts (tx : BRTransaction) : List Bytes := tx.outputs.map fun o => o.script.getD []

/-- The assets that are looked at lie in their scripts. -/
def AssetsFit (tx : BRTransaction) : Prop :=
  tx.blockHeight ≥ ASSET_ACTIVATION → ∀ script ∈ scannedScripts tx.scripts, AssetFits script

theorem scriptLen_eq_zero {script : Option Bytes} : scriptLen script = 0 ↔ script.getD [] = [] :=
  List.length_eq_zero_iff

theorem assetLoop_isSome {output : BRTxOutput} {n : ℕ} {outputs : List BRTxOutput}
    (hn : (outputs.filter fun o => isScriptAsset (o.script.getD [])).length ≤ n) :
    (assetLoop output n outputs).isSome ↔ scriptLen output.script = 0 ∨
      ∀ s ∈ (outputs.map fun o => o.script.getD []).takeWhile fun s => decide (s ≠ []),
        AssetFits s := by
  induction outputs generalizing output n with
  | nil =>
    cases n with
    | zero => exact ⟨fun _ => Or.inr fun s hs => (List.not_mem_nil hs).elim, fun _ => rfl⟩
    | succ n => exact ⟨fun _ => Or.inr fun s hs => (List.not_mem_nil hs).elim, fun _ => rfl⟩
  | cons next outputs ih =>
    cases n with
    | zero =>
      have hnone : ∀ s ∈ (next :: outputs).map fun o => o.script.getD [], AssetFits s := by
        intro s hs hasset
        obtain ⟨o, ho, rfl⟩ := List.mem_map.1 hs
        have hmem : o ∈ (next :: outputs).filter fun o => isScriptAsset (o.script.getD []) :=
          List.mem_filter.2 ⟨ho, hasset⟩
        rw [List.length_eq_zero_iff.1 (Nat.le_zero.1 hn)] at hmem
        cases hmem
      exact ⟨fun _ => Or.inr fun s hs => hnone s (List.takeWhile_subset _ hs), fun _ => rfl⟩
    | succ n =>
      rw [List.filter_cons] at hn
      rw [assetLoop, List.map_cons, List.takeWhile_cons]
      by_cases hout : scriptLen output.script = 0
      · -- the scan stays at this output
        have hrest : (outputs.filter fun o => isScriptAsset (o.script.getD [])).length ≤ n + 1 := by
          split_ifs at hn with hasset
          · exact (Nat.le_succ _).trans hn
          · exact hn
        rw [if_pos hout, ih hrest]
        exact ⟨fun _ => Or.inl hout, fun _ => Or.inl hout⟩
      · rw [if_neg hout, or_iff_right hout]
        by_cases hasset : isScriptAsset (next.script.getD []) = true
        · have hne : next.script.getD [] ≠ [] := by
            intro hnil
            rw [hnil] at hasset
            exact absurd hasset (by decide)
          rw [if_pos hasset] at hn
          have hrest := @ih next n (Nat.le_of_succ_le_succ hn)
          rw [or_iff_right fun h => hne (scriptLen_eq_zero.1 h)] at hrest
          rw [if_pos hasset, if_pos (decide_eq_true hne), List.forall_mem_cons, ← hrest, AssetFits,
            imp_iff_right hasset, Option.isSome_iff_exists, Option.isSome_iff_exists]
          constructor
          · rintro ⟨assets, h⟩
            obtain ⟨⟨asset, read⟩, hget, h⟩ := Option.bind_eq_some_iff.1 h
            obtain ⟨rest, hloop, -⟩ := Option.bind_eq_some_iff.1 h
            exact ⟨⟨_, hget⟩, Option.isSome_iff_exists.2 ⟨rest, hloop⟩⟩
          · rintro ⟨⟨⟨asset, read⟩, hget⟩, hloop⟩
            obtain ⟨rest, hloop⟩ := Option.isSome_iff_exists.1 hloop
            exact ⟨asset :: rest, by rw [hget, Option.bind_eq_bind, Option.bind_some, hloop]; rfl⟩
        · rw [if_neg hasset] at hn
          rw [if_neg hasset, ih hn, scriptLen_eq_zero]
          by_cases hnil : next.script.getD [] = []
          · rw [if_neg (by simpa using hnil)]
            exact ⟨fun _ s hs => (List.not_mem_nil hs).elim, fun _ => Or.inl hnil⟩
          · have hfits : AssetFits (next.script.getD []) := fun h => absurd h hasset
            rw [or_iff_right hnil, if_pos (decide_eq_true hnil), List.forall_mem_cons,
              and_iff_right hfits]

theorem parseAssets_isSome {tx : BRTransaction} : tx.parseAssets.isSome ↔ tx.AssetsFit := by
  rw [parseAssets, AssetsFit, scannedScripts, scripts, List.getLast?_map]
  by_cases hheight : tx.blockHeight ≥ ASSET_ACTIVATION
  swap
  · rw [if_neg hheight]
    exact ⟨fun _ h => absurd h hheight, fun _ => rfl⟩
  rw [if_pos hheight, imp_iff_right hheight]
  cases hlast : tx.outputs.getLast? with
  | none => exact ⟨fun _ s hs => (List.not_mem_nil hs).elim, fun _ => rfl⟩
  | some output =>
    simp only [Option.map_some, Option.all_some, decide_eq_true_eq]
    rw [assetLoop_isSome (le_refl _), scriptLen_eq_zero]
    by_cases hnil : output.script.getD [] = []
    · rw [if_pos hnil]
      exact ⟨fun _ s hs => (List.not_mem_nil hs).elim, fun _ => Or.inl hnil⟩
    · rw [if_neg hnil, or_iff_right hnil]

/-! ## The buffer -/

variable {H : Hashes} {buf : Bytes}

/-- Parsing reads nothing beyond the end of the buffer or of a script, writes nothing beyond the
    arrays, and what it returns has scripts that are parts of the buffer. -/
def StaysInside (H : Hashes) (buf : Bytes) : Prop :=
  ∃ r, parse H buf = some r ∧ ∀ tx, r = some tx →
    (∀ input ∈ tx.inputs, ∀ s, input.script = some s ∨ input.signature = some s → s <:+: buf) ∧
      ∀ output ∈ tx.outputs, ∀ s, output.script = some s → s <:+: buf

theorem scriptAt_infix (off : ℕ) : scriptAt buf off <:+: buf :=
  (List.take_prefix _ _).isInfix.trans (List.drop_suffix _ _).isInfix

theorem inputAt_infix {off : ℕ} {s : Bytes}
    (h : (inputAt H buf off).script = some s ∨ (inputAt H buf off).signature = some s) :
    s <:+: buf := by
  rw [inputAt] at h
  split_ifs at h with hle hp
  · rcases h with h | h
    · obtain rfl := Option.some.inj h
      exact scriptAt_infix _
    · cases h
  · rcases h with h | h
    · cases h
    · obtain rfl := Option.some.inj h
      exact scriptAt_infix _
  · rcases h with h | h <;> cases h

theorem outputAt_infix {off : ℕ} {s : Bytes} (h : (outputAt H buf off).script = some s) :
    s <:+: buf := by
  rw [outputAt] at h
  split_ifs at h with hle
  obtain rfl := Option.some.inj h
  exact scriptAt_infix _

/-- A buffer is parsed to the transaction of its layout. -/
theorem parse_of_fits (H : Hashes) (hbuf : buf.length ≤ PTRDIFF_MAX) (hfit : SizesFit buf) :
    parse H buf = (fieldsAt buf H).parseAssets.map fun asset =>
      if (fieldsAt buf H).inputs = [] ∨ wrap64 (wrap64 (outputsEnd buf) + 4) > buf.length then none
      else some { fieldsAt buf H with
        asset
        txHash := if (fieldsAt buf H).inputs.all fun i => i.script.isNone then
          get256 (H.sha256_2 (buf.take (wrap64 (wrap64 (outputsEnd buf) + 4)))) else 0 } := by
  rw [parse, parseFields_of_fits H hbuf hfit]
  simp only [Option.bind_eq_bind, Option.bind_some]
  cases (fieldsAt buf H).parseAssets with
  | none => rfl
  | some asset =>
    rw [Option.bind_some, Option.map_some]
    by_cases hend : (fieldsAt buf H).inputs = [] ∨
        wrap64 (wrap64 (outputsEnd buf) + 4) > buf.length
    · rw [if_pos hend, if_pos hend]
    · rw [if_neg hend, if_neg hend]

theorem sizesFit_of_parse (hbuf : buf.length ≤ PTRDIFF_MAX) {r : Option BRTransaction}
    (h : parse H buf = some r) : SizesFit buf := by
  by_contra hnot
  rw [parse, parseFields_of_not_fits H hbuf hnot] at h
  cases h

theorem assetsFit_of_parse (hbuf : buf.length ≤ PTRDIFF_MAX) {r : Option BRTransaction}
    (h : parse H buf = some r) : (fieldsAt buf H).AssetsFit := by
  rw [parse_of_fits H hbuf (sizesFit_of_parse hbuf h)] at h
  obtain ⟨asset, hassets, -⟩ := Option.map_eq_some_iff.1 h
  exact parseAssets_isSome.1 (Option.isSome_iff_exists.2 ⟨asset, hassets⟩)

/-- A transaction that is returned is that of the layout. -/
theorem parse_eq_some (hbuf : buf.length ≤ PTRDIFF_MAX) {tx : BRTransaction}
    (h : parse H buf = some (some tx)) : (fieldsAt buf H).inputs ≠ [] ∧
      wrap64 (wrap64 (outputsEnd buf) + 4) ≤ buf.length ∧
      ∃ asset txHash, tx = { fieldsAt buf H with asset, txHash } := by
  rw [parse_of_fits H hbuf (sizesFit_of_parse hbuf h)] at h
  obtain ⟨asset, -, h⟩ := Option.map_eq_some_iff.1 h
  by_cases hend : (fieldsAt buf H).inputs = [] ∨ wrap64 (wrap64 (outputsEnd buf) + 4) > buf.length
  · rw [if_pos hend] at h
    cases h
  · rw [if_neg hend] at h
    obtain ⟨hne, hle⟩ := not_or.1 hend
    exact ⟨hne, Nat.le_of_not_lt hle, _, _, (Option.some.inj h).symm⟩

theorem staysInside_iff (H : Hashes) (buf : Bytes) (hbuf : buf.length ≤ PTRDIFF_MAX) :
    StaysInside H buf ↔ SizesFit buf ∧ (fieldsAt buf H).AssetsFit := by
  constructor
  · rintro ⟨r, hparse, -⟩
    exact ⟨sizesFit_of_parse hbuf hparse, assetsFit_of_parse hbuf hparse⟩
  · rintro ⟨hfit, hassets⟩
    obtain ⟨asset, hassets⟩ := Option.isSome_iff_exists.1 (parseAssets_isSome.2 hassets)
    have hparse := parse_of_fits H hbuf hfit
    rw [hassets, Option.map_some] at hparse
    refine ⟨_, hparse, fun tx hr => ?_⟩
    rw [hr] at hparse
    obtain ⟨-, -, asset, txHash, rfl⟩ := parse_eq_some hbuf hparse
    constructor
    · intro input hinput s hs
      rcases List.mem_append.1 hinput with hread | hblank
      · obtain ⟨off, -, rfl⟩ := List.mem_map.1 hread
        exact inputAt_infix hs
      · obtain rfl := List.eq_of_mem_replicate hblank
        rcases hs with hs | hs <;> cases hs
    · intro output houtput s hs
      rcases List.mem_append.1 houtput with hread | hblank
      · obtain ⟨off, -, rfl⟩ := List.mem_map.1 hread
        exact outputAt_infix hs
      · obtain rfl := List.eq_of_mem_replicate hblank
        cases hs

/-- Hash functions that tell data of small different lengths apart. -/
def lengthHashes : Hashes where
  sha256_2 data := UInt8.ofNat data.length :: List.replicate 31 0
  hash160 data := UInt8.ofNat data.length :: List.replicate 19 0
  length_sha256_2 _ := rfl
  length_hash160 _ := rfl

/-- An input count whose array is as large as 2^64 times 15 and wraps around to nothing. -/
def hugeInCount : Bytes := [1, 0, 0, 0, 0xff, 0, 0, 0, 0, 0, 0, 0, 0x20] ++ List.replicate 50 0

theorem not_staysInside :
    ¬ ∀ (H : Hashes) (buf : Bytes), buf.length ≤ PTRDIFF_MAX → StaysInside H buf := by
  intro h
  obtain ⟨r, hparse, -⟩ := h lengthHashes hugeInCount (by decide)
  have hnot : ¬ SizesFit hugeInCount := fun hfit => absurd hfit.inCount (by decide +kernel)
  exact hnot (sizesFit_of_parse (by decide) hparse)

/-- A signed input and an output. -/
def smallTx : Bytes := [1, 0, 0, 0, 1] ++ List.replicate 36 7 ++ [1, 0x51, 0xff, 0xff, 0xff, 0xff] ++
  [1, 100, 0, 0, 0, 0, 0, 0, 0, 2, 0x51, 0x75, 0, 0, 0, 0]

theorem staysInside_smallTx : StaysInside lengthHashes smallTx := by
  refine (staysInside_iff lengthHashes smallTx (by decide)).2
    ⟨⟨by decide +kernel, by decide +kernel, by decide +kernel, by decide +kernel,
      by decide +kernel⟩, fun _ script hscript hasset => ?_⟩
  have hnone : ∀ script ∈ scannedScripts (fieldsAt smallTx lengthHashes).scripts,
      isScriptAsset script = false := by decide +kernel
  rw [hnone script hscript] at hasset
  cases hasset

/-! ## Whole transactions -/

/-- The buffer does not end within the transaction. -/
def Complete (buf : Bytes) : Prop := outputsEnd buf + 4 ≤ buf.length

variable {off : ℕ}

theorem le_inputEnd (off : ℕ) : off ≤ inputEnd buf off := by
  rw [inputEnd, scriptEnd, scriptStart]
  omega

theorem le_outputEnd (off : ℕ) : off ≤ outputEnd buf off := by
  rw [outputEnd, scriptEnd, scriptStart]
  omega

theorem inputsEnd_le : inputsEnd buf ≤ outputsEnd buf := by
  have hsum : inputsEnd buf + (varInt (buf.drop (inputsEnd buf))).2 +
      ((outputStarts buf).map fun _ => 0).sum ≤ outputsEnd buf :=
    Items.stop_sum fun s _ => le_outputEnd s
  omega

section
variable (h : Complete buf)
include h

theorem Complete.inputsEnd_le : inputsEnd buf ≤ buf.length := by
  have hle : inputsEnd buf ≤ outputsEnd buf := BRTransaction.inputsEnd_le
  exact hle.trans ((Nat.le_add_right _ 4).trans h)

theorem Complete.inputEnd_le {s : ℕ} (hs : s ∈ inputStarts buf) : inputEnd buf s ≤ buf.length := by
  have hstop : inputEnd buf s ≤ inputsEnd buf := Items.next_le_stop (fun s _ => le_inputEnd s) hs
  exact hstop.trans h.inputsEnd_le

theorem Complete.outputEnd_le {s : ℕ} (hs : s ∈ outputStarts buf) :
    outputEnd buf s ≤ buf.length := by
  have hstop : outputEnd buf s ≤ outputsEnd buf := Items.next_le_stop (fun s _ => le_outputEnd s) hs
  exact hstop.trans ((Nat.le_add_right _ 4).trans h)

theorem Complete.length_inputStarts : (inputStarts buf).length = inCount buf :=
  Items.length_starts h.inputsEnd_le

theorem Complete.length_outputStarts : (outputStarts buf).length = outCount buf :=
  Items.length_starts ((Nat.le_add_right _ 4).trans h)

theorem Complete.inputs_eq : (fieldsAt buf H).inputs = (inputStarts buf).map (inputAt H buf) := by
  rw [fieldsAt, h.length_inputStarts, Nat.sub_self]
  exact List.append_nil _

theorem Complete.outputs_eq :
    (fieldsAt buf H).outputs = (outputStarts buf).map (outputAt H buf) := by
  rw [fieldsAt, h.length_outputStarts, Nat.sub_self]
  exact List.append_nil _

theorem Complete.outputAt_eq {s : ℕ} (hs : s ∈ outputStarts buf) : outputAt H buf s =
    { amount := UInt64.ofNat (fieldAt buf s 8)
      script := some (scriptAt buf (s + 8))
      address := BRAddress.fromScriptPubKey H (scriptAt buf (s + 8)) } :=
  if_pos (h.outputEnd_le hs)

end

/-- A transaction whose inputs are all read is complete if it is returned. -/
theorem complete_of_parse (hbuf : buf.length ≤ PTRDIFF_MAX) (hfit : SizesFit buf)
    (hle : wrap64 (wrap64 (outputsEnd buf) + 4) ≤ buf.length)
    (hread : ∀ s ∈ inputStarts buf, scriptEnd buf (s + 36) ≤ buf.length) : Complete buf := by
  have hmax : PTRDIFF_MAX < 2 ^ 63 := by decide
  -- the offset behind the outputs did not wrap around
  have hinputs : inputsEnd buf < buf.length + 16 := by
    refine Items.stop_lt ?_ fun s hs => ?_
    · have hlen := varInt_snd_le (buf.drop 4)
      omega
    · have hend := hread s hs
      rw [inputEnd]
      split_ifs <;> omega
  have houtputs : outputsEnd buf < 2 ^ 64 := by
    rcases inputsEnd_cases hbuf hfit.inputs with hle | ⟨-, hend, -⟩
    · have hlen := varInt_snd_le (buf.drop (inputsEnd buf))
      exact Items.stop_lt (by omega) fun s hs => hfit.outputs s hs
    · omega
  rcases hfit.lockTime with hlt | hend
  · rwa [wrap64_of_lt houtputs, wrap64_of_lt hlt] at hle
  · omega

theorem fieldAt_lt (off k : ℕ) : fieldAt buf off k < 256 ^ k := by
  rw [fieldAt]
  split_ifs with h
  · refine lt_of_lt_of_le (ofLE_lt _) (Nat.pow_le_pow_right (by decide) ?_)
    rw [List.length_take]
    exact Nat.min_le_left _ _
  · exact Nat.pow_pos (by decide)

theorem length_scriptAt (h : scriptEnd buf off ≤ buf.length) :
    (scriptAt buf off).length = (varInt (buf.drop off)).1 := by
  rw [scriptAt]
  refine List.length_take_of_le ?_
  rw [scriptEnd] at h
  rw [List.length_drop]
  omega

/-- The bytes of a number in the buffer. -/
theorem drop_field {k : ℕ} (h : off + k ≤ buf.length) :
    buf.drop off = toLE k (fieldAt buf off k) ++ buf.drop (off + k) := by
  have hlen : ((buf.drop off).take k).length = k :=
    List.length_take_of_le (by rw [List.length_drop]; omega)
  have hbytes : toLE k (ofLE ((buf.drop off).take k)) = (buf.drop off).take k := by
    have := toLE_ofLE ((buf.drop off).take k)
    rwa [hlen] at this
  rw [fieldAt, if_pos h, hbytes, ← List.drop_drop, List.take_append_drop]

end RavenWallet.BRTransaction
