/-
  What the bloom filter that is loaded at a peer finds (BRPeerManager.c).

  `formula` are the floating-point formulas of `BRBloomFilterNew`: the length and
  the number of hash functions for a number of elements.

  * `bloomFilterOf_found`: the filter of a wallet has the hashes of its addresses,
    its UTXOs, and its outputs that late transactions spend;
  * `run_matched`: in every run, what concerns the wallet is matched by the filter
    that the peer reads.
-/
import RavenWallet.Core.Addresses
import RavenWallet.Core.BloomFilter
import RavenWallet.Keys.Signing
import RavenWallet.Peer.Blocks
import RavenWallet.Wallet.Order

namespace RavenWallet

/-! ## The code -/

def BLOOM_UPDATE_ALL : UInt8 := 1

/-- What `BRAddressHash160` makes of a hash of zeros. -/
def addressHash160 (H : Hashes) (addr : BRAddress) : Bytes :=
  let data := BRAddress.decode H addr
  if data.length = 21 then data.drop 1 else List.replicate 20 0

/-- An outpoint as it is in a transaction. -/
def UTXO.data (u : UTXO) : Bytes := set256 u.hash ++ toLE 4 u.n.toNat

/-- Inserts the data unless they are found. -/
def BRBloomFilter.watch (f : BRBloomFilter) (data : Bytes) : Option BRBloomFilter := do
  if ← f.containsData (some data) then some f else f.insertData (some data)

def watchAddress (H : Hashes) (f : BRBloomFilter) (addr : BRAddress) : Option BRBloomFilter :=
  let hash := addressHash160 H addr
  if hash = List.replicate 20 0 then some f else f.watch hash

def watchUTXO (f : BRBloomFilter) (u : UTXO) : Option BRBloomFilter := f.watch u.data

def watchInput (w : BRWallet) (f : BRBloomFilter) (input : BRTxInput) : Option BRBloomFilter :=
  if w.ownsInput input then f.watch input.outpoint.data else some f

/-- The outputs of the wallet that the transaction at `p` spends. -/
def watchInputs (w : BRWallet) (f : BRBloomFilter) (p : Ptr) : Option BRBloomFilter := do
  let tx ← w.heap.load p
  tx.inputs.foldlM (watchInput w) f

/-- `blockHeight` of `_PeerManagerLoadBloomFilter`. -/
def lateHeight (lastHeight : UInt32) : UInt32 := if lastHeight > 100 then lastHeight - 100 else 0

section
variable (H : Hashes) (formula : ℕ → ℕ × UInt32) (tweak : UInt32)

/-- The filter that `_PeerManagerLoadBloomFilter` fills. -/
def bloomFilterOf (w : BRWallet) (lastHeight : UInt32) : Option BRBloomFilter := do
  let addrs := w.internalChain ++ w.externalChain
  let transactions ← w.txUnconfirmedBefore w.transactions.length (lateHeight lastHeight)
  let (length, hashFuncs) := formula (addrs.length + w.utxos.length + transactions.length + 100)
  let filter := BRBloomFilter.new length hashFuncs tweak BLOOM_UPDATE_ALL
  let filter ← addrs.foldlM (watchAddress H) filter
  let filter ← w.utxos.foldlM watchUTXO filter
  transactions.foldlM (watchInputs w) filter

/-- `_PeerManagerLoadBloomFilter`, with the filter. -/
def BRBlockManager.loadFilter (env : Env) (fuel : ℕ) (m : BRBlockManager) :
    Option (BRBlockManager × BRBloomFilter) := do
  let m ← m.loadBloomFilter env fuel
  let last ← m.last
  let filter ← bloomFilterOf H formula tweak m.wallet last.height
  some (m, filter)

end

/-! ## What is found -/

namespace BRBloomFilter

variable {f g h : BRBloomFilter} {data : Bytes}

/-- `g` is `f` after insertions. -/
structure Extends (f g : BRBloomFilter) : Prop where
  alike : f.Alike g
  found : ∀ data, f.Found data → g.Found data

theorem Extends.refl (f : BRBloomFilter) : f.Extends f := ⟨.refl f, fun _ h => h⟩

theorem Extends.trans (hfg : f.Extends g) (hgh : g.Extends h) : f.Extends h :=
  ⟨hfg.alike.trans hgh.alike, fun data hdata => hgh.found data (hfg.found data hdata)⟩

theorem Extends.pos (h : f.Extends g) (hf : 0 < f.length) : 0 < g.length := by
  rwa [h.alike.length]

theorem watch_spec (hf : 0 < f.length) (data : Bytes) :
    ∃ g, f.watch data = some g ∧ f.Extends g ∧ g.Found data := by
  have hcontains := containsData_iff hf data
  by_cases hfound : ∀ idx ∈ f.positions data, bitSet f.filter idx = some true
  · rw [decide_eq_true hfound] at hcontains
    refine ⟨f, ?_, .refl f, hcontains⟩
    rw [watch, hcontains, Option.bind_eq_bind, Option.bind_some, if_pos rfl]
  · rw [decide_eq_false hfound] at hcontains
    obtain ⟨g, hg, hlike, hkeep, hitem⟩ := insertData_spec hf (some data)
    refine ⟨g, ?_, ⟨hlike, hkeep⟩, hitem data rfl⟩
    rw [watch, hcontains, Option.bind_eq_bind, Option.bind_some, if_neg Bool.false_ne_true, hg]

/-- If each step of a loop makes the filter find the data of its item, then in the end it finds all
    of them. -/
theorem foldlM_watch {A : Type} (step : BRBloomFilter → A → Option BRBloomFilter) (l : List A)
    (items : A → List Bytes) (hstep : ∀ x ∈ l, ∀ f : BRBloomFilter, 0 < f.length →
      ∃ g, step f x = some g ∧ f.Extends g ∧ ∀ data ∈ items x, g.Found data)
    (hf : 0 < f.length) : ∃ g, l.foldlM step f = some g ∧ f.Extends g ∧
      ∀ x ∈ l, ∀ data ∈ items x, g.Found data := by
  induction l generalizing f with
  | nil => exact ⟨f, rfl, .refl f, fun _ hx => absurd hx List.not_mem_nil⟩
  | cons x l ih =>
    obtain ⟨g, hg, hext, hx⟩ := hstep x List.mem_cons_self f hf
    obtain ⟨last, hlast, hext', hl⟩ := ih (fun y hy => hstep y (List.mem_cons_of_mem _ hy))
      (hext.pos hf)
    refine ⟨last, ?_, hext.trans hext', ?_⟩
    · rw [List.foldlM_cons, hg]
      exact hlast
    · intro y hy data hdata
      rcases List.mem_cons.1 hy with rfl | hy
      · exact hext'.found data (hx data hdata)
      · exact hl y hy data hdata

/-- A filter finds the same after it was sent. -/
theorem found_of_parse {malloc : ℕ → Bool} {f' : BRBloomFilter} (hpos : 0 < f.length)
    (hmax : f.length ≤ BLOOM_MAX_FILTER_LENGTH) (h : parse malloc f.serialize = some f')
    (hdata : f.Found data) : f'.Found data := by
  rw [parse_of_serialize hmax] at h
  split_ifs at h
  obtain rfl := Option.some.inj h
  exact (found_iff (f := { f with elemCount := 0 }) hpos).2 ((found_iff hpos).1 hdata)

end BRBloomFilter

section
variable {H : Hashes} {formula : ℕ → ℕ × UInt32} {tweak : UInt32} {w : BRWallet}
  {f : BRBloomFilter} {lastHeight : UInt32} {tx s : BRTransaction} {p : Ptr}

theorem watchAddress_spec (hf : 0 < f.length) (addr : BRAddress) :
    ∃ g, watchAddress H f addr = some g ∧ f.Extends g ∧
      (addressHash160 H addr ≠ List.replicate 20 0 → g.Found (addressHash160 H addr)) := by
  unfold watchAddress
  dsimp only
  split_ifs with hzero
  · exact ⟨f, rfl, .refl f, fun h => absurd hzero h⟩
  · obtain ⟨g, hg, hext, hfound⟩ := BRBloomFilter.watch_spec hf (addressHash160 H addr)
    exact ⟨g, hg, hext, fun _ => hfound⟩

theorem watchInput_spec (hf : 0 < f.length) (input : BRTxInput) :
    ∃ g, watchInput w f input = some g ∧ f.Extends g ∧
      (w.ownsInput input = true → g.Found input.outpoint.data) := by
  unfold watchInput
  split_ifs with howns
  · obtain ⟨g, hg, hext, hfound⟩ := BRBloomFilter.watch_spec hf input.outpoint.data
    exact ⟨g, hg, hext, fun _ => hfound⟩
  · exact ⟨f, rfl, .refl f, fun h => absurd h howns⟩

/-- The data of the inputs that spend outputs of the wallet. -/
def ownedData (w : BRWallet) (tx : BRTransaction) : List Bytes :=
  (tx.inputs.filter w.ownsInput).map fun i => i.outpoint.data

theorem watchInputs_spec (hf : 0 < f.length) (hp : w.heap.load p = some tx) :
    ∃ g, watchInputs w f p = some g ∧ f.Extends g ∧ ∀ data ∈ ownedData w tx, g.Found data := by
  obtain ⟨g, hg, hext, hfound⟩ := BRBloomFilter.foldlM_watch (watchInput w) tx.inputs
    (fun i => if w.ownsInput i then [i.outpoint.data] else []) (by
      intro i _ f hf
      obtain ⟨g, hg, hext, hi⟩ := watchInput_spec (w := w) hf i
      refine ⟨g, hg, hext, ?_⟩
      intro data hdata
      split_ifs at hdata with howns
      · obtain rfl := List.mem_singleton.1 hdata
        exact hi howns
      · simp at hdata) hf
  refine ⟨g, ?_, hext, ?_⟩
  · rw [watchInputs, hp, Option.bind_eq_bind, Option.bind_some, hg]
  · intro data hdata
    obtain ⟨i, hi, rfl⟩ := List.mem_map.1 hdata
    obtain ⟨hmem, howns⟩ := List.mem_filter.1 hi
    refine hfound i hmem _ ?_
    rw [if_pos howns]
    exact List.mem_singleton_self _

/-- The transaction pays an address of the wallet that has a hash, or spends a UTXO, or it spends an
    output of the wallet like a listed transaction that is unconfirmed or at most 100 blocks old. -/
inductive Concerns (H : Hashes) (w : BRWallet) (lastHeight : UInt32) (tx : BRTransaction) : Prop
  | pays {o : BRTxOutput} : o ∈ tx.outputs → o.address ∈ w.allAddrs →
      addressHash160 H o.address ≠ List.replicate 20 0 → Concerns H w lastHeight tx
  | spends {u : UTXO} : u ∈ tx.outpoints → u ∈ w.utxos → Concerns H w lastHeight tx
  | respends {u : UTXO} {p : Ptr} {s : BRTransaction} : u ∈ tx.outpoints → w.Owns u →
      p ∈ w.transactions → w.heap.load p = some s → u ∈ s.outpoints →
      lateHeight lastHeight ≤ s.blockHeight → Concerns H w lastHeight tx

/-- The filter finds the hash of an address that the transaction pays, or an outpoint that it
    spends. -/
def FilterMatches (H : Hashes) (f : BRBloomFilter) (tx : BRTransaction) : Prop :=
  (∃ o ∈ tx.outputs, f.Found (addressHash160 H o.address)) ∨ ∃ u ∈ tx.outpoints, f.Found u.data

/-- The filter is filled, and matches what concerns the wallet. -/
theorem bloomFilterOf_found (H : Hashes) (formula : ℕ → ℕ × UInt32) (tweak : UInt32)
    (lastHeight : UInt32) (hlive : w.Registry) (ho : w.Ordered) (haddrs : w.AllAddrs) :
    ∃ f, bloomFilterOf H formula tweak w lastHeight = some f ∧ 0 < f.length ∧
      f.length ≤ BLOOM_MAX_FILTER_LENGTH ∧
      ∀ tx, Concerns H w lastHeight tx → FilterMatches H f tx := by
  set transactions := w.transactions.filter
    (w.heightTest fun height => decide (height ≥ lateHeight lastHeight)) with htransactions
  have hquery : w.txUnconfirmedBefore w.transactions.length (lateHeight lastHeight) =
      some transactions := by
    simp only [BRWallet.txUnconfirmedBefore,
      BRWallet.suffix_eq ho hlive (BRWallet.ge_mono (lateHeight lastHeight)),
      Option.bind_eq_bind, Option.bind_some, Option.some.injEq]
    exact List.take_of_length_le (List.length_filter_le _ _)
  set count := (w.internalChain ++ w.externalChain).length + w.utxos.length +
    transactions.length + 100 with hcount
  obtain ⟨hpos, hmax⟩ := BRBloomFilter.length_new (formula count).1 (formula count).2 tweak
    BLOOM_UPDATE_ALL
  -- the three loops
  obtain ⟨f₁, h₁, hext₁, hfound₁⟩ := BRBloomFilter.foldlM_watch (watchAddress H)
    (w.internalChain ++ w.externalChain)
    (fun a => if addressHash160 H a = List.replicate 20 0 then [] else [addressHash160 H a]) (by
      intro a _ f hf
      obtain ⟨g, hg, hext, ha⟩ := watchAddress_spec (H := H) hf a
      refine ⟨g, hg, hext, ?_⟩
      intro data hdata
      split_ifs at hdata with hzero
      · simp at hdata
      · obtain rfl := List.mem_singleton.1 hdata
        exact ha hzero) hpos
  obtain ⟨f₂, h₂, hext₂, hfound₂⟩ := BRBloomFilter.foldlM_watch watchUTXO w.utxos
    (fun u => [u.data]) (by
      intro u _ f hf
      obtain ⟨g, hg, hext, hu⟩ := BRBloomFilter.watch_spec hf u.data
      exact ⟨g, hg, hext, fun data hdata => List.mem_singleton.1 hdata ▸ hu⟩) (hext₁.pos hpos)
  obtain ⟨f₃, h₃, hext₃, hfound₃⟩ := BRBloomFilter.foldlM_watch (watchInputs w)
    transactions (fun p => (w.heap.load p).elim [] (ownedData w)) (by
      intro p hp f hf
      obtain ⟨s, hs⟩ := hlive.live p (List.mem_filter.1 hp).1
      obtain ⟨g, hg, hext, hdata⟩ := watchInputs_spec hf hs
      refine ⟨g, hg, hext, ?_⟩
      rw [hs]
      exact hdata) (hext₂.pos (hext₁.pos hpos))
  have hlike := (hext₁.trans (hext₂.trans hext₃)).alike
  refine ⟨f₃, ?_, ?_, ?_, ?_⟩
  · rw [bloomFilterOf]
    simp only [hquery, Option.bind_eq_bind, Option.bind_some, ← hcount, h₁, h₂, h₃]
  · rwa [hlike.length]
  · rwa [hlike.length]
  · intro tx hconcerns
    cases hconcerns with
    | @pays o ho hmem hhash =>
      refine Or.inl ⟨o, ho, hext₃.found _ (hext₂.found _ (hfound₁ o.address ?_ _ ?_))⟩
      · rw [haddrs, Finset.mem_union, List.mem_toFinset, List.mem_toFinset] at hmem
        exact List.mem_append.2 hmem
      · rw [if_neg hhash]
        exact List.mem_singleton_self _
    | @spends u hu hutxo =>
      exact Or.inr ⟨u, hu, hext₃.found _ (hfound₂ u hutxo _ (List.mem_singleton_self _))⟩
    | @respends u p s hu howns hp hs hspends hheight =>
      obtain ⟨i, hi, rfl⟩ := List.mem_map.1 hspends
      refine Or.inr ⟨i.outpoint, hu, hfound₃ p ?_ _ ?_⟩
      · rw [htransactions, List.mem_filter, BRWallet.heightTest, hs]
        exact ⟨hp, decide_eq_true hheight⟩
      · rw [hs]
        exact List.mem_map.2 ⟨i, List.mem_filter.2 ⟨hi, BRWallet.ownsInput_iff.2 howns⟩, rfl⟩

end

/-! ## Runs -/

/-- The updates of a run leave the list of transactions in its order. -/
def chainGuard (w : BRWallet) : ChainOp → Prop
  | .op op => BRWallet.orderGuard w op
  | .unusedAddrs _ _ => True

/-- What holds of the wallet in such a run. -/
structure Watchable (w : BRWallet) : Prop where
  listed : w.Listed
  registry : w.Registry
  ordered : w.Ordered
  allAddrs : w.AllAddrs

section
variable {env : Env} {w w' : BRWallet}

theorem Watchable.unusedAddrs {fuel gap : ℕ} {internal : Bool} {addrs : List BRAddress}
    (hw : Watchable w) (h : w.unusedAddrs env fuel gap internal = some (w', addrs)) :
    Watchable w' := by
  obtain ⟨c, aa, -, rfl, ha⟩ := BRWallet.unusedAddrs_some h
  cases internal with
  | true => exact ⟨hw.listed, ⟨hw.registry.live, hw.registry.utxos⟩, hw.ordered, ha hw.allAddrs⟩
  | false => exact ⟨hw.listed, ⟨hw.registry.live, hw.registry.utxos⟩, hw.ordered, ha hw.allAddrs⟩

theorem step_watchable {op : ChainOp} (hw : Watchable w) (hg : chainGuard w op)
    (h : (BRWallet.chainSystem env).step w op w') : Watchable w' := by
  cases op with
  | op op =>
    have hregistry := BRWallet.step_registry hw.listed hw.registry
      (BRWallet.orderGuard_registryGuard hg) h
    exact ⟨BRWallet.step_listed hw.listed h, hregistry,
      BRWallet.step_ordered hw.listed hw.registry hw.ordered hg h,
      BRWallet.step_allAddrs hw.allAddrs h⟩
  | unusedAddrs gapLimit internal =>
    obtain ⟨fuel, addrs, h⟩ := h
    exact hw.unusedAddrs h

theorem run_watchable (h : (BRWallet.chainSystem env).Run chainGuard w) : Watchable w := by
  refine h.invariant (J := fun _ => True) (fun _ => trivial) ?_ ?_
  · intro w h
    exact ⟨BRWallet.init_listed h, BRWallet.init_registry h, BRWallet.init_ordered h,
      BRWallet.init_allAddrs h⟩
  · intro w op w' _ hw hg h _
    exact step_watchable hw hg h

/-- The filter that is sent matches every transaction that concerns the wallet as it is then, with
    the spare addresses. -/
theorem run_matched (H : Hashes) (formula : ℕ → ℕ × UInt32) (tweak : UInt32) {fuel : ℕ}
    {m m' : BRBlockManager} (hrun : (BRWallet.chainSystem env).Run chainGuard m.wallet)
    (hload : m.loadBloomFilter env fuel = some m') :
    ∃ f last, m.loadFilter H formula tweak env fuel = some (m', f) ∧ m'.last = some last ∧
      f.length ≤ BLOOM_MAX_FILTER_LENGTH ∧
      ∀ malloc f', BRBloomFilter.parse malloc f.serialize = some f' →
        ∀ tx, Concerns H m'.wallet last.height tx → FilterMatches H f' tx := by
  obtain ⟨wallet, hspare, last, hlast, hm'⟩ : ∃ wallet,
      BRBlockManager.spareAddrs env fuel m.wallet = some wallet ∧ ∃ last, m'.last = some last ∧
        m'.wallet = wallet := by
    simp only [BRBlockManager.loadBloomFilter, Option.bind_eq_bind, Option.bind_eq_some_iff,
      Option.some.injEq] at hload
    obtain ⟨wallet, hspare, last, hlast, ps, -, rfl⟩ := hload
    exact ⟨wallet, hspare, last, hlast, rfl⟩
  have hw : Watchable m'.wallet := by
    simp only [BRBlockManager.spareAddrs, Option.bind_eq_bind, Option.bind_eq_some_iff,
      Prod.exists, Option.some.injEq] at hspare
    obtain ⟨w₁, as₁, h₁, w₂, as₂, h₂, rfl⟩ := hspare
    exact hm' ▸ ((run_watchable hrun).unusedAddrs h₁).unusedAddrs h₂
  obtain ⟨f, hf, hpos, hmax, hmatched⟩ := bloomFilterOf_found H formula tweak last.height
    hw.registry hw.ordered hw.allAddrs
  refine ⟨f, last, ?_, hlast, hmax, ?_⟩
  · simp only [BRBlockManager.loadFilter, hload, hlast, hf, Option.bind_eq_bind, Option.bind_some]
  · intro malloc f' hparse tx hconcerns
    rcases hmatched tx hconcerns with ⟨o, ho, hfound⟩ | ⟨u, hu, hfound⟩
    · exact Or.inl ⟨o, ho, BRBloomFilter.found_of_parse hpos hmax hparse hfound⟩
    · exact Or.inr ⟨u, hu, BRBloomFilter.found_of_parse hpos hmax hparse hfound⟩

/-- Spends the output that the wallet received. -/
def filteredSpend : BRTransaction := { inputs := [{ txHash := 1, index := 0 }] }

theorem run_matched_receipt : ∃ (m m' : BRBlockManager) (f f' : BRBloomFilter),
    m.loadFilter smallHashes (fun _ => (10, 5)) 7 BRWallet.sampleEnv 200 = some (m', f) ∧
      BRBloomFilter.parse (fun _ => true) f.serialize = some f' ∧
      FilterMatches smallHashes f' filteredSpend := by
  have hgood : (BRWallet.new BRWallet.sampleEnv 200 0 ⟨[some BRWallet.receipt]⟩ [0]).join.any
      (fun w => (BRBlockManager.loadBloomFilter BRWallet.sampleEnv 200
        { wallet := w, params := BRBlockManager.sampleParams
          heap := ⟨[some (BRBlockManager.sampleBlock 1 0)]⟩, lastBlock := some 0 }).any
        fun m => decide ((⟨1, 0⟩ : UTXO) ∈ m.wallet.utxos)) = true := by
    decide +kernel
  simp only [Option.any_eq_true, Option.join_eq_some_iff, decide_eq_true_eq] at hgood
  obtain ⟨w, hw, m', hload, hutxo⟩ := hgood
  obtain ⟨f, last, hfilter, -, hmax, hmatched⟩ := run_matched smallHashes (fun _ => (10, 5)) 7
    (.init ⟨200, 0, _, _, hw⟩) hload
  have hparse : BRBloomFilter.parse (fun _ => true) f.serialize =
      some { f with elemCount := 0 } := by
    rw [BRBloomFilter.parse_of_serialize hmax, if_pos rfl]
  exact ⟨_, m', f, _, hfilter, hparse,
    hmatched _ _ hparse _ (.spends (u := ⟨1, 0⟩) (List.mem_singleton_self _) hutxo)⟩

end

end RavenWallet
