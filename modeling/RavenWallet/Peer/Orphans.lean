/-
  Orphans and the estimated height (`_peerRelayedBlock`).

  A header in the newer format carries a height, which the parser puts where the
  manager keeps the heights of linked blocks.  At its end `_peerRelayedBlock` takes a
  height that is known for that of a linked block, but an orphan that is kept comes
  there too.
-/
import RavenWallet.Peer.Blocks

namespace RavenWallet

namespace BRBlockManager

variable (m m' : BRBlockManager)

/-- What an orphan is to leave as it is. -/
structure Unmoved : Prop where
  lastBlock : m'.lastBlock = m.lastBlock
  estimatedHeight : m'.estimatedHeight = m.estimatedHeight
  blockHeight : ∀ p, (m'.wallet.heap.load p).map BRTransaction.blockHeight =
    (m.wallet.heap.load p).map BRTransaction.blockHeight

/-- An orphan is kept. -/
def KeepsOrphan (now : ℤ) (block : BRMerkleBlock UInt256) : Prop :=
  ¬ (block.totalTx = 0 ∧ block.timestamp + WEEK > m.earliestKeyTime + 2 * 60 * 60) ∧
    m.bloomFilter = true ∧ ¬ ((block.timestamp + WEEK).toNat : ℤ) < now

/-- The height of a block says nothing new. -/
def HeightKnown (block : BRMerkleBlock UInt256) : Prop :=
  block.height = BLOCK_UNKNOWN_HEIGHT ∨ block.height ≤ m.estimatedHeight

/-- The block at `p` is an orphan. -/
def Orphan (p : Ptr) (block : BRMerkleBlock UInt256) : Prop :=
  m.heap.load p = some block ∧ m.blocks.lookup block.prevBlock = none

/-- If the event relays an orphan, then nothing moves. -/
def KeepsTip (event : BlockEvent) : Prop :=
  match event with
  | .relayedBlock _ _ _ _ p => ∀ block, m.Orphan p block → Unmoved m m'
  | _ => True

/-- If the event relays an orphan that is kept, then its height says nothing new. -/
def OrphanKnown (event : BlockEvent) : Prop :=
  match event with
  | .relayedBlock now _ _ _ p =>
    ∀ block, m.Orphan p block → m.KeepsOrphan now block → m.HeightKnown block
  | _ => True

/-! ## The handler -/

section

variable {m m'} {env : Env} {fuel : ℕ} {now : ℤ} {peer : PeerAddr} {peerLastBlock : UInt32}
  {degraded : Bool} {p : Ptr} {block : BRMerkleBlock UInt256} {txHashes : List UInt256}
  {txTime : UInt32} {fate : Fate}

theorem Unmoved.iff {m₁ : BRBlockManager} (h : Unmoved m m₁) : Unmoved m m' ↔ Unmoved m₁ m' := by
  constructor
  · intro h'
    exact ⟨h'.lastBlock.trans h.lastBlock.symm, h'.estimatedHeight.trans h.estimatedHeight.symm,
      fun p => (h'.blockHeight p).trans (h.blockHeight p).symm⟩
  · intro h'
    exact ⟨h'.lastBlock.trans h.lastBlock, h'.estimatedHeight.trans h.estimatedHeight,
      fun p => (h'.blockHeight p).trans (h.blockHeight p)⟩

theorem setHeight_orphan (h : m.Orphan p block) : m.setHeight p =
    some ({ m with heap := m.heap.store p block, relayed := m.relayed.erase p }, block, none) := by
  obtain ⟨hp, hprev⟩ := h
  simp [setHeight, getBlockAt, hp, hprev]

/-- Which branch is taken for an orphan. -/
theorem fate_orphan (h : m.fate fuel now peerLastBlock p block none = some (fate, m')) :
    m' = m ∧ (fate = .orphan ∧ m.KeepsOrphan now block ∨
      (fate = .header ∨ fate = .incomplete ∨ fate = .oldOrphan) ∧ ¬ m.KeepsOrphan now block) := by
  unfold BRBlockManager.fate at h
  unfold KeepsOrphan
  split_ifs at h with hheader hfilter hold
  · cases h
    exact ⟨rfl, .inr ⟨.inl rfl, fun hkeep => hkeep.1 hheader⟩⟩
  · cases h
    refine ⟨rfl, .inr ⟨.inr (.inl rfl), fun hkeep => ?_⟩⟩
    rw [hkeep.2.1] at hfilter
    cases hfilter
  · cases h
    exact ⟨rfl, .inr ⟨.inr (.inr rfl), fun hkeep => hkeep.2.2 hold⟩⟩
  · cases h
    exact ⟨rfl, .inl ⟨rfl, hheader, by simpa using hfilter, hold⟩⟩

/-- An orphan that is not kept is freed, and nothing moves. -/
theorem settle_unmoved (hfate : fate = .header ∨ fate = .incomplete ∨ fate = .oldOrphan)
    {saveCount : Option ℕ}
    (h : m.settle env fuel now peer peerLastBlock degraded p block txHashes txTime fate =
      some (m', saveCount)) : saveCount = none ∧ Unmoved m m' := by
  rcases hfate with rfl | rfl | rfl
  · cases h
    exact ⟨rfl, rfl, rfl, fun _ => rfl⟩
  · simp only [settle] at h
    split_ifs at h
    · obtain ⟨last, -, h⟩ := Option.bind_eq_some_iff.1 h
      cases h
      split_ifs <;> exact ⟨rfl, rfl, rfl, fun _ => rfl⟩
    · cases h
      exact ⟨rfl, rfl, rfl, fun _ => rfl⟩
  · cases h
    exact ⟨rfl, rfl, rfl, fun _ => rfl⟩

/-- A block that is not freed raises the estimated height, if its height is known. -/
theorem takeNext_unmoved : Unmoved m (m.takeNext block) ↔ m.HeightKnown block := by
  unfold takeNext HeightKnown
  by_cases hheight : block.height = BLOCK_UNKNOWN_HEIGHT
  · simp only [hheight, ne_eq, not_true_eq_false, if_false, true_or, iff_true]
    exact ⟨rfl, rfl, fun _ => rfl⟩
  · simp only [ne_eq, hheight, not_false_eq_true, if_true, false_or]
    constructor
    · intro h
      have hestimate : (if block.height > m.estimatedHeight then block.height
          else m.estimatedHeight) = m.estimatedHeight := h.estimatedHeight
      by_contra hle
      rw [UInt32.not_le] at hle
      rw [if_pos hle] at hestimate
      rw [hestimate] at hle
      exact UInt32.lt_irrefl _ hle
    · intro hle
      exact ⟨rfl, if_neg (UInt32.not_lt.2 hle), fun _ => rfl⟩

theorem saveBlocks_zero : m.saveBlocks 0 block = some m := rfl

/-- A relayed orphan moves nothing exactly if it is not kept or its height says nothing new. -/
theorem relayedBlock_unmoved (horphan : m.Orphan p block)
    (h : m.relayedBlock env fuel now peer peerLastBlock degraded p = some m') :
    Unmoved m m' ↔ (m.KeepsOrphan now block → m.HeightKnown block) := by
  simp only [relayedBlock, setHeight_orphan horphan, Option.bind_eq_bind, Option.bind_some,
    Option.bind_eq_some_iff, Option.map_none] at h
  obtain ⟨count, -, txHashes, -, ⟨fate, m₁⟩, hm₁, ⟨m₂, saveCount⟩, hm₂, h⟩ := h
  obtain ⟨rfl, hfate⟩ := fate_orphan hm₁
  rcases hfate with ⟨rfl, hkeep⟩ | ⟨hfate, hkeep⟩
  · -- the block is an orphan to the end, where no block is saved
    simp only [settle, Option.bind_eq_bind, Option.bind_eq_some_iff, Option.some.injEq,
      Prod.mk.injEq] at hm₂
    obtain ⟨m₃, hm₃, rfl, rfl⟩ := hm₂
    obtain ⟨getblocks, rfl⟩ := requestBlocks_cases hm₃
    simp only [saveBlocks_zero, Option.some.injEq] at h
    subst h
    refine (Unmoved.iff ?_).trans (takeNext_unmoved.trans ?_)
    · exact ⟨rfl, rfl, fun _ => rfl⟩
    · exact ⟨fun hknown _ => hknown, fun hknown => hknown hkeep⟩
  · obtain ⟨rfl, hmoved⟩ := settle_unmoved hfate hm₂
    cases h
    have hmoved : Unmoved m m₂ := ⟨hmoved.lastBlock, hmoved.estimatedHeight, hmoved.blockHeight⟩
    exact ⟨fun _ hkept => absurd hkept hkeep, fun _ => hmoved⟩

end

/-! ## Runs -/

/-- In a run the orphans move nothing exactly if the height of none that is kept is news. -/
theorem steps_keepsTip_iff (env : Env) (steps : List (BRBlockManager × BlockEvent × BRBlockManager))
    (m : BRBlockManager) (h : (system env).Steps steps m) :
    (∀ x ∈ steps, KeepsTip x.1 x.2.2 x.2.1) ↔ ∀ x ∈ steps, OrphanKnown x.1 x.2.1 := by
  refine System.Steps.forall_iff (P := fun s event s' => KeepsTip s s' event)
    (Q := fun s event _ => OrphanKnown s event) ?_ h
  rintro s event s' - ⟨-, fuel, hstep⟩
  cases event with
  | relayedBlock now peer peerLastBlock degraded p =>
    exact forall₂_congr fun block horphan => relayedBlock_unmoved horphan hstep
  | _ => exact Iff.rfl

/-- An orphan in the newer format, with the height of its header. -/
def sampleOrphan (height : UInt32) : BRMerkleBlock UInt256 :=
  { sampleBlock 5 4 with timestamp := KAWPOW_ActivationTime, height }

/-- The manager after it has received an orphan with the height, and after that was relayed. -/
def orphanRun (height : UInt32) : Option (BRBlockManager × BRBlockManager × BRBlockManager) :=
  (BRWallet.new BRWallet.sampleEnv 200 0 ⟨[some BRWallet.receipt]⟩ [0]).join.bind fun w =>
  (new 200 sampleParams w 0 ⟨[]⟩ []).bind fun m₀ =>
  ([BlockEvent.loadBloomFilter, .receive (sampleOrphan height)].foldlM
    (exec BRWallet.sampleEnv 200) m₀).bind fun m₁ =>
  (exec BRWallet.sampleEnv 200 m₁ (.relayedBlock 0 ⟨0, 0⟩ 10 false 2)).map fun m₂ => (m₀, m₁, m₂)

theorem orphanRun_steps {height : UInt32} {m₀ m₁ m₂ : BRBlockManager}
    (h : orphanRun height = some (m₀, m₁, m₂)) : ∃ m : BRBlockManager,
    (system BRWallet.sampleEnv).Steps [(m₀, .loadBloomFilter, m),
      (m, .receive (sampleOrphan height), m₁), (m₁, .relayedBlock 0 ⟨0, 0⟩ 10 false 2, m₂)] m₂ := by
  simp only [orphanRun, Option.bind_eq_some_iff, Option.map_eq_some_iff, Prod.mk.injEq,
    Option.join_eq_some_iff, List.foldlM_cons, List.foldlM_nil, Option.bind_eq_bind,
    Option.pure_def, Option.some.injEq] at h
  obtain ⟨w, hw, m₀, hm₀, _, ⟨m, hm, m₁, hm₁, rfl⟩, m₂, hm₂, rfl, rfl, rfl⟩ := h
  have hexec : ∀ {m m' : BRBlockManager} {event : BlockEvent},
      exec BRWallet.sampleEnv 200 m event = some m' →
      (system BRWallet.sampleEnv).step m event m' := by
    intro m m' event h
    unfold exec at h
    split_ifs at h with henabled
    exact ⟨henabled, 200, h⟩
  have hinit : (system BRWallet.sampleEnv).init m₀ :=
    ⟨200, _, w, 0, _, [], ⟨200, 0, _, _, hw⟩, by simp, hm₀⟩
  exact ⟨m, (((System.Steps.init hinit).step (hexec hm)).step (hexec hm₁)).step (hexec hm₂)⟩

/-- The orphan keeps its unknown height. -/
theorem steps_keepsTip_sample : ∃ steps m, (system BRWallet.sampleEnv).Steps steps m ∧
    (∃ x ∈ steps, ∃ now peer peerLastBlock degraded p block,
      x.2.1 = .relayedBlock now peer peerLastBlock degraded p ∧ x.1.Orphan p block) ∧
    ∀ x ∈ steps, KeepsTip x.1 x.2.2 x.2.1 := by
  have hgood : (orphanRun BLOCK_UNKNOWN_HEIGHT).any (fun s =>
      s.2.1.heap.load 2 = some (sampleOrphan BLOCK_UNKNOWN_HEIGHT) ∧
      s.2.1.blocks.lookup 4 = none) = true := by
    decide +kernel
  simp only [Option.any_eq_true, decide_eq_true_eq] at hgood
  obtain ⟨⟨m₀, m₁, m₂⟩, hrun, hload, hlookup⟩ := hgood
  obtain ⟨m, hsteps⟩ := orphanRun_steps hrun
  have hmem : (m₁, BlockEvent.relayedBlock 0 ⟨0, 0⟩ 10 false 2, m₂) ∈
      [(m₀, .loadBloomFilter, m), (m, .receive (sampleOrphan BLOCK_UNKNOWN_HEIGHT), m₁),
        (m₁, .relayedBlock 0 ⟨0, 0⟩ 10 false 2, m₂)] := by simp
  refine ⟨_, m₂, hsteps, ⟨_, hmem, 0, ⟨0, 0⟩, 10, false, 2, _, rfl, hload, hlookup⟩, ?_⟩
  refine (steps_keepsTip_iff BRWallet.sampleEnv _ m₂ hsteps).2 ?_
  intro x hx
  simp only [List.mem_cons, List.not_mem_nil, or_false] at hx
  rcases hx with rfl | rfl | rfl
  · trivial
  · trivial
  · rintro block ⟨hblock, -⟩ -
    rw [hload, Option.some.injEq] at hblock
    exact .inl (hblock ▸ rfl)

/-- An orphan of height 5000000 sets the estimated height. -/
theorem not_steps_keepsTip : ¬ ∀ (env : Env)
    (steps : List (BRBlockManager × BlockEvent × BRBlockManager)) (m : BRBlockManager),
    (system env).Steps steps m → ∀ x ∈ steps, KeepsTip x.1 x.2.2 x.2.1 := by
  intro h
  have hbad : (orphanRun 5000000).any (fun s => s.2.1.heap.load 2 = some (sampleOrphan 5000000) ∧
      s.2.1.blocks.lookup 4 = none ∧ s.2.1.estimatedHeight = 0 ∧
      s.2.2.estimatedHeight = 5000000) = true := by
    decide +kernel
  simp only [Option.any_eq_true, decide_eq_true_eq] at hbad
  obtain ⟨⟨m₀, m₁, m₂⟩, hrun, hload, hlookup, hbefore, hafter⟩ := hbad
  obtain ⟨m, hsteps⟩ := orphanRun_steps hrun
  have hmem : (m₁, BlockEvent.relayedBlock 0 ⟨0, 0⟩ 10 false 2, m₂) ∈
      [(m₀, .loadBloomFilter, m), (m, .receive (sampleOrphan 5000000), m₁),
        (m₁, .relayedBlock 0 ⟨0, 0⟩ 10 false 2, m₂)] := by simp
  have hkept : KeepsTip m₁ m₂ (.relayedBlock 0 ⟨0, 0⟩ 10 false 2) := h _ _ _ hsteps _ hmem
  have hmoved : Unmoved m₁ m₂ := hkept _ ⟨hload, hlookup⟩
  have hestimate := hmoved.estimatedHeight
  rw [hbefore, hafter] at hestimate
  exact absurd hestimate (by decide)

end BRBlockManager

end RavenWallet
