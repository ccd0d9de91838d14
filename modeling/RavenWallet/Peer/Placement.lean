/-
  The heights of the blocks in the set (BRPeerManager.c).

  A block of a chain is one higher than the block before it, so the chain gives each
  hash a `height`.  `Placement`: the blocks on the heap belong to such a chain, and
  those in the set of blocks are at their heights.  Nothing is asked of `lastBlock`,
  `lastOrphan` and the checkpoints, which may point to freed blocks, so every step
  keeps it: `run_placed`.
-/
import RavenWallet.Peer.BlockLiveness

namespace RavenWallet

/-! ## Linked blocks -/

/-- The block has a known height in the chain, the one after that of the block before it. -/
structure Links (height : UInt256 → UInt32) (b : BRMerkleBlock UInt256) : Prop where
  nonzero : b.blockHash ≠ 0
  known : height b.blockHash ≠ BLOCK_UNKNOWN_HEIGHT
  follows : b.prevBlock = 0 ∨ (height b.blockHash).toNat = (height b.prevBlock).toNat + 1

/-- A linked block with its height in the chain. -/
structure AtHeight (height : UInt256 → UInt32) (b : BRMerkleBlock UInt256) : Prop where
  links : Links height b
  height : b.height = height b.blockHash

/-- `c` comes right before `b`. -/
def Joined (b c : BRMerkleBlock UInt256) : Prop :=
  b.prevBlock = c.blockHash ∧ b.height.toNat = c.height.toNat + 1

section
variable {height : UInt256 → UInt32} {b c : BRMerkleBlock UInt256}

theorem Links.setHeight (h : Links height b) (n : UInt32) : Links height { b with height := n } :=
  ⟨h.nonzero, h.known, h.follows⟩

theorem Links.after (h : Links height b) (hc : Links height c) (hlink : b.prevBlock = c.blockHash) :
    (height b.blockHash).toNat = (height c.blockHash).toNat + 1 := by
  rcases h.follows with hzero | hfollows
  · exact absurd (hlink.symm.trans hzero) hc.nonzero
  · rw [hfollows, hlink]

theorem AtHeight.joined (h : AtHeight height b) (hc : AtHeight height c)
    (hlink : b.prevBlock = c.blockHash) : Joined b c := by
  refine ⟨hlink, ?_⟩
  rw [h.height, hc.height, h.links.after hc.links hlink]

/-- The height that a block gets from the one before it. -/
theorem AtHeight.next (hc : AtHeight height c) (h : Links height b)
    (hlink : b.prevBlock = c.blockHash) :
    AtHeight height { b with height := c.height + 1 } := by
  refine ⟨h.setHeight _, ?_⟩
  show c.height + 1 = height b.blockHash
  have hafter := h.after hc.links hlink
  rw [hc.height]
  apply UInt32.toNat_inj.1
  have hlt := (height b.blockHash).toNat_lt
  rw [UInt32.toNat_add, hafter, UInt32.toNat_one]
  exact Nat.mod_eq_of_lt (by omega)

theorem AtHeight.ne_unknown (h : AtHeight height b) : b.height ≠ BLOCK_UNKNOWN_HEIGHT := by
  rw [h.height]
  exact h.links.known

end

/-! ## The sets -/

/-- The sets, with the blocks `relayed` that belong to none of them, and the heights of the
    blocks. -/
structure Placement (height : UInt256 → UInt32) (heap : Heap (BRMerkleBlock UInt256))
    (blocks orphans : AList fun _ : UInt256 => Ptr) (relayed : List Ptr) : Prop where
  pool : Pool heap blocks orphans ∅ relayed
  links : ∀ {p b}, heap.load p = some b → Links height b
  placed : ∀ {p b}, Holds blocks p → heap.load p = some b → b.height = height b.blockHash

namespace Placement

variable {height : UInt256 → UInt32} {heap : Heap (BRMerkleBlock UInt256)}
  {blocks orphans orphans' : AList fun _ : UInt256 => Ptr} {r r' : List Ptr} {p q : Ptr}
  {b : BRMerkleBlock UInt256} {hash : UInt256}

theorem atHeight (h : Placement height heap blocks orphans r) (hp : Holds blocks p)
    (hb : heap.load p = some b) : AtHeight height b := ⟨h.links hb, h.placed hp hb⟩

/-- A key is that of its block. -/
theorem key (h : Placement height heap blocks orphans r) (hp : blocks.lookup hash = some p)
    (hb : heap.load p = some b) : b.blockHash = hash := h.pool.byHash.key hp hb

theorem perm (h : Placement height heap blocks orphans r) (hr : r.Perm r') :
    Placement height heap blocks orphans r' := ⟨h.pool.perm hr, h.links, h.placed⟩

/-- The block in hand is freed. -/
theorem free (h : Placement height heap blocks orphans (p :: r)) :
    Placement height (heap.free p) blocks orphans r where
  pool := h.pool.free
  links hb := h.links (Heap.load_free_some hb).2
  placed hq hb := h.placed hq (Heap.load_free_some hb).2

/-- The block in hand gets a height. -/
theorem store (h : Placement height heap blocks orphans (p :: r)) (hb : Links height b) :
    Placement height (heap.store p b) blocks orphans (p :: r) := by
  obtain ⟨⟨y, hy⟩, hp, -⟩ := h.pool.head
  refine ⟨h.pool.store b, ?_, ?_⟩
  · intro q c hc
    by_cases hq : p = q
    · subst hq
      rw [Heap.load_store_self b hy, Option.some.injEq] at hc
      exact hc ▸ hb
    · rw [Heap.load_store_ne heap b hq] at hc
      exact h.links hc
  · intro q c hheld hc
    rw [Heap.load_store_ne] at hc
    · exact h.placed hheld hc
    · rintro rfl
      exact hp hheld

/-- A block is received. -/
theorem alloc (h : Placement height heap blocks orphans r) (hb : Links height b) :
    Placement height (heap.alloc b) blocks orphans (heap.fresh :: r) := by
  refine ⟨h.pool.alloc b, ?_, ?_⟩
  · intro q c hc
    rcases Heap.load_alloc_some hc with ⟨-, rfl⟩ | hc
    · exact hb
    · exact h.links hc
  · intro q c hheld hc
    obtain ⟨x, hx⟩ := h.pool.byHash.live hheld
    rw [Heap.load_alloc b hx, ← hx] at hc
    exact h.placed hheld hc

/-- The block in hand is added to the blocks. -/
theorem insertBlock (h : Placement height heap blocks orphans (p :: r))
    (hp : heap.load p = some b) (hb : b.height = height b.blockHash) :
    Placement height heap (blocks.insert b.blockHash p) orphans r := by
  refine ⟨h.pool.insertBlock hp, h.links, ?_⟩
  intro q c hq hc
  rcases holds_insert hq with rfl | hq
  · rw [hp, Option.some.injEq] at hc
    exact hc ▸ hb
  · exact h.placed hq hc

/-- The block in hand replaces one that is freed. -/
theorem replace {old : Ptr} (h : Placement height heap blocks orphans (p :: r))
    (hp : heap.load p = some b) (hb : b.height = height b.blockHash)
    (hold : blocks.lookup b.blockHash = some old) :
    Placement height (heap.free old) (blocks.insert b.blockHash p) orphans r where
  pool := h.pool.replace hp hold (not_holds_empty old)
  links hc := h.links (Heap.load_free_some hc).2
  placed hq hc := (h.insertBlock hp hb).placed hq (Heap.load_free_some hc).2

/-- A block is pruned. -/
theorem prune (h : Placement height heap blocks orphans r) (hq : blocks.lookup hash = some q) :
    Placement height (heap.free q) (blocks.erase hash) orphans r where
  pool := (h.pool.takeBlock hq (not_holds_empty q)).free
  links hc := h.links (Heap.load_free_some hc).2
  placed hp hc := h.placed hp.of_erase (Heap.load_free_some hc).2

/-- Only the orphans and the blocks in hand change. -/
theorem of_pool (h : Placement height heap blocks orphans r)
    (hpool : Pool heap blocks orphans' ∅ r') : Placement height heap blocks orphans' r' :=
  ⟨hpool, h.links, h.placed⟩

/-- The orphans are freed. -/
theorem freeOrphans (h : Placement height heap blocks orphans r) :
    Placement height (orphans.entries.foldl (fun heap e => heap.free e.2) heap) blocks ∅ r := by
  refine ⟨h.pool.freeOrphans, ?_, ?_⟩
  · intro p b hb
    exact h.links (load_freeAll_some hb)
  · intro p b hp hb
    exact h.placed hp (load_freeAll_some hb)

end Placement

namespace BRBlockManager

/-- The blocks of the set are at their heights, and no more were saved; `hand` are the blocks in
    hand besides those to be relayed. -/
structure Placed (height : UInt256 → UInt32) (saved : List (Bool × List (BRMerkleBlock UInt256)))
    (m : BRBlockManager) (hand : List Ptr) : Prop where
  placement : Placement height m.heap m.blocks m.orphans (hand ++ m.relayed)
  saved : m.saved = saved

/-- The `lastBlock` is the block at `p`. -/
structure Tip (m : BRBlockManager) (p : Ptr) (block : BRMerkleBlock UInt256) : Prop where
  lastBlock : m.lastBlock = some p
  held : Holds m.blocks p
  load : m.heap.load p = some block

section
variable {height : UInt256 → UInt32} {env : Env} {m m' : BRBlockManager} {hand : List Ptr}
  {saved : List (Bool × List (BRMerkleBlock UInt256))} {p : Ptr} {block : BRMerkleBlock UInt256}
  {prev : Option BlockAt} {fuel : ℕ} {now : ℤ}
  {peer : PeerAddr} {peerLastBlock : UInt32} {degraded : Bool} {txHashes : List UInt256}
  {txTime : UInt32}

theorem Tip.last (h : m.Tip p block) : m.last = some block := by
  rw [BRBlockManager.last, h.lastBlock]
  exact h.load

/-! ## The bloom filter -/

theorem loadBloomFilter_placed (h : m.Placed height saved hand)
    (hm : m.loadBloomFilter env fuel = some m') :
    m'.Placed height saved hand ∧ ∀ p block, m.Tip p block → m'.Tip p block := by
  simp only [loadBloomFilter, Option.bind_eq_bind, Option.bind_eq_some_iff] at hm
  obtain ⟨wallet, -, last, -, unconfirmed, -, hm⟩ := hm
  cases hm
  refine ⟨⟨h.placement.freeOrphans, h.saved⟩, ?_⟩
  rintro p block ⟨hlast, hheld, hload⟩
  refine ⟨hlast, hheld, (load_freeAll_of_not_holds ?_).trans hload⟩
  intro ho
  exact (h.placement.pool.orphaned p ho).1 hheld

theorem loadMempools_placed (h : m.Placed height saved hand) (ht : m.Tip p block)
    (hm : m.loadMempools env fuel degraded = some m') :
    m'.Placed height saved hand ∧ m'.Tip p block := by
  refine foldlM_invariant (P := fun m => m.Placed height saved hand ∧ m.Tip p block) ?_ ⟨h, ht⟩ hm
  rintro s c s' - ⟨hs, hts⟩ hstep
  by_cases hc : c.connected = true ∧ (s.downloadPeer ≠ some c.peer ∨ degraded = true)
  · rw [if_pos hc] at hstep
    obtain ⟨hs', htip⟩ := loadBloomFilter_placed hs hstep
    exact ⟨hs', htip p block hts⟩
  · rw [if_neg hc] at hstep
    cases hstep
    exact ⟨hs, hts⟩

theorem completeDownload_placed (h : m.Placed height saved hand) (ht : m.Tip p block)
    {saveCount saveCount' : ℕ}
    (hm : m.completeDownload env fuel degraded block saveCount = some (m', saveCount')) :
    m'.Placed height saved hand ∧ m'.Tip p block := by
  unfold completeDownload at hm
  split_ifs at hm with hheight
  · obtain ⟨m₁, hm₁, heq⟩ := Option.map_eq_some_iff.1 hm
    cases heq
    exact loadMempools_placed h ht hm₁
  · cases hm
    exact ⟨h, ht⟩

/-! ## Pruning -/

theorem prune_placed {interval : ℕ} : ∀ {fuel : ℕ} {m : BRBlockManager} {hash : UInt256},
    m.Placed height saved hand → prune interval fuel m hash = some m' →
    m'.Placed height saved hand ∧ ∀ q b, m'.heap.load q = some b → m.heap.load q = some b := by
  intro fuel
  induction fuel with
  | zero =>
    intro m hash _ hm
    cases hm
  | succ fuel ih =>
    intro m hash h hm
    rw [prune] at hm
    cases hq : m.blocks.lookup hash with
    | none =>
      rw [hq] at hm
      cases hm
      exact ⟨h, fun _ _ hb => hb⟩
    | some q =>
      simp only [hq, Option.bind_eq_bind, Option.bind_eq_some_iff] at hm
      obtain ⟨b, hload, hm⟩ := hm
      by_cases hheight : b.height.toNat % interval ≠ 0
      · rw [if_pos hheight] at hm
        have hhash : b.blockHash = hash := h.placement.key hq hload
        obtain ⟨hplaced, hkept⟩ := ih (m := { m with
          blocks := m.blocks.erase b.blockHash, heap := m.heap.free q })
          ⟨by rw [hhash]; exact h.placement.prune hq, h.saved⟩ hm
        exact ⟨hplaced, fun r c hc => (Heap.load_free_some (hkept r c hc)).2⟩
      · rw [if_neg hheight] at hm
        exact ih h hm

theorem fate_placed (h : m.Placed height saved [p]) (hp : m.heap.load p = some block) {fate : Fate}
    (hm : m.fate fuel now peerLastBlock p block (prev.map Prod.fst) = some (fate, m')) :
    m'.Placed height saved [p] ∧ m'.heap.load p = some block := by
  rcases fate_cases hm with rfl | ⟨-, q, r, -, hm⟩
  · exact ⟨h, hp⟩
  obtain ⟨r₁, m₁, pastCount, hm₁, rfl⟩ := verifyBlock_cases hm
  rcases verifyTransition_cases hm₁ with rfl | ⟨-, t, -, hm₁⟩
  · exact ⟨⟨h.placement, h.saved⟩, hp⟩
  obtain ⟨hplaced, hkept⟩ := prune_placed h hm₁
  obtain ⟨⟨x, hx⟩, -⟩ := hplaced.placement.pool.head
  obtain rfl : block = x := Option.some.inj (hp.symm.trans (hkept p x hx))
  exact ⟨⟨hplaced.placement, hplaced.saved⟩, hx⟩

/-! ## The branches of a relayed block -/

/-- The block becomes one of the set. -/
def Fate.Stores : Fate → Prop
  | .main | .existing | .fork => True
  | _ => False

/-- Without the block before it, a block is not added to the set. -/
theorem fate_none {fate : Fate}
    (hm : m.fate fuel now peerLastBlock p block none = some (fate, m')) : ¬ fate.Stores := by
  unfold BRBlockManager.fate at hm
  simp only at hm
  split_ifs at hm <;> cases hm <;> exact id

theorem discard_placed (h : m.Placed height saved [p]) : (m.discard p).Placed height saved [] :=
  ⟨h.placement.free, h.saved⟩

theorem addOrphan_placed (h : m.Placed height saved [p]) (hp : m.heap.load p = some block) :
    (m.addOrphan p block).Placed height saved [] :=
  ⟨h.placement.of_pool (h.placement.pool.insertOrphan hp), h.saved⟩

/-- The block in hand becomes a block, and the `lastBlock`. -/
theorem insert_placed (h : m.Placed height saved [p]) (hp : m.heap.load p = some block)
    (hb : block.height = height block.blockHash) :
    ({ m with blocks := m.blocks.insert block.blockHash p, lastBlock := some p } :
      BRBlockManager).Placed height saved [] ∧
    ({ m with blocks := m.blocks.insert block.blockHash p, lastBlock := some p } :
      BRBlockManager).Tip p block :=
  ⟨⟨h.placement.insertBlock hp hb, h.saved⟩, rfl, holds_insert_self _ _ _, hp⟩

theorem extendMain_placed (h : m.Placed height saved [p]) (hp : m.heap.load p = some block)
    (hb : block.height = height block.blockHash) {saveCount : ℕ}
    (hm : m.extendMain env fuel now peer degraded p block txHashes txTime = some (m', saveCount)) :
    m'.Placed height saved [] ∧ m'.Tip p block := by
  obtain ⟨m₁, hm₁, hm⟩ := Option.bind_eq_some_iff.1 hm
  obtain ⟨manager, rfl⟩ := confirmTx_manager hm₁
  obtain ⟨hplaced, htip⟩ := insert_placed h hp hb
  refine completeDownload_placed ?_ ?_ hm
  · split_ifs <;> exact ⟨hplaced.placement, hplaced.saved⟩
  · split_ifs <;> exact ⟨htip.lastBlock, htip.held, htip.load⟩

theorem addFork_placed (h : m.Placed height saved [p]) (hp : m.heap.load p = some block)
    (hb : block.height = height block.blockHash) {saveCount : ℕ}
    (hm : m.addFork env fuel now degraded p block = some (m', saveCount)) :
    m'.Placed height saved [] ∧ (0 < saveCount → m'.Tip p block) := by
  obtain ⟨last, -, hm⟩ := Option.bind_eq_some_iff.1 hm
  obtain ⟨hplaced, htip⟩ := insert_placed h hp hb
  split_ifs at hm with hheight
  · simp only [Option.bind_eq_some_iff, reorganize, Option.bind_eq_bind] at hm
    obtain ⟨m₁, ⟨q, -, last, -, ⟨b, b2⟩, -, b', -, w, -, wallet, -, hm₁⟩, hm⟩ := hm
    cases hm₁
    have hdone : m'.Placed height saved [] ∧ m'.Tip p block := by
      refine completeDownload_placed ?_ ?_ hm
      · exact ⟨hplaced.placement, hplaced.saved⟩
      · exact ⟨htip.lastBlock, htip.held, htip.load⟩
    exact ⟨hdone.1, fun _ => hdone.2⟩
  · cases hm
    refine ⟨⟨hplaced.placement, hplaced.saved⟩, ?_⟩
    intro hpos
    exact absurd hpos (Nat.lt_irrefl 0)

theorem replaceBlock_placed (h : m.Placed height saved [p]) (hp : m.heap.load p = some block)
    (hb : block.height = height block.blockHash)
    (hm : m.replaceBlock fuel now p block txHashes txTime = some m') :
    m'.Placed height saved [] := by
  obtain ⟨q, last, b, old, manager, lastBlock, -, -, -, hold, -, rfl⟩ :=
    replaceBlock_cases h.placement.pool.head.2.1
      (fun q ho => (h.placement.pool.orphaned q ho).1) hm
  exact ⟨h.placement.replace hp hb hold, h.saved⟩

theorem settle_placed (h : m.Placed height saved [p]) (hp : m.heap.load p = some block)
    {fate : Fate} (hb : fate.Stores → block.height = height block.blockHash) {saveCount : Option ℕ}
    (hm : m.settle env fuel now peer peerLastBlock degraded p block txHashes txTime fate =
      some (m', saveCount)) :
    m'.Placed height saved [] ∧ ∀ n, saveCount = some n → 0 < n → m'.Tip p block := by
  have hnone : ∀ n, some 0 = some n → 0 < n → m'.Tip p block := by
    rintro n hn hpos
    obtain rfl := Option.some.inj hn
    exact absurd hpos (Nat.lt_irrefl 0)
  cases fate with
  | header | oldOrphan | invalid | oldFork =>
    cases hm
    refine ⟨discard_placed h, ?_⟩
    intro n hn
    cases hn
  | incomplete =>
    have hdiscard := discard_placed h
    simp only [settle, Option.bind_eq_bind] at hm
    split_ifs at hm with hpeer
    · obtain ⟨last, -, hm⟩ := Option.bind_eq_some_iff.1 hm
      simp only [Option.some.injEq, Prod.mk.injEq] at hm
      obtain ⟨rfl, rfl⟩ := hm
      refine ⟨?_, ?_⟩
      · split_ifs <;> exact ⟨hdiscard.placement, hdiscard.saved⟩
      · intro n hn
        cases hn
    · cases hm
      refine ⟨hdiscard, ?_⟩
      intro n hn
      cases hn
  | orphan =>
    obtain ⟨m₁, hm₁, hm⟩ := Option.bind_eq_some_iff.1 hm
    cases hm
    obtain ⟨getblocks, rfl⟩ := requestBlocks_cases hm₁
    exact ⟨addOrphan_placed ⟨h.placement, h.saved⟩ hp, hnone⟩
  | duringRescan =>
    cases hm
    exact ⟨addOrphan_placed h hp, hnone⟩
  | main =>
    obtain ⟨⟨m₁, n⟩, hm₁, hm⟩ := Option.bind_eq_some_iff.1 hm
    cases hm
    obtain ⟨hplaced, htip⟩ := extendMain_placed h hp (hb trivial) hm₁
    exact ⟨hplaced, fun _ _ _ => htip⟩
  | existing =>
    obtain ⟨m₁, hm₁, hm⟩ := Option.bind_eq_some_iff.1 hm
    cases hm
    exact ⟨replaceBlock_placed h hp (hb trivial) hm₁, hnone⟩
  | fork =>
    obtain ⟨⟨m₁, n⟩, hm₁, hm⟩ := Option.bind_eq_some_iff.1 hm
    cases hm
    obtain ⟨hplaced, htip⟩ := addFork_placed h hp (hb trivial) hm₁
    refine ⟨hplaced, ?_⟩
    intro k hk hpos
    obtain rfl := Option.some.inj hk
    exact htip hpos

/-- A relayed block is taken in hand, at its height if the block before it is in the set. -/
theorem setHeight_placed (h : m.Placed height saved []) (hp : p ∈ m.relayed)
    (hm : m.setHeight p = some (m', block, prev)) :
    m'.Placed height saved [p] ∧ m'.heap.load p = some block ∧
      (prev ≠ none → block.height = height block.blockHash) := by
  simp only [setHeight, Option.bind_eq_bind, Option.bind_eq_some_iff, Option.some.injEq,
    Prod.mk.injEq] at hm
  obtain ⟨received, hload, found, hfound, rfl, rfl, rfl⟩ := hm
  have hplacement := h.placement.perm (List.perm_cons_erase hp)
  have hlinks : Links height received := h.placement.links hload
  refine ⟨⟨hplacement.store ?_, h.saved⟩, Heap.load_store_self _ hload, ?_⟩
  · cases found with
    | none => exact hlinks
    | some c => exact hlinks.setHeight _
  · intro hne
    obtain ⟨c, rfl⟩ := Option.ne_none_iff_exists'.1 hne
    unfold getBlockAt at hfound
    cases hq : m.blocks.lookup received.prevBlock with
    | none =>
      rw [hq] at hfound
      cases hfound
    | some q =>
      rw [hq] at hfound
      obtain ⟨b, hb, heq⟩ := Option.map_eq_some_iff.1 hfound
      cases heq
      have hkey := h.placement.key hq hb
      exact ((h.placement.atHeight ⟨_, hq⟩ hb).next hlinks hkey.symm).height

theorem rescanFrom_placed (h : m.Placed height saved hand) (newLastBlock : Option Ptr) :
    (m.rescanFrom newLastBlock).Placed height saved hand := by
  cases newLastBlock <;> exact ⟨h.placement, h.saved⟩

theorem takeNext_placed (h : m.Placed height saved []) :
    (m.takeNext block).Placed height saved [] := by
  unfold takeNext
  by_cases hheight : block.height ≠ BLOCK_UNKNOWN_HEIGHT
  · rw [if_pos hheight]
    cases hnext : m.orphans.lookup block.blockHash with
    | none =>
      refine ⟨h.placement.of_pool ?_, h.saved⟩
      simpa using h.placement.pool.eraseOrphan block.blockHash
    | some q =>
      refine ⟨h.placement.of_pool ?_, h.saved⟩
      exact (h.placement.pool.takeOrphan hnext).perm (List.perm_append_singleton q m.relayed).symm
  · rw [if_neg hheight]
    exact h

theorem Tip.takeNext (h : m.Tip p block) (b : BRMerkleBlock UInt256) :
    (m.takeNext b).Tip p block := by
  unfold BRBlockManager.takeNext
  by_cases hheight : b.height ≠ BLOCK_UNKNOWN_HEIGHT
  · rw [if_pos hheight]
    exact ⟨h.lastBlock, h.held, h.load⟩
  · rw [if_neg hheight]
    exact h

/-- `_peerRelayedBlock` up to its last loop; also the block, if it is not freed, and how many are to
    be saved. -/
def relayedBlockSaving (m : BRBlockManager) (env : Env) (fuel : ℕ) (now : ℤ) (peer : PeerAddr)
    (peerLastBlock : UInt32) (degraded : Bool) (p : Ptr) :
    Option (BRBlockManager × Option (BRMerkleBlock UInt256 × ℕ)) := do
  let (m, block, prev) ← m.setHeight p
  let count ← block.txHashesCount
  let txHashes ← block.txHashes count
  let txTime := prev.elim 0 fun prev => block.timestamp / 2 + prev.2.timestamp / 2
  let (fate, m) ← m.fate fuel now peerLastBlock p block (prev.map Prod.fst)
  let (m, saveCount) ← m.settle env fuel now peer peerLastBlock degraded p block txHashes txTime fate
  match saveCount with
  | none => some (m, none)
  | some saveCount => some (m.takeNext block, some (block, saveCount))

theorem relayedBlock_eq (m : BRBlockManager) (env : Env) (fuel : ℕ) (now : ℤ) (peer : PeerAddr)
    (peerLastBlock : UInt32) (degraded : Bool) (p : Ptr) :
    m.relayedBlock env fuel now peer peerLastBlock degraded p =
      (m.relayedBlockSaving env fuel now peer peerLastBlock degraded p).bind fun s =>
        match s.2 with
        | none => some s.1
        | some (block, saveCount) => s.1.saveBlocks saveCount block := by
  simp only [relayedBlock, relayedBlockSaving, Option.bind_eq_bind, Option.bind_assoc]
  refine Option.bind_congr fun s _ => Option.bind_congr fun count _ => ?_
  refine Option.bind_congr fun txHashes _ => Option.bind_congr fun f _ => ?_
  refine Option.bind_congr fun t _ => ?_
  obtain ⟨m', saveCount⟩ := t
  cases saveCount <;> rfl

theorem relayedBlockSaving_placed (h : m.Placed height saved []) (hp : p ∈ m.relayed)
    {save : Option (BRMerkleBlock UInt256 × ℕ)}
    (hm : m.relayedBlockSaving env fuel now peer peerLastBlock degraded p = some (m', save)) :
    m'.Placed height saved [] ∧
      ∀ b n, save = some (b, n) → 0 < n → m'.Tip p b := by
  simp only [relayedBlockSaving, Option.bind_eq_bind, Option.bind_eq_some_iff] at hm
  obtain ⟨⟨m₁, block, prev⟩, hm₁, count, -, txHashes, -, ⟨fate, m₂⟩, hm₂, ⟨m₃, saveCount⟩, hm₃, hm⟩
    := hm
  obtain ⟨hplaced₁, hp₁, hheight⟩ := setHeight_placed h hp hm₁
  obtain ⟨hplaced₂, hp₂⟩ := fate_placed hplaced₁ hp₁ hm₂
  have hstores : fate.Stores → block.height = height block.blockHash := by
    intro hfate
    refine hheight ?_
    rintro rfl
    exact fate_none hm₂ hfate
  obtain ⟨hplaced₃, htip⟩ := settle_placed hplaced₂ hp₂ hstores hm₃
  cases saveCount with
  | none =>
    cases hm
    refine ⟨hplaced₃, ?_⟩
    intro b n hsave
    cases hsave
  | some saveCount =>
    cases hm
    refine ⟨takeNext_placed hplaced₃, ?_⟩
    intro b n hsave hpos
    cases hsave
    exact (htip _ rfl hpos).takeNext _

theorem saveBlocks_cases {saveCount : ℕ} (hm : m.saveBlocks saveCount block = some m') :
    ∃ blocks, m.chainBack saveCount (some block) = some blocks ∧
      (m' = m ∧ savedCount blocks = 0 ∨ 0 < savedCount blocks ∧ m' = { m with
        saved := m.saved ++
          [(decide (savedCount blocks > 1), blocks.take (savedCount blocks))] }) := by
  simp only [saveBlocks, Option.bind_eq_bind, Option.bind_eq_some_iff, Option.some.injEq] at hm
  obtain ⟨blocks, hblocks, rfl⟩ := hm
  refine ⟨blocks, hblocks, ?_⟩
  by_cases hcount : savedCount blocks > 0
  · rw [if_pos hcount]
    exact Or.inr ⟨hcount, rfl⟩
  · rw [if_neg hcount]
    exact Or.inl ⟨rfl, Nat.eq_zero_of_not_pos hcount⟩

/-! ## Creation -/

theorem addCheckPoint_atHeight {c : BRCheckPoint}
    (hc : AtHeight height (checkPointBlock c))
    (h : ∀ p b, m.heap.load p = some b → AtHeight height b) :
    ∀ p b, (m.addCheckPoint c).heap.load p = some b → AtHeight height b := by
  intro p b hb
  rcases Heap.load_alloc_some hb with ⟨-, rfl⟩ | hb
  · exact hc
  · exact h p b hb

theorem addSaved_heap {s s' : BRBlockManager × Option Ptr} (hs : addSaved s p = some s') :
    s'.1.heap = s.1.heap ∧ s'.1.saved = s.1.saved := by
  simp only [addSaved, Option.bind_eq_bind, Option.bind_eq_some_iff] at hs
  obtain ⟨b, -, hs⟩ := hs
  split_ifs at hs
  simp only [Option.bind_eq_some_iff, Option.some.injEq] at hs
  obtain ⟨isLater, -, rfl⟩ := hs
  exact ⟨rfl, rfl⟩

theorem restoreChain_heap : ∀ {fuel : ℕ} {m : BRBlockManager} {transition : Option Ptr},
    restoreChain fuel m transition = some m' → m'.heap = m.heap ∧ m'.saved = m.saved := by
  intro fuel
  induction fuel with
  | zero =>
    intro m transition hm
    cases transition with
    | none =>
      cases hm
      exact ⟨rfl, rfl⟩
    | some p => cases hm
  | succ fuel ih =>
    intro m transition hm
    cases transition with
    | none =>
      cases hm
      exact ⟨rfl, rfl⟩
    | some p =>
      obtain ⟨b, -, hm⟩ := Option.bind_eq_some_iff.1 hm
      exact ih (m := { m with
        blocks := m.blocks.insert b.blockHash p, lastBlock := some p
        orphans := m.orphans.erase b.prevBlock }) hm

theorem new_atHeight {params : BRChainParams} {wallet : BRWallet} {earliestKeyTime : UInt32}
    {heap : Heap (BRMerkleBlock UInt256)} {ps : List Ptr}
    (hparams : ∀ c ∈ params.checkpoints, AtHeight height (checkPointBlock c))
    (hheap : ∀ p b, heap.load p = some b → AtHeight height b)
    (hm : new fuel params wallet earliestKeyTime heap ps = some m) :
    m.saved = [] ∧ ∀ p b, m.heap.load p = some b → AtHeight height b := by
  obtain ⟨⟨m₁, transition⟩, hm₁, hm⟩ := Option.bind_eq_some_iff.1 hm
  have hcreated : ∀ (checkpoints : List BRCheckPoint) (m : BRBlockManager),
      (∀ c ∈ checkpoints, AtHeight height (checkPointBlock c)) → m.saved = [] →
      (∀ p b, m.heap.load p = some b → AtHeight height b) →
      (checkpoints.foldl addCheckPoint m).saved = [] ∧
        ∀ p b, (checkpoints.foldl addCheckPoint m).heap.load p = some b → AtHeight height b := by
    intro checkpoints
    induction checkpoints with
    | nil =>
      intro m _ hsaved h
      exact ⟨hsaved, h⟩
    | cons c checkpoints ih =>
      intro m hc hsaved h
      rw [List.forall_mem_cons] at hc
      exact ih _ hc.2 hsaved (addCheckPoint_atHeight hc.1 h)
  obtain ⟨hsaved₀, hheap₀⟩ := hcreated params.checkpoints
    { wallet, params, earliestKeyTime, heap } hparams rfl hheap
  obtain ⟨hheap₁, hsaved₁⟩ := foldlM_invariant
    (P := fun s => (∀ p b, s.1.heap.load p = some b → AtHeight height b) ∧ s.1.saved = [])
    (fun _ h hstep => by
      obtain ⟨heq, hsaved⟩ := addSaved_heap hstep
      rw [heq, hsaved]
      exact h) ⟨hheap₀, hsaved₀⟩ hm₁
  obtain ⟨heq, hsaved⟩ := restoreChain_heap hm
  rw [heq, hsaved]
  exact ⟨hsaved₁, hheap₁⟩

end

/-! ## Runs -/

/-- The system over linked blocks: those that were saved before, those of the checkpoints, and those
    that are received. -/
def linkedSystem (env : Env) (height : UInt256 → UInt32) : System BRBlockManager BlockEvent where
  init m := ∃ fuel params wallet earliestKeyTime heap saved,
    (BRWallet.system env).init wallet ∧ (∀ p ∈ saved, heap.Live p) ∧
      (∀ c ∈ params.checkpoints, AtHeight height (checkPointBlock c)) ∧
      (∀ p b, heap.load p = some b → AtHeight height b) ∧
      new fuel params wallet earliestKeyTime heap saved = some m
  step m event m' := (system env).step m event m' ∧
    ∀ block, event = .receive block → Links height block

section
variable {height : UInt256 → UInt32} {env : Env} {m m' : BRBlockManager} {event : BlockEvent}
  {saved : List (Bool × List (BRMerkleBlock UInt256))}

theorem init_placed (h : (linkedSystem env height).init m) : m.Placed height m.saved [] := by
  obtain ⟨fuel, params, wallet, earliestKeyTime, heap, saved, -, hsaved, hparams, hheap, hnew⟩ := h
  have howned := new_owned hsaved hnew
  obtain ⟨-, hload⟩ := new_atHeight hparams hheap hnew
  refine ⟨⟨howned.pool.withoutCheckpoints, ?_, ?_⟩, rfl⟩
  · intro p b hb
    exact (hload p b hb).links
  · intro p b _ hb
    exact (hload p b hb).height

/-- Only the handler of a relayed block saves blocks. -/
theorem handle_placed {fuel : ℕ} (h : m.Placed height saved [])
    (hlinks : ∀ block, event = .receive block → Links height block)
    (hevent : ∀ now peer peerLastBlock degraded p,
      event ≠ .relayedBlock now peer peerLastBlock degraded p)
    (hm : m.handle env fuel event = some m') : m'.Placed height saved [] := by
  cases event with
  | manager event =>
    obtain ⟨manager, -, rfl⟩ := Option.map_eq_some_iff.1 hm
    exact ⟨h.placement, h.saved⟩
  | receive block =>
    cases hm
    refine ⟨?_, h.saved⟩
    exact (h.placement.alloc (hlinks block rfl)).perm
      (List.perm_append_singleton m.heap.fresh m.relayed).symm
  | relayedBlock now peer peerLastBlock degraded p => exact absurd rfl (hevent _ _ _ _ _)
  | estimate estimatedHeight =>
    cases hm
    exact ⟨h.placement, h.saved⟩
  | resetBloomFilter =>
    cases hm
    exact ⟨h.placement, h.saved⟩
  | loadBloomFilter => exact (loadBloomFilter_placed h hm).1
  | rescan =>
    cases hm
    unfold rescan
    split_ifs <;> exact ⟨h.placement, h.saved⟩
  | rescanFromLastHardcodedCheckpoint =>
    cases hm
    unfold rescanFromLastHardcodedCheckpoint
    split_ifs
    · exact rescanFrom_placed h _
    · exact h
  | rescanFromBlockNumber blockNumber =>
    change m.rescanFromBlockNumber fuel blockNumber = some m' at hm
    unfold rescanFromBlockNumber at hm
    split_ifs at hm with hconnected
    · simp only [Option.bind_eq_bind, Option.bind_eq_some_iff, Option.some.injEq] at hm
      obtain ⟨block, -, rfl⟩ := hm
      exact rescanFrom_placed h _
    · cases hm
      exact h
  | startSync =>
    obtain ⟨manager, rfl⟩ := startSync_cases hm
    exact ⟨h.placement, h.saved⟩

theorem step_placed (h : m.Placed height m.saved [])
    (hstep : (linkedSystem env height).step m event m') : m'.Placed height m'.saved [] := by
  obtain ⟨⟨henabled, fuel, hm⟩, hlinks⟩ := hstep
  by_cases hevent : ∃ now peer peerLastBlock degraded p,
      event = .relayedBlock now peer peerLastBlock degraded p
  · obtain ⟨now, peer, peerLastBlock, degraded, p, rfl⟩ := hevent
    have hm : m.relayedBlock env fuel now peer peerLastBlock degraded p = some m' := hm
    rw [relayedBlock_eq, Option.bind_eq_some_iff] at hm
    obtain ⟨⟨m₁, save⟩, hm₁, hm⟩ := hm
    obtain ⟨hplaced, -⟩ := relayedBlockSaving_placed h henabled hm₁
    cases save with
    | none =>
      cases hm
      exact ⟨hplaced.placement, rfl⟩
    | some save =>
      obtain ⟨blocks, -, ⟨rfl, -⟩ | ⟨-, rfl⟩⟩ := saveBlocks_cases hm
      · exact ⟨hplaced.placement, rfl⟩
      · exact ⟨hplaced.placement, rfl⟩
  · have hplaced := handle_placed h hlinks
      (fun now peer peerLastBlock degraded p heq => hevent ⟨_, _, _, _, _, heq⟩) hm
    exact ⟨hplaced.placement, rfl⟩

theorem run_placed (h : (linkedSystem env height).Run (fun _ _ => True) m) :
    m.Placed height m.saved [] := by
  refine h.invariant (I := fun m => m.Placed height m.saved []) (J := fun _ => True)
    (fun _ => trivial) ?_ ?_
  · exact fun h => init_placed h
  · rintro s event s' - hs - hstep -
    exact step_placed hs hstep

end

end BRBlockManager

end RavenWallet
