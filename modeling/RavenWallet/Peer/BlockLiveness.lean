/-
  Which block pointers stay live (BRPeerManager.c).

  `Pool` is what the sets and the blocks in hand have in common: each is live and
  found under its key, a block in hand is in no set, and an orphan in no other set.
  `Owned` adds `lastBlock` and `lastOrphan`.

  * `run_live`: in a run whose steps all meet `KeepsBlocks`, what the sets,
    `lastBlock` and `lastOrphan` point to is live;
  * `not_run_live`: an invalid orphan is freed while `lastOrphan` points to it.
-/
import RavenWallet.Lib.Keyed
import RavenWallet.Peer.Blocks

namespace RavenWallet

/-! ## Blocks in hand -/

/-- The sets of blocks, with the blocks `relayed` that belong to none of them. -/
structure Pool (heap : Heap (BRMerkleBlock UInt256)) (blocks orphans : AList fun _ : UInt256 => Ptr)
    (checkpoints : AList fun _ : UInt32 => Ptr) (relayed : List Ptr) : Prop where
  byHash : Keyed BRMerkleBlock.blockHash heap blocks
  byPrev : Keyed BRMerkleBlock.prevBlock heap orphans
  byHeight : Keyed BRMerkleBlock.height heap checkpoints
  nodup : relayed.Nodup
  inHand : ∀ p ∈ relayed, heap.Live p ∧ ¬ Holds blocks p ∧ ¬ Holds orphans p ∧
    ¬ Holds checkpoints p
  orphaned : ∀ p, Holds orphans p → ¬ Holds blocks p ∧ ¬ Holds checkpoints p

namespace Pool

variable {heap : Heap (BRMerkleBlock UInt256)} {blocks orphans : AList fun _ : UInt256 => Ptr}
  {checkpoints : AList fun _ : UInt32 => Ptr} {r r' : List Ptr} {p : Ptr}
  {b : BRMerkleBlock UInt256} {hash : UInt256}

theorem perm (h : Pool heap blocks orphans checkpoints r) (hr : r.Perm r') :
    Pool heap blocks orphans checkpoints r' where
  byHash := h.byHash
  byPrev := h.byPrev
  byHeight := h.byHeight
  nodup := hr.nodup_iff.1 h.nodup
  inHand p hp := h.inHand p (hr.mem_iff.2 hp)
  orphaned := h.orphaned

theorem rest (h : Pool heap blocks orphans checkpoints (p :: r)) :
    Pool heap blocks orphans checkpoints r where
  byHash := h.byHash
  byPrev := h.byPrev
  byHeight := h.byHeight
  nodup := (List.nodup_cons.1 h.nodup).2
  inHand q hq := h.inHand q (List.mem_cons_of_mem _ hq)
  orphaned := h.orphaned

theorem head (h : Pool heap blocks orphans checkpoints (p :: r)) :
    heap.Live p ∧ ¬ Holds blocks p ∧ ¬ Holds orphans p ∧ ¬ Holds checkpoints p :=
  h.inHand p List.mem_cons_self

theorem ne_head (h : Pool heap blocks orphans checkpoints (p :: r)) {q : Ptr} (hq : q ∈ r) :
    p ≠ q := by
  rintro rfl
  exact (List.nodup_cons.1 h.nodup).1 hq

/-- The block in hand is freed. -/
theorem free (h : Pool heap blocks orphans checkpoints (p :: r)) :
    Pool (heap.free p) blocks orphans checkpoints r := by
  obtain ⟨-, hb, ho, hc⟩ := h.head
  refine ⟨h.byHash.free hb, h.byPrev.free ho, h.byHeight.free hc, h.rest.nodup, ?_, h.orphaned⟩
  intro q hq
  obtain ⟨⟨x, hx⟩, happ⟩ := h.rest.inHand q hq
  exact ⟨⟨x, (Heap.load_free_ne heap (h.ne_head hq)).trans hx⟩, happ⟩

/-- The block in hand is written. -/
theorem store (h : Pool heap blocks orphans checkpoints (p :: r)) (b : BRMerkleBlock UInt256) :
    Pool (heap.store p b) blocks orphans checkpoints (p :: r) := by
  obtain ⟨⟨y, hy⟩, hb, ho, hc⟩ := h.head
  refine ⟨h.byHash.store hb b, h.byPrev.store ho b, h.byHeight.store hc b, h.nodup, ?_,
    h.orphaned⟩
  intro q hq
  obtain ⟨⟨x, hx⟩, happ⟩ := h.inHand q hq
  refine ⟨?_, happ⟩
  rcases List.mem_cons.1 hq with rfl | hq
  · exact ⟨b, Heap.load_store_self b hy⟩
  · exact ⟨x, (Heap.load_store_ne heap b (h.ne_head hq)).trans hx⟩

/-- A block is received. -/
theorem alloc (h : Pool heap blocks orphans checkpoints r) (b : BRMerkleBlock UInt256) :
    Pool (heap.alloc b) blocks orphans checkpoints (heap.fresh :: r) := by
  refine ⟨h.byHash.alloc b, h.byPrev.alloc b, h.byHeight.alloc b, ?_, ?_, h.orphaned⟩
  · refine List.nodup_cons.2 ⟨?_, h.nodup⟩
    intro hmem
    obtain ⟨⟨x, hx⟩, -⟩ := h.inHand _ hmem
    exact absurd (Heap.load_lt hx) (lt_irrefl _)
  · intro q hq
    rcases List.mem_cons.1 hq with rfl | hq
    · exact ⟨⟨b, Heap.load_alloc_fresh heap b⟩, h.byHash.not_holds_fresh,
        h.byPrev.not_holds_fresh, h.byHeight.not_holds_fresh⟩
    · obtain ⟨⟨x, hx⟩, happ⟩ := h.inHand q hq
      exact ⟨⟨x, Heap.load_alloc b hx⟩, happ⟩

/-- The block in hand is added to the blocks; the one that it replaces is not freed. -/
theorem insertBlock (h : Pool heap blocks orphans checkpoints (p :: r))
    (hp : heap.load p = some b) :
    Pool heap (blocks.insert b.blockHash p) orphans checkpoints r := by
  obtain ⟨-, hb, ho, hc⟩ := h.head
  refine ⟨h.byHash.insert hp rfl, h.byPrev, h.byHeight, h.rest.nodup, ?_, ?_⟩
  · intro q hq
    obtain ⟨hlive, hqb, happ⟩ := h.rest.inHand q hq
    refine ⟨hlive, ?_, happ⟩
    intro hins
    rcases holds_insert hins with rfl | hins
    · exact h.ne_head hq rfl
    · exact hqb hins
  · intro q hq
    refine ⟨?_, (h.orphaned q hq).2⟩
    intro hins
    rcases holds_insert hins with rfl | hins
    · exact ho hq
    · exact (h.orphaned q hq).1 hins

/-- A block that is not in hand becomes an orphan. -/
theorem addOrphan (h : Pool heap blocks orphans checkpoints r) (hp : heap.load p = some b)
    (hr : p ∉ r) (hb : ¬ Holds blocks p) (hc : ¬ Holds checkpoints p) :
    Pool heap blocks (orphans.insert b.prevBlock p) checkpoints r := by
  refine ⟨h.byHash, h.byPrev.insert hp rfl, h.byHeight, h.nodup, ?_, ?_⟩
  · intro q hq
    obtain ⟨hlive, hqb, hqo, hqc⟩ := h.inHand q hq
    refine ⟨hlive, hqb, ?_, hqc⟩
    intro hins
    rcases holds_insert hins with rfl | hins
    · exact hr hq
    · exact hqo hins
  · intro q hq
    rcases holds_insert hq with rfl | hq
    · exact ⟨hb, hc⟩
    · exact h.orphaned q hq

theorem insertOrphan (h : Pool heap blocks orphans checkpoints (p :: r))
    (hp : heap.load p = some b) :
    Pool heap blocks (orphans.insert b.prevBlock p) checkpoints r :=
  h.rest.addOrphan hp (List.nodup_cons.1 h.nodup).1 h.head.2.1 h.head.2.2.2

/-- An orphan is taken in hand. -/
theorem takeOrphan (h : Pool heap blocks orphans checkpoints r) (hp : orphans.lookup hash = some p) :
    Pool heap blocks (orphans.erase hash) checkpoints (p :: r) := by
  obtain ⟨x, hx, hkey⟩ := h.byPrev hash p hp
  obtain ⟨hb, hc⟩ := h.orphaned p ⟨hash, hp⟩
  refine ⟨h.byHash, h.byPrev.erase hash, h.byHeight, ?_, ?_, ?_⟩
  · refine List.nodup_cons.2 ⟨?_, h.nodup⟩
    intro hmem
    exact (h.inHand p hmem).2.2.1 ⟨hash, hp⟩
  · intro q hq
    rcases List.mem_cons.1 hq with rfl | hq
    · exact ⟨⟨x, hx⟩, hb, h.byPrev.not_holds_erase hx hkey, hc⟩
    · obtain ⟨hlive, hqb, hqo, hqc⟩ := h.inHand q hq
      exact ⟨hlive, hqb, fun herase => hqo herase.of_erase, hqc⟩
  · intro q hq
    exact h.orphaned q hq.of_erase

theorem eraseOrphan (h : Pool heap blocks orphans checkpoints r) (hash : UInt256) :
    Pool heap blocks (orphans.erase hash) checkpoints r where
  byHash := h.byHash
  byPrev := h.byPrev.erase hash
  byHeight := h.byHeight
  nodup := h.nodup
  inHand p hp := by
    obtain ⟨hlive, hb, ho, hc⟩ := h.inHand p hp
    exact ⟨hlive, hb, fun herase => ho herase.of_erase, hc⟩
  orphaned p hp := h.orphaned p hp.of_erase

/-- A block that is no checkpoint is taken in hand. -/
theorem takeBlock (h : Pool heap blocks orphans checkpoints r) (hp : blocks.lookup hash = some p)
    (hc : ¬ Holds checkpoints p) :
    Pool heap (blocks.erase hash) orphans checkpoints (p :: r) := by
  obtain ⟨x, hx, hkey⟩ := h.byHash hash p hp
  have ho : ¬ Holds orphans p := fun ho => (h.orphaned p ho).1 ⟨hash, hp⟩
  refine ⟨h.byHash.erase hash, h.byPrev, h.byHeight, ?_, ?_, ?_⟩
  · refine List.nodup_cons.2 ⟨?_, h.nodup⟩
    intro hmem
    exact (h.inHand p hmem).2.1 ⟨hash, hp⟩
  · intro q hq
    rcases List.mem_cons.1 hq with rfl | hq
    · exact ⟨⟨x, hx⟩, h.byHash.not_holds_erase hx hkey, ho, hc⟩
    · obtain ⟨hlive, hqb, happ⟩ := h.inHand q hq
      exact ⟨hlive, fun herase => hqb herase.of_erase, happ⟩
  · intro q hq
    obtain ⟨hqb, hqc⟩ := h.orphaned q hq
    exact ⟨fun herase => hqb herase.of_erase, hqc⟩

/-- A block that may be an orphan is taken in hand. -/
theorem takeSaved (h : Pool heap blocks orphans checkpoints []) (hp : heap.load p = some b)
    (hb : ¬ Holds blocks p) (hc : ¬ Holds checkpoints p) :
    Pool heap blocks (orphans.erase b.prevBlock) checkpoints [p] := by
  have herased := h.eraseOrphan b.prevBlock
  refine ⟨herased.byHash, herased.byPrev, herased.byHeight, List.nodup_singleton p, ?_,
    herased.orphaned⟩
  intro q hq
  obtain rfl := List.mem_singleton.1 hq
  exact ⟨⟨b, hp⟩, hb, h.byPrev.not_holds_erase hp rfl, hc⟩

/-- The block in hand becomes a checkpoint, and a block. -/
theorem insertCheckPoint (h : Pool heap blocks orphans checkpoints (p :: r))
    (hp : heap.load p = some b) :
    Pool heap (blocks.insert b.blockHash p) orphans (checkpoints.insert b.height p) r := by
  have hblock := h.insertBlock hp
  refine ⟨hblock.byHash, h.byPrev, h.byHeight.insert hp rfl, hblock.nodup, ?_, ?_⟩
  · intro q hq
    obtain ⟨hlive, hqb, hqo, hqc⟩ := hblock.inHand q hq
    refine ⟨hlive, hqb, hqo, ?_⟩
    intro hins
    rcases holds_insert hins with rfl | hins
    · exact h.ne_head hq rfl
    · exact hqc hins
  · intro q hq
    obtain ⟨hqb, hqc⟩ := hblock.orphaned q hq
    refine ⟨hqb, ?_⟩
    intro hins
    rcases holds_insert hins with rfl | hins
    · exact h.head.2.2.1 hq
    · exact hqc hins

/-- The block in hand replaces one that is no checkpoint, which is freed. -/
theorem replace {old : Ptr} (h : Pool heap blocks orphans checkpoints (p :: r))
    (hp : heap.load p = some b) (hold : blocks.lookup b.blockHash = some old)
    (hc : ¬ Holds checkpoints old) :
    Pool (heap.free old) (blocks.insert b.blockHash p) orphans checkpoints r := by
  have htaken := (h.takeBlock hold hc).perm (.swap p old r)
  have hinserted := (htaken.insertBlock hp).free
  rwa [insert_erase] at hinserted

/-- The orphans are freed. -/
theorem freeOrphans (h : Pool heap blocks orphans checkpoints r) :
    Pool (orphans.entries.foldl (fun heap e => heap.free e.2) heap) blocks ∅ checkpoints r where
  byHash := h.byHash.freeAll fun p hp => (h.orphaned p hp).1
  byPrev := .empty _ _
  byHeight := h.byHeight.freeAll fun p hp => (h.orphaned p hp).2
  nodup := h.nodup
  inHand p hp := by
    obtain ⟨⟨x, hx⟩, hb, ho, hc⟩ := h.inHand p hp
    exact ⟨⟨x, (load_freeAll_of_not_holds ho).trans hx⟩, hb, not_holds_empty p, hc⟩
  orphaned p hp := absurd hp (not_holds_empty p)

/-- The checkpoints may be left out. -/
theorem withoutCheckpoints (h : Pool heap blocks orphans checkpoints r) :
    Pool heap blocks orphans ∅ r where
  byHash := h.byHash
  byPrev := h.byPrev
  byHeight := .empty _ _
  nodup := h.nodup
  inHand q hq := by
    obtain ⟨hlive, hb, ho, -⟩ := h.inHand q hq
    exact ⟨hlive, hb, ho, not_holds_empty q⟩
  orphaned q hq := ⟨(h.orphaned q hq).1, not_holds_empty q⟩

end Pool

namespace BRBlockManager

/-! ## What the handlers keep -/

/-- What the sets, `lastBlock` and `lastOrphan` point to is live, and `lastBlock` is in the set of
    blocks. -/
structure Live (m : BRBlockManager) : Prop where
  blocks : ∀ p, Holds m.blocks p → m.heap.Live p
  orphans : ∀ p, Holds m.orphans p → m.heap.Live p
  checkpoints : ∀ p, Holds m.checkpoints p → m.heap.Live p
  lastBlock : ∃ p, m.lastBlock = some p ∧ Holds m.blocks p
  lastOrphan : ∀ p, m.lastOrphan = some p → m.heap.Live p

/-- The invariant, with the blocks in hand besides those to be relayed. -/
structure Owned (m : BRBlockManager) (hand : List Ptr) : Prop where
  pool : Pool m.heap m.blocks m.orphans m.checkpoints (hand ++ m.relayed)
  lastBlock : ∃ p, m.lastBlock = some p ∧ Holds m.blocks p
  lastOrphan : ∀ p, m.lastOrphan = some p → m.heap.Live p

section
variable {env : Env} {m m' : BRBlockManager} {hand : List Ptr} {p : Ptr}
  {block b : BRMerkleBlock UInt256} {prev : Option Ptr} {fuel : ℕ} {now : ℤ} {peer : PeerAddr}
  {peerLastBlock : UInt32} {degraded : Bool} {txHashes : List UInt256} {txTime : UInt32}

theorem Owned.live (h : m.Owned hand) : m.Live where
  blocks _ hp := h.pool.byHash.live hp
  orphans _ hp := h.pool.byPrev.live hp
  checkpoints _ hp := h.pool.byHeight.live hp
  lastBlock := h.lastBlock
  lastOrphan := h.lastOrphan

/-- The handlers of transactions leave the blocks alone. -/
theorem Owned.manager (h : m.Owned hand) (manager : BRPeerManager) :
    ({ m with toBRPeerManager := manager } : BRBlockManager).Owned hand :=
  ⟨h.pool, h.lastBlock, h.lastOrphan⟩

theorem Owned.rescanFrom (h : m.Owned hand) {newLastBlock : Option Ptr}
    (hq : ∀ q, newLastBlock = some q → Holds m.blocks q) :
    (m.rescanFrom newLastBlock).Owned hand := by
  cases newLastBlock with
  | none => exact h
  | some q => exact ⟨h.pool, ⟨q, rfl, hq q rfl⟩, h.lastOrphan⟩

/-! ## The bloom filter -/

theorem loadBloomFilter_owned (h : m.Owned hand) (hm : m.loadBloomFilter env fuel = some m') :
    m'.Owned hand := by
  simp only [loadBloomFilter, Option.bind_eq_bind, Option.bind_eq_some_iff] at hm
  obtain ⟨wallet, -, last, -, unconfirmed, -, hm⟩ := hm
  cases hm
  refine ⟨h.pool.freeOrphans, h.lastBlock, ?_⟩
  intro q hq
  cases hq

theorem loadMempools_owned (h : m.Owned hand) (hm : m.loadMempools env fuel degraded = some m') :
    m'.Owned hand := by
  refine foldlM_invariant (P := fun m => m.Owned hand) ?_ h hm
  intro s c s' _ hs hstep
  by_cases hc : c.connected = true ∧ (s.downloadPeer ≠ some c.peer ∨ degraded = true)
  · rw [if_pos hc] at hstep
    exact loadBloomFilter_owned hs hstep
  · rw [if_neg hc] at hstep
    cases hstep
    exact hs

theorem completeDownload_owned (h : m.Owned hand) {saveCount saveCount' : ℕ}
    (hm : m.completeDownload env fuel degraded block saveCount = some (m', saveCount')) :
    m'.Owned hand := by
  unfold completeDownload at hm
  split_ifs at hm with hheight
  · obtain ⟨m₁, hm₁, heq⟩ := Option.map_eq_some_iff.1 hm
    cases heq
    exact loadMempools_owned h hm₁
  · cases hm
    exact h

theorem confirmTx_manager {blockHeight : UInt32}
    (hm : m.confirmTx now txHashes blockHeight txTime = some m') :
    ∃ manager, m' = { m with toBRPeerManager := manager } := by
  unfold confirmTx at hm
  split_ifs at hm with htx
  · obtain ⟨manager, -, rfl⟩ := Option.map_eq_some_iff.1 hm
    exact ⟨manager, rfl⟩
  · cases hm
    exact ⟨_, rfl⟩

/-! ## Pruning -/

/-- Nothing but the set of blocks points to the block. -/
def Unshared (m : BRBlockManager) (q : Ptr) : Prop :=
  m.lastBlock ≠ some q ∧ m.lastOrphan ≠ some q ∧ ¬ Holds m.checkpoints q

/-- The blocks of the chain from the one with the hash backwards. -/
inductive Ancestor (m : BRBlockManager) : UInt256 → Ptr → BRMerkleBlock UInt256 → Prop
  | here {hash : UInt256} {q : Ptr} {b : BRMerkleBlock UInt256} : m.blocks.lookup hash = some q →
    m.heap.load q = some b → Ancestor m hash q b
  | back {hash : UInt256} {q q' : Ptr} {b b' : BRMerkleBlock UInt256} :
    m.blocks.lookup hash = some q → m.heap.load q = some b → Ancestor m b.prevBlock q' b' →
    Ancestor m hash q' b'

/-- Blocks were taken out and freed, but not those that something else points to. -/
structure Pruned (m m' : BRBlockManager) : Prop where
  blocks : ∀ {hash q}, m'.blocks.lookup hash = some q → m.blocks.lookup hash = some q
  load : ∀ {q b}, m'.heap.load q = some b → m.heap.load q = some b
  lastBlock : m'.lastBlock = m.lastBlock
  lastOrphan : m'.lastOrphan = m.lastOrphan
  checkpoints : m'.checkpoints = m.checkpoints

theorem Pruned.refl (m : BRBlockManager) : Pruned m m := ⟨id, id, rfl, rfl, rfl⟩

theorem Pruned.trans {m'' : BRBlockManager} (h : Pruned m m') (h' : Pruned m' m'') :
    Pruned m m'' where
  blocks hq := h.blocks (h'.blocks hq)
  load hb := h.load (h'.load hb)
  lastBlock := h'.lastBlock.trans h.lastBlock
  lastOrphan := h'.lastOrphan.trans h.lastOrphan
  checkpoints := h'.checkpoints.trans h.checkpoints

theorem Pruned.ancestor (h : Pruned m m') {hash : UInt256} {q : Ptr} (ha : m'.Ancestor hash q b) :
    m.Ancestor hash q b := by
  induction ha with
  | here hq hb => exact .here (h.blocks hq) (h.load hb)
  | back hq hb _ ih => exact .back (h.blocks hq) (h.load hb) ih

theorem Pruned.unshared (h : Pruned m m') {q : Ptr} (hq : m.Unshared q) : m'.Unshared q := by
  unfold Unshared at hq ⊢
  rwa [h.lastBlock, h.lastOrphan, h.checkpoints]

/-- One block is pruned. -/
theorem Owned.prune {hash : UInt256} {q : Ptr} (h : m.Owned [p])
    (hq : m.blocks.lookup hash = some q) (hload : m.heap.load q = some b) (hs : m.Unshared q) :
    ({ m with blocks := m.blocks.erase b.blockHash, heap := m.heap.free q } : BRBlockManager).Owned
      [p] := by
  have hhash : b.blockHash = hash := h.pool.byHash.key hq hload
  obtain ⟨hlast, horphan, hcheck⟩ := hs
  refine ⟨?_, ?_, ?_⟩
  · rw [hhash]
    exact (h.pool.takeBlock hq hcheck).free
  · obtain ⟨l, hl, hheld⟩ := h.lastBlock
    refine ⟨l, hl, hheld.erase ?_⟩
    rw [hhash, hq]
    rintro heq
    exact hlast (hl.trans heq.symm)
  · intro o ho
    obtain ⟨x, hx⟩ := h.lastOrphan o ho
    refine ⟨x, ?_⟩
    rw [Heap.load_free_ne, hx]
    rintro rfl
    exact horphan ho

theorem pruned_step (m : BRBlockManager) (hash : UInt256) (q : Ptr) :
    Pruned m { m with blocks := m.blocks.erase hash, heap := m.heap.free q } where
  blocks hq := (lookup_of_erase hq).1
  load hb := (Heap.load_free_some hb).2
  lastBlock := rfl
  lastOrphan := rfl
  checkpoints := rfl

theorem prune_owned {interval : ℕ} : ∀ {fuel : ℕ} {m : BRBlockManager} {hash : UInt256},
    m.Owned [p] →
    (∀ q b, m.Ancestor hash q b → b.height.toNat % interval ≠ 0 → m.Unshared q) →
    prune interval fuel m hash = some m' → m'.Owned [p] ∧ Pruned m m' := by
  intro fuel
  induction fuel with
  | zero =>
    intro m hash _ _ hm
    cases hm
  | succ fuel ih =>
    intro m hash h hs hm
    rw [prune] at hm
    cases hq : m.blocks.lookup hash with
    | none =>
      rw [hq] at hm
      cases hm
      exact ⟨h, .refl _⟩
    | some q =>
      simp only [hq, Option.bind_eq_bind, Option.bind_eq_some_iff] at hm
      obtain ⟨b, hload, hm⟩ := hm
      by_cases hheight : b.height.toNat % interval ≠ 0
      · rw [if_pos hheight] at hm
        have hstep := pruned_step m b.blockHash q
        have hq' := h.prune hq hload (hs q b (.here hq hload) hheight)
        obtain ⟨howned, hpruned⟩ := ih hq'
          (fun q' b' ha hb' =>
            hstep.unshared (hs q' b' (.back hq hload (hstep.ancestor ha)) hb')) hm
        exact ⟨howned, hstep.trans hpruned⟩
      · rw [if_neg hheight] at hm
        exact ih h (fun q' b' ha hb' => hs q' b' (.back hq hload ha) hb') hm

/-- The blocks that are freed with the verification of the block are pointed to by nothing else. -/
def PrunesUnshared (m : BRBlockManager) (block : BRMerkleBlock UInt256) : Prop :=
  let interval := difficultyInterval block.height
  block.height.toNat % interval = 0 → ∀ t q b,
    m.stepsBack interval (some block) = some (some t) → m.Ancestor t.prevBlock q b →
    b.height.toNat % interval ≠ 0 → m.Unshared q

theorem verifyTransition_cases {r : Bool} (hm : m.verifyTransition fuel block = some (r, m')) :
    m' = m ∨ block.height.toNat % difficultyInterval block.height = 0 ∧
      ∃ t, m.stepsBack (difficultyInterval block.height) (some block) = some (some t) ∧
        prune (difficultyInterval block.height) fuel m t.prevBlock = some m' := by
  unfold verifyTransition at hm
  by_cases hheight : block.height.toNat % difficultyInterval block.height = 0
  · simp only [if_pos hheight, Option.bind_eq_bind, Option.bind_eq_some_iff] at hm
    obtain ⟨t, ht, hm⟩ := hm
    cases t with
    | none =>
      cases hm
      exact Or.inl rfl
    | some t =>
      obtain ⟨m₁, hm₁, heq⟩ := Option.map_eq_some_iff.1 hm
      cases heq
      exact Or.inr ⟨hheight, t, ht, hm₁⟩
  · simp only [if_neg hheight, Option.some.injEq, Prod.mk.injEq] at hm
    exact Or.inl hm.2.symm

theorem verifyBlock_cases {prev : Ptr} {r : Bool}
    (hm : m.verifyBlock fuel p block prev = some (r, m')) :
    ∃ r₁ m₁ pastCount, m.verifyTransition fuel block = some (r₁, m₁) ∧
      m' = { m₁ with pastCount } := by
  simp only [verifyBlock, Option.bind_eq_bind, Option.bind_eq_some_iff] at hm
  obtain ⟨⟨r₁, m₁⟩, hm₁, hm⟩ := hm
  refine ⟨r₁, m₁, ?_⟩
  cases r₁ with
  | false =>
    cases hm
    exact ⟨m₁.pastCount, hm₁, rfl⟩
  | true =>
    simp only [Bool.not_true, Bool.false_eq_true, if_false, Option.bind_eq_some_iff] at hm
    obtain ⟨prev, -, ⟨r₂, pastCount⟩, -, hm⟩ := hm
    refine ⟨pastCount, hm₁, ?_⟩
    cases r₂ with
    | false =>
      cases hm
      rfl
    | true =>
      simp only [Bool.not_true, Bool.false_eq_true, if_false] at hm
      cases hc : m₁.checkpoints.lookup block.height with
      | none =>
        simp only [hc, Option.some.injEq, Prod.mk.injEq] at hm
        exact hm.2.symm
      | some c =>
        simp only [hc] at hm
        by_cases hcp : c = p
        · simp only [if_pos hcp, Option.some.injEq, Prod.mk.injEq] at hm
          exact hm.2.symm
        · simp only [if_neg hcp] at hm
          obtain ⟨x, -, heq⟩ := Option.map_eq_some_iff.1 hm
          exact (congrArg Prod.snd heq).symm

theorem verifyTransition_owned (h : m.Owned [p]) (hs : m.PrunesUnshared block) {r : Bool}
    (hm : m.verifyTransition fuel block = some (r, m')) : m'.Owned [p] ∧ Pruned m m' := by
  rcases verifyTransition_cases hm with rfl | ⟨hheight, t, ht, hm⟩
  · exact ⟨h, .refl m'⟩
  · exact prune_owned h (fun q b ha hb => hs hheight t q b ht ha hb) hm

theorem verifyBlock_owned (h : m.Owned [p]) (hs : m.PrunesUnshared block) {prev : Ptr} {r : Bool}
    (hm : m.verifyBlock fuel p block prev = some (r, m')) : m'.Owned [p] ∧ Pruned m m' := by
  obtain ⟨r₁, m₁, pastCount, hm₁, rfl⟩ := verifyBlock_cases hm
  obtain ⟨howned, hpruned⟩ := verifyTransition_owned h hs hm₁
  exact ⟨⟨howned.pool, howned.lastBlock, howned.lastOrphan⟩,
    ⟨hpruned.blocks, hpruned.load, hpruned.lastBlock, hpruned.lastOrphan, hpruned.checkpoints⟩⟩

/-! ## The branches of a relayed block -/

/-- The block is verified. -/
def Verifies (m : BRBlockManager) (block : BRMerkleBlock UInt256) (prev : Option Ptr) : Prop :=
  ¬ (block.totalTx = 0 ∧ block.timestamp + WEEK > m.earliestKeyTime + 2 * 60 * 60) ∧
    m.bloomFilter = true ∧ prev ≠ none

theorem fate_cases {fate : Fate}
    (hm : m.fate fuel now peerLastBlock p block prev = some (fate, m')) :
    m' = m ∨ m.Verifies block prev ∧
      ∃ q r, prev = some q ∧ m.verifyBlock fuel p block q = some (r, m') := by
  unfold BRBlockManager.fate at hm
  by_cases hheader : block.totalTx = 0 ∧ block.timestamp + WEEK > m.earliestKeyTime + 2 * 60 * 60
  · rw [if_pos hheader] at hm
    cases hm
    exact Or.inl rfl
  rw [if_neg hheader] at hm
  by_cases hfilter : (!m.bloomFilter) = true
  · rw [if_pos hfilter] at hm
    cases hm
    exact Or.inl rfl
  rw [if_neg hfilter] at hm
  cases prev with
  | none =>
    simp only [Option.some.injEq, Prod.mk.injEq] at hm
    exact Or.inl hm.2.symm
  | some prev =>
    simp only [Option.bind_eq_bind, Option.bind_eq_some_iff] at hm
    obtain ⟨⟨valid, m₁⟩, hm₁, hm⟩ := hm
    have hverifies : m.Verifies block (some prev) := ⟨hheader, by simpa using hfilter, by simp⟩
    refine Or.inr ⟨hverifies, prev, valid, rfl, ?_⟩
    cases valid with
    | false =>
      cases hm
      exact hm₁
    | true =>
      simp only [Bool.not_true, Bool.false_eq_true, if_false, Option.bind_eq_some_iff] at hm
      obtain ⟨last, -, hm⟩ := hm
      split_ifs at hm <;> cases hm <;> exact hm₁

theorem fate_owned (h : m.Owned [p]) (hs : m.Verifies block prev → m.PrunesUnshared block)
    {fate : Fate} (hm : m.fate fuel now peerLastBlock p block prev = some (fate, m')) :
    m'.Owned [p] ∧ Pruned m m' := by
  rcases fate_cases hm with rfl | ⟨hverifies, q, r, -, hm⟩
  · exact ⟨h, .refl m'⟩
  · exact verifyBlock_owned h (hs hverifies) hm

/-- A block on a fork is a new one. -/
theorem fate_fork (hm : m.fate fuel now peerLastBlock p block prev = some (.fork, m')) :
    m'.blocks.lookup block.blockHash = none := by
  unfold BRBlockManager.fate at hm
  cases prev with
  | none =>
    split_ifs at hm <;> simp at hm
  | some prev =>
    simp only [Option.bind_eq_bind] at hm
    split_ifs at hm with hheader hfilter
    · simp at hm
    · simp at hm
    obtain ⟨⟨valid, m₁⟩, -, hm⟩ := Option.bind_eq_some_iff.1 hm
    cases valid with
    | false => simp at hm
    | true =>
      simp only [Bool.not_true, Bool.false_eq_true, if_false, Option.bind_eq_some_iff] at hm
      obtain ⟨last, -, hm⟩ := hm
      split_ifs at hm with hmain hhas hrescan hold
      · simp at hm
      · simp at hm
      · simp at hm
      · simp at hm
      · simp only [Option.some.injEq, Prod.mk.injEq, true_and] at hm
        rw [← hm]
        simpa using hhas

theorem discard_owned (h : m.Owned [p]) (hp : m.lastOrphan ≠ some p) : (m.discard p).Owned [] := by
  refine ⟨h.pool.free, h.lastBlock, ?_⟩
  intro o ho
  obtain ⟨x, hx⟩ := h.lastOrphan o ho
  refine ⟨x, (Heap.load_free_ne _ ?_).trans hx⟩
  rintro rfl
  exact hp ho

theorem addOrphan_owned (h : m.Owned [p]) (hp : m.heap.load p = some block) :
    (m.addOrphan p block).Owned [] := by
  refine ⟨h.pool.insertOrphan hp, h.lastBlock, ?_⟩
  intro o ho
  obtain rfl := Option.some.inj ho
  exact ⟨block, hp⟩

/-- The block in hand becomes a block, and the `lastBlock`. -/
theorem insert_owned (h : m.Owned [p]) (hp : m.heap.load p = some block) :
    ({ m with blocks := m.blocks.insert block.blockHash p, lastBlock := some p } :
      BRBlockManager).Owned [] :=
  ⟨h.pool.insertBlock hp, ⟨p, rfl, holds_insert_self _ _ _⟩, h.lastOrphan⟩

theorem extendMain_owned (h : m.Owned [p]) (hp : m.heap.load p = some block) {saveCount : ℕ}
    (hm : m.extendMain env fuel now peer degraded p block txHashes txTime = some (m', saveCount)) :
    m'.Owned [] := by
  obtain ⟨m₁, hm₁, hm⟩ := Option.bind_eq_some_iff.1 hm
  obtain ⟨manager, rfl⟩ := confirmTx_manager hm₁
  have hconfirmed := (insert_owned h hp).manager manager
  refine completeDownload_owned ?_ hm
  split_ifs
  · exact hconfirmed.manager _
  · exact hconfirmed

theorem addFork_owned (h : m.Owned [p]) (hp : m.heap.load p = some block) {saveCount : ℕ}
    (hnew : m.blocks.lookup block.blockHash = none)
    (hm : m.addFork env fuel now degraded p block = some (m', saveCount)) : m'.Owned [] := by
  obtain ⟨last, -, hm⟩ := Option.bind_eq_some_iff.1 hm
  have hmain := insert_owned h hp
  split_ifs at hm with hheight
  · simp only [Option.bind_eq_some_iff, reorganize, Option.bind_eq_bind] at hm
    obtain ⟨m₁, ⟨q, -, last, -, ⟨b, b2⟩, -, b', -, w, -, wallet, -, hm₁⟩, hm⟩ := hm
    cases hm₁
    refine completeDownload_owned ?_ hm
    exact ⟨hmain.pool, hmain.lastBlock, hmain.lastOrphan⟩
  · cases hm
    obtain ⟨l, hl, hheld⟩ := h.lastBlock
    refine ⟨hmain.pool, ⟨l, hl, hheld.insert ?_ p⟩, hmain.lastOrphan⟩
    rw [hnew]
    intro heq
    cases heq

/-- The block that the block replaces is no checkpoint, and if it is the `lastBlock`, then the
    block has its height. -/
def ReplacesUnshared (m : BRBlockManager) (block : BRMerkleBlock UInt256) : Prop :=
  ∀ q, m.blocks.lookup block.blockHash = some q → ¬ Holds m.checkpoints q ∧
    (m.lastBlock = some q → ∀ b, m.heap.load q = some b → b.height = block.height)

theorem Pruned.replacesUnshared (h : Pruned m m') (hs : m.ReplacesUnshared block) :
    m'.ReplacesUnshared block := by
  intro q hq
  obtain ⟨hcheck, hheight⟩ := hs q (h.blocks hq)
  rw [h.checkpoints, h.lastBlock]
  exact ⟨hcheck, fun hlast b hb => hheight hlast b (h.load hb)⟩

/-- The block in hand replaces the old one, which is freed. -/
theorem Owned.replace {old : Ptr} (h : m.Owned [p]) (hp : m.heap.load p = some block)
    (hold : m.blocks.lookup block.blockHash = some old) (hc : ¬ Holds m.checkpoints old)
    {lastBlock : Option Ptr}
    (hlast : lastBlock = some p ∨ lastBlock = m.lastBlock ∧ m.lastBlock ≠ some old) :
    ({ m with
      blocks := m.blocks.insert block.blockHash p
      lastBlock := lastBlock
      lastOrphan := if m.lastOrphan = some old then none else m.lastOrphan
      heap := m.heap.free old } : BRBlockManager).Owned [] := by
  refine ⟨h.pool.replace hp hold hc, ?_, ?_⟩
  · rcases hlast with rfl | ⟨rfl, hne⟩
    · exact ⟨p, rfl, holds_insert_self _ _ _⟩
    · obtain ⟨l, hl, hheld⟩ := h.lastBlock
      refine ⟨l, hl, hheld.insert ?_ p⟩
      rw [hold]
      intro heq
      exact hne (hl.trans heq.symm)
  · intro o ho
    by_cases holdest : m.lastOrphan = some old
    · simp only [if_pos holdest] at ho
      cases ho
    · simp only [if_neg holdest] at ho
      obtain ⟨x, hx⟩ := h.lastOrphan o ho
      refine ⟨x, (Heap.load_free_ne _ ?_).trans hx⟩
      rintro rfl
      exact holdest ho

theorem mainAt_of_le {height : UInt32} {b c : BlockAt} (hb : ¬ b.2.height > height)
    (hc : m.mainAt height fuel (some b) = some (some c)) : c = b := by
  cases fuel with
  | zero => cases hc
  | succ fuel =>
    rw [mainAt, if_neg hb] at hc
    exact (Option.some.inj (Option.some.inj hc)).symm

/-- The block replaces the old one, and also the `lastBlock` if that is the old one. -/
theorem replaceBlock_cases (hp : ¬ Holds m.blocks p)
    (horphans : ∀ q, Holds m.orphans q → ¬ Holds m.blocks q)
    (hm : m.replaceBlock fuel now p block txHashes txTime = some m') :
    ∃ q last b old manager lastBlock, m.lastBlock = some q ∧ m.heap.load q = some last ∧
      m.mainAt block.height fuel (some (q, last)) = some (some b) ∧
      m.blocks.lookup block.blockHash = some old ∧
      (lastBlock = some p ∨ lastBlock = m.lastBlock ∧
        ¬ (blockEq b.1 b.2 p block = true ∧ block.height = last.height)) ∧
      m' = { m with
        toBRPeerManager := manager
        blocks := m.blocks.insert block.blockHash p
        lastBlock := lastBlock
        lastOrphan := if m.lastOrphan = some old then none else m.lastOrphan
        heap := m.heap.free old } := by
  simp only [replaceBlock, Option.bind_eq_bind, Option.bind_eq_some_iff] at hm
  obtain ⟨q, hq, last, hload, -, hmain, b, rfl, m₁, hm₁, old, hold, hm⟩ := hm
  have hwritten : ∃ manager lastBlock,
      m₁ = { m with toBRPeerManager := manager, lastBlock := lastBlock } ∧
      (lastBlock = some p ∨ lastBlock = m.lastBlock ∧
        ¬ (blockEq b.1 b.2 p block = true ∧ block.height = last.height)) := by
    by_cases heq : blockEq b.1 b.2 p block = true
    · simp only [if_pos heq, Option.bind_eq_some_iff] at hm₁
      obtain ⟨m₂, hm₂, hm₁⟩ := hm₁
      obtain ⟨manager, rfl⟩ := confirmTx_manager hm₂
      by_cases hheight : block.height = last.height
      · rw [if_pos hheight] at hm₁
        cases hm₁
        exact ⟨manager, some p, rfl, Or.inl rfl⟩
      · rw [if_neg hheight] at hm₁
        cases hm₁
        exact ⟨manager, m.lastBlock, rfl, Or.inr ⟨rfl, fun hboth => hheight hboth.2⟩⟩
    · rw [if_neg heq] at hm₁
      cases hm₁
      exact ⟨m.toBRPeerManager, m.lastBlock, rfl, Or.inr ⟨rfl, fun hboth => heq hboth.1⟩⟩
  obtain ⟨manager, lastBlock, rfl, hlast⟩ := hwritten
  have hold : m.blocks.lookup block.blockHash = some old := hold
  have hne : old ≠ p := by
    rintro rfl
    exact hp ⟨_, hold⟩
  have hnot : ∀ hash, m.orphans.lookup hash ≠ some old := by
    intro hash ho
    exact horphans old ⟨hash, ho⟩ ⟨_, hold⟩
  simp only [if_neg hne, Option.bind_eq_some_iff] at hm
  obtain ⟨o, -, hm⟩ := hm
  simp only [if_neg (hnot _), Option.some.injEq] at hm
  exact ⟨q, last, b, old, manager, lastBlock, hq, hload, hmain, hold, hlast, hm.symm⟩

theorem replaceBlock_owned (h : m.Owned [p]) (hp : m.heap.load p = some block)
    (hs : m.ReplacesUnshared block)
    (hm : m.replaceBlock fuel now p block txHashes txTime = some m') : m'.Owned [] := by
  obtain ⟨q, last, b, old, manager, lastBlock, hq, hload, hmain, hold, hlast, rfl⟩ :=
    replaceBlock_cases h.pool.head.2.1 (fun q ho => (h.pool.orphaned q ho).1) hm
  obtain ⟨hcheck, hheight⟩ := hs old hold
  refine (h.manager manager).replace hp hold hcheck ?_
  rcases hlast with hlast | ⟨hlast, hboth⟩
  · exact Or.inl hlast
  · refine Or.inr ⟨hlast, ?_⟩
    -- the old block is the `lastBlock`: the walk back stays there
    intro heq
    obtain rfl : q = old := Option.some.inj (hq.symm.trans heq)
    have hsame : last.height = block.height := hheight heq last hload
    have hb := mainAt_of_le (by simp [hsame]) hmain
    refine hboth ⟨?_, hsame.symm⟩
    rw [hb]
    simp only [blockEq, decide_eq_true_eq]
    exact Or.inr (h.pool.byHash.key hold hload)

theorem takeNext_owned (h : m.Owned []) : (m.takeNext block).Owned [] := by
  unfold takeNext
  by_cases hheight : block.height ≠ BLOCK_UNKNOWN_HEIGHT
  · rw [if_pos hheight]
    cases hnext : m.orphans.lookup block.blockHash with
    | none =>
      refine ⟨?_, h.lastBlock, h.lastOrphan⟩
      simpa using h.pool.eraseOrphan block.blockHash
    | some q =>
      refine ⟨?_, h.lastBlock, h.lastOrphan⟩
      exact (h.pool.takeOrphan hnext).perm (List.perm_append_singleton q m.relayed).symm
  · rw [if_neg hheight]
    exact h

theorem saveBlocks_owned (h : m.Owned hand) {saveCount : ℕ}
    (hm : m.saveBlocks saveCount block = some m') : m'.Owned hand := by
  simp only [saveBlocks, Option.bind_eq_bind, Option.bind_eq_some_iff, Option.some.injEq] at hm
  obtain ⟨blocks, -, rfl⟩ := hm
  split_ifs
  · exact ⟨h.pool, h.lastBlock, h.lastOrphan⟩
  · exact h

/-- The block is freed. -/
def Fate.Discards : Fate → Prop
  | .header | .incomplete | .oldOrphan | .invalid | .oldFork => True
  | _ => False

theorem settle_owned (h : m.Owned [p]) (hp : m.heap.load p = some block) {fate : Fate}
    (hfree : fate.Discards → m.lastOrphan ≠ some p)
    (hold : fate = .existing → m.ReplacesUnshared block)
    (hnew : fate = .fork → m.blocks.lookup block.blockHash = none) {saveCount : Option ℕ}
    (hm : m.settle env fuel now peer peerLastBlock degraded p block txHashes txTime fate =
      some (m', saveCount)) : m'.Owned [] := by
  cases fate with
  | header | oldOrphan | invalid | oldFork =>
    cases hm
    exact discard_owned h (hfree trivial)
  | incomplete =>
    have hdiscard := discard_owned h (hfree trivial)
    simp only [settle, Option.bind_eq_bind] at hm
    split_ifs at hm with hpeer
    · obtain ⟨last, -, hm⟩ := Option.bind_eq_some_iff.1 hm
      simp only [Option.some.injEq, Prod.mk.injEq] at hm
      obtain ⟨rfl, -⟩ := hm
      split_ifs
      · exact hdiscard.manager _
      · exact hdiscard
    · cases hm
      exact hdiscard
  | orphan =>
    obtain ⟨m₁, hm₁, hm⟩ := Option.bind_eq_some_iff.1 hm
    cases hm
    obtain ⟨getblocks, rfl⟩ := requestBlocks_cases hm₁
    exact addOrphan_owned ⟨h.pool, h.lastBlock, h.lastOrphan⟩ hp
  | duringRescan =>
    cases hm
    exact addOrphan_owned h hp
  | main =>
    obtain ⟨⟨m₁, n⟩, hm₁, hm⟩ := Option.bind_eq_some_iff.1 hm
    cases hm
    exact extendMain_owned h hp hm₁
  | existing =>
    obtain ⟨m₁, hm₁, hm⟩ := Option.bind_eq_some_iff.1 hm
    cases hm
    exact replaceBlock_owned h hp (hold rfl) hm₁
  | fork =>
    obtain ⟨⟨m₁, n⟩, hm₁, hm⟩ := Option.bind_eq_some_iff.1 hm
    cases hm
    exact addFork_owned h hp (hnew rfl) hm₁

/-- A relayed block is taken in hand. -/
theorem setHeight_owned (h : m.Owned []) (hp : p ∈ m.relayed) {prev : Option BlockAt}
    (hm : m.setHeight p = some (m', block, prev)) :
    m'.Owned [p] ∧ m'.heap.load p = some block := by
  simp only [setHeight, Option.bind_eq_bind, Option.bind_eq_some_iff, Option.some.injEq,
    Prod.mk.injEq] at hm
  obtain ⟨received, hload, prev, -, rfl, hblock, -⟩ := hm
  have hpool := h.pool.perm (List.perm_cons_erase hp)
  refine ⟨⟨hpool.store _, h.lastBlock, ?_⟩, ?_⟩
  · intro o ho
    obtain ⟨x, hx⟩ := h.lastOrphan o ho
    by_cases hop : p = o
    · subst hop
      exact ⟨_, Heap.load_store_self _ hload⟩
    · exact ⟨x, (Heap.load_store_ne _ _ hop).trans hx⟩
  · rw [← hblock]
    exact Heap.load_store_self _ hload

/-! ## Creation -/

/-- The saved blocks are live, and none of them is one of a checkpoint. -/
def SavedApart (m : BRBlockManager) (saved : List Ptr) : Prop :=
  ∀ p ∈ saved, m.heap.Live p ∧ ¬ Holds m.blocks p ∧ ¬ Holds m.checkpoints p

theorem addCheckPoint_pool {saved : List Ptr} {c : BRCheckPoint}
    (h : Pool m.heap m.blocks m.orphans m.checkpoints []) (hs : m.SavedApart saved) :
    Pool (m.addCheckPoint c).heap (m.addCheckPoint c).blocks (m.addCheckPoint c).orphans
      (m.addCheckPoint c).checkpoints [] ∧ (m.addCheckPoint c).SavedApart saved := by
  refine ⟨(h.alloc (checkPointBlock c)).insertCheckPoint (Heap.load_alloc_fresh _ _), ?_⟩
  intro q hq
  obtain ⟨⟨x, hx⟩, hb, hc⟩ := hs q hq
  have hfresh : q ≠ m.heap.fresh := by
    intro heq
    exact absurd (Heap.load_lt hx) (heq ▸ lt_irrefl _)
  refine ⟨⟨x, Heap.load_alloc _ hx⟩, ?_, ?_⟩
  · intro hins
    exact (holds_insert hins).elim hfresh hb
  · intro hins
    exact (holds_insert hins).elim hfresh hc

/-- After a part of the checkpoints. -/
structure Created (saved : List Ptr) (hashes : List UInt256) (m : BRBlockManager) : Prop where
  pool : Pool m.heap m.blocks m.orphans m.checkpoints []
  apart : m.SavedApart saved
  keys : ∀ hash p, m.blocks.lookup hash = some p → hash ∈ hashes
  lastBlock : hashes ≠ [] → ∃ p, m.lastBlock = some p
  held : ∀ p, m.lastBlock = some p → Holds m.blocks p
  lastOrphan : m.lastOrphan = none
  relayed : m.relayed = []

theorem Created.add {saved : List Ptr} {hashes : List UInt256} {c : BRCheckPoint}
    (h : m.Created saved hashes) (hc : c.hash ∉ hashes) :
    (m.addCheckPoint c).Created saved (hashes ++ [c.hash]) := by
  obtain ⟨hpool, hapart⟩ := addCheckPoint_pool (c := c) h.pool h.apart
  refine ⟨hpool, hapart, ?_, ?_, ?_, h.lastOrphan, h.relayed⟩
  · intro hash p hp
    by_cases heq : hash = c.hash
    · simp [heq]
    · have hp : (m.blocks.insert c.hash m.heap.fresh).lookup hash = some p := hp
      rw [AList.lookup_insert_ne heq] at hp
      exact List.mem_append_left _ (h.keys hash p hp)
  · intro _
    show ∃ p, (if m.lastBlock = none ∨ c.timestamp + WEEK < m.earliestKeyTime then
      some m.heap.fresh else m.lastBlock) = some p
    split_ifs with hlast
    · exact ⟨_, rfl⟩
    · exact Option.ne_none_iff_exists'.1 fun hnone => hlast (Or.inl hnone)
  · intro p hp
    have hp : (if m.lastBlock = none ∨ c.timestamp + WEEK < m.earliestKeyTime then
      some m.heap.fresh else m.lastBlock) = some p := hp
    split_ifs at hp with hlast
    · obtain rfl := Option.some.inj hp
      exact holds_insert_self _ _ _
    · refine (h.held p hp).insert ?_ _
      intro hlookup
      exact hc (h.keys _ _ hlookup)

theorem created_checkpoints {saved : List Ptr} {checkpoints : List BRCheckPoint} :
    ∀ {m : BRBlockManager} {hashes : List UInt256}, m.Created saved hashes →
      (hashes ++ checkpoints.map BRCheckPoint.hash).Nodup →
      (checkpoints.foldl addCheckPoint m).Created saved
        (hashes ++ checkpoints.map BRCheckPoint.hash) := by
  induction checkpoints with
  | nil =>
    intro m hashes h _
    simpa using h
  | cons c checkpoints ih =>
    intro m hashes h hnodup
    rw [List.map_cons, List.append_cons] at hnodup ⊢
    have hc : c.hash ∉ hashes := by
      intro hmem
      have hpart := (List.nodup_append.1 hnodup).1
      exact (List.nodup_append.1 hpart).2.2 _ hmem _ (List.mem_singleton_self _) rfl
    exact ih (h.add hc) hnodup

/-- One saved block after the other becomes an orphan. -/
theorem addSaved_owned {saved : List Ptr} {s s' : BRBlockManager × Option Ptr}
    (h : s.1.Owned [] ∧ s.1.SavedApart saved ∧ s.1.relayed = [] ∧ ∀ p, s.2 = some p → p ∈ saved)
    (hp : p ∈ saved) (hs : addSaved s p = some s') :
    s'.1.Owned [] ∧ s'.1.SavedApart saved ∧ s'.1.relayed = [] ∧ ∀ p, s'.2 = some p → p ∈ saved := by
  obtain ⟨howned, hapart, hrelayed, htransition⟩ := h
  obtain ⟨⟨x, hx⟩, hb, hc⟩ := hapart p hp
  simp only [addSaved, Option.bind_eq_bind, Option.bind_eq_some_iff] at hs
  obtain ⟨b, hload, hs⟩ := hs
  split_ifs at hs with hheight
  simp only [Option.bind_eq_some_iff, Option.some.injEq] at hs
  obtain ⟨isLater, -, rfl⟩ := hs
  refine ⟨⟨?_, howned.lastBlock, howned.lastOrphan⟩, hapart, hrelayed, ?_⟩
  · exact howned.pool.addOrphan hload (by simp [hrelayed]) hb hc
  · intro q hq
    by_cases hlater : b.height.toNat % BLOCK_DIFFICULTY_INTERVAL = 0 ∧ isLater = true
    · rw [if_pos hlater] at hq
      exact Option.some.inj hq ▸ hp
    · rw [if_neg hlater] at hq
      exact htransition q hq

theorem restoreChain_owned : ∀ {fuel : ℕ} {m : BRBlockManager} {transition : Option Ptr},
    m.Owned [] → m.relayed = [] →
    (∀ p, transition = some p → ¬ Holds m.blocks p ∧ ¬ Holds m.checkpoints p) →
    restoreChain fuel m transition = some m' → m'.Owned [] := by
  intro fuel
  induction fuel with
  | zero =>
    intro m transition h _ _ hm
    cases transition with
    | none =>
      cases hm
      exact h
    | some p => cases hm
  | succ fuel ih =>
    intro m transition h hrelayed happ hm
    cases transition with
    | none =>
      cases hm
      exact h
    | some p =>
      obtain ⟨b, hload, hm⟩ := Option.bind_eq_some_iff.1 hm
      obtain ⟨hb, hc⟩ := happ p rfl
      have hpool : Pool m.heap m.blocks m.orphans m.checkpoints [] := by
        simpa [hrelayed] using h.pool
      have hinserted := (hpool.takeSaved hload hb hc).insertBlock hload
      refine ih (m := { m with
        blocks := m.blocks.insert b.blockHash p, lastBlock := some p
        orphans := m.orphans.erase b.prevBlock }) ⟨?_, ?_, h.lastOrphan⟩ hrelayed ?_ hm
      · simpa [hrelayed] using hinserted
      · exact ⟨p, rfl, holds_insert_self _ _ _⟩
      · intro q hq
        exact hinserted.orphaned q ⟨_, hq⟩

theorem new_owned {params : BRChainParams} {wallet : BRWallet} {earliestKeyTime : UInt32}
    {heap : Heap (BRMerkleBlock UInt256)} {saved : List Ptr} (hsaved : ∀ p ∈ saved, heap.Live p)
    (hm : new fuel params wallet earliestKeyTime heap saved = some m) : m.Owned [] := by
  obtain ⟨⟨m₁, transition⟩, hm₁, hm⟩ := Option.bind_eq_some_iff.1 hm
  have hempty : Created saved [] { wallet, params, earliestKeyTime, heap } := by
    refine ⟨⟨.empty _ _, .empty _ _, .empty _ _, List.nodup_nil, ?_, ?_⟩, ?_, ?_, ?_, ?_, rfl, rfl⟩
    · intro p hp
      cases hp
    · intro p hp
      exact absurd hp (not_holds_empty p)
    · intro p hp
      exact ⟨hsaved p hp, not_holds_empty p, not_holds_empty p⟩
    · intro hash p hp
      simp at hp
    · intro hne
      exact absurd rfl hne
    · intro p hp
      cases hp
  have hcreated := created_checkpoints hempty params.nodup
  obtain ⟨q, hq⟩ := hcreated.lastBlock (by simpa using params.nonempty)
  have howned : (params.checkpoints.foldl addCheckPoint
      { wallet, params, earliestKeyTime, heap }).Owned [] := by
    refine ⟨?_, ⟨q, hq, hcreated.held q hq⟩, ?_⟩
    · simpa [hcreated.relayed] using hcreated.pool
    · intro o ho
      rw [hcreated.lastOrphan] at ho
      cases ho
  obtain ⟨howned₁, hapart, hrelayed, htransition⟩ := foldlM_invariant
    (P := fun s => s.1.Owned [] ∧ s.1.SavedApart saved ∧ s.1.relayed = [] ∧
      ∀ p, s.2 = some p → p ∈ saved)
    (fun hp h hstep => addSaved_owned h hp hstep)
    ⟨howned, hcreated.apart, hcreated.relayed, fun _ hp => by cases hp⟩ hm₁
  refine restoreChain_owned howned₁ hrelayed ?_ hm
  intro p hp
  exact (hapart p (htransition p hp)).2

/-! ## Runs -/

/-- No block that something else points to is freed with the relayed block at `p`. -/
def KeepsBlock (m : BRBlockManager) (fuel : ℕ) (now : ℤ) (peerLastBlock : UInt32) (p : Ptr)
    (block : BRMerkleBlock UInt256) (prev : Option Ptr) : Prop :=
  (m.Verifies block prev → m.PrunesUnshared block) ∧
  ∀ fate m', m.fate fuel now peerLastBlock p block prev = some (fate, m') →
    (fate.Discards → m.lastOrphan ≠ some p) ∧ (fate = .existing → m.ReplacesUnshared block)

/-- The step frees no block that something else points to, and a rescan starts with a block. -/
def KeepsBlocks (m : BRBlockManager) : BlockEvent → Prop
  | .relayedBlock now _ peerLastBlock _ p => ∀ fuel m₁ block prev,
    m.setHeight p = some (m₁, block, prev) →
      m₁.KeepsBlock fuel now peerLastBlock p block (prev.map Prod.fst)
  | .rescan => m.isConnected = true →
    m.blocks.lookup (m.params.lastWith fun c => c.timestamp + WEEK < m.earliestKeyTime).hash ≠ none
  | _ => True

theorem relayedBlock_owned (h : m.Owned []) (hp : p ∈ m.relayed)
    (hs : m.KeepsBlocks (.relayedBlock now peer peerLastBlock degraded p))
    (hm : m.relayedBlock env fuel now peer peerLastBlock degraded p = some m') : m'.Owned [] := by
  simp only [relayedBlock, Option.bind_eq_bind, Option.bind_eq_some_iff] at hm
  obtain ⟨⟨m₁, block, prev⟩, hm₁, count, -, txHashes, -, ⟨fate, m₂⟩, hm₂, ⟨m₃, saveCount⟩, hm₃, hm⟩
    := hm
  obtain ⟨hprune, hfate⟩ := hs fuel m₁ block prev hm₁
  obtain ⟨howned₁, hp₁⟩ := setHeight_owned h hp hm₁
  obtain ⟨howned₂, hpruned⟩ := fate_owned howned₁ hprune hm₂
  obtain ⟨hfree, hold⟩ := hfate fate m₂ hm₂
  have hp₂ : m₂.heap.load p = some block := by
    obtain ⟨⟨x, hx⟩, -⟩ := howned₂.pool.head
    rw [hx, ← hpruned.load hx, hp₁]
  have howned₃ : m₃.Owned [] := by
    refine settle_owned howned₂ hp₂ ?_ ?_ ?_ hm₃
    · rw [hpruned.lastOrphan]
      exact hfree
    · exact fun hex => hpruned.replacesUnshared (hold hex)
    · rintro rfl
      exact fate_fork hm₂
  cases saveCount with
  | none =>
    cases hm
    exact howned₃
  | some saveCount => exact saveBlocks_owned (takeNext_owned howned₃) hm

theorem lookupInChain_held {blockNumber : UInt32} : ∀ {fuel : ℕ} {b : Option BlockAt} {q : Ptr},
    (∀ c, b = some c → Holds m.blocks c.1) →
    m.lookupInChain blockNumber fuel b = some (some q) → Holds m.blocks q := by
  intro fuel
  induction fuel with
  | zero =>
    intro b q _ hq
    cases hq
  | succ fuel ih =>
    intro b q hb hq
    cases b with
    | none => cases hq
    | some b =>
      rw [lookupInChain] at hq
      split_ifs at hq with hheight
      · cases hq
        exact hb b rfl
      · obtain ⟨c, hc, hq⟩ := Option.bind_eq_some_iff.1 hq
        refine ih ?_ hq
        rintro c rfl
        unfold getBlockAt at hc
        cases hlookup : m.blocks.lookup b.2.prevBlock with
        | none =>
          rw [hlookup] at hc
          cases hc
        | some p =>
          rw [hlookup] at hc
          obtain ⟨x, -, hx⟩ := Option.map_eq_some_iff.1 hc
          cases hx
          exact ⟨_, hlookup⟩

theorem lookupBlockFromBlockNumber_held (h : m.Owned hand) {blockNumber : UInt32} {q : Ptr}
    (hq : m.lookupBlockFromBlockNumber fuel blockNumber = some (some q)) : Holds m.blocks q := by
  obtain ⟨l, hl, hheld⟩ := h.lastBlock
  simp only [lookupBlockFromBlockNumber, hl, Option.bind_eq_bind, Option.bind_eq_some_iff] at hq
  obtain ⟨b, hb, found, hfound, hq⟩ := hq
  cases found with
  | some p =>
    cases hq
    refine lookupInChain_held ?_ hfound
    rintro c rfl
    obtain ⟨x, -, hx⟩ := Option.map_eq_some_iff.1 hb
    cases hx
    exact hheld
  | none =>
    simp only [Option.none_or, Option.some.injEq] at hq
    obtain ⟨c, -, hlookup⟩ := Option.bind_eq_some_iff.1 hq
    exact ⟨_, hlookup⟩

theorem rescanFromBlockNumber_owned (h : m.Owned hand) {blockNumber : UInt32}
    (hm : m.rescanFromBlockNumber fuel blockNumber = some m') : m'.Owned hand := by
  unfold rescanFromBlockNumber at hm
  split_ifs at hm with hconnected
  · simp only [Option.bind_eq_bind, Option.bind_eq_some_iff, Option.some.injEq] at hm
    obtain ⟨block, hblock, rfl⟩ := hm
    refine h.rescanFrom ?_
    intro q hq
    cases block with
    | some p =>
      cases hq
      exact lookupBlockFromBlockNumber_held h hblock
    | none => exact ⟨_, hq⟩
  · cases hm
    exact h

theorem handle_owned (h : m.Owned []) {event : BlockEvent} (henabled : m.Enabled event)
    (hs : m.KeepsBlocks event) (hm : m.handle env fuel event = some m') : m'.Owned [] := by
  cases event with
  | manager event =>
    obtain ⟨manager, -, rfl⟩ := Option.map_eq_some_iff.1 hm
    exact h.manager manager
  | receive block =>
    cases hm
    refine ⟨?_, h.lastBlock, ?_⟩
    · exact (h.pool.alloc block).perm (List.perm_append_singleton m.heap.fresh m.relayed).symm
    · intro o ho
      obtain ⟨x, hx⟩ := h.lastOrphan o ho
      exact ⟨x, Heap.load_alloc block hx⟩
  | relayedBlock now peer peerLastBlock degraded p => exact relayedBlock_owned h henabled hs hm
  | estimate estimatedHeight =>
    cases hm
    exact ⟨h.pool, h.lastBlock, h.lastOrphan⟩
  | resetBloomFilter =>
    cases hm
    exact ⟨h.pool, h.lastBlock, h.lastOrphan⟩
  | loadBloomFilter => exact loadBloomFilter_owned h hm
  | rescan =>
    cases hm
    unfold rescan
    split_ifs with hconnected
    · obtain ⟨q, hq⟩ := Option.ne_none_iff_exists'.1 (hs hconnected)
      exact ⟨h.pool, ⟨q, hq, _, hq⟩, h.lastOrphan⟩
    · exact h
  | rescanFromLastHardcodedCheckpoint =>
    cases hm
    unfold rescanFromLastHardcodedCheckpoint
    split_ifs with hconnected
    · exact h.rescanFrom fun q hq => ⟨_, hq⟩
    · exact h
  | rescanFromBlockNumber blockNumber => exact rescanFromBlockNumber_owned h hm
  | startSync =>
    obtain ⟨manager, rfl⟩ := startSync_cases hm
    exact h.manager manager

theorem run_owned (h : (system env).Run KeepsBlocks m) : m.Owned [] := by
  refine h.invariant (I := fun m => m.Owned []) (J := fun _ => True) (fun _ => trivial) ?_ ?_
  · rintro s ⟨fuel, params, wallet, earliestKeyTime, heap, saved, -, hsaved, hnew⟩
    exact new_owned hsaved hnew
  · rintro s event s' - hs hguard ⟨henabled, fuel, hstep⟩ -
    exact handle_owned hs henabled hguard hstep

end

/-- In every run whose steps free no block that something else points to, the block pointers are
    live. -/
theorem run_live {env : Env} {m : BRBlockManager} (h : (system env).Run KeepsBlocks m) : m.Live :=
  (run_owned h).live

/-- An orphan is freed, since it differs from the checkpoint, when the block before it arrives. -/
theorem not_run_live : ¬ ∀ (env : Env) (m : BRBlockManager),
    (system env).Run (fun _ _ => True) m → m.Live := by
  intro h
  have hbad : ((BRWallet.new BRWallet.sampleEnv 200 0 ⟨[some BRWallet.receipt]⟩ [0]).join.any
      fun w => (new 200 sampleParams w 0 ⟨[]⟩ []).any fun m₀ =>
      ([BlockEvent.loadBloomFilter, .receive (sampleBlock 5 4), .receive (sampleBlock 4 1),
        .relayedBlock 0 ⟨0, 0⟩ 10 false 2, .relayedBlock 0 ⟨0, 0⟩ 10 false 3,
        .relayedBlock 0 ⟨0, 0⟩ 10 false 2].foldlM (exec BRWallet.sampleEnv 200) m₀).any
      fun m : BRBlockManager => m.lastOrphan = some 2 ∧ m.heap.load 2 = none) = true := by
    decide +kernel
  simp only [Option.any_eq_true, Option.join_eq_some_iff, decide_eq_true_eq] at hbad
  obtain ⟨w, hw, m₀, hm₀, m, hm, horphan, hfreed⟩ := hbad
  have hinit : (system BRWallet.sampleEnv).init m₀ :=
    ⟨200, _, w, 0, _, [], ⟨200, 0, _, _, hw⟩, by simp, hm₀⟩
  obtain ⟨x, hx⟩ := (h _ m (run_events _ (.init hinit) hm)).lastOrphan 2 horphan
  rw [hfreed] at hx
  cases hx

theorem run_live_sample : ∃ m, (system BRWallet.sampleEnv).Run KeepsBlocks m ∧
    m.lastBlock = some 2 ∧ m.Live := by
  have hgood : ((BRWallet.new BRWallet.sampleEnv 200 0 ⟨[some BRWallet.receipt]⟩ [0]).join.any
      fun w => (new 200 sampleParams w 0 ⟨[]⟩ []).any fun m₀ =>
      (m₀.handle BRWallet.sampleEnv 200 .loadBloomFilter).any fun m₁ =>
      (m₁.handle BRWallet.sampleEnv 200 (.receive (sampleBlock 4 1))).any fun m₂ =>
      decide (2 ∈ m₂.relayed) && (m₂.setHeight 2).any (fun s => s.1.lastOrphan = none ∧
        s.2.1.height = 1 ∧ s.1.blocks.lookup s.2.1.blockHash = none) &&
      (m₂.handle BRWallet.sampleEnv 200 (.relayedBlock 0 ⟨0, 0⟩ 10 false 2)).any
      fun m₃ : BRBlockManager => m₃.lastBlock = some 2) = true := by
    decide +kernel
  simp only [Option.any_eq_true, Option.join_eq_some_iff, Bool.and_eq_true, decide_eq_true_eq]
    at hgood
  obtain ⟨w, hw, m₀, hm₀, m₁, hm₁, m₂, hm₂, ⟨hmem, s, hs, horphan, hheight, hnew⟩, m₃, hm₃, hlast⟩ :=
    hgood
  have hinit : (system BRWallet.sampleEnv).init m₀ :=
    ⟨200, _, w, 0, _, [], ⟨200, 0, _, _, hw⟩, by simp, hm₀⟩
  have hguard : m₂.KeepsBlocks (.relayedBlock 0 ⟨0, 0⟩ 10 false 2) := by
    intro fuel m block prev hset
    rw [hs, Option.some.injEq] at hset
    subst hset
    refine ⟨?_, ?_⟩
    · intro _ htransition
      exact absurd htransition (by rw [hheight]; decide)
    · intro fate m' _
      have horphan : m.lastOrphan = none := horphan
      refine ⟨fun _ => by simp [horphan], ?_⟩
      intro _ q hq
      rw [hnew] at hq
      cases hq
  have hload : m₀.KeepsBlocks .loadBloomFilter := trivial
  have hreceive : m₁.KeepsBlocks (.receive (sampleBlock 4 1)) := trivial
  have hrun := (((System.Run.init hinit).step hload ⟨trivial, 200, hm₁⟩).step hreceive
    ⟨trivial, 200, hm₂⟩).step hguard ⟨hmem, 200, hm₃⟩
  exact ⟨m₃, hrun, hlast, run_live hrun⟩

end BRBlockManager

end RavenWallet
