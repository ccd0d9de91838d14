/-
  Blocks in the peer manager (BRPeerManager.c).

  A set of blocks is a finite map from what keys it: the hash, the previous hash of
  an orphan, the height of a checkpoint.  The sets and `lastBlock` and `lastOrphan`
  hold pointers.  A handler runs under the lock, and has no result if it reads a
  freed block or dereferences `NULL`; its loops run for `fuel` rounds.

  `_peerRelayedBlock` releases the lock before it goes on with the next orphan, so
  that one is a call of its own; `relayed` holds the blocks that it is to be called
  with.  The false positive rate, the pings, timeouts and log are left out, and so are
  the messages to the peers, but for the locators.
-/
import RavenWallet.Core.Difficulty
import RavenWallet.Peer.TxManager

namespace RavenWallet

/-- A checkpoint, with its hash in the order of a `blockHash`. -/
structure BRCheckPoint where
  height : UInt32
  hash : UInt256
  timestamp : UInt32
  target : UInt32
  deriving DecidableEq

/-- The checkpoints of a chain, which are different blocks. -/
structure BRChainParams where
  checkpoints : List BRCheckPoint
  nonempty : checkpoints ≠ []
  nodup : (checkpoints.map BRCheckPoint.hash).Nodup

namespace BRChainParams

variable (params : BRChainParams)

def first : BRCheckPoint := params.checkpoints.head params.nonempty

def last : BRCheckPoint := params.checkpoints.getLast params.nonempty

/-- The last checkpoint for which `test` holds, else the first one. -/
def lastWith (test : BRCheckPoint → Bool) : BRCheckPoint :=
  (params.checkpoints.reverse.find? test).getD params.first

end BRChainParams

def BLOCK_DIFFICULTY_INTERVAL : ℕ := 2016
def DGW_BLOCK_DIFFICULTY_INTERVAL : ℕ := 1

/-- A week, in seconds. -/
def WEEK : UInt32 := 7 * 24 * 60 * 60

/-- The part of `struct BRPeerManagerStruct` that the handlers of blocks use, over that of
    transactions.  `bloomFilter` is whether it is set, and `pastCount` the static variable of
    `BRMerkleBlockVerifyDifficulty`.  `getblocks` are the locators that were sent, and `saved` what
    `saveBlocks` was called with. -/
structure BRBlockManager extends BRPeerManager where
  params : BRChainParams
  earliestKeyTime : UInt32 := 0
  heap : Heap (BRMerkleBlock UInt256)
  blocks : AList fun _ : UInt256 => Ptr := ∅
  orphans : AList fun _ : UInt256 => Ptr := ∅
  checkpoints : AList fun _ : UInt32 => Ptr := ∅
  lastBlock : Option Ptr := none
  lastOrphan : Option Ptr := none
  estimatedHeight : UInt32 := 0
  filterUpdateHeight : UInt32 := 0
  bloomFilter : Bool := false
  pastCount : Int32 := 0
  relayed : List Ptr := []
  getblocks : List (List UInt256) := []
  saved : List (Bool × List (BRMerkleBlock UInt256)) := []

namespace BRBlockManager

variable (m : BRBlockManager)

/-! ## Reading blocks -/

/-- The block that `lastBlock` points to. -/
def last : Option (BRMerkleBlock UInt256) := m.lastBlock.bind m.heap.load

/-- `BRSetGet(manager->blocks, &hash)`, dereferenced if it is not `NULL`. -/
def getBlock (hash : UInt256) : Option (Option (BRMerkleBlock UInt256)) :=
  match m.blocks.lookup hash with
  | none => some none
  | some q => (m.heap.load q).map some

/-- Steps back in the chain, until there is no block. -/
def stepsBack : ℕ → Option (BRMerkleBlock UInt256) → Option (Option (BRMerkleBlock UInt256))
  | _, none => some none
  | 0, b => some b
  | n + 1, some b => do
    let b ← m.getBlock b.prevBlock
    stepsBack n b

/-- The blocks of the set. -/
def blockList : List (BRMerkleBlock UInt256) :=
  m.blocks.entries.filterMap fun e => m.heap.load e.2

/-- The loop of `_PeerManagerBlockLocators`, with `i` locators before. -/
def locatorsFrom : ℕ → Option (BRMerkleBlock UInt256) → ℕ → ℕ → Option (List UInt256)
  | 0, _, _, _ => none
  | _ + 1, none, _, _ => some []
  | fuel + 1, some b, step, i =>
    if b.height = 0 then some []
    else do
      let step := if i + 1 ≥ 10 then step * 2 else step
      let prev ← m.stepsBack step (some b)
      let hashes ← locatorsFrom fuel prev step (i + 1)
      some (b.blockHash :: hashes)

/-- `_PeerManagerBlockLocators`. -/
def blockLocators (fuel : ℕ) : Option (List UInt256) := do
  let b ← (match m.lastBlock with
    | none => some none
    | some p => (m.heap.load p).map some)
  let hashes ← m.locatorsFrom fuel b 1 0
  some (hashes ++ [m.params.first.hash])

/-! ## Creation -/

/-- The block of a checkpoint. -/
def checkPointBlock (c : BRCheckPoint) : BRMerkleBlock UInt256 where
  blockHash := c.hash
  prevBlock := 0
  merkleRoot := 0
  mixHash := 0
  timestamp := c.timestamp
  target := c.target
  height := c.height

/-- The loop of `BRPeerManagerNew` over the checkpoints; the first one is the `lastBlock` at least. -/
def addCheckPoint (m : BRBlockManager) (c : BRCheckPoint) : BRBlockManager :=
  let p := m.heap.fresh
  { m with
    heap := m.heap.alloc (checkPointBlock c)
    checkpoints := m.checkpoints.insert c.height p
    blocks := m.blocks.insert c.hash p
    lastBlock := if m.lastBlock = none ∨ c.timestamp + WEEK < m.earliestKeyTime then some p
      else m.lastBlock }

/-- The loop of `BRPeerManagerNew` over the saved blocks; also the last transition block. -/
def addSaved (s : BRBlockManager × Option Ptr) (p : Ptr) : Option (BRBlockManager × Option Ptr) := do
  let b ← s.1.heap.load p
  if b.height = BLOCK_UNKNOWN_HEIGHT then none
  else do
    let m := { s.1 with orphans := s.1.orphans.insert b.prevBlock p }
    let isLater ← (match s.2 with
      | none => some true
      | some q => (m.heap.load q).map fun c => decide (b.height > c.height))
    some (m, if b.height.toNat % BLOCK_DIFFICULTY_INTERVAL = 0 ∧ isLater = true then some p else s.2)

/-- The last loop of `BRPeerManagerNew`, from a transition block on. -/
def restoreChain : ℕ → BRBlockManager → Option Ptr → Option BRBlockManager
  | _, m, none => some m
  | 0, _, some _ => none
  | fuel + 1, m, some p => do
    let b ← m.heap.load p
    let orphans := m.orphans.erase b.prevBlock
    restoreChain fuel
      { m with blocks := m.blocks.insert b.blockHash p, lastBlock := some p, orphans }
      (orphans.lookup b.blockHash)

/-- `BRPeerManagerNew`, with the blocks that were saved at `saved`. -/
def new (fuel : ℕ) (params : BRChainParams) (wallet : BRWallet) (earliestKeyTime : UInt32)
    (heap : Heap (BRMerkleBlock UInt256)) (saved : List Ptr) : Option BRBlockManager := do
  let m := params.checkpoints.foldl addCheckPoint { wallet, params, earliestKeyTime, heap }
  let (m, transition) ← saved.foldlM addSaved (m, none)
  restoreChain fuel m transition

/-! ## The bloom filter -/

/-- Generates some spare addresses. -/
def spareAddrs (env : Env) (fuel : ℕ) (w : BRWallet) : Option BRWallet := do
  let (w, _) ← w.unusedAddrs env fuel (SEQUENCE_GAP_LIMIT_EXTERNAL + 100) false
  let (w, _) ← w.unusedAddrs env fuel (SEQUENCE_GAP_LIMIT_INTERNAL + 100) true
  some w

/-- `_PeerManagerLoadBloomFilter`: the orphans are freed. -/
def loadBloomFilter (env : Env) (fuel : ℕ) (m : BRBlockManager) : Option BRBlockManager := do
  let wallet ← spareAddrs env fuel m.wallet
  let heap := m.orphans.entries.foldl (fun heap e => heap.free e.2) m.heap
  let m := { m with wallet, heap, orphans := ∅, lastOrphan := none }
  let last ← m.last
  let blockHeight := if last.height > 100 then last.height - 100 else 0
  let _ ← wallet.txUnconfirmedBefore wallet.transactions.length blockHeight
  some { m with filterUpdateHeight := last.height, bloomFilter := true }

/-- `_PeerManagerLoadMempools`; `degraded` is whether there are too many false positives. -/
def loadMempools (env : Env) (fuel : ℕ) (degraded : Bool) : Option BRBlockManager :=
  m.connectedPeers.reverse.foldlM (fun m p =>
    if p.connected ∧ (m.downloadPeer ≠ some p.peer ∨ degraded) then m.loadBloomFilter env fuel
    else some m) m

/-! ## Verification -/

/-- The number of blocks from a difficulty transition to the next. -/
def difficultyInterval (height : UInt32) : ℕ :=
  if height < DGW_START_BLOCK then BLOCK_DIFFICULTY_INTERVAL
  else DGW_BLOCK_DIFFICULTY_INTERVAL

/-- The loop of `_PeerManagerVerifyBlock` that frees up some memory. -/
def prune (interval : ℕ) : ℕ → BRBlockManager → UInt256 → Option BRBlockManager
  | 0, _, _ => none
  | fuel + 1, m, prevBlock =>
    match m.blocks.lookup prevBlock with
    | none => some m
    | some q => do
      let b ← m.heap.load q
      let m := if b.height.toNat % interval ≠ 0 then
          { m with blocks := m.blocks.erase b.blockHash, heap := m.heap.free q }
        else m
      prune interval fuel m b.prevBlock

/-- The check of a difficulty transition in `_PeerManagerVerifyBlock`. -/
def verifyTransition (fuel : ℕ) (block : BRMerkleBlock UInt256) : Option (Bool × BRBlockManager) :=
  let interval := difficultyInterval block.height
  if block.height.toNat % interval = 0 then do
    let b ← m.stepsBack interval (some block)
    match b with
    | none => some (false, m)
    | some b => (prune interval fuel m b.prevBlock).map fun m => (true, m)
  else some (true, m)

/-- `_PeerManagerVerifyBlock` of the block at `p`. -/
def verifyBlock (fuel : ℕ) (p : Ptr) (block : BRMerkleBlock UInt256) (prev : Ptr) :
    Option (Bool × BRBlockManager) := do
  let (r, m) ← m.verifyTransition fuel block
  if !r then some (false, m)
  else do
    let prev ← m.heap.load prev
    let (r, pastCount) ← BRMerkleBlock.verifyDifficulty block prev m.blockList m.pastCount
    let m := { m with pastCount }
    if !r then some (false, m)
    else match m.checkpoints.lookup block.height with
      | none => some (true, m)
      | some c =>
        if c = p then some (true, m)
        else (m.heap.load c).map fun c => (decide (block.blockHash = c.blockHash), m)

/-! ## A chain fork -/

/-- `BRMerkleBlockEq` of the blocks at two pointers. -/
def blockEq (p : Ptr) (b : BRMerkleBlock UInt256) (q : Ptr) (c : BRMerkleBlock UInt256) : Bool :=
  decide (p = q ∨ b.blockHash = c.blockHash)

/-- A block with its pointer. -/
abbrev BlockAt := Ptr × BRMerkleBlock UInt256

/-- `BRSetGet(manager->blocks, &hash)`, with what it points to. -/
def getBlockAt (hash : UInt256) : Option (Option BlockAt) :=
  match m.blocks.lookup hash with
  | none => some none
  | some q => (m.heap.load q).map fun b => some (q, b)

/-- Walks back to where the fork with the block `b` joins the main chain with the block `b2`. -/
def walkBack : ℕ → Option BlockAt → Option BlockAt → Option (Option BlockAt × Option BlockAt)
  | 0, _, _ => none
  | fuel + 1, some b, some b2 =>
    if blockEq b.1 b.2 b2.1 b2.2 then some (some b, some b2)
    else do
      let b ← m.getBlockAt b.2.prevBlock
      let b2 ← (if b.any fun b => b.2.height < b2.2.height then m.getBlockAt b2.2.prevBlock
        else some (some b2))
      walkBack fuel b b2
  | _ + 1, b, b2 => some (b, b2)

/-- Sets the transaction heights of the blocks above a height, from `b` backwards. -/
def setTxHeights (now : ℤ) (joinHeight : UInt32) :
    ℕ → BRWallet → Option (BRMerkleBlock UInt256) → Option BRWallet
  | 0, _, _ => none
  | _ + 1, w, none => some w
  | fuel + 1, w, some b =>
    if b.height > joinHeight then do
      let count ← b.txHashesCount
      let txHashes ← b.txHashes count
      let prev ← m.getBlock b.prevBlock
      let timestamp := prev.elim b.timestamp fun prev => b.timestamp / 2 + prev.timestamp / 2
      let w ← (if count > 0 then w.updateTransactions now txHashes b.height timestamp else some w)
      setTxHeights now joinHeight fuel w prev
    else some w

/-- Makes the fork with the block at `p` the main chain. -/
def reorganize (fuel : ℕ) (now : ℤ) (p : Ptr) (block : BRMerkleBlock UInt256) :
    Option BRBlockManager := do
  let q ← m.lastBlock
  let last ← m.heap.load q
  let (b, b2) ← m.walkBack fuel (some (p, block)) (some (q, last))
  let b ← b
  let wallet ← m.wallet.setTxUnconfirmedAfter now b.2.height
  let wallet ← (match b2 with
    | none => some wallet
    | some b2 => m.setTxHeights now b2.2.height fuel wallet (some block))
  some { m with wallet, lastBlock := some p }

/-! ## Relayed blocks -/

/-- What becomes of a relayed block. -/
inductive Fate where
  /-- a header newer than one week before `earliestKeyTime` -/
  | header
  /-- potentially incomplete, a filter update is pending -/
  | incomplete
  /-- an orphan older than one week -/
  | oldOrphan
  | orphan
  | invalid
  /-- extends the main chain -/
  | main
  /-- is in the set already -/
  | existing
  /-- mined during a rescan -/
  | duringRescan
  /-- on a fork older than the last checkpoint -/
  | oldFork
  | fork
  deriving DecidableEq

/-- Which branch of `_peerRelayedBlock` is taken for the block at `p`, with the previous block at
    `prev`, if there is one. -/
def fate (fuel : ℕ) (now : ℤ) (peerLastBlock : UInt32) (p : Ptr) (block : BRMerkleBlock UInt256)
    (prev : Option Ptr) : Option (Fate × BRBlockManager) :=
  if block.totalTx = 0 ∧ block.timestamp + WEEK > m.earliestKeyTime + 2 * 60 * 60 then
    some (.header, m)
  else if !m.bloomFilter then some (.incomplete, m)
  else match prev with
    | none =>
      some (if ((block.timestamp + WEEK).toNat : ℤ) < now then .oldOrphan else .orphan, m)
    | some prev => do
      let (valid, m) ← m.verifyBlock fuel p block prev
      if !valid then some (.invalid, m)
      else do
        let last ← m.last
        if block.prevBlock = last.blockHash then some (.main, m)
        else if (m.blocks.lookup block.blockHash).isSome then some (.existing, m)
        else if last.height < peerLastBlock ∧ block.height > last.height + 1 then
          some (.duringRescan, m)
        else some (if block.height ≤ m.params.last.height then .oldFork else .fork, m)

/-- Frees the relayed block. -/
def discard (p : Ptr) : BRBlockManager := { m with heap := m.heap.free p }

def addOrphan (p : Ptr) (block : BRMerkleBlock UInt256) : BRBlockManager :=
  { m with orphans := m.orphans.insert block.prevBlock p, lastOrphan := some p }

/-- `_PeerManagerUpdateTx`, if there are transactions. -/
def confirmTx (now : ℤ) (txHashes : List UInt256) (blockHeight txTime : UInt32) :
    Option BRBlockManager :=
  if txHashes ≠ [] then
    (m.toBRPeerManager.updateTx now txHashes blockHeight txTime).map fun manager =>
      { m with toBRPeerManager := manager }
  else some m

/-- Calls `getblocks` for an orphan, unless that was done with the previous one, or while syncing. -/
def requestBlocks (fuel : ℕ) (peerLastBlock : UInt32) (block : BRMerkleBlock UInt256) :
    Option BRBlockManager := do
  let last ← m.last
  if last.height ≥ peerLastBlock then do
    let follows ← (match m.lastOrphan with
      | none => some false
      | some o => (m.heap.load o).map fun o => decide (o.blockHash = block.prevBlock))
    if follows then some m
    else (m.blockLocators fuel).map fun locators =>
      { m with getblocks := m.getblocks ++ [locators] }
  else some m

section
variable (env : Env) (fuel : ℕ) (now : ℤ) (peer : PeerAddr) (peerLastBlock : UInt32)
  (degraded : Bool) (p : Ptr) (block : BRMerkleBlock UInt256) (txHashes : List UInt256)
  (txTime : UInt32)

/-- The chain download is complete with the block; also how many blocks are to be saved. -/
def completeDownload (saveCount : ℕ) : Option (BRBlockManager × ℕ) :=
  if block.height = m.estimatedHeight then
    (m.loadMempools env fuel degraded).map fun m => (m,
      block.height.toNat % BLOCK_DIFFICULTY_INTERVAL + BLOCK_DIFFICULTY_INTERVAL + 1)
  else some (m, saveCount)

/-- A block that extends the main chain; also how many blocks are to be saved. -/
def extendMain : Option (BRBlockManager × ℕ) := do
  let m := { m with blocks := m.blocks.insert block.blockHash p, lastBlock := some p }
  let m ← m.confirmTx now txHashes block.height txTime
  let m := if block.height < m.estimatedHeight ∧ m.downloadPeer = some peer then
      { m with connectFailureCount := 0 }
    else m
  m.completeDownload env fuel degraded block
    (if block.height.toNat % BLOCK_DIFFICULTY_INTERVAL = 0 then 1 else 0)

/-- The block of the main chain with at most the height, from `b` backwards. -/
def mainAt (height : UInt32) : ℕ → Option BlockAt → Option (Option BlockAt)
  | 0, _ => none
  | _ + 1, none => some none
  | fuel + 1, some b =>
    if b.2.height > height then do
      let b ← m.getBlockAt b.2.prevBlock
      mainAt height fuel b
    else some (some b)

/-- A block that is in the set already replaces the old one, which is freed. -/
def replaceBlock : Option BRBlockManager := do
  let q ← m.lastBlock
  let last ← m.heap.load q
  let b ← m.mainAt block.height fuel (some (q, last))
  let b ← b
  let m ← (if blockEq b.1 b.2 p block then do
      let m ← m.confirmTx now txHashes block.height txTime
      some (if block.height = last.height then { m with lastBlock := some p } else m)
    else some m)
  let old ← m.blocks.lookup block.blockHash
  let m := { m with blocks := m.blocks.insert block.blockHash p }
  if old = p then some m
  else do
    let o ← m.heap.load old
    some { m with
      orphans := if m.orphans.lookup o.prevBlock = some old then m.orphans.erase o.prevBlock
        else m.orphans
      lastOrphan := if m.lastOrphan = some old then none else m.lastOrphan
      heap := m.heap.free old }

/-- A block on a fork, which may be longer than the main chain; also how many blocks are to be
    saved. -/
def addFork : Option (BRBlockManager × ℕ) := do
  let m := { m with blocks := m.blocks.insert block.blockHash p }
  let last ← m.last
  if block.height > last.height then do
    let m ← m.reorganize fuel now p block
    m.completeDownload env fuel degraded block 0
  else some (m, 0)

/-- The branches of `_peerRelayedBlock`; also how many blocks are to be saved, if the block is not
    freed. -/
def settle : Fate → Option (BRBlockManager × Option ℕ)
  | .header | .oldOrphan | .invalid | .oldFork => some (m.discard p, none)
  | .incomplete => do
    let m := m.discard p
    if m.downloadPeer = some peer then do
      let last ← m.last
      some (if last.height < m.estimatedHeight then { m with connectFailureCount := 0 } else m, none)
    else some (m, none)
  | .orphan => do
    let m ← m.requestBlocks fuel peerLastBlock block
    some (m.addOrphan p block, some 0)
  | .duringRescan => some (m.addOrphan p block, some 0)
  | .main => do
    let (m, saveCount) ← m.extendMain env fuel now peer degraded p block txHashes txTime
    some (m, some saveCount)
  | .existing => do
    let m ← m.replaceBlock fuel now p block txHashes txTime
    some (m, some 0)
  | .fork => do
    let (m, saveCount) ← m.addFork env fuel now degraded p block
    some (m, some saveCount)

end

/-- Raises the estimated height, and takes out the next block, if it was received as an orphan. -/
def takeNext (block : BRMerkleBlock UInt256) : BRBlockManager :=
  if block.height ≠ BLOCK_UNKNOWN_HEIGHT then
    { m with
      estimatedHeight := if block.height > m.estimatedHeight then block.height
        else m.estimatedHeight
      orphans := m.orphans.erase block.blockHash
      relayed := m.relayed ++ (m.orphans.lookup block.blockHash).toList }
  else m

/-- The last `n` blocks of the chain with the block `b`, the last one first. -/
def chainBack : ℕ → Option (BRMerkleBlock UInt256) → Option (List (BRMerkleBlock UInt256))
  | 0, _ | _ + 1, none => some []
  | n + 1, some b => do
    let prev ← m.getBlock b.prevBlock
    let bs ← chainBack n prev
    some (b :: bs)

/-- How many of the blocks are saved, such that they start at a difficulty interval. -/
def savedCount (blocks : List (BRMerkleBlock UInt256)) : ℕ :=
  let i := blocks.length
  let j := (blocks.getLast?.elim 0 fun b => b.height.toNat) % BLOCK_DIFFICULTY_INTERVAL
  if j > 0 then
    i - (if i > BLOCK_DIFFICULTY_INTERVAL - j then BLOCK_DIFFICULTY_INTERVAL - j else i)
  else i

/-- Saves the block and those before it. -/
def saveBlocks (saveCount : ℕ) (block : BRMerkleBlock UInt256) : Option BRBlockManager := do
  let blocks ← m.chainBack saveCount (some block)
  let i := savedCount blocks
  some (if i > 0 then { m with saved := m.saved ++ [(decide (i > 1), blocks.take i)] } else m)

/-- A relayed block gets the height after that of the previous one; also that one. -/
def setHeight (p : Ptr) : Option (BRBlockManager × BRMerkleBlock UInt256 × Option BlockAt) := do
  let block ← m.heap.load p
  let prev ← m.getBlockAt block.prevBlock
  let block := prev.elim block fun prev => { block with height := prev.2.height + 1 }
  some ({ m with heap := m.heap.store p block, relayed := m.relayed.erase p }, block, prev)

/-- `_peerRelayedBlock` for the block at `p`, up to its call for the next one. -/
def relayedBlock (env : Env) (fuel : ℕ) (now : ℤ) (peer : PeerAddr) (peerLastBlock : UInt32)
    (degraded : Bool) (p : Ptr) : Option BRBlockManager := do
  let (m, block, prev) ← m.setHeight p
  let count ← block.txHashesCount
  let txHashes ← block.txHashes count
  let txTime := prev.elim 0 fun prev => block.timestamp / 2 + prev.2.timestamp / 2
  let (fate, m) ← m.fate fuel now peerLastBlock p block (prev.map Prod.fst)
  let (m, saveCount) ← m.settle env fuel now peer peerLastBlock degraded p block txHashes txTime fate
  match saveCount with
  | none => some m
  | some saveCount => (m.takeNext block).saveBlocks saveCount block

/-! ## Rescans -/

/-- `BRPeerManagerRescan`, up to its call of `BRPeerManagerConnect`. -/
def rescan : BRBlockManager :=
  if m.isConnected then
    let c := m.params.lastWith fun c => c.timestamp + WEEK < m.earliestKeyTime
    { m with lastBlock := m.blocks.lookup c.hash, syncStartHeight := 0 }
  else m

/-- `_BRPeerManagerRescan`. -/
def rescanFrom (newLastBlock : Option Ptr) : BRBlockManager :=
  match newLastBlock with
  | none => m
  | some q => { m with lastBlock := some q, syncStartHeight := 0 }

/-- `BRPeerManagerRescanFromLastHardcodedCheckpoint`, up to its call of `BRPeerManagerConnect`. -/
def rescanFromLastHardcodedCheckpoint : BRBlockManager :=
  if m.isConnected then m.rescanFrom (m.blocks.lookup m.params.last.hash) else m

/-- Walks the chain, looking for a height. -/
def lookupInChain (blockNumber : UInt32) : ℕ → Option BlockAt → Option (Option Ptr)
  | 0, _ => none
  | _ + 1, none => some none
  | fuel + 1, some b =>
    if b.2.height = blockNumber then some (some b.1)
    else do
      let b ← m.getBlockAt b.2.prevBlock
      lookupInChain blockNumber fuel b

/-- `_BRPeerManagerLookupBlockFromBlockNumber`. -/
def lookupBlockFromBlockNumber (fuel : ℕ) (blockNumber : UInt32) : Option (Option Ptr) := do
  let b ← (match m.lastBlock with
    | none => some none
    | some p => (m.heap.load p).map fun b => some (p, b))
  let found ← m.lookupInChain blockNumber fuel b
  some (found.or
    ((m.params.checkpoints.find? fun c => c.height = blockNumber).bind fun c =>
      m.blocks.lookup c.hash))

/-- `BRPeerManagerRescanFromBlockNumber`, up to its call of `BRPeerManagerConnect`. -/
def rescanFromBlockNumber (fuel : ℕ) (blockNumber : UInt32) : Option BRBlockManager :=
  if m.isConnected then do
    let block ← m.lookupBlockFromBlockNumber fuel blockNumber
    let c := m.params.lastWith fun c => c.height < blockNumber
    some (m.rescanFrom (block.or (m.blocks.lookup c.hash)))
  else some m

/-- The start of `BRPeerManagerConnect`. -/
def startSync : Option BRBlockManager := do
  let connectFailureCount :=
    if m.connectFailureCount ≥ MAX_CONNECT_FAILURES then 0 else m.connectFailureCount
  let m := { m with connectFailureCount }
  let isBehind ← (if m.downloadPeer = none then some true
    else m.last.map fun last => decide (last.height < m.estimatedHeight))
  if isBehind ∧ m.syncStartHeight = 0 then
    m.last.map fun last => { m with syncStartHeight := last.height + 1 }
  else some m

theorem requestBlocks_cases {m m' : BRBlockManager} {fuel : ℕ} {peerLastBlock : UInt32}
    {block : BRMerkleBlock UInt256}
    (hm : m.requestBlocks fuel peerLastBlock block = some m') :
    ∃ getblocks, m' = { m with getblocks } := by
  simp only [requestBlocks, Option.bind_eq_bind, Option.bind_eq_some_iff] at hm
  obtain ⟨last, -, hm⟩ := hm
  by_cases hlast : last.height ≥ peerLastBlock
  · simp only [if_pos hlast, Option.bind_eq_some_iff] at hm
    obtain ⟨follows, -, hm⟩ := hm
    cases follows with
    | true =>
      cases hm
      exact ⟨_, rfl⟩
    | false =>
      obtain ⟨locators, -, rfl⟩ := Option.map_eq_some_iff.1 hm
      exact ⟨_, rfl⟩
  · rw [if_neg hlast] at hm
    cases hm
    exact ⟨_, rfl⟩

theorem startSync_cases {m m' : BRBlockManager} (hm : m.startSync = some m') :
    ∃ manager, m' = { m with toBRPeerManager := manager } := by
  obtain ⟨isBehind, -, hm⟩ := Option.bind_eq_some_iff.1 hm
  by_cases hsync : isBehind = true ∧ m.syncStartHeight = 0
  · rw [if_pos hsync] at hm
    obtain ⟨last, -, rfl⟩ := Option.map_eq_some_iff.1 hm
    exact ⟨_, rfl⟩
  · rw [if_neg hsync] at hm
    cases hm
    exact ⟨_, rfl⟩

end BRBlockManager

/-! ## Runs -/

/-- The events of a run: those of transactions and peers, and the handlers of blocks with the clock
    and their arguments. -/
inductive BlockEvent where
  | manager (event : ManagerEvent)
  | receive (block : BRMerkleBlock UInt256)
  | relayedBlock (now : ℤ) (peer : PeerAddr) (peerLastBlock : UInt32) (degraded : Bool) (p : Ptr)
  | estimate (estimatedHeight : UInt32)
  | resetBloomFilter
  | loadBloomFilter
  | rescan
  | rescanFromLastHardcodedCheckpoint
  | rescanFromBlockNumber (blockNumber : UInt32)
  | startSync

/-- An event that is not one of a block. -/
def ManagerEvent.IsTx : ManagerEvent → Prop
  | .relayedBlock .. | .setTxUnconfirmedAfter .. | .updateTransactions .. => False
  | _ => True

namespace BRBlockManager

/-- A block is relayed after it was received. -/
def Enabled (m : BRBlockManager) : BlockEvent → Prop
  | .manager event => event.IsTx
  | .relayedBlock _ _ _ _ p => p ∈ m.relayed
  | _ => True

instance (event : ManagerEvent) : Decidable event.IsTx := by
  cases event <;> first | exact isTrue trivial | exact isFalse id

instance (m : BRBlockManager) (event : BlockEvent) : Decidable (m.Enabled event) := by
  cases event <;> first | exact isTrue trivial | (unfold Enabled; infer_instance)

/-- What the handlers do. -/
def handle (env : Env) (fuel : ℕ) (m : BRBlockManager) : BlockEvent → Option BRBlockManager
  | .manager event => (m.toBRPeerManager.handle env fuel event).map fun manager =>
    { m with toBRPeerManager := manager }
  | .receive block =>
    some { m with heap := m.heap.alloc block, relayed := m.relayed ++ [m.heap.fresh] }
  | .relayedBlock now peer peerLastBlock degraded p =>
    m.relayedBlock env fuel now peer peerLastBlock degraded p
  | .estimate estimatedHeight => some { m with estimatedHeight }
  | .resetBloomFilter => some { m with bloomFilter := false }
  | .loadBloomFilter => m.loadBloomFilter env fuel
  | .rescan => some m.rescan
  | .rescanFromLastHardcodedCheckpoint => some m.rescanFromLastHardcodedCheckpoint
  | .rescanFromBlockNumber blockNumber => m.rescanFromBlockNumber fuel blockNumber
  | .startSync => m.startSync

/-- What the handler of an enabled event does. -/
def exec (env : Env) (fuel : ℕ) (m : BRBlockManager) (event : BlockEvent) : Option BRBlockManager :=
  if m.Enabled event then m.handle env fuel event else none

/-- `BRPeerManagerNew` with a wallet that `BRWalletNew` returns and with saved blocks, and the
    handlers. -/
def system (env : Env) : System BRBlockManager BlockEvent where
  init m := ∃ fuel params wallet earliestKeyTime heap saved,
    (BRWallet.system env).init wallet ∧ (∀ p ∈ saved, heap.Live p) ∧
      new fuel params wallet earliestKeyTime heap saved = some m
  step m event m' := m.Enabled event ∧ ∃ fuel, m.handle env fuel event = some m'

theorem run_events {env : Env} {fuel : ℕ} (events : List BlockEvent) {m m' : BRBlockManager}
    (hm : (system env).Run (fun _ _ => True) m)
    (h : events.foldlM (exec env fuel) m = some m') : (system env).Run (fun _ _ => True) m' := by
  refine .foldlM (fun {m event m'} hstep => ⟨trivial, ?_⟩) hm h
  unfold exec at hstep
  by_cases henabled : m.Enabled event
  · rw [if_pos henabled] at hstep
    exact ⟨henabled, fuel, hstep⟩
  · rw [if_neg henabled] at hstep
    cases hstep

/-- Checkpoints at the heights 0 and 2. -/
def sampleParams : BRChainParams where
  checkpoints := [⟨0, 1, 0, 0⟩, ⟨2, 9, 0, 0⟩]
  nonempty := by decide
  nodup := by decide

/-- A block with one transaction, which is of others. -/
def sampleBlock (blockHash prevBlock : UInt256) : BRMerkleBlock UInt256 :=
  { blockHash, prevBlock, merkleRoot := 0, mixHash := 0, totalTx := 1 }

end BRBlockManager

end RavenWallet
