/-
  Blocks in the database (`saveBlocks` and `loadBlocks` of CoreDatabase.swift).

  A table keeps the values that are bound, in the order of the primary keys.  A
  conversion or an addition that traps has no result.  The arrays `[flags]` and
  `[hashes]` that are bound hold one pointer: what their memory holds is
  `PointerBytes`.

  * `loadBlock_bindBlock`: what becomes of a block that is saved and loaded;
  * `saveBlock_cases`: what a round of the loop does, and `saveLoop_spec`: what
    is loaded after it;
  * `loadBlocks_saved_iff`: the same blocks are loaded if and only if they are
    `Storable`; `not_loadBlocks_saved`: others are not.
-/
import RavenWallet.Core.MerkleCodec
import RavenWallet.Lib.Checked
import RavenWallet.Lib.Table

namespace RavenWallet

def INT32_MAX : ℕ := 2 ^ 31 - 1

/-- Between the epochs of Unix and of the database, in seconds. -/
def NSTimeIntervalSince1970 : ℕ := 978307200

/-- `subtractingReportingOverflow` of two signed numbers. -/
def subtracting (a b : Int32) : Option Int32 :=
  if -2 ^ 31 ≤ a.toInt - b.toInt ∧ a.toInt - b.toInt < 2 ^ 31 then some (a - b) else none

/-- `addingReportingOverflow` of two unsigned numbers. -/
def adding (a b : UInt32) : Option UInt32 :=
  if a.toNat + b.toNat < 2 ^ 32 then some (a + b) else none

/-- The bytes from a Swift array on that holds only the pointer of the block that is saved under a
    primary key. -/
structure PointerBytes where
  flags : ℕ → ℕ → UInt8
  hashes : ℕ → ℕ → UInt8

/-- A row of ZBRMERKLEBLOCKENTITY. -/
structure BlockRow where
  pk : ℕ
  height : Int32
  nonce : Int32
  target : Int32
  totalTx : Int32
  version : Int32
  timestamp : Int32
  blockHash : Bytes
  flags : Bytes
  hashes : Bytes
  merkleRoot : Bytes
  prevBlock : Bytes

/-- ZBRMERKLEBLOCKENTITY, and the Z_MAX kept for it. -/
structure BlockTable where
  rows : List BlockRow := []
  max : ℕ := 0

/-- `BRMerkleBlockNew`. -/
def BRMerkleBlock.new : BRMerkleBlock UInt256 :=
  { blockHash := 0, prevBlock := 0, merkleRoot := 0, mixHash := 0 }

/-- `BRMerkleBlockSetTxHashes` of arrays that are large enough; the counts stay as they are. -/
def BRMerkleBlock.setTxHashes (block : BRMerkleBlock UInt256) (hashes : List UInt256)
    (hashesCount : ℕ) (flags : Bytes) (flagsLen : ℕ) : BRMerkleBlock UInt256 :=
  { block with hashes := hashes.take hashesCount, flags := flags.take flagsLen }

/-- `BRMerkleBlockCopy`. -/
def BRMerkleBlock.copy (block : BRMerkleBlock UInt256) : BRMerkleBlock UInt256 :=
  ({ block with hashes := [], flags := [] } : BRMerkleBlock UInt256).setTxHashes block.hashes
    block.hashesCount block.flags block.flagsLen

/-! ## Saving and loading -/

/-- The values that are bound for a block. -/
def bindBlock (M : PointerBytes) (pk : ℕ) (b : BRMerkleBlock UInt256) (timestamp : Int32) :
    Option BlockRow := do
  let flagsLen ← convert INT32_MAX b.flagsLen
  let hashesLen ← convert INT32_MAX (32 * b.hashesCount)
  some
    { pk
      height := b.height.toInt32
      nonce := b.nonce.toInt32
      target := b.target.toInt32
      totalTx := b.totalTx.toInt32
      version := b.version.toInt32
      timestamp
      blockHash := set256 b.blockHash
      flags := (List.range flagsLen).map (M.flags pk)
      hashes := (List.range hashesLen).map (M.hashes pk)
      merkleRoot := set256 b.merkleRoot
      prevBlock := set256 b.prevBlock }

/-- What a round of the loop leaves, if it does not trap: the rows and the last primary key, or
    nothing after a rollback. -/
def saveBlock (M : PointerBytes) (rows : List BlockRow) (pk : ℕ) (b : BRMerkleBlock UInt256) :
    Option (Option (List BlockRow × ℕ)) :=
  match subtracting b.timestamp.toInt32 (Int32.ofNat NSTimeIntervalSince1970) with
  | none => some (some (rows, pk))
  | some timestamp =>
    if b.height.toInt32 = BLOCK_UNKNOWN_HEIGHT.toInt32 then some (some (rows, pk))
    else do
      let pk ← convert INT32_MAX (pk + 1)
      let row ← bindBlock M pk b timestamp
      some ((insertRow BlockRow.pk rows row).map fun rows => (rows, pk))

def saveLoop (M : PointerBytes) (rows : List BlockRow) (pk : ℕ) :
    List (Option (BRMerkleBlock UInt256)) → Option (Option (List BlockRow × ℕ))
  | [] => some (some (rows, pk))
  | none :: _ => some none
  | some b :: blocks => do
    match ← saveBlock M rows pk b with
    | none => some none
    | some (rows, pk) => saveLoop M rows pk blocks

def BlockTable.saveBlocks (M : PointerBytes) (db : BlockTable) (replace : Bool)
    (blockRefs : List (Option (BRMerkleBlock UInt256))) : Option BlockTable := do
  let blocks := blockRefs.map (Option.map BRMerkleBlock.copy)
  match ← saveLoop M (if replace then [] else db.rows) (if replace then 0 else db.max) blocks with
  | none => some db
  | some (rows, pk) => some { rows, max := pk }

def loadBlock (row : BlockRow) : Option (BRMerkleBlock UInt256) :=
  let b := { BRMerkleBlock.new with height := row.height.toUInt32 }
  if b.height = BLOCK_UNKNOWN_HEIGHT then none
  else do
    let timestamp ← adding row.timestamp.toUInt32 (UInt32.ofNat NSTimeIntervalSince1970)
    let b := { b with
      nonce := row.nonce.toUInt32
      target := row.target.toUInt32
      totalTx := row.totalTx.toUInt32
      version := row.version.toUInt32
      timestamp
      blockHash := get256 row.blockHash }
    let b := b.setTxHashes (getHashes (row.hashes.length / 32) row.hashes) (row.hashes.length / 32)
      row.flags row.flags.length
    some { b with merkleRoot := get256 row.merkleRoot, prevBlock := get256 row.prevBlock }

def BlockTable.loadBlocks (db : BlockTable) : List (BRMerkleBlock UInt256) :=
  db.rows.filterMap loadBlock

/-! ## Times -/

/-- A time that is stored and loaded. -/
def StoredTime (timestamp : UInt32) : Prop :=
  NSTimeIntervalSince1970 ≤ timestamp.toNat ∧
    ¬ (2 ^ 31 ≤ timestamp.toNat ∧ timestamp.toNat < 2 ^ 31 + NSTimeIntervalSince1970)

instance (timestamp : UInt32) : Decidable (StoredTime timestamp) :=
  inferInstanceAs (Decidable (_ ∧ _))

theorem toInt_toInt32 (x : UInt32) :
    x.toInt32.toInt = if 2 * x.toNat < 2 ^ 32 then (x.toNat : ℤ) else x.toNat - 2 ^ 32 :=
  BitVec.toInt_eq_toNat_cond x.toBitVec

theorem subtracting_eq_none {timestamp : UInt32} :
    subtracting timestamp.toInt32 (Int32.ofNat NSTimeIntervalSince1970) = none ↔
      2 ^ 31 ≤ timestamp.toNat ∧ timestamp.toNat < 2 ^ 31 + NSTimeIntervalSince1970 := by
  have hbase : (Int32.ofNat NSTimeIntervalSince1970).toInt = 978307200 := by decide
  have hlt := timestamp.toNat_lt
  have hnat : NSTimeIntervalSince1970 = 978307200 := rfl
  rw [subtracting, hbase, toInt_toInt32, hnat]
  split_ifs <;> simp <;> omega

/-- The time that is loaded, if it is stored. -/
theorem adding_subtracting {timestamp : UInt32} {v : Int32}
    (h : subtracting timestamp.toInt32 (Int32.ofNat NSTimeIntervalSince1970) = some v) :
    adding v.toUInt32 (UInt32.ofNat NSTimeIntervalSince1970) =
      if StoredTime timestamp then some timestamp else none := by
  have hstored : ¬ (2 ^ 31 ≤ timestamp.toNat ∧
      timestamp.toNat < 2 ^ 31 + NSTimeIntervalSince1970) := by
    rw [← subtracting_eq_none, h]
    simp
  have hv : v.toUInt32 = timestamp - UInt32.ofNat NSTimeIntervalSince1970 := by
    unfold subtracting at h
    split_ifs at h
    obtain rfl := Option.some.inj h
    rfl
  have hlt := timestamp.toNat_lt
  have hnat : NSTimeIntervalSince1970 = 978307200 := rfl
  have hbase : (UInt32.ofNat NSTimeIntervalSince1970).toNat = 978307200 := by decide
  have hsub := UInt32.toNat_sub timestamp (UInt32.ofNat NSTimeIntervalSince1970)
  rw [hbase] at hsub
  have hsum : timestamp - UInt32.ofNat NSTimeIntervalSince1970 +
      UInt32.ofNat NSTimeIntervalSince1970 = timestamp := UInt32.sub_add_cancel _ _
  rw [adding, hv, hsum, hbase, hsub]
  by_cases hle : NSTimeIntervalSince1970 ≤ timestamp.toNat
  · have hsmall : (2 ^ 32 - 978307200 + timestamp.toNat) % 2 ^ 32 + 978307200 < 2 ^ 32 := by omega
    rw [if_pos hsmall, if_pos ⟨hle, hstored⟩]
  · have hlarge : ¬ (2 ^ 32 - 978307200 + timestamp.toNat) % 2 ^ 32 + 978307200 < 2 ^ 32 := by omega
    rw [if_neg hlarge, if_neg fun h => hle h.1]

/-! ## A block that is saved and loaded -/

/-- A block that is stored as it is. -/
structure Storable (b : BRMerkleBlock UInt256) : Prop where
  nonce64 : b.nonce64 = 0
  mixHash : b.mixHash = 0
  hashes : b.hashes = []
  flags : b.flags = []
  time : StoredTime b.timestamp

/-- A block with a known height, whose arrays hold what its counts say. -/
structure Saveable (b : BRMerkleBlock UInt256) : Prop where
  height : b.height ≠ BLOCK_UNKNOWN_HEIGHT
  held : b.Held

variable {M : PointerBytes} {rows : List BlockRow} {pk : ℕ} {b : BRMerkleBlock UInt256}
  {row : BlockRow} {v : Int32}

theorem Saveable.copy_eq (hb : Saveable b) : b.copy = b := by
  rw [BRMerkleBlock.copy, BRMerkleBlock.setTxHashes, List.take_of_length_le hb.held.hashes.le,
    List.take_of_length_le hb.held.flags.le]

theorem bindBlock_pk (h : bindBlock M pk b v = some row) : row.pk = pk := by
  simp only [bindBlock, Option.bind_eq_bind, Option.bind_eq_some_iff] at h
  obtain ⟨_, -, _, -, h⟩ := h
  obtain rfl := Option.some.inj h
  rfl

/-- The counts and what belongs to the newer header are lost, and the arrays are not the block's. -/
theorem loadBlock_bindBlock (hb : Saveable b)
    (htime : subtracting b.timestamp.toInt32 (Int32.ofNat NSTimeIntervalSince1970) = some v)
    (hrow : bindBlock M pk b v = some row) :
    loadBlock row = if StoredTime b.timestamp then some { b with
      nonce64 := 0, mixHash := 0, hashesCount := 0, flagsLen := 0
      hashes := getHashes (row.hashes.length / 32) row.hashes
      flags := row.flags } else none := by
  simp only [bindBlock, Option.bind_eq_bind, Option.bind_eq_some_iff] at hrow
  obtain ⟨flagsLen, -, hashesLen, -, hrow⟩ := hrow
  obtain rfl := Option.some.inj hrow
  have htake : ∀ (n : ℕ) (bs : Bytes), (getHashes n bs).take n = getHashes n bs :=
    fun n bs => List.take_of_length_le (getHashes_length n bs).le
  rw [loadBlock]
  simp only [UInt32.toUInt32_toInt32, if_neg hb.height, adding_subtracting htime, get256_set256,
    BRMerkleBlock.setTxHashes, List.take_length, htake]
  split_ifs <;> rfl

/-- The block that is loaded is the one that was saved, if it is stored as it is. -/
theorem restored_eq_iff (hb : Saveable b) (hrow : bindBlock M pk b v = some row) :
    { b with
      nonce64 := 0, mixHash := 0, hashesCount := 0, flagsLen := 0
      hashes := getHashes (row.hashes.length / 32) row.hashes
      flags := row.flags } = b ↔
        b.nonce64 = 0 ∧ b.mixHash = 0 ∧ b.hashes = [] ∧ b.flags = [] := by
  obtain ⟨hhashes, hflags, -, -⟩ := hb.held
  simp only [bindBlock, Option.bind_eq_bind, Option.bind_eq_some_iff] at hrow
  obtain ⟨flagsLen, hf, hashesLen, hh, hrow⟩ := hrow
  obtain ⟨-, rfl⟩ := convert_eq_some.1 hf
  obtain ⟨-, rfl⟩ := convert_eq_some.1 hh
  obtain rfl := Option.some.inj hrow
  obtain ⟨⟩ := b
  constructor
  · intro h
    simp only [BRMerkleBlock.mk.injEq] at h
    dsimp only at hhashes hflags ⊢
    obtain ⟨-, -, -, -, -, -, -, hn, hm, -, -, hc, -, hl, -⟩ := h
    refine ⟨hn.symm, hm.symm, ?_, ?_⟩
    · rw [← List.length_eq_zero_iff, hhashes, ← hc]
    · rw [← List.length_eq_zero_iff, hflags, ← hl]
  · rintro ⟨hn, hm, hhs, hfs⟩
    dsimp only at hhashes hflags hn hm hhs hfs ⊢
    subst hn hm hhs hfs
    obtain rfl := hhashes
    obtain rfl := hflags
    simp [getHashes]

/-! ## Saving blocks -/

/-- What a round of the loop does with a block: it traps, skips the block, or stores it. -/
theorem saveBlock_cases (M : PointerBytes) (hb : Saveable b) (hrows : ∀ r ∈ rows, r.pk ≤ pk) :
    saveBlock M rows pk b = none ∧ ¬ (Storable b ∧ pk + 1 ≤ INT32_MAX) ∨
      saveBlock M rows pk b = some (some (rows, pk)) ∧ ¬ Storable b ∨
      ∃ row, saveBlock M rows pk b = some (some (rows ++ [row], pk + 1)) ∧ row.pk = pk + 1 ∧
        pk + 1 ≤ INT32_MAX ∧ ((loadBlock row = none ∧ ¬ Storable b) ∨
          ∃ c, loadBlock row = some c ∧ (c = b ↔ Storable b)) := by
  have hheight : b.height.toInt32 ≠ BLOCK_UNKNOWN_HEIGHT.toInt32 := by
    intro h
    have h' := congrArg Int32.toUInt32 h
    rw [UInt32.toUInt32_toInt32, UInt32.toUInt32_toInt32] at h'
    exact hb.height h'
  unfold saveBlock
  cases htime : subtracting b.timestamp.toInt32 (Int32.ofNat NSTimeIntervalSince1970) with
  | none => exact .inr (.inl ⟨rfl, fun h => h.time.2 (subtracting_eq_none.1 htime)⟩)
  | some v =>
    dsimp only
    rw [if_neg hheight]
    by_cases hpk : pk + 1 ≤ INT32_MAX
    · rw [convert_of_le hpk, Option.bind_eq_bind, Option.bind_some]
      cases hrow : bindBlock M (pk + 1) b v with
      | none =>
        refine .inl ⟨rfl, ?_⟩
        rintro ⟨h, -⟩
        have hflags : b.flagsLen = 0 := by rw [← hb.held.flags, h.flags, List.length_nil]
        have hhashes : b.hashesCount = 0 := by rw [← hb.held.hashes, h.hashes, List.length_nil]
        simp [bindBlock, hflags, hhashes, convert] at hrow
      | some row =>
        have hkey := bindBlock_pk hrow
        have hlast : insertRow BlockRow.pk rows row = some (rows ++ [row]) :=
          insertRow_last fun r hr => by
            have := hrows r hr
            omega
        refine .inr (.inr ⟨row, by simp [hlast], hkey, hpk, ?_⟩)
        have hload := loadBlock_bindBlock hb htime hrow
        have hsame := restored_eq_iff hb hrow
        by_cases hstored : StoredTime b.timestamp
        · rw [if_pos hstored] at hload
          refine .inr ⟨_, hload, hsame.trans ⟨?_, fun h => ⟨h.nonce64, h.mixHash, h.hashes, h.flags⟩⟩⟩
          rintro ⟨hn, hm, hh, hf⟩
          exact ⟨hn, hm, hh, hf, hstored⟩
        · rw [if_neg hstored] at hload
          exact .inl ⟨hload, fun h => hstored h.time⟩
    · rw [convert_of_lt (by omega)]
      exact .inl ⟨rfl, fun h => hpk h.2⟩

/-- What the loop leaves, if it does not trap, and what is loaded of it. -/
theorem saveLoop_spec (M : PointerBytes) {blocks : List (BRMerkleBlock UInt256)}
    (hblocks : ∀ b ∈ blocks, Saveable b) (hrows : ∀ r ∈ rows, r.pk ≤ pk) (hpk : pk ≤ INT32_MAX) :
    saveLoop M rows pk (blocks.map some) = none ∧
        ¬ ((∀ b ∈ blocks, Storable b) ∧ pk + blocks.length ≤ INT32_MAX) ∨
      ∃ new, saveLoop M rows pk (blocks.map some) = some (some (rows ++ new, pk + new.length)) ∧
        (∀ r ∈ rows ++ new, r.pk ≤ pk + new.length) ∧ pk + new.length ≤ INT32_MAX ∧
        (new.filterMap loadBlock).length ≤ blocks.length ∧
        (new.filterMap loadBlock = blocks ↔
          (∀ b ∈ blocks, Storable b) ∧ pk + blocks.length ≤ INT32_MAX) := by
  induction blocks generalizing rows pk with
  | nil => exact .inr ⟨[], by simp [saveLoop], by simpa using hrows, hpk, by simp, by simp [hpk]⟩
  | cons b blocks ih =>
    have hb := hblocks b List.mem_cons_self
    have hrest := fun c hc => hblocks c (List.mem_cons_of_mem _ hc)
    have hsplit : ((∀ c ∈ b :: blocks, Storable c) ∧ pk + (b :: blocks).length ≤ INT32_MAX) ↔
        Storable b ∧ (∀ c ∈ blocks, Storable c) ∧ pk + 1 + blocks.length ≤ INT32_MAX := by
      rw [List.forall_mem_cons, List.length_cons, and_assoc, Nat.add_assoc, Nat.add_comm 1]
    rw [hsplit, List.map_cons, saveLoop]
    rcases saveBlock_cases M hb hrows with ⟨htrap, hnot⟩ | ⟨hskip, hnot⟩ |
      ⟨row, hsave, hkey, hmax, hload⟩
    · rw [htrap]
      exact .inl ⟨rfl, fun h => hnot ⟨h.1, by omega⟩⟩
    · rw [hskip]
      rcases ih hrest hrows hpk with ⟨htrap, -⟩ | ⟨new, hnew, hkeys, hle, hlen, -⟩
      · exact .inl ⟨htrap, fun h => hnot h.1⟩
      · refine .inr ⟨new, hnew, hkeys, hle, hlen.trans (by simp), ?_⟩
        refine iff_of_false (fun h => ?_) fun h => hnot h.1
        have := congrArg List.length h
        rw [List.length_cons] at this
        omega
    · rw [hsave]
      have hrows' : ∀ r ∈ rows ++ [row], r.pk ≤ pk + 1 := by
        intro r hr
        rcases List.mem_append.1 hr with hr | hr
        · exact (hrows r hr).trans (Nat.le_succ _)
        · rw [List.mem_singleton.1 hr, hkey]
      rcases ih hrest hrows' hmax with ⟨htrap, hnot⟩ | ⟨new, hnew, hkeys, hle, hlen, hiff⟩
      · exact .inl ⟨htrap, fun h => hnot h.2⟩
      · have happ : rows ++ [row] ++ new = rows ++ row :: new := by simp
        have hcount : pk + 1 + new.length = pk + (row :: new).length := by
          rw [List.length_cons]
          omega
        rw [happ, hcount] at hnew hkeys
        rw [hcount] at hle
        refine .inr ⟨row :: new, hnew, hkeys, hle, ?_⟩
        rcases hload with ⟨hnone, hnot⟩ | ⟨c, hsome, hc⟩
        · rw [List.filterMap_cons_none hnone]
          refine ⟨hlen.trans (by simp), iff_of_false (fun h => ?_) fun h => hnot h.1⟩
          have := congrArg List.length h
          rw [List.length_cons] at this
          omega
        · rw [List.filterMap_cons_some hsome, List.cons.injEq, hc, hiff]
          exact ⟨Nat.succ_le_succ hlen, Iff.rfl⟩

/-- The tables that saving blocks leads to. -/
inductive BlockTable.Reached : BlockTable → Prop
  | empty : Reached {}
  | save {M : PointerBytes} {db db' : BlockTable} {replace : Bool}
      {blocks : List (BRMerkleBlock UInt256)} : Reached db → (∀ b ∈ blocks, Saveable b) →
      db.saveBlocks M replace (blocks.map some) = some db' → Reached db'

theorem saveBlocks_eq (M : PointerBytes) (db : BlockTable) (replace : Bool)
    {blocks : List (BRMerkleBlock UInt256)} (hblocks : ∀ b ∈ blocks, Saveable b) :
    db.saveBlocks M replace (blocks.map some) =
      (saveLoop M (if replace then [] else db.rows) (if replace then 0 else db.max)
        (blocks.map some)).map fun r => r.elim db fun r => { rows := r.1, max := r.2 } := by
  have hcopy : (blocks.map some).map (Option.map BRMerkleBlock.copy) = blocks.map some := by
    rw [List.map_map]
    exact List.map_congr_left fun b hb => congrArg some (hblocks b hb).copy_eq
  rw [BlockTable.saveBlocks, hcopy]
  cases saveLoop M (if replace then [] else db.rows) (if replace then 0 else db.max)
      (blocks.map some) with
  | none => rfl
  | some r => cases r <;> rfl

/-- No primary key is beyond the last one. -/
theorem BlockTable.Reached.keys {db : BlockTable} (h : db.Reached) :
    (∀ r ∈ db.rows, r.pk ≤ db.max) ∧ db.max ≤ INT32_MAX := by
  induction h with
  | empty => exact ⟨by simp, Nat.zero_le _⟩
  | @save M db db' replace blocks _ hblocks hsave ih =>
    rw [saveBlocks_eq M db replace hblocks] at hsave
    have hrows : ∀ r ∈ (if replace then [] else db.rows), r.pk ≤ if replace then 0 else db.max := by
      cases replace
      · exact ih.1
      · simp
    have hmax : (if replace then 0 else db.max) ≤ INT32_MAX := by
      cases replace
      · exact ih.2
      · exact Nat.zero_le _
    rcases saveLoop_spec M hblocks hrows hmax with ⟨htrap, -⟩ | ⟨new, hnew, hkeys, hle, -⟩
    · rw [htrap] at hsave
      cases hsave
    · rw [hnew] at hsave
      obtain rfl := Option.some.inj hsave
      exact ⟨hkeys, hle⟩

/-- Blocks that are saved are loaded as they were, behind those that are kept, if and only if each
    of them is stored as it is and there are primary keys for them. -/
theorem loadBlocks_saved_iff (M : PointerBytes) (db : BlockTable) (hdb : db.Reached)
    (replace : Bool) (blocks : List (BRMerkleBlock UInt256)) (hblocks : ∀ b ∈ blocks, Saveable b) :
    (∃ db', db.saveBlocks M replace (blocks.map some) = some db' ∧
        db'.loadBlocks = (if replace then [] else db.loadBlocks) ++ blocks) ↔
      (∀ b ∈ blocks, Storable b) ∧
        (if replace then 0 else db.max) + blocks.length ≤ INT32_MAX := by
  obtain ⟨hkeys, hmax⟩ := hdb.keys
  have hrows : ∀ r ∈ (if replace then [] else db.rows), r.pk ≤ if replace then 0 else db.max := by
    cases replace
    · exact hkeys
    · simp
  have hpk : (if replace then 0 else db.max) ≤ INT32_MAX := by
    cases replace
    · exact hmax
    · exact Nat.zero_le _
  have hold : (if replace then [] else db.rows).filterMap loadBlock =
      if replace then [] else db.loadBlocks := by
    cases replace <;> rfl
  rw [saveBlocks_eq M db replace hblocks]
  rcases saveLoop_spec M hblocks hrows hpk with ⟨htrap, hnot⟩ | ⟨new, hnew, -, -, -, hiff⟩
  · rw [htrap]
    refine iff_of_false ?_ hnot
    rintro ⟨_, h, -⟩
    cases h
  · rw [hnew, ← hiff]
    constructor
    · rintro ⟨db', hdb', hload⟩
      obtain rfl := Option.some.inj hdb'
      have happ := (List.filterMap_append ..).symm.trans hload
      rw [hold] at happ
      exact List.append_cancel_left happ
    · intro h
      refine ⟨_, rfl, ?_⟩
      rw [← hold, ← h]
      exact List.filterMap_append ..

/-- Pointer arrays over zeros. -/
def emptyPointers : PointerBytes := ⟨fun _ _ => 0, fun _ _ => 0⟩

/-- A block with the older header and no partial tree. -/
def oldBlock : BRMerkleBlock UInt256 :=
  { blockHash := 5, version := 2, prevBlock := 4, merkleRoot := 7, timestamp := 1569945600
    target := 0x1b00ffff, nonce := 11, mixHash := 0, totalTx := 3, height := 915000 }

theorem loadBlocks_oldBlock :
    ∃ db', BlockTable.saveBlocks emptyPointers {} false ([oldBlock].map some) = some db' ∧
      db'.loadBlocks = [] ++ [oldBlock] := by
  have hsaveable : ∀ b ∈ [oldBlock], Saveable b := by
    intro b hb
    obtain rfl := List.mem_singleton.1 hb
    exact ⟨by decide, rfl, rfl, Nat.zero_le _, Nat.zero_le _⟩
  refine (loadBlocks_saved_iff emptyPointers {} .empty false [oldBlock] hsaveable).2
    ⟨?_, by decide⟩
  intro b hb
  obtain rfl := List.mem_singleton.1 hb
  exact ⟨rfl, rfl, rfl, rfl, by decide⟩

/-- A block with the newer header. -/
def newBlock : BRMerkleBlock UInt256 :=
  { oldBlock with timestamp := 1600000000, nonce := 0, nonce64 := 77, mixHash := 13 }

/-- The nonce of a block with the newer header is lost. -/
theorem not_loadBlocks_saved : ¬ ∀ (M : PointerBytes) (db : BlockTable), db.Reached →
    ∀ (replace : Bool) (blocks : List (BRMerkleBlock UInt256)), (∀ b ∈ blocks, Saveable b) →
      ∃ db', db.saveBlocks M replace (blocks.map some) = some db' ∧
        db'.loadBlocks = (if replace then [] else db.loadBlocks) ++ blocks := by
  intro h
  have hsaveable : ∀ b ∈ [newBlock], Saveable b := by
    intro b hb
    obtain rfl := List.mem_singleton.1 hb
    exact ⟨by decide, rfl, rfl, Nat.zero_le _, Nat.zero_le _⟩
  obtain ⟨db', hsave, hload⟩ := h emptyPointers {} .empty true [newBlock] hsaveable
  have hrun : BlockTable.saveBlocks emptyPointers {} true ([newBlock].map some) =
      some
        { rows := [
            { pk := 1, height := 915000, nonce := 0, target := 0x1b00ffff, totalTx := 3
              version := 2, timestamp := 1600000000 - 978307200, blockHash := set256 5
              flags := [], hashes := [], merkleRoot := set256 7, prevBlock := set256 4 }]
          max := 1 } := by
    rfl
  rw [hrun] at hsave
  obtain rfl := Option.some.inj hsave
  have hnonce := congrArg (List.map BRMerkleBlock.nonce64) hload
  revert hnonce
  decide

end RavenWallet
