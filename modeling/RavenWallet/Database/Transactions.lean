/-
  Transactions in the database (`txAdded`, `txUpdated`, `txDeleted` and
  `loadTransactions` of CoreDatabase.swift).

  An addition or a conversion that traps has no result, and neither has an
  update that ends the process.  Rows that are selected are read before they are
  updated.

  * `TxTable.Holds`: the table holds the transactions of a ledger.
    `TxTable.Holds.apply` is the step: it does after an event, if there is a next
    primary key and the blob is not too long;
  * `TxTable.Holds.loadTransactions`: what is loaded then;
  * `loadTransactions_events`: the transactions that were added and not deleted
    are loaded as they were at their last event;
  * `not_loadTransactions_events`: primary keys run out.
-/
import RavenWallet.Core.TxRoundTrip
import RavenWallet.Database.Blocks
import RavenWallet.Lib.Reach

namespace RavenWallet

/-- A row of ZBRTXMETADATAENTITY. -/
structure TxRow where
  pk : ℕ
  type : ℕ
  blob : Bytes
  txHash : Bytes
  deriving DecidableEq, Repr

/-- ZBRTXMETADATAENTITY, and the Z_MAX kept for it. -/
structure TxTable where
  rows : List TxRow := []
  max : ℕ := 0
  deriving DecidableEq, Repr

/-- A time since the epoch of the database, zero for one before. -/
def storedTime (timestamp : UInt32) : UInt32 :=
  if timestamp > UInt32.ofNat NSTimeIntervalSince1970 then
    timestamp - UInt32.ofNat NSTimeIntervalSince1970
  else 0

/-- The bytes behind a transaction. -/
def blockBytes (blockHeight timestamp : UInt32) : Bytes :=
  toLE 4 blockHeight.toNat ++ toLE 4 timestamp.toNat

/-- What is stored of a transaction. -/
def txBlob (tx : BRTransaction) : Bytes :=
  tx.serialize ++ blockBytes tx.blockHeight (storedTime tx.timestamp)

namespace TxTable

variable (db : TxTable)

def txAdded (tx : BRTransaction) : Option TxTable := do
  let buf := txBlob tx
  let pk ← convert INT32_MAX (db.max + 1)
  let _ ← convert INT32_MAX buf.length
  match insertRow TxRow.pk db.rows { pk, type := 1, blob := buf, txHash := set256 tx.txHash } with
  | none => some db
  | some rows => some { rows, max := pk }

/-- A round of the loop over the rows that are selected. -/
def updateRow (bytes : Bytes) (rows : List TxRow) (row : TxRow) : Option (List TxRow) :=
  if row.blob.length > bytes.length then do
    let blob := row.blob.take (row.blob.length - bytes.length) ++ bytes
    let _ ← convert INT32_MAX blob.length
    some (rows.map fun r => if r.txHash = row.txHash then { r with blob } else r)
  else some rows

def txUpdated (txHashes : List UInt256) (blockHeight timestamp : UInt32) : Option TxTable :=
  if txHashes = [] then some db
  else do
    let selected := db.rows.filter fun r => r.type = 1 ∧ r.txHash ∈ txHashes.map set256
    let rows ← selected.foldlM (updateRow (blockBytes blockHeight (storedTime timestamp))) db.rows
    -- the process exits if there are fewer rows than hashes
    if selected.length ≠ txHashes.length then none else some { db with rows }

def txDeleted (txHash : UInt256) : TxTable :=
  { db with rows := db.rows.filter fun r => ¬ (r.type = 1 ∧ r.txHash = set256 txHash) }

/-- A stored time as a time since the epoch of Unix. -/
def loadTime (timestamp : ℕ) : Option UInt32 :=
  if timestamp = 0 then some 0
  else adding (UInt32.ofNat timestamp) (UInt32.ofNat NSTimeIntervalSince1970)

/-- The transaction in a row; nothing if none is parsed. -/
def loadRow (H : Hashes) (row : TxRow) : Option (Option BRTransaction) :=
  if row.blob.length < 8 then some none
  else do
    let off := row.blob.length - 8
    match ← BRTransaction.parse H (row.blob.take off) with
    | none => some none
    | some tx => do
      let blockHeight ← getLE row.blob off 4
      let timestamp ← getLE row.blob (off + 4) 4
      let timestamp ← loadTime timestamp
      some (some (tx.setBlock (UInt32.ofNat blockHeight) timestamp))

/-- The rows up to the first one with no transaction. -/
def loadRows (H : Hashes) : List TxRow → Option (List BRTransaction)
  | [] => some []
  | row :: rows => do
    match ← loadRow H row with
    | none => some []
    | some tx => do
      let txs ← loadRows H rows
      some (tx :: txs)

def loadTransactions (H : Hashes) : Option (List BRTransaction) :=
  loadRows H (db.rows.filter fun r => r.type = 1)

end TxTable

/-! ## Events -/

inductive TxEvent where
  | added (tx : BRTransaction)
  | updated (txHashes : List UInt256) (blockHeight timestamp : UInt32)
  | deleted (txHash : UInt256)

def TxTable.apply (db : TxTable) : TxEvent → Option TxTable
  | .added tx => db.txAdded tx
  | .updated txHashes blockHeight timestamp => db.txUpdated txHashes blockHeight timestamp
  | .deleted txHash => some (db.txDeleted txHash)

/-- No time, or one after the epoch of the database. -/
def ValidTime (timestamp : UInt32) : Prop :=
  timestamp = 0 ∨ timestamp > UInt32.ofNat NSTimeIntervalSince1970

instance (timestamp : UInt32) : Decidable (ValidTime timestamp) :=
  inferInstanceAs (Decidable (_ ∨ _))

/-- The transactions that were added and not deleted, as they were at their last event; an event
    must name transactions that are there, or one that is not. -/
def ledgerNext (ledger : List BRTransaction) : TxEvent → Option (List BRTransaction)
  | .added tx =>
    if tx.txHash ∉ ledger.map BRTransaction.txHash ∧ ValidTime tx.timestamp then
      some (ledger ++ [tx])
    else none
  | .updated txHashes blockHeight timestamp =>
    if txHashes.Nodup ∧ (∀ h ∈ txHashes, h ∈ ledger.map BRTransaction.txHash) ∧
        ValidTime timestamp then
      some (ledger.map fun tx =>
        if tx.txHash ∈ txHashes then tx.setBlock blockHeight timestamp else tx)
    else none
  | .deleted txHash => some (ledger.filter fun tx => tx.txHash ≠ txHash)

/-- `copy` is the transaction `tx`. -/
structure Restored (tx copy : BRTransaction) : Prop where
  txHash : copy.txHash = tx.txHash
  same : BRTransaction.Same tx copy
  asset : copy.asset = tx.asset

/-- A transaction that is parsed from its bytes. -/
def Restores (H : Hashes) (tx : BRTransaction) : Prop :=
  ∃ copy, BRTransaction.parse H tx.serialize = some (some copy) ∧ Restored tx copy

/-- The number of additions. -/
def additions (events : List TxEvent) : ℕ :=
  events.countP fun e => match e with | .added _ => true | _ => false

variable {H : Hashes} {db : TxTable} {ledger : List BRTransaction} {tx : BRTransaction}

/-! ## Times and blobs -/

theorem BRTransaction.length_serialize_pos (tx : BRTransaction) : 0 < tx.serialize.length := by
  rw [BRTransaction.serialize_eq, List.length_append, length_toLE]
  omega

@[simp] theorem length_blockBytes (blockHeight timestamp : UInt32) :
    (blockBytes blockHeight timestamp).length = 8 := by
  rw [blockBytes, List.length_append, length_toLE, length_toLE]

@[simp] theorem serialize_setBlock (tx : BRTransaction) (blockHeight timestamp : UInt32) :
    (tx.setBlock blockHeight timestamp).serialize = tx.serialize := rfl

/-- A time that is stored is loaded. -/
theorem loadTime_storedTime {timestamp : UInt32} (h : ValidTime timestamp) :
    TxTable.loadTime (storedTime timestamp).toNat = some timestamp := by
  have hbase : (UInt32.ofNat NSTimeIntervalSince1970).toNat = 978307200 := by decide
  unfold TxTable.loadTime storedTime
  rcases h with rfl | h
  · rfl
  · have hlt := UInt32.lt_iff_toNat_lt.1 h
    have hsub : (timestamp - UInt32.ofNat NSTimeIntervalSince1970).toNat =
        timestamp.toNat - 978307200 := by
      rw [UInt32.toNat_sub_of_le _ _ (UInt32.le_iff_toNat_le.2 hlt.le), hbase]
    have hsum : timestamp - UInt32.ofNat NSTimeIntervalSince1970 +
        UInt32.ofNat NSTimeIntervalSince1970 = timestamp := UInt32.sub_add_cancel _ _
    have htime := timestamp.toNat_lt
    rw [hbase] at hlt
    rw [if_pos h, if_neg (by rw [hsub]; omega), UInt32.ofNat_toNat, adding, hsum, hsub, hbase,
      if_pos (by omega)]

@[simp] theorem length_txBlob (tx : BRTransaction) :
    (txBlob tx).length = tx.serialize.length + 8 := by
  rw [txBlob, List.length_append, length_blockBytes]

/-- The table holds a transaction in this row. -/
structure TxRow.Holds (row : TxRow) (tx : BRTransaction) : Prop where
  type : row.type = 1
  blob : row.blob = txBlob tx
  txHash : row.txHash = set256 tx.txHash

/-- A row is loaded with the transaction that it holds. -/
theorem loadRow_of_holds {row : TxRow} (hrow : row.Holds tx) (htime : ValidTime tx.timestamp)
    {copy : BRTransaction} (hparse : BRTransaction.parse H tx.serialize = some (some copy)) :
    TxTable.loadRow H row = some (some (copy.setBlock tx.blockHeight tx.timestamp)) := by
  have hlen : row.blob.length - 8 = tx.serialize.length := by
    rw [hrow.blob, length_txBlob, Nat.add_sub_cancel]
  have htake : row.blob.take tx.serialize.length = tx.serialize := by
    rw [hrow.blob, txBlob, List.take_left]
  have hat : At row.blob tx.serialize.length (toLE 4 tx.blockHeight.toNat ++
      (toLE 4 (storedTime tx.timestamp).toNat ++ [])) :=
    ⟨tx.serialize, by rw [hrow.blob, txBlob, blockBytes, List.append_nil], rfl⟩
  have hheight : getLE row.blob tx.serialize.length 4 = some tx.blockHeight.toNat :=
    hat.getLE tx.blockHeight.toNat_lt
  have hstored : getLE row.blob (tx.serialize.length + 4) 4 =
      some (storedTime tx.timestamp).toNat :=
    hat.toLE.getLE (storedTime tx.timestamp).toNat_lt
  unfold TxTable.loadRow
  rw [if_neg (by rw [hrow.blob, length_txBlob]; omega)]
  simp only [hlen, htake, hparse, Option.bind_eq_bind, Option.bind_some, hheight, hstored,
    loadTime_storedTime htime, UInt32.ofNat_toNat]

/-! ## Events and the ledger -/

/-- The table holds the transactions of the ledger. -/
structure TxTable.Holds (db : TxTable) (ledger : List BRTransaction) : Prop where
  rows : List.Forall₂ (fun tx row => row.Holds tx) ledger db.rows
  keys : ∀ r ∈ db.rows, r.pk ≤ db.max
  nodup : (ledger.map BRTransaction.txHash).Nodup
  times : ∀ tx ∈ ledger, ValidTime tx.timestamp
  sizes : ∀ tx ∈ ledger, (txBlob tx).length ≤ INT32_MAX

theorem set256_inj {a b : UInt256} : set256 a = set256 b ↔ a = b :=
  (Function.LeftInverse.injective get256_set256).eq_iff

/-- An added transaction comes last. -/
theorem TxTable.Holds.txAdded (h : db.Holds ledger)
    (hnew : tx.txHash ∉ ledger.map BRTransaction.txHash) (htime : ValidTime tx.timestamp)
    (hmax : db.max + 1 ≤ INT32_MAX) (hsize : (txBlob tx).length ≤ INT32_MAX) :
    ∃ db', db.txAdded tx = some db' ∧ db'.Holds (ledger ++ [tx]) ∧ db'.max = db.max + 1 := by
  have hlast : insertRow TxRow.pk db.rows ⟨db.max + 1, 1, txBlob tx, set256 tx.txHash⟩ =
      some (db.rows ++ [⟨db.max + 1, 1, txBlob tx, set256 tx.txHash⟩]) :=
    insertRow_last fun r hr => Nat.lt_succ_of_le (h.keys r hr)
  refine ⟨⟨db.rows ++ [⟨db.max + 1, 1, txBlob tx, set256 tx.txHash⟩], db.max + 1⟩, ?_,
    ⟨?_, ?_, ?_, ?_, ?_⟩, rfl⟩
  · unfold TxTable.txAdded
    simp only [convert_of_le hmax, convert_of_le hsize, Option.bind_eq_bind,
      Option.bind_some, hlast]
  · exact List.rel_append h.rows (.cons ⟨rfl, rfl, rfl⟩ .nil)
  · intro r hr
    rcases List.mem_append.1 hr with hr | hr
    · exact (h.keys r hr).trans (Nat.le_succ _)
    · rw [List.mem_singleton.1 hr]
  · rw [List.map_append, List.nodup_append]
    refine ⟨h.nodup, List.nodup_singleton _, fun a ha b hb => ?_⟩
    rintro rfl
    rw [List.map_singleton, List.mem_singleton] at hb
    exact hnew (hb ▸ ha)
  · intro t ht
    rcases List.mem_append.1 ht with ht | ht
    · exact h.times t ht
    · rwa [List.mem_singleton.1 ht]
  · intro t ht
    rcases List.mem_append.1 ht with ht | ht
    · exact h.sizes t ht
    · rwa [List.mem_singleton.1 ht]

/-- A deleted transaction is gone. -/
theorem TxTable.Holds.txDeleted (h : db.Holds ledger) (txHash : UInt256) :
    (db.txDeleted txHash).Holds (ledger.filter fun tx => tx.txHash ≠ txHash) := by
  refine ⟨?_, ?_, ?_, ?_, ?_⟩
  · refine List.rel_filter ?_ h.rows
    intro tx row hrow
    simp only [hrow.type, hrow.txHash, set256_inj, true_and, decide_not]
  · exact fun r hr => h.keys r (List.mem_of_mem_filter hr)
  · exact h.nodup.sublist (List.filter_sublist.map _)
  · exact fun t ht => h.times t (List.mem_of_mem_filter ht)
  · exact fun t ht => h.sizes t (List.mem_of_mem_filter ht)

/-- As many rows are selected as hashes are named. -/
theorem TxTable.Holds.length_selected (h : db.Holds ledger) {txHashes : List UInt256}
    (hnodup : txHashes.Nodup) (hmem : ∀ x ∈ txHashes, x ∈ ledger.map BRTransaction.txHash) :
    (db.rows.filter fun r => r.type = 1 ∧ r.txHash ∈ txHashes.map set256).length =
      txHashes.length := by
  have hrel := List.rel_filter (p := fun tx : BRTransaction => decide (tx.txHash ∈ txHashes))
    (q := fun r : TxRow => decide (r.type = 1 ∧ r.txHash ∈ txHashes.map set256)) (by
      intro tx row hrow
      simp only [hrow.type, hrow.txHash, true_and, decide_eq_true_eq, List.mem_map, set256_inj,
        exists_eq_right]) h.rows
  rw [← hrel.length_eq, ← List.length_map BRTransaction.txHash]
  refine List.Perm.length_eq ((List.perm_ext_iff_of_nodup
    (h.nodup.sublist (List.filter_sublist.map _)) hnodup).2 fun x => ?_)
  simp only [List.mem_map, List.mem_filter, decide_eq_true_eq]
  constructor
  · rintro ⟨tx, ⟨-, hx⟩, rfl⟩
    exact hx
  · intro hx
    obtain ⟨tx, htx, rfl⟩ := List.mem_map.1 (hmem x hx)
    exact ⟨tx, ⟨htx, hx⟩, rfl⟩

/-- The ledger with the given transactions in a block. -/
def setBlocks (ledger : List BRTransaction) (txHashes : List UInt256)
    (blockHeight timestamp : UInt32) : List BRTransaction :=
  ledger.map fun tx => if tx.txHash ∈ txHashes then tx.setBlock blockHeight timestamp else tx

theorem map_txHash_setBlocks (ledger : List BRTransaction) (txHashes : List UInt256)
    (blockHeight timestamp : UInt32) :
    (setBlocks ledger txHashes blockHeight timestamp).map BRTransaction.txHash =
      ledger.map BRTransaction.txHash := by
  rw [setBlocks, List.map_map]
  refine List.map_congr_left fun tx _ => ?_
  dsimp only [Function.comp]
  split_ifs <;> rfl

/-- The loop of an update: the rows hold the ledger with the transactions of the rows that are
    done in their block. -/
theorem updateRow_holds (h : db.Holds ledger) {blockHeight timestamp : UInt32} {d : List TxRow}
    {row : TxRow} {rows : List TxRow} (hrow : row ∈ db.rows)
    (hrows : List.Forall₂ (fun tx row => row.Holds tx)
      (setBlocks ledger (d.map fun r => get256 r.txHash) blockHeight timestamp) rows) :
    ∃ rows', TxTable.updateRow (blockBytes blockHeight (storedTime timestamp)) rows row =
        some rows' ∧
      List.Forall₂ (fun tx row => row.Holds tx)
        (setBlocks ledger ((d ++ [row]).map fun r => get256 r.txHash) blockHeight timestamp)
        rows' ∧ rows'.map TxRow.pk = rows.map TxRow.pk := by
  obtain ⟨tx, htx, hholds⟩ := BRTransaction.exists_of_mem_forall₂ h.rows hrow
  have hlen : row.blob.length = tx.serialize.length + 8 := by rw [hholds.blob, length_txBlob]
  have hblob : row.blob.take (row.blob.length - 8) ++ blockBytes blockHeight (storedTime timestamp) =
      txBlob (tx.setBlock blockHeight timestamp) := by
    rw [hlen, Nat.add_sub_cancel, hholds.blob, txBlob, List.take_left]
    rfl
  have hsize : (txBlob (tx.setBlock blockHeight timestamp)).length ≤ INT32_MAX := by
    rw [length_txBlob, serialize_setBlock, ← length_txBlob]
    exact h.sizes tx htx
  refine ⟨rows.map fun r => if r.txHash = row.txHash then
    { r with blob := txBlob (tx.setBlock blockHeight timestamp) } else r, ?_, ?_, ?_⟩
  · unfold TxTable.updateRow
    have hgt : row.blob.length > 8 := by
      rw [hlen]
      have := BRTransaction.length_serialize_pos tx
      omega
    rw [length_blockBytes, if_pos hgt, hblob]
    simp only [convert_of_le hsize, Option.bind_eq_bind, Option.bind_some]
  · unfold setBlocks at hrows ⊢
    rw [List.forall₂_map_left_iff] at hrows ⊢
    rw [List.forall₂_map_right_iff]
    have hmem := (List.forall₂_and_left _ _).2 ⟨fun t (ht : t ∈ ledger) => ht, hrows⟩
    refine hmem.imp fun t r ⟨ht, hr⟩ => ?_
    have hthash : r.txHash = set256 t.txHash := by
      rw [hr.txHash]
      split_ifs <;> rfl
    have hiff : t.txHash ∈ (d ++ [row]).map (fun r => get256 r.txHash) ↔
        t.txHash ∈ d.map (fun r => get256 r.txHash) ∨ t.txHash = tx.txHash := by
      rw [List.map_append, List.mem_append, List.map_singleton, List.mem_singleton, hholds.txHash,
        get256_set256]
    by_cases hsame : t.txHash = tx.txHash
    · obtain rfl : t = tx := List.inj_on_of_nodup_map h.nodup ht htx hsame
      rw [if_pos (hiff.2 (.inr rfl)), if_pos (by rw [hthash, hholds.txHash])]
      exact ⟨hr.type, rfl, hthash⟩
    · rw [if_neg (by rw [hthash, hholds.txHash, set256_inj]; exact hsame)]
      by_cases hd : t.txHash ∈ d.map fun r => get256 r.txHash
      · rw [if_pos (hiff.2 (.inl hd))]
        rw [if_pos hd] at hr
        exact hr
      · rw [if_neg fun h => (hiff.1 h).elim hd hsame]
        rw [if_neg hd] at hr
        exact hr
  · rw [List.map_map]
    refine List.map_congr_left fun r _ => ?_
    dsimp only [Function.comp]
    split_ifs <;> rfl

/-- Updated transactions are in their block, the others as they were. -/
theorem TxTable.Holds.txUpdated (h : db.Holds ledger) {txHashes : List UInt256}
    (hnodup : txHashes.Nodup) (hmem : ∀ x ∈ txHashes, x ∈ ledger.map BRTransaction.txHash)
    (blockHeight : UInt32) {timestamp : UInt32} (htime : ValidTime timestamp) :
    ∃ db', db.txUpdated txHashes blockHeight timestamp = some db' ∧
      db'.Holds (setBlocks ledger txHashes blockHeight timestamp) ∧ db'.max = db.max := by
  unfold TxTable.txUpdated
  by_cases hnil : txHashes = []
  · rw [if_pos hnil]
    refine ⟨db, rfl, ?_, rfl⟩
    have hsame : setBlocks ledger txHashes blockHeight timestamp = ledger := by
      rw [setBlocks, hnil]
      simp
    rwa [hsame]
  · rw [if_neg hnil]
    obtain ⟨rows, hloop, hrows, hkeys⟩ := foldlM_isSome
      (l := db.rows.filter fun r => r.type = 1 ∧ r.txHash ∈ txHashes.map set256) (s := db.rows)
      (P := fun d rows => List.Forall₂ (fun tx row => row.Holds tx)
        (setBlocks ledger (d.map fun r => get256 r.txHash) blockHeight timestamp) rows ∧
          rows.map TxRow.pk = db.rows.map TxRow.pk)
      (f := TxTable.updateRow (blockBytes blockHeight (storedTime timestamp)))
      (fun hx ⟨hP, hk⟩ => by
        obtain ⟨rows', hup, hP', hk'⟩ := updateRow_holds h (List.mem_of_mem_filter hx) hP
        exact ⟨rows', hup, hP', hk'.trans hk⟩)
      ⟨by simpa [setBlocks] using h.rows, rfl⟩
    have hlen := h.length_selected hnodup hmem
    refine ⟨{ db with rows := rows }, ?_, ⟨?_, ?_, ?_, ?_, ?_⟩, rfl⟩
    · simp only [Option.bind_eq_bind, hloop, Option.bind_some]
      rw [if_neg (not_not_intro hlen)]
    · -- the rows that are selected are those of the hashes
      have hsame : setBlocks ledger ((db.rows.filter fun r => r.type = 1 ∧
          r.txHash ∈ txHashes.map set256).map fun r => get256 r.txHash) blockHeight timestamp =
          setBlocks ledger txHashes blockHeight timestamp := by
        refine List.map_congr_left fun tx htx => if_congr ?_ rfl rfl
        obtain ⟨row, hrow, hholds⟩ := BRTransaction.exists_of_mem_forall₂ h.rows.flip htx
        simp only [List.mem_map, List.mem_filter, decide_eq_true_eq]
        constructor
        · rintro ⟨r, ⟨-, -, x, hx, hxr⟩, heq⟩
          rw [← hxr, get256_set256] at heq
          exact heq ▸ hx
        · intro hx
          exact ⟨row, ⟨hrow, hholds.type, tx.txHash, hx, hholds.txHash.symm⟩, by
            rw [hholds.txHash, get256_set256]⟩
      rwa [hsame] at hrows
    · intro r hr
      have hpk : r.pk ∈ db.rows.map TxRow.pk := by
        rw [← hkeys]
        exact List.mem_map_of_mem hr
      obtain ⟨r', hr', heq⟩ := List.mem_map.1 hpk
      rw [← heq]
      exact h.keys r' hr'
    · rw [map_txHash_setBlocks]
      exact h.nodup
    · intro t ht
      obtain ⟨tx, htx, rfl⟩ := List.mem_map.1 ht
      split_ifs
      · exact htime
      · exact h.times tx htx
    · intro t ht
      obtain ⟨tx, htx, rfl⟩ := List.mem_map.1 ht
      have hsize := h.sizes tx htx
      rw [length_txBlob] at hsize ⊢
      split_ifs <;> exact hsize

/-- An event that fits in 32 bits, when as many transactions were added before as `max` says. -/
def TxEvent.Fits (max : ℕ) : TxEvent → Prop
  | .added tx => max + 1 ≤ INT32_MAX ∧ (txBlob tx).length ≤ INT32_MAX
  | _ => True

/-- After an event the table holds the next ledger. -/
theorem TxTable.Holds.apply (h : db.Holds ledger) {e : TxEvent} {ledger' : List BRTransaction}
    (hnext : ledgerNext ledger e = some ledger') (hfits : e.Fits db.max) :
    ∃ db', db.apply e = some db' ∧ db'.Holds ledger' ∧ db'.max = db.max + additions [e] := by
  cases e with
  | added tx =>
    simp only [ledgerNext, Option.ite_none_right_eq_some, Option.some.injEq] at hnext
    obtain ⟨⟨hnew, htime⟩, rfl⟩ := hnext
    exact h.txAdded hnew htime hfits.1 hfits.2
  | updated txHashes blockHeight timestamp =>
    simp only [ledgerNext, Option.ite_none_right_eq_some, Option.some.injEq] at hnext
    obtain ⟨⟨hnodup, hmem, htime⟩, rfl⟩ := hnext
    exact h.txUpdated hnodup hmem blockHeight htime
  | deleted txHash =>
    obtain rfl := Option.some.inj hnext
    exact ⟨_, rfl, h.txDeleted txHash, rfl⟩

/-- A transaction is loaded as it is parsed from its bytes, in the block it was in last. -/
structure Loaded (H : Hashes) (tx copy : BRTransaction) : Prop where
  restored : Restored tx copy
  blockHeight : copy.blockHeight = tx.blockHeight
  timestamp : copy.timestamp = tx.timestamp
  parsed : ∃ c, BRTransaction.parse H tx.serialize = some (some c) ∧
    copy = c.setBlock tx.blockHeight tx.timestamp

theorem loadRows_of_holds {rows : List TxRow} {txs : List BRTransaction}
    (hrows : List.Forall₂ (fun tx row => row.Holds tx) txs rows)
    (htimes : ∀ tx ∈ txs, ValidTime tx.timestamp) (hrestores : ∀ tx ∈ txs, Restores H tx) :
    ∃ copies, TxTable.loadRows H rows = some copies ∧ List.Forall₂ (Loaded H) txs copies := by
  induction hrows with
  | nil => exact ⟨[], rfl, .nil⟩
  | @cons tx row txs rows hrow _ ih =>
    obtain ⟨c, hparse, hc⟩ := hrestores tx List.mem_cons_self
    obtain ⟨copies, hload, hcopies⟩ := ih (fun t ht => htimes t (List.mem_cons_of_mem _ ht))
      fun t ht => hrestores t (List.mem_cons_of_mem _ ht)
    refine ⟨c.setBlock tx.blockHeight tx.timestamp :: copies, ?_, .cons ?_ hcopies⟩
    · rw [TxTable.loadRows, loadRow_of_holds hrow (htimes tx List.mem_cons_self) hparse, hload]
      rfl
    · exact ⟨⟨hc.txHash, ⟨hc.same.version, hc.same.inputs, hc.same.outputs, hc.same.lockTime⟩,
        hc.asset⟩, rfl, rfl, c, hparse, rfl⟩

/-- The transactions of the ledger are loaded. -/
theorem TxTable.Holds.loadTransactions (h : db.Holds ledger)
    (hrestores : ∀ tx ∈ ledger, Restores H tx) :
    ∃ copies, db.loadTransactions H = some copies ∧ List.Forall₂ (Loaded H) ledger copies := by
  have hall : (db.rows.filter fun r => r.type = 1) = db.rows := by
    refine List.filter_eq_self.2 fun r hr => ?_
    obtain ⟨tx, -, hholds⟩ := BRTransaction.exists_of_mem_forall₂ h.rows hr
    exact decide_eq_true hholds.type
  rw [TxTable.loadTransactions, hall]
  exact loadRows_of_holds h.rows h.times hrestores

theorem restores_setBlock (blockHeight timestamp : UInt32) (h : Restores H tx) :
    Restores H (tx.setBlock blockHeight timestamp) := by
  obtain ⟨copy, hparse, hc⟩ := h
  exact ⟨copy, hparse, hc.txHash,
    ⟨hc.same.version, hc.same.inputs, hc.same.outputs, hc.same.lockTime⟩, hc.asset⟩

/-- Every transaction of the ledger was added, perhaps in another block. -/
theorem restores_of_ledger {events : List TxEvent} (hrun : events.foldlM ledgerNext [] = some ledger)
    (hrestores : ∀ tx, TxEvent.added tx ∈ events → Restores H tx) :
    ∀ tx ∈ ledger, Restores H tx := by
  refine foldlM_invariant (P := fun l : List BRTransaction => ∀ tx ∈ l, Restores H tx) ?_ (by simp)
    hrun
  intro l e l' he hl hnext
  cases e with
  | added t =>
    simp only [ledgerNext, Option.ite_none_right_eq_some, Option.some.injEq] at hnext
    obtain ⟨-, rfl⟩ := hnext
    intro tx htx
    rcases List.mem_append.1 htx with htx | htx
    · exact hl tx htx
    · rw [List.mem_singleton.1 htx]
      exact hrestores t he
  | updated txHashes blockHeight timestamp =>
    simp only [ledgerNext, Option.ite_none_right_eq_some, Option.some.injEq] at hnext
    obtain ⟨-, rfl⟩ := hnext
    intro tx htx
    obtain ⟨t, ht, rfl⟩ := List.mem_map.1 htx
    split_ifs
    · exact restores_setBlock blockHeight timestamp (hl t ht)
    · exact hl t ht
  | deleted txHash =>
    obtain rfl := Option.some.inj hnext
    exact fun tx htx => hl tx (List.mem_of_mem_filter htx)

/-- The table holds the ledger after any events with primary keys for all additions. -/
theorem foldlM_apply_holds {events : List TxEvent}
    (hrun : events.foldlM ledgerNext [] = some ledger) (hadd : additions events ≤ INT32_MAX)
    (hsizes : ∀ tx, TxEvent.added tx ∈ events → (txBlob tx).length ≤ INT32_MAX) :
    ∃ db, events.foldlM TxTable.apply {} = some db ∧ db.Holds ledger ∧
      db.max = additions events := by
  induction events using List.reverseRecOn generalizing ledger with
  | nil =>
    obtain rfl := Option.some.inj hrun
    exact ⟨{}, rfl, ⟨.nil, by simp, List.nodup_nil, by simp, by simp⟩, rfl⟩
  | append_singleton events e ih =>
    simp only [List.foldlM_append, Option.bind_eq_bind, Option.bind_eq_some_iff, List.foldlM_cons,
      List.foldlM_nil, Option.pure_def, Option.some.injEq] at hrun
    obtain ⟨l, hl, l', hnext, rfl⟩ := hrun
    have hcount : additions (events ++ [e]) = additions events + additions [e] :=
      List.countP_append
    rw [hcount] at hadd
    obtain ⟨db, hdb, hholds, hmax⟩ := ih hl (by omega)
      fun tx htx => hsizes tx (List.mem_append_left _ htx)
    have hfits : e.Fits db.max := by
      cases e with
      | added tx =>
        exact ⟨by rw [hmax]; exact hadd, hsizes tx (List.mem_append_right _ List.mem_cons_self)⟩
      | _ => trivial
    obtain ⟨db', hdb', hholds', hmax'⟩ := hholds.apply hnext hfits
    exact ⟨db', by simp [List.foldlM_append, hdb, hdb'], hholds', by rw [hmax', hmax, hcount]⟩

/-- After events with fewer than 2^31 additions the transactions that were added and not deleted
    are loaded, each once, as they were added and in the block of their last event. -/
theorem loadTransactions_events (H : Hashes) (events : List TxEvent) (ledger : List BRTransaction)
    (hrun : events.foldlM ledgerNext [] = some ledger)
    (hrestores : ∀ tx, TxEvent.added tx ∈ events → Restores H tx)
    (hadd : additions events < 2 ^ 31)
    (hsizes : ∀ tx, TxEvent.added tx ∈ events → tx.serialize.length + 8 < 2 ^ 31) :
    ∃ db copies, events.foldlM TxTable.apply {} = some db ∧
      db.loadTransactions H = some copies ∧ List.Forall₂ (Loaded H) ledger copies ∧
      (copies.map BRTransaction.txHash).Nodup := by
  obtain ⟨db, hdb, hholds, -⟩ := foldlM_apply_holds hrun (Nat.le_pred_of_lt hadd) fun tx htx => by
    rw [length_txBlob]
    exact Nat.le_pred_of_lt (hsizes tx htx)
  obtain ⟨copies, hload, hcopies⟩ :=
    hholds.loadTransactions (restores_of_ledger hrun hrestores)
  refine ⟨db, copies, hdb, hload, hcopies, ?_⟩
  have hhashes : ledger.map BRTransaction.txHash = copies.map BRTransaction.txHash :=
    BRTransaction.map_eq_of_forall₂ (fun _ _ h => h.restored.txHash.symm) hcopies
  rw [← hhashes]
  exact hholds.nodup

/-- A signed transaction with an input and an output. -/
def storedTx : BRTransaction where
  txHash := 63
  version := 1
  inputs := [{ txHash := get256 (List.replicate 32 7), index := 0x07070707, signature := some [0x51]
               address := BRAddress.fromScriptSig BRTransaction.lengthHashes [0x51]
               sequence := TXIN_SEQUENCE }]
  outputs := [{ amount := 100, script := some [0x51, 0x75]
                address := BRAddress.fromScriptPubKey BRTransaction.lengthHashes [0x51, 0x75] }]

theorem restores_storedTx : Restores BRTransaction.lengthHashes storedTx := by
  refine ⟨storedTx, by decide +kernel, rfl, ⟨rfl, ?_, ?_, rfl⟩, rfl⟩
  · exact List.forall₂_same.2 fun i _ => ⟨rfl, rfl, rfl, rfl, fun _ => rfl, fun _ => rfl⟩
  · exact List.forall₂_same.2 fun o _ => ⟨rfl, rfl, rfl⟩

theorem length_storedTx : storedTx.serialize.length = 63 := by decide +kernel

theorem ledgerNext_added : ledgerNext [] (.added storedTx) = some [storedTx] := rfl

theorem ledgerNext_deleted : ledgerNext [storedTx] (.deleted storedTx.txHash) = some [] := rfl

theorem loadTransactions_storedTx : ∃ db copies,
    [TxEvent.added storedTx, .updated [storedTx.txHash] 700000 1600000000].foldlM
        TxTable.apply {} = some db ∧
      db.loadTransactions BRTransaction.lengthHashes = some copies ∧
      List.Forall₂ (Loaded BRTransaction.lengthHashes)
        [storedTx.setBlock 700000 1600000000] copies ∧
      (copies.map BRTransaction.txHash).Nodup := by
  have hcount : additions [TxEvent.added storedTx,
      .updated [storedTx.txHash] 700000 1600000000] = 1 := rfl
  have hrun : [TxEvent.added storedTx, .updated [storedTx.txHash] 700000 1600000000].foldlM
      ledgerNext [] = some [storedTx.setBlock 700000 1600000000] := by
    have hadded : ValidTime storedTx.timestamp := .inl rfl
    have hupdated : ValidTime 1600000000 := by decide
    simp [ledgerNext, hadded, hupdated]
  refine loadTransactions_events BRTransaction.lengthHashes _ _ hrun ?_
    (by rw [hcount]; decide) ?_
  · intro tx htx
    obtain rfl : tx = storedTx := by simpa using htx
    exact restores_storedTx
  · intro tx htx
    obtain rfl : tx = storedTx := by simpa using htx
    rw [length_storedTx]
    decide

/-- A transaction that is added and deleted `n` times. -/
def addedAndDeleted (n : ℕ) : List TxEvent :=
  (List.replicate n [TxEvent.added storedTx, .deleted storedTx.txHash]).flatten

theorem foldlM_addedAndDeleted {S : Type} {f : S → TxEvent → Option S} (s : S) (n : ℕ) :
    (addedAndDeleted (n + 1)).foldlM f s = ((addedAndDeleted n).foldlM f s).bind fun s =>
      (f s (.added storedTx)).bind fun s => f s (.deleted storedTx.txHash) := by
  rw [addedAndDeleted, List.replicate_succ', List.flatten_append, List.foldlM_append]
  simp [addedAndDeleted]

/-- Primary keys run out when a transaction is added 2^31 times. -/
theorem not_loadTransactions_events : ¬ ∀ (H : Hashes) (events : List TxEvent)
    (ledger : List BRTransaction), events.foldlM ledgerNext [] = some ledger →
      (∀ tx, TxEvent.added tx ∈ events → Restores H tx) →
      ∃ db copies, events.foldlM TxTable.apply {} = some db ∧
        db.loadTransactions H = some copies ∧ List.Forall₂ (Loaded H) ledger copies ∧
        (copies.map BRTransaction.txHash).Nodup := by
  intro h
  have hledger : ∀ n, (addedAndDeleted n).foldlM ledgerNext [] = some [] := by
    intro n
    induction n with
    | zero => rfl
    | succ n ih =>
      rw [foldlM_addedAndDeleted, ih, Option.bind_some, ledgerNext_added, Option.bind_some,
        ledgerNext_deleted]
  have hkeys : ∀ n db, (addedAndDeleted n).foldlM TxTable.apply {} = some db →
      db.Holds [] ∧ db.max = n ∧ n ≤ INT32_MAX := by
    intro n
    induction n with
    | zero =>
      rintro db h
      obtain rfl := Option.some.inj h
      exact ⟨⟨.nil, by simp, List.nodup_nil, by simp, by simp⟩, rfl, Nat.zero_le _⟩
    | succ n ih =>
      intro db hdb
      rw [foldlM_addedAndDeleted, Option.bind_eq_some_iff] at hdb
      obtain ⟨db₁, hdb₁, hdb⟩ := hdb
      obtain ⟨hholds, hmax, -⟩ := ih db₁ hdb₁
      obtain ⟨db₂, hdb₂, hdb⟩ := Option.bind_eq_some_iff.1 hdb
      have hle : db₁.max + 1 ≤ INT32_MAX := by
        by_contra hgt
        have hnone : db₁.txAdded storedTx = none := by
          rw [TxTable.txAdded, convert_of_lt (Nat.lt_of_not_le hgt)]
          rfl
        rw [TxTable.apply, hnone] at hdb₂
        cases hdb₂
      have hsize : (txBlob storedTx).length ≤ INT32_MAX := by
        rw [length_txBlob, length_storedTx]
        decide
      obtain ⟨db₂', hadd, hholds₂, hmax₂⟩ := hholds.apply ledgerNext_added ⟨hle, hsize⟩
      obtain rfl : db₂ = db₂' := Option.some.inj (hdb₂.symm.trans hadd)
      obtain ⟨db₃, hdel, hholds₃, hmax₃⟩ := hholds₂.apply ledgerNext_deleted trivial
      obtain rfl : db = db₃ := Option.some.inj (hdb.symm.trans hdel)
      refine ⟨hholds₃, ?_, ?_⟩
      · rw [hmax₃, hmax₂, hmax]
        rfl
      · rw [← hmax]
        exact hle
  have hadded : ∀ n tx, TxEvent.added tx ∈ addedAndDeleted n → tx = storedTx := by
    intro n tx htx
    simp only [addedAndDeleted, List.mem_flatten, List.mem_replicate] at htx
    obtain ⟨_, ⟨-, rfl⟩, htx⟩ := htx
    simpa using htx
  obtain ⟨db, -, hdb, -⟩ := h BRTransaction.lengthHashes (addedAndDeleted (INT32_MAX + 1)) []
    (hledger _) fun tx htx => by
      rw [hadded _ tx htx]
      exact restores_storedTx
  exact absurd (hkeys _ db hdb).2.2 (Nat.not_succ_le_self _)

end RavenWallet
