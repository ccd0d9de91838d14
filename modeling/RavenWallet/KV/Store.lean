/-
  The local key-value store (BRReplicatedKVStore.swift).

  Its table has a row for each version of a key.  Each operation is a transaction
  that reads the current version and adds a row; an error in it restores the
  table.  The operations are taken with `syncImmediately` unset.

  * `Op.run_of_mismatch`, `Op.run_of_match`: what an operation does for a local
    version that is not, or is, the current one;
  * `Logged.run`: the versions of a key count its rows.
-/
import Mathlib.Data.List.MinMax
import RavenWallet.Core.Types

namespace RavenWallet

inductive BRReplicatedKVStoreError where
  | sqLiteError | replicationError | alreadyReplicating | conflict | notFound | invalidKey | unknown
  | malformedData
  deriving DecidableEq, Repr

inductive BRRemoteKVStoreError where
  | notFound | conflict | tombstone | unknown
  deriving DecidableEq, Repr

namespace KV

/-- What is thrown: an error of the store, or some other one. -/
inductive Thrown where
  | store (e : BRReplicatedKVStoreError)
  | other
  deriving DecidableEq, Repr

/-- What decrypting throws: that the data are malformed, or an error that is not of the store. -/
inductive DecryptError where
  | malformedData | other
  deriving DecidableEq, Repr

def DecryptError.thrown : DecryptError → Thrown
  | malformedData => .store .malformedData
  | other => .other

/-- The parameters of a store: which keys match the regular expression, and the encryption. -/
structure Env where
  keyRegex : String → Bool
  encrypted : Bool := true
  encryptedReplication : Bool := true
  encrypt : Bytes → Bytes
  chacha20Poly1305AEADDecrypt : Bytes → Except DecryptError Bytes

/-- `decrypt`. -/
def Env.decrypt (env : Env) (data : Bytes) : Except Thrown Bytes :=
  (env.chacha20Poly1305AEADDecrypt data).mapError DecryptError.thrown

/-- What is stored for a value. -/
def Env.store (env : Env) (value : Bytes) : Bytes :=
  if env.encrypted then env.encrypt value else value

/-- The value for what is stored. -/
def Env.stored (env : Env) (value : Bytes) : Except Thrown Bytes :=
  if env.encrypted then env.decrypt value else .ok value

/-- What is sent for a value. -/
def Env.send (env : Env) (value : Bytes) : Bytes :=
  if env.encryptedReplication then env.encrypt value else value

/-- The value for what was sent. -/
def Env.sent (env : Env) (value : Bytes) : Except Thrown Bytes :=
  if env.encryptedReplication then env.decrypt value else .ok value

/-- A row of the table; times are in milliseconds. -/
structure Row where
  version : ℕ
  remote_version : ℕ := 0
  key : String
  value : Bytes
  thetime : ℕ
  deleted : Bool
  deriving DecidableEq, Repr

/-- The table, in the order of insertion. -/
abbrev Db := List Row

/-! ## Statements -/

def rowsOf (rows : Db) (key : String) : List Row := rows.filter fun r => r.key = key

/-- The row of the current version. -/
def current (rows : Db) (key : String) : Option Row := (rowsOf rows key).argmax Row.version

/-- `_localVersion`: zeros without a row. -/
def localVersion (rows : Db) (key : String) : ℕ × ℕ :=
  ((current rows key).elim 0 Row.version, (current rows key).elim 0 Row.thetime)

/-- `INSERT`, with the key and the version as primary key. -/
def insert (row : Row) (rows : Db) : Except Thrown Unit × Db :=
  if rows.any fun r => r.key = row.key ∧ r.version = row.version then
    (.error (.store .sqLiteError), rows)
  else (.ok (), rows ++ [row])

/-- `INSERT` of a changed copy of a version of a key. -/
def insertCopy (key : String) (version : ℕ) (change : Row → Row) (rows : Db) :
    Except Thrown Unit × Db :=
  match rows.find? fun r => r.key = key ∧ r.version = version with
  | none => (.ok (), rows)
  | some row => insert (change row) rows

/-- `txn`: rolls back if `fn` throws. -/
def txn {α : Type} (fn : Db → Except Thrown α × Db) (rows : Db) : Except Thrown α × Db :=
  match fn rows with
  | (.ok a, rows') => (.ok a, rows')
  | (.error e, _) => (.error e, rows)

/-- The transaction of an operation: compares the version, and runs the statement for the new one. -/
def txnAt (key : String) (localVer now : ℕ) (stmt : ℕ → Db → Except Thrown Unit × Db) (rows : Db) :
    Except Thrown (ℕ × ℕ) × Db :=
  txn (fun rows =>
    let curVer := (localVersion rows key).1
    if curVer ≠ localVer then (.error (.store .conflict), rows)
    else
      match stmt curVer rows with
      | (.ok _, rows') => (.ok (curVer + 1, now), rows')
      | (.error e, rows') => (.error e, rows')) rows

/-! ## Operations -/

section
variable (env : Env) (key : String)

/-- `checkKey`. -/
def checkKey {α : Type} (f : Db → Except Thrown α × Db) (rows : Db) : Except Thrown α × Db :=
  if env.keyRegex key then f rows else (.error (.store .invalidKey), rows)

/-- `get` of the current version. -/
def get (rows : Db) : Except Thrown (ℕ × ℕ × Bool × Bytes) × Db :=
  checkKey env key (fun rows =>
    match txn (fun rows =>
      match current rows key with
      | none => (.error (.store .notFound), rows)
      | some row => (.ok row, rows)) rows with
    | (.error e, rows) => (.error e, rows)
    | (.ok row, rows) =>
      match env.stored row.value with
      | .error e => (.error e, rows)
      | .ok value => (.ok (row.version, row.thetime, row.deleted, value), rows)) rows

/-- `_set`. -/
def setRow (value : Bytes) (localVer now : ℕ) : Db → Except Thrown (ℕ × ℕ) × Db :=
  txnAt key localVer now fun curVer =>
    insert { version := curVer + 1, key, value := env.store value, thetime := now, deleted := false }

/-- `_del`. -/
def delRow (localVer now : ℕ) (rows : Db) : Except Thrown (ℕ × ℕ) × Db :=
  if localVer = 0 then (.error (.store .notFound), rows)
  else txnAt key localVer now (fun curVer => insertCopy key curVer fun row =>
    { row with version := curVer + 1, thetime := now, deleted := true, remote_version := 0 }) rows

/-- `set`. -/
def set (value : Bytes) (localVer now : ℕ) : Db → Except Thrown (ℕ × ℕ) × Db :=
  checkKey env key (setRow env key value localVer now)

/-- `del`. -/
def del (localVer now : ℕ) : Db → Except Thrown (ℕ × ℕ) × Db :=
  checkKey env key (delRow key localVer now)

/-- `setRemoteVersion`. -/
def setRemoteVersion (localVer remoteVer now : ℕ) : Db → Except Thrown (ℕ × ℕ) × Db :=
  checkKey env key fun rows =>
    if localVer < 1 then (.error (.store .conflict), rows)
    else txnAt key localVer now (fun curVer => insertCopy key curVer fun row =>
      { row with version := curVer + 1, thetime := now, remote_version := remoteVer }) rows

/-- `remoteVersion`: zero without a row. -/
def remoteVersion : Db → Except Thrown ℕ × Db :=
  checkKey env key fun rows => (.ok ((current rows key).elim 0 Row.remote_version), rows)

end

/-- The operations that write. -/
inductive Op where
  | set (key : String) (value : Bytes) (localVer : ℕ)
  | del (key : String) (localVer : ℕ)
  | setRemoteVersion (key : String) (localVer remoteVer : ℕ)

namespace Op

def key : Op → String
  | set key .. => key
  | del key _ => key
  | setRemoteVersion key .. => key

def localVer : Op → ℕ
  | set _ _ localVer => localVer
  | del _ localVer => localVer
  | setRemoteVersion _ localVer _ => localVer

/-- Only `set` creates a key. -/
def mayWrite : Op → Bool
  | set .. => true
  | op => op.localVer ≠ 0

/-- What an operation throws for a version that is not the current one. -/
def mismatch : Op → BRReplicatedKVStoreError
  | del _ 0 => .notFound
  | _ => .conflict

def run (env : Env) (now : ℕ) : Op → Db → Except Thrown (ℕ × ℕ) × Db
  | set key value localVer => KV.set env key value localVer now
  | del key localVer => KV.del env key localVer now
  | setRemoteVersion key localVer remoteVer => KV.setRemoteVersion env key localVer remoteVer now

end Op

/-! ## Versions -/

/-- The versions of each key count its rows. -/
def Logged (rows : Db) : Prop :=
  ∀ key, (rowsOf rows key).map Row.version = List.range' 1 (rowsOf rows key).length

section
variable {env : Env} {rows rows' : Db} {key : String} {row : Row} {now localVer : ℕ}

theorem rowsOf_append (rows rows' : Db) (key : String) :
    rowsOf (rows ++ rows') key = rowsOf rows key ++ rowsOf rows' key := List.filter_append ..

theorem rowsOf_singleton (row : Row) (key : String) :
    rowsOf [row] key = if row.key = key then [row] else [] := by
  rw [rowsOf, List.filter_singleton]
  by_cases h : row.key = key <;> simp [h]

theorem mem_rowsOf : row ∈ rowsOf rows key ↔ row ∈ rows ∧ row.key = key := by
  rw [rowsOf, List.mem_filter, decide_eq_true_eq]

theorem Logged.nil : Logged [] := fun _ => rfl

/-- The rows of a key before its last one, and that. -/
theorem Logged.concat (h : Logged rows) {init : List Row} (hrows : rowsOf rows key = init ++ [row]) :
    row.version = init.length + 1 ∧ ∀ r ∈ init, r.version < row.version := by
  have hlog := h key
  rw [hrows, List.map_append, List.map_singleton, List.length_append, List.length_singleton,
    List.range'_concat, Nat.one_mul, Nat.add_comm 1] at hlog
  obtain ⟨hinit, hlast⟩ := List.append_inj hlog (by rw [List.length_map, List.length_range'])
  have hversion : row.version = init.length + 1 := (List.cons.inj hlast).1
  refine ⟨hversion, fun r hr => ?_⟩
  have hmem := List.mem_map_of_mem (f := Row.version) hr
  rw [hinit, List.mem_range'_1] at hmem
  omega

/-- The current row is the last one. -/
theorem Logged.current_eq (h : Logged rows) (key : String) :
    current rows key = (rowsOf rows key).getLast? := by
  rw [current]
  rcases List.eq_nil_or_concat (rowsOf rows key) with hnil | ⟨init, row, hrows⟩
  · rw [hnil]
    rfl
  · rw [List.concat_eq_append] at hrows
    obtain ⟨-, hlt⟩ := h.concat hrows
    rw [hrows, List.argmax_concat, List.getLast?_concat]
    cases hmax : init.argmax Row.version with
    | none => rfl
    | some r => exact if_pos (hlt r (List.argmax_mem hmax))

/-- The current version is the number of rows. -/
theorem Logged.localVersion_eq (h : Logged rows) (key : String) :
    (localVersion rows key).1 = (rowsOf rows key).length := by
  rw [localVersion, h.current_eq]
  rcases List.eq_nil_or_concat (rowsOf rows key) with hnil | ⟨init, row, hrows⟩
  · rw [hnil]
    rfl
  · rw [List.concat_eq_append] at hrows
    rw [hrows, List.getLast?_concat, List.length_append, List.length_singleton]
    exact (h.concat hrows).1

theorem Logged.le_version (h : Logged rows) (hrow : row ∈ rows) :
    row.version ≤ (localVersion rows row.key).1 := by
  have hmem := List.mem_map_of_mem (f := Row.version) (mem_rowsOf.2 ⟨hrow, rfl⟩)
  rw [h row.key, List.mem_range'_1] at hmem
  rw [h.localVersion_eq]
  omega

/-- The row of the next version goes in. -/
theorem Logged.insert_next (h : Logged rows) (hrow : row.version = (localVersion rows row.key).1 + 1) :
    insert row rows = (.ok (), rows ++ [row]) := by
  rw [insert, if_neg]
  intro hany
  obtain ⟨r, hr, heq⟩ := List.any_eq_true.1 hany
  obtain ⟨hkey, hversion⟩ := of_decide_eq_true heq
  have hle := h.le_version hr
  rw [hkey] at hle
  omega

theorem Logged.append (h : Logged rows) (hrow : row.version = (localVersion rows row.key).1 + 1) :
    Logged (rows ++ [row]) := by
  intro key
  rw [rowsOf_append, rowsOf_singleton]
  by_cases hkey : row.key = key
  · subst hkey
    rw [if_pos rfl, List.map_append, List.map_singleton, List.length_append, List.length_singleton,
      List.range'_concat, ← h row.key, hrow, h.localVersion_eq, Nat.one_mul, Nat.add_comm 1]
  · rw [if_neg hkey, List.append_nil, h key]

/-- The row of the current version is found. -/
theorem Logged.find_current (h : Logged rows) (hcur : current rows key = some row) :
    row.key = key ∧ (localVersion rows key).1 = row.version ∧
      rows.find? (fun r => r.key = key ∧ r.version = row.version) = some row := by
  obtain ⟨hrow, hkey⟩ := mem_rowsOf.1 (List.argmax_mem hcur)
  refine ⟨hkey, by rw [localVersion, hcur]; rfl, ?_⟩
  obtain ⟨r, hr⟩ : ∃ r, rows.find? (fun r => r.key = key ∧ r.version = row.version) = some r :=
    Option.isSome_iff_exists.1 (List.find?_isSome.2 ⟨row, hrow, decide_eq_true ⟨hkey, rfl⟩⟩)
  have hfound := List.find?_some hr
  rw [decide_eq_true_eq] at hfound
  obtain ⟨hkey', hversion⟩ := hfound
  -- the versions of a key are all different
  have hnodup : ((rowsOf rows key).map Row.version).Nodup := h key ▸ List.nodup_range'
  have hsame := List.inj_on_of_nodup_map hnodup
    (mem_rowsOf.2 ⟨List.mem_of_find?_eq_some hr, hkey'⟩) (mem_rowsOf.2 ⟨hrow, hkey⟩) hversion
  rw [hr, hsame]

theorem txnAt_of_ne {stmt : ℕ → Db → Except Thrown Unit × Db}
    (h : localVer ≠ (localVersion rows key).1) :
    txnAt key localVer now stmt rows = (.error (.store .conflict), rows) := by
  rw [txnAt, txn]
  dsimp only
  rw [if_pos h.symm]

theorem txnAt_of_eq {stmt : ℕ → Db → Except Thrown Unit × Db}
    (h : localVer = (localVersion rows key).1) (hstmt : stmt localVer rows = (.ok (), rows')) :
    txnAt key localVer now stmt rows = (.ok (localVer + 1, now), rows') := by
  rw [txnAt, txn]
  dsimp only
  rw [if_neg (not_not.2 h.symm), ← h, hstmt]

/-- A copy of the current row goes in as the next version. -/
theorem Logged.insertCopy_next (h : Logged rows) {change : Row → Row}
    (hcur : current rows key = some row) (hchange : (change row).key = key)
    (hnext : (change row).version = row.version + 1) :
    insertCopy key row.version change rows = (.ok (), rows ++ [change row]) := by
  obtain ⟨-, hversion, hfind⟩ := h.find_current hcur
  rw [insertCopy, hfind]
  exact h.insert_next (by rw [hnext, hchange, hversion])

/-- The key has a row if its version is not zero. -/
theorem current_of_pos (h : (localVersion rows key).1 ≠ 0) :
    ∃ row, current rows key = some row ∧ row.version = (localVersion rows key).1 := by
  rw [localVersion] at *
  cases hcur : current rows key with
  | none =>
    rw [hcur] at h
    exact absurd rfl h
  | some row => exact ⟨row, rfl, rfl⟩

/-! ## What the operations do -/

theorem get_of_none (hkey : env.keyRegex key = true) (hcur : current rows key = none) :
    get env key rows = (.error (.store .notFound), rows) := by
  rw [get, checkKey, if_pos hkey, txn, hcur]

theorem get_of_some (hkey : env.keyRegex key = true) (hcur : current rows key = some row) :
    get env key rows = ((env.stored row.value).map fun value =>
      (row.version, row.thetime, row.deleted, value), rows) := by
  rw [get, checkKey, if_pos hkey, txn, hcur]
  dsimp only
  cases env.stored row.value with
  | error e => rfl
  | ok value => rfl

theorem setRow_of_eq (h : Logged rows) (value : Bytes)
    (hver : localVer = (localVersion rows key).1) :
    setRow env key value localVer now rows = (.ok (localVer + 1, now), rows ++
      [{ version := localVer + 1, key, value := env.store value, thetime := now
         deleted := false }]) :=
  txnAt_of_eq hver (h.insert_next (by rw [hver]))

theorem delRow_of_eq (h : Logged rows) (hcur : current rows key = some row)
    (hver : localVer = row.version) (hpos : localVer ≠ 0) :
    delRow key localVer now rows = (.ok (localVer + 1, now), rows ++
      [{ row with version := localVer + 1, thetime := now, deleted := true
                  remote_version := 0 }]) := by
  obtain ⟨hkey, hversion, -⟩ := h.find_current hcur
  subst hver
  rw [delRow, if_neg hpos]
  exact txnAt_of_eq hversion.symm (h.insertCopy_next hcur hkey rfl)

theorem setRemoteVersion_of_eq (h : Logged rows) (hcur : current rows key = some row)
    (hver : localVer = row.version) (hpos : localVer ≠ 0) (hkey : env.keyRegex key = true)
    (remoteVer : ℕ) :
    setRemoteVersion env key localVer remoteVer now rows = (.ok (localVer + 1, now), rows ++
      [{ row with version := localVer + 1, thetime := now, remote_version := remoteVer }]) := by
  obtain ⟨hkey', hversion, -⟩ := h.find_current hcur
  subst hver
  rw [setRemoteVersion, checkKey, if_pos hkey, if_neg (by omega)]
  exact txnAt_of_eq hversion.symm (h.insertCopy_next hcur hkey' rfl)

namespace Op
variable {op : Op}

theorem run_of_invalid (h : env.keyRegex op.key = false) :
    op.run env now rows = (.error (.store .invalidKey), rows) := by
  have hno : ¬ env.keyRegex op.key = true := by rw [h]; exact Bool.false_ne_true
  cases op with
  | set key value localVer => exact if_neg hno
  | del key localVer => exact if_neg hno
  | setRemoteVersion key localVer remoteVer => exact if_neg hno

/-- An operation for a version that is not the current one, or that cannot create a key. -/
theorem run_of_mismatch (hkey : env.keyRegex op.key = true)
    (h : op.localVer ≠ (localVersion rows op.key).1 ∨ op.mayWrite = false) :
    op.run env now rows = (.error (.store op.mismatch), rows) := by
  cases op with
  | set key value localVer =>
    have hne : localVer ≠ (localVersion rows key).1 := h.resolve_right (by simp [mayWrite])
    exact (if_pos hkey).trans (txnAt_of_ne hne)
  | del key localVer =>
    refine (if_pos hkey).trans ?_
    cases localVer with
    | zero => rfl
    | succ n =>
      have hne : n + 1 ≠ (localVersion rows key).1 :=
        h.resolve_right (by simp [mayWrite, Op.localVer])
      exact (if_neg (Nat.succ_ne_zero n)).trans (txnAt_of_ne hne)
  | setRemoteVersion key localVer remoteVer =>
    refine (if_pos hkey).trans ?_
    cases localVer with
    | zero => rfl
    | succ n =>
      have hne : n + 1 ≠ (localVersion rows key).1 :=
        h.resolve_right (by simp [mayWrite, Op.localVer])
      exact (if_neg (by omega)).trans (txnAt_of_ne hne)

/-- An operation for the current version adds a row with the next one. -/
theorem run_of_match (now : ℕ) (hlog : Logged rows) (hkey : env.keyRegex op.key = true)
    (h : op.localVer = (localVersion rows op.key).1) (hmay : op.mayWrite = true) :
    ∃ row, row.key = op.key ∧ row.version = op.localVer + 1 ∧
      op.run env now rows = (.ok (op.localVer + 1, now), rows ++ [row]) := by
  cases op with
  | set key value localVer =>
    exact ⟨_, rfl, rfl, (if_pos hkey).trans (setRow_of_eq hlog value h)⟩
  | del key localVer =>
    have hpos : localVer ≠ 0 := of_decide_eq_true hmay
    obtain ⟨row, hcur, hversion⟩ := current_of_pos fun h0 => hpos (h.trans h0)
    refine ⟨_, ?_, ?_, (if_pos hkey).trans
      (delRow_of_eq hlog hcur (h.trans hversion.symm) hpos)⟩
    · exact (hlog.find_current hcur).1
    · rfl
  | setRemoteVersion key localVer remoteVer =>
    have hpos : localVer ≠ 0 := of_decide_eq_true hmay
    obtain ⟨row, hcur, hversion⟩ := current_of_pos fun h0 => hpos (h.trans h0)
    refine ⟨_, ?_, ?_,
      setRemoteVersion_of_eq hlog hcur (h.trans hversion.symm) hpos hkey remoteVer⟩
    · exact (hlog.find_current hcur).1
    · rfl

/-- An operation leaves the table, or adds a row with the next version of its key. -/
theorem run_cases (env : Env) (now : ℕ) (op : Op) (hlog : Logged rows) :
    (∃ e, op.run env now rows = (.error e, rows)) ∨
    (env.keyRegex op.key = true ∧ op.mayWrite = true ∧
      op.localVer = (localVersion rows op.key).1 ∧ ∃ row, row.key = op.key ∧
      row.version = op.localVer + 1 ∧
      op.run env now rows = (.ok (op.localVer + 1, now), rows ++ [row])) := by
  cases hkey : env.keyRegex op.key with
  | false => exact Or.inl ⟨_, run_of_invalid hkey⟩
  | true =>
    by_cases hver : op.localVer = (localVersion rows op.key).1
    · cases hmay : op.mayWrite with
      | false => exact Or.inl ⟨_, run_of_mismatch hkey (Or.inr hmay)⟩
      | true => exact Or.inr ⟨rfl, rfl, hver, run_of_match now hlog hkey hver hmay⟩
    · exact Or.inl ⟨_, run_of_mismatch hkey (Or.inl hver)⟩

end Op

theorem Logged.run (h : Logged rows) (op : Op) : Logged (op.run env now rows).2 := by
  rcases Op.run_cases env now op h with
    ⟨e, heq⟩ | ⟨-, -, hver, row, hkey, hversion, heq⟩
  · rw [heq]
    exact h
  · rw [heq]
    exact h.append (by rw [hversion, hver, hkey])

end

end KV

end RavenWallet
