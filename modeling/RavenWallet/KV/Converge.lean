/-
  What a sync does to both sides (`_syncKey` of BRReplicatedKVStore.swift).

  * `sync_settled`: after a sync that succeeds, the key is settled;
  * `settled_stable`: a sync does not change a key that is settled;
  * `converges_iff`, `sync_converges`: when a sync makes both sides agree for good.
-/
import RavenWallet.KV.Sync
import RavenWallet.KV.Log

namespace RavenWallet

namespace KV

/-! ## What both sides hold -/

section
variable (env : Env)

/-- The local value, none if the key is missing or deleted. -/
def localContent (rows : Db) (key : String) : Option (Except Thrown Bytes) :=
  (current rows key).bind fun row => if row.deleted then none else some (env.stored row.value)

/-- The remote value, none if the key is missing or deleted. -/
def remoteContent (remote : Option RemoteObject) : Option (Except Thrown Bytes) :=
  remote.bind fun obj => if obj.deleted then none else some (env.sent obj.value)

/-- Both sides have the same value, or none. -/
def Agree (key : String) (rows : Db) (remote : Option RemoteObject) : Prop :=
  ∃ content : Option Bytes, localContent env rows key = content.map .ok ∧
    remoteContent env remote = content.map .ok

/-- The sync has completed without an error. -/
def Succeeds (key : String) (clock : ℕ → ℕ) (date : ℕ) (w : World) : Prop :=
  (syncOnce env key clock date w).2.completions = w.completions ++ [none]

/-- A sync that succeeds makes both sides agree, records the remote version, and leaves nothing for
    another one; it does not create a key that neither side has. -/
structure Converges (key : String) (clock : ℕ → ℕ) (date : ℕ) (w : World) : Prop where
  agree : Succeeds env key clock date w →
    Agree env key (syncOnce env key clock date w).2.rows (syncOnce env key clock date w).2.remote
  recorded : Succeeds env key clock date w → ∀ row obj,
    current (syncOnce env key clock date w).2.rows key = some row →
    (syncOnce env key clock date w).2.remote = some obj → row.remote_version = obj.version
  stable : Succeeds env key clock date w → ∀ clock' date',
    let w' := (syncOnce env key clock date w).2
    (syncOnce env key clock' date' w').2.rows = w'.rows ∧
      (syncOnce env key clock' date' w').2.remote = w'.remote
  creates : current w.rows key = none → w.remote = none →
    (syncOnce env key clock date w).2.rows = w.rows ∧
      (syncOnce env key clock date w).2.remote = none

/-- The key is valid; a key that neither side has is not dated to the epoch, and where the recorded
    version is that of the remote key both sides agree. -/
def Consistent (key : String) (date : ℕ) (w : World) : Prop :=
  env.keyRegex key = true →
    (current w.rows key = none → w.remote = none → date ≠ 0) ∧
    (∀ row obj, current w.rows key = some row → w.remote = some obj →
      row.remote_version = obj.version → Agree env key w.rows w.remote)

/-- The state of a key after a sync that succeeds. -/
def Settled (key : String) (rows : Db) (remote : Option RemoteObject) : Prop :=
  match current rows key, remote with
  | some row, some obj => row.remote_version = obj.version ∧ Agree env key rows remote
  | none, some obj => obj.deleted = true ∧ obj.date ≠ 0
  | some row, none => row.deleted = true ∧ ∃ value, env.stored row.value = .ok value
  | none, none => False

end

/-! ## Runs of the parts -/

section
variable {env : Env} {key : String} {clock : ℕ → ℕ} {w : World} {row : Row} {obj : RemoteObject}

/-- The program completes with `e`, and leaves the two sides as given. -/
def Done (env : Env) (key : String) (clock : ℕ → ℕ) (p : Sync) (w : World) (rows : Db)
    (remote : Option RemoteObject) (e : Option BRReplicatedKVStoreError) : Prop :=
  ∃ tick, p.exec (handle env key clock) w =
    (.ok (), { rows, remote, completions := w.completions ++ [e], tick })

theorem done_complete (e : Option BRReplicatedKVStoreError) :
    Done env key clock (complete e) w w.rows w.remote e := ⟨w.tick + 1, rfl⟩

theorem Done.req {op : Req} {k : op.Res → Sync} {rows : Db} {remote : Option RemoteObject}
    {e : Option BRReplicatedKVStoreError}
    (hsame : (handle env key clock op w).2.completions = w.completions)
    (h : Done env key clock (k (handle env key clock op w).1) (handle env key clock op w).2 rows
      remote e) : Done env key clock (.req op k) w rows remote e := by
  obtain ⟨tick, h⟩ := h
  exact ⟨tick, h.trans (by rw [hsame])⟩

/-- The world after a request to the local store. -/
def World.withRows (w : World) (rows : Db) : World := { w with rows, tick := w.tick + 1 }

/-- The world after a request to the remote store. -/
def World.withRemote (w : World) (remote : Option RemoteObject) : World :=
  { w with remote, tick := w.tick + 1 }

/-- The row of a value that is set. -/
def Row.fetched (env : Env) (key : String) (value : Bytes) (version time : ℕ) : Row :=
  { version, key, value := env.store value, thetime := time, deleted := false }

/-- The row after a remote version is recorded. -/
def Row.recorded (row : Row) (remoteVer time : ℕ) : Row :=
  { row with version := row.version + 1, thetime := time, remote_version := remoteVer }

/-- The row after a deletion. -/
def Row.removed (row : Row) (time : ℕ) : Row :=
  { row with version := row.version + 1, thetime := time, deleted := true, remote_version := 0 }

theorem Logged.pos (hlog : Logged w.rows) (hcur : current w.rows key = some row) :
    row.version ≠ 0 := by
  have hmem := List.argmax_mem hcur
  have hversion := List.mem_map_of_mem (f := Row.version) hmem
  rw [hlog key, List.mem_range'_1] at hversion
  omega

/-- The row that is added is the current one. -/
theorem Logged.current_append {rows : Db} (hlog : Logged rows)
    (hrow : row.version = (localVersion rows row.key).1 + 1) :
    Logged (rows ++ [row]) ∧ current (rows ++ [row]) row.key = some row := by
  refine ⟨hlog.append hrow, ?_⟩
  rw [(hlog.append hrow).current_eq, rowsOf_append, rowsOf_singleton, if_pos rfl,
    List.getLast?_concat]

/-- The row that replaces the current one. -/
theorem Logged.replace {rows : Db} (hlog : Logged rows)
    (hcur : current rows key = some row) (row' : Row) (hkey : row'.key = row.key)
    (hversion : row'.version = row.version + 1) :
    Logged (rows ++ [row']) ∧ current (rows ++ [row']) key = some row' := by
  obtain ⟨hrow, hver, -⟩ := hlog.find_current hcur
  have hkey' : row'.key = key := hkey.trans hrow
  rw [← hkey']
  exact hlog.current_append (by rw [hversion, hkey', hver])

section
variable {localVer : ℕ} {k : Except Thrown (ℕ × ℕ) → Sync} {a : Except Thrown (ℕ × ℕ)}
  {rows' rows : Db} {remote : Option RemoteObject} {e : Option BRReplicatedKVStoreError}

theorem Done.setRemoteVersion {remoteVer : ℕ}
    (hanswer : KV.setRemoteVersion env key localVer remoteVer (clock w.tick) w.rows = (a, rows'))
    (h : Done env key clock (k a) (w.withRows rows') rows remote e) :
    Done env key clock (.req (.setRemoteVersion localVer remoteVer) k) w rows remote e := by
  refine Done.req rfl ?_
  change Done env key clock
    (k (KV.setRemoteVersion env key localVer remoteVer (clock w.tick) w.rows).1)
    (w.withRows (KV.setRemoteVersion env key localVer remoteVer (clock w.tick) w.rows).2) _ _ _
  rwa [hanswer]

theorem Done.setRow {value : Bytes}
    (hanswer : KV.setRow env key value localVer (clock w.tick) w.rows = (a, rows'))
    (h : Done env key clock (k a) (w.withRows rows') rows remote e) :
    Done env key clock (.req (.setRow value localVer) k) w rows remote e := by
  refine Done.req rfl ?_
  change Done env key clock (k (KV.setRow env key value localVer (clock w.tick) w.rows).1)
    (w.withRows (KV.setRow env key value localVer (clock w.tick) w.rows).2) _ _ _
  rwa [hanswer]

theorem Done.delRow
    (hanswer : KV.delRow key localVer (clock w.tick) w.rows = (a, rows'))
    (h : Done env key clock (k a) (w.withRows rows') rows remote e) :
    Done env key clock (.req (.delRow localVer) k) w rows remote e := by
  refine Done.req rfl ?_
  change Done env key clock (k (KV.delRow key localVer (clock w.tick) w.rows).1)
    (w.withRows (KV.delRow key localVer (clock w.tick) w.rows).2) _ _ _
  rwa [hanswer]

end

section
variable {version : ℕ} {a : ℕ × ℕ × Option BRRemoteKVStoreError}
  {k : ℕ × ℕ × Option BRRemoteKVStoreError → Sync} {rows : Db}
  {remote' remote : Option RemoteObject} {e : Option BRReplicatedKVStoreError}

theorem Done.remotePut {value : Bytes}
    (hanswer : RemoteObject.put value version (clock w.tick) w.remote = (a, remote'))
    (h : Done env key clock (k a) (w.withRemote remote') rows remote e) :
    Done env key clock (.req (.remotePut value version) k) w rows remote e := by
  refine Done.req rfl ?_
  change Done env key clock (k (RemoteObject.put value version (clock w.tick) w.remote).1)
    (w.withRemote (RemoteObject.put value version (clock w.tick) w.remote).2) _ _ _
  rwa [hanswer]

theorem Done.remoteDel
    (hanswer : RemoteObject.del version (clock w.tick) w.remote = (a, remote'))
    (h : Done env key clock (k a) (w.withRemote remote') rows remote e) :
    Done env key clock (.req (.remoteDel version) k) w rows remote e := by
  refine Done.req rfl ?_
  change Done env key clock (k (RemoteObject.del version (clock w.tick) w.remote).1)
    (w.withRemote (RemoteObject.del version (clock w.tick) w.remote).2) _ _ _
  rwa [hanswer]

end

theorem Done.remoteGet {version : ℕ} {a : ℕ × ℕ × Bytes × Option BRRemoteKVStoreError}
    {k : ℕ × ℕ × Bytes × Option BRRemoteKVStoreError → Sync} {rows : Db}
    {remote : Option RemoteObject} {e : Option BRReplicatedKVStoreError}
    (hanswer : RemoteObject.get version (clock w.tick) w.remote = a)
    (h : Done env key clock (k a) (w.withRemote w.remote) rows remote e) :
    Done env key clock (.req (.remoteGet version) k) w rows remote e := by
  refine Done.req rfl ?_
  change Done env key clock (k (RemoteObject.get version (clock w.tick) w.remote))
    (w.withRemote w.remote) _ _ _
  rwa [hanswer]

/-- Recording the remote version of a key. -/
theorem done_record (hkey : env.keyRegex key = true) (hlog : Logged w.rows)
    (hcur : current w.rows key = some row) (remoteVer : ℕ) :
    Done env key clock (record row.version remoteVer) w
      (w.rows ++ [row.recorded remoteVer (clock w.tick)]) w.remote none :=
  Done.setRemoteVersion
    (setRemoteVersion_of_eq hlog hcur rfl (hlog.pos hcur) hkey remoteVer) (done_complete none)

/-- There is nothing to record for a missing key. -/
theorem done_record_zero (hkey : env.keyRegex key = true) (remoteVer : ℕ) :
    Done env key clock (record 0 remoteVer) w w.rows w.remote (some .conflict) :=
  Done.setRemoteVersion (if_pos hkey) (done_complete _)

theorem Env.stored_store (hcrypt : ∀ v, env.chacha20Poly1305AEADDecrypt (env.encrypt v) = .ok v)
    (value : Bytes) : env.stored (env.store value) = .ok value := by
  rw [Env.stored, Env.store]
  split_ifs
  · rw [Env.decrypt, hcrypt]
    rfl
  · rfl

theorem Env.sent_send (hcrypt : ∀ v, env.chacha20Poly1305AEADDecrypt (env.encrypt v) = .ok v)
    (value : Bytes) : env.sent (env.send value) = .ok value := by
  rw [Env.sent, Env.send]
  split_ifs
  · rw [Env.decrypt, hcrypt]
    rfl
  · rfl

/-- The program completes, and if it does so without an error it leaves the key settled. -/
def Settles (env : Env) (key : String) (clock : ℕ → ℕ) (p : Sync) (w : World) : Prop :=
  ∃ rows remote e, Done env key clock p w rows remote e ∧
    (e = none → Settled env key rows remote)

theorem Done.settles_failed {p : Sync} {rows : Db} {remote : Option RemoteObject}
    {e : BRReplicatedKVStoreError} (h : Done env key clock p w rows remote (some e)) :
    Settles env key clock p w := ⟨rows, remote, some e, h, fun he => absurd he (Option.some_ne_none e)⟩

theorem Done.settles {p : Sync} {rows : Db} {remote : Option RemoteObject}
    {e : Option BRReplicatedKVStoreError} (h : Done env key clock p w rows remote e)
    (hs : Settled env key rows remote) : Settles env key clock p w :=
  ⟨rows, remote, e, h, fun _ => hs⟩

/-- Both sides hold the same value. -/
theorem settled_live {rows : Db} {value : Bytes} (hcur : current rows key = some row)
    (hrow : row.deleted = false) (hstored : env.stored row.value = .ok value)
    (hobj : obj.deleted = false) (hsent : env.sent obj.value = .ok value)
    (hversion : row.remote_version = obj.version) : Settled env key rows (some obj) := by
  unfold Settled
  simp only [hcur]
  refine ⟨hversion, some value, ?_, ?_⟩
  · rw [localContent, hcur, Option.bind_some, hrow, hstored]
    rfl
  · rw [remoteContent, Option.bind_some, hobj, hsent]
    rfl

/-- The key is deleted on both sides. -/
theorem settled_deleted {rows : Db} (hcur : current rows key = some row)
    (hrow : row.deleted = true) (hobj : obj.deleted = true)
    (hversion : row.remote_version = obj.version) : Settled env key rows (some obj) := by
  unfold Settled
  simp only [hcur]
  refine ⟨hversion, none, ?_, ?_⟩
  · rw [localContent, hcur, Option.bind_some, hrow]
    rfl
  · rw [remoteContent, Option.bind_some, hobj]
    rfl

/-! ## The parts of `_syncKey` -/

/-- The program completes without an error, and leaves the remote side and a key that is settled. -/
def Takes (env : Env) (key : String) (clock : ℕ → ℕ) (p : Sync) (w : World) : Prop :=
  ∃ rows, Done env key clock p w rows w.remote none ∧ Settled env key rows w.remote

theorem Takes.settles {p : Sync} (h : Takes env key clock p w) : Settles env key clock p w := by
  obtain ⟨rows, hdone, hs⟩ := h
  exact hdone.settles hs

/-- The current row is given the version of the remote key. -/
theorem record_takes (hkey : env.keyRegex key = true) (hlog : Logged w.rows)
    (hcur : current w.rows key = some row) (hremote : w.remote = some obj)
    (hs : ∀ rows time, current rows key = some (row.recorded obj.version time) →
      Settled env key rows (some obj)) :
    Takes env key clock (record row.version obj.version) w := by
  obtain ⟨-, hcur'⟩ := hlog.replace hcur (row.recorded obj.version (clock w.tick)) rfl rfl
  refine ⟨_, done_record hkey hlog hcur obj.version, ?_⟩
  rw [hremote]
  exact hs _ _ hcur'

/-- There is nothing to delete. -/
theorem done_deleteRemotely_missing (localVer version : ℕ) (hremote : w.remote = none) :
    Done env key clock (deleteRemotely localVer version) w w.rows none none :=
  Done.remoteDel (by rw [hremote, RemoteObject.del]) (done_complete none)

theorem deleteRemotely_settles (hkey : env.keyRegex key = true) (hlog : Logged w.rows)
    (hcur : current w.rows key = some row) (hrow : row.deleted = true)
    {value : Bytes} (hstored : env.stored row.value = .ok value) (remoteVer : ℕ) :
    Settles env key clock (deleteRemotely row.version remoteVer) w := by
  rcases RemoteObject.del_cases (r := w.remote) with ⟨hmissing, -⟩ | hdel | ⟨obj, hdel, hobj⟩
  · refine (done_deleteRemotely_missing row.version remoteVer hmissing).settles ?_
    unfold Settled
    simp only [hcur]
    exact ⟨hrow, value, hstored⟩
  · exact Done.settles_failed (Done.remoteDel hdel (done_complete _))
  · obtain ⟨rows, remote, e, hdone, hs⟩ : Settles env key clock
        (record row.version obj.version) (w.withRemote (some obj)) := by
      refine (record_takes (w := w.withRemote (some obj)) hkey hlog hcur rfl
        fun rows time hcur => ?_).settles
      exact settled_deleted hcur hrow hobj rfl
    exact ⟨rows, remote, e, Done.remoteDel hdel hdone, hs⟩

theorem upload_settles (hkey : env.keyRegex key = true) (hlog : Logged w.rows)
    (hcur : current w.rows key = some row) (hrow : row.deleted = false)
    {value : Bytes} (hstored : env.stored row.value = .ok value)
    (hsent : env.sent (env.send value) = .ok value) (recordedVer remoteVer : ℕ) :
    Settles env key clock (upload row.version (env.send value) recordedVer remoteVer) w := by
  rcases RemoteObject.put_cases (r := w.remote) with
    ⟨ver, e, hput⟩ | ⟨obj, hput, hobj, hvalue, -⟩
  · exact Done.settles_failed (Done.remotePut hput (done_complete _))
  · obtain ⟨rows, remote, e, hdone, hs⟩ : Settles env key clock
        (record row.version obj.version) (w.withRemote (some obj)) := by
      refine (record_takes (w := w.withRemote (some obj)) hkey hlog hcur rfl
        fun rows time hcur => ?_).settles
      exact settled_live hcur hrow hstored hobj (by rw [hvalue, hsent]) rfl
    exact ⟨rows, remote, e, Done.remotePut hput hdone, hs⟩

/-- A missing key is not uploaded with success. -/
theorem upload_settles_missing (hkey : env.keyRegex key = true) (value : Bytes)
    (recordedVer remoteVer : ℕ) :
    Settles env key clock (upload 0 value recordedVer remoteVer) w := by
  rcases RemoteObject.put_cases (r := w.remote) with ⟨ver, e, hput⟩ | ⟨obj, hput, -⟩
  · exact Done.settles_failed (Done.remotePut hput (done_complete _))
  · exact Done.settles_failed (Done.remotePut hput (done_record_zero hkey obj.version))

theorem deleteLocally_takes (hkey : env.keyRegex key = true) (hlog : Logged w.rows)
    (hcur : current w.rows key = some row) (hremote : w.remote = some obj)
    (hobj : obj.deleted = true) :
    Takes env key clock (deleteLocally row.version obj.version) w := by
  have hdel : KV.delRow key row.version (clock w.tick) w.rows =
      (.ok (row.version + 1, clock w.tick), w.rows ++ [row.removed (clock w.tick)]) :=
    delRow_of_eq hlog hcur rfl (hlog.pos hcur)
  obtain ⟨hlog', hcur'⟩ := hlog.replace hcur (row.removed (clock w.tick)) rfl rfl
  obtain ⟨-, hcur''⟩ := hlog'.replace hcur'
    ((row.removed (clock w.tick)).recorded obj.version (clock (w.tick + 1))) rfl rfl
  refine ⟨_, Done.delRow hdel (Done.setRemoteVersion (setRemoteVersion_of_eq hlog' hcur' rfl
    (Nat.succ_ne_zero _) hkey _) (done_complete none)), ?_⟩
  rw [hremote]
  exact settled_deleted hcur'' rfl hobj rfl

/-- That a missing key is deleted is no error. -/
theorem done_deleteLocally_missing (version : ℕ) :
    Done env key clock (deleteLocally 0 version) w w.rows w.remote none :=
  Done.delRow rfl (done_complete none)

theorem deleteLocally_takes_missing (hcur : current w.rows key = none)
    (hremote : w.remote = some obj) (hobj : obj.deleted = true) (hdate : obj.date ≠ 0) :
    Takes env key clock (deleteLocally 0 obj.version) w := by
  refine ⟨w.rows, done_deleteLocally_missing obj.version, ?_⟩
  rw [hremote]
  unfold Settled
  simp only [hcur]
  exact ⟨hobj, hdate⟩

theorem downloadFailed_settles (localVer : ℕ) (e : Thrown) :
    Settles env key clock (downloadFailed localVer e) w := by
  unfold downloadFailed
  split
  · exact Done.settles_failed (Done.req rfl (done_complete (some .malformedData)))
  · exact Done.settles_failed (done_complete _)

theorem get_live (hremote : w.remote = some obj) (hobj : obj.deleted = false) (now : ℕ) :
    RemoteObject.get obj.version now w.remote = (obj.version, obj.date, obj.value, none) := by
  rw [hremote, RemoteObject.get, if_neg (not_not.2 rfl), hobj]
  rfl

/-- The value of the remote key is stored as the next version. -/
theorem download_takes (hkey : env.keyRegex key = true) (hlog : Logged w.rows)
    (hstored : ∀ v, env.stored (env.store v) = .ok v) {localVer : ℕ}
    (hver : localVer = (localVersion w.rows key).1) (hremote : w.remote = some obj)
    (hobj : obj.deleted = false) {value : Bytes} (hsent : env.sent obj.value = .ok value) :
    Takes env key clock (download env localVer obj.version) w := by
  let row := Row.fetched env key value (localVer + 1) (clock (w.tick + 1))
  have hset : KV.setRow env key value localVer (clock (w.tick + 1)) w.rows =
      (.ok (localVer + 1, clock (w.tick + 1)), w.rows ++ [row]) :=
    setRow_of_eq hlog value hver
  obtain ⟨hlog', hcur'⟩ : Logged (w.rows ++ [row]) ∧ current (w.rows ++ [row]) key = some row :=
    hlog.current_append (congrArg (· + 1) hver)
  obtain ⟨-, hcur''⟩ := hlog'.replace hcur'
    (row.recorded obj.version (clock (w.tick + 2))) rfl rfl
  refine ⟨w.rows ++ [row] ++ [row.recorded obj.version (clock (w.tick + 2))],
    Done.remoteGet (get_live hremote hobj (clock w.tick)) ?_, ?_⟩
  · dsimp only
    rw [hsent]
    exact Done.setRow hset (Done.setRemoteVersion (setRemoteVersion_of_eq hlog' hcur' rfl
      (Nat.succ_ne_zero _) hkey _) (done_complete none))
  · rw [hremote]
    exact settled_live hcur'' rfl (hstored value) hobj hsent rfl

theorem download_settles (hkey : env.keyRegex key = true) (hlog : Logged w.rows)
    (hstored : ∀ v, env.stored (env.store v) = .ok v) {localVer : ℕ}
    (hver : localVer = (localVersion w.rows key).1) (hremote : w.remote = some obj)
    (hobj : obj.deleted = false) :
    Settles env key clock (download env localVer obj.version) w := by
  cases hsent : env.sent obj.value with
  | error e =>
    obtain ⟨rows, remote, e, hdone, hs⟩ := downloadFailed_settles localVer e
    refine ⟨rows, remote, e, Done.remoteGet (get_live hremote hobj (clock w.tick)) ?_, hs⟩
    dsimp only
    rw [hsent]
    exact hdone
  | ok value => exact (download_takes hkey hlog hstored hver hremote hobj hsent).settles

/-- A missing remote key cannot be read. -/
theorem done_download_missing (localVer version : ℕ) (hremote : w.remote = none) :
    Done env key clock (download env localVer version) w w.rows w.remote
      (some .replicationError) := by
  have hget : RemoteObject.get version (clock w.tick) w.remote =
      (0, clock w.tick, [], some .notFound) := by
    rw [hremote]
    rfl
  exact Done.remoteGet hget (done_complete (some .replicationError))

end

/-! ## A sync -/

section
variable {env : Env} {key : String} (clock : ℕ → ℕ) (date : ℕ) {w : World} {row : Row}
  {obj : RemoteObject}

/-- The world after what is read of it. -/
def World.read (w : World) (n : ℕ) : World := { w with tick := w.tick + n }

theorem syncOnce_invalid (hkey : env.keyRegex key = false) :
    syncOnce env key clock date w = (.error (.store .invalidKey), w.read 2) := by
  have hno : ¬ env.keyRegex key = true := by rw [hkey]; exact Bool.false_ne_true
  have hversion : KV.remoteVersion env key w.rows = (.error (.store .invalidKey), w.rows) :=
    if_neg hno
  rw [syncOnce]
  dsimp only [syncKeyKernel, Prog.exec, handle]
  rw [hversion]
  rfl

/-- Unless the remote version is recorded, the sides are compared. -/
theorem syncOnce_of_read (hkey : env.keyRegex key = true) {remoteVer remoteTime : ℕ}
    {remoteErr : Option BRRemoteKVStoreError}
    (hver : RemoteObject.ver date w.remote = (remoteVer, remoteTime, remoteErr))
    (recordedVer : ℕ) (hrecorded : recordedVer = (current w.rows key).elim 0 Row.remote_version)
    {result : Except Thrown (ℕ × ℕ × Bool × Bytes)}
    (hget : KV.get env key w.rows = (result, w.rows)) :
    syncOnce env key clock date w =
      if remoteErr ≠ some .notFound ∧ remoteVer > 0 ∧ recordedVer = remoteVer then
        (complete none).exec (handle env key clock) (w.read 2)
      else
        match localState env result with
        | .error e => (.error e, w.read 3)
        | .ok (localVer, localTime, localDeleted, localValue) =>
          (reconcile env recordedVer remoteVer remoteTime remoteErr localVer localTime localDeleted
            localValue).exec (handle env key clock) (w.read 3) := by
  have hversion : KV.remoteVersion env key w.rows = (.ok recordedVer, w.rows) := by
    rw [hrecorded]
    exact if_pos hkey
  have hread : handle env key clock .remoteVersion (w.read 1) = (.ok recordedVer, w.read 2) := by
    dsimp only [handle, World.read]
    rw [hversion]
    rfl
  have hlocal : handle env key clock .get (w.read 2) = (result, w.read 3) := by
    dsimp only [handle, World.read]
    rw [hget]
  rw [syncOnce, hver]
  exact syncKeyKernel_of_read remoteVer remoteTime remoteErr rfl hread hlocal

/-- The sides are not compared if the remote version is recorded. -/
theorem syncOnce_recorded (hkey : env.keyRegex key = true) (hcur : current w.rows key = some row)
    (hremote : w.remote = some obj) (hsame : row.remote_version = obj.version) :
    syncOnce env key clock date w =
      (.ok (), { w.read 3 with completions := w.completions ++ [none] }) := by
  have hnot : (if obj.deleted then some BRRemoteKVStoreError.tombstone else none) ≠
      some .notFound := by
    split_ifs
    · intro h
      cases h
    · intro h
      cases h
  have hver : RemoteObject.ver date w.remote =
      (obj.version, obj.date, if obj.deleted then some .tombstone else none) := by
    rw [hremote]
    rfl
  rw [syncOnce_of_read clock date hkey hver row.remote_version (by rw [hcur]; rfl)
    (get_of_some hkey hcur),
    if_pos ⟨hnot, obj.pos, hsame⟩]
  rfl

theorem syncOnce_missing (hkey : env.keyRegex key = true) (hcur : current w.rows key = none)
    {remoteVer remoteTime : ℕ} {remoteErr : Option BRRemoteKVStoreError}
    (hver : RemoteObject.ver date w.remote = (remoteVer, remoteTime, remoteErr)) :
    syncOnce env key clock date w =
      (reconcile env 0 remoteVer remoteTime remoteErr 0 0 false []).exec
        (handle env key clock) (w.read 3) := by
  rw [syncOnce_of_read clock date hkey hver 0 (by rw [hcur]; rfl) (get_of_none hkey hcur), if_neg]
  · rfl
  · rintro ⟨-, hpos, h0⟩
    omega

theorem stored_error {value : Bytes} {e : Thrown} (h : env.stored value = .error e) :
    e = .store .malformedData ∨ e = .other := by
  rw [Env.stored, Env.decrypt] at h
  split_ifs at h
  rcases hd : env.chacha20Poly1305AEADDecrypt value with (_ | _) | v
  · rw [hd] at h
    cases h
    exact Or.inl rfl
  · rw [hd] at h
    cases h
    exact Or.inr rfl
  · rw [hd] at h
    cases h

theorem syncOnce_row (hkey : env.keyRegex key = true) (hcur : current w.rows key = some row)
    {remoteVer remoteTime : ℕ} {remoteErr : Option BRRemoteKVStoreError}
    (hver : RemoteObject.ver date w.remote = (remoteVer, remoteTime, remoteErr))
    (hne : remoteVer > 0 → row.remote_version ≠ remoteVer) :
    syncOnce env key clock date w =
      match env.stored row.value with
      | .error e => (.error e, w.read 3)
      | .ok value =>
        (reconcile env row.remote_version remoteVer remoteTime remoteErr row.version row.thetime
          row.deleted (env.send value)).exec (handle env key clock) (w.read 3) := by
  rw [syncOnce_of_read clock date hkey hver row.remote_version (by rw [hcur]; rfl) (get_of_some hkey hcur),
    if_neg fun h => hne h.2.1 h.2.2]
  cases hstored : env.stored row.value with
  | ok value => rfl
  | error e =>
    rcases stored_error hstored with rfl | rfl
    · rfl
    · rfl

/-- Both sides of a key with a row are compared. -/
theorem reconcile_settles (hkey : env.keyRegex key = true) (hlog : Logged w.rows)
    (hcrypt : ∀ v, env.chacha20Poly1305AEADDecrypt (env.encrypt v) = .ok v)
    (hcur : current w.rows key = some row) {value : Bytes} (hstored : env.stored row.value = .ok value)
    {remoteVer remoteTime : ℕ} {remoteErr : Option BRRemoteKVStoreError}
    (hver : RemoteObject.ver date w.remote = (remoteVer, remoteTime, remoteErr)) :
    Settles env key clock (reconcile env row.remote_version remoteVer remoteTime remoteErr
      row.version row.thetime row.deleted (env.send value)) w := by
  have hlocal : row.version = (localVersion w.rows key).1 := (hlog.find_current hcur).2.1.symm
  have hlive : row.deleted = false → Settles env key clock
      (upload row.version (env.send value) row.remote_version remoteVer) w := fun hrow =>
    upload_settles hkey hlog hcur hrow hstored (env.sent_send hcrypt value) _ _
  have hremoved : row.deleted = true → Settles env key clock
      (deleteRemotely row.version remoteVer) w := fun hrow =>
    deleteRemotely_settles hkey hlog hcur hrow hstored _
  cases hremote : w.remote with
  | none =>
    rw [hremote] at hver
    cases hver
    rw [reconcile_of_ne (Or.inr rfl)]
    split_ifs with hnewer hrow
    · exact hremoved hrow
    · exact hlive (Bool.eq_false_of_not_eq_true hrow)
    · exact (done_download_missing _ _ hremote).settles_failed
  | some obj =>
    rw [hremote] at hver
    cases hobj : obj.deleted with
    | true =>
      cases (RemoteObject.ver_deleted hobj date).symm.trans hver
      rw [reconcile_tombstone]
      split_ifs with hrow hnewer
      · refine (record_takes hkey hlog hcur hremote fun rows time hcur => ?_).settles
        exact settled_deleted hcur hrow hobj rfl
      · exact hlive (Bool.eq_false_of_not_eq_true hrow)
      · exact (deleteLocally_takes hkey hlog hcur hremote hobj).settles
    | false =>
      cases (RemoteObject.ver_live hobj date).symm.trans hver
      rw [reconcile_of_ne (Or.inl rfl)]
      split_ifs with hnewer hrow
      · exact hremoved hrow
      · exact hlive (Bool.eq_false_of_not_eq_true hrow)
      · exact download_settles hkey hlog (env.stored_store hcrypt) hlocal hremote hobj

/-- The remote side of a missing key is compared with time zero. -/
theorem reconcile_settles_missing (hkey : env.keyRegex key = true) (hlog : Logged w.rows)
    (hcrypt : ∀ v, env.chacha20Poly1305AEADDecrypt (env.encrypt v) = .ok v)
    (hcur : current w.rows key = none) {remoteVer remoteTime : ℕ}
    {remoteErr : Option BRRemoteKVStoreError}
    (hver : RemoteObject.ver date w.remote = (remoteVer, remoteTime, remoteErr)) :
    Settles env key clock
      (reconcile env 0 remoteVer remoteTime remoteErr 0 0 false []) w := by
  have hlocal : 0 = (localVersion w.rows key).1 := by
    rw [localVersion, hcur]
    rfl
  cases hremote : w.remote with
  | none =>
    rw [hremote] at hver
    cases hver
    rw [reconcile_of_ne (Or.inr rfl), if_neg Bool.false_ne_true]
    split_ifs
    · exact upload_settles_missing hkey [] 0 0
    · exact (done_download_missing _ _ hremote).settles_failed
  | some obj =>
    rw [hremote] at hver
    cases hobj : obj.deleted with
    | true =>
      cases (RemoteObject.ver_deleted hobj date).symm.trans hver
      rw [reconcile_tombstone, if_neg Bool.false_ne_true]
      split_ifs with hnewer
      · exact upload_settles_missing hkey [] 0 _
      · exact (deleteLocally_takes_missing hcur hremote hobj (by omega)).settles
    | false =>
      cases (RemoteObject.ver_live hobj date).symm.trans hver
      rw [reconcile_of_ne (Or.inl rfl), if_neg Bool.false_ne_true]
      split_ifs
      · exact upload_settles_missing hkey [] 0 _
      · exact download_settles hkey hlog (env.stored_store hcrypt) hlocal hremote hobj

/-- A sync throws before it changes anything, or it completes and has settled the key. -/
theorem syncOnce_cases (hkey : env.keyRegex key = true) (hlog : Logged w.rows)
    (hcrypt : ∀ v, env.chacha20Poly1305AEADDecrypt (env.encrypt v) = .ok v)
    (hsame : ∀ row obj, current w.rows key = some row → w.remote = some obj →
      row.remote_version = obj.version → Agree env key w.rows w.remote) :
    (∃ e tick, syncOnce env key clock date w = (.error e, { w with tick })) ∨
    ∃ rows remote e tick, syncOnce env key clock date w =
      (.ok (), { rows, remote, completions := w.completions ++ [e], tick }) ∧
      (e = none → Settled env key rows remote) := by
  rcases hver : RemoteObject.ver date w.remote with ⟨remoteVer, remoteTime, remoteErr⟩
  cases hcur : current w.rows key with
  | none =>
    obtain ⟨rows, remote, e, ⟨tick, hdone⟩, hs⟩ :=
      reconcile_settles_missing clock date (w := w.read 3) hkey hlog hcrypt hcur hver
    exact Or.inr ⟨rows, remote, e, tick, (syncOnce_missing clock date hkey hcur hver).trans hdone, hs⟩
  | some row =>
    by_cases hrecorded : remoteVer > 0 ∧ row.remote_version = remoteVer
    · obtain ⟨obj, hremote, hversion⟩ : ∃ obj, w.remote = some obj ∧ remoteVer = obj.version := by
        cases hremote : w.remote with
        | none =>
          rw [hremote] at hver
          cases hver
          exact absurd hrecorded.1 (Nat.lt_irrefl 0)
        | some obj =>
          rw [hremote] at hver
          exact ⟨obj, rfl, (congrArg Prod.fst hver).symm⟩
      have hversion' : row.remote_version = obj.version := hrecorded.2.trans hversion
      refine Or.inr ⟨w.rows, w.remote, none, w.tick + 3,
        syncOnce_recorded clock date hkey hcur hremote hversion', fun _ => ?_⟩
      have hagree := hsame row obj hcur hremote hversion'
      rw [hremote] at hagree ⊢
      unfold Settled
      simp only [hcur]
      exact ⟨hversion', hagree⟩
    · have hrow := syncOnce_row clock date hkey hcur hver fun hpos heq => hrecorded ⟨hpos, heq⟩
      cases hstored : env.stored row.value with
      | error e =>
        rw [hstored] at hrow
        exact Or.inl ⟨e, w.tick + 3, hrow⟩
      | ok value =>
        rw [hstored] at hrow
        obtain ⟨rows, remote, e, ⟨tick, hdone⟩, hs⟩ :=
          reconcile_settles clock date (w := w.read 3) hkey hlog hcrypt hcur hstored hver
        exact Or.inr ⟨rows, remote, e, tick, hrow.trans hdone, hs⟩

/-- A sync that succeeds settles the key. -/
theorem sync_settled (hlog : Logged w.rows)
    (hcrypt : ∀ v, env.chacha20Poly1305AEADDecrypt (env.encrypt v) = .ok v)
    (hsame : env.keyRegex key = true → ∀ row obj, current w.rows key = some row →
      w.remote = some obj → row.remote_version = obj.version → Agree env key w.rows w.remote)
    (hok : Succeeds env key clock date w) :
    Settled env key (syncOnce env key clock date w).2.rows
      (syncOnce env key clock date w).2.remote := by
  have hnot : w.completions ≠ w.completions ++ [none] := fun h => by simp at h
  rw [Succeeds] at hok
  cases hkey : env.keyRegex key with
  | false =>
    rw [syncOnce_invalid clock date hkey] at hok
    exact absurd hok hnot
  | true =>
    rcases syncOnce_cases clock date hkey hlog hcrypt (hsame hkey) with
      ⟨e, tick, h⟩ | ⟨rows, remote, e, tick, h, hs⟩
    · rw [h] at hok
      exact absurd hok hnot
    · rw [h] at hok ⊢
      exact hs (List.singleton_inj.1 (List.append_cancel_left hok))

theorem Settled.agree {rows : Db} {remote : Option RemoteObject}
    (h : Settled env key rows remote) : Agree env key rows remote := by
  unfold Settled at h
  cases hcur : current rows key with
  | none =>
    cases remote with
    | none => simp only [hcur] at h
    | some obj =>
      simp only [hcur] at h
      refine ⟨none, ?_, ?_⟩
      · rw [localContent, hcur]
        rfl
      · rw [remoteContent, Option.bind_some, h.1]
        rfl
  | some row =>
    cases remote with
    | none =>
      simp only [hcur] at h
      refine ⟨none, ?_, rfl⟩
      rw [localContent, hcur, Option.bind_some, h.1]
      rfl
    | some obj =>
      simp only [hcur] at h
      exact h.2

theorem Settled.recorded {rows : Db} (h : Settled env key rows (some obj))
    (hcur : current rows key = some row) : row.remote_version = obj.version := by
  unfold Settled at h
  simp only [hcur] at h
  exact h.1

/-- A sync of a key that is settled changes nothing. -/
theorem settled_stable (h : Settled env key w.rows w.remote) :
    (syncOnce env key clock date w).2.rows = w.rows ∧
      (syncOnce env key clock date w).2.remote = w.remote := by
  cases hkey : env.keyRegex key with
  | false =>
    rw [syncOnce_invalid clock date hkey]
    exact ⟨rfl, rfl⟩
  | true =>
    unfold Settled at h
    cases hcur : current w.rows key with
    | none =>
      cases hremote : w.remote with
      | none => simp only [hcur, hremote] at h
      | some obj =>
        simp only [hcur, hremote] at h
        obtain ⟨hobj, hdate⟩ := h
        have hver : RemoteObject.ver date w.remote = (obj.version, obj.date, some .tombstone) := by
          rw [hremote, RemoteObject.ver_deleted hobj]
        obtain ⟨tick, hdone⟩ : Done env key clock (deleteLocally 0 obj.version) (w.read 3) w.rows
            w.remote none := done_deleteLocally_missing obj.version
        rw [syncOnce_missing clock date hkey hcur hver, reconcile_tombstone, if_neg Bool.false_ne_true,
          if_neg (by omega), hdone]
        exact ⟨rfl, hremote⟩
    | some row =>
      cases hremote : w.remote with
      | none =>
        simp only [hcur, hremote] at h
        obtain ⟨hrow, value, hstored⟩ := h
        have hver : RemoteObject.ver date w.remote = (0, date, some .notFound) := by
          rw [hremote]
          rfl
        rw [syncOnce_row clock date hkey hcur hver fun hpos => absurd hpos (Nat.lt_irrefl 0), hstored]
        dsimp only
        rw [reconcile_of_ne (Or.inr rfl), if_pos hrow]
        split_ifs
        · obtain ⟨tick, hdone⟩ : Done env key clock (deleteRemotely row.version 0) (w.read 3) w.rows
              none none := done_deleteRemotely_missing row.version 0 hremote
          rw [hdone]
          exact ⟨rfl, rfl⟩
        · obtain ⟨tick, hdone⟩ : Done env key clock (download env row.version 0) (w.read 3) w.rows
              w.remote (some .replicationError) := done_download_missing row.version 0 hremote
          rw [hdone]
          exact ⟨rfl, hremote⟩
      | some obj =>
        simp only [hcur, hremote] at h
        rw [syncOnce_recorded clock date hkey hcur hremote h.1]
        exact ⟨rfl, hremote⟩

/-- A key that neither side has is created exactly if it is dated to the epoch. -/
theorem creates_iff (hkey : env.keyRegex key = true) (hcur : current w.rows key = none)
    (hremote : w.remote = none) :
    ((syncOnce env key clock date w).2.rows = w.rows ∧
      (syncOnce env key clock date w).2.remote = none) ↔ date ≠ 0 := by
  have hver : RemoteObject.ver date w.remote = (0, date, some .notFound) := by
    rw [hremote]
    rfl
  rw [syncOnce_missing clock date hkey hcur hver, reconcile_of_ne (Or.inr rfl), if_neg Bool.false_ne_true]
  by_cases hdate : date = 0
  · rw [if_pos (by omega)]
    refine iff_of_false ?_ (not_not.2 hdate)
    rintro ⟨-, hnone⟩
    obtain ⟨tick, hdone⟩ : Done env key clock (upload 0 [] 0 0) (w.read 3) w.rows
        (some ⟨1, clock (w.read 3).tick, [], false, Nat.one_pos⟩) (some .conflict) :=
      Done.remotePut (by rw [show (w.read 3).remote = none from hremote])
        (done_record_zero hkey 1)
    rw [hdone] at hnone
    cases hnone
  · rw [if_neg (by omega)]
    refine iff_of_true ?_ hdate
    obtain ⟨tick, hdone⟩ : Done env key clock (download env 0 0) (w.read 3) w.rows w.remote
        (some .replicationError) := done_download_missing 0 0 hremote
    rw [hdone]
    exact ⟨rfl, hremote⟩

/-- A sync makes both sides agree for good exactly if they agree where the remote version is
    recorded already, and a key that neither side has is not dated to the epoch. -/
theorem converges_iff (hcrypt : ∀ v, env.chacha20Poly1305AEADDecrypt (env.encrypt v) = .ok v)
    (hlog : Logged w.rows) :
    Converges env key clock date w ↔ Consistent env key date w := by
  constructor
  · intro h hkey
    refine ⟨fun hcur hremote => ?_, fun row obj hcur hremote hversion => ?_⟩
    · exact (creates_iff clock date hkey hcur hremote).1 (h.creates hcur hremote)
    · have hsync := syncOnce_recorded clock date hkey hcur hremote hversion
      have hagree := h.agree (by rw [Succeeds, hsync])
      rw [hsync] at hagree
      exact hagree
  · intro h
    have hsettled := sync_settled clock date hlog hcrypt fun hkey => (h hkey).2
    refine ⟨fun hok => (hsettled hok).agree, fun hok row obj hcur hremote => ?_,
      fun hok clock' date' => settled_stable clock' date' (hsettled hok), fun hcur hremote => ?_⟩
    · have hs := hsettled hok
      rw [hremote] at hs
      exact hs.recorded hcur
    · cases hkey : env.keyRegex key with
      | false =>
        rw [syncOnce_invalid clock date hkey]
        exact ⟨rfl, hremote⟩
      | true => exact (creates_iff clock date hkey hcur hremote).2 ((h hkey).1 hcur hremote)

/-- A sync that succeeds makes both sides agree for good, if they agree where the remote version is
    recorded already; and unless it is dated to the epoch, a key that neither side has is not
    created. -/
theorem sync_converges (hcrypt : ∀ v, env.chacha20Poly1305AEADDecrypt (env.encrypt v) = .ok v)
    (hlog : Logged w.rows) (h : Consistent env key date w) : Converges env key clock date w :=
  (converges_iff clock date hcrypt hlog).2 h

end

/-- A value of a device that is older than the remote one. -/
def staleWorld : World where
  rows := [⟨1, 0, "hello", [1], 5, false⟩]
  remote := some ⟨1, 9, [2], false, Nat.one_pos⟩

theorem sync_converges_stale :
    (∀ v, plainEnv.chacha20Poly1305AEADDecrypt (plainEnv.encrypt v) = .ok v) ∧
      Logged staleWorld.rows ∧ Converges plainEnv "hello" id 0 staleWorld := by
  have hcrypt : ∀ v, plainEnv.chacha20Poly1305AEADDecrypt (plainEnv.encrypt v) = .ok v :=
    fun _ => rfl
  have hlog : Logged staleWorld.rows := Logged.nil.append rfl
  refine ⟨hcrypt, hlog, sync_converges id 0 hcrypt hlog fun _ => ⟨?_, ?_⟩⟩
  · intro hcur hremote
    cases hremote
  · rintro row obj hcur hremote hversion
    cases hcur
    cases hremote
    cases hversion

/-- Sides that differ at the recorded version stay so, and a key that neither side has is created
    with the date of the epoch. -/
theorem not_sync_converges :
    ¬ Converges plainEnv "hello" id 0
        { staleWorld with rows := [⟨1, 1, "hello", [1], 5, false⟩] } ∧
      ¬ Converges plainEnv "hello" id 0 { rows := [], remote := none } := by
  refine ⟨fun h => ?_, fun h => ?_⟩
  · obtain ⟨content, hlocal, hremote⟩ := h.agree rfl
    have hsame : some (Except.ok [1] : Except Thrown Bytes) = some (.ok [2]) :=
      hlocal.trans hremote.symm
    cases hsame
  · cases (h.creates rfl rfl).2

end KV

end RavenWallet
