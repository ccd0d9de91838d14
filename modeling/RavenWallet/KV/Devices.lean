/-
  Devices that share a remote store (`syncKey` of BRReplicatedKVStore.swift).

  Each device has its table, and for each key a sync that may run.  A step
  is a `set` or `del` of a device, the start of a sync, or one of its requests, so
  that the requests of all syncs interleave; the clocks are arbitrary.

  * `step_sound`, `run_sound`: what the tables hold can be read, in every run;
  * `takesRemote_iff`: when a sync takes the remote value, and makes no write;
  * `newer_taken_iff`: this, for the keys without a local change since a sync.
-/
import RavenWallet.KV.Converge
import RavenWallet.Lib.Reach

namespace RavenWallet

namespace KV

/-! ## Steps -/

/-- The tables and the remote store, the syncs that are running, and the keys that a device has not
    changed since its last sync of them that succeeded. -/
structure Cloud (D : Type) where
  rows : D → Db
  remote : String → Option RemoteObject
  running : D → String → Option Sync
  synced : D → String → Bool

/-- What devices do, at a time of the clock that is read; `date` is the answer of `ver` for a missing
    key, and a sync is `listed` if `syncAllKeys` starts it. -/
inductive CloudOp (D : Type) where
  | set (d : D) (key : String) (value : Bytes) (localVer now : ℕ)
  | del (d : D) (key : String) (localVer now : ℕ)
  | start (d : D) (key : String) (date : ℕ) (listed : Bool)
  | advance (d : D) (key : String) (now : ℕ)

section
variable {D : Type} [DecidableEq D] (env : Env)

namespace Cloud

/-- `f d key` is set to `a`. -/
def update {α : Type} (f : D → String → α) (d : D) (key : String) (a : α) : D → String → α :=
  Function.update f d (Function.update (f d) key a)

/-- What a device and the remote store have of a key. -/
def world (c : Cloud D) (d : D) (key : String) : World := { rows := c.rows d, remote := c.remote key }

/-- A local operation; one that succeeds is a local change. -/
def write (c : Cloud D) (d : D) (key : String) (f : Db → Except Thrown (ℕ × ℕ) × Db) : Cloud D :=
  let (result, rows) := f (c.rows d)
  { c with rows := Function.update c.rows d rows
           synced := if result.isOk then update c.synced d key false else c.synced }

/-- The remote version is asked for; a key that `keys` does not list has version and time zero.  With
    an invalid key a sync only throws. -/
def start (c : Cloud D) (d : D) (key : String) (date : ℕ) (listed : Bool) : Cloud D :=
  if env.keyRegex key = true ∧ (c.running d key).isNone then
    let answer :=
      if listed ∧ (c.remote key).isNone then (0, 0, none) else RemoteObject.ver date (c.remote key)
    { c with running := update c.running d key
               (some (syncKeyKernel env answer.1 answer.2.1 answer.2.2)) }
  else c

/-- Whether the program completes without an error. -/
def completes : Sync → Bool
  | .req (.complete none) _ => true
  | _ => false

/-- A sync makes its next request, or it has returned. -/
def advance (c : Cloud D) (d : D) (key : String) (now : ℕ) : Cloud D :=
  match c.running d key with
  | none => c
  | some (.ret _) => { c with running := update c.running d key none }
  | some p =>
    let (p', w) := p.step (handle env key fun _ => now) (c.world d key)
    { rows := Function.update c.rows d w.rows
      remote := Function.update c.remote key w.remote
      running := update c.running d key (some p')
      synced := if completes p then update c.synced d key true else c.synced }

def step (c : Cloud D) : CloudOp D → Cloud D
  | .set d key value localVer now => c.write d key (KV.set env key value localVer now)
  | .del d key localVer now => c.write d key (KV.del env key localVer now)
  | .start d key date listed => c.start env d key date listed
  | .advance d key now => c.advance env d key now

/-- At first there is nothing. -/
def init : Cloud D where
  rows _ := []
  remote _ := none
  running _ _ := none
  synced _ _ := false

/-- The runs of devices. -/
def system : System (Cloud D) (CloudOp D) where
  init c := c = init
  step c op c' := c' = c.step env op

end Cloud

/-! ## A sync among other ones -/

/-- The write was accepted by the remote store. -/
def Req.accepted : (r : Req) → r.Res → Bool
  | .remotePut .., (_, _, e) => e.isNone
  | .remoteDel _, (_, _, e) => e.isNone
  | _, _ => false

/-- `handle` when other devices change the remote key before each request; counts whether a write
    was accepted. -/
def handleAmong (others : ℕ → Option RemoteObject → Option RemoteObject) (key : String)
    (clock : ℕ → ℕ) (r : Req) (s : World × Bool) : r.Res × World × Bool :=
  let (a, w) := handle env key clock r { s.1 with remote := others s.1.tick s.1.remote }
  (a, w, s.2 || r.accepted a)

/-- A write of the sync is accepted. -/
def overwrites (others : ℕ → Option RemoteObject → Option RemoteObject) (key : String)
    (clock : ℕ → ℕ) (date : ℕ) (w : World) : Bool :=
  let (remoteVer, remoteTime, remoteErr) := RemoteObject.ver date w.remote
  ((syncKeyKernel env remoteVer remoteTime remoteErr).exec (handleAmong env others key clock)
    (w, false)).2.2

/-- The sync takes the remote value, and whatever other devices do it makes no write. -/
structure TakesRemote (key : String) (clock : ℕ → ℕ) (date : ℕ) (w : World) : Prop where
  agree : Agree env key (syncOnce env key clock date w).2.rows w.remote
  keeps : ∀ others, overwrites env others key clock date w = false

/-- The current row is deleted. -/
def isDeleted (rows : Db) (key : String) : Bool := (current rows key).elim false Row.deleted

/-- The key is deleted on both sides, or the local row is older than the remote key, and its value
    can be decrypted. -/
def Dated (key : String) (rows : Db) (obj : RemoteObject) : Prop :=
  (isDeleted rows key = true ∧ obj.deleted = true) ∨
    ((localVersion rows key).2 < obj.date ∧
      (obj.deleted = false → ∃ value, env.sent obj.value = .ok value))

/-- The versions count the rows, and what they hold can be read. -/
def Sound (rows : Db) : Prop :=
  Logged rows ∧ ∀ row ∈ rows, ∃ value, env.stored row.value = .ok value

end

/-! ## What the tables hold -/

section
variable {env : Env} {rows rows' : Db} {key : String} {localVer now : ℕ}

theorem Sound.nil : Sound env [] := by
  refine ⟨Logged.nil, ?_⟩
  intro row hrow
  cases hrow

theorem Sound.append (h : Sound env rows) {row : Row}
    (hversion : row.version = (localVersion rows row.key).1 + 1)
    (hvalue : ∃ value, env.stored row.value = .ok value) : Sound env (rows ++ [row]) := by
  refine ⟨h.1.append hversion, ?_⟩
  intro r hr
  rcases List.mem_append.1 hr with hr | hr
  · exact h.2 r hr
  · rw [List.mem_singleton] at hr
    rw [hr]
    exact hvalue

theorem Sound.txnAt (h : Sound env rows) {stmt : ℕ → Db → Except Thrown Unit × Db}
    (hstmt : Sound env (stmt (localVersion rows key).1 rows).2) :
    Sound env (KV.txnAt key localVer now stmt rows).2 := by
  rw [KV.txnAt, txn]
  dsimp only
  split_ifs with hne
  · exact h
  · rcases hresult : stmt (localVersion rows key).1 rows with ⟨_ | _, rows'⟩
    · exact h
    · rw [hresult] at hstmt
      exact hstmt

theorem Sound.insert (h : Sound env rows) {row : Row}
    (hversion : row.version = (localVersion rows row.key).1 + 1)
    (hvalue : ∃ value, env.stored row.value = .ok value) :
    Sound env (KV.insert row rows).2 := by
  rw [h.1.insert_next hversion]
  exact h.append hversion hvalue

/-- A copy has the value of the row. -/
theorem Sound.insertCopy (h : Sound env rows) {change : Row → Row}
    (hkey : ∀ row, (change row).key = row.key) (hvalue : ∀ row, (change row).value = row.value)
    (hversion : ∀ row, (change row).version = (localVersion rows key).1 + 1) :
    Sound env (KV.insertCopy key (localVersion rows key).1 change rows).2 := by
  rw [KV.insertCopy]
  cases hfind : rows.find? fun r => r.key = key ∧ r.version = (localVersion rows key).1 with
  | none => exact h
  | some row =>
    have hfound := List.find?_some hfind
    rw [decide_eq_true_eq] at hfound
    refine h.insert ?_ ?_
    · rw [hversion, hkey, hfound.1]
    · rw [hvalue]
      exact h.2 row (List.mem_of_find?_eq_some hfind)

theorem Sound.checkKey {α : Type} {f : Db → Except Thrown α × Db} (h : Sound env rows)
    (hf : Sound env (f rows).2) : Sound env (KV.checkKey env key f rows).2 := by
  rw [KV.checkKey]
  split_ifs
  · exact hf
  · exact h

theorem Sound.setRow (h : Sound env rows) (hstored : ∀ v, env.stored (env.store v) = .ok v)
    (value : Bytes) : Sound env (KV.setRow env key value localVer now rows).2 :=
  h.txnAt (h.insert rfl ⟨value, hstored value⟩)

theorem Sound.delRow (h : Sound env rows) : Sound env (KV.delRow key localVer now rows).2 := by
  rw [KV.delRow]
  split_ifs
  · exact h
  · exact h.txnAt (h.insertCopy (fun _ => rfl) (fun _ => rfl) fun _ => rfl)

theorem Sound.setRemoteVersion (h : Sound env rows) (remoteVer : ℕ) :
    Sound env (KV.setRemoteVersion env key localVer remoteVer now rows).2 := by
  refine h.checkKey ?_
  split_ifs
  · exact h
  · exact h.txnAt (h.insertCopy (fun _ => rfl) (fun _ => rfl) fun _ => rfl)

theorem get_rows : (KV.get env key rows).2 = rows := by
  by_cases hkey : env.keyRegex key = true
  · cases hcur : current rows key with
    | none => rw [get_of_none hkey hcur]
    | some row => rw [get_of_some hkey hcur]
  · rw [KV.get, KV.checkKey, if_neg hkey]

/-- Each request leaves a table that can be read. -/
theorem handle_sound (hstored : ∀ v, env.stored (env.store v) = .ok v) {clock : ℕ → ℕ} (r : Req)
    (w : World) (h : Sound env w.rows) : Sound env (handle env key clock r w).2.rows := by
  cases r with
  | syncRunning => exact h
  | remoteVersion => exact h.checkKey h
  | get =>
    change Sound env (KV.get env key w.rows).2
    rw [get_rows]
    exact h
  | setRemoteVersion localVer remoteVer => exact h.setRemoteVersion remoteVer
  | setRow value localVer => exact h.setRow hstored value
  | delRow localVer => exact h.delRow
  | del localVer => exact h.checkKey h.delRow
  | remotePut value version => exact h
  | remoteDel version => exact h
  | remoteGet version => exact h
  | complete e => exact h

end

/-! ## Runs -/

section
variable {D : Type} [DecidableEq D] {env : Env} {c c' : Cloud D}

/-- The tables can be read, and the keys that are synced are valid. -/
structure Cloud.Sound (env : Env) (c : Cloud D) : Prop where
  rows : ∀ d, KV.Sound env (c.rows d)
  running : ∀ d key, c.running d key ≠ none → env.keyRegex key = true
  synced : ∀ d key, c.synced d key = true → env.keyRegex key = true

theorem Cloud.update_cases {α : Type} {P : String → α → Prop} {f : D → String → α} {d : D}
    {key : String} {a : α} (h : ∀ d key, P key (f d key)) (ha : P key a) (d' : D) (key' : String) :
    P key' (Cloud.update f d key a d' key') := by
  rw [Cloud.update]
  by_cases hd : d' = d
  · subst hd
    rw [Function.update_self]
    by_cases hkey : key' = key
    · subst hkey
      rwa [Function.update_self]
    · rw [Function.update_of_ne hkey]
      exact h d' key'
  · rw [Function.update_of_ne hd]
    exact h d' key'

theorem Cloud.update_rows {rows : D → Db} {d : D} {r : Db} (h : ∀ d, KV.Sound env (rows d))
    (hr : KV.Sound env r) (d' : D) : KV.Sound env (Function.update rows d r d') := by
  by_cases hd : d' = d
  · subst hd
    rwa [Function.update_self]
  · rw [Function.update_of_ne hd]
    exact h d'

theorem Cloud.write_sound (h : c.Sound env) (d : D) (key : String)
    {f : Db → Except Thrown (ℕ × ℕ) × Db} (hf : KV.Sound env (f (c.rows d)).2) :
    (c.write d key f).Sound env := by
  refine ⟨Cloud.update_rows h.rows hf, h.running, ?_⟩
  intro d' key' hsynced
  rw [Cloud.write] at hsynced
  dsimp only at hsynced
  split_ifs at hsynced
  · exact Cloud.update_cases (P := fun key b => b = true → env.keyRegex key = true)
      h.synced (fun hfalse => absurd hfalse Bool.false_ne_true) d' key' hsynced
  · exact h.synced d' key' hsynced

theorem Cloud.start_sound (h : c.Sound env) (d : D) (key : String) (date : ℕ) (listed : Bool) :
    (c.start env d key date listed).Sound env := by
  rw [Cloud.start]
  by_cases hstart : env.keyRegex key = true ∧ (c.running d key).isNone = true
  · rw [if_pos hstart]
    refine ⟨h.rows, ?_, h.synced⟩
    exact Cloud.update_cases (P := fun key p => p ≠ none → env.keyRegex key = true) h.running
      fun _ => hstart.1
  · rw [if_neg hstart]
    exact h

theorem Cloud.advance_sound (hstored : ∀ v, env.stored (env.store v) = .ok v) (h : c.Sound env)
    (d : D) (key : String) (now : ℕ) : (c.advance env d key now).Sound env := by
  have hrunning : ∀ p, c.running d key ≠ none → ∀ d' key',
      Cloud.update c.running d key p d' key' ≠ none → env.keyRegex key' = true := by
    intro p hrun
    exact Cloud.update_cases (P := fun key p => p ≠ none → env.keyRegex key = true) h.running
      fun _ => h.running d key hrun
  unfold Cloud.advance
  split
  · exact h
  · rename_i hrun
    exact ⟨h.rows, hrunning none (by rw [hrun]; exact Option.some_ne_none _), h.synced⟩
  · rename_i p _ hrun
    have hrun' : c.running d key ≠ none := by
      rw [hrun]
      exact Option.some_ne_none _
    have hrows : KV.Sound env (p.step (handle env key fun _ => now) (c.world d key)).2.rows :=
      Prog.step_invariant (I := fun w : World => KV.Sound env w.rows) (handle_sound hstored)
        (h.rows d)
    refine ⟨Cloud.update_rows h.rows hrows, hrunning _ hrun', ?_⟩
    intro d' key' hsynced
    dsimp only at hsynced
    split_ifs at hsynced
    · exact Cloud.update_cases (P := fun key b => b = true → env.keyRegex key = true) h.synced
        (fun _ => h.running d key hrun') d' key' hsynced
    · exact h.synced d' key' hsynced

theorem Cloud.step_sound (hstored : ∀ v, env.stored (env.store v) = .ok v) (h : c.Sound env)
    (op : CloudOp D) : (c.step env op).Sound env := by
  cases op with
  | set d key value localVer now =>
    exact c.write_sound h d key ((h.rows d).checkKey ((h.rows d).setRow hstored value))
  | del d key localVer now => exact c.write_sound h d key ((h.rows d).checkKey (h.rows d).delRow)
  | start d key date listed => exact c.start_sound h d key date listed
  | advance d key now => exact c.advance_sound hstored h d key now

theorem run_sound (hstored : ∀ v, env.stored (env.store v) = .ok v)
    (h : (Cloud.system env).Run (fun _ _ => True) c) : c.Sound env := by
  induction h with
  | init h =>
    cases h
    refine ⟨fun _ => Sound.nil, fun _ _ hrun => absurd rfl hrun, ?_⟩
    intro _ _ hsynced
    exact absurd hsynced Bool.false_ne_true
  | step _ _ hstep ih =>
    cases hstep
    exact Cloud.step_sound hstored ih _

end

/-! ## Which side is taken -/

section
variable {env : Env} {key : String} {clock : ℕ → ℕ} {date : ℕ} {w : World} {obj : RemoteObject}
  {others : ℕ → Option RemoteObject → Option RemoteObject}

/-- What is compared with the remote side. -/
theorem localState_of_sound (hkey : env.keyRegex key = true) (h : Sound env w.rows) :
    ∃ value, localState env (KV.get env key w.rows).1 =
      .ok ((localVersion w.rows key).1, (localVersion w.rows key).2, isDeleted w.rows key, value) := by
  rw [localVersion, isDeleted]
  cases hcur : current w.rows key with
  | none =>
    rw [get_of_none hkey hcur]
    exact ⟨[], rfl⟩
  | some row =>
    obtain ⟨value, hvalue⟩ := h.2 row (mem_rowsOf.1 (List.argmax_mem hcur)).1
    rw [get_of_some hkey hcur, hvalue]
    exact ⟨env.send value, rfl⟩

/-- What a sync does after it has read the local state. -/
def compared (env : Env) (key : String) (rows : Db) (obj : RemoteObject) (value : Bytes) : Sync :=
  reconcile env ((current rows key).elim 0 Row.remote_version) obj.version obj.date
    (if obj.deleted then some .tombstone else none) (localVersion rows key).1
    (localVersion rows key).2 (isDeleted rows key) value

theorem overwrites_eq (others : ℕ → Option RemoteObject → Option RemoteObject) (clock : ℕ → ℕ)
    (date : ℕ) (hkey : env.keyRegex key = true) (hremote : w.remote = some obj)
    (hnewer : (current w.rows key).elim 0 Row.remote_version ≠ obj.version) {value : Bytes}
    (hlocal : localState env (KV.get env key w.rows).1 = .ok ((localVersion w.rows key).1,
      (localVersion w.rows key).2, isDeleted w.rows key, value)) :
    ∃ remote, overwrites env others key clock date w =
      ((compared env key w.rows obj value).exec (handleAmong env others key clock)
        ({ w.read 3 with remote }, false)).2.2 ∧
      ((∀ n r, others n r = r) → remote = some obj) := by
  have hversion : KV.remoteVersion env key w.rows =
      (.ok ((current w.rows key).elim 0 Row.remote_version), w.rows) := if_pos hkey
  let remote₁ := others w.tick w.remote
  let remote₂ := others (w.tick + 1) remote₁
  let remote₃ := others (w.tick + 2) remote₂
  have hread : handleAmong env others key clock .remoteVersion
      ({ w.read 1 with remote := remote₁ }, false) =
      (.ok ((current w.rows key).elim 0 Row.remote_version),
        { w.read 2 with remote := remote₂ }, false) := by
    dsimp only [handleAmong, handle, World.read]
    rw [hversion]
    rfl
  have hget : handleAmong env others key clock .get ({ w.read 2 with remote := remote₂ }, false) =
      ((KV.get env key w.rows).1, { w.read 3 with remote := remote₃ }, false) := by
    dsimp only [handleAmong, handle, World.read]
    rw [get_rows]
    rfl
  refine ⟨remote₃, ?_, ?_⟩
  · rw [overwrites, hremote, RemoteObject.ver]
    dsimp only
    rw [syncKeyKernel_of_read obj.version obj.date _ rfl hread hget, if_neg fun h => hnewer h.2.2,
      hlocal]
    rfl
  · intro hid
    change others _ (others _ (others _ w.remote)) = some obj
    rw [hid, hid, hid, hremote]

theorem syncOnce_compared (hkey : env.keyRegex key = true) (hremote : w.remote = some obj)
    (hnewer : (current w.rows key).elim 0 Row.remote_version ≠ obj.version) {value : Bytes}
    (hlocal : localState env (KV.get env key w.rows).1 = .ok ((localVersion w.rows key).1,
      (localVersion w.rows key).2, isDeleted w.rows key, value)) :
    syncOnce env key clock date w =
      (compared env key w.rows obj value).exec (handle env key clock) (w.read 3) := by
  have hver : RemoteObject.ver date w.remote =
      (obj.version, obj.date, if obj.deleted then some .tombstone else none) := by
    rw [hremote]
    rfl
  have hget : KV.get env key w.rows = ((KV.get env key w.rows).1, w.rows) :=
    Prod.ext rfl get_rows
  rw [syncOnce_of_read clock date hkey hver _ rfl hget, if_neg fun h => hnewer h.2.2, hlocal]
  rfl

/-- The program makes no write. -/
abbrev Keeps (p : Sync) : Prop := p.Asks fun r => ∀ a, r.accepted a = false

theorem Keeps.exec {p : Sync} (h : Keeps p) {s : World × Bool} (hs : s.2 = false) :
    (p.exec (handleAmong env others key clock) s).2.2 = false := by
  refine Prog.Asks.exec (I := fun s : World × Bool => s.2 = false) h ?_ hs
  intro r s hr hs
  change (s.2 || r.accepted _) = false
  rw [hs, hr]
  rfl

/-- Once a write is accepted, the sync has overwritten the remote key. -/
theorem overwritten_exec {p : Sync} {s : World × Bool} (hs : s.2 = true) :
    (p.exec (handleAmong env others key clock) s).2.2 = true := by
  refine Prog.Asks.exec (I := fun s : World × Bool => s.2 = true) Prog.asks_true ?_ hs
  intro r s _ hs
  change (s.2 || r.accepted _) = true
  rw [hs]
  rfl

theorem complete_keeps (e : Option BRReplicatedKVStoreError) : Keeps (complete e) :=
  ⟨fun _ => rfl, fun _ => trivial⟩

theorem record_keeps (localVer remoteVer : ℕ) : Keeps (record localVer remoteVer) := by
  refine ⟨fun _ => rfl, ?_⟩
  rintro (e | r)
  · exact complete_keeps _
  · exact complete_keeps _

theorem deleteLocally_keeps (localVer remoteVer : ℕ) : Keeps (deleteLocally localVer remoteVer) := by
  refine ⟨fun _ => rfl, ?_⟩
  rintro ((e | _) | ⟨newLocalVer, time⟩)
  · cases e <;> exact complete_keeps _
  · exact complete_keeps _
  · refine ⟨fun _ => rfl, ?_⟩
    rintro ((e | _) | r)
    · cases e <;> exact complete_keeps _
    · exact complete_keeps _
    · exact complete_keeps _

theorem downloadFailed_keeps (localVer : ℕ) (e : Thrown) : Keeps (downloadFailed localVer e) := by
  unfold downloadFailed
  split
  · exact ⟨fun _ => rfl, fun _ => complete_keeps _⟩
  · exact complete_keeps _

theorem download_keeps (localVer remoteVer : ℕ) : Keeps (download env localVer remoteVer) := by
  refine ⟨fun _ => rfl, ?_⟩
  rintro ⟨newRemoteVer, date, data, _ | e⟩
  · dsimp only
    cases env.sent data with
    | error e => exact downloadFailed_keeps localVer e
    | ok value =>
      refine ⟨fun _ => rfl, ?_⟩
      rintro (e | ⟨newLocalVer, time⟩)
      · exact downloadFailed_keeps localVer e
      · refine ⟨fun _ => rfl, ?_⟩
        rintro (e | r)
        · exact downloadFailed_keeps localVer e
        · exact complete_keeps _
  · exact complete_keeps _

theorem compared_deleted (hobj : obj.deleted = true) (rows : Db) (value : Bytes) :
    compared env key rows obj value =
      if isDeleted rows key then record (localVersion rows key).1 obj.version
      else if (localVersion rows key).2 ≥ obj.date then
        upload (localVersion rows key).1 value ((current rows key).elim 0 Row.remote_version)
          obj.version
      else deleteLocally (localVersion rows key).1 obj.version := by
  rw [compared, if_pos hobj, reconcile_tombstone]

theorem compared_live (hobj : obj.deleted = false) (rows : Db) (value : Bytes) :
    compared env key rows obj value =
      if (localVersion rows key).2 ≥ obj.date then
        if isDeleted rows key then deleteRemotely (localVersion rows key).1 obj.version
        else upload (localVersion rows key).1 value ((current rows key).elim 0 Row.remote_version)
          obj.version
      else download env (localVersion rows key).1 obj.version := by
  rw [compared, hobj, if_neg Bool.false_ne_true, reconcile_of_ne (Or.inl rfl)]

/-- An older local row, or a key deleted on both sides, is not written to the remote store. -/
theorem compared_keeps (h : Dated env key w.rows obj) (value : Bytes) :
    Keeps (compared env key w.rows obj value) := by
  cases hobj : obj.deleted with
  | true =>
    rw [compared_deleted hobj]
    split_ifs with hrow hnewer
    · exact record_keeps _ _
    · rcases h with ⟨hdeleted, -⟩ | ⟨hlt, -⟩
      · exact absurd hdeleted hrow
      · exact absurd hlt (Nat.not_lt.2 hnewer)
    · exact deleteLocally_keeps _ _
  | false =>
    have hlt : (localVersion w.rows key).2 < obj.date := by
      rcases h with ⟨-, hdeleted⟩ | ⟨hlt, -⟩
      · exact absurd (hobj.symm.trans hdeleted) Bool.false_ne_true
      · exact hlt
    rw [compared_live hobj, if_neg (Nat.not_le.2 hlt)]
    exact download_keeps _ _

section
variable {localVer recordedVer : ℕ} {value : Bytes}

/-- A write with the version of the remote key is accepted. -/
theorem upload_overwrites (hnewer : recordedVer < obj.version) {tick : ℕ}
    (hid : ∀ n r, others n r = r) :
    ((upload localVer value recordedVer obj.version).exec (handleAmong env others key clock)
      ({ w with remote := some obj, tick }, false)).2.2 = true := by
  have hpos := obj.pos
  have hput : RemoteObject.put value obj.version (clock tick) (others tick (some obj)) =
      ((obj.version + 1, clock tick, none),
        some ⟨obj.version + 1, clock tick, value, false, Nat.succ_pos _⟩) := by
    rw [hid, RemoteObject.put, if_neg (not_not.2 rfl)]
  rw [upload, if_neg (by omega), Prog.exec]
  refine overwritten_exec ?_
  dsimp only [handleAmong, handle]
  rw [hput]
  rfl

theorem deleteRemotely_overwrites {tick : ℕ} (hid : ∀ n r, others n r = r) :
    ((deleteRemotely localVer obj.version).exec (handleAmong env others key clock)
      ({ w with remote := some obj, tick }, false)).2.2 = true := by
  have hdel : RemoteObject.del obj.version (clock tick) (others tick (some obj)) =
      ((obj.version + 1, clock tick, none),
        some ⟨obj.version + 1, clock tick, obj.value, true, Nat.succ_pos _⟩) := by
    rw [hid, RemoteObject.del, if_neg (not_not.2 rfl)]
  rw [deleteRemotely, Prog.exec]
  refine overwritten_exec ?_
  dsimp only [handleAmong, handle]
  rw [hdel]
  rfl

end

/-- A local row that is not older overwrites the remote key, if it is not deleted on both sides. -/
theorem compared_overwrites (hnewer : (current w.rows key).elim 0 Row.remote_version < obj.version)
    (hdeleted : ¬ (isDeleted w.rows key = true ∧ obj.deleted = true))
    (hdate : (localVersion w.rows key).2 ≥ obj.date) {tick : ℕ} (value : Bytes)
    (hid : ∀ n r, others n r = r) :
    ((compared env key w.rows obj value).exec (handleAmong env others key clock)
      ({ w with remote := some obj, tick }, false)).2.2 = true := by
  cases hobj : obj.deleted with
  | true =>
    rw [compared_deleted hobj, if_neg fun hrow => hdeleted ⟨hrow, hobj⟩, if_pos hdate]
    exact upload_overwrites hnewer hid
  | false =>
    rw [compared_live hobj, if_pos hdate]
    split_ifs
    · exact deleteRemotely_overwrites hid
    · exact upload_overwrites hnewer hid

/-- The remote side of a key is taken. -/
theorem compared_takes (hkey : env.keyRegex key = true) (hlog : Logged w.rows)
    (hcrypt : ∀ v, env.chacha20Poly1305AEADDecrypt (env.encrypt v) = .ok v)
    (hremote : w.remote = some obj) (h : Dated env key w.rows obj) (value : Bytes) :
    Takes env key clock (compared env key w.rows obj value) w := by
  cases hobj : obj.deleted with
  | true =>
    rw [compared_deleted hobj]
    cases hcur : current w.rows key with
    | none =>
      have hlocal : localVersion w.rows key = (0, 0) := by
        rw [localVersion, hcur]
        rfl
      have hrow : isDeleted w.rows key = false := by
        rw [isDeleted, hcur]
        rfl
      have hlt : 0 < obj.date := by
        rcases h with ⟨hdeleted, -⟩ | ⟨hlt, -⟩
        · exact absurd (hrow.symm.trans hdeleted) Bool.false_ne_true
        · rwa [hlocal] at hlt
      rw [hlocal, hrow, if_neg Bool.false_ne_true, if_neg (by omega)]
      exact deleteLocally_takes_missing hcur hremote hobj (by omega)
    | some row =>
      have hversion : (localVersion w.rows key).1 = row.version := (hlog.find_current hcur).2.1
      rw [hversion]
      split_ifs with hrow hnewer
      · refine record_takes hkey hlog hcur hremote fun rows time hcur' => ?_
        rw [isDeleted, hcur] at hrow
        exact settled_deleted hcur' hrow hobj rfl
      · rcases h with ⟨hdeleted, -⟩ | ⟨hlt, -⟩
        · exact absurd hdeleted hrow
        · exact absurd hlt (Nat.not_lt.2 hnewer)
      · exact deleteLocally_takes hkey hlog hcur hremote hobj
  | false =>
    rcases h with ⟨-, hdeleted⟩ | ⟨hlt, hsent⟩
    · exact absurd (hobj.symm.trans hdeleted) Bool.false_ne_true
    · obtain ⟨value, hsent⟩ := hsent hobj
      rw [compared_live hobj, if_neg (Nat.not_le.2 hlt)]
      exact download_takes hkey hlog (env.stored_store hcrypt) rfl hremote hobj hsent

/-- A sync takes a newer version of the remote key, and makes no write, exactly if the local row is
    older than it or the key is deleted on both sides. -/
theorem takesRemote_iff (hkey : env.keyRegex key = true)
    (hcrypt : ∀ v, env.chacha20Poly1305AEADDecrypt (env.encrypt v) = .ok v)
    (hsound : Sound env w.rows) (hremote : w.remote = some obj)
    (hnewer : (current w.rows key).elim 0 Row.remote_version < obj.version) :
    TakesRemote env key clock date w ↔ Dated env key w.rows obj := by
  obtain ⟨value, hlocal⟩ := localState_of_sound hkey hsound
  constructor
  · intro h
    by_cases hdeleted : isDeleted w.rows key = true ∧ obj.deleted = true
    · exact Or.inl hdeleted
    · refine Or.inr ⟨?_, ?_⟩
      · by_contra hdate
        obtain ⟨remote, heq, hid⟩ := overwrites_eq (fun _ r => r) clock date hkey hremote
          hnewer.ne hlocal
        rw [hid fun _ _ => rfl] at heq
        refine Bool.false_ne_true ((h.keeps fun _ r => r).symm.trans (heq.trans ?_))
        exact compared_overwrites hnewer hdeleted (Nat.not_lt.1 hdate) value fun _ _ => rfl
      · intro hobj
        obtain ⟨content, -, hcontent⟩ := h.agree
        rw [hremote, remoteContent, Option.bind_some, hobj, if_neg Bool.false_ne_true] at hcontent
        cases content with
        | none => cases hcontent
        | some value => exact ⟨value, Option.some_inj.1 hcontent⟩
  · intro h
    refine ⟨?_, fun others => ?_⟩
    · obtain ⟨rows, ⟨tick, hdone⟩, hs⟩ : Takes env key clock (compared env key w.rows obj value)
          (w.read 3) := compared_takes (w := w.read 3) hkey hsound.1 hcrypt hremote h value
      rw [syncOnce_compared hkey hremote hnewer.ne hlocal]
      rw [hdone]
      exact hs.agree
    · obtain ⟨remote, heq, -⟩ := overwrites_eq others clock date hkey hremote hnewer.ne hlocal
      rw [heq]
      exact (compared_keeps h value).exec rfl

/-- In every run, a sync of a key that was not changed locally since the last one takes a newer
    version of the remote key, and makes no write, exactly if the local row is older than it or the
    key is deleted on both sides. -/
theorem newer_taken_iff {D : Type} [DecidableEq D] {c : Cloud D}
    (hcrypt : ∀ v, env.chacha20Poly1305AEADDecrypt (env.encrypt v) = .ok v)
    (hrun : (Cloud.system env).Run (fun _ _ => True) c) (d : D) (key : String)
    (hsynced : c.synced d key = true) (hremote : c.remote key = some obj)
    (hnewer : (current (c.rows d) key).elim 0 Row.remote_version < obj.version) (clock : ℕ → ℕ)
    (date : ℕ) :
    TakesRemote env key clock date (c.world d key) ↔ Dated env key (c.rows d) obj := by
  have hsound := run_sound (env.stored_store hcrypt) hrun
  exact takesRemote_iff (hsound.synced d key hsynced) hcrypt (hsound.rows d) hremote hnewer

end

theorem run_ops {D : Type} [DecidableEq D] {env : Env} (ops : List (CloudOp D)) {c : Cloud D}
    (h : (Cloud.system env).Run (fun _ _ => True) c) :
    (Cloud.system env).Run (fun _ _ => True) (ops.foldl (Cloud.step env) c) := by
  induction ops generalizing c with
  | nil => exact h
  | cons op ops ih => exact ih (.step h trivial rfl)

/-- A device syncs a value, and another one syncs a newer value after that. -/
def timelyOps : List (CloudOp Bool) :=
  [.set false "hello" [1] 0 1, .start false "hello" 1 false] ++
    List.replicate 6 (.advance false "hello" 2) ++ [.start true "hello" 3 false] ++
    List.replicate 8 (.advance true "hello" 3) ++
    [.set true "hello" [2] 2 4, .start true "hello" 4 false] ++
    List.replicate 6 (.advance true "hello" 5)

def timely : Cloud Bool := timelyOps.foldl (Cloud.step plainEnv) Cloud.init

theorem newer_taken_timely : timely.remote "hello" = some ⟨2, 5, [2], false, Nat.succ_pos 1⟩ ∧
    TakesRemote plainEnv "hello" id 0 (timely.world false "hello") := by
  have hremote : timely.remote "hello" = some ⟨2, 5, [2], false, Nat.succ_pos 1⟩ := by rfl
  refine ⟨hremote, (newer_taken_iff (fun _ => rfl) (run_ops timelyOps (.init rfl)) false "hello"
    (by decide +kernel) hremote (by decide +kernel) id 0).2 (Or.inr ⟨by decide +kernel, ?_⟩)⟩
  intro _
  exact ⟨[2], rfl⟩

/-- A device uploads a value, and before it has recorded the version another one uploads a newer
    value. -/
def raceOps : List (CloudOp Bool) :=
  [.set false "hello" [1] 0 1, .start false "hello" 1 false] ++
    List.replicate 4 (.advance false "hello" 2) ++
    [.set true "hello" [2] 0 3, .start true "hello" 3 false] ++
    List.replicate 6 (.advance true "hello" 4) ++ List.replicate 2 (.advance false "hello" 5)

def race : Cloud Bool := raceOps.foldl (Cloud.step plainEnv) Cloud.init

/-- The value that the other device has uploaded is overwritten with the older one. -/
theorem not_newer_taken : ¬ ∀ (c : Cloud Bool) (d : Bool) (key : String) (obj : RemoteObject),
    (Cloud.system plainEnv).Run (fun _ _ => True) c → c.synced d key = true →
    c.remote key = some obj → (current (c.rows d) key).elim 0 Row.remote_version < obj.version →
    TakesRemote plainEnv key id 0 (c.world d key) := by
  intro h
  have htakes := h race false "hello" ⟨2, 4, [2], false, Nat.succ_pos 1⟩ (run_ops raceOps (.init rfl))
    (by decide +kernel) (by rfl) (by decide +kernel)
  obtain ⟨content, hlocal, hremote⟩ := htakes.agree
  have hsame : some (Except.ok [1] : Except Thrown Bytes) = some (.ok [2]) :=
    hlocal.trans hremote.symm
  cases hsame

end KV

end RavenWallet
