/-
  Syncing a key with the remote store (`_syncKey` of BRReplicatedKVStore.swift).

  `_syncKey` is a program: its requests are those to the local store, to the
  remote store and to the completion handler.  The remote store accepts a write
  only with the version it has, as the adaptor of BRReplicatedKVStoreTests.swift.
-/
import RavenWallet.KV.Store
import RavenWallet.Lib.Prog

namespace RavenWallet

namespace KV

/-! ## Requests -/

/-- What `_syncKey` asks for; the key is left out. -/
inductive Req where
  | syncRunning
  | remoteVersion
  | get
  | setRemoteVersion (localVer remoteVer : ℕ)
  | setRow (value : Bytes) (localVer : ℕ)
  | delRow (localVer : ℕ)
  | del (localVer : ℕ)
  | remotePut (value : Bytes) (version : ℕ)
  | remoteDel (version : ℕ)
  | remoteGet (version : ℕ)
  | complete (e : Option BRReplicatedKVStoreError)

def Req.Res : Req → Type
  | syncRunning => Bool
  | remoteVersion => Except Thrown ℕ
  | get => Except Thrown (ℕ × ℕ × Bool × Bytes)
  | setRemoteVersion .. => Except Thrown (ℕ × ℕ)
  | setRow .. => Except Thrown (ℕ × ℕ)
  | delRow _ => Except Thrown (ℕ × ℕ)
  | del _ => Except Thrown (ℕ × ℕ)
  | remotePut .. => ℕ × ℕ × Option BRRemoteKVStoreError
  | remoteDel _ => ℕ × ℕ × Option BRRemoteKVStoreError
  | remoteGet _ => ℕ × ℕ × Bytes × Option BRRemoteKVStoreError
  | complete _ => Unit

/-- A part of `_syncKey`, which throws or returns. -/
abbrev Sync := Prog Req.Res (Except Thrown Unit)

/-! ## `_syncKey` -/

/-- `return completionHandler(e)`. -/
def complete (e : Option BRReplicatedKVStoreError) : Sync :=
  .req (.complete e) fun _ => .ret (.ok ())

/-- The error that is passed to the completion handler for one that is caught. -/
def caught : Thrown → BRReplicatedKVStoreError
  | .store e => e
  | .other => .replicationError

/-- Records the remote version, and completes. -/
def record (localVer remoteVer : ℕ) : Sync :=
  .req (.setRemoteVersion localVer remoteVer) fun
    | .ok _ => complete none
    | .error e => complete (some (caught e))

/-- The local key was deleted, so the remote one is. -/
def deleteRemotely (localVer remoteVer : ℕ) : Sync :=
  .req (.remoteDel remoteVer) fun
    | (_, _, some .notFound) => complete none
    | (_, _, some _) => complete (some .replicationError)
    | (newRemoteVer, _, none) => record localVer newRemoteVer

/-- The local value is newer. -/
def upload (localVer : ℕ) (localValue : Bytes) (recordedRemoteVersion remoteVer : ℕ) : Sync :=
  let useRemoteVer :=
    if remoteVer = 0 ∨ remoteVer < recordedRemoteVersion then 1 else remoteVer
  .req (.remotePut localValue useRemoteVer) fun
    | (_, _, some _) => complete (some .replicationError)
    | (newRemoteVer, _, none) => record localVer newRemoteVer

/-- The remote key was deleted, so the local one is; that it is not found is no error. -/
def deleteLocally (localVer remoteVer : ℕ) : Sync :=
  .req (.delRow localVer) fun
    | .error (.store .notFound) => complete none
    | .error e => complete (some (caught e))
    | .ok (newLocalVer, _) => .req (.setRemoteVersion newLocalVer remoteVer) fun
      | .error (.store .notFound) => complete none
      | .error e => complete (some (caught e))
      | .ok _ => complete none

/-- What is caught of a download: after malformed data the local key is deleted. -/
def downloadFailed (localVer : ℕ) : Thrown → Sync
  | .store .malformedData => .req (.del localVer) fun _ => complete (some .malformedData)
  | e => complete (some (caught e))

/-- The remote value is newer. -/
def download (env : Env) (localVer remoteVer : ℕ) : Sync :=
  .req (.remoteGet remoteVer) fun
    | (_, _, _, some _) => complete (some .replicationError)
    | (newRemoteVer, _, remoteData, none) =>
      match env.sent remoteData with
      | .error e => downloadFailed localVer e
      | .ok value => .req (.setRow value localVer) fun
        | .error e => downloadFailed localVer e
        | .ok (newLocalVer, _) => .req (.setRemoteVersion newLocalVer newRemoteVer) fun
          | .error e => downloadFailed localVer e
          | .ok _ => complete none

/-- The two sides are compared by their times. -/
def reconcile (env : Env) (recordedRemoteVersion remoteVer remoteTime : ℕ)
    (remoteErr : Option BRRemoteKVStoreError) (localVer localTime : ℕ) (localDeleted : Bool)
    (localValue : Bytes) : Sync :=
  if remoteErr = none ∨ remoteErr = some .tombstone ∨ remoteErr = some .notFound then
    if localDeleted = true ∧ remoteErr = some .tombstone then record localVer remoteVer
    else if localTime > remoteTime ∨ localTime = remoteTime then
      if localDeleted then deleteRemotely localVer remoteVer
      else upload localVer localValue recordedRemoteVersion remoteVer
    else if remoteErr = some .tombstone then deleteLocally localVer remoteVer
    else download env localVer remoteVer
  else complete (some .replicationError)

section
variable {env : Env} {recordedVer remoteVer remoteTime localVer localTime : ℕ}
  {localDeleted : Bool} {localValue : Bytes}

/-- Without a tombstone. -/
theorem reconcile_of_ne {remoteErr : Option BRRemoteKVStoreError}
    (h : remoteErr = none ∨ remoteErr = some .notFound) :
    reconcile env recordedVer remoteVer remoteTime remoteErr localVer localTime localDeleted
      localValue =
    if localTime ≥ remoteTime then
      if localDeleted then deleteRemotely localVer remoteVer
      else upload localVer localValue recordedVer remoteVer
    else download env localVer remoteVer := by
  have hne : remoteErr ≠ some .tombstone := by
    rcases h with rfl | rfl <;> simp
  have hany : remoteErr = none ∨ remoteErr = some .tombstone ∨ remoteErr = some .notFound :=
    h.imp_right Or.inr
  rw [reconcile, if_pos hany, if_neg fun hboth => hne hboth.2]
  simp only [if_neg hne, gt_iff_lt, ge_iff_le, le_iff_lt_or_eq, eq_comm]

theorem reconcile_tombstone :
    reconcile env recordedVer remoteVer remoteTime (some .tombstone) localVer localTime
      localDeleted localValue =
    if localDeleted then record localVer remoteVer
    else if localTime ≥ remoteTime then upload localVer localValue recordedVer remoteVer
    else deleteLocally localVer remoteVer := by
  rw [reconcile, if_pos (Or.inr (Or.inl rfl))]
  cases localDeleted with
  | true => rw [if_pos ⟨rfl, rfl⟩, if_pos rfl]
  | false =>
    rw [if_neg (by simp), if_neg Bool.false_ne_true]
    simp only [if_neg Bool.false_ne_true, gt_iff_lt, ge_iff_le, le_iff_lt_or_eq, eq_comm, if_true]

end

/-- What was read from the local store; a missing key is one without a version, of time zero. -/
def localState (env : Env) :
    Except Thrown (ℕ × ℕ × Bool × Bytes) → Except Thrown (ℕ × ℕ × Bool × Bytes)
  | .ok (ver, time, deleted, value) =>
    .ok (ver, time, deleted, env.send value)
  | .error (.store .notFound) => .ok (0, 0, false, [])
  | .error e => .error e

/-- `_syncKey`. -/
def syncKeyKernel (env : Env) (remoteVer remoteTime : ℕ)
    (remoteErr : Option BRRemoteKVStoreError) : Sync :=
  .req .syncRunning fun
    | false => .ret (.error (.store .unknown))
    | true => .req .remoteVersion fun
      | .error e => .ret (.error e)
      | .ok recordedRemoteVersion =>
        if remoteErr ≠ some .notFound ∧ remoteVer > 0 ∧ recordedRemoteVersion = remoteVer then
          complete none
        else .req .get fun r =>
          match localState env r with
          | .error e => .ret (.error e)
          | .ok (localVer, localTime, localDeleted, localValue) =>
            reconcile env recordedRemoteVersion remoteVer remoteTime remoteErr localVer localTime
              localDeleted localValue

section
variable {σ : Type} {env : Env} {h : (r : Req) → σ → r.Res × σ} {s s₁ s₂ s₃ : σ}
  {recordedVer : ℕ} {result : Except Thrown (ℕ × ℕ × Bool × Bytes)}

/-- Unless the remote version is recorded, the local state is compared with the remote one. -/
theorem syncKeyKernel_of_read (remoteVer remoteTime : ℕ) (remoteErr : Option BRRemoteKVStoreError)
    (hrun : h .syncRunning s = (true, s₁)) (hrec : h .remoteVersion s₁ = (.ok recordedVer, s₂))
    (hget : h .get s₂ = (result, s₃)) :
    (syncKeyKernel env remoteVer remoteTime remoteErr).exec h s =
      if remoteErr ≠ some .notFound ∧ remoteVer > 0 ∧ recordedVer = remoteVer then
        (complete none).exec h s₂
      else
        match localState env result with
        | .error e => (.error e, s₃)
        | .ok (localVer, localTime, localDeleted, localValue) =>
          (reconcile env recordedVer remoteVer remoteTime remoteErr localVer localTime localDeleted
            localValue).exec h s₃ := by
  rw [syncKeyKernel, Prog.exec, hrun]
  dsimp only
  rw [Prog.exec, hrec]
  dsimp only
  split_ifs with hsame
  · rfl
  · rw [Prog.exec, hget]
    dsimp only
    cases localState env result with
    | error e => rfl
    | ok v => rfl

end

/-! ## The remote store -/

/-- A key in the remote store; versions are positive. -/
structure RemoteObject where
  version : ℕ
  date : ℕ
  value : Bytes
  deleted : Bool
  pos : 0 < version

namespace RemoteObject

/-- `ver`; `date` is what a missing key is answered with. -/
def ver (date : ℕ) : Option RemoteObject → ℕ × ℕ × Option BRRemoteKVStoreError
  | none => (0, date, some .notFound)
  | some obj => (obj.version, obj.date, if obj.deleted then some .tombstone else none)

def get (version now : ℕ) : Option RemoteObject → ℕ × ℕ × Bytes × Option BRRemoteKVStoreError
  | none => (0, now, [], some .notFound)
  | some obj =>
    if version ≠ obj.version then (0, now, [], some .conflict)
    else (obj.version, obj.date, obj.value, if obj.deleted then some .tombstone else none)

def put (value : Bytes) (version now : ℕ) :
    Option RemoteObject → (ℕ × ℕ × Option BRRemoteKVStoreError) × Option RemoteObject
  | none =>
    if version ≠ 1 then ((1, now, some .notFound), none)
    else ((1, now, none), some ⟨1, now, value, false, Nat.one_pos⟩)
  | some obj =>
    if version ≠ obj.version then ((0, now, some .conflict), some obj)
    else ((obj.version + 1, now, none), some ⟨obj.version + 1, now, value, false, Nat.succ_pos _⟩)

def del (version now : ℕ) :
    Option RemoteObject → (ℕ × ℕ × Option BRRemoteKVStoreError) × Option RemoteObject
  | none => ((0, now, some .notFound), none)
  | some obj =>
    if version ≠ obj.version then ((0, now, some .conflict), some obj)
    else
      ((obj.version + 1, now, none), some ⟨obj.version + 1, now, obj.value, true, Nat.succ_pos _⟩)

section
variable {version now : ℕ} {value : Bytes} {r : Option RemoteObject}

theorem ver_deleted {obj : RemoteObject} (h : obj.deleted = true) (date : ℕ) :
    ver date (some obj) = (obj.version, obj.date, some .tombstone) := by
  rw [ver, if_pos h]

theorem ver_live {obj : RemoteObject} (h : obj.deleted = false) (date : ℕ) :
    ver date (some obj) = (obj.version, obj.date, none) := by
  rw [ver, h, if_neg Bool.false_ne_true]

/-- A write is refused, or makes a new version. -/
theorem put_cases : (∃ ver e, put value version now r = ((ver, now, some e), r)) ∨
    ∃ obj, put value version now r = ((obj.version, now, none), some obj) ∧
      obj.deleted = false ∧ obj.value = value ∧ obj.date = now := by
  cases r with
  | none =>
    rw [put]
    split_ifs
    · exact Or.inl ⟨_, _, rfl⟩
    · exact Or.inr ⟨⟨1, now, value, false, Nat.one_pos⟩, rfl, rfl, rfl, rfl⟩
  | some obj =>
    rw [put]
    split_ifs
    · exact Or.inl ⟨_, _, rfl⟩
    · exact Or.inr ⟨⟨obj.version + 1, now, value, false, Nat.succ_pos _⟩, rfl, rfl, rfl, rfl⟩

/-- The key is missing, or its deletion is refused or makes a new version. -/
theorem del_cases : (r = none ∧ del version now r = ((0, now, some .notFound), none)) ∨
    del version now r = ((0, now, some .conflict), r) ∨
    ∃ obj, del version now r = ((obj.version, now, none), some obj) ∧ obj.deleted = true := by
  cases r with
  | none => exact Or.inl ⟨rfl, rfl⟩
  | some obj =>
    rw [del]
    split_ifs
    · exact Or.inr (Or.inl rfl)
    · exact Or.inr (Or.inr ⟨⟨obj.version + 1, now, obj.value, true, Nat.succ_pos _⟩, rfl, rfl⟩)

end

end RemoteObject

/-! ## A device and the remote store -/

/-- The local table, the remote key, and the errors that were completed with; `tick` counts the
    requests. -/
structure World where
  rows : Db
  remote : Option RemoteObject
  completions : List (Option BRReplicatedKVStoreError) := []
  tick : ℕ := 0

/-- The answers of both stores to a request; `clock` are the readings of their clocks. -/
def handle (env : Env) (key : String) (clock : ℕ → ℕ) (r : Req) (w : World) : r.Res × World :=
  let now := clock w.tick
  let w := { w with tick := w.tick + 1 }
  let onRows {α : Type} (f : Db → Except Thrown α × Db) : Except Thrown α × World :=
    ((f w.rows).1, { w with rows := (f w.rows).2 })
  match r with
  | .syncRunning => (true, w)
  | .remoteVersion => onRows (KV.remoteVersion env key)
  | .get => onRows (KV.get env key)
  | .setRemoteVersion localVer remoteVer =>
    onRows (KV.setRemoteVersion env key localVer remoteVer now)
  | .setRow value localVer => onRows (KV.setRow env key value localVer now)
  | .delRow localVer => onRows (KV.delRow key localVer now)
  | .del localVer => onRows (KV.del env key localVer now)
  | .remotePut value version =>
    ((RemoteObject.put value version now w.remote).1,
      { w with remote := (RemoteObject.put value version now w.remote).2 })
  | .remoteDel version =>
    ((RemoteObject.del version now w.remote).1,
      { w with remote := (RemoteObject.del version now w.remote).2 })
  | .remoteGet version => (RemoteObject.get version now w.remote, w)
  | .complete e => ((), { w with completions := w.completions ++ [e] })

/-- `_syncKey` with what `ver` answers; `date` is its answer for a missing key. -/
def syncOnce (env : Env) (key : String) (clock : ℕ → ℕ) (date : ℕ) (w : World) :
    Except Thrown Unit × World :=
  let (remoteVer, remoteTime, remoteErr) := RemoteObject.ver date w.remote
  (syncKeyKernel env remoteVer remoteTime remoteErr).exec (handle env key clock) w

end KV

end RavenWallet
