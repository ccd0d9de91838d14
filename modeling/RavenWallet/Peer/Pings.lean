/-
  Pings (`BRPeerSendPing`, `BRPeerSendMempool` and the pong of a peer).

  The callbacks that wait for a pong are what of `pings` is behind those that were
  called (`Answered`).  A callback that was passed with a mempool request is called, is
  handed on to wait for a pong, or is the one that is kept (`Settled`).

  * `Receives.kept` and `handle_kept`: what a message and a step do to the queue;
  * `run_answered`: at the end every callback was called once, in order.
-/
import Mathlib.Data.List.Perm.Basic
import RavenWallet.Peer.Connection

namespace RavenWallet

/-- The calls of the callbacks that are not `NULL`. -/
def invoked (pings : List (Ptr × Option ℕ)) (success : Bool) : List (ℕ × Ptr × Bool) :=
  pings.flatMap fun p => called p.2 p.1 success

theorem invoked_append (pings pings' : List (Ptr × Option ℕ)) (success : Bool) :
    invoked (pings ++ pings') success = invoked pings success ++ invoked pings' success :=
  List.flatMap_append

theorem invoked_singleton (info : Ptr) (callback : Option ℕ) (success : Bool) :
    invoked [(info, callback)] success = called callback info success := by
  simp [invoked]

/-- What a callback was called with, in the order in which it was passed. -/
def callArgs (call : ℕ × Ptr × Bool) : Ptr × ℕ := (call.2.1, call.1)

theorem called_args (callback : Option ℕ) (info : Ptr) (success : Bool) :
    (called callback info success).map callArgs = (callback.map fun k => (info, k)).toList := by
  cases callback <;> rfl

theorem called_failed {callback : Option ℕ} {info : Ptr} {call : ℕ × Ptr × Bool}
    (h : call ∈ called callback info false) : call.2.2 = false := by
  cases callback with
  | none => cases h
  | some k => rw [List.mem_singleton.1 h]

namespace BRPeerConnection

open BRPeerContext

/-- The callbacks in `done` were called, with success as far as there were pongs, and the ones
    behind them are in the queue. -/
structure Answered (c : BRPeerConnection) (done : List (Ptr × Option ℕ)) : Prop where
  pings : c.pings = done ++ c.pongInfo.zip c.pongCallback
  parallel : c.pongInfo.length = c.pongCallback.length
  waiting : c.ctx.pongCallback = c.pongCallback.length
  pongs : c.pongs ≤ done.length
  running : c.running = true → done.length = c.pongs
  calls : c.calls = invoked (done.take c.pongs) true ++ invoked (done.drop c.pongs) false
  disconnected : c.disconnected = true → c.pongCallback = []

/-- What was passed with a mempool request was called with failure, handed on, or is kept. -/
structure Settled (c : BRPeerConnection) : Prop where
  mempool : c.ctx.mempoolCallback = c.mempoolCallback.isSome
  completions : c.completions.Perm (c.mempoolCalls.map callArgs ++
    (c.handedOn ++ (c.mempoolCallback.map fun k => (c.mempoolInfo, k)).toList))
  failed : ∀ call ∈ c.mempoolCalls, call.2.2 = false
  handedOn : (c.handedOn.map fun p => (p.1, some p.2)).Sublist c.pings
  disconnected : c.disconnected = true → c.mempoolCallback = none

/-- The step has nothing to do with callbacks. -/
structure Unasked (c c' : BRPeerConnection) : Prop where
  pongInfo : c'.pongInfo = c.pongInfo
  pongCallback : c'.pongCallback = c.pongCallback
  mempoolInfo : c'.mempoolInfo = c.mempoolInfo
  mempoolCallback : c'.mempoolCallback = c.mempoolCallback
  pings : c'.pings = c.pings
  completions : c'.completions = c.completions
  handedOn : c'.handedOn = c.handedOn
  calls : c'.calls = c.calls
  mempoolCalls : c'.mempoolCalls = c.mempoolCalls
  pongs : c'.pongs = c.pongs
  running : c'.running = true → c.running = true
  disconnected : c'.disconnected = c.disconnected
  waiting : c'.ctx.pongCallback = c.ctx.pongCallback
  mempool : c'.ctx.mempoolCallback = c.ctx.mempoolCallback

section

variable {env : ConnectionEnv} {c c' : BRPeerConnection} {done : List (Ptr × Option ℕ)}
  {type : ReceivedType} {msg : Bytes} {now : UInt64}

theorem Answered.unasked (h : c.Answered done) (hu : Unasked c c') : c'.Answered done where
  pings := by rw [hu.pings, hu.pongInfo, hu.pongCallback, h.pings]
  parallel := by rw [hu.pongInfo, hu.pongCallback, h.parallel]
  waiting := by rw [hu.waiting, hu.pongCallback, h.waiting]
  pongs := by rw [hu.pongs]; exact h.pongs
  running hrun := by rw [hu.pongs]; exact h.running (hu.running hrun)
  calls := by rw [hu.calls, hu.pongs, h.calls]
  disconnected hend := by
    rw [hu.pongCallback]
    exact h.disconnected (hu.disconnected ▸ hend)

theorem Settled.unasked (h : c.Settled) (hu : Unasked c c') : c'.Settled where
  mempool := by rw [hu.mempool, hu.mempoolCallback, h.mempool]
  completions := by
    rw [hu.completions, hu.mempoolCalls, hu.handedOn, hu.mempoolCallback, hu.mempoolInfo]
    exact h.completions
  failed := by rw [hu.mempoolCalls]; exact h.failed
  handedOn := by rw [hu.handedOn, hu.pings]; exact h.handedOn
  disconnected hend := by
    rw [hu.mempoolCallback]
    exact h.disconnected (hu.disconnected ▸ hend)

/-! ## The queue -/

theorem sendPing_answered (h : c.Answered done) (hopen : c.disconnected = false) (info : Ptr)
    (callback : Option ℕ) : (c.sendPing info callback).Answered done where
  pings := by
    show c.pings ++ [(info, callback)] =
      done ++ (c.pongInfo ++ [info]).zip (c.pongCallback ++ [callback])
    rw [h.pings, List.zip_append h.parallel, List.append_assoc]
    rfl
  parallel := by
    show (c.pongInfo ++ [info]).length = (c.pongCallback ++ [callback]).length
    simp [h.parallel]
  waiting := by
    show c.ctx.pongCallback + 1 = (c.pongCallback ++ [callback]).length
    simp [h.waiting]
  pongs := h.pongs
  running := h.running
  calls := h.calls
  disconnected hend := by
    have hend : c.disconnected = true := hend
    rw [hopen] at hend
    cases hend

theorem pingMempool_answered (h : c.Answered done) (hopen : c.disconnected = false) :
    c.pingMempool.Answered done := by
  obtain ⟨h1, h2, h3, h4, h5, h6, h7⟩ := sendPing_answered h hopen c.mempoolInfo c.mempoolCallback
  exact ⟨h1, h2, h3, h4, h5, h6, h7⟩

/-- A callback that is handed on is one of the pings. -/
theorem pingMempool_settled (h : c.Settled) {ctx : BRPeerContext} {sentGetdata : Bool} :
    ({ c with ctx, sentGetdata }.pingMempool).Settled := by
  refine ⟨rfl, ?_, h.failed, ?_, fun _ => rfl⟩
  · show c.completions.Perm (c.mempoolCalls.map callArgs ++
      ((c.handedOn ++ (c.mempoolCallback.map fun k => (c.mempoolInfo, k)).toList) ++ []))
    rw [List.append_nil]
    exact h.completions
  · show ((c.handedOn ++ (c.mempoolCallback.map fun k => (c.mempoolInfo, k)).toList).map
      fun p => (p.1, some p.2)).Sublist (c.pings ++ [(c.mempoolInfo, c.mempoolCallback)])
    rw [List.map_append]
    refine h.handedOn.append ?_
    cases c.mempoolCallback <;> simp

/-- The first callback of the queue is answered by a pong. -/
theorem Answered.pong (h : c.Answered done) (hrun : c.running = true) {info : Ptr}
    {callback : Option ℕ} {pongInfo : List Ptr} {pongCallback : List (Option ℕ)}
    (hinfo : c.pongInfo = info :: pongInfo) (hcallback : c.pongCallback = callback :: pongCallback)
    (hopen : c.disconnected = false) :
    ({ c with
      ctx := { c.ctx with pongCallback := c.ctx.pongCallback - 1 }
      pongInfo, pongCallback
      calls := c.calls ++ called callback info true
      pongs := c.pongs + 1 } : BRPeerConnection).Answered (done ++ [(info, callback)]) := by
  have hlen := h.running hrun
  have hparallel := h.parallel
  have hwaiting := h.waiting
  rw [hinfo, hcallback, List.length_cons, List.length_cons] at hparallel
  rw [hcallback, List.length_cons] at hwaiting
  refine ⟨?_, by simpa using hparallel, by simp [hwaiting], by simp [hlen], fun _ => by simp [hlen],
    ?_, fun hend => ?_⟩
  · show c.pings = _
    rw [h.pings, hinfo, hcallback, List.append_assoc]
    rfl
  · show c.calls ++ called callback info true = _
    have hall : (done ++ [(info, callback)]).take (c.pongs + 1) = done ++ [(info, callback)] := by
      rw [← hlen]
      simp
    have hnone : (done ++ [(info, callback)]).drop (c.pongs + 1) = [] := by
      rw [← hlen]
      simp
    rw [h.calls, hall, hnone, ← hlen, List.take_length, List.drop_length, invoked_append,
      invoked_singleton]
    simp [invoked]
  · rw [hopen] at hend
    cases hend

/-- At the end of the thread the first callback of the queue is called with failure. -/
theorem Answered.fail (h : c.Answered done) (hrun : c.running = false) {info : Ptr}
    {callback : Option ℕ} {pongInfo : List Ptr} {pongCallback : List (Option ℕ)}
    (hinfo : c.pongInfo = info :: pongInfo) (hcallback : c.pongCallback = callback :: pongCallback)
    (hopen : c.disconnected = false) :
    ({ c with
      ctx := { c.ctx with pongCallback := c.ctx.pongCallback - 1 }
      pongInfo, pongCallback
      calls := c.calls ++ called callback info false } : BRPeerConnection).Answered
        (done ++ [(info, callback)]) := by
  have hle := h.pongs
  have hparallel := h.parallel
  have hwaiting := h.waiting
  rw [hinfo, hcallback, List.length_cons, List.length_cons] at hparallel
  rw [hcallback, List.length_cons] at hwaiting
  refine ⟨?_, by simpa using hparallel, by simp [hwaiting], ?_, fun hrun' => ?_, ?_, fun hend => ?_⟩
  · show c.pings = _
    rw [h.pings, hinfo, hcallback, List.append_assoc]
    rfl
  · show c.pongs ≤ _
    rw [List.length_append]
    omega
  · have hrun' : c.running = true := hrun'
    rw [hrun] at hrun'
    cases hrun'
  · show c.calls ++ called callback info false = _
    rw [h.calls, List.take_append_of_le_length hle, List.drop_append_of_le_length hle,
      invoked_append, invoked_singleton, List.append_assoc]
  · rw [hopen] at hend
    cases hend

/-- The invariant of the callbacks. -/
def Kept (c : BRPeerConnection) : Prop :=
  (∃ done, c.Answered done) ∧ c.Settled ∧ (c.disconnected = true → c.running = false)

theorem Kept.unasked (h : c.Kept) (hu : Unasked c c') : c'.Kept := by
  obtain ⟨⟨done, hanswered⟩, hsettled, hend⟩ := h
  refine ⟨⟨done, hanswered.unasked hu⟩, hsettled.unasked hu, fun hdone => ?_⟩
  have hstopped := hend (hu.disconnected ▸ hdone)
  cases hrun : c'.running with
  | false => rfl
  | true =>
    rw [hu.running hrun] at hstopped
    cases hstopped

/-- What a step on the contexts leaves alone. -/
theorem unasked_of_ctx {ctx : BRPeerContext} {sentGetdata : Bool}
    (hwaiting : ctx.pongCallback = c.ctx.pongCallback)
    (hmempool : ctx.mempoolCallback = c.ctx.mempoolCallback) :
    Unasked c { c with ctx, sentGetdata } :=
  ⟨rfl, rfl, rfl, rfl, rfl, rfl, rfl, rfl, rfl, rfl, id, rfl, hwaiting, hmempool⟩

theorem collectTx_unasked (txHash : UInt256) (block : BRMerkleBlock UInt256) :
    Unasked c (c.collectTx txHash block) := by
  unfold collectTx
  dsimp only
  split_ifs <;>
    exact ⟨rfl, rfl, rfl, rfl, rfl, rfl, rfl, rfl, rfl, rfl, id, rfl, rfl, rfl⟩

theorem takeMerkleblock_unasked (block : BRMerkleBlock UInt256) (hashes : List UInt256) :
    Unasked c (c.takeMerkleblock block hashes) := by
  unfold takeMerkleblock
  dsimp only
  split_ifs <;>
    exact ⟨rfl, rfl, rfl, rfl, rfl, rfl, rfl, rfl, rfl, rfl, id, rfl, rfl, rfl⟩

theorem Unasked.trans {c'' : BRPeerConnection} (h : Unasked c c') (h' : Unasked c' c'') :
    Unasked c c'' :=
  ⟨h'.pongInfo.trans h.pongInfo, h'.pongCallback.trans h.pongCallback,
    h'.mempoolInfo.trans h.mempoolInfo, h'.mempoolCallback.trans h.mempoolCallback,
    h'.pings.trans h.pings, h'.completions.trans h.completions, h'.handedOn.trans h.handedOn,
    h'.calls.trans h.calls, h'.mempoolCalls.trans h.mempoolCalls, h'.pongs.trans h.pongs,
    fun hrun => h.running (h'.running hrun), h'.disconnected.trans h.disconnected,
    h'.waiting.trans h.waiting, h'.mempool.trans h.mempool⟩

theorem Kept.connected (h : c.Kept) (hrun : c.running = true) : c.disconnected = false := by
  cases hend : c.disconnected with
  | false => rfl
  | true =>
    rw [h.2.2 hend] at hrun
    cases hrun

/-- What a message does to the callbacks. -/
theorem Receives.kept (h : c.Kept) (hrun : c.running = true) (hr : Receives env now c type msg c') :
    c'.Kept := by
  have hopen := h.connected hrun
  cases hr with
  | quiet hsame => exact h.unasked (unasked_of_ctx hsame.pongCallback hsame.mempoolCallback)
  | cut => exact h.unasked (unasked_of_ctx rfl rfl)
  | inv hsame => exact h.unasked (unasked_of_ctx hsame.pongCallback hsame.mempoolCallback)
  | @mempool _ ctx sentGetdata txHashes hcallback hsame =>
    obtain ⟨⟨done, hanswered⟩, hsettled, -⟩ := h
    have hctx : ({ c with ctx, sentGetdata } : BRPeerConnection).Answered done :=
      ⟨hanswered.pings, hanswered.parallel, hsame.pongCallback.trans hanswered.waiting,
        hanswered.pongs, hanswered.running, hanswered.calls, hanswered.disconnected⟩
    refine ⟨⟨done, pingMempool_answered hctx hopen⟩, pingMempool_settled hsettled, fun hend => ?_⟩
    have hend : c.disconnected = true := hend
    rw [hopen] at hend
    cases hend
  | pong hinfo hcallback =>
    obtain ⟨⟨done, hanswered⟩, hsettled, hend⟩ := h
    exact ⟨⟨_, hanswered.pong hrun hinfo hcallback hopen⟩,
      ⟨hsettled.mempool, hsettled.completions, hsettled.failed, hsettled.handedOn,
        hsettled.disconnected⟩, hend⟩
  | tx =>
    exact h.unasked ⟨rfl, rfl, rfl, rfl, rfl, rfl, rfl, rfl, rfl, rfl, id, rfl, rfl, rfl⟩
  | collect =>
    refine h.unasked (.trans ?_ (collectTx_unasked _ _))
    exact ⟨rfl, rfl, rfl, rfl, rfl, rfl, rfl, rfl, rfl, rfl, id, rfl, rfl, rfl⟩
  | merkleblock => exact h.unasked (takeMerkleblock_unasked _ _)

/-! ## Steps -/

theorem sendPing_kept (h : c.Kept) (hopen : c.disconnected = false) (info : Ptr)
    (callback : Option ℕ) : (c.sendPing info callback).Kept := by
  obtain ⟨⟨done, hanswered⟩, hsettled, hend⟩ := h
  exact ⟨⟨done, sendPing_answered hanswered hopen info callback⟩,
    ⟨hsettled.mempool, hsettled.completions, hsettled.failed,
      hsettled.handedOn.trans (List.sublist_append_left _ _), hsettled.disconnected⟩, hend⟩

/-- A completion callback is called at once if a request was sent before. -/
theorem sendMempool_settled (h : c.Settled) (hopen : c.disconnected = false)
    (knownTxHashes : List UInt256) (info : Ptr) (callback : Option ℕ) :
    (c.sendMempool knownTxHashes info callback).Settled := by
  have hnever : ∀ {P : Prop}, c.disconnected = true → P := by
    intro P hend
    rw [hopen] at hend
    cases hend
  unfold sendMempool
  dsimp only
  split_ifs with hfirst
  · have hcompletions := h.completions
    have hmempool := h.mempool
    rw [hfirst.2] at hcompletions hmempool
    cases callback with
    | none =>
      refine ⟨?_, ?_, h.failed, h.handedOn, fun hend => hnever hend⟩
      · show c.ctx.mempoolCallback = c.mempoolCallback.isSome
        rw [hfirst.2, hmempool]
      · show (c.completions ++ []).Perm (c.mempoolCalls.map callArgs ++
          (c.handedOn ++ (c.mempoolCallback.map fun k => (c.mempoolInfo, k)).toList))
        rw [List.append_nil]
        exact h.completions
    | some k =>
      refine ⟨rfl, ?_, h.failed, h.handedOn, fun hend => hnever hend⟩
      show (c.completions ++ [(info, k)]).Perm
        (c.mempoolCalls.map callArgs ++ (c.handedOn ++ [(info, k)]))
      rw [← List.append_assoc]
      refine List.Perm.append_right _ ?_
      simpa using hcompletions
  · refine ⟨h.mempool, ?_, ?_, h.handedOn, fun hend => hnever hend⟩
    · show (c.completions ++ (callback.map fun k => (info, k)).toList).Perm
        ((c.mempoolCalls ++ called callback info false).map callArgs ++
          (c.handedOn ++ (c.mempoolCallback.map fun k => (c.mempoolInfo, k)).toList))
      rw [List.map_append, called_args, List.append_assoc]
      refine (h.completions.append_right _).trans ?_
      rw [List.append_assoc]
      exact List.Perm.append_left _ List.perm_append_comm
    · intro call hcall
      rcases List.mem_append.1 hcall with hcall | hcall
      · exact h.failed call hcall
      · exact called_failed hcall

theorem sendMempool_kept (h : c.Kept) (hopen : c.disconnected = false)
    (knownTxHashes : List UInt256) (info : Ptr) (callback : Option ℕ) :
    (c.sendMempool knownTxHashes info callback).Kept := by
  obtain ⟨⟨done, hanswered⟩, hsettled, hend⟩ := h
  refine ⟨⟨done, ?_⟩, sendMempool_settled hsettled hopen knownTxHashes info callback, ?_⟩
  · unfold sendMempool
    dsimp only
    split_ifs
    · cases callback <;>
        exact ⟨hanswered.pings, hanswered.parallel, hanswered.waiting, hanswered.pongs,
          hanswered.running, hanswered.calls, hanswered.disconnected⟩
    · exact ⟨hanswered.pings, hanswered.parallel, hanswered.waiting, hanswered.pongs,
        hanswered.running, hanswered.calls, hanswered.disconnected⟩
  · unfold sendMempool
    dsimp only
    split_ifs
    · cases callback <;> exact hend
    · exact hend

/-- A round of the loop takes one callback out of the queue, and the mempool's is called behind
    that. -/
theorem cleanup_kept (h : c.Kept) (hrun : c.running = false) (hopen : c.disconnected = false) :
    ∃ c', c.cleanup = some c' ∧ c'.Kept ∧ c'.running = false ∧
      (c.pongCallback = [] ∧ c'.disconnected = true ∨
        c'.disconnected = false ∧ c'.pongCallback.length + 1 = c.pongCallback.length) := by
  obtain ⟨⟨done, hanswered⟩, hsettled, -⟩ := h
  cases hcallback : c.pongCallback with
  | nil =>
    refine ⟨{ c with
      ctx := { c.ctx with mempoolCallback := false }
      mempoolCallback := none
      mempoolCalls := c.mempoolCalls ++ called c.mempoolCallback c.mempoolInfo false
      disconnected := true }, ?_, ⟨⟨done, ?_⟩, ?_, fun _ => hrun⟩, hrun, .inl ⟨rfl, rfl⟩⟩
    · unfold cleanup
      rw [hcallback]
    · exact ⟨hanswered.pings, hanswered.parallel, hanswered.waiting, hanswered.pongs,
        hanswered.running, hanswered.calls, fun _ => hcallback⟩
    · refine ⟨rfl, ?_, ?_, hsettled.handedOn, fun _ => rfl⟩
      · show c.completions.Perm
          ((c.mempoolCalls ++ called c.mempoolCallback c.mempoolInfo false).map callArgs ++
            (c.handedOn ++ []))
        rw [List.map_append, called_args, List.append_nil, List.append_assoc]
        exact hsettled.completions.trans (List.Perm.append_left _ List.perm_append_comm)
      · intro call hcall
        rcases List.mem_append.1 hcall with hcall | hcall
        · exact hsettled.failed call hcall
        · exact called_failed hcall
  | cons callback pongCallback =>
    obtain ⟨info, pongInfo, hinfo⟩ : ∃ info pongInfo, c.pongInfo = info :: pongInfo := by
      refine List.exists_cons_of_length_pos ?_
      rw [hanswered.parallel, hcallback]
      exact Nat.succ_pos _
    refine ⟨{ c with
      ctx := { c.ctx with pongCallback := c.ctx.pongCallback - 1 }
      pongInfo, pongCallback
      calls := c.calls ++ called callback info false }, ?_, ?_, hrun, .inr ⟨hopen, rfl⟩⟩
    · unfold cleanup popPong
      rw [hcallback, hinfo]
      rfl
    · exact ⟨⟨_, hanswered.fail hrun hinfo hcallback hopen⟩,
        ⟨hsettled.mempool, hsettled.completions, hsettled.failed, hsettled.handedOn,
          hsettled.disconnected⟩, fun _ => hrun⟩

theorem Receives.running (hr : Receives env now c type msg c') : c'.running = c.running := by
  cases hr with
  | collect =>
    unfold collectTx
    dsimp only
    split_ifs <;> rfl
  | merkleblock =>
    unfold takeMerkleblock
    dsimp only
    split_ifs <;> rfl
  | _ => rfl

theorem handle_kept (h : c.Kept) {event : ConnectionEvent} (henabled : c.Enabled event)
    (hstep : c.handle env event = some c') : c'.Kept := by
  cases event with
  | sendPing info callback =>
    cases hstep
    exact sendPing_kept h henabled info callback
  | sendMempool knownTxHashes info callback =>
    cases hstep
    exact sendMempool_kept h henabled knownTxHashes info callback
  | sendInv txHashes =>
    cases hstep
    exact h.unasked ⟨rfl, rfl, rfl, rfl, rfl, rfl, rfl, rfl, rfl, rfl, id, rfl, rfl, rfl⟩
  | rerequestBlocks fromBlock =>
    cases hstep
    refine h.unasked ?_
    unfold rerequestBlocks
    dsimp only
    split_ifs <;> exact unasked_of_ctx rfl rfl
  | message now requestedTx type msg =>
    obtain ⟨⟨ok, c₁⟩, hmessage, rfl⟩ := Option.map_eq_some_iff.1 hstep
    have hr := acceptMessage_receives hmessage
    refine (hr.kept h henabled).unasked
      ⟨rfl, rfl, rfl, rfl, rfl, rfl, rfl, rfl, rfl, rfl, ?_, rfl, rfl, rfl⟩
    exact fun _ => hr.running.trans henabled
  | mempoolTime =>
    cases hstep
    have hopen := h.connected henabled.1
    obtain ⟨⟨done, hanswered⟩, hsettled, hend⟩ := h
    exact ⟨⟨done, pingMempool_answered hanswered hopen⟩, pingMempool_settled hsettled, hend⟩
  | error =>
    cases hstep
    refine h.unasked ⟨rfl, rfl, rfl, rfl, rfl, rfl, rfl, rfl, rfl, rfl, ?_, rfl, rfl, rfl⟩
    intro hrun
    cases hrun
  | cleanup =>
    obtain ⟨c₁, hc₁, hkept, -⟩ := cleanup_kept h henabled.1 henabled.2
    have hstep : c.cleanup = some c' := hstep
    rw [hc₁] at hstep
    cases hstep
    exact hkept
  | _ =>
    cases hstep
    exact h.unasked (unasked_of_ctx rfl rfl)

theorem new_kept (nonce services timestamp : UInt64) : (new nonce services timestamp).Kept := by
  refine ⟨⟨[], ?_⟩, ?_, fun hend => by cases hend⟩
  · exact ⟨rfl, rfl, rfl, Nat.le_refl _, fun _ => rfl, rfl, fun _ => rfl⟩
  · exact ⟨rfl, .nil, by simp [new], List.Sublist.refl _, fun _ => rfl⟩

theorem run_kept (h : (system env).Run (fun _ _ => True) c) : c.Kept := by
  refine h.invariant (I := Kept) (J := fun _ => True) (fun _ => trivial) ?_ ?_
  · rintro s ⟨nonce, services, timestamp, rfl⟩
    exact new_kept nonce services timestamp
  · rintro s event s' - hkept - ⟨henabled, hstep⟩ -
    exact handle_kept hkept henabled hstep

/-- The loop at the end of the thread empties the queue. -/
theorem cleanup_ends (h : c.Kept) (hrun : c.running = false) (hopen : c.disconnected = false) :
    ∃ c', (List.replicate (c.pongCallback.length + 1) ConnectionEvent.cleanup).foldlM
      (fun c event => c.handle env event) c = some c' ∧ c'.disconnected = true := by
  induction hn : c.pongCallback.length generalizing c with
  | zero =>
    obtain ⟨c', hc', -, -, ⟨-, hend⟩ | ⟨-, hlength⟩⟩ := cleanup_kept h hrun hopen
    · exact ⟨c', by simpa [handle] using hc', hend⟩
    · omega
  | succ n ih =>
    obtain ⟨c₁, hc₁, hkept, hrun₁, ⟨hempty, -⟩ | ⟨hopen₁, hlength⟩⟩ := cleanup_kept h hrun hopen
    · rw [hempty] at hn
      cases hn
    · obtain ⟨c', hc', hend⟩ := ih hkept hrun₁ hopen₁ (by omega)
      refine ⟨c', ?_, hend⟩
      rw [List.replicate_succ, List.foldlM_cons]
      show (c.cleanup).bind _ = _
      rw [hc₁, Option.bind_some]
      exact hc'

end

/-- Every callback that was registered is called once and in order, with success for as many as
    there were pongs and with failure at the end.  What was passed with a mempool request is called
    with failure or handed on as one of them.  The end of the thread does not fail, and a pong that
    no callback waits for changes nothing. -/
theorem run_answered (env : ConnectionEnv) (c : BRPeerConnection)
    (h : (system env).Run (fun _ _ => True) c) :
    (c.disconnected = true → c.pongs ≤ c.pings.length ∧
      c.calls = invoked (c.pings.take c.pongs) true ++ invoked (c.pings.drop c.pongs) false ∧
      c.completions.Perm (c.mempoolCalls.map callArgs ++ c.handedOn) ∧
      (∀ call ∈ c.mempoolCalls, call.2.2 = false) ∧
      (c.handedOn.map fun p => (p.1, some p.2)).Sublist c.pings) ∧
    (c.running = false → c.disconnected = false →
      ∃ c', (List.replicate (c.pongCallback.length + 1) ConnectionEvent.cleanup).foldlM
        (fun c event => c.handle env event) c = some c' ∧ c'.disconnected = true) ∧
    (c.pongCallback = [] →
      ∀ msg, c.ctx.acceptPongMessage msg = some { ok := false, ctx := c.ctx }) := by
  have hkept := run_kept h
  obtain ⟨⟨done, hanswered⟩, hsettled, -⟩ := run_kept h
  refine ⟨fun hend => ?_, cleanup_ends hkept, fun hempty msg => ?_⟩
  · have hqueue := hanswered.disconnected hend
    have hpings : c.pings = done := by
      rw [hanswered.pings, hqueue, List.zip_nil_right, List.append_nil]
    have hcompletions := hsettled.completions
    rw [hsettled.disconnected hend, Option.map_none, Option.toList_none, List.append_nil]
      at hcompletions
    refine ⟨?_, ?_, hcompletions, hsettled.failed, hsettled.handedOn⟩
    · rw [hpings]
      exact hanswered.pongs
    · rw [hpings]
      exact hanswered.calls
  · have hwaiting := hanswered.waiting
    rw [hempty, List.length_nil] at hwaiting
    unfold acceptPongMessage
    by_cases hlen : 8 > msg.length
    · rw [if_pos hlen]
      rfl
    · rw [if_neg hlen, getLE_of_le (by omega), Option.bind_eq_bind, Option.bind_some,
        if_pos hwaiting]
      split_ifs <;> rfl

/-- Two pings and a mempool request, one pong, and the end. -/
theorem run_answered_sample : ∃ c, (system sampleEnv).Run (fun _ _ => True) c ∧
    c.disconnected = true ∧ c.pings = [(7, some 1), (8, some 2)] ∧ c.pongs = 1 ∧
    c.calls = [(1, 7, true), (2, 8, false)] ∧ c.completions.Perm [(9, 3)] := by
  have hrun : ([ConnectionEvent.sendPing 7 (some 1), .sendMempool [] 9 (some 3),
      .sendPing 8 (some 2), .message 0 (fun _ => none) (.other .pong) (toLE 8 5), .error, .cleanup,
      .cleanup].foldlM (exec sampleEnv) (new 5 0 0)).any (fun c => c.disconnected = true ∧
        c.pings = [(7, some 1), (8, some 2)] ∧ c.pongs = 1 ∧ c.handedOn = [] ∧
        c.mempoolCalls = [(3, 9, false)]) = true := by
    decide +kernel
  simp only [Option.any_eq_true, decide_eq_true_eq] at hrun
  obtain ⟨c, hc, hend, hpings, hpongs, hhanded, hmempool⟩ := hrun
  have hreached : (system sampleEnv).Run (fun _ _ => True) c :=
    System.Run.foldlM (fun h => ⟨trivial, exec_step h⟩) (.init ⟨5, 0, 0, rfl⟩) hc
  obtain ⟨-, hcalls, hcompletions, -, -⟩ := (run_answered sampleEnv c hreached).1 hend
  rw [hpings, hpongs] at hcalls
  rw [hhanded, hmempool] at hcompletions
  exact ⟨c, hreached, hend, hpings, hpongs, hcalls, hcompletions⟩

end BRPeerConnection

end RavenWallet
