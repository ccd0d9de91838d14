/-
  Merkleblocks and their transactions.

  A merkleblock waits for those of its transactions whose hashes are not known, and is
  relayed when the last of them has come.  A hash that the peer has announced itself is
  known, but its transaction may not have come.

  * `Collects`: what a current block waits for, and what was relayed, is complete;
    `Numbered`: every block is relayed once;
  * `run_complete`: both hold in every run in which the known hashes of a merkleblock
    are accounted for.
-/
import RavenWallet.Lib.Precedence
import RavenWallet.Peer.Connection

namespace RavenWallet

/-- The transaction was relayed, or its hash was announced to the peer; a hash that was given with a
    mempool request counts if `given` says so. -/
def Accounted (given : Bool) (history : List PeerRecord) (txHash : UInt256) : Prop :=
  .relayedTx txHash ∈ history ∨ .announced txHash ∈ history ∨
    given = true ∧ .given txHash ∈ history

/-- The hashes that `BRMerkleBlockTxHashes` returns. -/
def HasTxHashes (block : BRMerkleBlock UInt256) (hashes : List UInt256) : Prop :=
  ∃ count, block.txHashesCount = some count ∧ block.txHashes count = some hashes

/-- A relayed block is complete: what comes before it accounts for its transactions. -/
def CompleteAt (given : Bool) (history : List PeerRecord) : PeerRecord → Prop
  | .relayedBlock _ block =>
    ∀ hashes, HasTxHashes block hashes → ∀ hash ∈ hashes, Accounted given history hash
  | _ => True

/-- The numbers of the relayed blocks. -/
def relayedNumbers (history : List PeerRecord) : List ℕ :=
  history.filterMap fun record => match record with
    | .relayedBlock number _ => some number
    | _ => none

/-- A record other than of a block. -/
def PeerRecord.Plain : PeerRecord → Prop
  | .relayedBlock .. => False
  | _ => True

section

variable {given : Bool} {history history' : List PeerRecord} {hash : UInt256}

theorem Accounted.append (h : Accounted given history hash) (history' : List PeerRecord) :
    Accounted given (history ++ history') hash := by
  rcases h with h | h | ⟨hg, h⟩
  · exact .inl (List.mem_append_left _ h)
  · exact .inr (.inl (List.mem_append_left _ h))
  · exact .inr (.inr ⟨hg, List.mem_append_left _ h⟩)

theorem completeAt_plain {record : PeerRecord} (h : record.Plain)
    (history : List PeerRecord) : CompleteAt given history record := by
  cases record with
  | relayedBlock number block => exact h.elim
  | _ => trivial

theorem relayedNumbers_append (history history' : List PeerRecord) :
    relayedNumbers (history ++ history') = relayedNumbers history ++ relayedNumbers history' :=
  List.filterMap_append

theorem relayedNumbers_plain (h : ∀ record ∈ history', record.Plain) :
    relayedNumbers history' = [] := by
  refine List.filterMap_eq_nil_iff.2 fun record hrecord => ?_
  cases record with
  | relayedBlock number block => exact (h _ hrecord).elim
  | _ => rfl

end

namespace BRPeerConnection

open BRPeerContext

/-- If the event is a merkleblock that is accepted, then its known hashes are accounted for. -/
def KnowsAccounted (env : ConnectionEnv) (given : Bool) (c : BRPeerConnection) :
    ConnectionEvent → Prop
  | .message now _ .merkleblock msg => c.ctx.currentBlock = none →
    ∀ block hashes, HasBlock env now c msg block → HasTxHashes block hashes →
      ∀ hash ∈ hashes, hash ∈ c.ctx.knownTxHashes → Accounted given c.history hash
  | _ => True

/-- The transactions of the current block are waited for or accounted for, and the relayed blocks
    are complete. -/
structure Collects (given : Bool) (c : BRPeerConnection) : Prop where
  idle : c.ctx.currentBlock = none → c.ctx.currentBlockTxHashes = []
  current : ∀ block, c.ctx.currentBlock = some block → ∀ hashes, HasTxHashes block hashes →
    ∀ hash ∈ hashes, hash ∈ c.ctx.currentBlockTxHashes ∨ Accounted given c.history hash
  complete : Each (CompleteAt given) c.history

/-- The relayed blocks have different numbers, up to that of the last one that was accepted, which
    is the current block if there is one. -/
structure Numbered (c : BRPeerConnection) : Prop where
  nodup : (relayedNumbers c.history).Nodup
  le : ∀ n ∈ relayedNumbers c.history, n ≤ c.accepted
  current : c.ctx.currentBlock ≠ none → ∀ n ∈ relayedNumbers c.history, n < c.accepted

section

variable {given : Bool} {hash : UInt256} {c c' : BRPeerConnection}

theorem mem_removeLast {hashes : List UInt256} {txHash : UInt256} (h : hash ∈ hashes) :
    hash = txHash ∨ hash ∈ removeLast txHash hashes := by
  by_cases heq : hash = txHash
  · exact .inl heq
  · right
    unfold removeLast
    rw [List.mem_reverse, List.mem_erase_of_ne heq, List.mem_reverse]
    exact h

/-- A step that relays no block and leaves the current one alone. -/
structure Unrelayed (c c' : BRPeerConnection) : Prop where
  currentBlock : c'.ctx.currentBlock = c.ctx.currentBlock
  currentBlockTxHashes : c'.ctx.currentBlockTxHashes = c.ctx.currentBlockTxHashes
  accepted : c'.accepted = c.accepted
  history : ∃ records, c'.history = c.history ++ records ∧
    ∀ record ∈ records, record.Plain

theorem Unrelayed.of_history (hblock : c'.ctx.currentBlock = c.ctx.currentBlock)
    (hhashes : c'.ctx.currentBlockTxHashes = c.ctx.currentBlockTxHashes)
    (haccepted : c'.accepted = c.accepted) (hhistory : c'.history = c.history) : Unrelayed c c' :=
  ⟨hblock, hhashes, haccepted, [], by rw [hhistory, List.append_nil], by simp⟩

theorem Collects.unrelayed (h : c.Collects given) (hu : Unrelayed c c') : c'.Collects given := by
  obtain ⟨records, hhistory, hplain⟩ := hu.history
  refine ⟨fun hnone => ?_, fun block hblock hashes hhashes hash hhash => ?_, ?_⟩
  · rw [hu.currentBlockTxHashes]
    exact h.idle (hu.currentBlock ▸ hnone)
  · rw [hu.currentBlockTxHashes, hhistory]
    rcases h.current block (hu.currentBlock ▸ hblock) hashes hhashes hash hhash with hwait | hdone
    · exact .inl hwait
    · exact .inr (hdone.append records)
  · rw [hhistory]
    exact h.complete.append fun record hrecord history => completeAt_plain (hplain record hrecord) _

theorem Numbered.unrelayed (h : c.Numbered) (hu : Unrelayed c c') : c'.Numbered := by
  obtain ⟨records, hhistory, hplain⟩ := hu.history
  have hnumbers : relayedNumbers c'.history = relayedNumbers c.history := by
    rw [hhistory, relayedNumbers_append, relayedNumbers_plain hplain, List.append_nil]
  refine ⟨?_, ?_, ?_⟩
  · rw [hnumbers]
    exact h.nodup
  · rw [hnumbers, hu.accepted]
    exact h.le
  · rw [hnumbers, hu.accepted, hu.currentBlock]
    exact h.current

/-! ## Blocks -/

theorem Collects.relay (h : c.Collects given) (hblock : c.ctx.currentBlock = none)
    {block : BRMerkleBlock UInt256}
    (hcomplete : ∀ hashes, HasTxHashes block hashes →
      ∀ hash ∈ hashes, Accounted given c.history hash) : (c.relayBlock block).Collects given := by
  refine ⟨h.idle, fun b hb => ?_, each_concat.2 ⟨h.complete, hcomplete⟩⟩
  have hb : c.ctx.currentBlock = some b := hb
  rw [hblock] at hb
  cases hb

theorem Numbered.relay (h : c.Numbered) (hblock : c.ctx.currentBlock = none)
    {block : BRMerkleBlock UInt256} (hnew : ∀ n ∈ relayedNumbers c.history, n < c.accepted) :
    (c.relayBlock block).Numbered := by
  have hnumbers : relayedNumbers (c.relayBlock block).history =
      relayedNumbers c.history ++ [c.accepted] := relayedNumbers_append _ _
  refine ⟨?_, fun n hn => ?_, fun hcurrent => absurd hblock hcurrent⟩
  · rw [hnumbers]
    refine List.nodup_append.2 ⟨h.nodup, List.nodup_singleton _, fun n hn k hk => ?_⟩
    rw [List.mem_singleton.1 hk]
    exact Nat.ne_of_lt (hnew n hn)
  · rw [hnumbers] at hn
    rcases List.mem_append.1 hn with hn | hn
    · exact h.le n hn
    · exact Nat.le_of_eq (List.mem_singleton.1 hn)

/-- The record of a transaction. -/
theorem relayedTx_unrelayed (c : BRPeerConnection) (txHash : UInt256) :
    Unrelayed c { c with history := c.history ++ [.relayedTx txHash] } :=
  ⟨rfl, rfl, rfl, [.relayedTx txHash], rfl, by simp [PeerRecord.Plain]⟩

/-- A transaction that was relayed may be the last one of the current block. -/
theorem Collects.collectTx (h : c.Collects given) {txHash : UInt256}
    {block : BRMerkleBlock UInt256} (hblock : c.ctx.currentBlock = some block)
    (htx : .relayedTx txHash ∈ c.history) : (c.collectTx txHash block).Collects given := by
  have hrest : ∀ hashes, HasTxHashes block hashes → ∀ hash ∈ hashes,
      hash ∈ removeLast txHash c.ctx.currentBlockTxHashes ∨ Accounted given c.history hash := by
    intro hashes hhashes hash hhash
    rcases h.current block hblock hashes hhashes hash hhash with hwait | hdone
    · rcases @mem_removeLast hash _ txHash hwait with rfl | hwait
      · exact .inr (.inl htx)
      · exact .inl hwait
    · exact .inr hdone
  unfold BRPeerConnection.collectTx
  dsimp only
  split_ifs with hempty
  · have hidle : ({ c with ctx := { c.ctx with
        currentBlock := none
        currentBlockTxHashes := removeLast txHash c.ctx.currentBlockTxHashes } } :
          BRPeerConnection).Collects given :=
      ⟨fun _ => hempty, (fun b hb => by cases hb), h.complete⟩
    refine hidle.relay rfl fun hashes hhashes hash hhash => ?_
    rcases hrest hashes hhashes hash hhash with hwait | hdone
    · rw [hempty] at hwait
      cases hwait
    · exact hdone
  · refine ⟨fun hnone => ?_, fun b hb => ?_, h.complete⟩
    · have hnone : c.ctx.currentBlock = none := hnone
      rw [hblock] at hnone
      cases hnone
    · have hb : c.ctx.currentBlock = some b := hb
      rw [hblock, Option.some.injEq] at hb
      subst hb
      exact hrest

theorem Numbered.collectTx (h : c.Numbered) (txHash : UInt256) {block : BRMerkleBlock UInt256}
    (hblock : c.ctx.currentBlock = some block) : (c.collectTx txHash block).Numbered := by
  have hnew : ∀ n ∈ relayedNumbers c.history, n < c.accepted :=
    h.current (by rw [hblock]; exact Option.some_ne_none block)
  unfold BRPeerConnection.collectTx
  dsimp only
  split_ifs
  · have hidle : ({ c with ctx := { c.ctx with
        currentBlock := none
        currentBlockTxHashes := removeLast txHash c.ctx.currentBlockTxHashes } } :
          BRPeerConnection).Numbered :=
      ⟨h.nodup, h.le, fun hcurrent => absurd rfl hcurrent⟩
    exact hidle.relay rfl hnew
  · exact ⟨h.nodup, h.le, h.current⟩

/-- A merkleblock waits for what is not known, and is relayed if that is nothing. -/
theorem Collects.takeMerkleblock (h : c.Collects given) (hblock : c.ctx.currentBlock = none)
    {block : BRMerkleBlock UInt256} {hashes : List UInt256} (hhashes : HasTxHashes block hashes)
    (hknown : ∀ hash ∈ hashes, hash ∈ c.ctx.knownTxHashes → Accounted given c.history hash) :
    (c.takeMerkleblock block hashes).Collects given := by
  have hsame : ∀ hashes', HasTxHashes block hashes' → hashes' = hashes := by
    rintro hashes' ⟨count', hcount', h'⟩
    obtain ⟨count, hcount, h⟩ := hhashes
    rw [hcount, Option.some.injEq] at hcount'
    rw [← hcount', h, Option.some.injEq] at h'
    exact h'.symm
  have hrest : ∀ hash ∈ hashes, hash ∈ c.ctx.currentBlockTxHashes ++
      hashes.reverse.filter (fun hash => hash ∉ c.ctx.knownTxHashes) ∨
        Accounted given c.history hash := by
    intro hash hhash
    by_cases hin : hash ∈ c.ctx.knownTxHashes
    · exact .inr (hknown hash hhash hin)
    · exact .inl (List.mem_append_right _ (by simp [hhash, hin]))
  unfold BRPeerConnection.takeMerkleblock
  dsimp only
  split_ifs with hempty
  · refine ⟨(fun hnone => by cases hnone), fun b hb hashes' hhashes' hash hhash => ?_, h.complete⟩
    obtain rfl : block = b := Option.some.inj hb
    rw [hsame hashes' hhashes'] at hhash
    exact hrest hash hhash
  · rw [Decidable.not_not] at hempty
    have hidle : ({ c with
        ctx := { c.ctx with currentBlockTxHashes := c.ctx.currentBlockTxHashes ++
          hashes.reverse.filter (fun hash => hash ∉ c.ctx.knownTxHashes) }
        accepted := c.accepted + 1 } : BRPeerConnection).Collects given := by
      refine ⟨fun _ => hempty, fun b hb => ?_, h.complete⟩
      have hb : c.ctx.currentBlock = some b := hb
      rw [hblock] at hb
      cases hb
    refine hidle.relay hblock fun hashes' hhashes' hash hhash => ?_
    rw [hsame hashes' hhashes'] at hhash
    rcases hrest hash hhash with hwait | hdone
    · rw [hempty] at hwait
      cases hwait
    · exact hdone

theorem Numbered.takeMerkleblock (h : c.Numbered) (hblock : c.ctx.currentBlock = none)
    (block : BRMerkleBlock UInt256) (hashes : List UInt256) :
    (c.takeMerkleblock block hashes).Numbered := by
  have hnew : ∀ n ∈ relayedNumbers c.history, n < c.accepted + 1 :=
    fun n hn => Nat.lt_succ_of_le (h.le n hn)
  unfold BRPeerConnection.takeMerkleblock
  dsimp only
  split_ifs
  · exact ⟨h.nodup, fun n hn => Nat.le_succ_of_le (h.le n hn), fun _ => hnew⟩
  · have hidle : ({ c with
        ctx := { c.ctx with currentBlockTxHashes := c.ctx.currentBlockTxHashes ++
          hashes.reverse.filter (fun hash => hash ∉ c.ctx.knownTxHashes) }
        accepted := c.accepted + 1 } : BRPeerConnection).Numbered :=
      ⟨h.nodup, fun n hn => Nat.le_succ_of_le (h.le n hn), fun hcurrent => absurd hblock hcurrent⟩
    exact hidle.relay hblock hnew

/-! ## Steps -/

variable {env : ConnectionEnv} {now : UInt64} {type : ReceivedType} {msg : Bytes}

/-- What a message does with the blocks: nothing, or the current block is dropped, or this may be its
    last transaction, or a merkleblock is accepted. -/
theorem Receives.relays (hr : Receives env now c type msg c') :
    Unrelayed c c' ∨
    c' = { c with ctx := { c.ctx with currentBlock := none, currentBlockTxHashes := [] } } ∨
    (∃ txHash block, c.ctx.currentBlock = some block ∧
      c' = { c with history := c.history ++ [PeerRecord.relayedTx txHash] }.collectTx txHash block) ∨
    ∃ block hashes, type = .merkleblock ∧ c.ctx.currentBlock = none ∧
      HasBlock env now c msg block ∧ HasTxHashes block hashes ∧
      c' = c.takeMerkleblock block hashes := by
  cases hr with
  | quiet hsame | inv hsame | mempool _ hsame =>
    exact .inl (.of_history hsame.currentBlock hsame.currentBlockTxHashes rfl rfl)
  | cut => exact .inr (.inl rfl)
  | pong => exact .inl (.of_history rfl rfl rfl rfl)
  | tx => exact .inl (relayedTx_unrelayed c _)
  | collect hblock => exact .inr (.inr (.inl ⟨_, _, hblock, rfl⟩))
  | merkleblock hblock hhas hcount hhashes =>
    exact .inr (.inr (.inr ⟨_, _, rfl, hblock, hhas, ⟨_, hcount, hhashes⟩, rfl⟩))

theorem Receives.collects (h : c.Collects given)
    (hknown : type = .merkleblock → c.ctx.currentBlock = none →
      ∀ block hashes, HasBlock env now c msg block → HasTxHashes block hashes →
        ∀ hash ∈ hashes, hash ∈ c.ctx.knownTxHashes → Accounted given c.history hash)
    (hr : Receives env now c type msg c') : c'.Collects given := by
  rcases hr.relays with hu | rfl | ⟨txHash, block, hblock, rfl⟩ |
    ⟨block, hashes, htype, hblock, hhas, hhashes, rfl⟩
  · exact h.unrelayed hu
  · exact ⟨fun _ => rfl, (fun b hb => by cases hb), h.complete⟩
  · exact (h.unrelayed (relayedTx_unrelayed c txHash)).collectTx hblock
      (List.mem_append_right _ (List.mem_singleton_self _))
  · exact h.takeMerkleblock hblock hhashes (hknown htype hblock block hashes hhas hhashes)

theorem Receives.numbered (h : c.Numbered) (hr : Receives env now c type msg c') :
    c'.Numbered := by
  rcases hr.relays with hu | rfl | ⟨txHash, block, hblock, rfl⟩ |
    ⟨block, hashes, -, hblock, -, -, rfl⟩
  · exact h.unrelayed hu
  · exact ⟨h.nodup, h.le, fun hcurrent => absurd rfl hcurrent⟩
  · exact (h.unrelayed (relayedTx_unrelayed c txHash)).collectTx txHash hblock
  · exact h.takeMerkleblock hblock block hashes

/-- Only a message has to do with blocks. -/
theorem handle_unrelayed {event : ConnectionEvent} (h : c.handle env event = some c') :
    Unrelayed c c' ∨ ∃ now requestedTx type msg ok c₁, event = .message now requestedTx type msg ∧
      Receives env now c type msg c₁ ∧ c' = { c₁ with running := ok } := by
  cases event with
  | message now requestedTx type msg =>
    obtain ⟨⟨ok, c₁⟩, hmessage, rfl⟩ := Option.map_eq_some_iff.1 h
    exact .inr ⟨now, requestedTx, type, msg, ok, c₁, rfl, acceptMessage_receives hmessage, rfl⟩
  | sendInv txHashes =>
    cases h
    refine .inl ⟨rfl, rfl, rfl, _, rfl, fun record hrecord => ?_⟩
    obtain ⟨hash, -, rfl⟩ := List.mem_map.1 hrecord
    trivial
  | sendMempool knownTxHashes info callback =>
    cases h
    left
    unfold sendMempool
    dsimp only
    split_ifs
    · have hplain : ∀ record ∈ knownTxHashes.map PeerRecord.given, record.Plain := by
        intro record hrecord
        obtain ⟨hash, -, rfl⟩ := List.mem_map.1 hrecord
        trivial
      cases callback <;> exact ⟨rfl, rfl, rfl, _, rfl, hplain⟩
    · exact .of_history rfl rfl rfl rfl
  | rerequestBlocks fromBlock =>
    cases h
    left
    unfold rerequestBlocks
    dsimp only
    split_ifs <;> exact .of_history rfl rfl rfl rfl
  | cleanup =>
    left
    have h : c.cleanup = some c' := h
    unfold cleanup at h
    split at h
    · obtain ⟨c₁, hpop, rfl⟩ := Option.map_eq_some_iff.1 h
      unfold popPong at hpop
      split at hpop
      · cases hpop
        exact .of_history rfl rfl rfl rfl
      · cases hpop
    · cases h
      exact .of_history rfl rfl rfl rfl
  | _ =>
    cases h
    exact .inl (.of_history rfl rfl rfl rfl)

theorem handle_collects {event : ConnectionEvent} (h : c.Collects given)
    (hknown : c.KnowsAccounted env given event) (hstep : c.handle env event = some c') :
    c'.Collects given := by
  rcases handle_unrelayed hstep with hu | ⟨now, requestedTx, type, msg, ok, c₁, rfl, hr, rfl⟩
  · exact h.unrelayed hu
  · refine (hr.collects h ?_).unrelayed (.of_history rfl rfl rfl rfl)
    rintro rfl
    exact hknown

theorem handle_numbered {event : ConnectionEvent} (h : c.Numbered)
    (hstep : c.handle env event = some c') : c'.Numbered := by
  rcases handle_unrelayed hstep with hu | ⟨now, requestedTx, type, msg, ok, c₁, rfl, hr, rfl⟩
  · exact h.unrelayed hu
  · exact (hr.numbered h).unrelayed (.of_history rfl rfl rfl rfl)

/-- In every run, a merkleblock is relayed at most once. -/
theorem run_numbered (h : (system env).Run (fun _ _ => True) c) : c.Numbered := by
  refine h.invariant (I := Numbered) (J := fun _ => True) (fun _ => trivial) ?_ ?_
  · rintro s ⟨nonce, services, timestamp, rfl⟩
    exact ⟨List.nodup_nil, fun n hn => (List.not_mem_nil hn).elim,
      fun hcurrent => absurd rfl hcurrent⟩
  · rintro s event s' - hnumbered - ⟨-, hstep⟩ -
    exact handle_numbered hnumbered hstep

theorem run_collects (h : (system env).Run (KnowsAccounted env given) c) : c.Collects given := by
  refine h.invariant (I := Collects given) (J := fun _ => True) (fun _ => trivial) ?_ ?_
  · rintro s ⟨nonce, services, timestamp, rfl⟩
    exact ⟨fun _ => rfl, (fun b hb => by cases hb), each_nil⟩
  · rintro s event s' - hcollects hknown ⟨-, hstep⟩ -
    exact handle_collects hcollects hknown hstep

end

/-- If the known hashes of every merkleblock are accounted for when it is accepted, then every
    merkleblock is complete when it is relayed.  It is relayed once. -/
theorem run_complete (env : ConnectionEnv) (given : Bool) (c : BRPeerConnection)
    (h : (system env).Run (KnowsAccounted env given) c) :
    Each (CompleteAt given) c.history ∧ (relayedNumbers c.history).Nodup :=
  ⟨(run_collects h).complete, (run_numbered (h.mono fun _ _ _ => trivial)).nodup⟩

/-- The bytes of a merkleblock with one transaction. -/
def sampleMerkleblock (txHash : UInt256) : Bytes :=
  toLE 4 4 ++ List.replicate 32 0 ++ toLE 32 txHash.toNat ++ toLE 4 5 ++
    toLE 4 MAX_PROOF_OF_WORK.toNat ++ toLE 4 0 ++ toLE 4 1 ++ [1] ++ toLE 32 txHash.toNat ++ [1, 1]

/-- The bytes of a transaction with one input and one output, both empty. -/
def sampleTxMessage : Bytes :=
  toLE 4 1 ++ [1] ++ List.replicate 36 0 ++ [0] ++ toLE 4 0 ++ [1] ++ toLE 8 0 ++ [0] ++ toLE 4 0

/-- A block that is on record has the one transaction. -/
def relaysOnly (txHash : UInt256) : PeerRecord → Bool
  | .relayedBlock _ block => block.txHashesCount = some 1 ∧ block.txHashes 1 = some [txHash]
  | _ => false

/-- A merkleblock is accepted, and then its transaction. -/
theorem run_complete_sample : ∃ c, (system sampleEnv).Run (KnowsAccounted sampleEnv false) c ∧
    (c.history.any (relaysOnly 0)) = true ∧
    Each (CompleteAt false) c.history ∧ (relayedNumbers c.history).Nodup := by
  have hrun : ([ConnectionEvent.sendFilterload,
      .message 0 (fun _ => none) .merkleblock (sampleMerkleblock 0),
      .message 0 (fun _ => none) .tx sampleTxMessage].foldlM
        (fun c event => if c.ctx.knownTxHashes = [] then c.exec sampleEnv event else none)
        (new 5 0 0)).any (fun c => c.history.any (relaysOnly 0)) = true := by
    decide +kernel
  rw [Option.any_eq_true] at hrun
  obtain ⟨c, hc, hblock⟩ := hrun
  have hreached : (system sampleEnv).Run (KnowsAccounted sampleEnv false) c := by
    refine System.Run.foldlM (fun {s event s'} h => ?_) (.init ⟨5, 0, 0, rfl⟩) hc
    split_ifs at h with hknown
    refine ⟨?_, exec_step h⟩
    unfold KnowsAccounted
    split
    · intro _ block hashes _ _ hash _ hmem
      rw [hknown] at hmem
      cases hmem
    · trivial
  exact ⟨c, hreached, hblock, run_complete sampleEnv false c hreached⟩

/-- The peer announces a transaction, and sends the merkleblock that it is in without it. -/
theorem not_run_complete : ¬ ∀ (env : ConnectionEnv) (c : BRPeerConnection),
    (system env).Run (fun _ _ => True) c →
      Each (CompleteAt true) c.history ∧ (relayedNumbers c.history).Nodup := by
  intro h
  have hrun : ([ConnectionEvent.sendFilterload,
      .message 0 (fun _ => none) (.other .inv) ([1] ++ toLE 4 1 ++ toLE 32 7),
      .message 0 (fun _ => none) .merkleblock (sampleMerkleblock 7)].foldlM (exec sampleEnv)
        (new 5 0 0)).any (fun c => c.history.length = 1 ∧ c.history.all (relaysOnly 7)) = true := by
    decide +kernel
  simp only [Option.any_eq_true, decide_eq_true_eq] at hrun
  obtain ⟨c, hc, hlength, hall⟩ := hrun
  have hreached : (system sampleEnv).Run (fun _ _ => True) c :=
    System.Run.foldlM (fun h => ⟨trivial, exec_step h⟩) (.init ⟨5, 0, 0, rfl⟩) hc
  obtain ⟨record, hhistory⟩ := List.length_eq_one_iff.1 hlength
  have hcomplete : CompleteAt true [] record :=
    (h sampleEnv c hreached).1 [] record [] (by rw [hhistory]; rfl)
  have hrecord : relaysOnly 7 record = true := List.all_eq_true.1 hall record (by simp [hhistory])
  cases record with
  | relayedBlock number block =>
    simp only [relaysOnly, decide_eq_true_eq] at hrecord
    have hdone := hcomplete [7] ⟨1, hrecord.1, hrecord.2⟩ 7 (List.mem_singleton_self _)
    simp [Accounted] at hdone
  | _ => simp [relaysOnly] at hrecord

end BRPeerConnection

end RavenWallet
