/-
  Saved blocks (BRPeerManager.c).

  The list that `saveBlocks` gets is walked back from the tip, and cut off such that it
  starts at a difficulty interval.  `restore`: from such a list, in any order,
  `BRPeerManagerNew` goes to the tip, whatever the checkpoints are.

  * `run_saves`: in every run over linked blocks, what is saved is a chain that ends
    at the `lastBlock`, and restores it.
-/
import RavenWallet.Lib.Descent
import RavenWallet.Peer.Placement

namespace RavenWallet

namespace BRBlockManager

/-! ## The last loop of `_peerRelayedBlock` -/

/-- A chain of linked blocks, the last one first. -/
structure LinkedChain (height : UInt256 → UInt32) (bs : List (BRMerkleBlock UInt256)) : Prop where
  chain : bs.IsChain Joined
  atHeight : ∀ b ∈ bs, AtHeight height b

section
variable {height : UInt256 → UInt32} {m : BRBlockManager} {hand : List Ptr}
  {saved : List (Bool × List (BRMerkleBlock UInt256))} {b c : BRMerkleBlock UInt256}
  {bs bs' newer older : List (BRMerkleBlock UInt256)}

theorem LinkedChain.descends (h : LinkedChain height bs) : Descends (fun b => b.height.toNat) bs :=
  h.chain.imp fun _ _ hjoined => hjoined.2

theorem LinkedChain.take (h : LinkedChain height bs) (n : ℕ) : LinkedChain height (bs.take n) :=
  ⟨h.chain.take n, fun b hb => h.atHeight b (List.mem_of_mem_take hb)⟩

theorem LinkedChain.cons (h : LinkedChain height bs) (hb : AtHeight height b)
    (hlink : ∀ c, bs.head? = some c → b.prevBlock = c.blockHash) :
    LinkedChain height (b :: bs) := by
  refine ⟨List.isChain_cons.2 ⟨?_, h.chain⟩, List.forall_mem_cons.2 ⟨hb, h.atHeight⟩⟩
  intro c hc
  exact hb.joined (h.atHeight c (List.mem_of_mem_head? hc)) (hlink c hc)

theorem getBlock_atHeight (h : m.Placed height saved hand) {hash : UInt256}
    (hb : m.getBlock hash = some (some b)) : AtHeight height b ∧ b.blockHash = hash := by
  unfold getBlock at hb
  cases hq : m.blocks.lookup hash with
  | none =>
    rw [hq] at hb
    cases hb
  | some q =>
    simp only [hq, Option.map_eq_some_iff, Option.some.injEq, exists_eq_right] at hb
    exact ⟨h.placement.atHeight ⟨_, hq⟩ hb, h.placement.key hq hb⟩

theorem chainBack_linked (h : m.Placed height saved hand) : ∀ {n : ℕ} {b : BRMerkleBlock UInt256}
    {bs : List (BRMerkleBlock UInt256)}, AtHeight height b → m.chainBack n (some b) = some bs →
    LinkedChain height bs ∧ ∀ c, bs.head? = some c → c = b := by
  intro n
  induction n with
  | zero =>
    intro b bs _ hbs
    obtain rfl : [] = bs := Option.some.inj hbs
    refine ⟨⟨.nil, by simp⟩, ?_⟩
    intro c hc
    cases hc
  | succ n ih =>
    intro b bs hb hbs
    simp only [chainBack, Option.bind_eq_bind, Option.bind_eq_some_iff, Option.some.injEq] at hbs
    obtain ⟨prev, hprev, bs', hbs', rfl⟩ := hbs
    refine ⟨?_, by simp⟩
    cases prev with
    | none =>
      obtain rfl : bs' = [] := by cases n <;> exact (Option.some.inj hbs').symm
      refine LinkedChain.cons ⟨.nil, by simp⟩ hb ?_
      intro c hc
      cases hc
    | some c =>
      obtain ⟨hc, hhash⟩ := getBlock_atHeight h hprev
      obtain ⟨hchain, hhead⟩ := ih hc hbs'
      refine hchain.cons hb ?_
      intro d hd
      rw [hhead d hd, hhash]

theorem savedCount_le (bs : List (BRMerkleBlock UInt256)) : savedCount bs ≤ bs.length := by
  unfold savedCount
  simp only
  split_ifs <;> omega

/-- What is kept of a chain starts at a difficulty interval. -/
theorem savedCount_oldest (h : Descends (fun b => b.height.toNat) bs)
    (hb : (bs.take (savedCount bs)).getLast? = some b) :
    b.height.toNat % BLOCK_DIFFICULTY_INTERVAL = 0 := by
  obtain ⟨c, hc⟩ : ∃ c, bs.getLast? = some c := by
    cases hlast : bs.getLast? with
    | some c => exact ⟨c, rfl⟩
    | none =>
      rw [List.getLast?_eq_none_iff.1 hlast] at hb
      cases hb
  have hheight := h.getLast_take (savedCount_le bs) hc hb
  have hpos : 0 < savedCount bs := by
    by_contra hzero
    rw [Nat.eq_zero_of_not_pos hzero] at hb
    cases hb
  simp only [savedCount, hc, Option.elim_some, BLOCK_DIFFICULTY_INTERVAL] at hheight hpos ⊢
  split_ifs at hheight hpos with hj hlong
  · omega
  · omega
  · omega

/-! ## Restoring the chain -/

/-- Two blocks of a chain that follow the same one are the same. -/
theorem LinkedChain.eq_of_prevBlock (h : LinkedChain height bs) (hb : b ∈ bs) (hc : c ∈ bs)
    (hprev : b.prevBlock = c.prevBlock) (hne : b.prevBlock ≠ 0) : b = c := by
  have hb' := h.atHeight b hb
  have hc' := h.atHeight c hc
  refine h.descends.eq_of_height hb hc ?_
  rw [hb'.height, hc'.height, hb'.links.follows.resolve_left hne,
    hc'.links.follows.resolve_left (hprev ▸ hne), hprev]

/-- Nothing in a chain follows its tip. -/
theorem LinkedChain.not_follows (h : LinkedChain height (b :: bs)) (hc : c ∈ b :: bs) :
    c.prevBlock ≠ b.blockHash := by
  intro hlink
  have hb := h.atHeight b List.mem_cons_self
  have hafter := (h.atHeight c hc).joined hb hlink
  rcases List.mem_cons.1 hc with rfl | hc
  · exact absurd hafter.2 (by omega)
  · have hlt := h.descends.lt_head hc
    have hstep := hafter.2
    omega

/-- A block that comes after another one of the chain. -/
theorem LinkedChain.prevBlock_ne_zero (h : LinkedChain height (newer ++ b :: older))
    (hc : c ∈ newer) : c.prevBlock ≠ 0 := by
  obtain ⟨before, after, rfl⟩ := List.append_of_mem hc
  have hchain := h.chain
  rw [List.append_assoc, List.cons_append] at hchain
  have hrest := hchain.right_of_append
  obtain ⟨d, rest, hd⟩ : ∃ d rest, after ++ b :: older = d :: rest := by
    cases after with
    | nil => exact ⟨b, older, rfl⟩
    | cons d after => exact ⟨d, after ++ b :: older, rfl⟩
  rw [hd] at hrest
  have hjoined := (List.isChain_cons_cons.1 hrest).1
  have hd' := h.atHeight d (by
    rw [List.append_assoc, List.cons_append, hd]
    simp)
  rw [hjoined.1]
  exact hd'.links.nonzero

/-- The orphans are blocks of the chain, under what comes before them. -/
def Waiting (m : BRBlockManager) (bs : List (BRMerkleBlock UInt256)) : Prop :=
  ∀ hash q, m.orphans.lookup hash = some q →
    ∃ b ∈ bs, m.heap.load q = some b ∧ b.prevBlock = hash

/-- From a block of the chain the last loop of `BRPeerManagerNew` goes to the tip. -/
theorem restoreChain_tip (h : LinkedChain height bs) :
    ∀ {older : List (BRMerkleBlock UInt256)} {b : BRMerkleBlock UInt256} {m : BRBlockManager}
      {p : Ptr} {fuel : ℕ}, bs = newer ++ b :: older → m.Waiting bs →
      (∀ c ∈ newer, ∃ q, m.orphans.lookup c.prevBlock = some q) → m.heap.load p = some b →
      newer.length < fuel → ∃ r, restoreChain fuel m (some p) = some r ∧ r.last = bs.head? := by
  induction newer using List.reverseRecOn with
  | nil =>
    intro older b m p fuel hbs hwaiting _ hp hfuel
    obtain ⟨fuel, rfl⟩ := Nat.exists_eq_succ_of_ne_zero (Nat.ne_of_gt hfuel)
    rw [List.nil_append] at hbs
    subst hbs
    have hnone : (m.orphans.erase b.prevBlock).lookup b.blockHash = none := by
      by_contra hne
      obtain ⟨q, hq⟩ := Option.ne_none_iff_exists'.1 hne
      obtain ⟨c, hc, -, hprev⟩ := hwaiting _ _ (lookup_of_erase hq).1
      exact h.not_follows hc hprev
    refine ⟨{ m with
      blocks := m.blocks.insert b.blockHash p, lastBlock := some p
      orphans := m.orphans.erase b.prevBlock }, ?_, hp⟩
    simp only [restoreChain, hp, Option.bind_eq_bind, Option.bind_some, hnone]
  | append_singleton newer c ih =>
    intro older b m p fuel hbs hwaiting hhas hp hfuel
    rw [List.length_append, List.length_singleton] at hfuel
    obtain ⟨fuel, rfl⟩ := Nat.exists_eq_succ_of_ne_zero (Nat.ne_of_gt (Nat.zero_lt_of_lt hfuel))
    have hsplit : bs = newer ++ c :: b :: older := by simpa using hbs
    have hchain := h.chain
    rw [hsplit] at hchain
    have hjoined : Joined c b := (List.isChain_cons_cons.1 hchain.right_of_append).1
    have hb := h.atHeight b (by simp [hsplit])
    have hc := h.atHeight c (by simp [hsplit])
    have hne : c.prevBlock ≠ 0 := by
      rw [hjoined.1]
      exact hb.links.nonzero
    -- nothing above `b` follows the block that `b` follows
    have hkeys : ∀ d ∈ newer ++ [c], d.prevBlock ≠ b.prevBlock := by
      intro d hd heq
      have hd₀ : d.prevBlock ≠ 0 := (hbs ▸ h).prevBlock_ne_zero hd
      have hsame := h.eq_of_prevBlock (b := d) (c := b) (by simp [hbs] at hd ⊢; tauto)
        (by simp [hbs]) heq hd₀
      have hlt := (hbs ▸ h.descends).lt_of_append hd (List.mem_cons_self (a := b) (l := older))
      rw [hsame] at hlt
      exact absurd hlt (Nat.lt_irrefl _)
    obtain ⟨q, hq⟩ := hhas c (by simp)
    have hlookup : (m.orphans.erase b.prevBlock).lookup b.blockHash = some q := by
      rw [← hjoined.1, AList.lookup_erase_ne (hkeys c (by simp)), hq]
    have hload : m.heap.load q = some c := by
      obtain ⟨d, hd, hload, hprev⟩ := hwaiting _ _ hq
      rw [hload, h.eq_of_prevBlock hd (by simp [hsplit]) hprev (hprev ▸ hne)]
    have hshort : newer.length < fuel := by omega
    obtain ⟨r, hr, hlast⟩ := ih (m := { m with
      blocks := m.blocks.insert b.blockHash p, lastBlock := some p
      orphans := m.orphans.erase b.prevBlock }) hsplit
      (fun hash q hq => hwaiting hash q (lookup_of_erase hq).1)
      (fun d hd => by
        rw [AList.lookup_erase_ne (hkeys d (List.mem_append_left _ hd))]
        exact hhas d (List.mem_append_left _ hd)) hload hshort
    refine ⟨r, ?_, hlast⟩
    simp only [restoreChain, hp, Option.bind_eq_bind, Option.bind_some, hlookup]
    exact hr

/-- After a part of the saved blocks. -/
structure Added (bs : List (BRMerkleBlock UInt256)) (heap : Heap (BRMerkleBlock UInt256))
    (done : List Ptr) (s : BRBlockManager × Option Ptr) : Prop where
  unchanged : s.1.heap = heap
  waiting : s.1.Waiting bs
  has : ∀ p ∈ done, ∀ b, heap.load p = some b → ∃ q, s.1.orphans.lookup b.prevBlock = some q
  transition : ∀ p, s.2 = some p → ∃ b ∈ bs, heap.load p = some b
  found : ∀ p ∈ done, ∀ b, heap.load p = some b →
    b.height.toNat % BLOCK_DIFFICULTY_INTERVAL = 0 → s.2 ≠ none

/-- A block becomes an orphan, and the transition block if there was none. -/
theorem addSaved_eq {s : BRBlockManager × Option Ptr} {p : Ptr} (hp : s.1.heap.load p = some b)
    (hb : b.height ≠ BLOCK_UNKNOWN_HEIGHT)
    (hs : ∀ q, s.2 = some q → ∃ c, s.1.heap.load q = some c) :
    ∃ isLater, (s.2 = none → isLater = true) ∧
      addSaved s p = some ({ s.1 with orphans := s.1.orphans.insert b.prevBlock p },
        if b.height.toNat % BLOCK_DIFFICULTY_INTERVAL = 0 ∧ isLater = true then some p
        else s.2) := by
  obtain ⟨m, transition⟩ := s
  simp only at hp hs
  cases transition with
  | none => exact ⟨true, fun _ => rfl, by simp [addSaved, hp, hb]⟩
  | some q =>
    obtain ⟨c, hc⟩ := hs q rfl
    refine ⟨decide (b.height > c.height), ?_, by simp [addSaved, hp, hb, hc]⟩
    intro hnone
    cases hnone

theorem Added.add {heap : Heap (BRMerkleBlock UInt256)} {done : List Ptr}
    {s : BRBlockManager × Option Ptr} {p : Ptr} (h : Added bs heap done s)
    (hp : heap.load p = some b) (hmem : b ∈ bs) (hb : b.height ≠ BLOCK_UNKNOWN_HEIGHT) :
    ∃ s', addSaved s p = some s' ∧ Added bs heap (done ++ [p]) s' := by
  obtain ⟨isLater, hfirst, heq⟩ := addSaved_eq (s := s) (h.unchanged ▸ hp) hb (by
    intro q hq
    obtain ⟨c, -, hc⟩ := h.transition q hq
    exact ⟨c, h.unchanged ▸ hc⟩)
  refine ⟨_, heq, h.unchanged, ?_, ?_, ?_, ?_⟩
  · intro hash q hq
    by_cases hkey : hash = b.prevBlock
    · subst hkey
      have hq : (s.1.orphans.insert b.prevBlock p).lookup b.prevBlock = some q := hq
      rw [AList.lookup_insert, Option.some.injEq] at hq
      subst hq
      exact ⟨b, hmem, h.unchanged ▸ hp, rfl⟩
    · have hq : (s.1.orphans.insert b.prevBlock p).lookup hash = some q := hq
      rw [AList.lookup_insert_ne hkey] at hq
      exact h.waiting hash q hq
  · intro q hq c hc
    show ∃ r, (s.1.orphans.insert b.prevBlock p).lookup c.prevBlock = some r
    by_cases hkey : c.prevBlock = b.prevBlock
    · exact ⟨p, by rw [hkey, AList.lookup_insert]⟩
    · rw [AList.lookup_insert_ne hkey]
      rcases List.mem_append.1 hq with hq | hq
      · exact h.has q hq c hc
      · obtain rfl := List.mem_singleton.1 hq
        rw [hp, Option.some.injEq] at hc
        exact absurd (congrArg BRMerkleBlock.prevBlock hc.symm) hkey
  · intro q hq
    by_cases htransition : b.height.toNat % BLOCK_DIFFICULTY_INTERVAL = 0 ∧ isLater = true
    · simp only [if_pos htransition, Option.some.injEq] at hq
      exact ⟨b, hmem, hq ▸ hp⟩
    · simp only [if_neg htransition] at hq
      exact h.transition q hq
  · intro q hq c hc hheight
    show (if b.height.toNat % BLOCK_DIFFICULTY_INTERVAL = 0 ∧ isLater = true then some p
      else s.2) ≠ none
    split_ifs with htransition
    · simp
    · intro hnone
      rcases List.mem_append.1 hq with hq | hq
      · exact h.found q hq c hc hheight hnone
      · obtain rfl := List.mem_singleton.1 hq
        rw [hp, Option.some.injEq] at hc
        exact htransition ⟨hc ▸ hheight, hfirst hnone⟩

theorem foldl_addCheckPoint (checkpoints : List BRCheckPoint) : ∀ (m : BRBlockManager),
    (checkpoints.foldl addCheckPoint m).orphans = m.orphans ∧
      ∀ p b, m.heap.load p = some b →
        (checkpoints.foldl addCheckPoint m).heap.load p = some b := by
  induction checkpoints with
  | nil =>
    intro m
    exact ⟨rfl, fun _ _ hb => hb⟩
  | cons c checkpoints ih =>
    intro m
    obtain ⟨horphans, hload⟩ := ih (m.addCheckPoint c)
    exact ⟨horphans, fun p b hb => hload p b (Heap.load_alloc _ hb)⟩

/-- `BRPeerManagerNew` goes to the tip of a saved chain that starts at a difficulty interval. -/
theorem restore (h : LinkedChain height bs)
    (holdest : ∃ b ∈ bs, b.height.toNat % BLOCK_DIFFICULTY_INTERVAL = 0) {fuel : ℕ}
    {params : BRChainParams} {wallet : BRWallet} {earliestKeyTime : UInt32}
    {heap : Heap (BRMerkleBlock UInt256)} {ps : List Ptr} (hfuel : bs.length ≤ fuel)
    (hload : heap.loadAll ps = some bs') (hperm : bs'.Perm bs) :
    ∃ r, new fuel params wallet earliestKeyTime heap ps = some r ∧ r.last = bs.head? := by
  set m₀ : BRBlockManager := params.checkpoints.foldl addCheckPoint
    { wallet, params, earliestKeyTime, heap } with hm₀
  obtain ⟨horphans, hheap⟩ := foldl_addCheckPoint params.checkpoints
    { wallet, params, earliestKeyTime, heap }
  rw [← hm₀] at horphans hheap
  have hmem : ∀ p ∈ ps, ∃ b ∈ bs, m₀.heap.load p = some b := by
    intro p hp
    obtain ⟨b, hb, hpb⟩ := Heap.loadAll_mem hload hp
    exact ⟨b, hperm.mem_iff.1 hb, hheap p b hpb⟩
  have hempty : Added bs m₀.heap [] (m₀, none) := by
    refine ⟨rfl, ?_, by simp, by simp, by simp⟩
    intro hash q hq
    rw [horphans] at hq
    simp at hq
  obtain ⟨⟨m₁, transition⟩, hm₁, hadded⟩ := foldlM_isSome (P := Added bs m₀.heap) (f := addSaved)
    (l := ps) (fun {done p s} hp hs => by
      obtain ⟨b, hb, hpb⟩ := hmem p hp
      exact hs.add hpb hb (h.atHeight b hb).ne_unknown) hempty
  obtain ⟨b, hb, hheight⟩ := holdest
  obtain ⟨p, hp, hpb⟩ := Heap.mem_of_loadAll hload (hperm.mem_iff.2 hb)
  have hfound : transition ≠ none := hadded.found p hp b (hheap p b hpb) hheight
  obtain ⟨t, rfl⟩ := Option.ne_none_iff_exists'.1 hfound
  obtain ⟨c, hc, ht⟩ := hadded.transition t rfl
  obtain ⟨newer, older, hsplit⟩ := List.append_of_mem hc
  have hshort : newer.length < fuel := by
    rw [hsplit, List.length_append, List.length_cons] at hfuel
    omega
  have hheap₁ : m₁.heap = m₀.heap := hadded.unchanged
  obtain ⟨r, hr, hlast⟩ := restoreChain_tip h hsplit hadded.waiting
    (fun d hd => by
      have hd' : d ∈ bs' := hperm.mem_iff.2 (by simp [hsplit, hd])
      obtain ⟨q, hq, hqd⟩ := Heap.mem_of_loadAll hload hd'
      exact hadded.has q hq d (hheap q d hqd)) (hheap₁ ▸ ht) hshort
  refine ⟨r, ?_, hlast⟩
  simp only [new, Option.bind_eq_bind, ← hm₀, hm₁, Option.bind_some, hr]

end

/-! ## Runs -/

/-- The blocks are a chain that ends at the `lastBlock` and starts at a difficulty interval, and
    `BRPeerManagerNew` goes to the `lastBlock` if it gets them, in any order. -/
structure SavesTip (m : BRBlockManager) (bs : List (BRMerkleBlock UInt256)) : Prop where
  tip : bs.head? = m.last
  contiguous : bs.IsChain Joined
  oldest : ∃ b, bs.getLast? = some b ∧ b.height.toNat % BLOCK_DIFFICULTY_INTERVAL = 0
  restored : ∀ {fuel : ℕ} {params : BRChainParams} {wallet : BRWallet} {earliestKeyTime : UInt32}
    {heap : Heap (BRMerkleBlock UInt256)} {ps : List Ptr} {bs' : List (BRMerkleBlock UInt256)},
    bs.length ≤ fuel → heap.loadAll ps = some bs' → bs'.Perm bs →
    ∃ r, new fuel params wallet earliestKeyTime heap ps = some r ∧ r.last = m.last

/-- The assertions of the last loop of `_peerRelayedBlock`, and the one after it. -/
def Asserts (blocks : List (BRMerkleBlock UInt256)) : Prop :=
  (∀ b ∈ blocks, b.height ≠ BLOCK_UNKNOWN_HEIGHT) ∧
    ∀ b, (blocks.take (savedCount blocks)).getLast? = some b →
      b.height.toNat % BLOCK_DIFFICULTY_INTERVAL = 0

/-- A step saves nothing, or the chain up to the new `lastBlock`, and no assertion fails. -/
def SavesChain (env : Env) (m : BRBlockManager) (event : BlockEvent) (m' : BRBlockManager) : Prop :=
  (m'.saved = m.saved ∨ ∃ replace bs, m'.saved = m.saved ++ [(replace, bs)] ∧ m'.SavesTip bs) ∧
  ∀ fuel now peer peerLastBlock degraded p m₁ block saveCount blocks,
    event = .relayedBlock now peer peerLastBlock degraded p →
    m.relayedBlockSaving env fuel now peer peerLastBlock degraded p =
      some (m₁, some (block, saveCount)) →
    m₁.chainBack saveCount (some block) = some blocks → Asserts blocks

section
variable {height : UInt256 → UInt32} {env : Env} {m m' : BRBlockManager} {event : BlockEvent}
  {saved : List (Bool × List (BRMerkleBlock UInt256))} {p : Ptr} {block : BRMerkleBlock UInt256}
  {blocks : List (BRMerkleBlock UInt256)} {saveCount : ℕ}

/-- The last loop goes over a chain that ends at the `lastBlock`, or over nothing. -/
theorem chainBack_tip (h : m.Placed height saved []) (htip : 0 < saveCount → m.Tip p block)
    (hblocks : m.chainBack saveCount (some block) = some blocks) :
    LinkedChain height blocks ∧ ∀ b, blocks.head? = some b → m.last = some b := by
  rcases Nat.eq_zero_or_pos saveCount with rfl | hpos
  · obtain rfl : [] = blocks := Option.some.inj hblocks
    refine ⟨⟨.nil, by simp⟩, ?_⟩
    intro b hb
    cases hb
  · have ht := htip hpos
    obtain ⟨hchain, hhead⟩ := chainBack_linked h (h.placement.atHeight ht.held ht.load) hblocks
    refine ⟨hchain, ?_⟩
    intro b hb
    rw [hhead b hb, ht.last]

theorem LinkedChain.asserts (h : LinkedChain height blocks) : Asserts blocks :=
  ⟨fun b hb => (h.atHeight b hb).ne_unknown, fun _ hb => savedCount_oldest h.descends hb⟩

/-- What is kept of the chain restores the `lastBlock`. -/
theorem LinkedChain.savesTip (h : LinkedChain height blocks) (hcount : 0 < savedCount blocks)
    (hlast : ∀ b, blocks.head? = some b → m.last = some b) :
    m.SavesTip (blocks.take (savedCount blocks)) := by
  have hle := savedCount_le blocks
  obtain ⟨b, rest, rfl⟩ := List.exists_cons_of_length_pos (Nat.lt_of_lt_of_le hcount hle)
  have htip : ((b :: rest).take (savedCount (b :: rest))).head? = m.last := by
    rw [hlast b rfl, List.head?_take, if_neg (Nat.ne_of_gt hcount)]
    rfl
  have hkept := h.take (savedCount (b :: rest))
  obtain ⟨c, hc⟩ : ∃ c, ((b :: rest).take (savedCount (b :: rest))).getLast? = some c := by
    refine Option.ne_none_iff_exists'.1 ?_
    rw [Ne, List.getLast?_eq_none_iff, List.take_eq_nil_iff]
    simp [Nat.ne_of_gt hcount]
  have holdest := savedCount_oldest h.descends hc
  refine ⟨htip, hkept.chain, ⟨c, hc, holdest⟩, ?_⟩
  intro fuel params wallet earliestKeyTime heap ps bs' hfuel hload hperm
  rw [← htip]
  exact restore hkept ⟨c, List.mem_of_getLast? hc, holdest⟩ hfuel hload hperm

theorem step_saves (h : m.Placed height m.saved [])
    (hstep : (linkedSystem env height).step m event m') : SavesChain env m event m' := by
  obtain ⟨⟨henabled, fuel, hm⟩, hlinks⟩ := hstep
  refine ⟨?_, ?_⟩
  · by_cases hevent : ∃ now peer peerLastBlock degraded p,
        event = .relayedBlock now peer peerLastBlock degraded p
    · obtain ⟨now, peer, peerLastBlock, degraded, p, rfl⟩ := hevent
      have hm : m.relayedBlock env fuel now peer peerLastBlock degraded p = some m' := hm
      rw [relayedBlock_eq, Option.bind_eq_some_iff] at hm
      obtain ⟨⟨m₁, save⟩, hm₁, hm⟩ := hm
      obtain ⟨hplaced, htip⟩ := relayedBlockSaving_placed h henabled hm₁
      cases save with
      | none =>
        cases hm
        exact Or.inl hplaced.saved
      | some save =>
        obtain ⟨blocks, hblocks, ⟨rfl, -⟩ | ⟨hcount, rfl⟩⟩ := saveBlocks_cases hm
        · exact Or.inl hplaced.saved
        · obtain ⟨hchain, hlast⟩ := chainBack_tip hplaced (htip _ _ rfl) hblocks
          refine Or.inr ⟨_, _, congrArg (· ++ _) hplaced.saved, ?_⟩
          obtain ⟨h1, h2, h3, h4⟩ := hchain.savesTip hcount hlast
          exact ⟨h1, h2, h3, h4⟩
    · have hplaced := handle_placed h hlinks
        (fun now peer peerLastBlock degraded p heq => hevent ⟨_, _, _, _, _, heq⟩) hm
      exact Or.inl hplaced.saved
  · rintro fuel now peer peerLastBlock degraded p m₁ block saveCount blocks rfl hm₁ hblocks
    obtain ⟨hplaced, htip⟩ := relayedBlockSaving_placed h henabled hm₁
    exact (chainBack_tip hplaced (htip _ _ rfl) hblocks).1.asserts

end

/-- In every run over linked blocks, whatever is saved restores the `lastBlock`. -/
theorem run_saves {env : Env} {height : UInt256 → UInt32}
    {steps : List (BRBlockManager × BlockEvent × BRBlockManager)} {m : BRBlockManager}
    (h : (linkedSystem env height).Steps steps m) :
    ∀ x ∈ steps, SavesChain env x.1 x.2.1 x.2.2 := by
  intro x hx
  obtain ⟨⟨before, hbefore, -⟩, hstep⟩ := h.mem hx
  exact step_saves (run_placed (hbefore.run fun _ _ => trivial)) hstep

/-- The heights of the checkpoints, and of a block between them. -/
def sampleHeight (hash : UInt256) : UInt32 :=
  if hash = 4 then 1 else if hash = 9 then 2 else 0

theorem run_saves_sample : ∃ steps m,
    (linkedSystem BRWallet.sampleEnv sampleHeight).Steps steps m ∧
    m.saved.map (fun s => s.2.map BRMerkleBlock.blockHash) = [[4, 1]] ∧
    ∀ x ∈ steps, SavesChain BRWallet.sampleEnv x.1 x.2.1 x.2.2 := by
  have hgood : ((BRWallet.new BRWallet.sampleEnv 200 0 ⟨[some BRWallet.receipt]⟩ [0]).join.any
      fun w => (new 200 sampleParams w 0 ⟨[]⟩ []).any fun m₀ =>
      (m₀.handle BRWallet.sampleEnv 200 .loadBloomFilter).any fun m₁ =>
      (m₁.handle BRWallet.sampleEnv 200 (.estimate 1)).any fun m₂ =>
      (m₂.handle BRWallet.sampleEnv 200 (.receive (sampleBlock 4 1))).any fun m₃ =>
      decide (2 ∈ m₃.relayed) &&
      (m₃.handle BRWallet.sampleEnv 200 (.relayedBlock 0 ⟨0, 0⟩ 10 false 2)).any
      fun m₄ : BRBlockManager =>
        m₄.saved.map (fun s => s.2.map BRMerkleBlock.blockHash) = [[4, 1]]) = true := by
    decide +kernel
  simp only [Option.any_eq_true, Option.join_eq_some_iff, Bool.and_eq_true, decide_eq_true_eq]
    at hgood
  obtain ⟨w, hw, m₀, hm₀, m₁, hm₁, m₂, hm₂, m₃, hm₃, hmem, m₄, hm₄, hsaved⟩ := hgood
  have hinit : (linkedSystem BRWallet.sampleEnv sampleHeight).init m₀ := by
    refine ⟨200, _, w, 0, _, [], ⟨200, 0, _, _, hw⟩, by simp, ?_, ?_, hm₀⟩
    · intro c hc
      rcases List.mem_cons.1 hc with rfl | hc
      · exact ⟨⟨by decide, by decide, Or.inl rfl⟩, by decide⟩
      · obtain rfl := List.mem_singleton.1 hc
        exact ⟨⟨by decide, by decide, Or.inl rfl⟩, by decide⟩
    · intro p b hb
      cases hb
  have hblock : Links sampleHeight (sampleBlock 4 1) :=
    ⟨by decide, by decide, Or.inr (by decide)⟩
  have h₁ : (linkedSystem BRWallet.sampleEnv sampleHeight).step m₀ .loadBloomFilter m₁ :=
    ⟨⟨trivial, 200, hm₁⟩, by simp⟩
  have h₂ : (linkedSystem BRWallet.sampleEnv sampleHeight).step m₁ (.estimate 1) m₂ :=
    ⟨⟨trivial, 200, hm₂⟩, by simp⟩
  have h₃ : (linkedSystem BRWallet.sampleEnv sampleHeight).step m₂
      (.receive (sampleBlock 4 1)) m₃ := by
    refine ⟨⟨trivial, 200, hm₃⟩, ?_⟩
    intro b hb
    cases hb
    exact hblock
  have h₄ : (linkedSystem BRWallet.sampleEnv sampleHeight).step m₃
      (.relayedBlock 0 ⟨0, 0⟩ 10 false 2) m₄ := ⟨⟨hmem, 200, hm₄⟩, by simp⟩
  have hrun := ((((System.Steps.init hinit).step h₁).step h₂).step h₃).step h₄
  exact ⟨_, m₄, hrun, hsaved, run_saves hrun⟩

end BRBlockManager

end RavenWallet
