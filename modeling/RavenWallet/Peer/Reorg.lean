/-
  Chain reorganization (BRPeerManager.c).

  The walk back reaches the last common block of both chains if there is one; else it
  ends with `NULL`, which is dereferenced if the fork is the chain that ends first.
  `reorganizes_iff`: when a reorganization joins the chains there, and sets the heights
  of the transactions as the new branch says.
-/
import RavenWallet.Lib.Ancestry
import RavenWallet.Lib.Keyed
import RavenWallet.Peer.Blocks
import RavenWallet.Wallet.Reorg

namespace RavenWallet

namespace BRBlockManager

/-! ## Stored chains -/

/-- The block is in the set of blocks. -/
def Stored (m : BRBlockManager) (b : BlockAt) : Prop := m.getBlockAt b.2.blockHash = some (some b)

/-- The block `b` is stored, and `c` before it. -/
def Follows (m : BRBlockManager) (b c : BlockAt) : Prop :=
  m.Stored b ∧ m.getBlockAt b.2.prevBlock = some (some c)

def blockHeight (b : BlockAt) : ℕ := b.2.height.toNat

/-- The stored blocks are live, one higher than those before them, and their transactions were
    read when they were relayed. -/
structure Linked (m : BRBlockManager) : Prop where
  keyed : Keyed BRMerkleBlock.blockHash m.heap m.blocks
  height : ∀ {b c}, m.Follows b c → blockHeight b = blockHeight c + 1
  read : ∀ b, m.Stored b → ∃ count txHashes,
    b.2.txHashesCount = some count ∧ b.2.txHashes count = some txHashes

/-- The stored chains start with the genesis block or another checkpoint. -/
def Rooted (m : BRBlockManager) : Prop :=
  ∀ b, m.Stored b → (∀ c, ¬ m.Follows b c) → ∃ c ∈ m.params.checkpoints, c.hash = b.2.blockHash

section
variable {m m' : BRBlockManager} {b b2 c j x tip last : BlockAt} {hash : UInt256} {now : ℤ}
  {fuel : ℕ} {cs : List Confirmation} {joinHeight : UInt32}

theorem getBlockAt_some : m.getBlockAt hash = some (some b) ↔
    m.blocks.lookup hash = some b.1 ∧ m.heap.load b.1 = some b.2 := by
  unfold getBlockAt
  cases hq : m.blocks.lookup hash with
  | none => simp
  | some q =>
    simp only [Option.map_eq_some_iff, Option.some.injEq]
    constructor
    · rintro ⟨x, hx, rfl⟩
      exact ⟨rfl, hx⟩
    · rintro ⟨rfl, hb⟩
      exact ⟨b.2, hb, rfl⟩

theorem getBlockAt_of_keyed (h : Keyed BRMerkleBlock.blockHash m.heap m.blocks) (hash : UInt256) :
    ∃ c, m.getBlockAt hash = some c ∧ ∀ x, c = some x → m.Stored x ∧ x.2.blockHash = hash := by
  unfold BRBlockManager.getBlockAt
  cases hq : m.blocks.lookup hash with
  | none =>
    refine ⟨none, rfl, ?_⟩
    intro x hx
    cases hx
  | some q =>
    obtain ⟨x, hx, hhash⟩ := h hash q hq
    refine ⟨some (q, x), by simp [hx], ?_⟩
    intro y hy
    obtain rfl := Option.some.inj hy
    exact ⟨getBlockAt_some.2 ⟨hhash ▸ hq, hx⟩, hhash⟩

theorem Linked.getBlockAt (h : m.Linked) (hash : UInt256) : ∃ c, m.getBlockAt hash = some c ∧
    ∀ x, c = some x → m.Stored x ∧ x.2.blockHash = hash := getBlockAt_of_keyed h.keyed hash

/-- The blocks on the chains of stored blocks are one higher than those before them. -/
theorem follows_graded (hheight : ∀ {b c}, m.Follows b c → blockHeight b = blockHeight c + 1) :
    Graded m.Follows blockHeight where
  unique hc hc' := Option.some.inj (Option.some.inj (hc.2.symm.trans hc'.2))
  height := hheight

theorem Linked.graded (h : m.Linked) : Graded m.Follows blockHeight := follows_graded h.height

theorem Follows.stored (h : m.Linked) (hc : m.Follows b c) : m.Stored c := by
  obtain ⟨d, hd, hstored⟩ := h.getBlockAt b.2.prevBlock
  rw [hc.2, Option.some.injEq] at hd
  exact (hstored c hd.symm).1

/-- Two stored blocks are equal if they have the same hash. -/
theorem blockEq_iff (hb : m.Stored b) (hb2 : m.Stored b2) :
    blockEq b.1 b.2 b2.1 b2.2 = true ↔ b = b2 := by
  rw [blockEq, decide_eq_true_eq]
  constructor
  · rintro (hptr | hhash)
    · have hload := (getBlockAt_some.1 hb).2
      rw [hptr, (getBlockAt_some.1 hb2).2, Option.some.injEq] at hload
      exact Prod.ext hptr hload.symm
    · unfold Stored at hb hb2
      rw [hhash, hb2] at hb
      exact (Option.some.inj (Option.some.inj hb)).symm
  · rintro rfl
    exact Or.inl rfl

/-! ## The walk back -/

theorem walkBack_none (fuel : ℕ) (b2 : Option BlockAt) :
    m.walkBack (fuel + 1) none b2 = some (none, b2) := by
  rw [walkBack]
  rintro _ _ h _
  cases h

theorem walkBack_none_right (fuel : ℕ) (b : Option BlockAt) :
    m.walkBack (fuel + 1) b none = some (b, none) := by
  rw [walkBack]
  rintro _ _ _ h
  cases h

/-- The walk back ends at the last common block, and with `NULL` if there is none. -/
theorem walkBack_joins (h : m.Linked) : ∀ (fuel : ℕ) {b b2 : BlockAt}, m.Stored b → m.Stored b2 →
    blockHeight b2 ≤ blockHeight b → blockHeight b + 2 ≤ fuel →
    (∃ j, Joins m.Follows blockHeight b b2 j ∧
      m.walkBack fuel (some b) (some b2) = some (some j, some j)) ∨
    ((∀ x, ¬ Common m.Follows b b2 x) ∧ ∃ c c2,
      m.walkBack fuel (some b) (some b2) = some (c, c2) ∧ (c = none ∨ c2 = none)) := by
  have hgraded := h.graded
  intro fuel
  induction fuel with
  | zero =>
    intro b b2 _ _ _ hfuel
    omega
  | succ fuel ih =>
    intro b b2 hb hb2 hle hfuel
    rw [walkBack]
    by_cases heq : b = b2
    · subst heq
      rw [if_pos ((blockEq_iff hb hb).2 rfl)]
      exact Or.inl ⟨b, hgraded.joins_self b, rfl⟩
    rw [if_neg ((blockEq_iff hb hb2).not.2 heq)]
    obtain ⟨fuel, rfl⟩ : ∃ n, fuel = n + 1 := ⟨fuel - 1, by omega⟩
    obtain ⟨c, hc, hcstored⟩ := h.getBlockAt b.2.prevBlock
    simp only [hc, Option.bind_eq_bind, Option.bind_some]
    cases c with
    | none =>
      refine Or.inr ⟨fun x => hgraded.not_common_root ?_ hle heq, none, some b2, ?_, Or.inl rfl⟩
      · rintro b' ⟨-, hb'⟩
        rw [hc] at hb'
        cases hb'
      · simp only [Option.any_none, Bool.false_eq_true, if_false, Option.bind_some]
        exact walkBack_none fuel (some b2)
    | some b' =>
      have hbb' : m.Follows b b' := ⟨hb, hc⟩
      obtain ⟨hb', -⟩ := hcstored b' rfl
      have hstep := h.height hbb'
      simp only [Option.any_some, decide_eq_true_eq]
      by_cases hlt : b'.2.height < b2.2.height
      · -- both walks take a step, from one height
        have hsame : blockHeight b = blockHeight b2 := by
          have hlt' : blockHeight b' < blockHeight b2 := UInt32.lt_iff_toNat_lt.1 hlt
          omega
        rw [if_pos hlt]
        obtain ⟨c2, hc2, hc2stored⟩ := h.getBlockAt b2.2.prevBlock
        rw [hc2, Option.bind_some]
        cases c2 with
        | none =>
          refine Or.inr ⟨?_, some b', none, walkBack_none_right fuel (some b'), Or.inr rfl⟩
          rintro x ⟨hx, hx2⟩
          refine hgraded.not_common_root ?_ (Nat.le_of_eq hsame) (Ne.symm heq) ⟨hx2, hx⟩
          rintro d ⟨-, hd⟩
          rw [hc2] at hd
          cases hd
        | some b2' =>
          have hbb2' : m.Follows b2 b2' := ⟨hb2, hc2⟩
          obtain ⟨hb2', -⟩ := hc2stored b2' rfl
          have hstep2 := h.height hbb2'
          have hcommon := fun x => hgraded.common_both (x := x) hbb' hbb2' hsame heq
          rcases ih hb' hb2' (by omega) (by omega) with ⟨j, hj, hwalk⟩ | ⟨hnone, hwalk⟩
          · exact Or.inl ⟨j, hj.congr hcommon, hwalk⟩
          · exact Or.inr ⟨fun x hx => hnone x ((hcommon x).1 hx), hwalk⟩
      · have hle' : blockHeight b2 ≤ blockHeight b' :=
          UInt32.le_iff_toNat_le.1 (UInt32.not_lt.1 hlt)
        rw [if_neg hlt, Option.bind_some]
        have hcommon := fun x => hgraded.common_left (x := x) hbb' hle'
        rcases ih hb' hb2 hle' (by omega) with ⟨j, hj, hwalk⟩ | ⟨hnone, hwalk⟩
        · exact Or.inl ⟨j, hj.congr hcommon, hwalk⟩
        · exact Or.inr ⟨fun x hx => hnone x ((hcommon x).1 hx), hwalk⟩

/-! ## The new branch -/

/-- The time that the transactions of a block get. -/
def txTime (m : BRBlockManager) (b : BRMerkleBlock UInt256) : UInt32 :=
  match m.getBlock b.prevBlock with
  | some (some prev) => b.timestamp / 2 + prev.timestamp / 2
  | _ => b.timestamp

/-- The confirmation of the transactions of a block. -/
structure Confirms (m : BRBlockManager) (b : BlockAt) (c : Confirmation) : Prop where
  count : b.2.txHashesCount = some c.count
  txHashes : b.2.txHashes c.count = some c.txHashes
  blockHeight : c.blockHeight = b.2.height
  timestamp : c.timestamp = m.txTime b.2

/-- The confirmations of the blocks above a height, from a block backwards. -/
inductive Branch (m : BRBlockManager) (joinHeight : UInt32) :
    Option BlockAt → List Confirmation → Prop
  | none : Branch m joinHeight none []
  | join {b : BlockAt} : ¬ b.2.height > joinHeight → Branch m joinHeight (some b) []
  | cons {b : BlockAt} {prev : Option BlockAt} {c : Confirmation} {cs : List Confirmation} :
    b.2.height > joinHeight → m.Confirms b c → m.getBlockAt b.2.prevBlock = some prev →
    Branch m joinHeight prev cs → Branch m joinHeight (some b) (c :: cs)

theorem txHashesR_zero {block : BRMerkleBlock UInt256} {depthFuel depth : ℕ} :
    ∀ {hashes : List UInt256} {idx hashIdx flagIdx : ℕ} {r : List UInt256 × ℕ × ℕ × ℕ},
    block.txHashesR false 0 depthFuel depth hashes idx hashIdx flagIdx = some r → r.1 = hashes := by
  induction depthFuel generalizing depth with
  | zero =>
    intro hashes idx hashIdx flagIdx r h
    cases h
  | succ depthFuel ih =>
    intro hashes idx hashIdx flagIdx r h
    rw [BRMerkleBlock.txHashesR] at h
    by_cases hmore : block.More hashIdx flagIdx
    · simp only [if_pos hmore, Option.bind_eq_bind, Option.bind_eq_some_iff] at h
      obtain ⟨flag, -, h⟩ := h
      cases flag with
      | false =>
        simp only [Bool.false_eq_true, if_false, Option.bind_some, if_true, false_and,
          Option.some.injEq] at h
        rw [← h]
      | true =>
        simp only [if_true, Option.bind_eq_some_iff] at h
        obtain ⟨leaf, -, h⟩ := h
        cases leaf with
        | true =>
          simp only [if_true, Nat.not_lt_zero, and_false, if_false, Option.some.injEq] at h
          rw [← h]
        | false =>
          simp only [Bool.false_eq_true, if_false, Option.bind_eq_some_iff] at h
          obtain ⟨⟨hashes₁, idx₁, hashIdx₁, flagIdx₁⟩, h₁, h⟩ := h
          rw [ih h, ← ih h₁]
    · rw [if_neg hmore, Option.some.injEq] at h
      rw [← h]

theorem txHashes_zero {block : BRMerkleBlock UInt256} {txHashes : List UInt256}
    (h : block.txHashes 0 = some txHashes) : txHashes = [] := by
  obtain ⟨r, hr, rfl⟩ := Option.map_eq_some_iff.1 h
  exact txHashesR_zero hr

theorem Linked.confirms (h : m.Linked) (hb : m.Stored b) : ∃ c, m.Confirms b c := by
  obtain ⟨count, txHashes, hcount, htxHashes⟩ := h.read b hb
  have hempty : count = 0 → txHashes = [] := by
    rintro rfl
    exact txHashes_zero htxHashes
  exact ⟨⟨count, txHashes, b.2.height, m.txTime b.2, hempty⟩, hcount, htxHashes, rfl, rfl⟩

theorem Linked.branch (h : m.Linked) (joinHeight : UInt32) : ∀ {n : ℕ} {b : BlockAt}, m.Stored b →
    blockHeight b < n → ∃ cs, m.Branch joinHeight (some b) cs ∧ cs.length ≤ n := by
  intro n
  induction n with
  | zero =>
    intro b _ hn
    omega
  | succ n ih =>
    intro b hb hn
    by_cases hheight : b.2.height > joinHeight
    · obtain ⟨c, hc⟩ := h.confirms hb
      obtain ⟨prev, hprev, hstored⟩ := h.getBlockAt b.2.prevBlock
      cases prev with
      | none => exact ⟨[c], .cons hheight hc hprev .none, by simp⟩
      | some b' =>
        have hstep := h.height ⟨hb, hprev⟩
        obtain ⟨cs, hcs, hlength⟩ := ih (hstored b' rfl).1 (by omega)
        exact ⟨c :: cs, .cons hheight hc hprev hcs, by simpa using hlength⟩
    · exact ⟨[], .join hheight, by simp⟩

theorem getBlock_eq (m : BRBlockManager) (hash : UInt256) :
    m.getBlock hash = (m.getBlockAt hash).map (Option.map Prod.snd) := by
  unfold getBlock getBlockAt
  cases m.blocks.lookup hash with
  | none => rfl
  | some q =>
    simp only [Option.map_map]
    rfl

/-- The loop over the new branch confirms one block after the other. -/
theorem setTxHeights_eq {b : Option BlockAt} (h : m.Branch joinHeight b cs) (now : ℤ) :
    ∀ (fuel : ℕ) (w : BRWallet), cs.length < fuel →
      m.setTxHeights now joinHeight fuel w (b.map Prod.snd) = cs.foldlM (BRWallet.confirm now) w := by
  induction h with
  | none =>
    intro fuel w hfuel
    obtain ⟨n, rfl⟩ : ∃ n, fuel = n + 1 := ⟨fuel - 1, by simp at hfuel; omega⟩
    rfl
  | join hheight =>
    intro fuel w hfuel
    obtain ⟨n, rfl⟩ : ∃ n, fuel = n + 1 := ⟨fuel - 1, by simp at hfuel; omega⟩
    rw [Option.map_some, setTxHeights, if_neg hheight]
    rfl
  | @cons b prev c cs hheight hc hprev _ ih =>
    intro fuel w hfuel
    rw [List.length_cons] at hfuel
    obtain ⟨n, rfl⟩ : ∃ n, fuel = n + 1 := ⟨fuel - 1, by omega⟩
    have hblock : m.getBlock b.2.prevBlock = some (prev.map Prod.snd) := by
      rw [getBlock_eq, hprev, Option.map_some]
    have htime : ((prev.map Prod.snd).elim b.2.timestamp fun prev =>
        b.2.timestamp / 2 + prev.timestamp / 2) = c.timestamp := by
      rw [hc.timestamp, txTime, hblock]
      cases prev <;> rfl
    rw [Option.map_some, setTxHeights, if_pos hheight]
    simp only [hc.count, hc.txHashes, hblock, htime, ← hc.blockHeight, Option.bind_eq_bind,
      Option.bind_some, List.foldlM_cons]
    unfold BRWallet.confirm
    refine Option.bind_congr fun w₁ _ => ?_
    exact ih n w₁ (by omega)

/-- The confirmations are of the blocks of the chain. -/
theorem Branch.mem {b : BlockAt} (h : m.Branch joinHeight (some b) cs) (hb : m.Stored b)
    (hm : m.Linked) {c : Confirmation} (hc : c ∈ cs) :
    ∃ x, Chain m.Follows b x ∧ x.2.height > joinHeight ∧ m.Confirms x c := by
  generalize hsome : some b = start at h
  induction h generalizing b with
  | none => cases hsome
  | join => cases hc
  | @cons b' prev d cs hheight hd hprev hrest ih =>
    obtain rfl := Option.some.inj hsome
    rcases List.mem_cons.1 hc with rfl | hc
    · exact ⟨b, .refl b, hheight, hd⟩
    · cases prev with
      | none => cases hrest; cases hc
      | some b' =>
        have hfollows : m.Follows b b' := ⟨hb, hprev⟩
        obtain ⟨x, hx, hxc⟩ := ih (hfollows.stored hm) hc rfl
        exact ⟨x, hx.head hfollows, hxc⟩

theorem Branch.confirms {b : BlockAt} (h : m.Branch joinHeight (some b) cs) (hm : m.Linked)
    (hx : Chain m.Follows b x) (hheight : x.2.height > joinHeight) :
    ∃ c ∈ cs, m.Confirms x c := by
  generalize hsome : some b = start at h
  induction h generalizing b with
  | none => cases hsome
  | @join b' hjoin =>
    obtain rfl := Option.some.inj hsome
    have habove := UInt32.lt_iff_toNat_lt.1 hheight
    exact absurd (UInt32.lt_iff_toNat_lt.2 (habove.trans_le (hm.graded.le hx))) hjoin
  | @cons b' prev d cs _ hd hprev _ ih =>
    obtain rfl := Option.some.inj hsome
    rcases hx.cases with rfl | ⟨b', hb', hx⟩
    · exact ⟨d, List.mem_cons_self, hd⟩
    · have hnext : some b' = prev := Option.some.inj (hb'.2.symm.trans hprev)
      obtain ⟨c, hc, hxc⟩ := ih hx hnext
      exact ⟨c, List.mem_cons_of_mem _ hc, hxc⟩

theorem Branch.nodup {b : BlockAt} (h : m.Branch joinHeight (some b) cs) (hb : m.Stored b)
    (hm : m.Linked) : (cs.map Confirmation.blockHeight).Nodup := by
  generalize hsome : some b = start at h
  induction h generalizing b with
  | none => cases hsome
  | join => exact List.nodup_nil
  | @cons b' prev d cs hheight hd hprev hrest ih =>
    obtain rfl := Option.some.inj hsome
    cases prev with
    | none => cases hrest; simp
    | some b' =>
      have hfollows : m.Follows b b' := ⟨hb, hprev⟩
      have hb' := hfollows.stored hm
      refine List.nodup_cons.2 ⟨?_, ih hb' rfl⟩
      intro hmem
      obtain ⟨c, hc, heq⟩ := List.mem_map.1 hmem
      obtain ⟨x, hx, -, hxc⟩ := hrest.mem hb' hm hc
      have hle := hm.graded.le hx
      have hstep := hm.height hfollows
      have hsame : blockHeight x = blockHeight b :=
        congrArg UInt32.toNat (hxc.blockHeight.symm.trans (heq.trans hd.blockHeight))
      omega

/-! ## The reorganization -/

/-- The block has a transaction with the hash. -/
def HasTx (b : BlockAt) (txHash : UInt256) : Prop :=
  ∃ count txHashes, b.2.txHashesCount = some count ∧ b.2.txHashes count = some txHashes ∧
    txHash ∈ txHashes

/-- The block is on the branch from `j` to `tip`. -/
def OnBranch (m : BRBlockManager) (tip j b : BlockAt) : Prop :=
  Chain m.Follows tip b ∧ b.2.height > j.2.height

/-- The chains of both blocks join at their last common block, where the walks back end.  Each
    listed transaction that is in a block of the new branch has its height then, and each that is
    in the old branch only is unconfirmed. -/
def Reorganizes (m : BRBlockManager) (now : ℤ) (tip last : BlockAt) : Prop :=
  ∃ j m' least, Joins m.Follows blockHeight tip last j ∧
    (∀ fuel ≥ least, m.walkBack fuel (some tip) (some last) = some (some j, some j) ∧
      m.reorganize fuel now tip.1 tip.2 = some m') ∧
    m'.lastBlock = some tip.1 ∧
    ∀ p ∈ m.wallet.transactions, ∀ tx, m.wallet.heap.load p = some tx →
      (∀ b, m.OnBranch tip j b → HasTx b tx.txHash →
        ∃ tx', m'.wallet.heap.load p = some tx' ∧ tx'.blockHeight = b.2.height) ∧
      ((∃ b, m.OnBranch last j b ∧ HasTx b tx.txHash) →
        (∀ b, m.OnBranch tip j b → ¬ HasTx b tx.txHash) →
        ∃ tx', m'.wallet.heap.load p = some tx' ∧ tx'.blockHeight = TX_UNCONFIRMED)

/-- The chains have a common block.  No listed transaction in a block of the new branch is freed
    with the update to its height, and it is in one block of the branch only.  A listed transaction
    in the old branch only is unconfirmed, or at the end of the list that is above the join. -/
def Reorganizable (m : BRBlockManager) (tip last : BlockAt) : Prop :=
  ∃ j, Joins m.Follows blockHeight tip last j ∧
    ∀ p ∈ m.wallet.transactions, ∀ tx, m.wallet.heap.load p = some tx →
      (∀ b, m.OnBranch tip j b → HasTx b tx.txHash →
        m.wallet.frees b.2.height (m.txTime b.2) (m.wallet.unconfirmed j.2.height p tx) = false ∧
          ∀ c, m.OnBranch tip j c → HasTx c tx.txHash → c.2.height = b.2.height) ∧
      ((∃ b, m.OnBranch last j b ∧ HasTx b tx.txHash) →
        (∀ b, m.OnBranch tip j b → ¬ HasTx b tx.txHash) →
        tx.blockHeight = TX_UNCONFIRMED ∨ p ∈ m.wallet.late j.2.height)

theorem Confirms.hasTx {c : Confirmation} (h : m.Confirms b c) {txHash : UInt256} :
    HasTx b txHash ↔ txHash ∈ c.txHashes := by
  constructor
  · rintro ⟨count, txHashes, hcount, htxHashes, hmem⟩
    rw [h.count, Option.some.injEq] at hcount
    rw [← hcount, h.txHashes, Option.some.injEq] at htxHashes
    rwa [htxHashes]
  · intro hmem
    exact ⟨c.count, c.txHashes, h.count, h.txHashes, hmem⟩

/-- What holds of the confirmations with a transaction holds of its blocks in the branch. -/
theorem Branch.forall_hasTx (h : m.Branch j.2.height (some tip) cs) (htip : m.Stored tip)
    (hm : m.Linked) (txHash : UInt256) {P : UInt32 → UInt32 → Prop} :
    (∀ c ∈ cs, txHash ∈ c.txHashes → P c.blockHeight c.timestamp) ↔
      ∀ b, m.OnBranch tip j b → HasTx b txHash → P b.2.height (m.txTime b.2) := by
  constructor
  · rintro hall b ⟨hb, hheight⟩ hmem
    obtain ⟨c, hc, hbc⟩ := h.confirms hm hb hheight
    have hP := hall c hc (hbc.hasTx.1 hmem)
    rwa [hbc.blockHeight, hbc.timestamp] at hP
  · intro hall c hc hmem
    obtain ⟨b, hb, hheight, hbc⟩ := h.mem htip hm hc
    have hP := hall b ⟨hb, hheight⟩ (hbc.hasTx.2 hmem)
    rwa [← hbc.blockHeight, ← hbc.timestamp] at hP

/-- With a common block the handler does what the two loops over the transactions do. -/
theorem reorganize_eq (hlast : m.lastBlock = some last.1) (hload : m.heap.load last.1 = some last.2)
    (hwalk : m.walkBack fuel (some tip) (some last) = some (some j, some j))
    (hbranch : m.Branch j.2.height (some tip) cs) (hfuel : cs.length < fuel) :
    m.reorganize fuel now tip.1 tip.2 = (m.wallet.rejoin now j.2.height cs).map fun wallet =>
      { m with wallet, lastBlock := some tip.1 } := by
  have hloop := fun w => setTxHeights_eq hbranch now fuel w hfuel
  simp only [Option.map_some] at hloop
  simp only [reorganize, hlast, hload, hwalk, hloop, BRWallet.rejoin, Option.bind_eq_bind,
    Option.bind_some]
  cases m.wallet.setTxUnconfirmedAfter now j.2.height with
  | none => rfl
  | some w =>
    simp only [Option.bind_some]
    cases cs.foldlM (BRWallet.confirm now) w with
    | none => rfl
    | some w' => rfl

/-- What becomes of a listed transaction, by the blocks and by their confirmations. -/
theorem rejoined_onBranch (hbranch : m.Branch j.2.height (some tip) cs) (htip : m.Stored tip)
    (hm : m.Linked) (w' : BRWallet) (p : Ptr) (txHash : UInt256) :
    BRWallet.Rejoined cs (fun h => ∃ b, m.OnBranch last j b ∧ HasTx b h) w' p txHash ↔
    (∀ b, m.OnBranch tip j b → HasTx b txHash →
      ∃ tx', w'.heap.load p = some tx' ∧ tx'.blockHeight = b.2.height) ∧
    ((∃ b, m.OnBranch last j b ∧ HasTx b txHash) →
      (∀ b, m.OnBranch tip j b → ¬ HasTx b txHash) →
      ∃ tx', w'.heap.load p = some tx' ∧ tx'.blockHeight = TX_UNCONFIRMED) := by
  refine and_congr ?_ (imp_congr_right fun _ => imp_congr_left ?_)
  · exact hbranch.forall_hasTx htip hm txHash
      (P := fun height _ => ∃ tx', w'.heap.load p = some tx' ∧ tx'.blockHeight = height)
  · exact hbranch.forall_hasTx htip hm _ (P := fun _ _ => False)

theorem rejoins_onBranch (hbranch : m.Branch j.2.height (some tip) cs) (htip : m.Stored tip)
    (hm : m.Linked) (p : Ptr) (tx : BRTransaction) :
    m.wallet.Rejoins j.2.height cs (fun h => ∃ b, m.OnBranch last j b ∧ HasTx b h) p tx ↔
    (∀ b, m.OnBranch tip j b → HasTx b tx.txHash →
      m.wallet.frees b.2.height (m.txTime b.2) (m.wallet.unconfirmed j.2.height p tx) = false ∧
        ∀ c, m.OnBranch tip j c → HasTx c tx.txHash → c.2.height = b.2.height) ∧
    ((∃ b, m.OnBranch last j b ∧ HasTx b tx.txHash) →
      (∀ b, m.OnBranch tip j b → ¬ HasTx b tx.txHash) →
      tx.blockHeight = TX_UNCONFIRMED ∨ p ∈ m.wallet.late j.2.height) := by
  have honly := fun height => hbranch.forall_hasTx htip hm tx.txHash
    (P := fun height' _ => height' = height)
  refine and_congr ?_ (imp_congr_right fun _ => imp_congr_left ?_)
  · refine Iff.trans ?_ (hbranch.forall_hasTx htip hm tx.txHash
      (P := fun height time => m.wallet.frees height time (m.wallet.unconfirmed j.2.height p tx) =
        false ∧ ∀ c, m.OnBranch tip j c → HasTx c tx.txHash → c.2.height = height))
    refine forall_congr' fun c => imp_congr_right fun _ => imp_congr_right fun _ => ?_
    exact and_congr_right fun _ => honly c.blockHeight
  · exact hbranch.forall_hasTx htip hm _ (P := fun _ _ => False)

/-- When a reorganization joins the chains at their last common block, and leaves the listed
    transactions as the new branch has them. -/
theorem reorganizes_iff (m : BRBlockManager) (now : ℤ) (tip last : BlockAt) (hm : m.Linked)
    (hw : m.wallet.Sound) (htip : m.Stored tip) (hstored : m.Stored last)
    (hlast : m.lastBlock = some last.1) (hheight : tip.2.height > last.2.height) :
    m.Reorganizes now tip last ↔ m.Reorganizable tip last := by
  have hload := (getBlockAt_some.1 hstored).2
  have hle : blockHeight last ≤ blockHeight tip := (UInt32.lt_iff_toNat_lt.1 hheight).le
  constructor
  · rintro ⟨j, m', least, hj, hresult, -, htxs⟩
    obtain ⟨cs, hcs, -⟩ := hm.branch j.2.height htip (Nat.lt_succ_self _)
    obtain ⟨hwalk, hreorganize⟩ := hresult (least + cs.length + 1) (by omega)
    rw [reorganize_eq hlast hload hwalk hcs (by omega)] at hreorganize
    obtain ⟨w', hw', rfl⟩ := Option.map_eq_some_iff.1 hreorganize
    have hrejoins := (BRWallet.rejoin_iff hw now j.2.height (hcs.nodup htip hm) _).1
      ⟨w', hw', fun p hp tx htx => (rejoined_onBranch hcs htip hm w' p _).2 (htxs p hp tx htx)⟩
    exact ⟨j, hj, fun p hp tx htx => (rejoins_onBranch hcs htip hm p tx).1 (hrejoins p hp tx htx)⟩
  · rintro ⟨j, hj, htxs⟩
    obtain ⟨cs, hcs, -⟩ := hm.branch j.2.height htip (Nat.lt_succ_self _)
    obtain ⟨w', hw', hrejoined⟩ := (BRWallet.rejoin_iff hw now j.2.height (hcs.nodup htip hm) _).2
      fun p hp tx htx => (rejoins_onBranch hcs htip hm p tx).2 (htxs p hp tx htx)
    refine ⟨j, { m with wallet := w', lastBlock := some tip.1 }, blockHeight tip + 2 + cs.length + 1,
      hj, ?_, rfl, fun p hp tx htx =>
      (rejoined_onBranch hcs htip hm w' p _).1 (hrejoined p hp tx htx)⟩
    intro fuel hfuel
    have hwalk : m.walkBack fuel (some tip) (some last) = some (some j, some j) := by
      rcases walkBack_joins hm fuel htip hstored hle (by omega) with
        ⟨j', hj', hwalk⟩ | ⟨hnone, -⟩
      · rwa [hm.graded.joins_unique hj hj']
      · exact absurd hj.common (hnone j)
    refine ⟨hwalk, ?_⟩
    rw [reorganize_eq hlast hload hwalk hcs (by omega), hw', Option.map_some]

end

/-! ## Sample chains -/

/-- The manager with the blocks of the list, at the pointers 0, 1, and so on. -/
def sampleChain (wallet : BRWallet) (bs : List (BRMerkleBlock UInt256)) (lastBlock : Ptr) :
    BRBlockManager where
  wallet := wallet
  params := sampleParams
  heap := ⟨bs.map some⟩
  blocks := bs.zipIdx.foldl (fun blocks b => blocks.insert b.1.blockHash b.2) ∅
  lastBlock := some lastBlock

section
variable {wallet : BRWallet} {bs : List (BRMerkleBlock UInt256)} {lastBlock : Ptr} {x y : BlockAt}

theorem lookup_foldl_insert {l : List (BRMerkleBlock UInt256 × Ptr)} {hash : UInt256} {p : Ptr} :
    ∀ {blocks : AList fun _ : UInt256 => Ptr},
    (l.foldl (fun blocks b => blocks.insert b.1.blockHash b.2) blocks).lookup hash = some p →
    blocks.lookup hash = some p ∨ ∃ b, (b, p) ∈ l ∧ b.blockHash = hash := by
  induction l with
  | nil =>
    intro blocks h
    exact Or.inl h
  | cons b l ih =>
    intro blocks h
    rcases ih h with h | ⟨c, hc, hhash⟩
    · by_cases heq : hash = b.1.blockHash
      · subst heq
        rw [AList.lookup_insert, Option.some.injEq] at h
        exact Or.inr ⟨b.1, by simp [← h], rfl⟩
      · rw [AList.lookup_insert_ne heq] at h
        exact Or.inl h
    · exact Or.inr ⟨c, List.mem_cons_of_mem _ hc, hhash⟩

theorem sampleChain_lookup {hash : UInt256} {p : Ptr}
    (h : (sampleChain wallet bs lastBlock).blocks.lookup hash = some p) :
    ∃ b ∈ bs, (sampleChain wallet bs lastBlock).heap.load p = some b ∧ b.blockHash = hash := by
  rcases lookup_foldl_insert h with h | ⟨b, hb, hhash⟩
  · cases h
  · have hget := (List.mem_zipIdx_iff_getElem?).1 hb
    refine ⟨b, List.mem_of_getElem? hget, ?_, hhash⟩
    simp [sampleChain, Heap.load, hget]

theorem sampleChain_stored (hx : (sampleChain wallet bs lastBlock).Stored x) : x.2 ∈ bs := by
  obtain ⟨hlookup, hload⟩ := getBlockAt_some.1 hx
  obtain ⟨b, hb, hload', -⟩ := sampleChain_lookup hlookup
  rw [hload, Option.some.injEq] at hload'
  rwa [hload']

theorem sampleChain_follows (hy : (sampleChain wallet bs lastBlock).Follows x y) :
    x.2 ∈ bs ∧ y.2 ∈ bs ∧ y.2.blockHash = x.2.prevBlock := by
  obtain ⟨hlookup, hload⟩ := getBlockAt_some.1 hy.2
  obtain ⟨b, hb, hload', hhash⟩ := sampleChain_lookup hlookup
  rw [hload, Option.some.injEq] at hload'
  rw [hload']
  exact ⟨sampleChain_stored hy.1, hb, hhash⟩

theorem sampleChain_linked
    (hheight : ∀ b ∈ bs, ∀ c ∈ bs, c.blockHash = b.prevBlock → b.height.toNat = c.height.toNat + 1)
    (hread : ∀ b ∈ bs, (b.txHashesCount.bind b.txHashes).isSome) :
    (sampleChain wallet bs lastBlock).Linked := by
  refine ⟨?_, ?_, ?_⟩
  · intro hash p hp
    obtain ⟨b, -, hload, hhash⟩ := sampleChain_lookup hp
    exact ⟨b, hload, hhash⟩
  · intro x y hy
    obtain ⟨hx, hy, hhash⟩ := sampleChain_follows hy
    exact hheight _ hx _ hy hhash
  · intro x hx
    obtain ⟨txHashes, h⟩ := Option.isSome_iff_exists.1 (hread _ (sampleChain_stored hx))
    obtain ⟨count, hcount, htxHashes⟩ := Option.bind_eq_some_iff.1 h
    exact ⟨count, txHashes, hcount, htxHashes⟩

/-- A chain stays in a part of the blocks that is closed under previous blocks. -/
theorem sampleChain_chain (part : List (BRMerkleBlock UInt256)) (hx : x.2 ∈ part)
    (hpart : ∀ b ∈ part, ∀ c ∈ bs, c.blockHash = b.prevBlock → c ∈ part)
    (hy : Chain (sampleChain wallet bs lastBlock).Follows x y) : y.2 ∈ part := by
  refine hy.induct (P := fun y => y.2 ∈ part) hx ?_
  intro b c hb hc
  obtain ⟨-, hc, hhash⟩ := sampleChain_follows hc
  exact hpart _ hb _ hc hhash

theorem sound_of_single {w : BRWallet} {tx : BRTransaction} (hl : w.Listed)
    (hh : w.heap = ⟨[some tx]⟩) (hts : w.transactions = [0]) (ht : tx.outputs.length ≤ 2 ^ 32) :
    w.Sound := by
  refine ⟨hl, ?_, BRWallet.indexed_of_single hh ht⟩
  intro p hp
  rw [hts, List.mem_singleton] at hp
  exact ⟨tx, by rw [hp, hh]; rfl⟩

/-- The first checkpoint. -/
def firstBlock : BRMerkleBlock UInt256 := checkPointBlock ⟨0, 1, 0, 0⟩

/-- A fork after the last checkpoint; the `lastBlock` is the first one. -/
theorem not_reorganizes : ¬ ∀ (m : BRBlockManager) (now : ℤ) (tip last : BlockAt), m.Linked →
    m.Rooted → m.wallet.Sound → m.Stored tip → m.Stored last → m.lastBlock = some last.1 →
    tip.2.height > last.2.height → m.Reorganizes now tip last := by
  intro h
  have hwallet : ∃ w, BRWallet.new BRWallet.sampleEnv 100 0 ⟨[some BRWallet.receipt]⟩ [0] =
      some (some w) ∧ w.transactions = [0] ∧ w.heap = ⟨[some BRWallet.receipt]⟩ :=
    ⟨_, rfl, by decide, rfl⟩
  obtain ⟨w, hnew, htxs, hheap⟩ := hwallet
  have hsound : w.Sound :=
    sound_of_single (BRWallet.init_listed ⟨100, 0, _, _, hnew⟩) hheap htxs (by decide)
  let checkpoint := checkPointBlock ⟨2, 9, 0, 0⟩
  let tip := { sampleBlock 10 9 with height := 3 }
  let bs := [firstBlock, checkpoint, tip]
  have hrooted : (sampleChain w bs 0).Rooted := by
    intro b hb hroot
    have hmem := sampleChain_stored hb
    have hcases : b.2 = firstBlock ∨ b.2 = checkpoint ∨ b.2 = tip := by simpa [bs] using hmem
    rcases hcases with heq | heq | heq
    · exact ⟨⟨0, 1, 0, 0⟩, by simp [sampleChain, sampleParams], by rw [heq]; rfl⟩
    · exact ⟨⟨2, 9, 0, 0⟩, by simp [sampleChain, sampleParams], by rw [heq]; rfl⟩
    · exact absurd ⟨hb, by rw [heq]; rfl⟩ (hroot (1, checkpoint))
  obtain ⟨j, -, -, hj, -⟩ := h (sampleChain w bs 0) 0 (2, tip) (0, firstBlock)
    (sampleChain_linked (by decide) (by decide)) hrooted hsound rfl rfl rfl (by decide)
  have htip := sampleChain_chain [tip, checkpoint] (by simp) (by decide) hj.common.1
  have hlast := sampleChain_chain [firstBlock] (by simp) (by decide) hj.common.2
  rw [List.mem_singleton] at hlast
  rw [hlast] at htip
  revert htip
  decide

/-- The old branch is a block with the receipt, the new one two blocks without transactions of the
    wallet. -/
theorem reorganizes_sample : ∃ w bs tip last, (BRWallet.system BRWallet.sampleEnv).init w ∧
    tip ∈ bs ∧ last ∈ bs ∧ tip.prevBlock ≠ last.blockHash ∧
    (sampleChain w bs 1).Reorganizes 0 (3, tip) (1, last) := by
  have hwallet : ∃ w, BRWallet.new BRWallet.sampleEnv 100 0
      ⟨[some (BRWallet.receipt.setBlock 1 0)]⟩ [0] = some (some w) ∧
      w.transactions = [0] ∧ w.heap = ⟨[some (BRWallet.receipt.setBlock 1 0)]⟩ :=
    ⟨_, rfl, by decide, rfl⟩
  obtain ⟨w, hnew, htxs, hheap⟩ := hwallet
  have hsound : w.Sound :=
    sound_of_single (BRWallet.init_listed ⟨100, 0, _, _, hnew⟩) hheap htxs (by decide)
  let last := { sampleBlock 2 1 with
    height := 1, hashes := [1], hashesCount := 1, flags := [1], flagsLen := 1 }
  let middle := { sampleBlock 3 1 with height := 1 }
  let tip := { sampleBlock 4 3 with height := 2 }
  let bs := [firstBlock, last, middle, tip]
  refine ⟨w, bs, tip, last, ⟨100, 0, _, _, hnew⟩, by simp [bs], by simp [bs], by decide, ?_⟩
  refine (reorganizes_iff (sampleChain w bs 1) 0 (3, tip) (1, last)
    (sampleChain_linked (by decide) (by decide)) hsound rfl rfl rfl (by decide)).2 ?_
  have hnew : ∀ x, Chain (sampleChain w bs 1).Follows (3, tip) x →
      x.2 ∈ [tip, middle, firstBlock] :=
    fun x hx => sampleChain_chain _ (by simp) (by decide) hx
  have hold : ∀ x, Chain (sampleChain w bs 1).Follows (1, last) x → x.2 ∈ [last, firstBlock] :=
    fun x hx => sampleChain_chain _ (by simp) (by decide) hx
  have hmiddle : (sampleChain w bs 1).Follows (3, tip) (2, middle) := ⟨rfl, rfl⟩
  have hfirst : (sampleChain w bs 1).Follows (2, middle) (0, firstBlock) := ⟨rfl, rfl⟩
  have hlast : (sampleChain w bs 1).Follows (1, last) (0, firstBlock) := ⟨rfl, rfl⟩
  refine ⟨(0, firstBlock), ⟨⟨.head hmiddle (.head hfirst (.refl _)), .head hlast (.refl _)⟩, ?_⟩, ?_⟩
  · intro x hx
    have htip := hnew x hx.1
    have hlast := hold x hx.2
    have heq : x.2 = firstBlock := by
      rcases List.mem_cons.1 hlast with heq | hlast
      · rw [heq] at htip
        exact absurd htip (by decide)
      · exact List.mem_singleton.1 hlast
    unfold blockHeight
    rw [heq]
  · intro p hp tx htx
    have hlate : p ∈ w.late 0 := by
      have hp : p ∈ [0] := htxs ▸ hp
      unfold BRWallet.late
      rw [htxs, List.rtakeWhile_eq_self_iff.2]
      · exact hp
      · intro q hq
        rw [List.mem_singleton.1 hq, BRWallet.heightTest, hheap]
        decide
    have hnone : ∀ b, (sampleChain w bs 1).OnBranch (3, tip) (0, firstBlock) b →
        ∀ h, ¬ HasTx b h := by
      rintro b ⟨hb, -⟩ h ⟨count, txHashes, hcount, htxHashes, hmem⟩
      have hempty : ∀ b ∈ [tip, middle, firstBlock], b.txHashesCount.bind b.txHashes = some [] := by
        decide
      have hb := hempty _ (hnew b hb)
      rw [hcount, Option.bind_some, htxHashes, Option.some.injEq] at hb
      rw [hb] at hmem
      cases hmem
    exact ⟨fun b hb hmem => absurd hmem (hnone b hb _), fun _ _ => Or.inr hlate⟩

end

end BRBlockManager

end RavenWallet
