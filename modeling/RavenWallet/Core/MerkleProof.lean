/-
  What a merkle block proves (BRMerkleBlock.c).

  * `included_of_counted`: in a valid block every reported hash has a path to
    the merkle root, if the walk for the root does not drop a branch with a
    reported hash;
  * `decodes_iff`: the walks decode the partial merkle branch of any list of
    hashes, if the list is shorter than 2^31 or nothing in it is matched.
-/
import RavenWallet.Core.MerkleBlock

namespace RavenWallet

open Merkle BRMerkleBlock

namespace BRMerkleBlock

variable {α : Type} [DecidableEq α] (M : MerkleHash α) (block : BRMerkleBlock α)

/-! ## Inclusion -/

/-- Every reported hash has a path of `_ceil_log2(totalTx)` siblings to the merkle root. -/
def Included : Prop :=
  ∀ n hs, block.txHashes n = some hs → ∀ x ∈ hs, ∃ d, ceilLog2 block.totalTx = some d ∧
    ∃ p : Path α, p.length = d ∧ p.eval M.sha256_2 x = block.merkleRoot

/-- The walk for the root drops no branch with a reported hash, and without transactions, where the
    root is not checked, there is nothing to report but the root. -/
structure Counted : Prop where
  held : block.Held
  counted : ∀ d, ceilLog2 block.totalTx = some d →
    ∀ x ∈ (block.tree d).matched, x ∈ (block.tree d).counted M.zero M.sha256_2
  empty : block.totalTx = 0 → ∀ x ∈ (block.tree 0).matched, x = block.merkleRoot

variable {M block}

/-- A valid block has a root, which is the merkle root if there are transactions. -/
theorem root_of_isValid {currentTime : UInt32} (h : block.isValid M currentTime = some true) :
    ∃ v, block.root M = some v ∧ (block.totalTx ≠ 0 → v = block.merkleRoot) := by
  rw [isValid] at h
  obtain ⟨v, hv, h⟩ := Option.bind_eq_some_iff.1 h
  obtain ⟨t, -, h⟩ := Option.bind_eq_some_iff.1 h
  refine ⟨v, hv, fun h0 => ?_⟩
  have hpos : block.totalTx > 0 := UInt32.pos_iff_ne_zero.2 h0
  simp only [Option.some.injEq, Bool.and_eq_true, Bool.not_eq_true', decide_eq_false_iff_not] at h
  exact Classical.not_not.1 fun hne => h.1.1.1 ⟨hpos, hne⟩

/-- Where `_ceil_log2` does not return, a walk that returns has read no set flag. -/
theorem txHashes_of_root {v : α} (hr : block.root M = some v)
    (hd : ceilLog2 block.totalTx = none) {n : ℕ} {hs : List α} (hn : block.txHashes n = some hs) :
    hs = [] := by
  rw [root, maxDepth, rootR] at hr
  rw [txHashes, maxDepth, txHashesR] at hn
  by_cases hm : block.More 0 0
  · rw [if_pos hm, hd] at hr hn
    cases hf : block.flag 0 with
    | none =>
      rw [hf] at hn
      cases hn
    | some flag =>
      rw [hf] at hr hn
      cases flag with
      | true => cases hr
      | false =>
        obtain rfl := Option.some.inj hn
        rfl
  · rw [if_neg hm] at hn
    obtain rfl := Option.some.inj hn
    rfl

theorem included_of_counted {currentTime : UInt32} (hc : Counted M block)
    (hv : block.isValid M currentTime = some true) : Included M block := by
  intro n hs hn x hx
  obtain ⟨v, hroot, hmerkle⟩ := root_of_isValid hv
  cases hd : ceilLog2 block.totalTx with
  | none =>
    rw [txHashes_of_root hroot hd hn] at hx
    cases hx
  | some d =>
    rw [txHashes_eq hc.held hd] at hn
    obtain rfl := Option.some.inj hn
    have hmem : x ∈ (block.tree d).matched := List.mem_of_mem_take hx
    refine ⟨d, rfl, ?_⟩
    by_cases h0 : block.totalTx = 0
    · rw [h0] at hd
      obtain rfl : 0 = d := Option.some.inj hd
      exact ⟨[], rfl, hc.empty h0 x hmem⟩
    · obtain ⟨p, hp, hev⟩ := Partial.exists_path (hc.counted d hd x hmem)
      rw [root_eq hc.held hd] at hroot
      exact ⟨p, hp, by rw [hev, ← hmerkle h0]; exact Option.some.inj hroot⟩

/-! ## Decoding -/

variable (M block)

/-- The block has the partial merkle branch of the list `l`, in which some hashes are matched, with
    padding after its bits. -/
structure Encodes (l : List (α × Bool)) : Prop where
  held : block.Held
  totalTx : block.totalTx.toNat = l.length
  hashes : block.hashes = (encode M.zero M.sha256_2 (Nat.clog 2 l.length) l).2
  flags : ∃ n, (encode M.zero M.sha256_2 (Nat.clog 2 l.length) l).1.length ≤ 8 * n ∧
    block.flags = packBits n (encode M.zero M.sha256_2 (Nat.clog 2 l.length) l).1

/-- A block with the partial merkle branch of `l`, and as little padding as possible. -/
def ofBranch (l : List (α × Bool)) : BRMerkleBlock α :=
  let branch := encode M.zero M.sha256_2 (Nat.clog 2 l.length) l
  { blockHash := M.zero
    prevBlock := M.zero
    merkleRoot := rootOf M.zero M.sha256_2 (Nat.clog 2 l.length) (l.map Prod.fst)
    mixHash := M.zero
    totalTx := UInt32.ofNat l.length
    hashes := branch.2
    hashesCount := branch.2.length
    flags := packBits ((branch.1.length + 7) / 8) branch.1
    flagsLen := (branch.1.length + 7) / 8 }

/-- The walks give the merkle root of `l`, and the number of its matched hashes and these. -/
structure Decodes (l : List (α × Bool)) : Prop where
  root : block.root M =
    some (rootOf M.zero M.sha256_2 (Nat.clog 2 l.length) (l.map Prod.fst))
  count : block.txHashesCount = some (flagged l).length
  hashes : ∀ n, block.txHashes n = some ((flagged l).take n)

variable {M block}

omit [DecidableEq α] in
theorem Encodes.bits {l : List (α × Bool)} (he : Encodes M block l) : ∃ m, block.bits =
    (encode M.zero M.sha256_2 (Nat.clog 2 l.length) l).1 ++ List.replicate m false := by
  obtain ⟨n, hn, hflags⟩ := he.flags
  exact ⟨_, by rw [BRMerkleBlock.bits, hflags, bitsOf_packBits hn]⟩

omit [DecidableEq α] in
theorem encodes_ofBranch {l : List (α × Bool)} (h : l.length < 2 ^ 32) :
    Encodes M (ofBranch M l) l := by
  have hle : Nat.clog 2 l.length ≤ 32 := (Nat.clog_le_iff_le_pow (by decide)).2 h.le
  have hbits : (encode M.zero M.sha256_2 (Nat.clog 2 l.length) l).1.length + 1 ≤ 2 ^ 33 :=
    (length_encode_fst (Nat.le_pow_clog (by decide) _)).trans
      (Nat.pow_le_pow_right (by decide) (by omega))
  have hhashes : (encode M.zero M.sha256_2 (Nat.clog 2 l.length) l).2.length ≤
      (encode M.zero M.sha256_2 (Nat.clog 2 l.length) l).1.length := length_encode_snd _ _
  refine ⟨⟨rfl, length_packBits _ _, ?_, ?_⟩, ?_, rfl, _, ?_, rfl⟩
  · change (encode M.zero M.sha256_2 (Nat.clog 2 l.length) l).2.length ≤ SIZE_MAX
    rw [SIZE_MAX]
    omega
  · change ((encode M.zero M.sha256_2 (Nat.clog 2 l.length) l).1.length + 7) / 8 ≤ SIZE_MAX
    rw [SIZE_MAX]
    omega
  · change (UInt32.ofNat l.length).toNat = l.length
    rw [UInt32.toNat_ofNat', Nat.mod_eq_of_lt h]
  · omega

theorem decodes_of_lt {l : List (α × Bool)} (h0 : l ≠ [])
    (hp : Plain M.zero M.sha256_2 (Nat.clog 2 l.length) (l.map Prod.fst))
    (he : Encodes M block l) (h : l.length < 2 ^ 31) : Decodes M block l := by
  have hd : ceilLog2 block.totalTx = some (Nat.clog 2 l.length) := by
    rw [ceilLog2_eq (by rw [he.totalTx]; exact h), he.totalTx]
  obtain ⟨m, hbits⟩ := he.bits
  obtain ⟨t, hread, hroot, hmatched⟩ := read_encode h0 (Nat.le_pow_clog (by decide) _) hp
    (List.replicate m false) (Or.inr rfl)
  have htree : block.tree (Nat.clog 2 l.length) = t := by
    rw [tree, hbits, he.hashes, ← List.append_nil (encode _ _ _ _).2, hread]
  refine ⟨?_, ?_, fun n => ?_⟩
  · rw [root_eq he.held hd, htree, hroot]
  · rw [txHashesCount_eq he.held hd, htree, hmatched]
  · rw [txHashes_eq he.held hd, htree, hmatched]

/-- The walks over a branch without a set flag. -/
theorem walks_of_unflagged {x : α} (hw : block.Held) (hbit : block.bits.head? = some false)
    (hhash : block.hashes.head? = some x) :
    block.root M = some x ∧ block.txHashesCount = some 0 ∧ ∀ n, block.txHashes n = some [] := by
  have hflag : block.flag 0 = some false := by
    rw [← hbit, List.head?_eq_getElem?, BRMerkleBlock.bits, getElem?_bitsOf]
    rfl
  have hx : block.hashes[0]? = some x := by rw [← hhash, List.head?_eq_getElem?]
  have hm : block.More 0 0 := by
    by_contra hm
    rcases hw.not_more hm with hnil | hnil
    · rw [List.drop_zero] at hnil
      rw [hnil] at hbit
      cases hbit
    · rw [List.drop_zero] at hnil
      rw [hnil] at hhash
      cases hhash
  refine ⟨?_, ?_, fun n => ?_⟩
  · rw [root, maxDepth, rootR, if_pos hm, hflag, hx]
    rfl
  · rw [txHashesCount, maxDepth, txHashesR, if_pos hm, hflag]
    rfl
  · rw [txHashes, maxDepth, txHashesR, if_pos hm, hflag]
    rfl

/-- From `2 ^ 31` hashes on `_ceil_log2` does not return, which it is called for only below a
    matched hash. -/
theorem decodes_of_le {l : List (α × Bool)} (he : Encodes M block l) (h : 2 ^ 31 ≤ l.length) :
    Decodes M block l ↔ flagged l = [] := by
  constructor
  · intro hdec
    have hd : ceilLog2 block.totalTx = none := ceilLog2_none (by rw [he.totalTx]; exact h)
    have hnil := txHashes_of_root hdec.root hd (hdec.hashes (flagged l).length)
    rwa [List.take_length] at hnil
  · intro hnil
    obtain ⟨m, hbits⟩ := he.bits
    have hany : ¬ l.any Prod.snd = true := by
      intro hany
      obtain ⟨x, hx, hflag⟩ := List.any_eq_true.1 hany
      have hmem : x.1 ∈ flagged l := List.mem_map_of_mem (List.mem_filter.2 ⟨hx, hflag⟩)
      rw [hnil] at hmem
      cases hmem
    obtain ⟨k, hk⟩ : ∃ k, Nat.clog 2 l.length = k + 1 := by
      refine ⟨Nat.clog 2 l.length - 1, ?_⟩
      have hpos : 0 < Nat.clog 2 l.length :=
        Nat.clog_pos (by decide) (le_trans (by decide) h)
      omega
    have henc : encode M.zero M.sha256_2 (Nat.clog 2 l.length) l = ([false],
        [rootOf M.zero M.sha256_2 (Nat.clog 2 l.length) (l.map Prod.fst)]) := by
      rw [hk, encode, if_neg hany]
    obtain ⟨hroot, hcount, hhashes⟩ := walks_of_unflagged (M := M) he.held
      (by rw [hbits, henc]; rfl) (by rw [he.hashes, henc]; rfl)
    refine ⟨hroot, ?_, fun n => ?_⟩
    · rw [hcount, hnil]
      rfl
    · rw [hhashes, hnil, List.take_nil]

/-- The partial merkle branch of a list is decoded if and only if the list is shorter than `2 ^ 31`
    or nothing in it is matched. -/
theorem decodes_iff {l : List (α × Bool)} (h0 : l ≠ [])
    (hp : Plain M.zero M.sha256_2 (Nat.clog 2 l.length) (l.map Prod.fst))
    (he : Encodes M block l) : Decodes M block l ↔ l.length < 2 ^ 31 ∨ flagged l = [] := by
  rcases Nat.lt_or_ge l.length (2 ^ 31) with hlt | hge
  · exact ⟨fun _ => Or.inl hlt, fun _ => decodes_of_lt h0 hp he hlt⟩
  · rw [decodes_of_le he hge]
    exact ⟨Or.inr, fun h => h.resolve_left (Nat.not_lt.2 hge)⟩

end BRMerkleBlock

/-- A free hash: atoms, and the double hash of two digests. -/
inductive Digest where
  | zero
  | atom (n : ℕ)
  | sha256_2 (left right : Digest)
  deriving DecidableEq

/-- The digests as hashes of blocks. -/
def Digest.hash : MerkleHash Digest where
  zero := zero
  sha256_2 := sha256_2
  bytes
    | atom n => toLE 32 n
    | _ => List.replicate 32 0

theorem Digest.plain {l : List Digest} (hl : l.Nodup) (hz : zero ∉ l) (k : ℕ) :
    Plain zero sha256_2 k l :=
  plain_of_nodup (fun _ _ _ _ heq => Digest.sha256_2.inj heq)
    (fun _ _ heq => Digest.noConfusion heq) k hl hz

/-- The example of the source: three transactions, the second matched. -/
def threeTx : List (Digest × Bool) := [(.atom 1, false), (.atom 2, true), (.atom 3, false)]

theorem decodes_threeTx : Decodes Digest.hash (ofBranch Digest.hash threeTx) threeTx ↔
    threeTx.length < 2 ^ 31 ∨ flagged threeTx = [] :=
  decodes_iff (List.cons_ne_nil _ _) (Digest.plain (by decide) (by decide) _)
    (encodes_ofBranch (by decide))

def threeTxBlock : BRMerkleBlock Digest :=
  { ofBranch Digest.hash threeTx with target := MAX_PROOF_OF_WORK }

theorem included_threeTx : threeTxBlock.Included Digest.hash :=
  included_of_counted ⟨⟨rfl, rfl, by decide, by decide⟩, fun d hd => by
    obtain rfl : d = 2 := Option.some.inj (hd.symm.trans (by decide))
    decide, fun h => absurd h (by decide)⟩
    (by decide : threeTxBlock.isValid Digest.hash 0 = some true)

/-- A block of five transactions, none of them matched, with a branch of two equal hashes where the
    last branch is duplicated. -/
def twins : BRMerkleBlock Digest where
  blockHash := .atom 0
  prevBlock := .zero
  merkleRoot := .sha256_2 (.atom 1) (.sha256_2 (.atom 2) (.atom 2))
  target := MAX_PROOF_OF_WORK
  mixHash := .zero
  totalTx := 5
  hashes := [.atom 1, .atom 2, .atom 3, .atom 3]
  hashesCount := 4
  flags := [0x75]
  flagsLen := 1

example : twins.isValid Digest.hash 0 = some true := by decide

example : twins.txHashes 2 = some [.atom 3, .atom 3] := by decide

/-- In `twins` the equal hashes are reported, but have no path to the root. -/
theorem not_included_of_isValid : ¬ ∀ (α : Type) [DecidableEq α] (M : MerkleHash α),
    Function.Injective2 M.sha256_2 → (∀ a b, M.sha256_2 a b ≠ M.zero) →
    ∀ (block : BRMerkleBlock α) (currentTime : UInt32), block.Held →
      block.isValid M currentTime = some true → block.Included M := by
  intro h
  obtain ⟨d, hd, p, hp, hev⟩ := h Digest Digest.hash (fun _ _ _ _ heq => Digest.sha256_2.inj heq)
    (fun _ _ heq => Digest.noConfusion heq) twins 0 ⟨rfl, rfl, by decide, by decide⟩ (by decide) 2
    [.atom 3, .atom 3] (by decide) (.atom 3) List.mem_cons_self
  obtain rfl : d = 3 := Option.some.inj (hd.symm.trans (by decide))
  obtain ⟨⟨l₁, x₁⟩, ⟨l₂, x₂⟩, ⟨l₃, x₃⟩, rfl⟩ := List.length_eq_three.1 hp
  cases l₁ <;> cases l₂ <;> cases l₃ <;> cases hev

/-- Of `2 ^ 31` different hashes the first one matched is not reported. -/
theorem not_decodes : ¬ ∀ (α : Type) [DecidableEq α] (M : MerkleHash α) (l : List (α × Bool))
    (block : BRMerkleBlock α), l ≠ [] →
    Plain M.zero M.sha256_2 (Nat.clog 2 l.length) (l.map Prod.fst) → block.Encodes M l →
      block.Decodes M l := by
  intro h
  let l : List (Digest × Bool) := (List.range (2 ^ 31)).map fun i => (.atom i, decide (i = 0))
  have hlen : l.length = 2 ^ 31 := by simp only [l, List.length_map, List.length_range]
  have hzero : (Digest.atom 0, true) ∈ l :=
    List.mem_map.2 ⟨0, List.mem_range.2 (by decide), rfl⟩
  have hfst : l.map Prod.fst = (List.range (2 ^ 31)).map Digest.atom := by
    simp only [l, List.map_map]
    rfl
  have hplain : Plain Digest.zero Digest.sha256_2 (Nat.clog 2 l.length) (l.map Prod.fst) := by
    rw [hfst]
    refine Digest.plain (List.nodup_range.map fun _ _ heq => Digest.atom.inj heq) (fun hm => ?_) _
    obtain ⟨i, -, heq⟩ := List.mem_map.1 hm
    cases heq
  have henc : (ofBranch Digest.hash l).Encodes Digest.hash l := encodes_ofBranch (by
    rw [hlen]
    decide)
  have hdec := h Digest Digest.hash l _ (List.ne_nil_of_mem hzero) hplain henc
  have hnil : flagged l = [] := (decodes_of_le henc hlen.ge).1 hdec
  have hmem : Digest.atom 0 ∈ flagged l :=
    List.mem_map.2 ⟨_, List.mem_filter.2 ⟨hzero, rfl⟩, rfl⟩
  rw [hnil] at hmem
  cases hmem

end RavenWallet
