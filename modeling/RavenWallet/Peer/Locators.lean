/-
  Block locators (`_PeerManagerBlockLocators`).

  The function is called twice: with `NULL` for the number of locators, and with an
  array of that many.  The listed blocks are 0 to 9 steps before the tip, and then 11,
  15, 23 and so on, as long as there are stored blocks above the genesis block.
-/
import RavenWallet.Lib.Filling
import RavenWallet.Peer.Reorg

namespace RavenWallet

/-- `step *= 2` of an `int32_t`, which is not to overflow. -/
def doubleStep (step : ℕ) : Option ℕ := convert (2 ^ 31 - 1) (step * 2)

/-- How far the block of a locator is before the tip. -/
def locatorDistance (k : ℕ) : ℕ := if k < 10 then k else 2 ^ (k - 8) + 7

/-- How far the block of a locator is before that of the previous locator. -/
def locatorStep (k : ℕ) : ℕ := if k < 10 then 1 else 2 ^ (k - 9)

namespace BRBlockManager

variable (m : BRBlockManager)

/-- The loop of `_PeerManagerBlockLocators`, with `i` locators before. -/
def fillLocators (locatorsCount : ℕ) : ℕ → Option (BRMerkleBlock UInt256) →
    Option (List UInt256) → ℕ → ℕ → Option (Option (List UInt256) × ℕ)
  | 0, _, _, _, _ => none
  | _ + 1, none, locators, _, i => some (locators, i)
  | fuel + 1, some block, locators, step, i =>
    if block.height = 0 then some (locators, i)
    else do
      let locators ← putAt locators locatorsCount i block.blockHash
      let step ← (if i + 1 ≥ 10 then doubleStep step else some step)
      let prev ← m.stepsBack step (some block)
      fillLocators locatorsCount fuel prev locators step (i + 1)

/-- `_PeerManagerBlockLocators` with `NULL` or an array: what is in it then, and what is
    returned. -/
def peerManagerBlockLocators (fuel : ℕ) (locators : Option (List UInt256)) (locatorsCount : ℕ) :
    Option (Option (List UInt256) × ℕ) := do
  let block ← (match m.lastBlock with
    | none => some none
    | some p => (m.heap.load p).map some)
  let (locators, i) ← m.fillLocators locatorsCount fuel block locators 1 0
  let locators ← putAt locators locatorsCount i m.params.first.hash
  some (locators, i + 1)

/-- The blocks of the locators from `i` on: all of them that are stored and above the genesis
    block. -/
structure ListedFrom (tip : BlockAt) (i : ℕ) (bs : List BlockAt) : Prop where
  back : ∀ k b, bs[k]? = some b →
    Back m.Follows (locatorDistance (i + k)) tip b ∧ 0 < blockHeight b
  stop : ∀ b, Back m.Follows (locatorDistance (i + bs.length)) tip b → blockHeight b = 0

/-! ## Distances -/

theorem locatorDistance_succ (k : ℕ) :
    locatorDistance (k + 1) = locatorDistance k + locatorStep (k + 1) := by
  unfold locatorDistance locatorStep
  rcases Nat.lt_trichotomy k 9 with hlt | rfl | hgt
  · rw [if_pos (by omega), if_pos (by omega), if_pos (by omega)]
  · rfl
  · obtain ⟨j, rfl⟩ : ∃ j, k = j + 10 := ⟨k - 10, by omega⟩
    rw [if_neg (by omega), if_neg (by omega), if_neg (by omega)]
    rw [show j + 10 + 1 - 8 = j + 2 + 1 by omega, show j + 10 - 8 = j + 2 by omega,
      show j + 10 + 1 - 9 = j + 2 by omega, Nat.pow_succ]
    omega

theorem locatorStep_pos (k : ℕ) : 0 < locatorStep k := by
  unfold locatorStep
  split_ifs
  · exact Nat.one_pos
  · exact Nat.two_pow_pos _

theorem locatorDistance_strictMono : StrictMono locatorDistance := by
  refine strictMono_nat_of_lt_succ fun k => ?_
  rw [locatorDistance_succ]
  exact Nat.lt_add_of_pos_right (locatorStep_pos _)

/-- The step of the next round, which fits if the block of this round is near enough. -/
theorem doubleStep_eq {i : ℕ} (hnear : locatorDistance i < 2 ^ 31) :
    (if i + 1 ≥ 10 then doubleStep (locatorStep i) else some (locatorStep i)) =
      some (locatorStep (i + 1)) := by
  unfold locatorDistance at hnear
  unfold locatorStep doubleStep
  rcases Nat.lt_trichotomy i 9 with hlt | rfl | hgt
  · rw [if_neg (by omega), if_pos (by omega), if_pos (by omega)]
  · rfl
  · obtain ⟨j, rfl⟩ : ∃ j, i = j + 10 := ⟨i - 10, by omega⟩
    rw [if_neg (by omega), show j + 10 - 8 = j + 1 + 1 by omega, Nat.pow_succ] at hnear
    rw [if_pos (by omega), if_neg (by omega), if_neg (by omega),
      show j + 10 - 9 = j + 1 by omega, show j + 10 + 1 - 9 = j + 1 + 1 by omega, Nat.pow_succ]
    exact convert_of_le (by omega)

/-! ## The loop -/

section

variable {m} {b tip : BlockAt} {n : ℕ}
  (hkeyed : Keyed BRMerkleBlock.blockHash m.heap m.blocks)
  (hheight : ∀ {b c}, m.Follows b c → blockHeight b = blockHeight c + 1)

include hkeyed

/-- Steps back reach the block that is as many steps before, if there is one. -/
theorem stepsBack_eq (hb : m.Stored b) : ∃ c : Option BlockAt,
    m.stepsBack n (some b.2) = some (c.map Prod.snd) ∧
    (∀ x, c = some x ↔ Back m.Follows n b x) ∧ ∀ x, c = some x → m.Stored x := by
  induction n generalizing b with
  | zero =>
    refine ⟨some b, rfl, fun x => ?_, fun x hx => ?_⟩
    · constructor
      · intro hx
        obtain rfl := Option.some.inj hx
        exact .refl b
      · intro hx
        cases hx
        rfl
    · rwa [← Option.some.inj hx]
  | succ n ih =>
    obtain ⟨c, hc, hstored⟩ := getBlockAt_of_keyed hkeyed b.2.prevBlock
    have hget : m.getBlock b.2.prevBlock = some (c.map Prod.snd) := by
      rw [getBlock_eq, hc, Option.map_some]
    cases c with
    | none =>
      refine ⟨none, ?_, fun x => ⟨fun hx => by simp at hx, ?_⟩, fun x hx => by simp at hx⟩
      · rw [stepsBack, hget]
        cases n <;> rfl
      · intro hx
        cases hx with
        | head hnext _ =>
          rw [hnext.2] at hc
          cases hc
    | some c =>
      obtain ⟨d, hd, hback, hstored'⟩ := ih (hstored c rfl).1
      refine ⟨d, ?_, fun x => ?_, hstored'⟩
      · rw [stepsBack, hget]
        exact hd
      · rw [hback]
        refine ⟨fun hx => .head ⟨hb, hc⟩ hx, fun hx => ?_⟩
        cases hx with
        | head hnext hx =>
          rw [hnext.2, Option.some.injEq, Option.some.injEq] at hc
          rwa [← hc]

end

section

variable {m} {tip : BlockAt} {i fuel : ℕ} {b : Option BlockAt}

/-- What both models of the loop do from `b` on. -/
def Lists (m : BRBlockManager) (i fuel : ℕ) (b : Option BlockAt) (bs : List BlockAt) : Prop :=
  m.locatorsFrom fuel (b.map Prod.snd) (locatorStep i) i =
      some (bs.map fun b => b.2.blockHash) ∧
    ∀ locators locatorsCount,
      m.fillLocators locatorsCount fuel (b.map Prod.snd) locators (locatorStep i) i =
        (putAll locators locatorsCount i (bs.map fun b => b.2.blockHash)).map
          fun locators => (locators, i + bs.length)

/-- The loop stops where there is no block, or the genesis block. -/
theorem lists_nil (hzero : ∀ x, b = some x → x.2.height = 0) : m.Lists i (fuel + 1) b [] := by
  cases b with
  | none => exact ⟨rfl, fun _ _ => rfl⟩
  | some x =>
    have hx := hzero x rfl
    refine ⟨?_, fun locators locatorsCount => ?_⟩
    · rw [Option.map_some, locatorsFrom, if_pos hx]
      rfl
    · rw [Option.map_some, fillLocators, if_pos hx]
      rfl

theorem lists_cons {x : BlockAt} {prev : Option BlockAt} {bs : List BlockAt}
    (hzero : x.2.height ≠ 0) (hnear : locatorDistance i < 2 ^ 31)
    (hprev : m.stepsBack (locatorStep (i + 1)) (some x.2) = some (prev.map Prod.snd))
    (h : m.Lists (i + 1) fuel prev bs) : m.Lists i (fuel + 1) (some x) (x :: bs) := by
  have hstep := doubleStep_eq hnear
  obtain ⟨hlist, hfill⟩ := h
  refine ⟨?_, fun locators locatorsCount => ?_⟩
  · have hplain : (if i + 1 ≥ 10 then locatorStep i * 2 else locatorStep i) =
        locatorStep (i + 1) := by
      unfold doubleStep at hstep
      split_ifs at hstep ⊢
      · exact (convert_eq_some.1 hstep).2
      · exact Option.some.inj hstep
    rw [Option.map_some, locatorsFrom, if_neg hzero]
    simp only [hplain, hprev, hlist, Option.bind_eq_bind, Option.bind_some, List.map_cons]
  · rw [Option.map_some, fillLocators, if_neg hzero]
    simp only [hstep, hprev, Option.bind_eq_bind, Option.bind_some, List.map_cons, putAll_cons,
      Option.map_bind]
    refine congrArg _ (funext fun locators => ?_)
    rw [hfill]
    simp [Nat.add_assoc, Nat.add_comm 1]

theorem exists_lists_nil (hback : ∀ x, b = some x ↔ Back m.Follows (locatorDistance i) tip x)
    (hzero : ∀ x, b = some x → x.2.height = 0) :
    ∃ bs, m.ListedFrom tip i bs ∧ ∀ fuel > bs.length, m.Lists i fuel b bs := by
  refine ⟨[], ⟨fun k x hx => by simp at hx, fun x hx => ?_⟩, fun fuel hfuel => ?_⟩
  · unfold blockHeight
    rw [hzero x ((hback x).2 hx)]
    rfl
  · obtain ⟨fuel, rfl⟩ : ∃ n, fuel = n + 1 := ⟨fuel - 1, by simp at hfuel; omega⟩
    exact lists_nil hzero

theorem ListedFrom.cons {x : BlockAt} {bs : List BlockAt}
    (hx : Back m.Follows (locatorDistance i) tip x) (hzero : x.2.height ≠ 0)
    (h : m.ListedFrom tip (i + 1) bs) : m.ListedFrom tip i (x :: bs) := by
  refine ⟨fun k y hy => ?_, fun y hy => ?_⟩
  · cases k with
    | zero =>
      obtain rfl := Option.some.inj hy
      refine ⟨hx, Nat.pos_of_ne_zero fun heq => hzero ?_⟩
      exact UInt32.toNat_inj.1 heq
    | succ k =>
      rw [show i + (k + 1) = i + 1 + k by omega]
      exact h.back k y hy
  · rw [List.length_cons, show i + (bs.length + 1) = i + 1 + bs.length by omega] at hy
    exact h.stop y hy

/-- From the block of the locator at `i` on, if there is one, the loop lists the hashes. -/
theorem exists_lists (hkeyed : Keyed BRMerkleBlock.blockHash m.heap m.blocks)
    (hheight : ∀ {b c}, m.Follows b c → blockHeight b = blockHeight c + 1)
    (hknown : tip.2.height < BLOCK_UNKNOWN_HEIGHT) (rounds : ℕ)
    (hrounds : ∀ x, b = some x → blockHeight x ≤ rounds)
    (hback : ∀ x, b = some x ↔ Back m.Follows (locatorDistance i) tip x)
    (hstored : ∀ x, b = some x → m.Stored x) :
    ∃ bs, m.ListedFrom tip i bs ∧ ∀ fuel > bs.length, m.Lists i fuel b bs := by
  have hgraded := follows_graded hheight
  induction rounds generalizing i b with
  | zero =>
    exact exists_lists_nil hback fun x hx => UInt32.toNat_inj.1 (Nat.le_zero.1 (hrounds x hx))
  | succ rounds ih =>
    cases b with
    | none => exact exists_lists_nil hback fun x hx => by simp at hx
    | some x =>
      by_cases hzero : x.2.height = 0
      · refine exists_lists_nil hback fun y hy => ?_
        rwa [← Option.some.inj hy]
      · have hx := (hback x).1 rfl
        have hxheight := hgraded.back_height hx
        have hnear : locatorDistance i < 2 ^ 31 := by
          have htip : blockHeight tip < 2 ^ 31 - 1 := UInt32.lt_iff_toNat_lt.1 hknown
          omega
        obtain ⟨prev, hprev, hprevback, hprevstored⟩ :=
          stepsBack_eq (n := locatorStep (i + 1)) hkeyed (hstored x rfl)
        obtain ⟨bs, hlisted, hlists⟩ := ih
          (fun y hy => by
            have hyheight := hgraded.back_height ((hprevback y).1 hy)
            have hpos := locatorStep_pos (i + 1)
            have hxrounds := hrounds x rfl
            omega)
          (fun y => by
            rw [hprevback, locatorDistance_succ]
            refine ⟨fun hy => hx.trans hy, fun hy => ?_⟩
            obtain ⟨c, hc, hy⟩ := hy.split
            rwa [← Option.some.inj ((hback c).2 hc)] at hy)
          hprevstored
        refine ⟨x :: bs, hlisted.cons hx hzero, fun fuel hfuel => ?_⟩
        obtain ⟨fuel, rfl⟩ : ∃ n, fuel = n + 1 := ⟨fuel - 1, by omega⟩
        exact lists_cons hzero hnear hprev (hlists fuel (by simpa using hfuel))

/-- A list of blocks at growing distances has falling heights. -/
theorem ListedFrom.pairwise (hheight : ∀ {b c}, m.Follows b c → blockHeight b = blockHeight c + 1)
    {bs : List BlockAt} (h : m.ListedFrom tip i bs) :
    bs.Pairwise fun b c => blockHeight c < blockHeight b := by
  rw [List.pairwise_iff_getElem]
  intro j k hj hk hlt
  have hb := (follows_graded hheight).back_height (h.back j _ (List.getElem?_eq_getElem hj)).1
  have hc := (follows_graded hheight).back_height (h.back k _ (List.getElem?_eq_getElem hk)).1
  have hdistance := locatorDistance_strictMono (Nat.add_lt_add_left hlt i)
  omega

/-- The locators are the hashes at the distances, from the tip down, and that of the genesis block.
    The pass without an array counts them, and the other one writes as many as there is room for, and
    nothing behind. -/
theorem peerManagerBlockLocators_eq (m : BRBlockManager) (tip : BlockAt)
    (hkeyed : Keyed BRMerkleBlock.blockHash m.heap m.blocks)
    (hheight : ∀ {b c}, m.Follows b c → blockHeight b = blockHeight c + 1)
    (hlast : m.lastBlock = some tip.1) (htip : m.Stored tip)
    (hknown : tip.2.height < BLOCK_UNKNOWN_HEIGHT) :
    ∃ bs hashes, m.ListedFrom tip 0 bs ∧ (bs.Pairwise fun b c => blockHeight c < blockHeight b) ∧
      hashes = bs.map (fun b => b.2.blockHash) ++ [m.params.first.hash] ∧
      ∀ fuel > bs.length, m.blockLocators fuel = some hashes ∧
        (∀ size, m.peerManagerBlockLocators fuel none size = some (none, hashes.length)) ∧
        ∀ locators size, size ≤ locators.length →
          m.peerManagerBlockLocators fuel (some locators) size =
            some (some (hashes.take size ++ locators.drop (min hashes.length size)),
              hashes.length) := by
  have hload := (getBlockAt_some.1 htip).2
  obtain ⟨bs, hlisted, hlists⟩ := exists_lists (b := some tip) (i := 0) hkeyed hheight hknown
    (blockHeight tip)
    (fun x hx => by rw [← Option.some.inj hx])
    (fun x => by
      constructor
      · intro hx
        obtain rfl := Option.some.inj hx
        exact .refl tip
      · intro hx
        cases hx
        rfl)
    (fun x hx => by rwa [← Option.some.inj hx])
  refine ⟨bs, _, hlisted, hlisted.pairwise hheight, rfl, fun fuel hfuel => ?_⟩
  obtain ⟨hlist, hfill⟩ := hlists fuel hfuel
  have hstep : locatorStep 0 = 1 := rfl
  rw [Option.map_some, hstep] at hlist hfill
  have hpass : ∀ locators size, m.peerManagerBlockLocators fuel locators size =
      (putAll locators size 0
        (bs.map (fun b => b.2.blockHash) ++ [m.params.first.hash])).map
          fun locators => (locators, bs.length + 1) := by
    intro locators size
    simp only [peerManagerBlockLocators, hlast, hload, Option.map_some, Option.bind_eq_bind,
      Option.bind_some, hfill, Nat.zero_add, putAll_append, putAll, List.length_map]
    cases putAll locators size 0 (bs.map fun b => b.2.blockHash) with
    | none => rfl
    | some written =>
      simp only [Option.map_some, Option.bind_some]
      cases putAt written size bs.length m.params.first.hash <;> rfl
  refine ⟨?_, fun size => ?_, fun locators size hsize => ?_⟩
  · simp [blockLocators, hlast, hload, hlist]
  · rw [hpass, putAll_none]
    simp
  · rw [hpass, putAll_array hsize]
    simp

end

/-- Two blocks after the genesis block: an array of two locators has no room for all three. -/
theorem peerManagerBlockLocators_sample : ∃ (w : BRWallet) (bs : List (BRMerkleBlock UInt256))
    (tip : BRMerkleBlock UInt256) (fuel : ℕ), (BRWallet.system BRWallet.sampleEnv).init w ∧
    (sampleChain w bs 2).peerManagerBlockLocators fuel none 0 = some (none, 3) ∧
    (sampleChain w bs 2).peerManagerBlockLocators fuel (some [7, 8, 9]) 2 =
      some (some [tip.blockHash, tip.prevBlock, 9], 3) := by
  obtain ⟨w, hnew⟩ : ∃ w, BRWallet.new BRWallet.sampleEnv 100 0 ⟨[some BRWallet.receipt]⟩ [0] =
      some (some w) := ⟨_, rfl⟩
  let tip := { sampleBlock 3 2 with height := 2 }
  let bs := [firstBlock, { sampleBlock 2 1 with height := 1 }, tip]
  have hlinked : (sampleChain w bs 2).Linked := sampleChain_linked (by decide) (by decide)
  obtain ⟨cs, hashes, -, -, rfl, hpasses⟩ := peerManagerBlockLocators_eq (sampleChain w bs 2)
    (2, tip) hlinked.keyed hlinked.height rfl rfl (by decide)
  obtain ⟨hlist, hcount, hfill⟩ := hpasses (cs.length + 3) (by omega)
  have hhashes : (sampleChain w bs 2).blockLocators (cs.length + 3) = some [3, 2, 1] := rfl
  rw [hhashes, Option.some.injEq] at hlist
  rw [← hlist] at hcount hfill
  exact ⟨w, bs, tip, cs.length + 3, ⟨100, 0, _, _, hnew⟩, hcount 0, hfill [7, 8, 9] 2 (by decide)⟩

end BRBlockManager

end RavenWallet
