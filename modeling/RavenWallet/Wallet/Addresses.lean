/-
  The address chains of the wallet (`BRWalletUnusedAddrs` and
  `BRWalletUsedAddresses` of BRWallet.c).

  * `unusedAddrs_discovers`: a chain is extended to the first length at which its last
    `gapLimit` addresses are unused, if there is one;
  * `usedAddresses_fits_iff`: the used addresses fit into a buffer of their number
    exactly if they are the first ones of their chain.
-/
import Mathlib.Order.Nat
import RavenWallet.Lib.Buffer
import RavenWallet.Lib.Gap
import RavenWallet.Wallet.Runs

namespace RavenWallet

/-! ## Derived chains -/

/-- All addresses can be derived, `a internal k` being the one at index `k`. -/
structure Env.Derives (env : Env) (a : Bool → UInt32 → BRAddress) : Prop where
  address : ∀ internal k, env.address internal k = some (a internal k)
  ne_nil : ∀ internal k, a internal k ≠ []

/-- The first `n` addresses of a chain. -/
def derivedChain (a : Bool → UInt32 → BRAddress) (internal : Bool) (n : ℕ) : List BRAddress :=
  (List.range n).map fun k => a internal (UInt32.ofNat k)

namespace BRWallet

/-- Both chains are derived. -/
def ChainsDerived (a : Bool → UInt32 → BRAddress) (w : BRWallet) : Prop :=
  ∀ internal, w.chain internal = derivedChain a internal (w.chain internal).length

/-- The address at index `k` of a chain is used. -/
def UsedAt (a : Bool → UInt32 → BRAddress) (internal : Bool) (used : Finset BRAddress) (k : ℕ) :
    Prop := a internal (UInt32.ofNat k) ∈ used

instance (a : Bool → UInt32 → BRAddress) (internal : Bool) (used : Finset BRAddress) :
    DecidablePred (UsedAt a internal used) :=
  fun k => inferInstanceAs (Decidable (a internal (UInt32.ofNat k) ∈ used))

variable {env : Env} {a : Bool → UInt32 → BRAddress} {internal : Bool} {used : Finset BRAddress}
  {g m n fuel : ℕ} {w w' : BRWallet} {addrs : List BRAddress}

theorem derivedChain_succ :
    derivedChain a internal (n + 1) =
      derivedChain a internal n ++ [a internal (UInt32.ofNat n)] := by
  rw [derivedChain, List.range_succ, List.map_append]
  rfl

@[simp] theorem length_derivedChain : (derivedChain a internal n).length = n := by
  rw [derivedChain, List.length_map, List.length_range]

theorem trailingStart_derivedChain :
    trailingStart used (derivedChain a internal n) = trailing (UsedAt a internal used) n := by
  induction n with
  | zero => rfl
  | succ n ih =>
    rw [derivedChain_succ, trailingStart_concat, ih, ← derivedChain_succ, length_derivedChain]
    rfl

theorem length_lt_iff : (derivedChain a internal m).length < trailing (UsedAt a internal used) m + g ↔
    ¬ Gap (UsedAt a internal used) g m := by
  rw [length_derivedChain, gap_iff, not_le]

/-- With a gap at its end the chain stays as it is. -/
theorem extendChain_gap (h : Gap (UsedAt a internal used) g m) :
    extendChain env internal used g fuel (derivedChain a internal m)
        (trailing (UsedAt a internal used) m) =
      some (derivedChain a internal m, trailing (UsedAt a internal used) m) := by
  have hlt := length_lt_iff.not.2 (not_not.2 h)
  cases fuel with
  | zero => rw [extendChain, if_neg hlt]
  | succ fuel => rw [extendChain, if_neg hlt]

/-- The chain is extended one address at a time, until there is a gap. -/
theorem extendChain_derivedChain {r : List BRAddress × ℕ} (hd : env.Derives a) :
    extendChain env internal used g fuel (derivedChain a internal m)
        (trailing (UsedAt a internal used) m) = some r ↔
      ∃ n, IsLeast {n | m ≤ n ∧ Gap (UsedAt a internal used) g n} n ∧ n ≤ m + fuel ∧
        (derivedChain a internal n, trailing (UsedAt a internal used) n) = r := by
  by_cases hgap : Gap (UsedAt a internal used) g m
  · simp only [extendChain_gap hgap, isLeast_gap_self hgap, Option.some.injEq, exists_eq_left,
      Nat.le_add_right, true_and]
  · induction fuel generalizing m with
    | zero =>
      rw [extendChain, if_pos (length_lt_iff.2 hgap)]
      refine iff_of_false (fun h => by cases h) ?_
      rintro ⟨n, hleast, hn, -⟩
      obtain rfl : n = m := le_antisymm hn hleast.1.1
      exact hgap hleast.1.2
    | succ fuel ih =>
      have hstart : (if a internal (UInt32.ofNat m) ∈ used then m + 1
          else trailing (UsedAt a internal used) m) = trailing (UsedAt a internal used) (m + 1) := rfl
      rw [extendChain, if_pos (length_lt_iff.2 hgap), length_derivedChain, hd.address]
      dsimp only
      rw [if_neg (hd.ne_nil _ _), ← derivedChain_succ, length_derivedChain, hstart]
      simp only [← isLeast_gap_succ hgap]
      by_cases hnext : Gap (UsedAt a internal used) g (m + 1)
      · simp only [extendChain_gap hnext, isLeast_gap_self hnext, Option.some.injEq, exists_eq_left,
          Nat.add_le_add_iff_left, Nat.le_add_left, true_and]
      · rw [ih hnext, Nat.add_right_comm, Nat.add_assoc]

/-! ## Discovery -/

/-- The chain was extended to `n` addresses, at the end of which there is the first gap. -/
structure Discovers (a : Bool → UInt32 → BRAddress) (w : BRWallet) (g : ℕ) (internal : Bool) (n : ℕ)
    (w' : BRWallet) (addrs : List BRAddress) : Prop where
  least : IsLeast {n | (w.chain internal).length ≤ n ∧ Gap (UsedAt a internal w.usedAddrs) g n} n
  frame : w' = { w.setChain internal (derivedChain a internal n) with allAddrs := w'.allAddrs }
  allAddrs : w'.AllAddrs
  count : addrs.length = g
  /-- the first ones of those behind the last used one -/
  first : ∃ i, i + g ≤ n ∧ (∀ k, i ≤ k → k < n → ¬ UsedAt a internal w.usedAddrs k) ∧
    (i ≠ 0 → UsedAt a internal w.usedAddrs (i - 1)) ∧
    addrs = (List.range' i g).map fun k => a internal (UInt32.ofNat k)

theorem take_drop_derivedChain {i : ℕ} (h : i + g ≤ n) :
    ((derivedChain a internal n).drop i).take g =
      (List.range' i g).map fun k => a internal (UInt32.ofNat k) := by
  rw [derivedChain, ← List.map_drop, ← List.map_take, List.range_eq_range', List.drop_range',
    List.take_range'_of_length_ge (by omega), Nat.mul_one, Nat.zero_add]

theorem extendChain_chain {r : List BRAddress × ℕ} (hd : env.Derives a) (hw : w.ChainsDerived a) :
    extendChain env internal w.usedAddrs g fuel (w.chain internal)
        (trailingStart w.usedAddrs (w.chain internal)) = some r ↔
      ∃ n, IsLeast {n | (w.chain internal).length ≤ n ∧
          Gap (UsedAt a internal w.usedAddrs) g n} n ∧ n ≤ (w.chain internal).length + fuel ∧
        (derivedChain a internal n, trailing (UsedAt a internal w.usedAddrs) n) = r := by
  have h : extendChain env internal w.usedAddrs g fuel
      (derivedChain a internal (w.chain internal).length)
      (trailing (UsedAt a internal w.usedAddrs) (w.chain internal).length) = some r ↔ _ :=
    extendChain_derivedChain hd
  rwa [← trailingStart_derivedChain, ← hw internal] at h

/-- The call ends if there is a gap, and has found the first one behind the addresses of the chain;
    few used addresses leave one. -/
theorem unusedAddrs_discovers (hd : env.Derives a) (hw : w.ChainsDerived a) (hall : w.AllAddrs) :
    (∀ fuel w' addrs, w.unusedAddrs env fuel g internal = some (w', addrs) →
      ∃ n, Discovers a w g internal n w' addrs) ∧
    (∀ n, (w.chain internal).length ≤ n → Gap (UsedAt a internal w.usedAddrs) g n →
      ∀ fuel, n ≤ (w.chain internal).length + fuel →
        (w.unusedAddrs env fuel g internal).isSome) ∧
    (Function.Injective2 a → (w.usedAddrs.card + 1) * g ≤ 2 ^ 32 →
      ∃ n, (w.chain internal).length ≤ n ∧ Gap (UsedAt a internal w.usedAddrs) g n) := by
  refine ⟨?_, ?_, ?_⟩
  · intro fuel w' addrs h
    obtain ⟨c, aa, -, hframe, hall'⟩ := unusedAddrs_some h
    simp only [unusedAddrs, Option.bind_eq_bind, Option.bind_eq_some_iff, Prod.exists,
      Option.some.injEq, Prod.mk.injEq] at h
    obtain ⟨c', i, hc, hw', haddrs⟩ := h
    obtain ⟨n, hn, -, heq⟩ := (extendChain_chain hd hw).1 hc
    obtain ⟨rfl, rfl⟩ := Prod.mk.inj heq
    have hgap := gap_iff.1 hn.1.2
    rw [length_derivedChain, if_pos hgap, take_drop_derivedChain hgap] at haddrs
    refine ⟨n, hn, ?_, hall' hall, ?_, _, hgap, ?_, taken_pred_trailing, haddrs.symm⟩
    · rw [← hw']
    · rw [← haddrs, List.length_map, List.length_range']
    · intro k hk hlt
      exact not_taken_of_trailing_le hk hlt
  · intro n hle hgap fuel hfuel
    classical
    obtain ⟨m, hm⟩ : ∃ m, IsLeast {n | (w.chain internal).length ≤ n ∧
        Gap (UsedAt a internal w.usedAddrs) g n} m :=
      ⟨_, Nat.isLeast_find ⟨n, hle, hgap⟩⟩
    have hmn : m ≤ n := hm.2 ⟨hle, hgap⟩
    have hextend : extendChain env internal w.usedAddrs g fuel (w.chain internal)
        (trailingStart w.usedAddrs (w.chain internal)) = _ :=
      (extendChain_chain hd hw).2 ⟨m, hm, hmn.trans hfuel, rfl⟩
    rw [unusedAddrs]
    dsimp only
    rw [hextend]
    rfl
  · intro hinj hcard
    have hinjOn : Set.InjOn (fun k => a internal (UInt32.ofNat k)) {k | (w.chain internal).length ≤ k ∧
        k < (w.chain internal).length + (w.usedAddrs.card + 1) * g} := by
      rintro k ⟨hk, hklt⟩ l ⟨hl, hllt⟩ hkl
      have heq : (UInt32.ofNat k).toNat = (UInt32.ofNat l).toNat :=
        congrArg UInt32.toNat (hinj hkl).2
      rw [UInt32.toNat_ofNat', UInt32.toNat_ofNat'] at heq
      omega
    obtain ⟨n, hle, -, hgap⟩ := exists_gap hinjOn
    exact ⟨n, hle, hgap⟩

/-- Addresses that name their chain and count their index. -/
def countAddress (internal : Bool) (k : UInt32) : BRAddress :=
  (if internal then 1 else 2) :: List.replicate k.toNat 0

def countEnv : Env := ⟨fun internal k => some (countAddress internal k), fun _ _ => false⟩

theorem countEnv_derives : countEnv.Derives countAddress where
  address _ _ := rfl
  ne_nil _ _ := List.cons_ne_nil _ _

theorem countAddress_injective : Function.Injective2 countAddress := by
  intro i i' k k' h
  obtain ⟨hhead, htail⟩ := List.cons.inj h
  constructor
  · cases i <;> cases i' <;> first | rfl | exact absurd hhead (by decide)
  · have hlength := congrArg List.length htail
    rw [List.length_replicate, List.length_replicate] at hlength
    exact UInt32.toNat_inj.1 hlength

/-- A wallet without addresses, in which the external ones at the given indices are used. -/
def usedWallet (ks : List UInt32) : BRWallet :=
  { usedAddrs := (ks.map (countAddress false)).toFinset }

theorem usedWallet_chainsDerived (ks : List UInt32) :
    (usedWallet ks).ChainsDerived countAddress := by
  intro internal
  cases internal <;> rfl

/-- The address at index 1 is used. -/
theorem unusedAddrs_discovers_usedWallet : ∃ w' addrs n,
    (usedWallet [1]).unusedAddrs countEnv 4 2 false = some (w', addrs) ∧
      Discovers countAddress (usedWallet [1]) 2 false n w' addrs := by
  have hsome : ∃ w' addrs, (usedWallet [1]).unusedAddrs countEnv 4 2 false = some (w', addrs) :=
    ⟨_, _, rfl⟩
  obtain ⟨w', addrs, h⟩ := hsome
  obtain ⟨n, hn⟩ := (unusedAddrs_discovers countEnv_derives (usedWallet_chainsDerived [1]) rfl).1
    4 w' addrs h
  exact ⟨w', addrs, n, h, hn⟩

/-- With two used addresses, no gap of `2 ^ 32 - 1` is ever found: the indices wrap around. -/
theorem not_unusedAddrs_discovers : ¬ ∀ (env : Env) (a : Bool → UInt32 → BRAddress) (w : BRWallet)
    (g : ℕ) (internal : Bool), env.Derives a → Function.Injective2 a → w.ChainsDerived a →
    w.AllAddrs → 0 < g → g < 2 ^ 32 → ∃ fuel n w' addrs,
      w.unusedAddrs env fuel g internal = some (w', addrs) ∧
        Discovers a w g internal n w' addrs := by
  intro h
  obtain ⟨fuel, n, w', addrs, -, hn⟩ := h countEnv countAddress (usedWallet [0, 5]) (2 ^ 32 - 1)
    false countEnv_derives countAddress_injective (usedWallet_chainsDerived _) rfl
    (by omega) (by omega)
  obtain ⟨-, hle, hfree⟩ := hn.least.1
  have hused : ∀ k, k % 2 ^ 32 = 0 ∨ k % 2 ^ 32 = 5 →
      UsedAt countAddress false (usedWallet [0, 5]).usedAddrs k := by
    intro k hk
    have hk' : UInt32.ofNat k = 0 ∨ UInt32.ofNat k = 5 := by
      rw [← UInt32.toNat_inj, ← UInt32.toNat_inj, UInt32.toNat_ofNat']
      exact hk
    rw [UsedAt, usedWallet, List.mem_toFinset, List.mem_map]
    exact ⟨_, List.mem_pair.2 hk', rfl⟩
  -- the index before `n`, or one of those before it, is a multiple of `2 ^ 32` or 5 above one
  by_cases hlast : (n - 1) % 2 ^ 32 = 2 ^ 32 - 1
  · exact hfree (n - 1 - (2 ^ 32 - 6)) (by omega) (by omega) (hused _ (Or.inr (by omega)))
  · exact hfree (n - 1 - (n - 1) % 2 ^ 32) (by omega) (by omega) (hused _ (Or.inl (by omega)))

/-! ## Runs -/

theorem grows_derivedChain {gap : ℕ} {chain chain' : List BRAddress} (hd : env.Derives a)
    (h : Grows env internal used gap chain chain')
    (hchain : chain = derivedChain a internal chain.length) :
    chain' = derivedChain a internal chain'.length := by
  induction h with
  | refl => exact hchain
  | @step c b _ _ haddr _ ih =>
    rw [hd.address] at haddr
    obtain rfl := Option.some.inj haddr
    rw [List.length_append, List.length_singleton, derivedChain_succ, ← ih]

theorem kept_chainsDerived (hd : env.Derives a) : Kept env fun w => w.ChainsDerived a := by
  refine kept_chains fun hw hi he _ internal => ?_
  cases internal with
  | true => exact grows_derivedChain hd hi (hw true)
  | false => exact grows_derivedChain hd he (hw false)

/-- In every run the chains are derived. -/
theorem run_chainsDerived {G : BRWallet → WalletOp → Prop} (hd : env.Derives a)
    (h : (system env).Run G w) : w.ChainsDerived a := by
  refine (kept_chainsDerived hd).run (fun heap internal => ?_) h
  cases internal <;> rfl

/-! ## Used addresses -/

/-- `addrs[i] = a`, unless `addrs` is `NULL`. -/
def writeAddr (addrs : Option (List BRAddress)) (i : ℕ) (a : BRAddress) :
    Option (Option (List BRAddress)) :=
  match addrs with
  | none => some none
  | some buf => (poke buf i [a]).map some

/-- The loop of `BRWalletUsedAddresses` from index `i` of the chain on. -/
def usedFrom (used : Finset BRAddress) :
    ℕ → List BRAddress → ℕ → Option (List BRAddress) → Option (ℕ × Option (List BRAddress))
  | _, [], externalCount, addrs => some (externalCount, addrs)
  | i, a :: chain, externalCount, addrs =>
    if a ∈ used then
      (writeAddr addrs i a).bind fun addrs => usedFrom used (i + 1) chain (externalCount + 1) addrs
    else usedFrom used (i + 1) chain externalCount addrs

/-- `BRWalletUsedAddresses`: the number of used addresses, and what it leaves in `addrs` (`none` if
    `NULL`).  No result if it writes beyond the end of `addrs`. -/
def usedAddresses (w : BRWallet) (addrs : Option (List BRAddress)) :
    Option (ℕ × Option (List BRAddress)) := usedFrom w.usedAddrs 0 w.externalChain 0 addrs

/-- The used addresses of the external chain, in its order. -/
def usedExternal (w : BRWallet) : List BRAddress :=
  w.externalChain.filter fun a => decide (a ∈ w.usedAddrs)

/-- No used address of the external chain stands behind one that is not. -/
def UsedFirst (w : BRWallet) : Prop :=
  w.externalChain.Pairwise fun a b => b ∈ w.usedAddrs → a ∈ w.usedAddrs

section
variable {i count count' : ℕ} {chain buf buf' : List BRAddress}

theorem usedFrom_null : usedFrom used i chain count none =
    some (count + (chain.filter fun a => decide (a ∈ used)).length, none) := by
  induction chain generalizing i count with
  | nil => rfl
  | cons a chain ih =>
    rw [usedFrom]
    by_cases ha : a ∈ used
    · rw [if_pos ha, writeAddr, Option.bind_some, ih, List.filter_cons_of_pos (by simpa using ha),
        List.length_cons, Nat.add_right_comm, Nat.add_assoc]
    · rw [if_neg ha, ih, List.filter_cons_of_neg (by simpa using ha)]

theorem usedFrom_unused {addrs : Option (List BRAddress)} (h : ∀ a ∈ chain, a ∉ used) :
    usedFrom used i chain count addrs = some (count, addrs) := by
  induction chain generalizing i with
  | nil => rfl
  | cons a chain ih =>
    rw [usedFrom, if_neg (h a List.mem_cons_self)]
    exact ih fun b hb => h b (List.mem_cons_of_mem a hb)

/-- Used addresses that stand first are written one behind the other. -/
theorem usedFrom_of_pairwise (count : ℕ) (pre rest : List BRAddress)
    (hchain : chain.Pairwise fun a b => b ∈ used → a ∈ used) (hi : pre.length = i)
    (hrest : rest.length = (chain.filter fun a => decide (a ∈ used)).length) :
    usedFrom used i chain count (some (pre ++ rest)) = some (count + rest.length,
      some (pre ++ chain.filter fun a => decide (a ∈ used))) := by
  induction chain generalizing i count pre rest with
  | nil =>
    obtain rfl : rest = [] := List.length_eq_zero_iff.1 hrest
    rfl
  | cons a chain ih =>
    obtain ⟨hhead, htail⟩ := List.pairwise_cons.1 hchain
    by_cases ha : a ∈ used
    · rw [List.filter_cons_of_pos (by simpa using ha), List.length_cons] at hrest
      obtain ⟨b, rest, rfl⟩ := List.exists_cons_of_length_eq_add_one hrest
      have hpoke : poke (pre ++ b :: rest) i [a] = some (pre ++ [a] ++ rest) := by
        rw [List.append_assoc]
        exact poke_parts (b := [b]) rfl hi rfl
      rw [usedFrom, if_pos ha, writeAddr, hpoke, Option.map_some, Option.bind_some,
        ih _ _ _ htail (by rw [List.length_append, hi]; rfl) (Nat.succ.inj hrest),
        List.filter_cons_of_pos (by simpa using ha), List.length_cons, List.append_assoc,
        Nat.add_right_comm, Nat.add_assoc]
      rfl
    · -- behind an unused address there is no used one
      have hunused : ∀ b ∈ a :: chain, b ∉ used := by
        intro b hb hused
        rcases List.mem_cons.1 hb with rfl | hb
        · exact ha hused
        · exact ha (hhead b hb hused)
      have hnone : (a :: chain).filter (fun a => decide (a ∈ used)) = [] := by
        rw [List.filter_eq_nil_iff]
        intro b hb
        simpa using hunused b hb
      rw [hnone] at hrest ⊢
      obtain rfl : rest = [] := List.length_eq_zero_iff.1 hrest
      exact usedFrom_unused hunused

/-- Without a write beyond its end, the buffer reaches to the last used address. -/
theorem usedFrom_lt {b : BRAddress} {k : ℕ} {r : ℕ × Option (List BRAddress)}
    (h : usedFrom used i chain count (some buf) = some r) (hk : chain[k]? = some b)
    (hb : b ∈ used) : i + k < buf.length := by
  induction chain generalizing i count buf k with
  | nil => cases hk
  | cons a chain ih =>
    rw [usedFrom] at h
    by_cases ha : a ∈ used
    · rw [if_pos ha, writeAddr, Option.bind_map, Option.bind_eq_some_iff] at h
      obtain ⟨buf', hpoke, h⟩ := h
      obtain ⟨hle, hlength⟩ := poke_some hpoke
      cases k with
      | zero => exact hle
      | succ k =>
        have hlt := ih h hk
        omega
    · rw [if_neg ha] at h
      cases k with
      | zero =>
        rw [List.getElem?_cons_zero, Option.some.injEq] at hk
        exact absurd (hk ▸ hb) ha
      | succ k =>
        have hlt := ih h hk
        omega

/-- The used addresses fit into a buffer of their number exactly if they stand first. -/
theorem usedAddresses_fits_iff (w : BRWallet) : ∃ n, w.usedAddresses none = some (n, none) ∧
    ((∀ buf : List BRAddress, buf.length = n →
      w.usedAddresses (some buf) = some (n, some w.usedExternal)) ↔ w.UsedFirst) := by
  refine ⟨w.usedExternal.length, ?_, ?_, ?_⟩
  · rw [usedAddresses, usedFrom_null, Nat.zero_add]
    rfl
  · intro hfits
    have h := hfits (List.replicate w.usedExternal.length []) List.length_replicate
    -- all used addresses are among the first ones, which are as many
    have hrest : ∀ b ∈ w.externalChain.drop w.usedExternal.length, b ∉ w.usedAddrs := by
      intro b hb hused
      obtain ⟨k, hk⟩ := List.mem_iff_getElem?.1 hb
      rw [List.getElem?_drop] at hk
      have hlt := usedFrom_lt h hk hused
      rw [List.length_replicate] at hlt
      omega
    have hsplit := List.take_append_drop w.usedExternal.length w.externalChain
    have hnone : (w.externalChain.drop w.usedExternal.length).filter
        (fun a => decide (a ∈ w.usedAddrs)) = [] := by
      rw [List.filter_eq_nil_iff]
      intro b hb
      simpa using hrest b hb
    have hall : (w.externalChain.take w.usedExternal.length).filter
        (fun a => decide (a ∈ w.usedAddrs)) = w.usedExternal := by
      rw [usedExternal]
      nth_rewrite 3 [← hsplit]
      rw [List.filter_append, hnone, List.append_nil]
      rfl
    have htake : ∀ b ∈ w.externalChain.take w.usedExternal.length, b ∈ w.usedAddrs := by
      have hcount : ((w.externalChain.take w.usedExternal.length).filter
          fun a => decide (a ∈ w.usedAddrs)).length =
            (w.externalChain.take w.usedExternal.length).length := by
        refine le_antisymm (List.length_filter_le _ _) ?_
        rw [hall]
        exact List.length_take_le _ _
      intro b hb
      exact of_decide_eq_true (List.length_filter_eq_length_iff.1 hcount b hb)
    rw [UsedFirst, ← hsplit, List.pairwise_append]
    refine ⟨?_, ?_, ?_⟩
    · exact List.pairwise_of_forall_mem_list fun a ha b _ _ => htake a ha
    · exact List.pairwise_of_forall_mem_list fun a _ b hb hused => absurd hused (hrest b hb)
    · exact fun a ha b _ _ => htake a ha
  · intro hfirst buf hbuf
    have h := usedFrom_of_pairwise 0 [] buf hfirst rfl hbuf
    rwa [List.nil_append, List.nil_append, Nat.zero_add, hbuf] at h

/-- The second of two addresses is used. -/
theorem not_usedAddresses_fits : ¬ ∀ (w : BRWallet) (n : ℕ), w.usedAddresses none = some (n, none) →
    ∀ buf : List BRAddress, buf.length = n →
      w.usedAddresses (some buf) = some (n, some w.usedExternal) := by
  intro h
  have hbad := h { externalChain := [[1], [2]], usedAddrs := {[2]} } 1 (by decide) [[]] rfl
  revert hbad
  decide

end

end BRWallet

end RavenWallet
