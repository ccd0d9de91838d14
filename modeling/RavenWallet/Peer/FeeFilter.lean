/-
  Fee rates that peers ask for (`_peerSetFeePerKb` of BRPeerManager.c).

  One loop over the connected peers keeps the highest fee rate, and the one that
  was the highest before.  `secondFeePerKb_iff`: that is the second highest rate
  exactly if its peer is behind the one with the highest rate, which the loop
  comes to later.
-/
import Mathlib.Order.Nat
import RavenWallet.Lib.Leaders
import RavenWallet.Wallet.State

namespace RavenWallet

/-- Slightly higher than a fee of 10000 bits for a transaction of 191 bytes. -/
def MAX_FEE_PER_KB : UInt64 := (1000100 * 1000 + 190) / 191

/-- A peer in `connectedPeers`: whether its status is connected, and its fee rate. -/
structure RatedPeer where
  connected : Bool
  feePerKb : UInt64

/-- The body of the loop, on `maxFeePerKb` and `secondFeePerKb`. -/
def takeRate (fees : UInt64 × UInt64) (p : RatedPeer) : UInt64 × UInt64 :=
  if !p.connected then fees
  else if p.feePerKb > fees.1 then (p.feePerKb, fees.1)
  else fees

/-- The `secondFeePerKb` of `_peerSetFeePerKb`; the loop begins with the last peer. -/
def secondFeePerKb (connectedPeers : List RatedPeer) : UInt64 :=
  (connectedPeers.reverse.foldl takeRate (0, 0)).2

/-- `_peerSetFeePerKb`. -/
def BRWallet.peerSetFeePerKb (w : BRWallet) (connectedPeers : List RatedPeer) : BRWallet :=
  let fee := secondFeePerKb connectedPeers * 3 / 2
  if fee > DEFAULT_FEE_PER_KB ∧ fee ≤ MAX_FEE_PER_KB ∧ fee > w.feePerKb then
    { w with feePerKb := fee }
  else w

/-- The rates of the peers whose status is connected. -/
def feeRates (connectedPeers : List RatedPeer) : List UInt64 :=
  (connectedPeers.filter RatedPeer.connected).map RatedPeer.feePerKb

/-- The second highest of the rates. -/
def IsSecondRate (rates : List UInt64) (fee : UInt64) : Prop := ∃ most, Leads rates most fee

/-- The second highest rate is zero, or behind the highest one. -/
def SecondBehind (rates : List UInt64) : Prop :=
  ∃ most fee, Leads rates most fee ∧ (fee = 0 ∨ [most, fee].Sublist rates)

section
variable {connectedPeers connectedPeers' : List RatedPeer} {rates : List UInt64}
  {most fee : UInt64}

theorem leads_toNat :
    Leads (rates.map UInt64.toNat) most.toNat fee.toNat ↔ Leads rates most fee := by
  have hmem : ∀ rate : UInt64, rate.toNat ∈ rates.map UInt64.toNat ↔ rate ∈ rates := fun rate =>
    List.mem_map_of_injective fun _ _ => UInt64.toNat_inj.1
  constructor
  · rintro ⟨hmost, hfee, hlt, hrest⟩
    refine ⟨(hmem most).1 hmost, (hmem fee).1 hfee, UInt64.lt_iff_toNat_lt.2 hlt, ?_⟩
    intro rate hrate
    rcases hrest _ ((hmem rate).2 hrate) with heq | hle
    · exact Or.inl (UInt64.toNat_inj.1 heq)
    · exact Or.inr (UInt64.le_iff_toNat_le.2 hle)
  · rintro ⟨hmost, hfee, hlt, hrest⟩
    refine ⟨(hmem most).2 hmost, (hmem fee).2 hfee, UInt64.lt_iff_toNat_lt.1 hlt, ?_⟩
    intro x hx
    obtain ⟨rate, hrate, rfl⟩ := List.mem_map.1 hx
    rcases hrest rate hrate with rfl | hle
    · exact Or.inl rfl
    · exact Or.inr (UInt64.le_iff_toNat_le.1 hle)

/-- The loop scans the rates of the connected peers. -/
theorem foldl_takeRate (connectedPeers : List RatedPeer) :
    ((connectedPeers.reverse.foldl takeRate (0, 0)).1.toNat,
      (connectedPeers.reverse.foldl takeRate (0, 0)).2.toNat) =
    leaders ((feeRates connectedPeers).map UInt64.toNat) := by
  induction connectedPeers with
  | nil => rfl
  | cons p ps ih =>
    rw [List.foldl_reverse] at ih ⊢
    rw [List.foldr_cons, takeRate]
    cases hp : p.connected with
    | false =>
      have hskip : feeRates (p :: ps) = feeRates ps := by simp [feeRates, hp]
      rw [hskip, ← ih]
      rfl
    | true =>
      have htake : feeRates (p :: ps) = p.feePerKb :: feeRates ps := by simp [feeRates, hp]
      rw [htake, List.map_cons, leaders, ← ih]
      simp only [Bool.not_true, Bool.false_eq_true, if_false, gt_iff_lt,
        UInt64.lt_iff_toNat_lt]
      split_ifs <;> rfl

theorem secondFeePerKb_toNat (connectedPeers : List RatedPeer) :
    (secondFeePerKb connectedPeers).toNat =
      (leaders ((feeRates connectedPeers).map UInt64.toNat)).2 := by
  rw [← foldl_takeRate]
  rfl

/-- The loop finds the second highest rate if that is zero or behind the highest one. -/
theorem secondFeePerKb_eq_iff (hnodup : (feeRates connectedPeers).Nodup)
    (h : Leads (feeRates connectedPeers) most fee) : secondFeePerKb connectedPeers = fee ↔
      fee = 0 ∨ [most, fee].Sublist (feeRates connectedPeers) := by
  have hinj : Function.Injective UInt64.toNat := fun _ _ => UInt64.toNat_inj.1
  have hsublist : [most.toNat, fee.toNat].Sublist ((feeRates connectedPeers).map UInt64.toNat) ↔
      [most, fee].Sublist (feeRates connectedPeers) := by
    constructor
    · intro hs
      obtain ⟨l, hl, heq⟩ := List.sublist_map_iff.1 hs
      rwa [List.map_injective_iff.2 hinj (show [most, fee].map UInt64.toNat = _ from heq)]
    · exact fun hs => hs.map UInt64.toNat
  rw [← UInt64.toNat_inj, secondFeePerKb_toNat,
    leaders_snd_iff (hnodup.map hinj) (leads_toNat.2 h), hsublist, ← UInt64.toNat_inj]
  rfl

theorem Leads.unique_rates {most' fee' : UInt64} (h : Leads rates most fee)
    (h' : Leads rates most' fee') : most = most' ∧ fee = fee' := by
  obtain ⟨hmost, hfee⟩ := (leads_toNat.2 h).unique (leads_toNat.2 h')
  exact ⟨UInt64.toNat_inj.1 hmost, UInt64.toNat_inj.1 hfee⟩

theorem isSecondRate_iff (hnodup : (feeRates connectedPeers).Nodup) :
    IsSecondRate (feeRates connectedPeers) (secondFeePerKb connectedPeers) ↔
      SecondBehind (feeRates connectedPeers) := by
  constructor
  · rintro ⟨most, h⟩
    exact ⟨most, _, h, (secondFeePerKb_eq_iff hnodup h).1 rfl⟩
  · rintro ⟨most, fee, h, hbehind⟩
    rw [(secondFeePerKb_eq_iff hnodup h).2 hbehind]
    exact ⟨most, h⟩

/-- What the wallet takes from two orders of the same peers, if both meet the condition. -/
theorem peerSetFeePerKb_perm (w : BRWallet) (hnodup : (feeRates connectedPeers).Nodup)
    (hperm : connectedPeers.Perm connectedPeers') (h : SecondBehind (feeRates connectedPeers))
    (h' : SecondBehind (feeRates connectedPeers')) :
    w.peerSetFeePerKb connectedPeers = w.peerSetFeePerKb connectedPeers' := by
  have hrates : (feeRates connectedPeers).Perm (feeRates connectedPeers') :=
    (hperm.filter _).map _
  obtain ⟨most, fee, hleads, hbehind⟩ := h
  obtain ⟨most', fee', hleads', hbehind'⟩ := h'
  have hsame : Leads (feeRates connectedPeers) most' fee' :=
    ⟨hrates.mem_iff.2 hleads'.largest, hrates.mem_iff.2 hleads'.second, hleads'.lt,
      fun rate hrate => hleads'.rest rate (hrates.mem_iff.1 hrate)⟩
  obtain ⟨-, rfl⟩ := hleads.unique_rates hsame
  rw [BRWallet.peerSetFeePerKb, BRWallet.peerSetFeePerKb,
    (secondFeePerKb_eq_iff hnodup hleads).2 hbehind,
    (secondFeePerKb_eq_iff (hrates.nodup_iff.1 hnodup) hleads').2 hbehind']

end

/-- The loop finds the second highest rate exactly if that is zero, or its peer is behind the one
    with the highest rate; then the wallet takes the same rate from each such order. -/
theorem secondFeePerKb_iff (connectedPeers : List RatedPeer)
    (hnodup : (feeRates connectedPeers).Nodup) :
    (IsSecondRate (feeRates connectedPeers) (secondFeePerKb connectedPeers) ↔
      SecondBehind (feeRates connectedPeers)) ∧
    ∀ (w : BRWallet) (connectedPeers' : List RatedPeer), connectedPeers.Perm connectedPeers' →
      SecondBehind (feeRates connectedPeers) → SecondBehind (feeRates connectedPeers') →
        w.peerSetFeePerKb connectedPeers = w.peerSetFeePerKb connectedPeers' :=
  ⟨isSecondRate_iff hnodup, fun w _ hperm h h' => peerSetFeePerKb_perm w hnodup hperm h h'⟩

/-- Rates of 60000 and 50000, the highest one first. -/
def ratedPeers : List RatedPeer := [⟨true, 60000⟩, ⟨true, 50000⟩]

theorem secondFeePerKb_ratedPeers :
    IsSecondRate (feeRates ratedPeers) (secondFeePerKb ratedPeers) := by
  have hrest : ∀ x ∈ feeRates ratedPeers, x = 60000 ∨ x ≤ 50000 := by
    show ∀ x ∈ [(60000 : UInt64), 50000], x = 60000 ∨ x ≤ 50000
    intro x hx
    rcases List.mem_cons.1 hx with rfl | hx
    · exact Or.inl rfl
    · exact Or.inr (List.mem_singleton.1 hx ▸ UInt64.le_refl _)
  exact (secondFeePerKb_iff ratedPeers (by decide)).1.2
    ⟨60000, 50000, ⟨by decide, by decide, by decide, hrest⟩, Or.inr (by decide)⟩

/-- In the other order the loop comes to the highest rate first. -/
theorem not_secondFeePerKb : ¬ ∀ connectedPeers : List RatedPeer,
    2 ≤ (feeRates connectedPeers).length → (feeRates connectedPeers).Nodup →
      IsSecondRate (feeRates connectedPeers) (secondFeePerKb connectedPeers) := by
  intro h
  obtain ⟨most, -, hmem, -⟩ := h ratedPeers.reverse (by decide) (by decide)
  have hzero : secondFeePerKb ratedPeers.reverse = 0 := by decide
  rw [hzero] at hmem
  revert hmem
  decide

end RavenWallet
