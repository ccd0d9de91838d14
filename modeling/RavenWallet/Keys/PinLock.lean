/-
  The lockout after wrong PINs (WalletManager+Auth.swift).

  The number of counted failures and the time of the last one are in the keychain; the
  PINs that failed are kept until the application ends.  A run is a sequence of calls
  of `authenticate(pin:)`, at any times, and of restarts; its attempts are listed with
  the latest first.  Wiping the wallet is triggered only, and done later if at all.

  * `PinRun.inv`: the keychain counts the failures since the last success, and its time
    is not before that of the latest one that did not trigger the wipe;
  * `pin_lockout`: what follows for guessing.
-/
import Mathlib.Data.Rat.Floor
import Mathlib.Tactic.Linarith

namespace RavenWallet

variable {Pin : Type}

/-- What authentication uses of the keychain and of the running application. -/
structure PinState (Pin : Type) where
  pinFailCount : Option ℕ := none
  pinFailTime : Option ℤ := none
  failedPins : List Pin := []
  deriving DecidableEq, Repr

inductive Outcome where
  | lockedOut
  | success
  | failure (wipe : Bool)
  deriving DecidableEq, Repr

/-- `Int64(t)`, towards zero. -/
def toSeconds (t : ℚ) : ℤ := if 0 ≤ t then ⌊t⌋ else ⌈t⌉

/-- The seconds of the lockout after so many failures. -/
def lockout (failCount : ℕ) : ℚ := 6 ^ (failCount - 3) * 60

namespace PinState

variable (stored : Option Pin) (s : PinState Pin)

def failCount : ℕ := s.pinFailCount.getD 0
def failTime : ℤ := s.pinFailTime.getD 0

/-- The lockout ends at this time. -/
def walletDisabledUntil : ℚ :=
  if s.failCount ≥ 3 then s.failTime + lockout s.failCount else 0

/-- What `authenticationSuccess` leaves. -/
def authenticationSuccess : PinState Pin :=
  { failedPins := [], pinFailTime := some 0, pinFailCount := some 0 }

/-- `authenticate(pin:)`; `stored` is the PIN in the keychain. -/
def authenticate [DecidableEq Pin] (pin : Pin) (secureTime : ℚ) : PinState Pin × Outcome :=
  if s.failCount ≥ 3 ∧ secureTime < s.failTime + lockout s.failCount then (s, .lockedOut)
  else
    -- count unique attempts before checking success
    let failCount := if pin ∉ s.failedPins then s.failCount + 1 else s.failCount
    let s := if pin ∉ s.failedPins then { s with pinFailCount := some failCount } else s
    if some pin = stored then (authenticationSuccess, .success)
    else if pin ∉ s.failedPins then
      let s := { s with failedPins := s.failedPins ++ [pin] }
      if failCount ≥ 8 then (s, .failure true)
      else if secureTime > s.failTime then
        ({ s with pinFailTime := some (toSeconds secureTime) }, .failure false)
      else (s, .failure false)
    else (s, .failure false)

/-- The application starts again. -/
def restart : PinState Pin := { s with failedPins := [] }

end PinState

/-! ## Runs -/

/-- A call of `authenticate(pin:)`; `isNew` says that the PIN was not among the failed ones. -/
structure Attempt (Pin : Type) where
  pin : Pin
  time : ℚ
  isNew : Bool
  outcome : Outcome
  deriving DecidableEq, Repr

/-- The attempts of a run, the latest first, and the state it leads to. -/
inductive PinRun [DecidableEq Pin] (stored : Option Pin) : List (Attempt Pin) → PinState Pin → Prop
  | launch : PinRun stored [] {}
  | attempt {h s} (pin : Pin) (t : ℚ) : PinRun stored h s →
      PinRun stored (⟨pin, t, pin ∉ s.failedPins, (s.authenticate stored pin t).2⟩ :: h)
        (s.authenticate stored pin t).1
  | restart {h s} : PinRun stored h s → PinRun stored h s.restart

/-- The attempts after the last success. -/
def sinceSuccess (h : List (Attempt Pin)) : List (Attempt Pin) :=
  h.takeWhile fun a => a.outcome ≠ .success

/-- The PIN was compared with the stored one, and was new. -/
def Attempt.comparesNew (a : Attempt Pin) : Bool := a.isNew && a.outcome ≠ .lockedOut

/-- The counted failures since the last success. -/
def countedFailures (h : List (Attempt Pin)) : List (Attempt Pin) :=
  (sinceSuccess h).filter Attempt.comparesNew

/-- Those that did not trigger the wipe. -/
def timedFailures (h : List (Attempt Pin)) : List (Attempt Pin) :=
  (countedFailures h).filter fun a => a.outcome ≠ .failure true

/-! ## One attempt -/

namespace PinState

/-- All that an attempt can do. -/
theorem authenticate_cases [DecidableEq Pin] (stored : Option Pin) (s : PinState Pin) (pin : Pin)
    (t : ℚ) :
    (s.authenticate stored pin t = (s, .lockedOut) ∧ 3 ≤ s.failCount ∧
      t < s.failTime + lockout s.failCount) ∨
    ((3 ≤ s.failCount → s.failTime + lockout s.failCount ≤ t) ∧
      (some pin = stored ∧ s.authenticate stored pin t = (authenticationSuccess, .success) ∨
      some pin ≠ stored ∧ pin ∈ s.failedPins ∧
        s.authenticate stored pin t = (s, .failure false) ∨
      some pin ≠ stored ∧ pin ∉ s.failedPins ∧ ∃ failTime,
        s.authenticate stored pin t =
          (⟨some (s.failCount + 1), failTime, s.failedPins ++ [pin]⟩,
            .failure (decide (8 ≤ s.failCount + 1))) ∧
        (s.failCount + 1 < 8 → t > s.failTime → failTime = some (toSeconds t)) ∧
        (¬ (s.failCount + 1 < 8 ∧ t > s.failTime) → failTime = s.pinFailTime))) := by
  rw [authenticate]
  by_cases hlock : s.failCount ≥ 3 ∧ t < s.failTime + lockout s.failCount
  · rw [if_pos hlock]
    exact Or.inl ⟨rfl, hlock⟩
  rw [if_neg hlock]
  refine Or.inr ⟨fun h3 => not_lt.1 fun hlt => hlock ⟨h3, hlt⟩, ?_⟩
  by_cases hpin : some pin = stored
  · left
    exact ⟨hpin, by simp [hpin]⟩
  · right
    by_cases hmem : pin ∈ s.failedPins
    · simp [hpin, hmem]
    · right
      refine ⟨hpin, hmem, ?_⟩
      by_cases hwipe : 8 ≤ s.failCount + 1
      · refine ⟨s.pinFailTime, ?_, fun hlt => absurd hwipe (by omega), fun _ => rfl⟩
        simp [hpin, hmem, hwipe]
      · by_cases htime : t > s.failTime
        · refine ⟨some (toSeconds t), ?_, fun _ _ => rfl, fun h => absurd ⟨by omega, htime⟩ h⟩
          rw [failTime] at htime
          simp [hpin, hmem, hwipe, failTime, htime]
        · refine ⟨s.pinFailTime, ?_, fun _ h => absurd h htime, fun _ => rfl⟩
          rw [failTime] at htime
          simp [hpin, hmem, hwipe, failTime, htime]

end PinState

/-! ## The invariant -/

section
variable {stored : Option Pin} {h : List (Attempt Pin)} {s : PinState Pin} {a : Attempt Pin}

theorem sinceSuccess_cons (h : List (Attempt Pin)) (ha : a.outcome ≠ .success) :
    sinceSuccess (a :: h) = a :: sinceSuccess h :=
  List.takeWhile_cons_of_pos (decide_eq_true ha)

theorem sinceSuccess_success (h : List (Attempt Pin)) (ha : a.outcome = .success) :
    sinceSuccess (a :: h) = [] :=
  List.takeWhile_cons_of_neg (by simp [ha])

theorem countedFailures_skip (h : List (Attempt Pin)) (ha : a.outcome ≠ .success)
    (hnew : a.comparesNew = false) :
    countedFailures (a :: h) = countedFailures h := by
  rw [countedFailures, sinceSuccess_cons h ha, List.filter_cons_of_neg (by simp [hnew]),
    countedFailures]

theorem countedFailures_new (h : List (Attempt Pin)) (ha : a.outcome ≠ .success)
    (hnew : a.comparesNew = true) :
    countedFailures (a :: h) = a :: countedFailures h := by
  rw [countedFailures, sinceSuccess_cons h ha, List.filter_cons_of_pos hnew, countedFailures]

/-- What the keychain and the application know of the attempts. -/
structure PinInv (stored : Option Pin) (h : List (Attempt Pin)) (s : PinState Pin) : Prop where
  count : s.failCount = (countedFailures h).length
  /-- the eighth failure triggers the wipe, and the ones after it -/
  timed : (timedFailures h).length = min (countedFailures h).length 7
  time : ∀ a, (timedFailures h).head? = some a → ⌊a.time⌋ ≤ s.failTime
  nonneg : 0 ≤ s.failTime
  wrong : ∀ pin ∈ s.failedPins, some pin ≠ stored

/-- An attempt that is not counted keeps the invariant with the state. -/
theorem PinInv.skip (hi : PinInv stored h s) (ha : a.outcome ≠ .success)
    (hnew : a.comparesNew = false) : PinInv stored (a :: h) s := by
  have hskip := countedFailures_skip h ha hnew
  have htimed : timedFailures (a :: h) = timedFailures h := by
    rw [timedFailures, hskip, timedFailures]
  exact ⟨hskip ▸ hi.count, htimed ▸ hskip ▸ hi.timed, htimed ▸ hi.time, hi.nonneg, hi.wrong⟩

theorem PinInv.success (h : List (Attempt Pin)) (ha : a.outcome = .success) :
    PinInv stored (a :: h) PinState.authenticationSuccess := by
  have hcount : countedFailures (a :: h) = [] := by
    rw [countedFailures, sinceSuccess_success h ha, List.filter_nil]
  have htimed : timedFailures (a :: h) = [] := by rw [timedFailures, hcount, List.filter_nil]
  refine ⟨?_, ?_, ?_, le_rfl, nofun⟩
  · rw [hcount]
    rfl
  · rw [hcount, htimed]
    rfl
  · rw [htimed]
    exact nofun

/-- A counted failure. -/
theorem PinInv.failure (hi : PinInv stored h s) {pin : Pin} {t : ℚ} (hpin : some pin ≠ stored)
    {failTime : Option ℤ}
    (hset : s.failCount + 1 < 8 → t > s.failTime → failTime = some (toSeconds t))
    (hkeep : ¬ (s.failCount + 1 < 8 ∧ t > s.failTime) → failTime = s.pinFailTime) :
    PinInv stored (⟨pin, t, true, .failure (decide (8 ≤ s.failCount + 1))⟩ :: h)
      ⟨some (s.failCount + 1), failTime, s.failedPins ++ [pin]⟩ := by
  set a : Attempt Pin := ⟨pin, t, true, .failure (decide (8 ≤ s.failCount + 1))⟩ with ha
  have hcount : countedFailures (a :: h) = a :: countedFailures h :=
    countedFailures_new h (by simp [ha]) (by simp [ha, Attempt.comparesNew])
  have hpos : t > s.failTime → toSeconds t = ⌊t⌋ := fun hlt => by
    have h0 : (0 : ℚ) ≤ s.failTime := by exact_mod_cast hi.nonneg
    rw [toSeconds, if_pos (h0.trans hlt.le)]
  have hfloor : ⌊t⌋ ≤ t := Int.floor_le t
  have hle : s.failTime ≤ failTime.getD 0 := by
    by_cases hcase : s.failCount + 1 < 8 ∧ t > s.failTime
    · rw [hset hcase.1 hcase.2, Option.getD_some, hpos hcase.2]
      exact Int.le_floor.2 hcase.2.le
    · rw [hkeep hcase]
      exact le_rfl
  refine ⟨?_, ?_, ?_, hi.nonneg.trans hle, ?_⟩
  · rw [hcount, List.length_cons, ← hi.count]
    rfl
  · rw [timedFailures, hcount, List.length_cons]
    have htimed := hi.timed
    rw [timedFailures] at htimed
    by_cases hwipe : 8 ≤ s.failCount + 1
    · rw [List.filter_cons_of_neg (by simp [ha, hwipe]), htimed, ← hi.count]
      omega
    · rw [List.filter_cons_of_pos (by simp [ha, hwipe]), List.length_cons, htimed, ← hi.count]
      omega
  · intro b hb
    rw [timedFailures, hcount] at hb
    by_cases hwipe : 8 ≤ s.failCount + 1
    · rw [List.filter_cons_of_neg (by simp [ha, hwipe])] at hb
      exact (hi.time b hb).trans hle
    · rw [List.filter_cons_of_pos (by simp [ha, hwipe])] at hb
      obtain rfl := Option.some.inj hb
      by_cases htime : t > s.failTime
      · rw [PinState.failTime, hset (by omega) htime, Option.getD_some, hpos htime]
      · refine le_trans ?_ hle
        exact_mod_cast hfloor.trans (not_lt.1 htime)
  · intro p hp
    rcases List.mem_append.1 hp with hp | hp
    · exact hi.wrong p hp
    · rw [List.mem_singleton.1 hp]
      exact hpin

/-- Before the wipe is triggered, all counted failures are timed. -/
theorem timedFailures_eq (hwipe : ∀ a ∈ sinceSuccess h, a.outcome ≠ .failure true) :
    timedFailures h = countedFailures h := by
  refine List.filter_eq_self.2 fun a ha => ?_
  exact decide_eq_true (hwipe a (List.mem_of_mem_filter ha))

variable [DecidableEq Pin]

/-- The invariant holds throughout a run. -/
theorem PinRun.inv (hrun : PinRun stored h s) : PinInv stored h s := by
  induction hrun with
  | launch => exact ⟨rfl, rfl, nofun, le_rfl, nofun⟩
  | restart _ ih => exact ⟨ih.count, ih.timed, ih.time, ih.nonneg, nofun⟩
  | @attempt h s pin t _ ih =>
    rcases s.authenticate_cases stored pin t with ⟨heq, -⟩ | ⟨-, ⟨-, heq⟩ | ⟨-, hmem, heq⟩ |
      ⟨hpin, hmem, failTime, heq, hset, hkeep⟩⟩
    · rw [heq]
      exact ih.skip (by simp) (by simp [Attempt.comparesNew])
    · rw [heq]
      exact PinInv.success h rfl
    · rw [heq]
      exact ih.skip (by simp) (by simp [Attempt.comparesNew, hmem])
    · rw [heq]
      simp only [hmem, not_false_eq_true, decide_true]
      exact ih.failure hpin hset hkeep

/-- After three failures an attempt is compared only after the lockout from the latest one that
    did not trigger the wipe.  The eighth new PIN that is compared is right, or triggers the wipe.
    A success ends the lockout, and a PIN that failed before changes nothing. -/
theorem pin_lockout (hrun : PinRun stored h s) :
    s.failCount = (countedFailures h).length ∧
    (3 ≤ s.failCount → ∃ a, (timedFailures h).head? = some a ∧
      ((∀ b ∈ sinceSuccess h, b.outcome ≠ .failure true) →
        (countedFailures h).head? = some a) ∧
      ∀ pin t, (s.authenticate stored pin t).2 ≠ .lockedOut →
        ⌊a.time⌋ + lockout s.failCount ≤ t) ∧
    ((∀ a ∈ sinceSuccess h, a.outcome ≠ .failure true) → (countedFailures h).length + 1 ≤ 8 ∧
      ((countedFailures h).length + 1 = 8 → ∀ pin ∉ s.failedPins, ∀ t,
        (s.authenticate stored pin t).2 ≠ .failure false)) ∧
    (∀ pin t, (s.authenticate stored pin t).2 = .success →
      (s.authenticate stored pin t).1 = PinState.authenticationSuccess ∧
        (s.authenticate stored pin t).1.failCount = 0 ∧
        (s.authenticate stored pin t).1.walletDisabledUntil = 0) ∧
    ∀ pin ∈ s.failedPins, ∀ t, (s.authenticate stored pin t).1 = s ∧
      (s.authenticate stored pin t).2 ≠ .success ∧
      (s.authenticate stored pin t).2 ≠ .failure true := by
  have hi := hrun.inv
  refine ⟨hi.count, ?_, ?_, ?_, ?_⟩
  · intro h3
    have hlen := hi.timed
    rw [← hi.count] at hlen
    obtain ⟨a, ha⟩ : ∃ a, (timedFailures h).head? = some a := by
      rw [← Option.isSome_iff_exists, List.isSome_head?, ← List.length_pos_iff, hlen]
      omega
    refine ⟨a, ha, fun hwipe => timedFailures_eq hwipe ▸ ha, fun pin t hcompared => ?_⟩
    rcases s.authenticate_cases stored pin t with ⟨heq, -⟩ | ⟨hfree, -⟩
    · rw [heq] at hcompared
      exact absurd rfl hcompared
    · have htime : (⌊a.time⌋ : ℚ) ≤ s.failTime := by exact_mod_cast hi.time a ha
      linarith [hfree h3]
  · intro hwipe
    have hlen := hi.timed
    rw [timedFailures_eq hwipe] at hlen
    refine ⟨by omega, fun hseven pin hmem t => ?_⟩
    rcases s.authenticate_cases stored pin t with ⟨heq, -⟩ | ⟨-, ⟨-, heq⟩ | ⟨-, hmem', -⟩ |
      ⟨-, -, failTime, heq, -⟩⟩
    · simp [heq]
    · simp [heq]
    · exact absurd hmem' hmem
    · rw [heq, hi.count, hseven]
      simp
  · intro pin t hsuccess
    rcases s.authenticate_cases stored pin t with ⟨heq, -⟩ | ⟨-, ⟨-, heq⟩ | ⟨-, -, heq⟩ |
      ⟨-, -, failTime, heq, -⟩⟩
    all_goals rw [heq] at hsuccess ⊢
    · cases hsuccess
    · exact ⟨rfl, rfl, rfl⟩
    · cases hsuccess
    · cases hsuccess
  · intro pin hmem t
    rcases s.authenticate_cases stored pin t with ⟨heq, -⟩ | ⟨-, ⟨hpin, -⟩ | ⟨-, -, heq⟩ |
      ⟨-, hmem', -⟩⟩
    · simp [heq]
    · exact absurd hpin (hi.wrong pin hmem)
    · simp [heq]
    · exact absurd hmem hmem'

/-- The attempts with these PINs at these times, without a restart. -/
def attempts (stored : Option Pin) :
    List (Pin × ℚ) → List (Attempt Pin) × PinState Pin → List (Attempt Pin) × PinState Pin
  | [], r => r
  | (pin, t) :: more, (h, s) =>
    let r := s.authenticate stored pin t
    attempts stored more (⟨pin, t, pin ∉ s.failedPins, r.2⟩ :: h, r.1)

theorem attempts_run (more : List (Pin × ℚ)) (hrun : PinRun stored h s) :
    PinRun stored (attempts stored more (h, s)).1 (attempts stored more (h, s)).2 := by
  induction more generalizing h s with
  | nil => exact hrun
  | cons e more ih => exact ih (hrun.attempt e.1 e.2)

end

/-- After three failures an attempt is compared only after the lockout from the latest one. -/
def LockedSinceLatest (stored : Option ℕ) : Prop :=
  ∀ h s, PinRun stored h s → h.Pairwise (fun a b => b.time ≤ a.time) →
    3 ≤ (countedFailures h).length → ∀ a, (countedFailures h).head? = some a →
      ∀ pin t, (∀ b ∈ h, b.time ≤ t) → (s.authenticate stored pin t).2 ≠ .lockedOut →
        ⌊a.time⌋ + lockout s.failCount ≤ t

/-- Eight wrong PINs, each after the lockout, and the last one after five days more. -/
def sampleAttempts : List (Attempt ℕ) × PinState ℕ :=
  attempts (some 0) [(1, 0), (2, 0), (3, 0), (4, 60), (5, 420), (6, 2580), (7, 15540), (8, 482100)]
    ([], {})

theorem sampleAttempts_run : PinRun (some 0) sampleAttempts.1 sampleAttempts.2 :=
  attempts_run _ .launch

/-- The first seven of them. -/
def sevenFailures : List (Attempt ℕ) × PinState ℕ :=
  attempts (some 0) [(1, 0), (2, 0), (3, 0), (4, 60), (5, 420), (6, 2580), (7, 15540)] ([], {})

theorem pin_lockout_sample :
    sevenFailures.2.failCount = 7 ∧
    (∀ pin t, (sevenFailures.2.authenticate (some 0) pin t).2 ≠ .lockedOut →
      15540 + lockout 7 ≤ t) ∧
    (∀ pin ∉ sevenFailures.2.failedPins, ∀ t,
      (sevenFailures.2.authenticate (some 0) pin t).2 ≠ .failure false) ∧
    (∀ pin t, (sevenFailures.2.authenticate (some 0) pin t).2 = .success →
      (sevenFailures.2.authenticate (some 0) pin t).1.failCount = 0) ∧
    ∀ pin ∈ sevenFailures.2.failedPins, ∀ t,
      (sevenFailures.2.authenticate (some 0) pin t).1 = sevenFailures.2 := by
  have hrun : PinRun (some 0) sevenFailures.1 sevenFailures.2 := attempts_run _ .launch
  obtain ⟨hcount, hlock, heighth, hsuccess, hfailed⟩ := pin_lockout hrun
  have hlen : (countedFailures sevenFailures.1).length = 7 := by decide +kernel
  have hwipe : ∀ a ∈ sinceSuccess sevenFailures.1, a.outcome ≠ .failure true := by decide +kernel
  have hseven := hcount.trans hlen
  refine ⟨hseven, ?_, ?_, fun pin t h => (hsuccess pin t h).2.1, fun pin hp t => (hfailed pin hp t).1⟩
  · intro pin t h
    obtain ⟨a, -, hlatest, hcompared⟩ := hlock (by omega)
    have htime : (countedFailures sevenFailures.1).head?.map Attempt.time = some 15540 := by
      decide +kernel
    rw [hlatest hwipe, Option.map_some, Option.some.injEq] at htime
    have hle := hcompared pin t h
    rw [htime, hseven] at hle
    exact_mod_cast hle
  · exact (heighth hwipe).2 (by omega)

/-- The failure that triggers the wipe starts no lockout. -/
theorem not_lockedSinceLatest : ¬ LockedSinceLatest (some 0) := by
  intro h
  have hlatest : (countedFailures sampleAttempts.1).head?.map Attempt.time = some 482100 := by
    decide +kernel
  obtain ⟨a, ha, htime⟩ := Option.map_eq_some_iff.1 hlatest
  have hle := h _ _ sampleAttempts_run (by decide +kernel) (by decide +kernel) a ha 9 482100
    (by decide +kernel) (by decide +kernel)
  have hlock : lockout sampleAttempts.2.failCount = 466560 := by decide +kernel
  rw [htime, hlock] at hle
  norm_num at hle

end RavenWallet
