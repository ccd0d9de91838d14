/-
  Numbers in limbs of `w` bits, the lowest first.

  `toLimbs` and `ofLimbs` take a number apart and put it together.  A loop that carries
  from limb to limb (`carryLoop`) adds what it finds at each position, whatever this is:
  an addition and a multiplication by one limb are cases of it.  `place` is a limb at its
  position, and bits that are shifted beyond a limb go to the next one.
-/
import Mathlib.Data.List.Basic
import Mathlib.Data.Nat.Size
import Mathlib.Tactic.Ring

namespace RavenWallet

variable {w : ℕ}

/-- The `k` low limbs of `n`. -/
def toLimbs (w : ℕ) : ℕ → ℕ → List ℕ
  | 0, _ => []
  | k + 1, n => n % 2 ^ w :: toLimbs w k (n / 2 ^ w)

/-- The number with these limbs, which need not be below `2 ^ w`. -/
def ofLimbs (w : ℕ) : List ℕ → ℕ
  | [] => 0
  | x :: xs => x + 2 ^ w * ofLimbs w xs

/-- A loop with a carry, which starts as `carry`. -/
def carryLoop (w : ℕ) : List ℕ → ℕ → List ℕ
  | [], _ => []
  | x :: xs, carry => (carry + x) % 2 ^ w :: carryLoop w xs ((carry + x) / 2 ^ w)

@[simp] theorem length_toLimbs (k n : ℕ) : (toLimbs w k n).length = k := by
  induction k generalizing n with
  | zero => rfl
  | succ k ih => rw [toLimbs, List.length_cons, ih]

theorem ofLimbs_toLimbs (k n : ℕ) : ofLimbs w (toLimbs w k n) = n % 2 ^ (w * k) := by
  induction k generalizing n with
  | zero => rw [toLimbs, ofLimbs, Nat.mul_zero, Nat.pow_zero, Nat.mod_one]
  | succ k ih => rw [toLimbs, ofLimbs, ih, Nat.mul_succ, Nat.add_comm (w * k), Nat.pow_add,
      Nat.mod_mul]

theorem ofLimbs_toLimbs_of_lt {k n : ℕ} (h : n < 2 ^ (w * k)) :
    ofLimbs w (toLimbs w k n) = n := by
  rw [ofLimbs_toLimbs, Nat.mod_eq_of_lt h]

theorem toLimbs_lt {k n : ℕ} : ∀ x ∈ toLimbs w k n, x < 2 ^ w := by
  induction k generalizing n with
  | zero => simp [toLimbs]
  | succ k ih =>
    intro x hx
    rw [toLimbs] at hx
    rcases List.mem_cons.1 hx with rfl | hx
    · exact Nat.mod_lt _ (Nat.two_pow_pos w)
    · exact ih x hx

/-- The carry loop adds up what it finds, but for what is carried beyond the last limb. -/
theorem ofLimbs_carryLoop (xs : List ℕ) (carry : ℕ) :
    ofLimbs w (carryLoop w xs carry) = (carry + ofLimbs w xs) % 2 ^ (w * xs.length) := by
  induction xs generalizing carry with
  | nil => rw [carryLoop, ofLimbs, List.length_nil, Nat.mul_zero, Nat.pow_zero, Nat.mod_one]
  | cons x xs ih =>
    have hcarry : (carry + (x + 2 ^ w * ofLimbs w xs)) % 2 ^ w = (carry + x) % 2 ^ w := by
      rw [← Nat.add_assoc, Nat.add_mul_mod_self_left]
    have hrest : (carry + (x + 2 ^ w * ofLimbs w xs)) / 2 ^ w =
        (carry + x) / 2 ^ w + ofLimbs w xs := by
      rw [← Nat.add_assoc, Nat.add_mul_div_left _ _ (Nat.two_pow_pos w)]
    rw [carryLoop, ofLimbs, ofLimbs, ih, List.length_cons, Nat.mul_succ,
      Nat.add_comm (w * xs.length),
      Nat.pow_add, Nat.mod_mul, hcarry, hrest]

theorem ofLimbs_zipWith_add {xs ys : List ℕ} (h : xs.length = ys.length) :
    ofLimbs w (List.zipWith (· + ·) xs ys) = ofLimbs w xs + ofLimbs w ys := by
  induction xs generalizing ys with
  | nil =>
    rw [List.length_nil] at h
    rw [List.length_eq_zero_iff.1 h.symm]
    rfl
  | cons x xs ih =>
    cases ys with
    | nil => cases h
    | cons y ys =>
      rw [List.zipWith_cons_cons, ofLimbs, ofLimbs, ofLimbs, ih (Nat.succ.inj h)]
      ring

theorem ofLimbs_map_mul (b : ℕ) (xs : List ℕ) :
    ofLimbs w (xs.map fun x => b * x) = b * ofLimbs w xs := by
  induction xs with
  | nil => rfl
  | cons x xs ih =>
    rw [List.map_cons, ofLimbs, ofLimbs, ih]
    ring

/-! ## Limbs of a bit vector -/

variable {n : ℕ}

/-- The limb `i`. -/
def limb (w : ℕ) (a : BitVec n) (i : ℕ) : BitVec w := a.extractLsb' (w * i) w

/-- A number with `x` as its limb `i`, if there is such a limb. -/
def place (n : ℕ) (x : BitVec w) (i : ℕ) : BitVec n := x.setWidth n <<< (w * i)

theorem toNat_limb (a : BitVec n) (i : ℕ) :
    (limb w a i).toNat = a.toNat / 2 ^ (w * i) % 2 ^ w := by
  rw [limb, BitVec.extractLsb'_toNat, Nat.shiftRight_eq_div_pow]

@[simp] theorem place_zero (i : ℕ) : place n (0#w) i = 0#n := by
  simp [place]

theorem getLsbD_limb (a : BitVec n) (i m : ℕ) :
    (limb w a i).getLsbD m = (decide (m < w) && a.getLsbD (w * i + m)) := by
  rw [limb, BitVec.getLsbD_extractLsb']

theorem limb_not {i : ℕ} (h : w * (i + 1) ≤ n) (a : BitVec n) :
    ~~~ limb w a i = limb w (~~~a) i := by
  refine BitVec.eq_of_getLsbD_eq fun m hm => ?_
  have hlt : w * i + m < n := by
    rw [Nat.mul_succ] at h
    omega
  rw [BitVec.getLsbD_not, getLsbD_limb, getLsbD_limb, BitVec.getLsbD_not]
  simp [hm, hlt]

theorem getLsbD_place (x : BitVec w) (i m : ℕ) :
    (place n x i).getLsbD m = (decide (m < n ∧ w * i ≤ m) && x.getLsbD (m - w * i)) := by
  rw [place, BitVec.getLsbD_shiftLeft, BitVec.getLsbD_setWidth]
  by_cases hn : m < n
  · have hsub : m - w * i < n := Nat.lt_of_le_of_lt (Nat.sub_le _ _) hn
    by_cases hle : w * i ≤ m
    · simp [hn, hle, hsub, Nat.not_lt.2 hle]
    · simp [hn, hle, Nat.lt_of_not_le hle]
  · simp [hn]

/-- Beyond the last limb there is nothing to place. -/
theorem place_of_le {x : BitVec w} {i : ℕ} (h : n ≤ w * i) : place n x i = 0#n := by
  refine BitVec.eq_of_getLsbD_eq fun m hm => ?_
  rw [getLsbD_place, decide_eq_false (by omega), Bool.false_and, BitVec.getLsbD_zero]

/-- A limb that is shifted to the left: what is shifted beyond it goes to the next one. -/
theorem place_shiftLeft {b : ℕ} (hb : b < w) (x : BitVec w) (i : ℕ) :
    place n (x >>> (w - b)) (i + 1) ||| place n (x <<< b) i = place n x i <<< b := by
  refine BitVec.eq_of_getLsbD_eq fun m hm => ?_
  have hhigh : ∀ q, w ≤ q → x.getLsbD q = false := fun q => BitVec.getLsbD_of_ge x q
  have hnext : w * (i + 1) = w * i + w := Nat.mul_succ w i
  simp only [BitVec.getLsbD_or, BitVec.getLsbD_shiftLeft, BitVec.getLsbD_ushiftRight, getLsbD_place]
  grind

/-- A limb that is shifted to the right: what is shifted beyond it goes to the one before. -/
theorem place_shiftRight {b i : ℕ} (hb : b < w) (x : BitVec w) (hi : w * (i + 2) ≤ n) :
    place n (x <<< (w - b)) i ||| place n (x >>> b) (i + 1) = place n x (i + 1) >>> b := by
  refine BitVec.eq_of_getLsbD_eq fun m hm => ?_
  have hhigh : ∀ q, w ≤ q → x.getLsbD q = false := fun q => BitVec.getLsbD_of_ge x q
  have hnext : w * (i + 1) = w * i + w := Nat.mul_succ w i
  have hlast : w * (i + 2) = w * i + w + w := by rw [Nat.mul_succ, hnext]
  simp only [BitVec.getLsbD_or, BitVec.getLsbD_shiftLeft, BitVec.getLsbD_ushiftRight, getLsbD_place]
  grind

/-- The lowest limb that is shifted to the right. -/
theorem place_zero_shiftRight (b : ℕ) (x : BitVec w) (hn : w ≤ n) :
    place n (x >>> b) 0 = place n x 0 >>> b := by
  refine BitVec.eq_of_getLsbD_eq fun m hm => ?_
  have hhigh : ∀ q, w ≤ q → x.getLsbD q = false := fun q => BitVec.getLsbD_of_ge x q
  simp only [BitVec.getLsbD_ushiftRight, getLsbD_place]
  grind

/-- Limbs that are shifted as a whole. -/
theorem place_add (x : BitVec w) (i k : ℕ) : place n x (i + k) = place n x i <<< (w * k) := by
  rw [place, place, Nat.mul_add, BitVec.shiftLeft_add]

theorem place_sub {i k : ℕ} (x : BitVec w) (hk : k ≤ i) (hi : w * (i + 1) ≤ n) :
    place n x (i - k) = place n x i >>> (w * k) := by
  obtain ⟨j, rfl⟩ := Nat.exists_eq_add_of_le' hk
  refine BitVec.eq_of_getLsbD_eq fun m hm => ?_
  have hhigh : ∀ q, w ≤ q → x.getLsbD q = false := fun q => BitVec.getLsbD_of_ge x q
  have hnext : w * (j + k + 1) = w * j + w * k + w := by rw [Nat.mul_succ, Nat.mul_add]
  have hsum : w * (j + k) = w * j + w * k := Nat.mul_add w j k
  rw [Nat.add_sub_cancel]
  simp only [BitVec.getLsbD_ushiftRight, getLsbD_place]
  grind

theorem place_shiftRight_whole {i k : ℕ} (x : BitVec w) (hi : i < k) :
    place n x i >>> (w * k) = 0#n := by
  refine BitVec.eq_of_getLsbD_eq fun m hm => ?_
  have hhigh : ∀ q, w ≤ q → x.getLsbD q = false := fun q => BitVec.getLsbD_of_ge x q
  have hle : w * (i + 1) ≤ w * k := Nat.mul_le_mul_left w hi
  have hnext : w * (i + 1) = w * i + w := Nat.mul_succ w i
  simp only [BitVec.getLsbD_ushiftRight, getLsbD_place, BitVec.getLsbD_zero]
  grind

/-! ## Loops over limbs -/

/-- What a loop puts together. -/
def orAll (x : ℕ → BitVec n) : ℕ → BitVec n
  | 0 => 0#n
  | k + 1 => orAll x k ||| x k

theorem getLsbD_orAll (x : ℕ → BitVec n) (k m : ℕ) :
    (orAll x k).getLsbD m = true ↔ ∃ i < k, (x i).getLsbD m = true := by
  induction k with
  | zero => simp [orAll]
  | succ k ih =>
    rw [orAll, BitVec.getLsbD_or, Bool.or_eq_true, ih]
    constructor
    · rintro (⟨i, hi, h⟩ | h)
      · exact ⟨i, Nat.lt_succ_of_lt hi, h⟩
      · exact ⟨k, Nat.lt_succ_self k, h⟩
    · rintro ⟨i, hi, h⟩
      rcases Nat.lt_or_eq_of_le (Nat.le_of_lt_succ hi) with hi | rfl
      · exact .inl ⟨i, hi, h⟩
      · exact .inr h

/-- A number is put together of its limbs. -/
theorem orAll_limb {k : ℕ} (hw : 0 < w) (hn : n ≤ w * k) (a : BitVec n) :
    orAll (fun i => place n (limb w a i) i) k = a := by
  refine BitVec.eq_of_getLsbD_eq fun m hm => ?_
  rw [Bool.eq_iff_iff, getLsbD_orAll]
  simp only [getLsbD_place, getLsbD_limb, Bool.and_eq_true, decide_eq_true_eq]
  constructor
  · rintro ⟨i, -, ⟨-, hle⟩, -, h⟩
    rwa [Nat.add_sub_cancel' hle] at h
  · intro h
    have hle : w * (m / w) ≤ m := Nat.mul_div_le m w
    have hmod := Nat.mod_add_div m w
    have hlt := Nat.mod_lt m hw
    refine ⟨m / w, ?_, ⟨hm, hle⟩, by omega, ?_⟩
    · exact Nat.div_lt_of_lt_mul (Nat.lt_of_lt_of_le hm hn)
    · rwa [Nat.add_sub_cancel' hle]

theorem orAll_congr {x y : ℕ → BitVec n} {k : ℕ} (h : ∀ i < k, x i = y i) :
    orAll x k = orAll y k := by
  induction k with
  | zero => rfl
  | succ k ih =>
    rw [orAll, orAll, ih fun i hi => h i (Nat.lt_succ_of_lt hi), h k (Nat.lt_succ_self k)]

theorem orAll_map {f : BitVec n → BitVec n} (hzero : f 0#n = 0#n)
    (hor : ∀ x y, f (x ||| y) = f x ||| f y) (x : ℕ → BitVec n) (k : ℕ) :
    orAll (fun i => f (x i)) k = f (orAll x k) := by
  induction k with
  | zero => exact hzero.symm
  | succ k ih => rw [orAll, orAll, hor, ih]

end RavenWallet
