/-
  Numbers in positional notation, most significant digit first.

  `value base ds` is the number with the digits `ds`.  A buffer of digits is
  multiplied and added to from its end by `mulAdd`; as long as the result fits,
  folding it over the digits in one base converts them to another:
  `value_foldl_mulAdd`, `foldlM_mulAddIn`.  Without leading zeros the digits are unique.
-/
import Mathlib.Data.UInt
import Mathlib.Data.Nat.Digits.Lemmas

namespace RavenWallet

/-- The number with the digits `ds` in base `base`. -/
def value (base : ℕ) (ds : List ℕ) : ℕ := Nat.ofDigits base ds.reverse

/-- Multiplies the number with the digits `buf` in base `base` by `mul` and adds `carry`; what does
    not fit is dropped. -/
def mulAdd (mul base : ℕ) (buf : List ℕ) (carry : ℕ) : List ℕ :=
  (buf.foldr (fun d s => ((s.2 + d * mul) % base :: s.1, (s.2 + d * mul) / base)) ([], carry)).1

section
variable {base mul : ℕ} {ds : List ℕ}

@[simp] theorem value_nil : value base [] = 0 := rfl

theorem value_cons (d : ℕ) : value base (d :: ds) = d * base ^ ds.length + value base ds := by
  rw [value, List.reverse_cons, Nat.ofDigits_append, Nat.ofDigits_singleton, List.length_reverse,
    Nat.mul_comm, Nat.add_comm, value]

theorem value_concat (ds : List ℕ) (d : ℕ) :
    value base (ds ++ [d]) = value base ds * base + d := by
  rw [value, value, List.reverse_append, List.reverse_singleton, List.singleton_append,
    Nat.ofDigits_cons, Nat.mul_comm, Nat.add_comm]

theorem value_zeros (n : ℕ) : value base (List.replicate n 0) = 0 := by
  rw [value, List.reverse_replicate, Nat.ofDigits_replicate_zero]

theorem value_dropWhile : value base (ds.dropWhile fun d => d = 0) = value base ds := by
  induction ds with
  | nil => rfl
  | cons d ds ih =>
    by_cases hd : d = 0
    · rw [List.dropWhile_cons_of_pos (by simpa using hd), ih, value_cons, hd, Nat.zero_mul,
        Nat.zero_add]
    · rw [List.dropWhile_cons_of_neg (by simpa using hd)]

theorem value_lt (hb : 1 < base) (h : ∀ d ∈ ds, d < base) : value base ds < base ^ ds.length := by
  have hlt := Nat.ofDigits_lt_base_pow_length hb (l := ds.reverse) fun d hd =>
    h d (List.mem_reverse.1 hd)
  rwa [List.length_reverse] at hlt

/-- Digits without leading zeros are those of their value. -/
theorem digits_value (hb : 1 < base) (h : ∀ d ∈ ds, d < base) (h0 : ds.head? ≠ some 0) :
    (Nat.digits base (value base ds)).reverse = ds := by
  rw [value, Nat.digits_ofDigits base hb _ (fun d hd => h d (List.mem_reverse.1 hd)),
    List.reverse_reverse]
  intro hne hlast
  refine h0 ?_
  rw [List.getLast_reverse] at hlast
  rw [List.head?_eq_some_head (List.reverse_ne_nil_iff.1 hne), hlast]

theorem value_injective {ds' : List ℕ} (hb : 1 < base) (h : ∀ d ∈ ds, d < base)
    (h0 : ds.head? ≠ some 0) (h' : ∀ d ∈ ds', d < base) (h0' : ds'.head? ≠ some 0)
    (hv : value base ds = value base ds') : ds = ds' := by
  rw [← digits_value hb h h0, hv, digits_value hb h' h0']

/-- After leading zeros are dropped there are none. -/
theorem head?_dropWhile : (ds.dropWhile fun d => d = 0).head? ≠ some 0 := by
  intro h
  have hmem := List.head?_dropWhile_not (fun d => decide (d = 0)) ds
  rw [h] at hmem
  simp at hmem

end

/-! ## Changing the base -/

section
variable {base mul : ℕ}

private theorem mulAdd_fold (mul : ℕ) (hb : 0 < base) (buf : List ℕ) (carry : ℕ) :
    let r := buf.foldr (fun d s => ((s.2 + d * mul) % base :: s.1, (s.2 + d * mul) / base))
      (([] : List ℕ), carry)
    value base r.1 + r.2 * base ^ buf.length = value base buf * mul + carry ∧
      r.1.length = buf.length ∧ ∀ d ∈ r.1, d < base := by
  induction buf with
  | nil => simp
  | cons d buf ih =>
    simp only [List.foldr_cons, List.length_cons, value_cons]
    obtain ⟨hv, hl, hd⟩ := ih
    refine ⟨?_, by rw [hl], ?_⟩
    · rw [hl]
      generalize buf.foldr _ (([] : List ℕ), carry) = r at hv
      have hdiv := Nat.mod_add_div (r.2 + d * mul) base
      calc (r.2 + d * mul) % base * base ^ buf.length + value base r.1 +
            (r.2 + d * mul) / base * base ^ (buf.length + 1)
          = ((r.2 + d * mul) % base + base * ((r.2 + d * mul) / base)) * base ^ buf.length +
              value base r.1 := by ring
        _ = (value base r.1 + r.2 * base ^ buf.length) + d * mul * base ^ buf.length := by
            rw [hdiv]; ring
        _ = (d * base ^ buf.length + value base buf) * mul + carry := by rw [hv]; ring
    · intro x hx
      rcases List.mem_cons.1 hx with rfl | hx
      · exact Nat.mod_lt _ hb
      · exact hd x hx

variable (buf : List ℕ) (carry : ℕ)

@[simp] theorem length_mulAdd (hb : 0 < base) : (mulAdd mul base buf carry).length = buf.length :=
  (mulAdd_fold mul hb buf carry).2.1

theorem mulAdd_lt (hb : 0 < base) : ∀ d ∈ mulAdd mul base buf carry, d < base :=
  (mulAdd_fold mul hb buf carry).2.2

/-- Nothing is left to carry from a result that fits. -/
theorem carry_eq_zero (hb : 0 < base) {buf : List ℕ} {carry : ℕ}
    (h : value base buf * mul + carry < base ^ buf.length) :
    (buf.foldr (fun d s => ((s.2 + d * mul) % base :: s.1, (s.2 + d * mul) / base))
      (([] : List ℕ), carry)).2 = 0 := by
  obtain ⟨hv, -, -⟩ := mulAdd_fold mul hb buf carry
  by_contra hne
  have hle := Nat.mul_le_mul_right (base ^ buf.length) (Nat.one_le_iff_ne_zero.2 hne)
  omega

/-- A result that fits is not changed by dropping the carry. -/
theorem value_mulAdd (hb : 0 < base) {buf : List ℕ} {carry : ℕ}
    (h : value base buf * mul + carry < base ^ buf.length) :
    value base (mulAdd mul base buf carry) = value base buf * mul + carry := by
  obtain ⟨hv, -, -⟩ := mulAdd_fold mul hb buf carry
  rw [carry_eq_zero hb h, Nat.zero_mul, Nat.add_zero] at hv
  exact hv

/-- What has room for all digits has room for the first one, and then for the other ones. -/
theorem room_cons (hm : 0 < mul) {x : ℕ} {xs : List ℕ} {buf : List ℕ}
    (h : value base buf * mul ^ (x :: xs).length + value mul (x :: xs) < base ^ buf.length) :
    value base buf * mul + x < base ^ buf.length ∧
      (value base buf * mul + x) * mul ^ xs.length + value mul xs < base ^ buf.length := by
  rw [value_cons, List.length_cons] at h
  have hsum : (value base buf * mul + x) * mul ^ xs.length + value mul xs =
      value base buf * mul ^ (xs.length + 1) + (x * mul ^ xs.length + value mul xs) := by ring
  have hle := Nat.le_mul_of_pos_right (value base buf * mul + x) (Nat.pow_pos (n := xs.length) hm)
  constructor
  · omega
  · omega

/-- Digits in base `mul` are converted to base `base` if the buffer has room for their number. -/
theorem value_foldl_mulAdd (hb : 0 < base) (hm : 0 < mul) {xs : List ℕ} {buf : List ℕ}
    (h : value base buf * mul ^ xs.length + value mul xs < base ^ buf.length)
    (hd : ∀ d ∈ buf, d < base) :
    value base (xs.foldl (mulAdd mul base) buf) =
        value base buf * mul ^ xs.length + value mul xs ∧
      ∀ d ∈ xs.foldl (mulAdd mul base) buf, d < base := by
  induction xs generalizing buf with
  | nil => exact ⟨by simp, hd⟩
  | cons x xs ih =>
    obtain ⟨hfit, hrest⟩ := room_cons hm h
    have hv := value_mulAdd hb hfit
    have hlen : (mulAdd mul base buf x).length = buf.length := length_mulAdd buf x hb
    have hsum : (value base buf * mul + x) * mul ^ xs.length + value mul xs =
        value base buf * mul ^ (xs.length + 1) + (x * mul ^ xs.length + value mul xs) := by ring
    rw [List.foldl_cons, List.length_cons, value_cons, ← hsum, ← hv]
    exact ih (by rw [hv, hlen]; exact hrest) (mulAdd_lt buf x hb)

theorem value_foldl_zeros (hb : 0 < base) (hm : 0 < mul) {xs : List ℕ} {n : ℕ}
    (h : value mul xs < base ^ n) :
    value base (xs.foldl (mulAdd mul base) (List.replicate n 0)) = value mul xs ∧
      ∀ d ∈ xs.foldl (mulAdd mul base) (List.replicate n 0), d < base := by
  have hfit : value base (List.replicate n 0) * mul ^ xs.length + value mul xs <
      base ^ (List.replicate n 0).length := by
    rw [value_zeros, Nat.zero_mul, Nat.zero_add, List.length_replicate]
    exact h
  have hfold := value_foldl_mulAdd hb hm hfit fun d hd => by
    rw [List.eq_of_mem_replicate hd]
    exact hb
  rwa [value_zeros, Nat.zero_mul, Nat.zero_add] at hfold

/-! ## Without overflow -/

/-- The rounds of `mulAdd`, on numbers below `limit`: the digits, and the carry that is left. -/
def mulAddRounds (limit mul base : ℕ) (buf : List ℕ) (carry : ℕ) : Option (List ℕ × ℕ) :=
  buf.foldr (fun d s => s.bind fun s =>
    if s.2 + d * mul < limit then some ((s.2 + d * mul) % base :: s.1, (s.2 + d * mul) / base)
    else none) (some ([], carry))

/-- `mulAdd`; fails if a number reaches `limit`, or something does not fit. -/
def mulAddIn (limit mul base : ℕ) (buf : List ℕ) (carry : ℕ) : Option (List ℕ) :=
  (mulAddRounds limit mul base buf carry).bind fun s => if s.2 = 0 then some s.1 else none

section
variable {limit : ℕ} {buf : List ℕ} {carry : ℕ}

/-- The carry stays below `mul`. -/
theorem mulAddRounds_eq (hb : 0 < base) (hlimit : base * mul ≤ limit) (hd : ∀ d ∈ buf, d < base)
    (hc : carry < mul) :
    mulAddRounds limit mul base buf carry = some (buf.foldr (fun d s =>
      ((s.2 + d * mul) % base :: s.1, (s.2 + d * mul) / base)) ([], carry)) ∧
    (buf.foldr (fun d s => ((s.2 + d * mul) % base :: s.1, (s.2 + d * mul) / base))
      (([] : List ℕ), carry)).2 < mul := by
  induction buf with
  | nil => exact ⟨rfl, hc⟩
  | cons d buf ih =>
    obtain ⟨hd, hbuf⟩ := List.forall_mem_cons.1 hd
    obtain ⟨heq, hlt⟩ := ih hbuf
    unfold mulAddRounds at heq ⊢
    rw [List.foldr_cons, List.foldr_cons, heq, Option.bind_some]
    generalize buf.foldr _ (([] : List ℕ), carry) = s at hlt
    have hle : (d + 1) * mul ≤ base * mul := Nat.mul_le_mul_right mul hd
    have hsum : s.2 + d * mul < base * mul := by
      rw [Nat.add_mul, Nat.one_mul] at hle
      omega
    exact ⟨if_pos (Nat.lt_of_lt_of_le hsum hlimit), (Nat.div_lt_iff_lt_mul hb).2
      (by rwa [Nat.mul_comm mul base])⟩

theorem mulAddIn_eq (hb : 0 < base) (hlimit : base * mul ≤ limit) (hd : ∀ d ∈ buf, d < base)
    (hc : carry < mul) (hfit : value base buf * mul + carry < base ^ buf.length) :
    mulAddIn limit mul base buf carry = some (mulAdd mul base buf carry) := by
  rw [mulAddIn, (mulAddRounds_eq hb hlimit hd hc).1, Option.bind_some,
    if_pos (carry_eq_zero hb hfit), mulAdd]

/-- No round overflows if the number of all digits has room. -/
theorem foldlM_mulAddIn (hb : 0 < base) (hlimit : base * mul ≤ limit) {xs : List ℕ}
    (hxs : ∀ x ∈ xs, x < mul) {buf : List ℕ} (hd : ∀ d ∈ buf, d < base)
    (h : value base buf * mul ^ xs.length + value mul xs < base ^ buf.length) :
    xs.foldlM (mulAddIn limit mul base) buf = some (xs.foldl (mulAdd mul base) buf) := by
  induction xs generalizing buf with
  | nil => rfl
  | cons x xs ih =>
    obtain ⟨hx, hxs⟩ := List.forall_mem_cons.1 hxs
    obtain ⟨hfit, hrest⟩ := room_cons (Nat.zero_lt_of_lt hx) h
    rw [List.foldlM_cons, mulAddIn_eq hb hlimit hd hx hfit, List.foldl_cons]
    refine ih hxs (mulAdd_lt buf x hb) ?_
    rwa [value_mulAdd hb hfit, length_mulAdd buf x hb]

end

/-! ## Room for the digits -/

/-- Room for `n` digits of base `a` in base `b`, when `k` of them take at most `j`. -/
theorem pow_le_pow_ratio {a b j k : ℕ} (n : ℕ) (hk : 0 < k) (hb : 0 < b) (h : a ^ k ≤ b ^ j) :
    a ^ n ≤ b ^ (n * j / k + 1) := by
  refine (Nat.pow_le_pow_iff_left (Nat.pos_iff_ne_zero.1 hk)).1 ?_
  have hexp : j * n ≤ (n * j / k + 1) * k := by
    have hlt := Nat.lt_div_mul_add (a := n * j) hk
    rw [Nat.mul_comm j n, Nat.add_mul, Nat.one_mul]
    exact hlt.le
  calc (a ^ n) ^ k = (a ^ k) ^ n := by rw [← Nat.pow_mul, ← Nat.pow_mul, Nat.mul_comm]
    _ ≤ (b ^ j) ^ n := Nat.pow_le_pow_left h n
    _ = b ^ (j * n) := (Nat.pow_mul ..).symm
    _ ≤ b ^ ((n * j / k + 1) * k) := Nat.pow_le_pow_right hb hexp
    _ = (b ^ (n * j / k + 1)) ^ k := Nat.pow_mul ..

end

/-! ## Leading zeros -/

section
variable {α : Type} [DecidableEq α] {z : α} {n : ℕ} {l : List α}

/-- The leading `z`s are so many `z`s. -/
theorem replicate_takeWhile : List.replicate (l.takeWhile fun b => b = z).length z ++
    (l.dropWhile fun b => b = z) = l := by
  have hz : l.takeWhile (fun b => b = z) = List.replicate (l.takeWhile fun b => b = z).length z := by
    refine List.eq_replicate_iff.2 ⟨rfl, fun b hb => ?_⟩
    have hall : (l.takeWhile fun b => b = z).all (fun b => b = z) = true := List.all_takeWhile
    exact of_decide_eq_true (List.all_eq_true.1 hall b hb)
  rw [← hz, List.takeWhile_append_dropWhile]

/-- What follows so many `z`s does not start with one. -/
theorem span_replicate (h : ∀ c, l.head? = some c → c ≠ z) :
    (List.replicate n z ++ l).takeWhile (fun b => b = z) = List.replicate n z ∧
      (List.replicate n z ++ l).dropWhile (fun b => b = z) = l := by
  have hl : l.takeWhile (fun b => b = z) = [] ∧ l.dropWhile (fun b => b = z) = l := by
    rcases l with _ | ⟨c, l⟩
    · exact ⟨rfl, rfl⟩
    · have hc : ¬ c = z := h c rfl
      simp [hc]
  rw [List.takeWhile_append_of_pos (by simp), List.dropWhile_append_of_pos (by simp), hl.1, hl.2,
    List.append_nil]
  exact ⟨rfl, rfl⟩

end

end RavenWallet
