/-
  Buffers of fixed size, and little-endian numbers.

  `poke` overwrites a buffer from an offset on and `peek` reads from it; beyond
  its end they have no result.  `pokeAll` writes pieces one behind the other.
  A buffer given in parts `a ++ (b ++ c)` is written and read part by part:
  `poke_parts`, `pokeAll_parts` and `peek_parts`.  `At` says what a buffer holds
  from an offset on, for readers that move the offset.  A text is split at separators:
  `mem_splitOn` and `splitOn_map`.
-/
import Mathlib.Data.UInt
import Mathlib.Data.List.Basic
import Mathlib.Tactic.SplitIfs

namespace RavenWallet

universe u
variable {α : Type u}

/-- Overwrites `buf` from `off` on with `xs`. -/
def poke (buf : List α) (off : ℕ) (xs : List α) : Option (List α) :=
  if off + xs.length ≤ buf.length then
    some (buf.take off ++ (xs ++ buf.drop (off + xs.length)))
  else none

/-- The `n` elements of `buf` from `off` on. -/
def peek (buf : List α) (off n : ℕ) : Option (List α) :=
  if off + n ≤ buf.length then some ((buf.drop off).take n) else none

/-- Writes the pieces from `off` on; the result also says where they end. -/
def pokeAll (buf : List α) (off : ℕ) : List (List α) → Option (List α × ℕ)
  | [] => some (buf, off)
  | xs :: xss => do
    let buf ← poke buf off xs
    pokeAll buf (off + xs.length) xss

section
variable {buf a b c xs : List α} {off n : ℕ}

theorem poke_parts (hb : buf = a ++ (b ++ c)) (ho : a.length = off) (hx : b.length = xs.length) :
    poke buf off xs = some (a ++ (xs ++ c)) := by
  subst hb ho
  have hdrop : (a ++ (b ++ c)).drop (a.length + xs.length) = c := by
    rw [← hx, ← List.length_append, ← List.append_assoc, List.drop_left]
  unfold poke
  rw [if_pos (by simp only [List.length_append]; omega), List.take_left, hdrop]

theorem poke_of_le (h : off + xs.length ≤ buf.length) :
    ∃ buf', poke buf off xs = some buf' ∧ buf'.length = buf.length := by
  refine ⟨_, if_pos h, ?_⟩
  rw [List.length_append, List.length_append, List.length_take_of_le (by omega), List.length_drop]
  omega

theorem poke_some {buf' : List α} (h : poke buf off xs = some buf') :
    off + xs.length ≤ buf.length ∧ buf'.length = buf.length := by
  by_cases hle : off + xs.length ≤ buf.length
  · obtain ⟨b, hb, hlength⟩ := poke_of_le hle
    obtain rfl := Option.some.inj (hb.symm.trans h)
    exact ⟨hle, hlength⟩
  · rw [poke, if_neg hle] at h
    cases h

/-- What is written follows what was there. -/
theorem poke_take {buf' : List α} (h : poke buf off xs = some buf') :
    buf'.take (off + xs.length) = buf.take off ++ xs := by
  have hle := (poke_some h).1
  rw [poke, if_pos hle] at h
  cases h
  rw [← List.append_assoc, List.take_left']
  rw [List.length_append, List.length_take_of_le (by omega)]

theorem pokeAll_some {xss : List (List α)} {r : List α × ℕ} (h : pokeAll buf off xss = some r) :
    r.1.length = buf.length ∧ r.2 = off + (xss.map List.length).sum := by
  induction xss generalizing buf off with
  | nil =>
    rw [pokeAll] at h
    obtain rfl := Option.some.inj h
    exact ⟨rfl, rfl⟩
  | cons xs xss ih =>
    rw [pokeAll] at h
    obtain ⟨b, hb, h⟩ := Option.bind_eq_some_iff.1 h
    obtain ⟨hlength, hoff⟩ := ih h
    rw [hlength, hoff, (poke_some hb).2, List.map_cons, List.sum_cons, Nat.add_assoc]
    exact ⟨rfl, rfl⟩

theorem peek_parts (hb : buf = a ++ (b ++ c)) (ho : a.length = off) (hn : b.length = n) :
    peek buf off n = some b := by
  subst hb ho hn
  unfold peek
  rw [if_pos (by simp only [List.length_append]; omega), List.drop_left, List.take_left]

theorem getElem?_parts {x : α} (hb : buf = a ++ (x :: c)) (ho : a.length = off) :
    buf[off]? = some x := by
  subst hb ho
  simp

theorem pokeAll_parts {xss : List (List α)} (hb : buf = a ++ (b ++ c)) (ho : a.length = off)
    (hx : b.length = xss.flatten.length) :
    pokeAll buf off xss = some (a ++ (xss.flatten ++ c), off + xss.flatten.length) := by
  induction xss generalizing buf a b off with
  | nil =>
    obtain rfl : b = [] := List.length_eq_zero_iff.1 hx
    subst hb
    rfl
  | cons xs xss ih =>
    rw [List.flatten_cons, List.length_append] at hx
    have hsplit : b = b.take xs.length ++ b.drop xs.length := (List.take_append_drop ..).symm
    have htake : (b.take xs.length).length = xs.length := by rw [List.length_take]; omega
    have hpoke : poke buf off xs = some (a ++ (xs ++ (b.drop xs.length ++ c))) := by
      refine poke_parts (b := b.take xs.length) ?_ ho htake
      rw [hb, ← List.append_assoc (b.take xs.length), ← hsplit]
    have hrest : pokeAll (a ++ (xs ++ (b.drop xs.length ++ c))) (off + xs.length) xss =
        some (a ++ xs ++ (xss.flatten ++ c), off + xs.length + xss.flatten.length) :=
      ih (b := b.drop xs.length) (by simp) (by simp [ho]) (by rw [List.length_drop]; omega)
    rw [pokeAll, hpoke, Option.bind_eq_bind, Option.bind_some, hrest, List.flatten_cons,
      List.length_append]
    simp [Nat.add_assoc]

/-- Writes on from `w`, which is written into `buf` already. -/
theorem pokeAll_written {w : List α} {xss : List (List α)}
    (h : w.length + xss.flatten.length ≤ buf.length) :
    pokeAll (w ++ buf.drop w.length) w.length xss =
      some (w ++ xss.flatten ++ buf.drop (w ++ xss.flatten).length, (w ++ xss.flatten).length) := by
  have hsplit : w ++ buf.drop w.length = w ++ ((buf.drop w.length).take xss.flatten.length ++
      (buf.drop w.length).drop xss.flatten.length) := by
    rw [List.take_append_drop]
  rw [pokeAll_parts hsplit rfl (List.length_take_of_le (by rw [List.length_drop]; omega)),
    List.length_append, List.append_assoc, List.drop_drop]

end

/-! ## Offsets -/

/-- From `off` on the buffer holds `rest`. -/
def At (buf : List α) (off : ℕ) (rest : List α) : Prop := ∃ a, buf = a ++ rest ∧ a.length = off

namespace At

variable {buf a b c rest : List α} {off n : ℕ}

theorem zero (buf : List α) : At buf 0 buf := ⟨[], rfl, rfl⟩

theorem drop_eq (h : At buf off rest) : buf.drop off = rest := by
  obtain ⟨a, rfl, rfl⟩ := h
  exact List.drop_left

theorem length_eq (h : At buf off rest) : off + rest.length = buf.length := by
  obtain ⟨a, rfl, rfl⟩ := h
  rw [List.length_append]

theorem le (h : At buf off rest) : off ≤ buf.length := by
  have := h.length_eq
  omega

theorem next (h : At buf off (b ++ c)) : At buf (off + b.length) c := by
  obtain ⟨a, rfl, rfl⟩ := h
  exact ⟨a ++ b, by rw [List.append_assoc], List.length_append⟩

theorem peek (h : At buf off (b ++ c)) (hn : b.length = n) : peek buf off n = some b := by
  obtain ⟨a, ha, ho⟩ := h
  exact peek_parts ha ho hn

end At

/-! ## Little-endian numbers -/

/-- The `k` low bytes of `n`, lowest first. -/
def toLE : ℕ → ℕ → List UInt8
  | 0, _ => []
  | k + 1, n => UInt8.ofNat n :: toLE k (n / 256)

/-- The number with the bytes `bs`, lowest first. -/
def ofLE : List UInt8 → ℕ
  | [] => 0
  | b :: bs => b.toNat + 256 * ofLE bs

@[simp] theorem length_toLE (k n : ℕ) : (toLE k n).length = k := by
  induction k generalizing n with
  | zero => rfl
  | succ k ih => rw [toLE, List.length_cons, ih]

theorem ofLE_toLE {k n : ℕ} (h : n < 256 ^ k) : ofLE (toLE k n) = n := by
  induction k generalizing n with
  | zero => rw [Nat.pow_zero] at h; rw [toLE, ofLE]; omega
  | succ k ih =>
    have hlt : n / 256 < 256 ^ k := by
      rw [Nat.div_lt_iff_lt_mul (by omega), ← Nat.pow_succ]; exact h
    rw [toLE, ofLE, ih hlt, UInt8.toNat_ofNat']
    omega

theorem toLE_ofLE (bs : List UInt8) : toLE bs.length (ofLE bs) = bs := by
  induction bs with
  | nil => rfl
  | cons b bs ih =>
    have hb : b.toNat < 256 := b.toNat_lt
    have hhead : UInt8.ofNat (b.toNat + 256 * ofLE bs) = b := by
      refine UInt8.toNat_inj.1 ?_
      rw [UInt8.toNat_ofNat']
      omega
    have htail : (b.toNat + 256 * ofLE bs) / 256 = ofLE bs := by omega
    rw [List.length_cons, ofLE, toLE, hhead, htail, ih]

theorem ofLE_lt (bs : List UInt8) : ofLE bs < 256 ^ bs.length := by
  induction bs with
  | nil => simp [ofLE]
  | cons b bs ih =>
    have hb : b.toNat < 256 := b.toNat_lt
    rw [ofLE, List.length_cons, Nat.pow_succ]
    omega

theorem ofLE_zeros (n : ℕ) : ofLE (List.replicate n 0) = 0 := by
  induction n with
  | zero => rfl
  | succ n ih =>
    rw [List.replicate_succ, ofLE, ih]
    rfl

theorem ofLE_append (bs cs : List UInt8) :
    ofLE (bs ++ cs) = ofLE bs + 256 ^ bs.length * ofLE cs := by
  induction bs with
  | nil => simp [ofLE]
  | cons b bs ih =>
    rw [List.cons_append, ofLE, ofLE, ih, List.length_cons, Nat.pow_succ, Nat.mul_add,
      Nat.mul_comm (256 ^ bs.length) 256, Nat.mul_assoc, Nat.add_assoc]

theorem toLE_add (j k n : ℕ) : toLE (j + k) n = toLE j n ++ toLE k (n / 256 ^ j) := by
  induction j generalizing n with
  | zero => rw [Nat.zero_add, Nat.pow_zero, Nat.div_one, toLE, List.nil_append]
  | succ j ih =>
    rw [Nat.succ_add, toLE, ih, toLE, List.cons_append, Nat.div_div_eq_div_mul, Nat.pow_succ,
      Nat.mul_comm 256]

theorem toLE_mod (k n : ℕ) : toLE k (n % 256 ^ k) = toLE k n := by
  induction k generalizing n with
  | zero => rfl
  | succ k ih =>
    have hhead : UInt8.ofNat (n % 256 ^ (k + 1)) = UInt8.ofNat n := by
      refine UInt8.toNat_inj.1 ?_
      rw [UInt8.toNat_ofNat', UInt8.toNat_ofNat', Nat.pow_succ, Nat.mod_mul_left_mod]
    have htail : n % 256 ^ (k + 1) / 256 = n / 256 % 256 ^ k := by
      rw [Nat.pow_succ, Nat.mul_comm, Nat.mod_mul_right_div_self]
    rw [toLE, toLE, hhead, htail, ih]

/-- The `k` bytes of `n`, most significant first. -/
def toBE (k n : ℕ) : List UInt8 := (toLE k n).reverse

/-- The number with these bytes, most significant first. -/
def ofBE (bs : List UInt8) : ℕ := ofLE bs.reverse

@[simp] theorem length_toBE (k n : ℕ) : (toBE k n).length = k := by
  rw [toBE, List.length_reverse, length_toLE]

theorem toBE_add (j k n : ℕ) : toBE (j + k) n = toBE k (n / 256 ^ j) ++ toBE j n := by
  rw [toBE, toLE_add, List.reverse_append, toBE, toBE]

theorem toBE_mod (k n : ℕ) : toBE k (n % 256 ^ k) = toBE k n := by rw [toBE, toLE_mod, toBE]

theorem ofBE_toBE {k n : ℕ} (h : n < 256 ^ k) : ofBE (toBE k n) = n := by
  rw [ofBE, toBE, List.reverse_reverse, ofLE_toLE h]

theorem ofBE_cons (b : UInt8) (bs : List UInt8) :
    ofBE (b :: bs) = b.toNat * 256 ^ bs.length + ofBE bs := by
  rw [ofBE, List.reverse_cons, ofLE_append, List.length_reverse, ofLE, ofLE, Nat.mul_zero,
    Nat.add_zero, Nat.mul_comm, Nat.add_comm, ofBE]

theorem ofBE_concat (bs : List UInt8) (b : UInt8) : ofBE (bs ++ [b]) = ofBE bs * 256 + b.toNat := by
  rw [ofBE, List.reverse_append, List.reverse_singleton, List.singleton_append, ofLE, ofBE,
    Nat.mul_comm, Nat.add_comm]

theorem ofBE_lt (bs : List UInt8) : ofBE bs < 256 ^ bs.length := by
  have hlt := ofLE_lt bs.reverse
  rwa [List.length_reverse] at hlt

/-- The number in the `k` bytes from `off` on. -/
def getLE (buf : List UInt8) (off k : ℕ) : Option ℕ := (peek buf off k).map ofLE

theorem At.getLE {buf rest : List UInt8} {off k n : ℕ} (h : At buf off (toLE k n ++ rest))
    (hn : n < 256 ^ k) : getLE buf off k = some n := by
  rw [RavenWallet.getLE, h.peek (length_toLE k n), Option.map_some, ofLE_toLE hn]

theorem At.toLE {buf rest : List UInt8} {off k n : ℕ} (h : At buf off (toLE k n ++ rest)) :
    At buf (off + k) rest := by
  have hnext := h.next
  rwa [length_toLE] at hnext

theorem getLE_eq_none {buf : List UInt8} {off k : ℕ} :
    getLE buf off k = none ↔ buf.length < off + k := by
  rw [getLE, Option.map_eq_none_iff, peek]
  split_ifs with h
  · simp only [false_iff]
    omega
  · simp only [true_iff]
    omega

theorem getLE_of_le {buf : List UInt8} {off k : ℕ} (h : off + k ≤ buf.length) :
    getLE buf off k = some (ofLE ((buf.drop off).take k)) := by
  rw [getLE, peek, if_pos h]
  rfl

/-- `isspace` -/
def isSpace (c : UInt8) : Bool := c = 32 ∨ (9 ≤ c ∧ c ≤ 13)

/-! ## Pieces between separators -/

theorem mem_splitOn [DecidableEq α] {a : α} {l piece : List α} (h : piece ∈ l.splitOn a) :
    ∀ b ∈ piece, b ∈ l ∧ b ≠ a := by
  induction l generalizing piece with
  | nil =>
    rw [List.splitOn_nil, List.mem_singleton] at h
    rw [h]
    nofun
  | cons x l ih =>
    rw [List.splitOn_cons_eq_if_modifyHead] at h
    split_ifs at h with hx
    · rcases List.mem_cons.1 h with rfl | h
      · nofun
      · exact fun b hb => ⟨List.mem_cons_of_mem _ (ih h b hb).1, (ih h b hb).2⟩
    · obtain ⟨first, rest, hsplit⟩ := List.exists_cons_of_ne_nil (List.splitOn_ne_nil a l)
      rw [hsplit] at h ih
      rcases List.mem_cons.1 h with rfl | h
      · intro b hb
        rcases List.mem_cons.1 hb with rfl | hb
        · exact ⟨List.mem_cons_self, by simpa using hx⟩
        · obtain ⟨hmem, hne⟩ := ih List.mem_cons_self b hb
          exact ⟨List.mem_cons_of_mem _ hmem, hne⟩
      · intro b hb
        obtain ⟨hmem, hne⟩ := ih (List.mem_cons_of_mem _ h) b hb
        exact ⟨List.mem_cons_of_mem _ hmem, hne⟩

theorem mem_intercalate {a b : α} {pieces : List (List α)} (h : b ∈ [a].intercalate pieces) :
    (∃ piece ∈ pieces, b ∈ piece) ∨ b = a := by
  induction pieces with
  | nil => cases h
  | cons piece pieces ih =>
    cases pieces with
    | nil =>
      rw [List.intercalate_singleton] at h
      exact Or.inl ⟨piece, List.mem_cons_self, h⟩
    | cons next pieces =>
      rw [List.intercalate_cons_cons, List.mem_append, List.mem_append, List.mem_singleton] at h
      rcases h with (h | h) | h
      · exact Or.inl ⟨piece, List.mem_cons_self, h⟩
      · exact Or.inr h
      · rcases ih h with ⟨other, hmem, hb⟩ | hb
        · exact Or.inl ⟨other, List.mem_cons_of_mem _ hmem, hb⟩
        · exact Or.inr hb

variable {β : Type*}

theorem splitOn_map [DecidableEq α] [DecidableEq β] {f : α → β}
    (hf : Function.Injective f) (a : α) (l : List α) :
    (l.map f).splitOn (f a) = (l.splitOn a).map (List.map f) := by
  induction l with
  | nil => simp
  | cons x l ih =>
    rw [List.map_cons, List.splitOn_cons_eq_if_modifyHead, List.splitOn_cons_eq_if_modifyHead, ih]
    by_cases hx : x = a
    · simp [hx]
    · have hfx : f x ≠ f a := fun h => hx (hf h)
      obtain ⟨first, rest, hsplit⟩ := List.exists_cons_of_ne_nil (List.splitOn_ne_nil a l)
      simp [hx, hfx, hsplit]

end RavenWallet
