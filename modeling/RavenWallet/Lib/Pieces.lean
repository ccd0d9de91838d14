/-
  Loops that go over a buffer in pieces of one size.

  `xorPieces` changes each piece by an exclusive or.  `storePiece` is the round of a loop
  that fills a buffer, whose last piece may be cut.

  * `xorPieces_eq`: the loop is one exclusive or of the bytes;
  * `storePiece_filled`: a round takes the buffer that is filled with some pieces to the
    one that is filled with one more; `filled_of_le`: in the end the buffer is the start
    of all of them.
-/
import RavenWallet.Lib.Reach
import RavenWallet.Lib.Buffer

namespace RavenWallet

universe u
variable {α : Type u}

/-! ## Exclusive or -/

def xorEach (xs ys : List UInt8) : List UInt8 := List.zipWith (· ^^^ ·) xs ys

@[simp] theorem length_xorEach (xs ys : List UInt8) :
    (xorEach xs ys).length = min xs.length ys.length := List.length_zipWith

theorem xorEach_append {xs ys us vs : List UInt8} (h : xs.length = us.length) :
    xorEach (xs ++ ys) (us ++ vs) = xorEach xs us ++ xorEach ys vs :=
  List.zipWith_append h

theorem xorEach_replicate {xs : List UInt8} {n : ℕ} (h : xs.length = n) (c : UInt8) :
    xorEach xs (List.replicate n c) = xs.map (· ^^^ c) := by
  subst h
  induction xs with
  | nil => rfl
  | cons x xs ih =>
    rw [xorEach] at ih
    simp [xorEach, List.replicate_succ, ih]

/-- `for (i = 0; i < count; i++) buf[i] ^= piece(i)`, for words of `size` bytes. -/
def xorPieces (size : ℕ) (piece : ℕ → Option (List UInt8)) (count : ℕ) (buf : List UInt8) :
    Option (List UInt8) :=
  (List.range count).foldlM (fun buf i => do
    let x ← peek buf (i * size) size
    let y ← piece i
    poke buf (i * size) (xorEach x y)) buf

theorem xorPieces_eq {size count : ℕ} {a mask : List UInt8} (c : List UInt8)
    {f : ℕ → Option (List UInt8)} (ha : a.length = count * size)
    (hmask : mask.length = count * size)
    (hf : ∀ i < count, f i = some ((mask.drop (i * size)).take size)) :
    xorPieces size f count (a ++ c) = some (xorEach a mask ++ c) := by
  induction count generalizing a c mask with
  | zero =>
    rw [Nat.zero_mul] at ha hmask
    rw [List.length_eq_zero_iff.1 ha, List.length_eq_zero_iff.1 hmask]
    rfl
  | succ n ih =>
    rw [Nat.succ_mul] at ha hmask
    -- the last word apart
    obtain ⟨a, b, rfl, hb⟩ : ∃ a' b, a = a' ++ b ∧ b.length = size :=
      ⟨a.take (n * size), a.drop (n * size), (List.take_append_drop ..).symm, by
        rw [List.length_drop]; omega⟩
    obtain ⟨mask, last, rfl, hlast⟩ : ∃ m' l, mask = m' ++ l ∧ l.length = size :=
      ⟨mask.take (n * size), mask.drop (n * size), (List.take_append_drop ..).symm, by
        rw [List.length_drop]; omega⟩
    rw [List.length_append] at ha hmask
    have ha : a.length = n * size := by omega
    have hmask : mask.length = n * size := by omega
    have hinit : xorPieces size f n (a ++ (b ++ c)) = some (xorEach a mask ++ (b ++ c)) := by
      refine ih (b ++ c) ha hmask fun i hi => ?_
      have hle : i * size + size ≤ mask.length := by
        rw [hmask, ← Nat.succ_mul]
        exact Nat.mul_le_mul_right size hi
      rw [hf i (hi.trans n.lt_succ_self), List.drop_append_of_le_length (by omega),
        List.take_append_of_le_length (by rw [List.length_drop]; omega)]
    have hdone : (xorEach a mask).length = n * size := by
      rw [length_xorEach, ha, hmask, Nat.min_self]
    have hpiece := hf n n.lt_succ_self
    rw [← hmask, List.drop_left, List.take_of_length_le hlast.le] at hpiece
    unfold xorPieces at hinit ⊢
    rw [List.range_succ, List.foldlM_append, List.append_assoc, hinit, Option.bind_eq_bind,
      Option.bind_some, List.foldlM_cons, peek_parts rfl hdone hb, Option.bind_eq_bind,
      Option.bind_some, ← hmask, hpiece, Option.bind_some, hmask,
      poke_parts rfl hdone (by rw [length_xorEach, hb, hlast, Nat.min_self]), Option.bind_some,
      xorEach_append (ha.trans hmask.symm), List.append_assoc]
    rfl

/-- The words of another buffer, from an offset on. -/
theorem xorPieces_peek {size count off : ℕ} {a src : List UInt8} (ha : a.length = count * size)
    (hsrc : off + count * size ≤ src.length) :
    xorPieces size (fun i => peek src (off + i * size) size) count a =
      some (xorEach a ((src.drop off).take (count * size))) := by
  have hmask : ((src.drop off).take (count * size)).length = count * size :=
    List.length_take_of_le (by rw [List.length_drop]; omega)
  have h := xorPieces_eq (f := fun i => peek src (off + i * size) size) [] ha hmask
    fun i hi => by
      have hle : i * size + size ≤ count * size := by
        rw [← Nat.succ_mul]
        exact Nat.mul_le_mul_right size hi
      rw [peek, if_pos (by omega), List.drop_take, List.drop_drop, List.take_take,
        Nat.min_eq_left (by omega)]
  rwa [List.append_nil, List.append_nil] at h

/-! ## Filling -/

/-- The pieces that it takes to fill a buffer. -/
theorem mul_lt_iff_lt_pieces {size i len : ℕ} (hsize : 0 < size) :
    i * size < len ↔ i < (len + size - 1) / size := by
  rw [← Nat.succ_le_iff (m := i), Nat.le_div_iff_mul_le hsize, Nat.succ_mul]
  omega

/-- Copies the piece for the place `i`, or as much of it as there is room for. -/
def storePiece (size i : ℕ) (out piece : List α) : Option (List α) := do
  let xs ← peek piece 0 (if i * size + size ≤ out.length then size else out.length % size)
  poke out (i * size) xs

/-- The buffer with the pieces from its start on. -/
def filled (out : List α) (pieces : List (List α)) : List α :=
  (pieces.flatten ++ out.drop pieces.flatten.length).take out.length

@[simp] theorem filled_nil (out : List α) : filled out [] = out := by simp [filled]

@[simp] theorem length_filled (out : List α) (pieces : List (List α)) :
    (filled out pieces).length = out.length := by
  simp only [filled, List.length_take, List.length_append, List.length_drop]
  omega

theorem filled_of_le {out : List α} {pieces : List (List α)}
    (h : out.length ≤ pieces.flatten.length) :
    filled out pieces = pieces.flatten.take out.length := List.take_append_of_le_length h

theorem storePiece_filled {size i : ℕ} {out piece : List α} {pieces : List (List α)}
    (hpieces : pieces.flatten.length = i * size) (hpiece : piece.length = size)
    (hi : i * size < out.length) :
    storePiece size i (filled out pieces) piece = some (filled out (pieces ++ [piece])) := by
  have hflatten : (pieces ++ [piece]).flatten = pieces.flatten ++ piece := by simp
  have hparts : filled out pieces = pieces.flatten ++ out.drop (i * size) := by
    rw [filled, hpieces, List.take_of_length_le]
    rw [List.length_append, List.length_drop]
    omega
  have hpeek {n : ℕ} (hn : n ≤ size) : peek piece 0 n = some (piece.take n) := by
    rw [peek, if_pos (by omega), List.drop_zero]
  have hpoke {n : ℕ} (hn : n ≤ size) (hle : i * size + n ≤ out.length) :
      poke (filled out pieces) (i * size) (piece.take n) =
        some (pieces.flatten ++ (piece.take n ++ out.drop (i * size + n))) := by
    rw [hparts, ← List.take_append_drop n (out.drop (i * size)), List.drop_drop]
    refine poke_parts rfl hpieces ?_
    rw [List.length_take_of_le (by rw [List.length_drop]; omega),
      List.length_take_of_le (by omega)]
  unfold storePiece
  rw [length_filled]
  split_ifs with hroom
  · rw [hpeek le_rfl, Option.bind_eq_bind, Option.bind_some, hpoke le_rfl hroom, filled, hflatten,
      List.length_append, hpieces, hpiece, List.take_of_length_le hpiece.le,
      List.take_of_length_le (l := pieces.flatten ++ piece ++ _), List.append_assoc]
    rw [List.length_append, List.length_append, List.length_drop]
    omega
  · -- the rest of the buffer is shorter than a piece
    have hmod : out.length % size = out.length - i * size := by
      rw [show out.length = out.length - i * size + i * size by omega, Nat.add_mul_mod_self_right,
        Nat.mod_eq_of_lt (by omega)]
      omega
    rw [hmod, hpeek (by omega), Option.bind_eq_bind, Option.bind_some, hpoke (by omega) (by omega),
      filled_of_le (by rw [hflatten, List.length_append]; omega), hflatten, List.take_append,
      List.take_of_length_le (l := pieces.flatten) (by omega), hpieces,
      List.drop_of_length_le (by omega), List.append_nil]

end RavenWallet
