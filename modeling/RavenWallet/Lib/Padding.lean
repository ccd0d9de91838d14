/-
  Messages in blocks, with padding.

  A message is padded with `0x80`, zeros and a field for its length, and a step is folded
  over its blocks.

  * `zeroBytes_add`, `zeroBytes_of_lt`: the zeros depend on what is left after the
    whole blocks;
  * `foldBlocks_padMessage`: what is folded over a padded message, from the whole blocks
    of the message, and the one or two blocks that its rest is padded to.

  `piecesOf` are the blocks of a message that is not padded, the last of which may be
  shorter.
-/
import Mathlib.Data.UInt
import Mathlib.Data.List.Basic
import Mathlib.Tactic.SplitIfs

namespace RavenWallet

universe u
variable {σ : Type u} {step : σ → List UInt8 → σ} {s : σ} {size : ℕ} {a b field msg : List UInt8}

/-- The zeros after a message of `n` bytes and the byte `0x80`, before a field of `field` bytes. -/
def zeroBytes (size field n : ℕ) : ℕ := (size - (n + 1 + field) % size) % size

def padMessage (size : ℕ) (field msg : List UInt8) : List UInt8 :=
  msg ++ 0x80 :: (List.replicate (zeroBytes size field.length msg.length) 0 ++ field)

/-- The whole blocks of `size` bytes. -/
def blocksOf (size : ℕ) (bytes : List UInt8) : List (List UInt8) :=
  (List.range (bytes.length / size)).map fun k => (bytes.drop (size * k)).take size

def foldBlocks (size : ℕ) (step : σ → List UInt8 → σ) (s : σ) (bytes : List UInt8) : σ :=
  (blocksOf size bytes).foldl step s

/-! ## Padding -/

/-- The zeros depend on what is left after the whole blocks. -/
theorem zeroBytes_add {field n k : ℕ} :
    zeroBytes size field (size * k + n) = zeroBytes size field n := by
  rw [zeroBytes, zeroBytes, Nat.add_assoc, Nat.add_assoc, Nat.mul_add_mod, ← Nat.add_assoc]

/-- The rest and the field fit into one block, or need a second one. -/
theorem zeroBytes_of_lt {field n : ℕ} (hfield : field < size) (hn : n < size) :
    zeroBytes size field n =
      if n + 1 + field ≤ size then size - (n + 1 + field) else 2 * size - (n + 1 + field) := by
  rw [zeroBytes]
  split_ifs with hle
  · rcases Nat.lt_or_eq_of_le hle with hlt | heq
    · rw [Nat.mod_eq_of_lt hlt, Nat.mod_eq_of_lt (by omega)]
    · rw [heq, Nat.mod_self, Nat.sub_zero, Nat.mod_self, Nat.sub_self]
  · have hmod : (n + 1 + field) % size = n + 1 + field - size := by
      rw [Nat.mod_eq_sub_mod (by omega), Nat.mod_eq_of_lt (by omega)]
    rw [hmod, Nat.mod_eq_of_lt (by omega)]
    omega

/-! ## Blocks -/

theorem blocksOf_append (ha : a.length = size) (hsize : 0 < size) :
    blocksOf size (a ++ b) = a :: blocksOf size b := by
  have hcount : (a ++ b).length / size = b.length / size + 1 := by
    rw [List.length_append, ha, Nat.add_div_left _ hsize]
  rw [blocksOf, hcount, List.range_succ_eq_map, List.map_cons, Nat.mul_zero, List.drop_zero,
    List.take_left' ha, List.map_map, blocksOf]
  refine congrArg _ (List.map_congr_left fun k _ => ?_)
  rw [Function.comp_apply, Nat.mul_succ, Nat.add_comm, ← List.drop_drop, List.drop_left' ha]

theorem foldBlocks_append (ha : a.length = size) (hsize : 0 < size) :
    foldBlocks size step s (a ++ b) = foldBlocks size step (step s a) b := by
  rw [foldBlocks, blocksOf_append ha hsize, List.foldl_cons, foldBlocks]

theorem foldBlocks_of_lt (ha : a.length < size) : foldBlocks size step s a = s := by
  rw [foldBlocks, blocksOf, Nat.div_eq_of_lt ha]
  rfl

theorem foldBlocks_single (ha : a.length = size) (hsize : 0 < size) :
    foldBlocks size step s a = step s a := by
  rw [← List.append_nil a, foldBlocks_append ha hsize, foldBlocks_of_lt hsize, List.append_nil]

/-- The blocks at the front may be folded first. -/
theorem foldBlocks_prefix (hsize : 0 < size) (n : ℕ) (ha : a.length = size * n) :
    foldBlocks size step s (a ++ b) = foldBlocks size step (foldBlocks size step s a) b := by
  induction n generalizing s a with
  | zero =>
    obtain rfl := List.eq_nil_of_length_eq_zero ha
    rw [List.nil_append, foldBlocks_of_lt (a := []) hsize]
  | succ n ih =>
    rw [Nat.mul_succ] at ha
    have htake : (a.take size).length = size := List.length_take_of_le (by omega)
    have hdrop : (a.drop size).length = size * n := by rw [List.length_drop]; omega
    rw [← List.take_append_drop size a, List.append_assoc, foldBlocks_append htake hsize, ih hdrop,
      foldBlocks_append htake hsize]

/-- What is folded over a padded message, if the field is shorter than a block. -/
theorem foldBlocks_padMessage (hfield : field.length < size) :
    foldBlocks size step s (padMessage size field msg) =
      let rest := msg.drop (size * (msg.length / size))
      let s := foldBlocks size step s msg
      if size - field.length ≤ rest.length then
        step (step s (rest ++ 0x80 :: List.replicate (size - (rest.length + 1)) 0))
          (List.replicate (size - field.length) 0 ++ field)
      else
        step s (rest ++ 0x80 :: (List.replicate (size - field.length - (rest.length + 1)) 0 ++
          field)) := by
  have hsize : 0 < size := by omega
  have hle := Nat.mul_div_le msg.length size
  set whole := msg.take (size * (msg.length / size)) with hwhole
  have hwhole_length : whole.length = size * (msg.length / size) := List.length_take_of_le hle
  dsimp only
  set rest := msg.drop (size * (msg.length / size)) with hrest
  have hmsg : msg = whole ++ rest := (List.take_append_drop ..).symm
  have hrest_length : rest.length < size := by
    rw [hrest, List.length_drop]
    have := Nat.mod_lt msg.length hsize
    have := Nat.div_add_mod msg.length size
    omega
  have hfold : foldBlocks size step s msg = foldBlocks size step s whole := by
    rw [hmsg, foldBlocks_prefix hsize _ hwhole_length, foldBlocks_of_lt hrest_length]
  have hpad : padMessage size field msg = whole ++ (rest ++ 0x80 ::
      (List.replicate (zeroBytes size field.length rest.length) 0 ++ field)) := by
    have hlength : msg.length = size * (msg.length / size) + rest.length := by
      rw [hrest, List.length_drop]
      omega
    rw [padMessage, hlength, zeroBytes_add, ← List.append_assoc, ← hmsg]
  rw [hpad, foldBlocks_prefix hsize _ hwhole_length, hfold, zeroBytes_of_lt hfield hrest_length]
  by_cases hcase : size - field.length ≤ rest.length
  · rw [if_pos hcase, if_neg (by omega)]
    have hsplit : List.replicate (2 * size - (rest.length + 1 + field.length)) (0 : UInt8) =
        List.replicate (size - (rest.length + 1)) 0 ++ List.replicate (size - field.length) 0 := by
      rw [List.replicate_append_replicate]
      congr 1
      omega
    have hassoc : rest ++ 0x80 :: (List.replicate (2 * size - (rest.length + 1 + field.length)) 0 ++
        field) = (rest ++ 0x80 :: List.replicate (size - (rest.length + 1)) 0) ++
          (List.replicate (size - field.length) 0 ++ field) := by
      rw [hsplit, List.append_assoc, List.append_assoc, List.cons_append]
    rw [hassoc, foldBlocks_append _ hsize, foldBlocks_single _ hsize]
    · rw [List.length_append, List.length_replicate]
      omega
    · rw [List.length_append, List.length_cons, List.length_replicate]
      omega
  · rw [if_neg hcase, if_pos (by omega), foldBlocks_single _ hsize, ← Nat.sub_sub,
      Nat.sub_right_comm]
    rw [List.length_append, List.length_cons, List.length_append, List.length_replicate]
    omega

/-! ## Pieces -/

/-- The blocks of `size` bytes, and what is left. -/
def piecesOf (size : ℕ) (bytes : List UInt8) : List (List UInt8) :=
  (List.range ((bytes.length + (size - 1)) / size)).map fun k => (bytes.drop (size * k)).take size

theorem piecesOf_nil (hsize : 0 < size) : piecesOf size [] = [] := by
  rw [piecesOf, List.length_nil, Nat.div_eq_of_lt (by omega)]
  rfl

theorem piecesOf_of_pos (hsize : 0 < size) (ha : 0 < a.length) :
    piecesOf size a = a.take size :: piecesOf size (a.drop size) := by
  have hcount : (a.length + (size - 1)) / size =
      ((a.drop size).length + (size - 1)) / size + 1 := by
    rw [List.length_drop, ← Nat.add_div_right _ hsize]
    rcases Nat.le_total size a.length with hle | hle
    · congr 1
      omega
    · have hleft : a.length + (size - 1) = size + (a.length - 1) := by omega
      have hright : a.length - size + (size - 1) + size = size + (size - 1) := by omega
      rw [hleft, hright, Nat.add_div_left _ hsize, Nat.add_div_left _ hsize,
        Nat.div_eq_of_lt (by omega), Nat.div_eq_of_lt (by omega)]
  rw [piecesOf, hcount, List.range_succ_eq_map, List.map_cons, Nat.mul_zero, List.drop_zero,
    List.map_map, piecesOf]
  refine congrArg _ (List.map_congr_left fun k _ => ?_)
  rw [Function.comp_apply, Nat.mul_succ, Nat.add_comm, ← List.drop_drop]

theorem piecesOf_append (hsize : 0 < size) (ha : size ∣ a.length) :
    piecesOf size (a ++ b) = piecesOf size a ++ piecesOf size b := by
  obtain ⟨n, hn⟩ := ha
  induction n generalizing a with
  | zero =>
    obtain rfl := List.eq_nil_of_length_eq_zero hn
    rw [piecesOf_nil hsize, List.nil_append, List.nil_append]
  | succ n ih =>
    rw [Nat.mul_succ] at hn
    have hdrop : (a.drop size).length = size * n := by rw [List.length_drop]; omega
    rw [piecesOf_of_pos hsize (by rw [List.length_append]; omega),
      piecesOf_of_pos (a := a) hsize (by omega), List.take_append_of_le_length (by omega),
      List.drop_append_of_le_length (by omega), ih hdrop, List.cons_append]

theorem length_of_mem_piecesOf (h : a ∈ piecesOf size b) : a.length ≤ size := by
  obtain ⟨k, -, rfl⟩ := List.mem_map.1 h
  exact List.length_take_le _ _

end RavenWallet
