/-
  Scrypt (BRCrypto.c).

  The code works in place, in two buffers that take turns, and reads words of 64 bits; the
  specification is `scrypt` with `_salsa20_8` as its core.

  * `blockmix_eq`: `_blockmix_salsa8` writes the even blocks before the odd ones;
  * `fill_rounds`, `walk_rounds`: the two loops make `roMix`;
  * `Scrypt_eq`: the derived key is that of the specification.
-/
import Mathlib.Tactic.Ring
import RavenWallet.Crypto.KeyDerivation

namespace RavenWallet

/-! ## The code -/

/-- One of the lines of `_salsa20_8`: four operations on four of the words. -/
def salsaLine (x : ChachaState) (a b c d : ℕ) : ChachaState :=
  let x := x.setIfInBounds b (x.getD b 0 ^^^ rol32 (x.getD a 0 + x.getD d 0) 7)
  let x := x.setIfInBounds c (x.getD c 0 ^^^ rol32 (x.getD b 0 + x.getD a 0) 9)
  let x := x.setIfInBounds d (x.getD d 0 ^^^ rol32 (x.getD c 0 + x.getD b 0) 13)
  x.setIfInBounds a (x.getD a 0 ^^^ rol32 (x.getD d 0 + x.getD c 0) 18)

/-- The operations on columns and on rows. -/
def salsaRound (x : ChachaState) : ChachaState :=
  let x := salsaLine (salsaLine (salsaLine (salsaLine x 0 4 8 12) 5 9 13 1) 10 14 2 6) 15 3 7 11
  salsaLine (salsaLine (salsaLine (salsaLine x 0 1 2 3) 5 6 7 4) 10 11 8 9) 15 12 13 14

/-- `_salsa20_8`, on the bytes of the words. -/
def salsa20_8 (b : Bytes) : Bytes :=
  let w := words32 16 b
  let x := salsaRound^[4] w
  bytes32 (Vector.ofFn fun i : Fin 16 => w.get i + x.get i)

/-- A round of the loop of `_blockmix_salsa8`, with `i = 2*k`: the destination and `b`. -/
def blockmixRound (r : ℕ) (src : Bytes) (s : Bytes × Bytes) (k : ℕ) : Option (Bytes × Bytes) := do
  let b ← xorPieces 8 (fun j => peek src (2 * k * 64 + j * 8) 8) 8 s.2
  let dest ← poke s.1 (k * 64) (salsa20_8 b)
  let b ← xorPieces 8 (fun j => peek src (2 * k * 64 + 64 + j * 8) 8) 8 (salsa20_8 b)
  let dest ← poke dest (k * 64 + r * 64) (salsa20_8 b)
  some (dest, salsa20_8 b)

/-- `_blockmix_salsa8` -/
def blockmixSalsa8 (r : ℕ) (dest src b : Bytes) : Option (Bytes × Bytes) := do
  let last ← peek src ((2 * r - 1) * 64) 64
  let b ← poke b 0 last
  (List.range r).foldlM (blockmixRound r src) (dest, b)

/-- `x`, `y`, `z` and `v` of `Scrypt`. -/
structure ScryptBuffers where
  x : Bytes
  y : Bytes
  z : Bytes
  v : Bytes

section
variable (r n : ℕ)

/-- A round of the first loop, with `j = 2*t`: two entries of the table. -/
def fillRound (s : ScryptBuffers) (t : ℕ) : Option ScryptBuffers := do
  let v ← poke s.v (2 * t * (128 * r)) s.x
  let (y, z) ← blockmixSalsa8 r s.y s.x s.z
  let v ← poke v ((2 * t + 1) * (128 * r)) y
  let (x, z) ← blockmixSalsa8 r s.x y z
  some { x, y, z, v }

/-- Half of a round of the second loop, from `x` to `y`. -/
def walkHalf (v x y z : Bytes) : Option (Bytes × Bytes × Bytes) := do
  let m ← (getLE x ((2 * r - 1) * 64) 8).map (· &&& (n - 1))
  let x ← xorPieces 8 (fun k => peek v (m * (128 * r) + k * 8) 8) (16 * r) x
  let (y, z) ← blockmixSalsa8 r y x z
  some (x, y, z)

def walkRound (s : ScryptBuffers) : Option ScryptBuffers := do
  let (x, y, z) ← walkHalf r n s.v s.x s.y s.z
  let (y, x, z) ← walkHalf r n s.v y x z
  some { s with x, y, z }

/-- The loops for one of the `p` parts of `b`. -/
def scryptPart (s : ScryptBuffers) (b : Bytes) (i : ℕ) : Option (ScryptBuffers × Bytes) := do
  let part ← peek b (i * (128 * r)) (128 * r)
  let x ← poke s.x 0 part
  let s ← (List.range ((n + 1) / 2)).foldlM (fillRound r) { s with x }
  let s ← (List.range ((n + 1) / 2)).foldlM (fun s _ => walkRound r n s) s
  let b ← poke b (i * (128 * r)) s.x
  some (s, b)

/-- `Scrypt`; the products of the parameters have 32 bits. -/
def Scrypt (garbage : ℕ → UInt8) (dk pw salt : Bytes) (p : ℕ) : Option Bytes := do
  let s : ScryptBuffers :=
    { x := blockBuffer garbage (8 * (16 * r % 2 ^ 32))
      y := blockBuffer garbage (8 * (16 * r % 2 ^ 32))
      z := blockBuffer garbage 64
      v := blockBuffer garbage (128 * r * n % 2 ^ 32) }
  let b ← PBKDF2 (SHA256 garbage) 32 garbage (blockBuffer garbage (4 * (32 * r * p % 2 ^ 32))) pw
    salt 1
  let (_, b) ← (List.range p).foldlM (fun s i => scryptPart r n s.1 s.2 i) (s, b)
  PBKDF2 (SHA256 garbage) 32 garbage dk pw b 1

end

/-! ## Mixing blocks -/

theorem length_salsa20_8 (b : Bytes) : (salsa20_8 b).length = 64 := length_bytes32 _

theorem length_pieceAt {size i n : ℕ} {bytes : Bytes} (hbytes : bytes.length = n * size)
    (hi : i < n) : (pieceAt size bytes i).length = size := by
  have hle : i * size + size ≤ n * size := by
    rw [← Nat.succ_mul]
    exact Nat.mul_le_mul_right size hi
  rw [pieceAt, List.length_take_of_le (by rw [List.length_drop]; omega)]

theorem length_chained {r i : ℕ} (hr : 0 < r) {bytes : Bytes} (hbytes : bytes.length = 2 * r * 64)
    (hi : i ≤ 2 * r) : (chained salsa20_8 r bytes i).length = 64 := by
  cases i with
  | zero => exact length_pieceAt hbytes (by omega)
  | succ i => exact length_salsa20_8 _

section
variable {r : ℕ} {src : Bytes}

/-- The blocks that `n` rounds have written to one half of the destination. -/
def written (r : ℕ) (src : Bytes) (odd n : ℕ) : Bytes :=
  (List.range n).flatMap fun k => chained salsa20_8 r src (2 * k + 1 + odd)

theorem length_written (r : ℕ) (src : Bytes) (odd n : ℕ) :
    (written r src odd n).length = n * 64 :=
  length_flatMap_range fun k _ => by
    rw [show 2 * k + 1 + odd = 2 * k + odd + 1 by omega]
    exact length_salsa20_8 _

theorem written_succ (r : ℕ) (src : Bytes) (odd n : ℕ) :
    written r src odd (n + 1) =
      written r src odd n ++ chained salsa20_8 r src (2 * n + 1 + odd) := by
  rw [written, List.range_succ, List.flatMap_append, List.flatMap_singleton, written]

/-- A block is added to the one that is left, and mixed. -/
theorem xor_chained (hr : 0 < r) (hsrc : src.length = 2 * r * 64) {i : ℕ} (hi : i < 2 * r) :
    (xorPieces 8 (fun j => peek src (i * 64 + j * 8) 8) 8 (chained salsa20_8 r src i)).map
      salsa20_8 = some (chained salsa20_8 r src (i + 1)) := by
  have hle : i * 64 + 8 * 8 ≤ src.length := by
    have := Nat.mul_le_mul_right 64 (Nat.succ_le_of_lt hi)
    omega
  rw [xorPieces_peek (length_chained hr hsrc hi.le) hle]
  rfl

/-- The destination after `n` rounds, if it had the halves `d₁` and `d₂`. -/
def mixing (r : ℕ) (src d₁ d₂ : Bytes) (n : ℕ) : Bytes :=
  written r src 0 n ++ d₁.drop (n * 64) ++ (written r src 1 n ++ d₂.drop (n * 64))

theorem drop_block {d : Bytes} {n : ℕ} (hd : d.length = r * 64) (hn : n < r) :
    ∃ b, b.length = 64 ∧ d.drop (n * 64) = b ++ d.drop ((n + 1) * 64) := by
  have hle := Nat.mul_le_mul_right 64 (Nat.succ_le_of_lt hn)
  refine ⟨(d.drop (n * 64)).take 64, List.length_take_of_le (by rw [List.length_drop]; omega), ?_⟩
  rw [Nat.succ_mul, ← List.drop_drop, List.take_append_drop]

theorem blockmix_round (hsrc : src.length = 2 * r * 64) {d₁ d₂ : Bytes}
    (hd₁ : d₁.length = r * 64) (hd₂ : d₂.length = r * 64) {n : ℕ} (hn : n < r) :
    blockmixRound r src (mixing r src d₁ d₂ n, chained salsa20_8 r src (2 * n)) n =
      some (mixing r src d₁ d₂ (n + 1), chained salsa20_8 r src (2 * (n + 1))) := by
  have hr : 0 < r := by omega
  obtain ⟨b, hb, hmix⟩ := Option.map_eq_some_iff.1 (xor_chained hr hsrc (i := 2 * n) (by omega))
  obtain ⟨b', hb', hmix'⟩ :=
    Option.map_eq_some_iff.1 (xor_chained hr hsrc (i := 2 * n + 1) (by omega))
  rw [Nat.succ_mul] at hb'
  obtain ⟨u, hu, hdrop⟩ := drop_block hd₁ hn
  obtain ⟨u', hu', hdrop'⟩ := drop_block hd₂ hn
  have hlen (i : ℕ) : (chained salsa20_8 r src (i + 1)).length = 64 := length_salsa20_8 _
  -- the even block, and then the odd one
  have heven : poke (mixing r src d₁ d₂ n) (n * 64) (chained salsa20_8 r src (2 * n + 1)) =
      some (written r src 0 (n + 1) ++ d₁.drop ((n + 1) * 64) ++
        (written r src 1 n ++ d₂.drop (n * 64))) := by
    rw [mixing, hdrop, List.append_assoc, List.append_assoc,
      poke_parts rfl (length_written ..) (hu.trans (hlen _).symm), written_succ]
    simp only [List.append_assoc, Nat.add_zero]
  have hodd : poke (written r src 0 (n + 1) ++ d₁.drop ((n + 1) * 64) ++
      (written r src 1 n ++ d₂.drop (n * 64))) (n * 64 + r * 64)
      (chained salsa20_8 r src (2 * n + 1 + 1)) = some (mixing r src d₁ d₂ (n + 1)) := by
    have hle := Nat.mul_le_mul_right 64 (Nat.succ_le_of_lt hn)
    have hfront : (written r src 0 (n + 1) ++ d₁.drop ((n + 1) * 64) ++ written r src 1 n).length =
        n * 64 + r * 64 := by
      rw [List.length_append, List.length_append, length_written, length_written, List.length_drop]
      omega
    rw [hdrop', ← List.append_assoc, poke_parts rfl hfront (hu'.trans (hlen _).symm), mixing,
      written_succ r src 1 n]
    simp only [List.append_assoc]
  unfold blockmixRound
  simp only [hb, Option.bind_eq_bind, Option.bind_some, hmix, heven, hb', hmix', hodd]
  rfl

/-- `_blockmix_salsa8` mixes the blocks of the source. -/
theorem blockmix_eq (hr : 0 < r) (hsrc : src.length = 2 * r * 64) {dest b : Bytes}
    (hdest : dest.length = 2 * r * 64) (hb : b.length = 64) :
    blockmixSalsa8 r dest src b =
      some (blockMix salsa20_8 r src, chained salsa20_8 r src (2 * r)) := by
  obtain ⟨d₁, d₂, rfl, hd₁⟩ : ∃ d₁ d₂, dest = d₁ ++ d₂ ∧ d₁.length = r * 64 :=
    ⟨dest.take (r * 64), dest.drop (r * 64), (List.take_append_drop ..).symm,
      List.length_take_of_le (by omega)⟩
  have hd₂ : d₂.length = r * 64 := by
    rw [List.length_append] at hdest
    omega
  have hlast : peek src ((2 * r - 1) * 64) 64 = some (chained salsa20_8 r src 0) :=
    if_pos (by omega)
  have hcopy : poke b 0 (chained salsa20_8 r src 0) = some (chained salsa20_8 r src 0) := by
    have hparts := poke_parts (a := []) (c := []) (b := b) (List.append_nil b).symm rfl
      (hb.trans (length_chained hr hsrc (Nat.zero_le _)).symm)
    rwa [List.nil_append, List.append_nil] at hparts
  have hrounds {n : ℕ} (hn : n ≤ r) :
      (List.range n).foldlM (blockmixRound r src) (d₁ ++ d₂, chained salsa20_8 r src 0) =
        some (mixing r src d₁ d₂ n, chained salsa20_8 r src (2 * n)) := by
    induction n with
    | zero => simp [mixing, written]
    | succ n ih =>
      rw [List.range_succ, List.foldlM_append, ih (by omega), Option.bind_eq_bind,
        Option.bind_some, List.foldlM_cons, blockmix_round hsrc hd₁ hd₂ hn]
      rfl
  rw [blockmixSalsa8, hlast, Option.bind_eq_bind, Option.bind_some, hcopy, Option.bind_some,
    hrounds le_rfl, mixing, List.drop_of_length_le hd₁.le, List.drop_of_length_le hd₂.le,
    List.append_nil, List.append_nil, blockMix]
  rfl

theorem length_blockMix (r : ℕ) (src : Bytes) : (blockMix salsa20_8 r src).length = 2 * r * 64 := by
  have heven := length_written r src 0 r
  have hodd := length_written r src 1 r
  unfold written at heven hodd
  rw [blockMix, List.length_append, heven, hodd]
  omega

end

/-! ## The table -/

/-- A piece of what is put together from pieces of one size. -/
theorem pieceAt_flatMap {f : ℕ → Bytes} {n size i : ℕ} (hf : ∀ j < n, (f j).length = size)
    (hi : i < n) : pieceAt size ((List.range n).flatMap f) i = f i := by
  induction n with
  | zero => omega
  | succ n ih =>
    have hlen : ((List.range n).flatMap f).length = n * size :=
      length_flatMap_range fun j hj => hf j (by omega)
    rw [List.range_succ, List.flatMap_append, List.flatMap_singleton, pieceAt]
    rcases Nat.lt_succ_iff_lt_or_eq.1 hi with hlt | rfl
    · have hle : i * size + size ≤ n * size := by
        rw [← Nat.succ_mul]
        exact Nat.mul_le_mul_right size hlt
      rw [List.drop_append_of_le_length (by omega), List.take_append_of_le_length (by
        rw [List.length_drop]
        omega)]
      exact ih (fun j hj => hf j (by omega)) hlt
    · rw [← hlen, List.drop_left, List.take_of_length_le (hf i hi).le]

/-- The lengths of the buffers, for a table of `n` entries. -/
structure ScryptBuffers.Sized (r n : ℕ) (s : ScryptBuffers) : Prop where
  x : s.x.length = 2 * r * 64
  y : s.y.length = 2 * r * 64
  z : s.z.length = 64
  v : s.v.length = n * (128 * r)

section
variable {r n : ℕ} {s : ScryptBuffers}

/-- The bytes after `i` mixtures. -/
def mixed (r : ℕ) (bytes : Bytes) (i : ℕ) : Bytes := (blockMix salsa20_8 r)^[i] bytes

theorem mixed_succ (r : ℕ) (bytes : Bytes) (i : ℕ) :
    mixed r bytes (i + 1) = blockMix salsa20_8 r (mixed r bytes i) :=
  Function.iterate_succ_apply' ..

theorem length_mixed {bytes : Bytes} (hbytes : bytes.length = 2 * r * 64) (i : ℕ) :
    (mixed r bytes i).length = 2 * r * 64 := by
  cases i with
  | zero => exact hbytes
  | succ i =>
    rw [mixed_succ]
    exact length_blockMix r _

/-- The first `i` entries of the table. -/
def mixedTable (r : ℕ) (bytes : Bytes) (i : ℕ) : Bytes := (List.range i).flatMap (mixed r bytes)

theorem length_mixedTable {bytes : Bytes} (hbytes : bytes.length = 2 * r * 64) (i : ℕ) :
    (mixedTable r bytes i).length = i * (128 * r) :=
  length_flatMap_range fun j _ => by
    rw [length_mixed hbytes]
    omega

/-- The next entry is written. -/
theorem poke_mixedTable {bytes v : Bytes} (hbytes : bytes.length = 2 * r * 64)
    (hv : v.length = n * (128 * r)) {i : ℕ} (hi : i < n) :
    poke (mixedTable r bytes i ++ v.drop (i * (128 * r))) (i * (128 * r)) (mixed r bytes i) =
      some (mixedTable r bytes (i + 1) ++ v.drop ((i + 1) * (128 * r))) := by
  have hle : i * (128 * r) + 128 * r ≤ n * (128 * r) := by
    rw [← Nat.succ_mul]
    exact Nat.mul_le_mul_right _ hi
  have hsplit : v.drop (i * (128 * r)) =
      (v.drop (i * (128 * r))).take (128 * r) ++ v.drop ((i + 1) * (128 * r)) := by
    rw [Nat.succ_mul i, ← List.drop_drop, List.take_append_drop]
  have htake : ((v.drop (i * (128 * r))).take (128 * r)).length = (mixed r bytes i).length := by
    rw [length_mixed hbytes, List.length_take_of_le (by
      rw [List.length_drop, hv]
      omega)]
    omega
  rw [hsplit, poke_parts rfl (length_mixedTable hbytes i) htake, mixedTable, mixedTable,
    List.range_succ, List.flatMap_append, List.flatMap_singleton, List.append_assoc]

/-- The first loop, after `t` of its rounds. -/
theorem fill_rounds (hr : 0 < r) (hs : s.Sized r n) {t : ℕ} (ht : 2 * t ≤ n) : ∃ y z,
    y.length = 2 * r * 64 ∧ z.length = 64 ∧
    (List.range t).foldlM (fillRound r) s = some ⟨mixed r s.x (2 * t), y, z,
      mixedTable r s.x (2 * t) ++ s.v.drop (2 * t * (128 * r))⟩ := by
  induction t with
  | zero => exact ⟨s.y, s.z, hs.y, hs.z, by simp [mixed, mixedTable]⟩
  | succ t ih =>
    obtain ⟨y, z, hy, hz, hrounds⟩ := ih (by omega)
    have hlen := length_mixed hs.x (r := r)
    have hmix := blockmix_eq hr (hlen (2 * t)) hy hz
    rw [← mixed_succ] at hmix
    have hz' := length_chained hr (hlen (2 * t)) le_rfl
    have hmix' := blockmix_eq hr (hlen (2 * t + 1)) (hlen (2 * t)) hz'
    rw [← mixed_succ] at hmix'
    refine ⟨_, _, hlen (2 * t + 1), length_chained hr (hlen (2 * t + 1)) le_rfl, ?_⟩
    rw [List.range_succ, List.foldlM_append, hrounds, Option.bind_eq_bind, Option.bind_some,
      List.foldlM_cons, fillRound]
    simp only [poke_mixedTable hs.x hs.v (show 2 * t < n by omega), hmix,
      poke_mixedTable hs.x hs.v (show 2 * t + 1 < n by omega), hmix', Option.bind_eq_bind,
      Option.bind_some]
    rfl

/-! ## The walk through the table -/

/-- The low bits of eight bytes of a block are those of the block. -/
theorem ofLE_and {k off : ℕ} {x : Bytes} (hk : k ≤ 64) (hx : off + 64 ≤ x.length) :
    (getLE x off 8).map (· &&& (2 ^ k - 1)) = some (ofLE ((x.drop off).take 64) % 2 ^ k) := by
  have hsplit : (x.drop off).take 64 = (x.drop off).take 8 ++ ((x.drop off).drop 8).take 56 := by
    rw [← List.take_add]
  have hlow : ((x.drop off).take 8).length = 8 := List.length_take_of_le (by
    rw [List.length_drop]
    omega)
  rw [getLE_of_le (by omega), Option.map_some, Nat.and_two_pow_sub_one_eq_mod, hsplit, ofLE_append,
    hlow, show 256 ^ 8 = 2 ^ k * 2 ^ (64 - k) by
      rw [← Nat.pow_add, Nat.add_sub_cancel' hk]
      rfl,
    Nat.mul_assoc, Nat.add_mul_mod_self_left]

theorem walkHalf_eq (hr : 0 < r) {k : ℕ} (hn : n = 2 ^ k) (hk : k ≤ 64) {bytes x y z : Bytes}
    (hbytes : bytes.length = 2 * r * 64) (hx : x.length = 2 * r * 64) (hy : y.length = 2 * r * 64)
    (hz : z.length = 64) : ∃ x' z', x'.length = 2 * r * 64 ∧ z'.length = 64 ∧
      walkHalf r n (mixedTable r bytes n) x y z =
        some (x', tableStep salsa20_8 r n bytes x, z') := by
  have hlast : (2 * r - 1) * 64 + 64 ≤ x.length := by omega
  have hindex := ofLE_and hk hlast
  rw [← hn] at hindex
  -- the entry that the index stands for
  have hlt : ofLE ((x.drop ((2 * r - 1) * 64)).take 64) % n < n :=
    Nat.mod_lt _ (hn ▸ Nat.two_pow_pos k)
  generalize hm : ofLE ((x.drop ((2 * r - 1) * 64)).take 64) % n = m at hindex hlt
  have hsize : 16 * r * 8 = 128 * r := by omega
  have hentry : ((mixedTable r bytes n).drop (m * (128 * r))).take (16 * r * 8) =
      mixed r bytes m := by
    rw [hsize]
    refine pieceAt_flatMap (fun j _ => ?_) hlt
    rw [length_mixed hbytes]
    omega
  have hxor := xorPieces_peek (show x.length = 16 * r * 8 by omega)
    (show m * (128 * r) + 16 * r * 8 ≤ (mixedTable r bytes n).length by
      rw [length_mixedTable hbytes, hsize, ← Nat.succ_mul]
      exact Nat.mul_le_mul_right _ hlt)
  rw [hentry] at hxor
  have hx' : (xorEach x (mixed r bytes m)).length = 2 * r * 64 := by
    rw [length_xorEach, length_mixed hbytes, hx, Nat.min_self]
  refine ⟨_, _, hx', length_chained hr hx' le_rfl, ?_⟩
  unfold walkHalf
  simp only [hindex, hxor, blockmix_eq hr hx' hy hz, Option.bind_eq_bind, Option.bind_some]
  rw [tableStep, pieceAt, hm]
  rfl

/-- The second loop, after `t` of its rounds. -/
theorem walk_rounds (hr : 0 < r) {k : ℕ} (hn : n = 2 ^ k) (hk : k ≤ 64) {bytes x y z : Bytes}
    (hbytes : bytes.length = 2 * r * 64) (hx : x.length = 2 * r * 64) (hy : y.length = 2 * r * 64)
    (hz : z.length = 64) (t : ℕ) : ∃ y' z', y'.length = 2 * r * 64 ∧ z'.length = 64 ∧
      (List.range t).foldlM (fun s _ => walkRound r n s) ⟨x, y, z, mixedTable r bytes n⟩ =
        some ⟨(tableStep salsa20_8 r n bytes)^[2 * t] x, y', z', mixedTable r bytes n⟩ := by
  have hstep (x : Bytes) : (tableStep salsa20_8 r n bytes x).length = 2 * r * 64 :=
    length_blockMix r _
  induction t with
  | zero => exact ⟨y, z, hy, hz, rfl⟩
  | succ t ih =>
    obtain ⟨y', z', hy', hz', hrounds⟩ := ih
    have hx' : ((tableStep salsa20_8 r n bytes)^[2 * t] x).length = 2 * r * 64 := by
      cases t with
      | zero => exact hx
      | succ t =>
        rw [show 2 * (t + 1) = 2 * t + 1 + 1 by omega, Function.iterate_succ_apply']
        exact hstep _
    obtain ⟨x₁, z₁, hx₁, hz₁, hfirst⟩ := walkHalf_eq hr hn hk hbytes hx' hy' hz'
    obtain ⟨y₁, z₂, hy₁, hz₂, hsecond⟩ := walkHalf_eq hr hn hk hbytes
      (hstep ((tableStep salsa20_8 r n bytes)^[2 * t] x)) hx₁ hz₁
    refine ⟨y₁, z₂, hy₁, hz₂, ?_⟩
    rw [List.range_succ, List.foldlM_append, hrounds, Option.bind_eq_bind, Option.bind_some,
      List.foldlM_cons, walkRound]
    simp only [hfirst, hsecond, Option.bind_eq_bind, Option.bind_some]
    rw [show 2 * (t + 1) = 2 * t + 1 + 1 by omega, Function.iterate_succ_apply',
      Function.iterate_succ_apply']
    rfl

theorem length_roMix (hn : 0 < n) (bytes : Bytes) :
    (roMix salsa20_8 r n bytes).length = 2 * r * 64 := by
  obtain ⟨m, rfl⟩ := Nat.exists_eq_succ_of_ne_zero hn.ne'
  rw [roMix, Function.iterate_succ_apply']
  exact length_blockMix r _

/-- One part of `b` becomes its `roMix`. -/
theorem scryptPart_eq (hr : 0 < r) {k : ℕ} (hn : n = 2 ^ k) (hpos : 0 < k) (hk : k ≤ 64)
    (hs : s.Sized r n) {front part : Bytes} {i : ℕ} (hfront : front.length = i * (128 * r))
    (hpart : part.length = 128 * r) (rest : Bytes) : ∃ s', s'.Sized r n ∧
      scryptPart r n s (front ++ (part ++ rest)) i =
        some (s', front ++ (roMix salsa20_8 r n part ++ rest)) := by
  have hbytes : part.length = 2 * r * 64 := by omega
  have hhalf : 2 * ((n + 1) / 2) = n := by
    obtain ⟨k, rfl⟩ := Nat.exists_eq_succ_of_ne_zero hpos.ne'
    rw [Nat.pow_succ] at hn
    omega
  have hcopy : poke s.x 0 part = some part := by
    have hparts := poke_parts (a := []) (c := []) (b := s.x) (List.append_nil s.x).symm rfl
      (hs.x.trans hbytes.symm)
    rwa [List.nil_append, List.append_nil] at hparts
  -- the table is filled, and then gone through
  obtain ⟨y, z, hy, hz, hfill⟩ := fill_rounds hr (s := { s with x := part })
    ⟨hbytes, hs.y, hs.z, hs.v⟩ hhalf.le
  rw [hhalf, List.drop_of_length_le hs.v.le, List.append_nil] at hfill
  obtain ⟨y', z', hy', hz', hwalk⟩ := walk_rounds hr hn hk hbytes (length_mixed hbytes n) hy hz
    ((n + 1) / 2)
  rw [hhalf] at hwalk
  have hmix := length_roMix (r := r) (hn ▸ Nat.two_pow_pos k) part
  have hstore : poke (front ++ (part ++ rest)) (i * (128 * r)) (roMix salsa20_8 r n part) =
      some (front ++ (roMix salsa20_8 r n part ++ rest)) :=
    poke_parts rfl hfront (hbytes.trans hmix.symm)
  refine ⟨⟨_, y', z', mixedTable r part n⟩, ⟨hmix, hy', hz', length_mixedTable hbytes n⟩, ?_⟩
  unfold scryptPart
  simp only [peek_parts rfl hfront hpart, hcopy, hfill, hwalk, Option.bind_eq_bind,
    Option.bind_some]
  rw [show (tableStep salsa20_8 r n part)^[n] (mixed r part n) = roMix salsa20_8 r n part from rfl,
    hstore]
  rfl

/-- All parts of `b`, one after the other. -/
theorem scrypt_parts (hr : 0 < r) {k : ℕ} (hn : n = 2 ^ k) (hpos : 0 < k) (hk : k ≤ 64)
    (hs : s.Sized r n) {b : Bytes} {p : ℕ} (hb : b.length = p * (128 * r)) {i : ℕ} (hi : i ≤ p) :
    ∃ s', s'.Sized r n ∧
      (List.range i).foldlM (fun s i => scryptPart r n s.1 s.2 i) (s, b) =
        some (s', ((List.range i).flatMap fun j =>
          roMix salsa20_8 r n (pieceAt (128 * r) b j)) ++ b.drop (i * (128 * r))) := by
  induction i with
  | zero => exact ⟨s, hs, by simp⟩
  | succ i ih =>
    obtain ⟨s', hs', hrounds⟩ := ih (by omega)
    have hle : i * (128 * r) + 128 * r ≤ b.length := by
      rw [hb, ← Nat.succ_mul]
      exact Nat.mul_le_mul_right _ hi
    have hfront : ((List.range i).flatMap fun j =>
        roMix salsa20_8 r n (pieceAt (128 * r) b j)).length = i * (128 * r) :=
      length_flatMap_range fun j _ => by
        rw [length_roMix (hn ▸ Nat.two_pow_pos k)]
        omega
    have hpart : (pieceAt (128 * r) b i).length = 128 * r :=
      List.length_take_of_le (by rw [List.length_drop]; omega)
    have hdrop : b.drop (i * (128 * r)) =
        pieceAt (128 * r) b i ++ b.drop ((i + 1) * (128 * r)) := by
      rw [pieceAt, Nat.succ_mul i, ← List.drop_drop, List.take_append_drop]
    obtain ⟨s'', hs'', hpart'⟩ := scryptPart_eq hr hn hpos hk hs' hfront hpart
      (b.drop ((i + 1) * (128 * r)))
    refine ⟨s'', hs'', ?_⟩
    rw [List.range_succ, List.foldlM_append, hrounds, Option.bind_eq_bind, Option.bind_some,
      List.foldlM_cons, hdrop, hpart', List.flatMap_append, List.flatMap_singleton,
      List.append_assoc]
    rfl

end

/-- The derived key is the one that is specified, for a table whose size is a power of two. -/
theorem Scrypt_eq (garbage : ℕ → UInt8) (dk : Bytes) {pw salt : Bytes} {r n p k : ℕ} (hr : 0 < r)
    (hn : n = 2 ^ k) (hk : 0 < k) (htable : 128 * r * n < 2 ^ 32) (hparts : 32 * r * p < 2 ^ 32)
    (hpw : pw.length < 2 ^ 61) (hsalt : salt.length < 2 ^ 59)
    (hdk : (dk.length + 32 - 1) / 32 < 2 ^ 32) :
    Scrypt r n garbage dk pw salt p =
      some (scrypt salsa20_8 r n (macOf sha256 32 pw) 32 p salt dk.length) := by
  have hnpos : 0 < n := hn ▸ Nat.two_pow_pos k
  have hrle : 128 * r ≤ 128 * r * n := Nat.le_mul_of_pos_right _ hnpos
  have hk64 : k ≤ 64 := by
    refine Nat.le_of_lt_succ ((Nat.pow_lt_pow_iff_right (a := 2) (by decide)).1 ?_)
    rw [← hn]
    have hnle : n ≤ 128 * r * n := Nat.le_mul_of_pos_left _ (by omega)
    omega
  have hsized : ScryptBuffers.Sized r n
      { x := blockBuffer garbage (8 * (16 * r % 2 ^ 32))
        y := blockBuffer garbage (8 * (16 * r % 2 ^ 32))
        z := blockBuffer garbage 64
        v := blockBuffer garbage (128 * r * n % 2 ^ 32) } := by
    have hx : 8 * (16 * r % 2 ^ 32) = 2 * r * 64 := by omega
    refine ⟨?_, ?_, ?_, ?_⟩
    · rw [length_blockBuffer, hx]
    · rw [length_blockBuffer, hx]
    · rw [length_blockBuffer]
    · rw [length_blockBuffer, Nat.mod_eq_of_lt htable, Nat.mul_comm]
  have hsize : 4 * (32 * r * p % 2 ^ 32) = 128 * r * p := by
    rw [Nat.mod_eq_of_lt hparts, ← Nat.mul_assoc, ← Nat.mul_assoc]
  have hfirst := PBKDF2_eq garbage (digest_sha256 garbage)
    (blockBuffer garbage (4 * (32 * r * p % 2 ^ 32))) hpw hsalt 1 (by
      rw [length_blockBuffer]
      omega)
  rw [length_blockBuffer, hsize] at hfirst
  generalize hb : pbkdf2 (macOf sha256 32 pw) 32 salt 1 (128 * r * p) = b at hfirst
  have hblen : b.length = p * (128 * r) := by
    rw [← hb, length_pbkdf2 (by decide) fun _ => (digest_sha256 garbage).length_macOf pw _]
    exact Nat.mul_comm _ _
  obtain ⟨s', -, hmixed⟩ := scrypt_parts hr hn hk hk64 hsized hblen le_rfl
  rw [List.drop_of_length_le hblen.le, List.append_nil] at hmixed
  have hmixlen : ((List.range p).flatMap fun j =>
      roMix salsa20_8 r n (pieceAt (128 * r) b j)).length = 4 * (32 * r * p) := by
    rw [length_flatMap_range fun j _ => length_roMix hnpos _]
    ring
  have hlast := PBKDF2_eq garbage (digest_sha256 garbage) dk hpw
    (hmixlen.trans_lt (by omega)) 1 hdk
  unfold Scrypt
  simp only [hsize, hfirst, hmixed, hlast, Option.bind_eq_bind, Option.bind_some]
  rw [scrypt, hb]

/-- With the parameters of keys that are not EC multiplied. -/
theorem Scrypt_eq_noec :
    Scrypt 8 16384 (fun _ => 0xff) (List.replicate 64 0) [0x70] [1, 2, 3, 4] 8 =
      some (scrypt salsa20_8 8 16384 (macOf sha256 32 [0x70]) 32 8 [1, 2, 3, 4] 64) :=
  Scrypt_eq _ (List.replicate 64 0) (by decide) (show 16384 = 2 ^ 14 by decide) (by decide)
    (by decide) (by decide) (by decide) (by decide) (by decide)

end RavenWallet
