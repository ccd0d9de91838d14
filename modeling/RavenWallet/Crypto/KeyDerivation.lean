/-
  HMAC, the generator of random bytes and the derivation of keys (BRCrypto.c).

  `hash` is the function that is passed by pointer, and `garbage` what the buffers on the
  stack hold before they are written to.  Beyond a buffer nothing is read or written: such
  a call has no result.

  * `HMAC_eq`, `PBKDF2_eq`: what is computed is `hmac` and `pbkdf2`;
  * `HMACDRBG_session`: a first call with a seed and any further calls give the bytes that
    the generator `Drbg` gives for these requests, though each call makes the update that
    the request before it ends with.
-/
import RavenWallet.Crypto.Hashes
import RavenWallet.Lib.Derivation

namespace RavenWallet

/-! ## The code -/

section
variable (hash : Bytes → Option Bytes) (hashLen : ℕ) (garbage : ℕ → UInt8)

/-- The length of a block of a hash function. -/
def macBlock : ℕ := if hashLen > 32 then 128 else 64

/-- A key that is longer than a block is hashed. -/
def shortKey (key : Bytes) : Option Bytes :=
  if key.length > macBlock hashLen then hash key else some key

/-- The first block of `kipad` and of `kopad`: the key and zeros, and each word changed. -/
def keyPad (blockLen : ℕ) (word key buf : Bytes) : Option Bytes := do
  let buf ← poke buf 0 (List.replicate blockLen 0)
  let buf ← poke buf 0 key
  xorPieces 8 (fun _ => some word) (blockLen / 8) buf

def HMAC (key data : Bytes) : Option Bytes := do
  let blockLen := macBlock hashLen
  let key ← shortKey hash hashLen key
  let kipad ← keyPad blockLen (List.replicate 8 0x36) key
    (blockBuffer garbage (8 * ((blockLen + data.length) / 8 + 1)))
  let kopad ← keyPad blockLen (List.replicate 8 0x5c) key
    (blockBuffer garbage (8 * ((blockLen + hashLen) / 8 + 1)))
  let kipad ← poke kipad blockLen data
  let digest ← (peek kipad 0 (blockLen + data.length)).bind hash
  let kopad ← poke kopad blockLen digest
  (peek kopad 0 (blockLen + hashLen)).bind hash

/-- `for (i = 0; i*hashLen < outLen; i++)` of `HMACDRBG`, with `V` and the output.  The first
    argument is the number of rounds that are left. -/
def drbgLoop (K : Bytes) : ℕ → ℕ → Bytes → Bytes → Option (Bytes × Bytes)
  | 0, _, _, _ => none
  | rounds + 1, i, V, out =>
    if i * hashLen < out.length then do
      let V ← HMAC hash hashLen garbage K V
      let out ← storePiece hashLen i out V
      drbgLoop K rounds (i + 1) V out
    else some (V, out)

/-- `buf` of `HMACDRBG`, up to `V` and the byte behind it. -/
def drbgBuffer (seed nonce ps : Bytes) : Option Bytes := do
  let buf := blockBuffer garbage (hashLen + 1 + seed.length + nonce.length + ps.length)
  let buf ← poke buf (hashLen + 1) seed
  let buf ← poke buf (hashLen + 1 + seed.length) nonce
  poke buf (hashLen + 1 + seed.length + nonce.length) ps

/-- The two macs that `HMACDRBG` makes with `buf`, which gets `V` and the byte `c`. -/
def drbgRound (c : UInt8) (K V buf : Bytes) : Option (Bytes × Bytes × Bytes) := do
  let buf ← poke buf 0 V
  let buf ← poke buf hashLen [c]
  let K ← HMAC hash hashLen garbage K buf
  let V ← HMAC hash hashLen garbage K V
  some (K, V, buf)

/-- `HMACDRBG` up to its loop. -/
def drbgUpdate (first : Bool) (K V seed nonce ps : Bytes) : Option (Bytes × Bytes × Bytes) := do
  let buf ← drbgBuffer hashLen garbage seed nonce ps
  let (K, V, buf) ← drbgRound hash hashLen garbage 0x00 K V buf
  if first then drbgRound hash hashLen garbage 0x01 K V buf else some (K, V, buf)

/-- `HMACDRBG`, with the output of the length of `out`, and with what is left in `K` and `V`. -/
def HMACDRBG (out K V : Bytes) (seed nonce ps : Option Bytes) :
    Option (Bytes × Bytes × Bytes) := do
  let first := seed.isSome || nonce.isSome || ps.isSome
  let (K, V, _) ← drbgUpdate hash hashLen garbage first
    (if first then List.replicate hashLen 0x00 else K)
    (if first then List.replicate hashLen 0x01 else V)
    (seed.getD []) (nonce.getD []) (ps.getD [])
  let (V, out) ← drbgLoop hash hashLen garbage K (out.length + 1) 0 V out
  some (out, K, V)

/-- Calls for more bytes, with the `K` and `V` of the call before. -/
def drbgCalls (K V : Bytes) : List Bytes → Option (List Bytes)
  | [] => some []
  | out :: outs => do
    let (out, K, V) ← HMACDRBG hash hashLen garbage out K V none none none
    let outs ← drbgCalls K V outs
    some (out :: outs)

/-- A first call with a seed, and calls for more bytes. -/
def drbgSession (K V : Bytes) (seed nonce ps : Option Bytes) : List Bytes → Option (List Bytes)
  | [] => some []
  | out :: outs => do
    let (out, K, V) ← HMACDRBG hash hashLen garbage out K V seed nonce ps
    let outs ← drbgCalls hash hashLen garbage K V outs
    some (out :: outs)

/-- The rounds of `PBKDF2` for one block, with `U` and `T`. -/
def pbkdf2Rounds (pw : Bytes) (count : ℕ) (U T : Bytes) : Option (Bytes × Bytes) :=
  (List.range count).foldlM (fun s _ => do
    let U ← HMAC hash hashLen garbage pw s.1
    let T ← xorPieces 4 (fun j => peek U (j * 4) 4) (hashLen / 4) s.2
    some (U, T)) (U, T)

/-- `for (i = 0; i < (dkLen + hashLen - 1)/hashLen; i++)` of `PBKDF2`, where `i` has 32 bits. -/
def pbkdf2Loop (pw : Bytes) (saltLen rounds : ℕ) : ℕ → UInt32 → Bytes → Bytes → Option Bytes
  | 0, _, _, _ => none
  | fuel + 1, i, s, dk =>
    if i.toNat < (dk.length + hashLen - 1) / hashLen then do
      let s ← poke s saltLen (toLE 4 (be32 (i + 1)).toNat)
      let U ← HMAC hash hashLen garbage pw s
      let (_, T) ← pbkdf2Rounds hash hashLen garbage pw (rounds - 1) U U
      let dk ← storePiece hashLen i.toNat dk T
      pbkdf2Loop pw saltLen rounds fuel (i + 1) s dk
    else some dk

/-- `PBKDF2`, for a key of the length of `dk`. -/
def PBKDF2 (dk pw salt : Bytes) (rounds : ℕ) : Option Bytes := do
  let s ← poke (blockBuffer garbage (salt.length + 4)) 0 salt
  pbkdf2Loop hash hashLen garbage pw salt.length rounds
    ((dk.length + hashLen - 1) / hashLen + 1) 0 s dk

end

/-! ## HMAC -/

/-- `hash` computes the digests of `H`, for data of any length that there can be. -/
structure HashesTo (hash : Bytes → Option Bytes) (H : Bytes → Bytes) (hashLen : ℕ) : Prop where
  pos : 0 < hashLen
  words : hashLen % 4 = 0
  le : hashLen ≤ 64
  eq : ∀ data : Bytes, data.length < 2 ^ 61 → hash data = some (H data)
  length : ∀ data, (H data).length = hashLen

section
variable {hash : Bytes → Option Bytes} {H : Bytes → Bytes} {hashLen : ℕ} (garbage : ℕ → UInt8)
  {key data : Bytes}

theorem macBlock_cases (hashLen : ℕ) : macBlock hashLen = 64 ∧ hashLen ≤ 32 ∨
    macBlock hashLen = 128 ∧ 32 < hashLen := by
  unfold macBlock
  split_ifs with h
  · exact Or.inr ⟨rfl, h⟩
  · exact Or.inl ⟨rfl, Nat.not_lt.1 h⟩

/-- The mac of a hash function. -/
def macOf (H : Bytes → Bytes) (hashLen : ℕ) : Bytes → Bytes → Bytes := hmac H (macBlock hashLen)

theorem HashesTo.length_macOf (h : HashesTo hash H hashLen) (key data : Bytes) :
    (macOf H hashLen key data).length = hashLen := length_hmac h.length key data

theorem HashesTo.le_macBlock (h : HashesTo hash H hashLen) : hashLen ≤ macBlock hashLen := by
  have := h.le
  rcases macBlock_cases hashLen with ⟨hblock, hle⟩ | ⟨hblock, -⟩ <;> omega

theorem keyPad_eq {blockLen n : ℕ} (c : UInt8) (hkey : key.length ≤ blockLen)
    (hwords : blockLen % 8 = 0) {buf : Bytes} (hbuf : buf.length = blockLen + n) :
    ∃ rest, rest.length = n ∧ keyPad blockLen (List.replicate 8 c) key buf =
      some ((key ++ List.replicate (blockLen - key.length) 0).map (· ^^^ c) ++ rest) := by
  obtain ⟨a, rest, rfl, ha⟩ : ∃ a rest, buf = a ++ rest ∧ a.length = blockLen :=
    ⟨buf.take blockLen, buf.drop blockLen, (List.take_append_drop ..).symm,
      List.length_take_of_le (by omega)⟩
  rw [List.length_append, ha] at hbuf
  have hzeros : poke (a ++ rest) 0 (List.replicate blockLen 0) =
      some (List.replicate blockLen 0 ++ rest) :=
    poke_parts (a := []) rfl rfl (by rw [List.length_replicate, ha])
  have hcopy : poke (List.replicate blockLen 0 ++ rest) 0 key =
      some (key ++ List.replicate (blockLen - key.length) 0 ++ rest) := by
    have hsplit : List.replicate blockLen (0 : UInt8) ++ rest = [] ++
        (List.replicate key.length 0 ++ (List.replicate (blockLen - key.length) 0 ++ rest)) := by
      rw [List.nil_append, ← List.append_assoc, ← List.replicate_add, Nat.add_sub_cancel' hkey]
    rw [poke_parts hsplit List.length_nil List.length_replicate, List.nil_append, List.append_assoc]
  have hblock : (key ++ List.replicate (blockLen - key.length) 0).length = blockLen := by
    rw [List.length_append, List.length_replicate]
    omega
  have hcount : blockLen / 8 * 8 = blockLen := by omega
  have hxor := xorPieces_eq rest (hblock.trans hcount.symm)
    ((List.length_replicate (a := c)).trans hcount.symm) fun i hi => by
      rw [List.drop_replicate, List.take_replicate, Nat.min_eq_left (by omega)]
  refine ⟨rest, by omega, ?_⟩
  rw [keyPad, hzeros, Option.bind_eq_bind, Option.bind_some, hcopy, Option.bind_some, hxor,
    xorEach_replicate hblock]

/-- The pad, and what is copied behind it. -/
theorem poke_pad {pad rest : Bytes} (xs : Bytes) {blockLen extra : ℕ} (hpad : pad.length = blockLen)
    (hrest : rest.length = xs.length + extra) : ∃ buf, poke (pad ++ rest) blockLen xs = some buf ∧
      peek buf 0 (blockLen + xs.length) = some (pad ++ xs) := by
  have hsplit : pad ++ rest = pad ++ (rest.take xs.length ++ rest.drop xs.length) := by
    rw [List.take_append_drop]
  refine ⟨_, poke_parts hsplit hpad (List.length_take_of_le (by omega)), ?_⟩
  exact peek_parts (a := []) (b := pad ++ xs) (by rw [List.nil_append, List.append_assoc]) rfl
    (by rw [List.length_append, hpad])

theorem HMAC_eq (h : HashesTo hash H hashLen) (hkey : key.length < 2 ^ 61)
    (hdata : data.length < 2 ^ 60) :
    HMAC hash hashLen garbage key data = some (macOf H hashLen key data) := by
  have hle := h.le_macBlock
  have hwords : macBlock hashLen % 8 = 0 := by
    rcases macBlock_cases hashLen with ⟨hblock, -⟩ | ⟨hblock, -⟩ <;> rw [hblock]
  have hsmall : macBlock hashLen ≤ 128 := by
    rcases macBlock_cases hashLen with ⟨hblock, -⟩ | ⟨hblock, -⟩ <;> omega
  -- a long key is hashed
  obtain ⟨k, hk, hklen, hpad⟩ : ∃ k, shortKey hash hashLen key = some k ∧
      k.length ≤ macBlock hashLen ∧
      hmacKey H (macBlock hashLen) key = k ++ List.replicate (macBlock hashLen - k.length) 0 := by
    unfold hmacKey shortKey
    split_ifs with hlong
    · exact ⟨H key, h.eq key hkey, by rw [h.length]; exact hle, rfl⟩
    · exact ⟨key, rfl, Nat.not_lt.1 hlong, rfl⟩
  have hblock := length_hmacKey h.length hle key
  have hroom (n : ℕ) : ∃ extra, 8 * ((macBlock hashLen + n) / 8 + 1) =
      macBlock hashLen + (n + extra) :=
    ⟨8 * ((macBlock hashLen + n) / 8 + 1) - (macBlock hashLen + n), by omega⟩
  obtain ⟨ei, hei⟩ := hroom data.length
  obtain ⟨eo, heo⟩ := hroom hashLen
  obtain ⟨ri, hri, hkipad⟩ := keyPad_eq 0x36 hklen hwords ((length_blockBuffer garbage).trans hei)
  obtain ⟨ro, hro, hkopad⟩ := keyPad_eq 0x5c hklen hwords ((length_blockBuffer garbage).trans heo)
  rw [← hpad] at hkipad hkopad
  -- the inner digest, and the outer one
  obtain ⟨kipad, hdatapoke, hinput⟩ := poke_pad data
    ((List.length_map (· ^^^ (0x36 : UInt8))).trans hblock) hri
  have hinner := h.eq ((hmacKey H (macBlock hashLen) key).map (· ^^^ 0x36) ++ data) (by
    rw [List.length_append, List.length_map, hblock]
    omega)
  obtain ⟨kopad, hdigestpoke, houtput⟩ := poke_pad
    (H ((hmacKey H (macBlock hashLen) key).map (· ^^^ 0x36) ++ data))
    ((List.length_map (· ^^^ (0x5c : UInt8))).trans hblock) (hro.trans (by rw [h.length]))
  rw [h.length] at houtput
  have houter := h.eq ((hmacKey H (macBlock hashLen) key).map (· ^^^ 0x5c) ++
      H ((hmacKey H (macBlock hashLen) key).map (· ^^^ 0x36) ++ data)) (by
    rw [List.length_append, List.length_map, hblock, h.length]
    omega)
  unfold HMAC
  dsimp only
  rw [hk, Option.bind_eq_bind, Option.bind_some, hkipad, Option.bind_some, hkopad,
    Option.bind_some, hdatapoke, Option.bind_some, hinput, Option.bind_some, hinner,
    Option.bind_some, hdigestpoke, Option.bind_some, houtput, Option.bind_some, houter, macOf, hmac]

/-! ## The generator -/

theorem length_iterate_macOf (h : HashesTo hash H hashLen) (K : Bytes) {V : Bytes}
    (hV : V.length = hashLen) (j : ℕ) : ((macOf H hashLen K)^[j] V).length = hashLen := by
  cases j with
  | zero => exact hV
  | succ j =>
    rw [Function.iterate_succ_apply']
    exact h.length_macOf _ _

/-- The loop writes the next blocks, which `V` runs through. -/
theorem drbgLoop_eq (h : HashesTo hash H hashLen) {K V : Bytes} (hK : K.length = hashLen)
    (hV : V.length = hashLen) (out : Bytes) {rounds i : ℕ}
    (hi : i ≤ (out.length + hashLen - 1) / hashLen)
    (hrounds : (out.length + hashLen - 1) / hashLen < rounds + i) :
    drbgLoop hash hashLen garbage K rounds i ((macOf H hashLen K)^[i] V)
        (filled out ((List.range i).map fun j => (macOf H hashLen K)^[j + 1] V)) =
      some ((macOf H hashLen K)^[(out.length + hashLen - 1) / hashLen] V,
        filled out ((List.range ((out.length + hashLen - 1) / hashLen)).map fun j =>
          (macOf H hashLen K)^[j + 1] V)) := by
  have hlen := length_iterate_macOf h K hV
  have hsize := h.le
  induction rounds generalizing i with
  | zero => omega
  | succ rounds ih =>
    unfold drbgLoop
    rw [length_filled]
    split_ifs with hmore
    · have hlt := (mul_lt_iff_lt_pieces h.pos).1 hmore
      have hmac : HMAC hash hashLen garbage K ((macOf H hashLen K)^[i] V) =
          some ((macOf H hashLen K)^[i + 1] V) := by
        rw [HMAC_eq garbage h (by omega) (by rw [hlen]; omega), Function.iterate_succ_apply']
      have hflatten : ((List.range i).map fun j => (macOf H hashLen K)^[j + 1] V).flatten.length =
          i * hashLen := by
        rw [← List.flatMap_def]
        exact length_flatMap_range fun j _ => hlen (j + 1)
      have hnext : ((List.range (i + 1)).map fun j => (macOf H hashLen K)^[j + 1] V) =
          ((List.range i).map fun j => (macOf H hashLen K)^[j + 1] V) ++
            [(macOf H hashLen K)^[i + 1] V] := by
        rw [List.range_succ, List.map_append, List.map_singleton]
      rw [hmac, Option.bind_eq_bind, Option.bind_some,
        storePiece_filled hflatten (hlen (i + 1)) hmore, Option.bind_some, ← hnext]
      exact ih hlt (by omega)
    · have hdone : (out.length + hashLen - 1) / hashLen ≤ i :=
        Nat.not_lt.1 fun hlt => hmore ((mul_lt_iff_lt_pieces h.pos).2 hlt)
      obtain rfl : i = (out.length + hashLen - 1) / hashLen := by omega
      rfl

theorem drbgRound_eq (h : HashesTo hash H hashLen) {K V front tail : Bytes}
    (hK : K.length = hashLen) (hV : V.length = hashLen) (hfront : front.length = hashLen)
    (htail : tail.length < 2 ^ 59) (b c : UInt8) :
    drbgRound hash hashLen garbage c K V (front ++ b :: tail) =
      some (macOf H hashLen K (V ++ c :: tail),
        macOf H hashLen (macOf H hashLen K (V ++ c :: tail)) V, V ++ c :: tail) := by
  have hsize := h.le
  have hcopy : poke (front ++ b :: tail) 0 V = some (V ++ b :: tail) :=
    poke_parts (a := []) rfl rfl (hfront.trans hV.symm)
  have hbyte : poke (V ++ b :: tail) hashLen [c] = some (V ++ c :: tail) :=
    poke_parts (b := [b]) rfl hV rfl
  have hK' : (macOf H hashLen K (V ++ c :: tail)).length = hashLen := h.length_macOf _ _
  rw [drbgRound, hcopy, Option.bind_eq_bind, Option.bind_some, hbyte, Option.bind_some,
    HMAC_eq garbage h (by omega) (by rw [List.length_append, List.length_cons]; omega),
    Option.bind_some, HMAC_eq garbage h (by omega) (by omega), Option.bind_some]

/-- The bytes of a request, and the state before its update. -/
theorem drbgLoop_generate (h : HashesTo hash H hashLen) {s : Drbg} (hK : s.K.length = hashLen)
    (hV : s.V.length = hashLen) (out : Bytes) :
    drbgLoop hash hashLen garbage s.K (out.length + 1) 0 s.V out =
      some ((s.block (macOf H hashLen) ((out.length + hashLen - 1) / hashLen)).V,
        (s.generate (macOf H hashLen) hashLen out.length).1) := by
  have hpieces : (out.length + hashLen - 1) / hashLen ≤ out.length := by
    refine Nat.not_lt.1 fun hlt => ?_
    have hmul := (mul_lt_iff_lt_pieces h.pos).2 hlt
    exact absurd hmul (Nat.not_lt.2 (Nat.le_mul_of_pos_right _ h.pos))
  have hloop := drbgLoop_eq garbage h hK hV out (Nat.zero_le _)
    (show _ < out.length + 1 + 0 by omega)
  have hlength : out.length ≤ ((List.range ((out.length + hashLen - 1) / hashLen)).map fun j =>
      (macOf H hashLen s.K)^[j + 1] s.V).flatten.length := by
    rw [← List.flatMap_def,
      length_flatMap_range fun j _ => length_iterate_macOf h s.K hV (j + 1)]
    exact Nat.not_lt.1 fun hlt => Nat.lt_irrefl _ ((mul_lt_iff_lt_pieces h.pos).1 hlt)
  rw [List.range_zero, List.map_nil, filled_nil, filled_of_le hlength, ← List.flatMap_def] at hloop
  exact hloop

theorem drbgBuffer_eq (hashLen : ℕ) (garbage : ℕ → UInt8) (seed nonce ps : Bytes) :
    ∃ front b, front.length = hashLen ∧
      drbgBuffer hashLen garbage seed nonce ps = some (front ++ b :: (seed ++ nonce ++ ps)) := by
  obtain ⟨front, b, x, y, z, hbuf, hfront, hx, hy, hz⟩ : ∃ front b x y z,
      blockBuffer garbage (hashLen + 1 + seed.length + nonce.length + ps.length) =
        front ++ b :: (x ++ (y ++ z)) ∧
      front.length = hashLen ∧ x.length = seed.length ∧ y.length = nonce.length ∧
      z.length = ps.length := by
    generalize hbuffer : blockBuffer garbage _ = buffer
    have hlen : buffer.length = hashLen + 1 + seed.length + nonce.length + ps.length := by
      rw [← hbuffer, length_blockBuffer]
    obtain ⟨b, rest, hrest⟩ := List.exists_cons_of_length_pos (l := buffer.drop hashLen)
      (by rw [List.length_drop]; omega)
    have hrestlen := congrArg List.length hrest
    rw [List.length_drop, List.length_cons] at hrestlen
    refine ⟨buffer.take hashLen, b, rest.take seed.length,
      (rest.drop seed.length).take nonce.length, (rest.drop seed.length).drop nonce.length, ?_,
      List.length_take_of_le (by omega), List.length_take_of_le (by omega),
      List.length_take_of_le (by rw [List.length_drop]; omega), ?_⟩
    · rw [List.take_append_drop, List.take_append_drop, ← hrest, List.take_append_drop]
    · rw [List.length_drop, List.length_drop]
      omega
  have hseed : poke (front ++ b :: (x ++ (y ++ z))) (hashLen + 1) seed =
      some (front ++ [b] ++ (seed ++ (y ++ z))) :=
    poke_parts (b := x) (by simp) (by simp [hfront]) hx
  have hnonce : poke (front ++ [b] ++ (seed ++ (y ++ z))) (hashLen + 1 + seed.length) nonce =
      some (front ++ [b] ++ seed ++ (nonce ++ z)) :=
    poke_parts (b := y) (by simp) (by simp [hfront]; omega) hy
  have hps : poke (front ++ [b] ++ seed ++ (nonce ++ z)) (hashLen + 1 + seed.length + nonce.length)
      ps = some (front ++ [b] ++ seed ++ nonce ++ (ps ++ [])) :=
    poke_parts (b := z) (by simp) (by simp [hfront]; omega) hz
  refine ⟨front, b, hfront, ?_⟩
  rw [drbgBuffer, hbuf, hseed, Option.bind_eq_bind, Option.bind_some, hnonce, Option.bind_some, hps]
  simp

theorem HashesTo.length_update (h : HashesTo hash H hashLen) (s : Drbg) (provided : Bytes) :
    (s.update (macOf H hashLen) provided).K.length = hashLen ∧
      (s.update (macOf H hashLen) provided).V.length = hashLen := by
  unfold Drbg.update
  dsimp only
  split_ifs <;> exact ⟨h.length_macOf _ _, h.length_macOf _ _⟩

/-- With a seed there are two rounds, as for data that is not empty; else one. -/
theorem drbgUpdate_eq (h : HashesTo hash H hashLen) {s : Drbg} (hK : s.K.length = hashLen)
    (hV : s.V.length = hashLen) (first : Bool) (seed nonce ps : Bytes)
    (hfirst : first = true ↔ seed ++ nonce ++ ps ≠ [])
    (hlen : (seed ++ nonce ++ ps).length < 2 ^ 59) : ∃ buf,
    drbgUpdate hash hashLen garbage first s.K s.V seed nonce ps =
      some ((s.update (macOf H hashLen) (seed ++ nonce ++ ps)).K,
        (s.update (macOf H hashLen) (seed ++ nonce ++ ps)).V, buf) := by
  obtain ⟨front, b, hfront, hbuffer⟩ := drbgBuffer_eq hashLen garbage seed nonce ps
  have hround := drbgRound_eq garbage h hK hV hfront hlen b 0x00
  unfold drbgUpdate
  rw [hbuffer, Option.bind_eq_bind, Option.bind_some, hround, Option.bind_eq_bind, Option.bind_some]
  dsimp only
  generalize hK₁ : macOf H hashLen s.K (s.V ++ 0x00 :: (seed ++ nonce ++ ps)) = K₁
  cases hcase : first with
  | false =>
    have hnone : seed ++ nonce ++ ps = [] := by
      by_contra hsome
      rw [hfirst.2 hsome] at hcase
      cases hcase
    refine ⟨s.V ++ 0x00 :: (seed ++ nonce ++ ps), ?_⟩
    rw [if_neg Bool.false_ne_true, Drbg.update, if_pos hnone, hK₁]
  | true =>
    have hlenK : K₁.length = hashLen := by
      rw [← hK₁]
      exact h.length_macOf _ _
    have hround := drbgRound_eq garbage h hlenK (h.length_macOf K₁ s.V) hV hlen
      0x00 0x01
    refine ⟨macOf H hashLen K₁ s.V ++ 0x01 :: (seed ++ nonce ++ ps), ?_⟩
    rw [if_pos rfl, hround, Drbg.update, if_neg (hfirst.1 hcase), hK₁]

/-- What a call gives for a state, when it has made the update. -/
def drbgAnswer (H : Bytes → Bytes) (hashLen : ℕ) (s : Drbg) (n : ℕ) : Bytes × Bytes × Bytes :=
  let s' := s.block (macOf H hashLen) ((n + hashLen - 1) / hashLen)
  ((s.generate (macOf H hashLen) hashLen n).1, s'.K, s'.V)

/-- A call without a seed makes the update that is left, and answers the request. -/
theorem HMACDRBG_next (h : HashesTo hash H hashLen) {s : Drbg} (hK : s.K.length = hashLen)
    (hV : s.V.length = hashLen) (out : Bytes) :
    HMACDRBG hash hashLen garbage out s.K s.V none none none =
      some (drbgAnswer H hashLen (s.update (macOf H hashLen) []) out.length) := by
  obtain ⟨buf, hupdate⟩ := drbgUpdate_eq garbage h hK hV false [] [] [] (by simp)
    (by decide)
  obtain ⟨hK', hV'⟩ := h.length_update s []
  have hloop := drbgLoop_generate garbage h hK' hV' out
  unfold HMACDRBG
  simp only [Option.isSome_none, Bool.or_self, Option.getD_none, Bool.false_eq_true, if_false,
    hupdate, Option.bind_eq_bind, Option.bind_some]
  rw [List.append_nil, List.append_nil, hloop]
  rfl

/-- The first call, which has a seed, a nonce or a personalization string. -/
theorem HMACDRBG_first (h : HashesTo hash H hashLen) (out K V : Bytes)
    {seed nonce ps : Option Bytes} (hsome : seed.getD [] ++ nonce.getD [] ++ ps.getD [] ≠ [])
    (hlen : (seed.getD [] ++ nonce.getD [] ++ ps.getD []).length < 2 ^ 59) :
    HMACDRBG hash hashLen garbage out K V seed nonce ps =
      some (drbgAnswer H hashLen (Drbg.instantiate (macOf H hashLen) hashLen
        (seed.getD [] ++ nonce.getD [] ++ ps.getD [])) out.length) := by
  have hfirst : (seed.isSome || nonce.isSome || ps.isSome) = true := by
    cases seed <;> cases nonce <;> cases ps <;> simp_all
  obtain ⟨buf, hupdate⟩ := drbgUpdate_eq garbage h
    (s := ⟨List.replicate hashLen 0x00, List.replicate hashLen 0x01⟩) List.length_replicate
    List.length_replicate true (seed.getD []) (nonce.getD []) (ps.getD [])
    ⟨fun _ => hsome, fun _ => rfl⟩ hlen
  obtain ⟨hK', hV'⟩ := h.length_update
    ⟨List.replicate hashLen 0x00, List.replicate hashLen 0x01⟩
    (seed.getD [] ++ nonce.getD [] ++ ps.getD [])
  have hloop := drbgLoop_generate garbage h hK' hV' out
  unfold HMACDRBG
  simp only [hfirst, if_true, hupdate, Option.bind_eq_bind, Option.bind_some]
  rw [hloop]
  rfl

theorem drbgCalls_eq (h : HashesTo hash H hashLen) {s : Drbg} (hK : s.K.length = hashLen)
    (hV : s.V.length = hashLen) (outs : List Bytes) :
    drbgCalls hash hashLen garbage s.K s.V outs =
      some ((s.update (macOf H hashLen) []).requests (macOf H hashLen) hashLen
        (outs.map List.length)) := by
  induction outs generalizing s with
  | nil => rfl
  | cons out outs ih =>
    obtain ⟨hK', hV'⟩ := h.length_update s []
    have hnext := ih (s := (s.update (macOf H hashLen) []).block (macOf H hashLen)
      ((out.length + hashLen - 1) / hashLen)) hK' (length_iterate_macOf h _ hV' _)
    rw [drbgCalls, HMACDRBG_next garbage h hK hV, Option.bind_eq_bind, Option.bind_some]
    unfold drbgAnswer
    dsimp only
    rw [hnext]
    rfl

/-- The calls of a session are the requests to one generator, for outputs of any lengths. -/
theorem HMACDRBG_session (h : HashesTo hash H hashLen) (K V : Bytes) {seed nonce ps : Option Bytes}
    (hsome : seed.getD [] ++ nonce.getD [] ++ ps.getD [] ≠ [])
    (hlen : (seed.getD [] ++ nonce.getD [] ++ ps.getD []).length < 2 ^ 59) (outs : List Bytes) :
    drbgSession hash hashLen garbage K V seed nonce ps outs =
      some ((Drbg.instantiate (macOf H hashLen) hashLen
        (seed.getD [] ++ nonce.getD [] ++ ps.getD [])).requests (macOf H hashLen) hashLen
          (outs.map List.length)) := by
  cases outs with
  | nil => rfl
  | cons out outs =>
    have hfirst := HMACDRBG_first garbage h out K V hsome hlen
    obtain ⟨hK', hV'⟩ := h.length_update
      ⟨List.replicate hashLen 0x00, List.replicate hashLen 0x01⟩
      (seed.getD [] ++ nonce.getD [] ++ ps.getD [])
    have hnext := drbgCalls_eq garbage h (s := (Drbg.instantiate (macOf H hashLen)
      hashLen (seed.getD [] ++ nonce.getD [] ++ ps.getD [])).block (macOf H hashLen)
        ((out.length + hashLen - 1) / hashLen)) hK' (length_iterate_macOf h _ hV' _) outs
    rw [drbgSession, hfirst, Option.bind_eq_bind, Option.bind_some]
    unfold drbgAnswer
    dsimp only
    rw [hnext]
    rfl

/-! ## Keys from passwords -/

/-- The rounds of a block: `U` is what is made of the first one, and `T` the sum. -/
theorem pbkdf2Rounds_eq (h : HashesTo hash H hashLen) {pw u : Bytes} (hpw : pw.length < 2 ^ 61)
    (hu : u.length = hashLen) (count : ℕ) :
    pbkdf2Rounds hash hashLen garbage pw count u u =
      some ((macOf H hashLen pw)^[count] u, pbkdf2Sum (macOf H hashLen pw) u count) := by
  have hsize := h.le
  have hwords := h.words
  induction count with
  | zero => rfl
  | succ n hrounds =>
    have hT := length_pbkdf2Sum (h.length_macOf pw) hu n
    have hU := length_iterate_macOf h pw hu (n + 1)
    have hmac : HMAC hash hashLen garbage pw ((macOf H hashLen pw)^[n] u) =
        some ((macOf H hashLen pw)^[n + 1] u) := by
      rw [HMAC_eq garbage h hpw (by rw [length_iterate_macOf h pw hu]; omega),
        Function.iterate_succ_apply']
    have hcount : hashLen = hashLen / 4 * 4 := by omega
    have hxor := xorPieces_peek (hT.trans hcount)
      (show 0 + hashLen / 4 * 4 ≤ ((macOf H hashLen pw)^[n + 1] u).length by omega)
    rw [List.drop_zero, List.take_of_length_le (by omega)] at hxor
    simp only [Nat.zero_add] at hxor
    unfold pbkdf2Rounds at hrounds ⊢
    rw [List.range_succ, List.foldlM_append, hrounds]
    simp only [Option.bind_eq_bind, Option.bind_some, List.foldlM_cons, hmac, hxor]
    rfl

theorem pbkdf2Loop_eq (h : HashesTo hash H hashLen) {pw salt dk : Bytes} (hpw : pw.length < 2 ^ 61)
    (hsalt : salt.length < 2 ^ 59) (rounds : ℕ)
    (hblocks : (dk.length + hashLen - 1) / hashLen < 2 ^ 32) {fuel : ℕ} {i : UInt32} {t : Bytes}
    (ht : t.length = 4) (hi : i.toNat ≤ (dk.length + hashLen - 1) / hashLen)
    (hfuel : (dk.length + hashLen - 1) / hashLen < fuel + i.toNat) :
    pbkdf2Loop hash hashLen garbage pw salt.length rounds fuel i (salt ++ t)
        (filled dk ((List.range i.toNat).map fun j =>
          pbkdf2Block (macOf H hashLen pw) salt rounds (j + 1))) =
      some (filled dk ((List.range ((dk.length + hashLen - 1) / hashLen)).map fun j =>
        pbkdf2Block (macOf H hashLen pw) salt rounds (j + 1))) := by
  have hsize := h.le
  induction fuel generalizing i t with
  | zero => omega
  | succ fuel ih =>
    unfold pbkdf2Loop
    rw [length_filled]
    split_ifs with hmore
    · have hnext : (i + 1).toNat = i.toNat + 1 := by
        rw [UInt32.toNat_add]
        exact Nat.mod_eq_of_lt (by simp; omega)
      have hnumber : poke (salt ++ t) salt.length (toLE 4 (be32 (i + 1)).toNat) =
          some (salt ++ toBE 4 (i.toNat + 1)) := by
        rw [toLE_be32, hnext]
        have hparts : poke (salt ++ t) salt.length (toBE 4 (i.toNat + 1)) =
            some (salt ++ (toBE 4 (i.toNat + 1) ++ [])) :=
          poke_parts (b := t) (by rw [List.append_nil]) rfl (by rw [ht, length_toBE])
        rwa [List.append_nil] at hparts
      have hrounds := pbkdf2Rounds_eq garbage h hpw
        (h.length_macOf pw (salt ++ toBE 4 (i.toNat + 1))) (rounds - 1)
      rw [show pbkdf2Sum (macOf H hashLen pw) _ (rounds - 1) =
        pbkdf2Block (macOf H hashLen pw) salt rounds (i.toNat + 1) from rfl] at hrounds
      have hT := length_pbkdf2Block (h.length_macOf pw) salt rounds (i.toNat + 1)
      have hflatten (n : ℕ) : ((List.range n).map fun j =>
          pbkdf2Block (macOf H hashLen pw) salt rounds (j + 1)).flatten.length = n * hashLen := by
        rw [← List.flatMap_def]
        exact length_flatMap_range fun j _ =>
          length_pbkdf2Block (h.length_macOf pw) salt rounds (j + 1)
      have hlist : ((List.range (i + 1).toNat).map fun j =>
          pbkdf2Block (macOf H hashLen pw) salt rounds (j + 1)) =
          ((List.range i.toNat).map fun j =>
            pbkdf2Block (macOf H hashLen pw) salt rounds (j + 1)) ++
            [pbkdf2Block (macOf H hashLen pw) salt rounds (i.toNat + 1)] := by
        rw [hnext, List.range_succ, List.map_append, List.map_singleton]
      have hstore := storePiece_filled (hflatten i.toNat) hT ((mul_lt_iff_lt_pieces h.pos).2 hmore)
      have hmac := HMAC_eq garbage h hpw (show (salt ++ toBE 4 (i.toNat + 1)).length < 2 ^ 60 by
        rw [List.length_append, length_toBE]
        omega)
      simp only [hnumber, Option.bind_eq_bind, Option.bind_some, hmac, hrounds, hstore]
      have hrest := ih (length_toBE 4 (i.toNat + 1)) (i := i + 1) (by omega) (by omega)
      rw [hlist] at hrest
      exact hrest
    · rw [show i.toNat = (dk.length + hashLen - 1) / hashLen by omega]

/-- The key is `pbkdf2` of the hash function's mac. -/
theorem PBKDF2_eq (h : HashesTo hash H hashLen) (dk : Bytes) {pw salt : Bytes}
    (hpw : pw.length < 2 ^ 61) (hsalt : salt.length < 2 ^ 59) (rounds : ℕ)
    (hblocks : (dk.length + hashLen - 1) / hashLen < 2 ^ 32) :
    PBKDF2 hash hashLen garbage dk pw salt rounds =
      some (pbkdf2 (macOf H hashLen pw) hashLen salt rounds dk.length) := by
  have hbuffer : poke (blockBuffer garbage (salt.length + 4)) 0 salt =
      some (salt ++ (blockBuffer garbage (salt.length + 4)).drop salt.length) :=
    poke_parts (a := []) (List.take_append_drop salt.length _).symm rfl
      (List.length_take_of_le (by rw [length_blockBuffer]; omega))
  have hloop := pbkdf2Loop_eq garbage h hpw hsalt rounds hblocks
    (show ((blockBuffer garbage (salt.length + 4)).drop salt.length).length = 4 by
      rw [List.length_drop, length_blockBuffer]
      omega)
    (show (0 : UInt32).toNat ≤ _ from Nat.zero_le _) (Nat.lt_succ_self _)
  have hfull := le_length_pbkdf2Blocks h.pos (h.length_macOf pw) salt rounds dk.length
  rw [List.flatMap_def] at hfull
  rw [PBKDF2, hbuffer, Option.bind_eq_bind, Option.bind_some]
  refine Eq.trans ?_ (hloop.trans ?_)
  · simp
  · rw [filled_of_le hfull, ← List.flatMap_def, pbkdf2]

end

/-! ## The hash functions -/

theorem length_digestBE32 {k : ℕ} (words : Vector UInt32 k) :
    (digestBE32 k words).length = 4 * k := by
  simp [digestBE32, List.length_flatMap, Nat.mul_comm]

theorem length_digestBE64 {k : ℕ} (words : Vector UInt64 k) :
    (digestBE64 k words).length = 8 * k := by
  simp [digestBE64, List.length_flatMap, Nat.mul_comm]

def sha256 (data : Bytes) : Bytes :=
  digestBE32 8 (foldBlocks 64 sha256Step sha256Init
    (padMessage 64 (toBE 8 (8 * data.length)) data))

def sha512 (data : Bytes) : Bytes :=
  digestBE64 8 (foldBlocks 128 sha512Step sha512Init
    (padMessage 128 (toBE 16 (8 * data.length)) data))

theorem digest_sha256 (garbage : ℕ → UInt8) : HashesTo (SHA256 garbage) sha256 32 where
  pos := by decide
  words := rfl
  le := by decide
  eq data h := (hashes_framed garbage data h).2.2.1
  length _ := length_digestBE32 _

theorem digest_sha512 (garbage : ℕ → UInt8) : HashesTo (SHA512 garbage) sha512 64 where
  pos := by decide
  words := rfl
  le := by decide
  eq data h := (hashes_framed garbage data h).2.2.2.2.1
  length _ := length_digestBE64 _

/-- Three requests to a generator with the seed `1`. -/
theorem HMACDRBG_session_one :
    drbgSession (SHA256 fun _ => 0xff) 32 (fun _ => 0xff) [] [] (some [1]) none none
        [List.replicate 40 0, [], List.replicate 7 0] =
      some ((Drbg.instantiate (macOf sha256 32) 32 [1]).requests (macOf sha256 32) 32
        [40, 0, 7]) :=
  HMACDRBG_session _ (digest_sha256 _) [] [] (by simp) (by decide) _

end RavenWallet
