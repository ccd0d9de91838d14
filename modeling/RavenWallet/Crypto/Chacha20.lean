/-
  The ChaCha20 stream cipher, and how the authenticated encryption uses it
  (BRCrypto.c).

  A block of the key stream is computed from a state of 16 words: constants, key,
  counter and `iv8`.  `aeadStates` are the states from which an encryption computes
  its one-time MAC key and its key stream.  The tag is left out.

  * `iv_of_mem_aeadStates`: such a state determines the `iv8` of the nonce.
-/
import Mathlib.Data.Vector.Basic
import Mathlib.Data.Fintype.Basic
import RavenWallet.Lib.Buffer
import RavenWallet.Core.Types

namespace RavenWallet

abbrev ChachaState := Vector UInt32 16

def rol32 (a b : UInt32) : UInt32 := (a <<< b) ||| (a >>> (32 - b))

/-- The basic quarter round operation (`qr`). -/
def qr (x : ChachaState) (a b c d : Fin 16) : ChachaState :=
  let x := x.set a (x[a] + x[b])
  let x := x.set d (rol32 (x[d] ^^^ x[a]) 16)
  let x := x.set c (x[c] + x[d])
  let x := x.set b (rol32 (x[b] ^^^ x[c]) 12)
  let x := x.set a (x[a] + x[b])
  let x := x.set d (rol32 (x[d] ^^^ x[a]) 8)
  let x := x.set c (x[c] + x[d])
  x.set b (rol32 (x[b] ^^^ x[c]) 7)

/-- One of the ten rounds over the columns and the diagonals. -/
def chachaRound (x : ChachaState) : ChachaState :=
  let x := qr (qr (qr (qr x 0 4 8 12) 1 5 9 13) 2 6 10 14) 3 7 11 15
  qr (qr (qr (qr x 0 5 10 15) 1 6 11 12) 2 7 8 13) 3 4 9 14

/-- The 64 bytes of key stream of a state. -/
def chachaBlock (s : ChachaState) : Bytes :=
  (List.finRange 16).flatMap fun i => toLE 4 (s[i] + (chachaRound^[10] s)[i]).toNat

/-- The `i`-th word of some bytes. -/
def wordAt (bytes : Bytes) (i : ℕ) : UInt32 :=
  UInt32.ofNat (ofLE ((bytes.drop (4 * i)).take 4))

def sigma : Bytes := "expand 32-byte k".toList.map fun c => UInt8.ofNat c.toNat

def chachaInit (key32 iv8 : Bytes) (counter : UInt64) : ChachaState :=
  .ofFn fun i =>
    if i < 4 then wordAt sigma i
    else if i < 12 then wordAt key32 (i - 4)
    else if i = 12 then counter.toUInt32
    else if i = 13 then (counter >>> 32).toUInt32
    else wordAt iv8 (i - 14)

/-- The state for the next block. -/
def chachaNext (s : ChachaState) : ChachaState :=
  let s := s.set 12 (s[12] + 1)
  if s[12] = 0 then s.set 13 (s[13] + 1) else s

/-- `Chacha20`. -/
def chacha20 (key32 iv8 data : Bytes) (counter : UInt64) : Bytes :=
  data.mapIdx fun i b =>
    b ^^^ (chachaBlock (chachaNext^[i / 64] (chachaInit key32 iv8 counter))).getD (i % 64) 0

/-! ## Authenticated encryption -/

/-- The block counter with the first bytes of the nonce as its high word. -/
def aeadCounter (nonce12 : Bytes) : UInt64 := UInt64.ofNat (ofLE (nonce12.take 4)) <<< 32

/-- The one-time key of the tag. -/
def aeadMacKey (key32 nonce12 : Bytes) : Bytes :=
  chacha20 key32 (nonce12.drop 4) (List.replicate 32 0) (aeadCounter nonce12)

/-- The part of `Chacha20Poly1305AEADEncrypt` before the tag. -/
def aeadCiphertext (key32 nonce12 data : Bytes) : Bytes :=
  chacha20 key32 (nonce12.drop 4) data (aeadCounter nonce12 + 1)

/-- The states whose blocks are the MAC key and the key stream for `dataLen` bytes. -/
def aeadStates (key32 nonce12 : Bytes) (dataLen : ℕ) : List ChachaState :=
  chachaInit key32 (nonce12.drop 4) (aeadCounter nonce12) ::
    (List.range ((dataLen + 63) / 64)).map fun n =>
      chachaNext^[n] (chachaInit key32 (nonce12.drop 4) (aeadCounter nonce12 + 1))

section
variable {key32 iv8 nonce12 data : Bytes} {counter : UInt64}

/-! ## The state determines the nonce -/

/-- The last two words of a state. -/
def ivWords (s : ChachaState) : UInt32 × UInt32 := (s[14], s[15])

@[simp] theorem ivWords_init :
    ivWords (chachaInit key32 iv8 counter) = (wordAt iv8 0, wordAt iv8 1) := by
  simp [ivWords, chachaInit]

@[simp] theorem ivWords_next (s : ChachaState) : ivWords (chachaNext s) = ivWords s := by
  unfold chachaNext ivWords
  dsimp only
  split_ifs <;> simp

theorem ivWords_iterate (n : ℕ) (s : ChachaState) : ivWords (chachaNext^[n] s) = ivWords s := by
  induction n generalizing s with
  | zero => rfl
  | succ n ih => rw [Function.iterate_succ_apply, ih, ivWords_next]

theorem ivWords_of_mem {dataLen : ℕ} {s : ChachaState} (h : s ∈ aeadStates key32 nonce12 dataLen) :
    ivWords s = (wordAt (nonce12.drop 4) 0, wordAt (nonce12.drop 4) 1) := by
  rcases List.mem_cons.1 h with rfl | h
  · exact ivWords_init
  · obtain ⟨n, -, rfl⟩ := List.mem_map.1 h
    rw [ivWords_iterate, ivWords_init]

/-- Four bytes are determined by their word. -/
theorem bytes_of_word {a b : Bytes} (ha : a.length = 4) (hb : b.length = 4)
    (h : UInt32.ofNat (ofLE a) = UInt32.ofNat (ofLE b)) : a = b := by
  have hlt : ∀ {l : Bytes}, l.length = 4 → (UInt32.ofNat (ofLE l)).toNat = ofLE l := by
    intro l hl
    have hbound := ofLE_lt l
    rw [hl] at hbound
    rw [UInt32.toNat_ofNat', Nat.mod_eq_of_lt (by omega)]
  have hval : ofLE a = ofLE b := by rw [← hlt ha, ← hlt hb, h]
  rw [← toLE_ofLE a, ← toLE_ofLE b, ha, hb, hval]

theorem iv_of_words {a b : Bytes} (ha : a.length = 8) (hb : b.length = 8)
    (h0 : wordAt a 0 = wordAt b 0) (h1 : wordAt a 1 = wordAt b 1) : a = b := by
  have hlow : a.take 4 = b.take 4 := bytes_of_word (by simp [ha]) (by simp [hb]) h0
  have hhigh : (a.drop 4).take 4 = (b.drop 4).take 4 :=
    bytes_of_word (by simp [ha]) (by simp [hb]) h1
  rw [List.take_of_length_le (by simp [ha]), List.take_of_length_le (by simp [hb])] at hhigh
  rw [← List.take_append_drop 4 a, ← List.take_append_drop 4 b, hlow, hhigh]

/-- Encryptions with a common state have a common `iv8`. -/
theorem iv_of_mem_aeadStates {nonce12' key32' : Bytes} {n n' : ℕ} {s : ChachaState}
    (hlen : nonce12.length = 12) (hlen' : nonce12'.length = 12)
    (h : s ∈ aeadStates key32 nonce12 n) (h' : s ∈ aeadStates key32' nonce12' n') :
    nonce12.drop 4 = nonce12'.drop 4 := by
  have hwords := (ivWords_of_mem h).symm.trans (ivWords_of_mem h')
  obtain ⟨h0, h1⟩ := Prod.mk.inj hwords
  exact iv_of_words (by simp [hlen]) (by simp [hlen']) h0 h1

end

end RavenWallet
