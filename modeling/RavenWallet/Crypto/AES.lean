/-
  AES with a key of 32 bytes (BRBIP38Key.c).

  A block is four columns and a key eight words, each of four bytes.  Decrypting
  runs the key schedule to its end, and then backwards with the rounds.

  * `unmixColumn_mixColumn`, `unexpandKey_expandKey`: the steps that are undone;
  * `decRound_encRound`: one round of the decryption undoes one of the encryption;
  * `AES256ECBDecrypt_encrypt`: decrypting undoes encrypting.
-/
import Mathlib.Logic.Function.Iterate
import RavenWallet.Lib.Word

namespace RavenWallet

def sbox : List UInt8 :=
  [0x63, 0x7c, 0x77, 0x7b, 0xf2, 0x6b, 0x6f, 0xc5, 0x30, 0x01, 0x67, 0x2b, 0xfe, 0xd7, 0xab, 0x76,
   0xca, 0x82, 0xc9, 0x7d, 0xfa, 0x59, 0x47, 0xf0, 0xad, 0xd4, 0xa2, 0xaf, 0x9c, 0xa4, 0x72, 0xc0,
   0xb7, 0xfd, 0x93, 0x26, 0x36, 0x3f, 0xf7, 0xcc, 0x34, 0xa5, 0xe5, 0xf1, 0x71, 0xd8, 0x31, 0x15,
   0x04, 0xc7, 0x23, 0xc3, 0x18, 0x96, 0x05, 0x9a, 0x07, 0x12, 0x80, 0xe2, 0xeb, 0x27, 0xb2, 0x75,
   0x09, 0x83, 0x2c, 0x1a, 0x1b, 0x6e, 0x5a, 0xa0, 0x52, 0x3b, 0xd6, 0xb3, 0x29, 0xe3, 0x2f, 0x84,
   0x53, 0xd1, 0x00, 0xed, 0x20, 0xfc, 0xb1, 0x5b, 0x6a, 0xcb, 0xbe, 0x39, 0x4a, 0x4c, 0x58, 0xcf,
   0xd0, 0xef, 0xaa, 0xfb, 0x43, 0x4d, 0x33, 0x85, 0x45, 0xf9, 0x02, 0x7f, 0x50, 0x3c, 0x9f, 0xa8,
   0x51, 0xa3, 0x40, 0x8f, 0x92, 0x9d, 0x38, 0xf5, 0xbc, 0xb6, 0xda, 0x21, 0x10, 0xff, 0xf3, 0xd2,
   0xcd, 0x0c, 0x13, 0xec, 0x5f, 0x97, 0x44, 0x17, 0xc4, 0xa7, 0x7e, 0x3d, 0x64, 0x5d, 0x19, 0x73,
   0x60, 0x81, 0x4f, 0xdc, 0x22, 0x2a, 0x90, 0x88, 0x46, 0xee, 0xb8, 0x14, 0xde, 0x5e, 0x0b, 0xdb,
   0xe0, 0x32, 0x3a, 0x0a, 0x49, 0x06, 0x24, 0x5c, 0xc2, 0xd3, 0xac, 0x62, 0x91, 0x95, 0xe4, 0x79,
   0xe7, 0xc8, 0x37, 0x6d, 0x8d, 0xd5, 0x4e, 0xa9, 0x6c, 0x56, 0xf4, 0xea, 0x65, 0x7a, 0xae, 0x08,
   0xba, 0x78, 0x25, 0x2e, 0x1c, 0xa6, 0xb4, 0xc6, 0xe8, 0xdd, 0x74, 0x1f, 0x4b, 0xbd, 0x8b, 0x8a,
   0x70, 0x3e, 0xb5, 0x66, 0x48, 0x03, 0xf6, 0x0e, 0x61, 0x35, 0x57, 0xb9, 0x86, 0xc1, 0x1d, 0x9e,
   0xe1, 0xf8, 0x98, 0x11, 0x69, 0xd9, 0x8e, 0x94, 0x9b, 0x1e, 0x87, 0xe9, 0xce, 0x55, 0x28, 0xdf,
   0x8c, 0xa1, 0x89, 0x0d, 0xbf, 0xe6, 0x42, 0x68, 0x41, 0x99, 0x2d, 0x0f, 0xb0, 0x54, 0xbb, 0x16]

def sboxi : List UInt8 :=
  [0x52, 0x09, 0x6a, 0xd5, 0x30, 0x36, 0xa5, 0x38, 0xbf, 0x40, 0xa3, 0x9e, 0x81, 0xf3, 0xd7, 0xfb,
   0x7c, 0xe3, 0x39, 0x82, 0x9b, 0x2f, 0xff, 0x87, 0x34, 0x8e, 0x43, 0x44, 0xc4, 0xde, 0xe9, 0xcb,
   0x54, 0x7b, 0x94, 0x32, 0xa6, 0xc2, 0x23, 0x3d, 0xee, 0x4c, 0x95, 0x0b, 0x42, 0xfa, 0xc3, 0x4e,
   0x08, 0x2e, 0xa1, 0x66, 0x28, 0xd9, 0x24, 0xb2, 0x76, 0x5b, 0xa2, 0x49, 0x6d, 0x8b, 0xd1, 0x25,
   0x72, 0xf8, 0xf6, 0x64, 0x86, 0x68, 0x98, 0x16, 0xd4, 0xa4, 0x5c, 0xcc, 0x5d, 0x65, 0xb6, 0x92,
   0x6c, 0x70, 0x48, 0x50, 0xfd, 0xed, 0xb9, 0xda, 0x5e, 0x15, 0x46, 0x57, 0xa7, 0x8d, 0x9d, 0x84,
   0x90, 0xd8, 0xab, 0x00, 0x8c, 0xbc, 0xd3, 0x0a, 0xf7, 0xe4, 0x58, 0x05, 0xb8, 0xb3, 0x45, 0x06,
   0xd0, 0x2c, 0x1e, 0x8f, 0xca, 0x3f, 0x0f, 0x02, 0xc1, 0xaf, 0xbd, 0x03, 0x01, 0x13, 0x8a, 0x6b,
   0x3a, 0x91, 0x11, 0x41, 0x4f, 0x67, 0xdc, 0xea, 0x97, 0xf2, 0xcf, 0xce, 0xf0, 0xb4, 0xe6, 0x73,
   0x96, 0xac, 0x74, 0x22, 0xe7, 0xad, 0x35, 0x85, 0xe2, 0xf9, 0x37, 0xe8, 0x1c, 0x75, 0xdf, 0x6e,
   0x47, 0xf1, 0x1a, 0x71, 0x1d, 0x29, 0xc5, 0x89, 0x6f, 0xb7, 0x62, 0x0e, 0xaa, 0x18, 0xbe, 0x1b,
   0xfc, 0x56, 0x3e, 0x4b, 0xc6, 0xd2, 0x79, 0x20, 0x9a, 0xdb, 0xc0, 0xfe, 0x78, 0xcd, 0x5a, 0xf4,
   0x1f, 0xdd, 0xa8, 0x33, 0x88, 0x07, 0xc7, 0x31, 0xb1, 0x12, 0x10, 0x59, 0x27, 0x80, 0xec, 0x5f,
   0x60, 0x51, 0x7f, 0xa9, 0x19, 0xb5, 0x4a, 0x0d, 0x2d, 0xe5, 0x7a, 0x9f, 0x93, 0xc9, 0x9c, 0xef,
   0xa0, 0xe0, 0x3b, 0x4d, 0xae, 0x2a, 0xf5, 0xb0, 0xc8, 0xeb, 0xbb, 0x3c, 0x83, 0x53, 0x99, 0x61,
   0x17, 0x2b, 0x04, 0x7e, 0xba, 0x77, 0xd6, 0x26, 0xe1, 0x69, 0x14, 0x63, 0x55, 0x21, 0x0c, 0x7d]

def subByte (x : UInt8) : UInt8 := sbox.getD x.toNat 0
def unsubByte (x : UInt8) : UInt8 := sboxi.getD x.toNat 0

def xt (x : UInt8) : UInt8 := (x <<< 1) ^^^ (((x >>> 7) &&& 1) * 0x1b)

/-- Four bytes. -/
structure AESWord where
  a : UInt8
  b : UInt8
  c : UInt8
  d : UInt8
  deriving DecidableEq

namespace AESWord

instance : XorOp AESWord where
  xor u v := ⟨u.a ^^^ v.a, u.b ^^^ v.b, u.c ^^^ v.c, u.d ^^^ v.d⟩

def map (f : UInt8 → UInt8) (w : AESWord) : AESWord := ⟨f w.a, f w.b, f w.c, f w.d⟩

/-- The word at `buf[j]`. -/
def get (buf : List UInt8) (j : ℕ) : AESWord :=
  ⟨buf.getD j 0, buf.getD (j + 1) 0, buf.getD (j + 2) 0, buf.getD (j + 3) 0⟩

def toBytes (w : AESWord) : List UInt8 := [w.a, w.b, w.c, w.d]

theorem xor_xor_cancel (u v : AESWord) : u ^^^ v ^^^ v = u := by
  show AESWord.mk (u.a ^^^ v.a ^^^ v.a) (u.b ^^^ v.b ^^^ v.b) (u.c ^^^ v.c ^^^ v.c)
    (u.d ^^^ v.d ^^^ v.d) = u
  simp only [UInt8.xor_assoc, UInt8.xor_self, UInt8.xor_zero]

end AESWord

/-- The buffer `x`, by columns. -/
structure AESBlock where
  x0 : AESWord
  x1 : AESWord
  x2 : AESWord
  x3 : AESWord
  deriving DecidableEq

namespace AESBlock

instance : XorOp AESBlock where
  xor u v := ⟨u.x0 ^^^ v.x0, u.x1 ^^^ v.x1, u.x2 ^^^ v.x2, u.x3 ^^^ v.x3⟩

def map (f : AESWord → AESWord) (x : AESBlock) : AESBlock := ⟨f x.x0, f x.x1, f x.x2, f x.x3⟩

def get (buf16 : List UInt8) : AESBlock :=
  ⟨.get buf16 0, .get buf16 4, .get buf16 8, .get buf16 12⟩

def toBytes (x : AESBlock) : List UInt8 :=
  x.x0.toBytes ++ x.x1.toBytes ++ x.x2.toBytes ++ x.x3.toBytes

theorem xor_xor_cancel (u v : AESBlock) : u ^^^ v ^^^ v = u := by
  cases u
  show AESBlock.mk _ _ _ _ = _
  congr 1 <;> exact AESWord.xor_xor_cancel _ _

theorem get_toBytes (x : AESBlock) : get x.toBytes = x := rfl

theorem toBytes_get {buf16 : List UInt8} (h : buf16.length = 16) : (get buf16).toBytes = buf16 := by
  match buf16, h with
  | [_, _, _, _, _, _, _, _, _, _, _, _, _, _, _, _], _ => rfl

theorem length_toBytes (x : AESBlock) : x.toBytes.length = 16 := rfl

/-! ## The steps of a round -/

def subBytes (x : AESBlock) : AESBlock := x.map (·.map subByte)
def unsubBytes (x : AESBlock) : AESBlock := x.map (·.map unsubByte)

def shiftRows (x : AESBlock) : AESBlock :=
  ⟨⟨x.x0.a, x.x1.b, x.x2.c, x.x3.d⟩, ⟨x.x1.a, x.x2.b, x.x3.c, x.x0.d⟩,
    ⟨x.x2.a, x.x3.b, x.x0.c, x.x1.d⟩, ⟨x.x3.a, x.x0.b, x.x1.c, x.x2.d⟩⟩

def unshiftRows (x : AESBlock) : AESBlock :=
  ⟨⟨x.x0.a, x.x3.b, x.x2.c, x.x1.d⟩, ⟨x.x1.a, x.x0.b, x.x3.c, x.x2.d⟩,
    ⟨x.x2.a, x.x1.b, x.x0.c, x.x3.d⟩, ⟨x.x3.a, x.x2.b, x.x1.c, x.x0.d⟩⟩

end AESBlock

def mixColumn (w : AESWord) : AESWord :=
  let e := w.a ^^^ w.b ^^^ w.c ^^^ w.d
  ⟨w.a ^^^ (e ^^^ xt (w.a ^^^ w.b)), w.b ^^^ (e ^^^ xt (w.b ^^^ w.c)),
    w.c ^^^ (e ^^^ xt (w.c ^^^ w.d)), w.d ^^^ (e ^^^ xt (w.d ^^^ w.a))⟩

def unmixColumn (w : AESWord) : AESWord :=
  let e := w.a ^^^ w.b ^^^ w.c ^^^ w.d
  let h := xt e
  let f := e ^^^ xt (xt (h ^^^ w.a ^^^ w.c))
  let g := e ^^^ xt (xt (h ^^^ w.b ^^^ w.d))
  ⟨w.a ^^^ (f ^^^ xt (w.a ^^^ w.b)), w.b ^^^ (g ^^^ xt (w.b ^^^ w.c)),
    w.c ^^^ (f ^^^ xt (w.c ^^^ w.d)), w.d ^^^ (g ^^^ xt (w.d ^^^ w.a))⟩

/-- The words of the key, and the round constant. -/
structure KeySchedule where
  k0 : AESWord
  k1 : AESWord
  k2 : AESWord
  k3 : AESWord
  k4 : AESWord
  k5 : AESWord
  k6 : AESWord
  k7 : AESWord
  r : UInt8 := 1
  deriving DecidableEq

namespace KeySchedule

def get (key32 : List UInt8) : KeySchedule where
  k0 := .get key32 0
  k1 := .get key32 4
  k2 := .get key32 8
  k3 := .get key32 12
  k4 := .get key32 16
  k5 := .get key32 20
  k6 := .get key32 24
  k7 := .get key32 28

/-- What is added to the first word. -/
def firstWord (k7 : AESWord) (r : UInt8) : AESWord :=
  ⟨subByte k7.b ^^^ r, subByte k7.c, subByte k7.d, subByte k7.a⟩

def expandKey (s : KeySchedule) : KeySchedule :=
  let k0 := s.k0 ^^^ firstWord s.k7 s.r
  let k1 := s.k1 ^^^ k0
  let k2 := s.k2 ^^^ k1
  let k3 := s.k3 ^^^ k2
  let k4 := s.k4 ^^^ k3.map subByte
  let k5 := s.k5 ^^^ k4
  let k6 := s.k6 ^^^ k5
  let k7 := s.k7 ^^^ k6
  ⟨k0, k1, k2, k3, k4, k5, k6, k7, xt s.r⟩

def unexpandKey (s : KeySchedule) : KeySchedule :=
  let k7 := s.k7 ^^^ s.k6
  let k6 := s.k6 ^^^ s.k5
  let k5 := s.k5 ^^^ s.k4
  let k4 := s.k4 ^^^ s.k3.map subByte
  let k3 := s.k3 ^^^ s.k2
  let k2 := s.k2 ^^^ s.k1
  let k1 := s.k1 ^^^ s.k0
  let r := (s.r >>> 1) ^^^ ((s.r &&& 1) * 0x8d)
  ⟨s.k0 ^^^ firstWord k7 r, k1, k2, k3, k4, k5, k6, k7, r⟩

/-- The half of the key for the `i`-th round. -/
def roundKey (s : KeySchedule) (i : ℕ) : AESBlock :=
  if i % 2 = 0 then ⟨s.k0, s.k1, s.k2, s.k3⟩ else ⟨s.k4, s.k5, s.k6, s.k7⟩

end KeySchedule

/-! ## The rounds -/

def encRound (i : ℕ) (t : AESBlock × KeySchedule) : AESBlock × KeySchedule :=
  let x := (t.1 ^^^ t.2.roundKey i).subBytes.shiftRows
  (if i < 13 then x.map mixColumn else x, if i % 2 ≠ 0 then t.2.expandKey else t.2)

/-- The first `n` rounds of an encryption. -/
def encRounds (t : AESBlock × KeySchedule) : ℕ → AESBlock × KeySchedule
  | 0 => t
  | n + 1 => encRound n (encRounds t n)

def AES256ECBEncrypt (key32 buf16 : List UInt8) : List UInt8 :=
  let t := encRounds (.get buf16, .get key32) 14
  (t.1 ^^^ t.2.roundKey 0).toBytes

def decRound (i : ℕ) (t : AESBlock × KeySchedule) : AESBlock × KeySchedule :=
  let x := t.1 ^^^ t.2.roundKey i
  let x := if i > 0 then x.map unmixColumn else x
  (x.unshiftRows.unsubBytes, if i % 2 = 0 then t.2.unexpandKey else t.2)

/-- The first `n` rounds of a decryption. -/
def decRounds (t : AESBlock × KeySchedule) : ℕ → AESBlock × KeySchedule
  | 0 => t
  | n + 1 => decRound n (decRounds t n)

def AES256ECBDecrypt (key32 buf16 : List UInt8) : List UInt8 :=
  let t := decRounds (.get buf16, KeySchedule.expandKey^[7] (.get key32)) 14
  (t.1 ^^^ t.2.roundKey 0).toBytes

/-! ## Inverse steps -/

theorem unsubByte_subByte (x : UInt8) : unsubByte (subByte x) = x :=
  forall_uint8 (P := fun x => unsubByte (subByte x) = x) (by decide +kernel) x

theorem xor_xor_left (x y : UInt8) : x ^^^ (x ^^^ y) = y := by
  rw [← UInt8.xor_assoc, UInt8.xor_self, UInt8.zero_xor]

theorem xor_left_comm (x y z : UInt8) : x ^^^ (y ^^^ z) = y ^^^ (x ^^^ z) := by
  rw [← UInt8.xor_assoc, UInt8.xor_comm x, UInt8.xor_assoc]

theorem xt_xor (x y : UInt8) : xt (x ^^^ y) = xt x ^^^ xt y := by
  have hbit : ∀ z : UInt8, (z >>> 7) &&& 1 = 0 ∨ (z >>> 7) &&& 1 = 1 :=
    forall_uint8 (P := fun z => (z >>> 7) &&& 1 = 0 ∨ (z >>> 7) &&& 1 = 1) (by decide +kernel)
  have hand : ∀ u v w : UInt8, (u ^^^ v) &&& w = (u &&& w) ^^^ (v &&& w) := by
    intro u v w
    rw [← UInt8.toNat_inj]
    simp only [UInt8.toNat_and, UInt8.toNat_xor]
    exact Nat.and_xor_distrib_right
  rw [xt, xt, xt, UInt8.shiftRight_xor, hand, UInt8.shiftLeft_xor, UInt8.xor_assoc,
    UInt8.xor_assoc]
  congr 1
  rw [xor_left_comm]
  congr 1
  rcases hbit x with hx | hx <;> rcases hbit y with hy | hy <;> rw [hx, hy] <;> rfl

theorem unxt_xt (r : UInt8) : ((xt r >>> 1) ^^^ ((xt r &&& 1) * 0x8d)) = r :=
  forall_uint8 (P := fun r => ((xt r >>> 1) ^^^ ((xt r &&& 1) * 0x8d)) = r) (by decide +kernel) r

theorem unmixColumn_mixColumn (w : AESWord) : unmixColumn (mixColumn w) = w := by
  obtain ⟨a, b, c, d⟩ := w
  -- in a sum of two neighbours the sum `e` of the column drops out
  have hpair : ∀ x y z e : UInt8, x ^^^ (e ^^^ xt (x ^^^ y)) ^^^ (y ^^^ (e ^^^ xt (y ^^^ z))) =
      x ^^^ y ^^^ xt (x ^^^ z) := by
    intro x y z e
    simp only [xt_xor, UInt8.xor_assoc, xor_left_comm, xor_xor_left]
  have hcancel : ∀ x e u v : UInt8, x ^^^ (e ^^^ u) ^^^ (e ^^^ v ^^^ (u ^^^ v)) = x := by
    intro x e u v
    simp only [UInt8.xor_assoc, xor_left_comm, xor_xor_left, UInt8.xor_self, UInt8.xor_zero]
  rw [mixColumn]
  dsimp only
  set e := a ^^^ b ^^^ c ^^^ d with he
  set a' := a ^^^ (e ^^^ xt (a ^^^ b)) with ha
  set b' := b ^^^ (e ^^^ xt (b ^^^ c)) with hb
  set c' := c ^^^ (e ^^^ xt (c ^^^ d)) with hc
  set d' := d ^^^ (e ^^^ xt (d ^^^ a)) with hd
  have hab : a' ^^^ b' = a ^^^ b ^^^ xt (a ^^^ c) := hpair a b c e
  have hbc : b' ^^^ c' = b ^^^ c ^^^ xt (b ^^^ d) := hpair b c d e
  have hcd : c' ^^^ d' = c ^^^ d ^^^ xt (a ^^^ c) := UInt8.xor_comm a c ▸ hpair c d a e
  have hda : d' ^^^ a' = d ^^^ a ^^^ xt (b ^^^ d) := UInt8.xor_comm b d ▸ hpair d a b e
  have hsum : a' ^^^ b' ^^^ c' ^^^ d' = e := by
    rw [UInt8.xor_assoc, hab, hcd, he]
    simp only [UInt8.xor_assoc, xor_left_comm, UInt8.xor_self, UInt8.xor_zero]
    ac_rfl
  have hac : xt e ^^^ a' ^^^ c' = a ^^^ c := by
    rw [he, ha, hc]
    simp only [xt_xor, UInt8.xor_assoc, xor_left_comm, xor_xor_left, UInt8.xor_self,
      UInt8.xor_zero]
    exact UInt8.xor_comm c a
  have hbd : xt e ^^^ b' ^^^ d' = b ^^^ d := by
    rw [he, hb, hd]
    simp only [xt_xor, UInt8.xor_assoc, xor_left_comm, xor_xor_left, UInt8.xor_self,
      UInt8.xor_zero]
    exact UInt8.xor_comm d b
  rw [unmixColumn]
  dsimp only
  rw [hsum, hac, hbd, hab, hbc, hcd, hda, xt_xor (a ^^^ b), xt_xor (b ^^^ c), xt_xor (c ^^^ d),
    xt_xor (d ^^^ a), ha, hb, hc, hd, hcancel, hcancel, hcancel, hcancel]

namespace AESBlock

theorem unsubBytes_subBytes (x : AESBlock) : x.subBytes.unsubBytes = x := by
  have hword : ∀ w : AESWord, (w.map subByte).map unsubByte = w := fun w => by
    simp only [AESWord.map, unsubByte_subByte]
  show AESBlock.mk _ _ _ _ = x
  simp only [subBytes, map, hword]

theorem unshiftRows_shiftRows (x : AESBlock) : x.shiftRows.unshiftRows = x := rfl

theorem unmixColumns_mixColumns (x : AESBlock) : (x.map mixColumn).map unmixColumn = x := by
  simp only [map, unmixColumn_mixColumn]

end AESBlock

namespace KeySchedule

theorem unexpandKey_expandKey (s : KeySchedule) : s.expandKey.unexpandKey = s := by
  simp only [expandKey, unexpandKey, AESWord.xor_xor_cancel, unxt_xt]

theorem roundKey_congr (s : KeySchedule) {i j : ℕ} (h : i % 2 = j % 2) :
    s.roundKey i = s.roundKey j := by
  rw [roundKey, roundKey, h]

end KeySchedule

/-! ## Decryption -/

section
variable (t : AESBlock × KeySchedule)

/-- What the decryption holds when the first `n` rounds of the encryption are left. -/
def decState (n : ℕ) : AESBlock × KeySchedule :=
  ((encRounds t n).1 ^^^ (encRounds t n).2.roundKey n, (encRounds t n).2)

theorem decRound_encRound {i : ℕ} (hi : i < 14) :
    decRound (13 - i) (decState t (i + 1)) = decState t i := by
  have hkey := (encRounds t (i + 1)).2.roundKey_congr (i := 13 - i) (j := i + 1) (by omega)
  have hblock : (if 13 - i > 0 then (encRounds t (i + 1)).1.map unmixColumn
      else (encRounds t (i + 1)).1) =
        ((encRounds t i).1 ^^^ (encRounds t i).2.roundKey i).subBytes.shiftRows := by
    rw [encRounds, encRound]
    by_cases hlast : i < 13
    · rw [if_pos (by omega), if_pos hlast, AESBlock.unmixColumns_mixColumns]
    · rw [if_neg (by omega), if_neg hlast]
  have hsched : (if (13 - i) % 2 = 0 then (encRounds t (i + 1)).2.unexpandKey
      else (encRounds t (i + 1)).2) = (encRounds t i).2 := by
    rw [encRounds, encRound]
    by_cases hodd : i % 2 ≠ 0
    · rw [if_pos (by omega), if_pos hodd, KeySchedule.unexpandKey_expandKey]
    · rw [if_neg (by omega), if_neg hodd]
  rw [decRound, decState, decState]
  dsimp only
  rw [hkey, AESBlock.xor_xor_cancel, hblock, hsched, AESBlock.unshiftRows_shiftRows,
    AESBlock.unsubBytes_subBytes]

theorem decRounds_decState {n : ℕ} (hn : n ≤ 14) :
    decRounds (decState t 14) n = decState t (14 - n) := by
  induction n with
  | zero => rfl
  | succ n ih =>
    have hround := decRound_encRound t (i := 13 - n) (by omega)
    have hi : 13 - (13 - n) = n := by omega
    have hsucc : 13 - n + 1 = 14 - n := by omega
    rw [hi, hsucc] at hround
    rw [decRounds, ih (by omega), hround]
    congr 1
    omega

/-- The schedule of the encryption is expanded every other round. -/
theorem encRounds_schedule (n : ℕ) :
    (encRounds t n).2 = KeySchedule.expandKey^[n / 2] t.2 := by
  induction n with
  | zero => rfl
  | succ n ih =>
    rw [encRounds, encRound]
    dsimp only
    rw [ih]
    by_cases hodd : n % 2 ≠ 0
    · have hhalf : (n + 1) / 2 = n / 2 + 1 := by omega
      rw [if_pos hodd, hhalf, Function.iterate_succ_apply']
    · have hhalf : (n + 1) / 2 = n / 2 := by omega
      rw [if_neg hodd, hhalf]

end

theorem length_AES256ECBEncrypt (key32 buf16 : List UInt8) :
    (AES256ECBEncrypt key32 buf16).length = 16 := AESBlock.length_toBytes _

/-- Decrypting undoes encrypting. -/
theorem AES256ECBDecrypt_encrypt (key32 : List UInt8) {buf16 : List UInt8}
    (h : buf16.length = 16) :
    AES256ECBDecrypt key32 (AES256ECBEncrypt key32 buf16) = buf16 := by
  set t : AESBlock × KeySchedule := (.get buf16, .get key32) with ht
  have hstart : (AESBlock.get (AES256ECBEncrypt key32 buf16),
      KeySchedule.expandKey^[7] (.get key32)) = decState t 14 := by
    have hsched := encRounds_schedule t 14
    rw [decState, hsched, AES256ECBEncrypt, AESBlock.get_toBytes, ← ht, hsched]
    rfl
  have hend := decRounds_decState t (n := 14) le_rfl
  rw [AES256ECBDecrypt, hstart, hend]
  have hzero : decState t (14 - 14) = (t.1 ^^^ t.2.roundKey 0, t.2) := rfl
  rw [hzero]
  dsimp only
  rw [AESBlock.xor_xor_cancel, ht, AESBlock.toBytes_get h]

-- the example vector of FIPS 197
example : AES256ECBEncrypt ((List.range 32).map UInt8.ofNat)
    ((List.range 16).map fun i => UInt8.ofNat (17 * i)) =
      [0x8e, 0xa2, 0xb7, 0xca, 0x51, 0x67, 0x45, 0xbf, 0xea, 0xfc, 0x49, 0x90, 0x4b, 0x49, 0x60,
        0x89] := by decide +kernel

end RavenWallet
