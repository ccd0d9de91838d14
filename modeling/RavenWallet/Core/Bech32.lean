/-
  Bech32 addresses (BRBech32.c).

  The characters behind the last `1` are digits of five bits: the version, the bits of the
  program, and a checksum of six.  Writing outside of a buffer is an error of its own.

  * `addDigits_eq_one_iff`: the checksum is right for six digits only;
  * `encodeGroups_spec`: the digits of the program have its bits;
  * `HoldsDigits.put`: and so have the bytes that the decoder makes of them.
-/
import Mathlib.Tactic.Ring
import RavenWallet.Lib.Remainder
import RavenWallet.Keys.Phrases

namespace RavenWallet

def OP_0 : UInt8 := 0x00
def OP_1 : UInt8 := 0x51

def bech32chars : Bytes :=
  "qpzry9x8gf2tvdw0s3jn54khce6mua7l".toList.map fun c => UInt8.ofNat c.toNat

/-- The generator for one bit of the remainder, if it is set. -/
def polyTerm (x bit generator : UInt32) : UInt32 := -((x >>> bit) &&& 1) &&& generator

def polymod (x : UInt32) : UInt32 :=
  ((x &&& 0x1ffffff) <<< 5) ^^^ polyTerm x 25 0x3b6a57b2 ^^^ polyTerm x 26 0x26508e6d ^^^
    polyTerm x 27 0x1ea119fa ^^^ polyTerm x 28 0x3d4233dd ^^^ polyTerm x 29 0x2a1462b3

def isUpper (c : UInt8) : Bool := 65 ≤ c ∧ c ≤ 90
def isLower (c : UInt8) : Bool := 97 ≤ c ∧ c ≤ 122
def toLower (c : UInt8) : UInt8 := if isUpper c then c + 32 else c

/-- A character that `char` counts as printable. -/
def isPrintable (c : UInt8) : Bool := 33 ≤ c ∧ c ≤ 126

/-- Adds digits to the checksum. -/
def addDigits (chk : UInt32) (ds : List ℕ) : UInt32 :=
  ds.foldl (fun chk d => polymod chk ^^^ UInt32.ofNat d) chk

/-! ## Encoding -/

/-- The digits that the encoder writes at its `j`-th byte. -/
def groupsAt (prog : Bytes) (len j : ℕ) : List ℕ :=
  let a := if j = 0 then 0 else (prog.getD (j - 1) 0).toNat
  let b := if j < len then (prog.getD j 0).toNat else 0
  let x := (j % 5) * 8 - ((j % 5) * 8 / 5) * 5
  let c := ((a <<< (5 - x)) ||| (b >>> (3 + x))) &&& 0x1f
  (if j < len ∨ j % 5 > 0 then [c] else []) ++
    if x ≥ 2 ∧ j < len then [(b >>> (x - 2)) &&& 0x1f] else []

/-- The digits of the program. -/
def encodeGroups (prog : Bytes) (len : ℕ) : List ℕ :=
  (List.range (len + 1)).flatMap (groupsAt prog len)

/-- The last six digits. -/
def checksumDigits (chk : UInt32) : List ℕ :=
  (List.range 6).map fun j => ((chk >>> UInt32.ofNat ((5 - j) * 5)) &&& 0x1f).toNat

/-- The checksum of the human-readable part: the high bits of its characters, and the low ones. -/
def hrpChecksum (high low : Bytes) : UInt32 :=
  addDigits (polymod (addDigits 1 (high.map fun c : UInt8 => (c >>> 5).toNat)))
    (low.map fun c : UInt8 => (c &&& 0x1f).toNat)

/-- `BRBech32Encode`: the characters before the NUL, or `none` if there are none. -/
def bech32Encode (hrp data : Bytes) : Option Bytes :=
  let op := data.getD 0 0
  let ver := if op ≥ OP_1 then (op + 1 - OP_1).toNat else 0
  let len := (data.getD 1 0).toNat
  if hrp.length > 84 ∨ hrp.any (fun c => !isPrintable c || isUpper c) then none
  else if op > OP_0 ∧ op < OP_1 then none
  else if ver > 16 ∨ len < 2 ∨ len > 40 ∨ hrp.length + 1 + 1 + len + 6 ≥ 91 then none
  else
    let groups := encodeGroups (data.drop 2) len
    let chk := addDigits (hrpChecksum hrp hrp) (ver :: groups)
    let chk := (polymod^[6] chk) ^^^ 1
    some (hrp ++ 49 :: (ver :: (groups ++ checksumDigits chk)).map fun d => bech32chars.getD d 0)

/-! ## Decoding -/

/-- Why there is no result: the string is not valid, or a buffer is too small. -/
inductive Bech32Error where
  | invalid
  | outOfBounds
  deriving DecidableEq, Repr

/-- `buf[i] |= b`. -/
def orAt (buf : Bytes) (i : ℕ) (b : UInt8) : Except Bech32Error Bytes :=
  match buf[i]? with
  | some a => .ok (buf.set i (a ||| b))
  | none => .error .outOfBounds

/-- Puts the `j`-th digit of the program into the buffer. -/
def putGroup (buf : Bytes) (j c : ℕ) : Except Bech32Error Bytes := do
  let x := (j % 8) * 5 - ((j % 8) * 5 / 8) * 8
  let k := (j / 8) * 5 + (j % 8) * 5 / 8
  let buf ← orAt buf k (UInt8.ofNat ((c <<< 3) >>> x))
  if x > 3 then orAt buf (k + 1) (UInt8.ofNat (c <<< (11 - x))) else .ok buf

/-- The digit of a character, in lower or upper case. -/
def bech32Digit (c : UInt8) : Option ℕ := bech32chars.findIdx? fun d => d = toLower c

/-- The last `1` at or before `sep`, or 0. -/
def findSep (addr : Bytes) : ℕ → ℕ
  | 0 => 0
  | sep + 1 => if addr.getD (sep + 1) 0 = 49 then sep + 1 else findSep addr sep

structure Bech32State where
  chk : UInt32
  ver : ℕ := 0xff
  buf : Bytes := List.replicate 52 0

/-- The loop over the characters behind the separator, of which `t` are done and `n` are of the
    program. -/
def readDigits (n : ℕ) : ℕ → Bytes → Bech32State → Except Bech32Error Bech32State
  | _, [], s => .ok s
  | t, ch :: rest, s =>
    match bech32Digit ch with
    | none => .error .invalid
    | some c =>
      let s := { s with chk := polymod s.chk ^^^ UInt32.ofNat c }
      match t with
      | 0 => readDigits n 1 rest { s with ver := c }
      | j + 1 =>
        if j ≥ n then readDigits n (j + 2) rest s
        else do
          let buf ← putGroup s.buf j c
          readDigits n (j + 2) rest { s with buf }

/-- `BRBech32Decode`: the human-readable part and the data. -/
def bech32Decode (addr : Bytes) : Except Bech32Error (Bytes × Bytes) :=
  let sep := findSep addr addr.length
  let hrp := addr.take sep
  if addr.any (fun c => !isPrintable c) then .error .invalid
  else if addr.length < 8 ∨ addr.length > 90 ∨ sep < 1 ∨ sep + 2 + 6 > addr.length ∨
      (addr.any isUpper ∧ addr.any isLower) then .error .invalid
  else do
    let s ← readDigits (addr.length - (sep + 2 + 6)) 0 (addr.drop (sep + 1))
      { chk := hrpChecksum (hrp.map toLower) hrp }
    let bufLen := (addr.length - (sep + 2 + 6)) * 5 / 8
    if s.chk ≠ 1 ∨ s.ver > 16 ∨ bufLen < 2 ∨ bufLen > 40 then .error .invalid
    -- the buffers `hrp84`, `buf` and `data42`
    else if sep + 1 > 84 ∨ bufLen > s.buf.length ∨ 2 + bufLen > 42 then .error .outOfBounds
    else
      .ok (hrp.map toLower, (if s.ver = 0 then OP_0 else UInt8.ofNat s.ver + OP_1 - 1) ::
        UInt8.ofNat bufLen :: s.buf.take bufLen)

/-! ## The checksum -/

theorem addDigits_append (chk : UInt32) (ds es : List ℕ) :
    addDigits chk (ds ++ es) = addDigits (addDigits chk ds) es :=
  List.foldl_append

theorem and_xor_distrib (a b c : UInt32) : (a ^^^ b) &&& c = (a &&& c) ^^^ (b &&& c) := by
  rw [← UInt32.toNat_inj, UInt32.toNat_and, UInt32.toNat_xor, UInt32.toNat_xor, UInt32.toNat_and,
    UInt32.toNat_and, Nat.and_xor_distrib_right]

theorem low_bit (a : UInt32) : a &&& 1 = 0 ∨ a &&& 1 = 1 := by
  rw [← UInt32.toNat_inj, ← UInt32.toNat_inj, UInt32.toNat_and]
  have h : a.toNat &&& UInt32.toNat 1 = a.toNat % 2 := Nat.and_one_is_mod _
  rw [h]
  exact Nat.mod_two_eq_zero_or_one _

theorem polyTerm_xor (a b bit generator : UInt32) :
    polyTerm (a ^^^ b) bit generator = polyTerm a bit generator ^^^ polyTerm b bit generator := by
  rw [polyTerm, polyTerm, polyTerm, UInt32.shiftRight_xor, and_xor_distrib]
  rcases low_bit (a >>> bit) with ha | ha <;> rcases low_bit (b >>> bit) with hb | hb <;>
    rw [ha, hb] <;> simp

theorem polymod_xor (a b : UInt32) : polymod (a ^^^ b) = polymod a ^^^ polymod b := by
  rw [polymod, polymod, polymod, and_xor_distrib, UInt32.shiftLeft_xor]
  simp only [polyTerm_xor]
  ac_rfl

theorem polyTerm_small {n : ℕ} (hn : n < 2 ^ 25) {bit : UInt32} (hbit : 25 ≤ bit.toNat)
    (hbit' : bit.toNat < 32) (generator : UInt32) :
    polyTerm (UInt32.ofNat n) bit generator = 0 := by
  have hsize : n < UInt32.size := hn.trans (by decide)
  have hzero : UInt32.ofNat n >>> bit = 0 := by
    rw [← UInt32.toNat_inj, UInt32.toNat_shiftRight, UInt32.toNat_ofNat_of_lt' hsize,
      Nat.mod_eq_of_lt hbit']
    exact Nat.shiftRight_eq_zero _ _ (hn.trans_le (Nat.pow_le_pow_right (by decide) hbit))
  rw [polyTerm, hzero]
  simp

theorem polymod_small {n : ℕ} (hn : n < 2 ^ 25) :
    polymod (UInt32.ofNat n) = UInt32.ofNat (n * 2 ^ 5) := by
  have hsize : n < UInt32.size := hn.trans (by decide)
  have hsize' : n * 2 ^ 5 < UInt32.size := lt_of_lt_of_le
    (Nat.mul_lt_mul_of_pos_right hn (by decide)) (by decide)
  have hlow : UInt32.ofNat n &&& 0x1ffffff = UInt32.ofNat n := by
    rw [← UInt32.toNat_inj, UInt32.toNat_and, UInt32.toNat_ofNat_of_lt' hsize]
    exact (Nat.and_two_pow_sub_one_eq_mod n 25).trans (Nat.mod_eq_of_lt hn)
  have hshift : UInt32.ofNat n <<< 5 = UInt32.ofNat (n * 2 ^ 5) := by
    rw [← UInt32.toNat_inj, UInt32.toNat_shiftLeft, UInt32.toNat_ofNat_of_lt' hsize,
      UInt32.toNat_ofNat_of_lt' hsize', Nat.shiftLeft_eq]
    exact Nat.mod_eq_of_lt hsize'
  rw [polymod, hlow, hshift]
  simp [polyTerm_small hn]

theorem polyTerm_lt {bit generator : UInt32} (hg : generator.toNat < 2 ^ 30) (a : UInt32) :
    (polyTerm a bit generator).toNat < 2 ^ 30 := by
  rw [polyTerm, UInt32.toNat_and]
  exact Nat.and_le_right.trans_lt hg

theorem polymod_lt (a : UInt32) : (polymod a).toNat < 2 ^ 30 := by
  have hshift : ((a &&& 0x1ffffff) <<< 5).toNat < 2 ^ 30 := by
    have hlow : (a &&& 0x1ffffff).toNat ≤ 0x1ffffff := by
      rw [UInt32.toNat_and]
      exact Nat.and_le_right
    rw [UInt32.toNat_shiftLeft, Nat.shiftLeft_eq]
    exact (Nat.mod_le _ _).trans_lt (lt_of_le_of_lt (Nat.mul_le_mul_right _ hlow) (by decide))
  rw [polymod]
  simp only [UInt32.toNat_xor]
  refine Nat.xor_lt_two_pow (Nat.xor_lt_two_pow (Nat.xor_lt_two_pow (Nat.xor_lt_two_pow
    (Nat.xor_lt_two_pow hshift ?_) ?_) ?_) ?_) ?_
  all_goals exact polyTerm_lt (by decide) a

theorem digitWidth_pos : 0 < 5 := by decide

/-- The shift of the checksum: a remainder of six digits. -/
def polymodShift : RemainderShift 5 6 where
  shift := polymod
  xor := polymod_xor
  small _ hn := polymod_small hn
  width_pos := digitWidth_pos

theorem checksumDigits_eq (chk : UInt32) : checksumDigits chk =
    [chk.toNat / 2 ^ 25 % 32, chk.toNat / 2 ^ 20 % 32, chk.toNat / 2 ^ 15 % 32,
      chk.toNat / 2 ^ 10 % 32, chk.toNat / 2 ^ 5 % 32, chk.toNat % 32] := by
  have hdigit : ∀ s : UInt32,
      ((chk >>> s) &&& 0x1f).toNat = chk.toNat / 2 ^ (s.toNat % 32) % 32 := by
    intro s
    rw [UInt32.toNat_and, UInt32.toNat_shiftRight, Nat.shiftRight_eq_div_pow]
    exact Nat.and_two_pow_sub_one_eq_mod _ 5
  simp only [checksumDigits, hdigit, List.range, List.range.loop, List.map]
  simp

/-- The checksum has six digits, and they are those that make the sum 1. -/
theorem addDigits_eq_one_iff {chk : UInt32} {ds : List ℕ} (hlen : ds.length = 6)
    (hds : ∀ d ∈ ds, d < 32) :
    addDigits chk ds = 1 ↔ ds = checksumDigits ((polymod^[6] chk) ^^^ 1) := by
  have hlt : ((polymod^[6] chk) ^^^ 1).toNat < 2 ^ 30 := by
    rw [Function.iterate_succ_apply', UInt32.toNat_xor]
    exact Nat.xor_lt_two_pow (polymod_lt _) (by decide)
  have hiff : addDigits chk ds = 1 ↔
      UInt32.ofNat (value (2 ^ 5) ds) = (polymod^[6] chk) ^^^ 1 :=
    polymodShift.sum_eq_iff hlen hds
  rw [hiff, checksumDigits_eq]
  generalize (polymod^[6] chk) ^^^ 1 = t at hlt ⊢
  obtain ⟨d₀, d₁, d₂, d₃, d₄, d₅, rfl⟩ : ∃ d₀ d₁ d₂ d₃ d₄ d₅, ds = [d₀, d₁, d₂, d₃, d₄, d₅] := by
    match ds, hlen with
    | [d₀, d₁, d₂, d₃, d₄, d₅], _ => exact ⟨_, _, _, _, _, _, rfl⟩
  simp only [List.forall_mem_cons] at hds
  have hvalue : value (2 ^ 5) [d₀, d₁, d₂, d₃, d₄, d₅] =
      d₀ * 2 ^ 25 + (d₁ * 2 ^ 20 + (d₂ * 2 ^ 15 + (d₃ * 2 ^ 10 + (d₄ * 2 ^ 5 + d₅)))) := by
    simp only [value_cons, value_nil, List.length_cons, List.length_nil]
    ring
  have hsize : value (2 ^ 5) [d₀, d₁, d₂, d₃, d₄, d₅] < UInt32.size := by
    rw [hvalue]
    show _ < 2 ^ 32
    omega
  rw [← UInt32.toNat_inj, UInt32.toNat_ofNat_of_lt' hsize, hvalue]
  simp only [List.cons.injEq, and_true]
  omega

/-! ## The digits of a program -/

section
variable {prog : Bytes} {len j n : ℕ}

theorem bitAt_of_ge {w : ℕ} {ds : List ℕ} (hw : 0 < w) (hn : w * ds.length ≤ n) :
    bitAt w ds n = false := by
  have hk : ds.length ≤ n / w := (Nat.le_div_iff_mul_le hw).2 (by rwa [Nat.mul_comm])
  rw [bitAt, List.getD_eq_getElem?_getD, List.getElem?_eq_none hk, Option.getD_none,
    Nat.zero_testBit]

theorem byteBit_of_ge (hn : 8 * prog.length ≤ n) : byteBit prog n = false :=
  bitAt_of_ge (by decide) (by rwa [List.length_map])

variable (prog) in
/-- The digit that starts `x` bits before the `j`-th byte. -/
theorem testBit_straddle {x t : ℕ} (hx : x < 5) (hj : x ≤ 8 * j) (ht : t < 5) :
    ((((if j = 0 then 0 else (prog.getD (j - 1) 0).toNat) <<< (5 - x)) |||
      ((prog.getD j 0).toNat >>> (3 + x))) &&& 0x1f).testBit (4 - t) =
        byteBit prog (8 * j - x + t) := by
  have hmask : (0x1f : ℕ).testBit (4 - t) = true := by
    have h : (0x1f : ℕ) = 2 ^ 5 - 1 := rfl
    rw [h, Nat.testBit_two_pow_sub_one, decide_eq_true (by omega)]
  have hbyte : ∀ k, (prog.getD k 0).toNat < 256 := fun k => UInt8.toNat_lt _
  rw [Nat.testBit_and, hmask, Bool.and_true, Nat.testBit_or, Nat.testBit_shiftLeft,
    Nat.testBit_shiftRight, byteBit_eq]
  by_cases htx : t < x
  · have hdiv : (8 * j - x + t) / 8 = j - 1 := by omega
    have hmod : (8 * j - x + t) % 8 = 8 - x + t := by omega
    have hhigh : (prog.getD j 0).toNat.testBit (3 + x + (4 - t)) = false :=
      Nat.testBit_lt_two_pow ((hbyte j).trans_le (Nat.pow_le_pow_right (by decide : 2 > 0)
        (by omega : 8 ≤ 3 + x + (4 - t))))
    have hsub : 4 - t - (5 - x) = 7 - (8 - x + t) := by omega
    rw [hdiv, hmod, hhigh, Bool.or_false, if_neg (by omega), decide_eq_true (by omega),
      Bool.true_and, hsub]
  · have hdiv : (8 * j - x + t) / 8 = j := by omega
    have hmod : (8 * j - x + t) % 8 = t - x := by omega
    have hsum : 3 + x + (4 - t) = 7 - (t - x) := by omega
    rw [hdiv, hmod, decide_eq_false (by omega), Bool.false_and, Bool.false_or, hsum]

/-- The digit inside of the `j`-th byte. -/
theorem testBit_inside {x t : ℕ} (hx : x < 5) (hx' : 2 ≤ x) (hj : x ≤ 8 * j) (ht : t < 5) :
    (((prog.getD j 0).toNat >>> (x - 2)) &&& 0x1f).testBit (4 - t) =
      byteBit prog (8 * j - x + (5 + t)) := by
  have hmask : (0x1f : ℕ).testBit (4 - t) = true := by
    have h : (0x1f : ℕ) = 2 ^ 5 - 1 := rfl
    rw [h, Nat.testBit_two_pow_sub_one, decide_eq_true (by omega)]
  have hdiv : (8 * j - x + (5 + t)) / 8 = j := by omega
  have hmod : (8 * j - x + (5 + t)) % 8 = 5 + t - x := by omega
  have hsum : x - 2 + (4 - t) = 7 - (5 + t - x) := by omega
  rw [Nat.testBit_and, hmask, Bool.and_true, Nat.testBit_shiftRight, byteBit_eq, hdiv, hmod, hsum]

/-- The digits that are written at a byte: their number, and their bits. -/
theorem groupsAt_spec (hlen : prog.length = len) (hj : j ≤ len) :
    (groupsAt prog len j).length =
        (if j < len then 8 * (j + 1) / 5 else (8 * len + 4) / 5) - 8 * j / 5 ∧
      (∀ d ∈ groupsAt prog len j, d < 32) ∧
      ∀ n < 5 * (groupsAt prog len j).length,
        bitAt 5 (groupsAt prog len j) n = byteBit prog (5 * (8 * j / 5) + n) := by
  set x := (j % 5) * 8 - ((j % 5) * 8 / 5) * 5 with hx
  have hx5 : x < 5 := by omega
  have hstart : 5 * (8 * j / 5) = 8 * j - x := by omega
  have hxj : x ≤ 8 * j := by omega
  have hb : (if j < len then (prog.getD j 0).toNat else 0) = (prog.getD j 0).toNat := by
    split_ifs with h
    · rfl
    · rw [List.getD_eq_getElem?_getD, List.getElem?_eq_none (by omega)]
      rfl
  have hc := fun t (ht : t < 5) => testBit_straddle prog hx5 hxj ht
  have hlt : ∀ m : ℕ, m &&& 0x1f < 32 := fun m => Nat.and_le_right.trans_lt (by decide)
  rw [groupsAt]
  simp only [← hx, hb]
  set c := (((if j = 0 then 0 else (prog.getD (j - 1) 0).toNat) <<< (5 - x)) |||
      ((prog.getD j 0).toNat >>> (3 + x))) &&& 0x1f with hcdef
  by_cases h₁ : j < len ∨ j % 5 > 0
  · rw [if_pos h₁]
    by_cases h₂ : x ≥ 2 ∧ j < len
    · rw [if_pos h₂, if_pos h₂.2]
      refine ⟨?_, ?_, fun n hn => ?_⟩
      · rw [List.length_append, List.length_singleton, List.length_singleton]
        omega
      · simp [hlt, hcdef]
      · by_cases hn5 : n < 5
        · rw [List.singleton_append, bitAt_cons_lt hn5, hc n hn5, hstart]
        · obtain ⟨m, rfl⟩ := Nat.exists_eq_add_of_le (Nat.le_of_not_lt hn5)
          have hm : m < 5 := by
            rw [List.length_append, List.length_singleton, List.length_singleton] at hn
            omega
          rw [List.singleton_append, bitAt_cons_add (by decide), bitAt_cons_lt hm, hstart]
          exact testBit_inside hx5 h₂.1 hxj hm
    · rw [if_neg h₂, List.append_nil]
      refine ⟨?_, ?_, fun n hn => ?_⟩
      · rw [List.length_singleton]
        split_ifs <;> omega
      · simp [hlt, hcdef]
      · rw [List.length_singleton] at hn
        rw [bitAt_cons_lt (by omega), hc n (by omega), hstart]
  · rw [if_neg h₁, if_neg (by omega), if_neg (by omega)]
    refine ⟨?_, nofun, fun n hn => absurd hn (by simp)⟩
    rw [List.length_append]
    show 0 = _
    omega

theorem bitAt_groups_append {as bs : List ℕ}
    (ha : ∀ n < 5 * as.length, bitAt 5 as n = byteBit prog n)
    (hb : ∀ n < 5 * bs.length, bitAt 5 bs n = byteBit prog (5 * as.length + n)) :
    ∀ n < 5 * (as ++ bs).length, bitAt 5 (as ++ bs) n = byteBit prog n := by
  intro n hn
  by_cases hna : n < 5 * as.length
  · rw [bitAt_append_left (by decide) hna, ha n hna]
  · obtain ⟨m, rfl⟩ := Nat.exists_eq_add_of_le (Nat.le_of_not_lt hna)
    rw [List.length_append] at hn
    rw [bitAt_append_right (by decide), hb m (by omega)]

/-- The digits of the bytes before the `j`-th one. -/
theorem flatMap_groupsAt (hlen : prog.length = len) (hj : j ≤ len) :
    ((List.range j).flatMap (groupsAt prog len)).length = 8 * j / 5 ∧
      (∀ d ∈ (List.range j).flatMap (groupsAt prog len), d < 32) ∧
      ∀ n < 5 * ((List.range j).flatMap (groupsAt prog len)).length,
        bitAt 5 ((List.range j).flatMap (groupsAt prog len)) n = byteBit prog n := by
  induction j with
  | zero => exact ⟨rfl, nofun, fun n hn => absurd hn (by simp)⟩
  | succ j ih =>
    obtain ⟨hcount, hlt, hbits⟩ := ih (by omega)
    obtain ⟨hcount', hlt', hbits'⟩ := groupsAt_spec hlen (Nat.le_of_succ_le hj)
    rw [if_pos (by omega)] at hcount'
    rw [List.range_succ, List.flatMap_append, List.flatMap_singleton]
    refine ⟨?_, List.forall_mem_append.2 ⟨hlt, hlt'⟩, bitAt_groups_append hbits ?_⟩
    · rw [List.length_append, hcount, hcount']
      omega
    · rwa [hcount]

/-- The digits of the program have its bits. -/
theorem encodeGroups_spec (hlen : prog.length = len) :
    (encodeGroups prog len).length = (8 * len + 4) / 5 ∧ (∀ d ∈ encodeGroups prog len, d < 32) ∧
      ∀ n, bitAt 5 (encodeGroups prog len) n = byteBit prog n := by
  obtain ⟨hcount, hlt, hbits⟩ := flatMap_groupsAt (j := len) hlen le_rfl
  obtain ⟨hcount', hlt', hbits'⟩ := groupsAt_spec hlen (le_refl len)
  rw [if_neg (by omega)] at hcount'
  rw [encodeGroups, List.range_succ, List.flatMap_append, List.flatMap_singleton]
  have hlength : ((List.range len).flatMap (groupsAt prog len) ++ groupsAt prog len len).length =
      (8 * len + 4) / 5 := by
    rw [List.length_append, hcount, hcount']
    omega
  rw [← hcount] at hbits'
  have hall := bitAt_groups_append hbits hbits'
  refine ⟨hlength, List.forall_mem_append.2 ⟨hlt, hlt'⟩, fun n => ?_⟩
  rw [hlength] at hall
  by_cases hn : n < 5 * ((8 * len + 4) / 5)
  · exact hall n hn
  · rw [bitAt_of_ge (by decide) (by rw [hlength]; omega), byteBit_of_ge (by omega)]

/-! ## The buffer of the decoder -/

theorem orAt_spec {buf : Bytes} {i : ℕ} (hi : i < buf.length) (b : UInt8) :
    ∃ buf', orAt buf i b = .ok buf' ∧ buf'.length = buf.length ∧
      ∀ n, byteBit buf' n =
        (byteBit buf n || (decide (n / 8 = i) && b.toNat.testBit (7 - n % 8))) := by
  refine ⟨buf.set i (buf[i] ||| b), ?_, List.length_set, fun n => ?_⟩
  · rw [orAt, List.getElem?_eq_getElem hi]
  · rw [byteBit_eq, byteBit_eq, List.getD_eq_getElem?_getD, List.getD_eq_getElem?_getD,
      List.getElem?_set]
    by_cases hn : i = n / 8
    · subst hn
      rw [if_pos rfl, if_pos hi, Option.getD_some, List.getElem?_eq_getElem hi, Option.getD_some,
        UInt8.toNat_or, Nat.testBit_or, decide_eq_true rfl, Bool.true_and]
    · rw [if_neg hn, decide_eq_false (Ne.symm hn), Bool.false_and, Bool.or_false]

/-- The digit is put behind the others. -/
theorem putGroup_spec (buf : Bytes) (j : ℕ) {c : ℕ} (hc : c < 32)
    (hj : 5 * j + 5 ≤ 8 * buf.length) :
    ∃ buf', putGroup buf j c = .ok buf' ∧ buf'.length = buf.length ∧
      ∀ n, byteBit buf' n = (byteBit buf n ||
        (decide (5 * j ≤ n ∧ n < 5 * j + 5) && c.testBit (4 - (n - 5 * j)))) := by
  set x := (j % 8) * 5 - ((j % 8) * 5 / 8) * 8 with hx
  set k := (j / 8) * 5 + (j % 8) * 5 / 8 with hk
  have hpos : 5 * j = 8 * k + x := by omega
  have hx8 : x < 8 := by omega
  have hbig : ∀ i, 5 ≤ i → c.testBit i = false := fun i hi =>
    Nat.testBit_lt_two_pow (hc.trans_le (Nat.pow_le_pow_right (by decide : 2 > 0) hi))
  -- the part of the digit in the first byte, and the part in the next one
  have hfirst : ∀ n, n / 8 = k → (UInt8.ofNat ((c <<< 3) >>> x)).toNat.testBit (7 - n % 8) =
      (decide (5 * j ≤ n ∧ n < 5 * j + 5) && c.testBit (4 - (n - 5 * j))) := by
    intro n hn
    rw [UInt8.toNat_ofNat', Nat.testBit_mod_two_pow, Nat.testBit_shiftRight, Nat.testBit_shiftLeft,
      decide_eq_true (by omega), Bool.true_and]
    by_cases hlow : 5 * j ≤ n
    · by_cases hhigh : n < 5 * j + 5
      · have hsub : x + (7 - n % 8) - 3 = 4 - (n - 5 * j) := by omega
        rw [decide_eq_true (by omega), decide_eq_true ⟨hlow, hhigh⟩, hsub]
      · rw [decide_eq_false (by omega), decide_eq_false (by omega), Bool.false_and, Bool.false_and]
    · rw [hbig _ (by omega), Bool.and_false, decide_eq_false (by omega), Bool.false_and]
  have hsecond : ∀ n, n / 8 = k + 1 → 3 < x →
      (UInt8.ofNat (c <<< (11 - x))).toNat.testBit (7 - n % 8) =
        (decide (5 * j ≤ n ∧ n < 5 * j + 5) && c.testBit (4 - (n - 5 * j))) := by
    intro n hn hx3
    rw [UInt8.toNat_ofNat', Nat.testBit_mod_two_pow, Nat.testBit_shiftLeft,
      decide_eq_true (by omega), Bool.true_and]
    by_cases hhigh : n < 5 * j + 5
    · have hsub : 7 - n % 8 - (11 - x) = 4 - (n - 5 * j) := by omega
      rw [decide_eq_true (by omega), decide_eq_true ⟨by omega, hhigh⟩, hsub]
    · rw [decide_eq_false (by omega), decide_eq_false (by omega), Bool.false_and, Bool.false_and]
  obtain ⟨buf₁, heq₁, hlen₁, hbits₁⟩ := orAt_spec (by omega : k < buf.length)
    (UInt8.ofNat ((c <<< 3) >>> x))
  rw [putGroup]
  simp only [← hx, ← hk, heq₁, bind, Except.bind]
  by_cases hx3 : x > 3
  · rw [if_pos hx3]
    obtain ⟨buf₂, heq₂, hlen₂, hbits₂⟩ := orAt_spec (by omega : k + 1 < buf₁.length)
      (UInt8.ofNat (c <<< (11 - x)))
    refine ⟨buf₂, heq₂, hlen₂.trans hlen₁, fun n => ?_⟩
    rw [hbits₂, hbits₁, Bool.or_assoc]
    congr 1
    by_cases hk₁ : n / 8 = k
    · rw [decide_eq_true hk₁, decide_eq_false (by omega), hfirst n hk₁, Bool.true_and,
        Bool.false_and, Bool.or_false]
    · rw [decide_eq_false hk₁, Bool.false_and, Bool.false_or]
      by_cases hk₂ : n / 8 = k + 1
      · rw [decide_eq_true hk₂, hsecond n hk₂ hx3, Bool.true_and]
      · rw [decide_eq_false hk₂, decide_eq_false (by omega), Bool.false_and, Bool.false_and]
  · rw [if_neg hx3]
    refine ⟨buf₁, rfl, hlen₁, fun n => ?_⟩
    rw [hbits₁]
    congr 1
    by_cases hk₁ : n / 8 = k
    · rw [decide_eq_true hk₁, hfirst n hk₁, Bool.true_and]
    · rw [decide_eq_false hk₁, decide_eq_false (by omega), Bool.false_and, Bool.false_and]

/-- The bits of the buffer are those of the digits, and zeros. -/
structure HoldsDigits (buf : Bytes) (ds : List ℕ) : Prop where
  length : buf.length = 52
  bits : ∀ n, byteBit buf n = bitAt 5 ds n

theorem bitAt_concat (ds : List ℕ) (c n : ℕ) : bitAt 5 (ds ++ [c]) n =
    (bitAt 5 ds n || (decide (5 * ds.length ≤ n ∧ n < 5 * ds.length + 5) &&
      c.testBit (4 - (n - 5 * ds.length)))) := by
  by_cases hlow : n < 5 * ds.length
  · rw [bitAt_append_left (by decide) hlow, decide_eq_false (by omega), Bool.false_and,
      Bool.or_false]
  · obtain ⟨m, rfl⟩ := Nat.exists_eq_add_of_le (Nat.le_of_not_lt hlow)
    rw [bitAt_append_right (by decide), bitAt_of_ge (by decide) (Nat.le_add_right _ m),
      Bool.false_or, Nat.add_sub_cancel_left]
    by_cases hm : m < 5
    · rw [bitAt_cons_lt hm, decide_eq_true (by omega), Bool.true_and]
    · rw [bitAt_of_ge (by decide) (by simpa using hm), decide_eq_false (by omega), Bool.false_and]

theorem HoldsDigits.put {buf : Bytes} {ds : List ℕ} {c : ℕ} (h : HoldsDigits buf ds) (hc : c < 32)
    (hlen : ds.length < 83) :
    ∃ buf', putGroup buf ds.length c = .ok buf' ∧ HoldsDigits buf' (ds ++ [c]) := by
  obtain ⟨buf', heq, hlen', hbits⟩ := putGroup_spec buf ds.length hc (by
    rw [h.length]
    omega)
  refine ⟨buf', heq, hlen'.trans h.length, fun n => ?_⟩
  rw [hbits, h.bits, bitAt_concat]

end
end RavenWallet
