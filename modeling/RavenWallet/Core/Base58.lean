/-
  Base58 and Base58Check (BRBase58.c).

  Strings are the bytes before the terminating NUL.  The encoder and the decoder
  keep the big-endian digits of a number in a buffer of fixed size; `mulAdd` is
  their common inner loop.  The hash functions are parameters.

  * `base58Bytes_append`: decoding what was encoded gives it back, whatever follows
    it;
  * `base58String_base58Bytes`: encoding what was decoded gives it back, if all
    characters are digits;
  * `base58CheckDecode_encode`: the first also with a checksum, if the buffers are
    large enough.
-/
import Mathlib.Tactic.NormNum
import Mathlib.Tactic.SplitIfs
import RavenWallet.Lib.Radix
import RavenWallet.Core.Types

namespace RavenWallet

/-- The hash functions, of which only the lengths of the digests matter. -/
structure Hashes where
  /-- `SHA256_2` -/
  sha256_2 : Bytes → Bytes
  /-- `Hash160` -/
  hash160 : Bytes → Bytes
  length_sha256_2 : ∀ data, (sha256_2 data).length = 32
  length_hash160 : ∀ data, (hash160 data).length = 20

def base58chars : Bytes :=
  "123456789ABCDEFGHJKLMNPQRSTUVWXYZabcdefghijkmnopqrstuvwxyz".toList.map fun c =>
    UInt8.ofNat c.toNat

/-- The base58 digits of `data`. -/
def base58String (data : Bytes) : Bytes :=
  let zeroes := data.takeWhile fun b => b = 0
  let rest := data.dropWhile fun b => b = 0
  let buf := rest.foldl (fun buf b => mulAdd 256 58 buf b.toNat)
    (List.replicate (rest.length * 138 / 100 + 1) 0)
  let digits := buf.dropWhile fun d => d = 0
  List.replicate zeroes.length 49 ++ digits.map fun d => base58chars.getD d 0

/-- `BRBase58Encode` into a buffer of `strLen` characters. -/
def base58Encode (strLen : ℕ) (data : Bytes) : Bytes :=
  if (base58String data).length + 1 ≤ strLen then base58String data else []

/-- The value of a base58 digit; `none` if it is invalid. -/
def base58Digit (c : UInt8) : Option ℕ :=
  let c := c.toNat
  if '1'.toNat ≤ c ∧ c ≤ '9'.toNat then some (c - '1'.toNat)
  else if 'A'.toNat ≤ c ∧ c ≤ 'H'.toNat then some (c + 9 - 'A'.toNat)
  else if 'J'.toNat ≤ c ∧ c ≤ 'N'.toNat then some (c + 17 - 'J'.toNat)
  else if 'P'.toNat ≤ c ∧ c ≤ 'Z'.toNat then some (c + 22 - 'P'.toNat)
  else if 'a'.toNat ≤ c ∧ c ≤ 'k'.toNat then some (c + 33 - 'a'.toNat)
  else if 'm'.toNat ≤ c ∧ c ≤ 'z'.toNat then some (c + 44 - 'm'.toNat)
  else none

/-- Reads digits into `buf` up to the first invalid one. -/
def base58Digits (buf : List ℕ) : Bytes → List ℕ
  | [] => buf
  | c :: cs => match base58Digit c with
    | none => buf
    | some d => base58Digits (mulAdd 58 256 buf d) cs

/-- The bytes with the base58 digits `str`. -/
def base58Bytes (str : Bytes) : Bytes :=
  let zeroes := str.takeWhile fun c => c = 49
  let rest := str.dropWhile fun c => c = 49
  let buf := base58Digits (List.replicate (rest.length * 733 / 1000 + 1) 0) rest
  let bytes := buf.dropWhile fun d => d = 0
  List.replicate zeroes.length 0 ++ bytes.map UInt8.ofNat

/-- `BRBase58Decode` into a buffer of `dataLen` bytes. -/
def base58Decode (dataLen : ℕ) (str : Bytes) : Bytes :=
  if (base58Bytes str).length ≤ dataLen then base58Bytes str else []

/-! ## Round trip -/

theorem base58Digit_chars : ∀ d < 58, base58Digit (base58chars.getD d 0) = some d := by
  decide

theorem base58chars_eq_one_iff : ∀ d < 58, base58chars.getD d 0 = 49 ↔ d = 0 := by
  decide

/-- Every digit has one character. -/
theorem base58chars_digit {c : UInt8} {d : ℕ} (h : base58Digit c = some d) :
    d < 58 ∧ base58chars.getD d 0 = c := by
  have hall : ∀ n < 256, (base58Digit (UInt8.ofNat n)).all (fun d =>
      decide (d < 58) && base58chars.getD d 0 == UInt8.ofNat n) = true := by decide +kernel
  have hc := hall c.toNat c.toNat_lt
  rw [UInt8.ofNat_toNat, h] at hc
  simpa using hc

/-- A string over the alphabet is made of the characters of its digits. -/
theorem exists_digits : ∀ {s : Bytes}, (∀ c ∈ s, (base58Digit c).isSome) →
    ∃ ds : List ℕ, (∀ d ∈ ds, d < 58) ∧ s = ds.map fun d => base58chars.getD d 0
  | [], _ => ⟨[], by simp, rfl⟩
  | c :: s, h => by
    obtain ⟨d, hd⟩ := Option.isSome_iff_exists.1 (h c List.mem_cons_self)
    obtain ⟨hlt, hc⟩ := base58chars_digit hd
    obtain ⟨ds, hds, rfl⟩ := exists_digits fun c' hc' => h c' (List.mem_cons_of_mem _ hc')
    refine ⟨d :: ds, ?_, by rw [List.map_cons, hc]⟩
    intro x hx
    rcases List.mem_cons.1 hx with rfl | hx
    · exact hlt
    · exact hds x hx

/-- On valid digits the decoder is the inner loop folded over their values; it ends at the first
    invalid one. -/
theorem base58Digits_chars {ds : List ℕ} (h : ∀ d ∈ ds, d < 58) (buf : List ℕ) {u : Bytes}
    (hu : ∀ c, u.head? = some c → base58Digit c = none) :
    base58Digits buf ((ds.map fun d => base58chars.getD d 0) ++ u) =
      ds.foldl (mulAdd 58 256) buf := by
  induction ds generalizing buf with
  | nil =>
    cases u with
    | nil => rfl
    | cons c u => rw [List.map_nil, List.nil_append, base58Digits, hu c rfl, List.foldl_nil]
  | cons d ds ih =>
    rw [List.map_cons, List.cons_append, base58Digits, base58Digit_chars d (h d (by simp))]
    exact ih (fun x hx => h x (by simp [hx])) _

/-- The digits of a string: those of the number with the bytes behind the leading zeros. -/
theorem base58String_digits (data : Bytes) : ∃ digits : List ℕ,
    base58String data = List.replicate (data.takeWhile fun b => b = 0).length 49 ++
      digits.map (fun d => base58chars.getD d 0) ∧
    (∀ d ∈ digits, d < 58) ∧ digits.head? ≠ some 0 ∧
    value 58 digits = value 256 ((data.dropWhile fun b => b = 0).map UInt8.toNat) := by
  set rest := data.dropWhile fun b => b = 0 with hrest
  have hbytes : ∀ d ∈ rest.map UInt8.toNat, d < 256 := by
    intro d hd
    obtain ⟨b, -, rfl⟩ := List.mem_map.1 hd
    exact b.toNat_lt
  have hroom : value 256 (rest.map UInt8.toNat) < 58 ^ (rest.length * 138 / 100 + 1) := by
    have hlt := value_lt (by decide) hbytes
    rw [List.length_map] at hlt
    exact lt_of_lt_of_le hlt (pow_le_pow_ratio _ (by decide) (by decide) (by norm_num))
  have hfold := value_foldl_zeros (by decide) (by decide) hroom
  rw [List.foldl_map] at hfold
  refine ⟨_, rfl, fun d hd => hfold.2 d ((List.dropWhile_sublist _).subset hd), head?_dropWhile, ?_⟩
  rw [value_dropWhile, hfold.1]

/-- The bytes of a string of digits are those of the same number, whatever follows the digits. -/
theorem base58Bytes_digits {digits : List ℕ} (hd : ∀ d ∈ digits, d < 58)
    (h0 : digits.head? ≠ some 0) (z : ℕ) {u : Bytes}
    (hu : ∀ c, u.head? = some c → base58Digit c = none) : ∃ bytes : List ℕ,
    base58Bytes (List.replicate z 49 ++ ((digits.map fun d => base58chars.getD d 0) ++ u)) =
      List.replicate z 0 ++ bytes.map UInt8.ofNat ∧
    (∀ b ∈ bytes, b < 256) ∧ bytes.head? ≠ some 0 ∧ value 256 bytes = value 58 digits := by
  have hhead : ∀ c, ((digits.map fun d => base58chars.getD d 0) ++ u).head? = some c → c ≠ 49 := by
    intro c hc h49
    rcases digits with _ | ⟨d, ds⟩
    · exact absurd (hu c hc) (by rw [h49]; decide)
    · rw [List.map_cons, List.cons_append, List.head?_cons, Option.some.injEq] at hc
      have hzero := (base58chars_eq_one_iff d (hd d (by simp))).1 (hc.trans h49)
      exact h0 (by rw [hzero]; rfl)
  obtain ⟨htake, hdrop⟩ := span_replicate (n := z) hhead
  set n := ((digits.map fun d => base58chars.getD d 0) ++ u).length * 733 / 1000 + 1 with hn
  have hlen : digits.length * 733 / 1000 + 1 ≤ n := by
    rw [hn, List.length_append, List.length_map]
    omega
  have hroom : value 58 digits < 256 ^ n :=
    lt_of_lt_of_le (value_lt (by decide) hd)
      ((pow_le_pow_ratio _ (by decide) (by decide) (by decide +kernel)).trans
        (Nat.pow_le_pow_right (by decide) hlen))
  have hfold := value_foldl_zeros (by decide) (by decide) hroom
  refine ⟨(digits.foldl (mulAdd 58 256) (List.replicate n 0)).dropWhile fun d => d = 0, ?_,
    fun d hd => hfold.2 d ((List.dropWhile_sublist _).subset hd), head?_dropWhile, ?_⟩
  · unfold base58Bytes
    simp only [htake, hdrop, List.length_replicate, base58Digits_chars hd _ hu, ← hn]
  · rw [value_dropWhile, hfold.1]

/-- The numbers of bytes that do not start with a zero. -/
theorem digits_toNat (data : Bytes) :
    (∀ d ∈ data.map UInt8.toNat, d < 256) ∧
      ((data.dropWhile fun b => b = 0).map UInt8.toNat).head? ≠ some 0 := by
  constructor
  · intro d hd
    obtain ⟨b, -, rfl⟩ := List.mem_map.1 hd
    exact b.toNat_lt
  · intro h
    have hmem := List.head?_dropWhile_not (fun b => decide (b = (0 : UInt8))) data
    rw [List.head?_map] at h
    obtain ⟨b, hb, hz⟩ := Option.map_eq_some_iff.1 h
    rw [hb] at hmem
    exact (of_decide_eq_false hmem) (UInt8.toNat_inj.1 hz)

/-- Decoding what was encoded gives it back, whatever follows it. -/
theorem base58Bytes_append (data : Bytes) {u : Bytes}
    (hu : ∀ c, u.head? = some c → base58Digit c = none) :
    base58Bytes (base58String data ++ u) = data := by
  obtain ⟨digits, hstr, hd, h0, hval⟩ := base58String_digits data
  obtain ⟨bytes, hbytes, hb, hb0, hval'⟩ :=
    base58Bytes_digits hd h0 (data.takeWhile fun b => b = 0).length hu
  have hrest : bytes = (data.dropWhile fun b => b = 0).map UInt8.toNat :=
    value_injective (by decide) hb hb0 (digits_toNat _).1 (digits_toNat data).2 (hval'.trans hval)
  rw [hstr, List.append_assoc, hbytes, hrest, List.map_map]
  have hid : (UInt8.ofNat ∘ UInt8.toNat) = id := funext fun b => UInt8.ofNat_toNat
  rw [hid, List.map_id, replicate_takeWhile]

theorem base58Bytes_base58String (data : Bytes) : base58Bytes (base58String data) = data := by
  have h := base58Bytes_append data (u := []) (fun c hc => absurd hc (by simp))
  rwa [List.append_nil] at h

/-- Encoding what was decoded gives it back, if all characters are digits. -/
theorem base58String_base58Bytes {s : Bytes} (h : ∀ c ∈ s, (base58Digit c).isSome) :
    base58String (base58Bytes s) = s := by
  obtain ⟨ds, hds, hrest⟩ := exists_digits fun c hc =>
    h c ((List.dropWhile_sublist fun c => decide (c = 49)).subset hc)
  have hd0 : ds.head? ≠ some 0 := by
    intro h0
    have hnot := List.head?_dropWhile_not (fun c => decide (c = (49 : UInt8))) s
    rw [hrest, List.head?_map, h0] at hnot
    simp only [Option.map_some] at hnot
    exact absurd hnot (by decide)
  set z := (s.takeWhile fun c => c = 49).length with hz
  have hs : s = List.replicate z 49 ++ (ds.map fun d => base58chars.getD d 0) := by
    rw [← hrest, hz, replicate_takeWhile]
  obtain ⟨bytes, hbytes, hb, hb0, hval⟩ :=
    base58Bytes_digits hds hd0 z (u := []) (fun c hc => absurd hc (by simp))
  rw [List.append_nil, ← hs] at hbytes
  obtain ⟨digits, hstr, hd, h0, hval'⟩ := base58String_digits (base58Bytes s)
  have hhead : ∀ b, (bytes.map UInt8.ofNat).head? = some b → b ≠ 0 := by
    intro b hb' hzero
    rw [List.head?_map] at hb'
    obtain ⟨d, hd', rfl⟩ := Option.map_eq_some_iff.1 hb'
    have hlt := hb d (List.mem_of_head? hd')
    have hd0 : d = 0 := by
      have hnat := congrArg UInt8.toNat hzero
      rwa [UInt8.toNat_ofNat', Nat.mod_eq_of_lt hlt] at hnat
    exact hb0 (by rw [hd', hd0])
  obtain ⟨htake, hdrop⟩ := span_replicate (n := z) hhead
  have hbytesNat : (bytes.map UInt8.ofNat).map UInt8.toNat = bytes := by
    rw [List.map_map]
    refine (List.map_congr_left fun d hd => ?_).trans (List.map_id _)
    exact (UInt8.toNat_ofNat').trans (Nat.mod_eq_of_lt (hb d hd))
  rw [hbytes, hdrop, hbytesNat] at hval'
  have hdigits : digits = ds := value_injective (by decide) hd h0 hds hd0 (hval'.trans hval)
  rw [hstr, hbytes, htake, List.length_replicate, hdigits, ← hs]

variable (H : Hashes)

/-- `BRBase58CheckEncode`. -/
def base58CheckEncode (strLen : ℕ) (data : Bytes) : Bytes :=
  base58Encode strLen (data ++ (H.sha256_2 data).take 4)

/-- `BRBase58CheckDecode`; empty if the checksum is wrong. -/
def base58CheckDecode (dataLen : ℕ) (str : Bytes) : Bytes :=
  let buf := base58Decode str.length str
  if buf.length ≥ 4 then
    let data := buf.take (buf.length - 4)
    if buf.drop (buf.length - 4) = (H.sha256_2 data).take 4 ∧ data.length ≤ dataLen then data
    else []
  else []

/-- The digits of bytes that do not start with a zero. -/
theorem length_base58String {b : UInt8} (data : Bytes) (hb : b ≠ 0) :
    data.length + 1 ≤ (base58String (b :: data)).length ∧
      (base58String (b :: data)).length ≤ (data.length + 1) * 138 / 100 + 1 := by
  have htake : (b :: data).takeWhile (fun b => b = 0) = [] :=
    List.takeWhile_cons_of_neg (by simpa using hb)
  have hdrop : (b :: data).dropWhile (fun b => b = 0) = b :: data :=
    List.dropWhile_cons_of_neg (by simpa using hb)
  constructor
  · obtain ⟨digits, hstr, hd, -, hval⟩ := base58String_digits (b :: data)
    rw [hdrop, List.map_cons, value_cons, List.length_map] at hval
    have hlen : (base58String (b :: data)).length = digits.length := by
      rw [hstr, htake, List.length_append, List.length_replicate, List.length_nil, Nat.zero_add,
        List.length_map]
    have hpos : 0 < b.toNat := Nat.pos_of_ne_zero fun h => hb (UInt8.toNat_inj.1 h)
    have hlow : 256 ^ data.length ≤ value 58 digits := by
      rw [hval]
      exact le_trans (Nat.le_mul_of_pos_left _ hpos) (Nat.le_add_right _ _)
    have hlt := lt_of_le_of_lt hlow (value_lt (by decide) hd)
    rw [hlen]
    by_contra hshort
    -- fewer digits are not enough for a number of that size
    have hle : 58 ^ digits.length ≤ 256 ^ data.length :=
      (Nat.pow_le_pow_left (by decide) _).trans (Nat.pow_le_pow_right (by decide) (by omega))
    omega
  · have hbuf : ∀ (bytes : Bytes) (buf : List ℕ),
        (bytes.foldl (fun buf b => mulAdd 256 58 buf b.toNat) buf).length = buf.length := by
      intro bytes
      induction bytes with
      | nil => exact fun _ => rfl
      | cons b bytes ih => exact fun buf => (ih _).trans (length_mulAdd buf _ (by decide))
    have hdigits := (List.dropWhile_sublist (fun d => decide (d = 0)) (l := (b :: data).foldl
      (fun buf b => mulAdd 256 58 buf b.toNat)
      (List.replicate ((data.length + 1) * 138 / 100 + 1) 0))).length_le
    rw [hbuf, List.length_replicate] at hdigits
    unfold base58String
    simp only [htake, hdrop, List.length_nil, List.replicate_zero, List.nil_append, List.length_map,
      List.length_cons]
    exact hdigits

/-- What was encoded with a checksum is decoded, if the buffers are large enough. -/
theorem base58CheckDecode_encode {strLen dataLen : ℕ} {b : UInt8} {data : Bytes} (hb : b ≠ 0)
    (hlen : (b :: data).length ≤ dataLen) (hstr : (data.length + 5) * 138 / 100 + 2 ≤ strLen) :
    base58CheckDecode H dataLen (base58CheckEncode H strLen (b :: data)) = b :: data := by
  have hsum : ((H.sha256_2 (b :: data)).take 4).length = 4 :=
    List.length_take_of_le (by rw [H.length_sha256_2]; decide)
  have hsize : (data ++ (H.sha256_2 (b :: data)).take 4).length = data.length + 4 := by
    rw [List.length_append, hsum]
  obtain ⟨hlow, hhigh⟩ := length_base58String (data ++ (H.sha256_2 (b :: data)).take 4) hb
  rw [hsize] at hlow hhigh
  have hencode : base58CheckEncode H strLen (b :: data) =
      base58String (b :: data ++ (H.sha256_2 (b :: data)).take 4) := if_pos (by
    rw [List.cons_append]
    omega)
  have hdecode : base58Decode (base58String (b :: data ++ (H.sha256_2 (b :: data)).take 4)).length
      (base58String (b :: data ++ (H.sha256_2 (b :: data)).take 4)) =
      b :: data ++ (H.sha256_2 (b :: data)).take 4 := by
    rw [base58Decode, base58Bytes_base58String, if_pos]
    rw [List.cons_append, List.length_cons, hsize]
    omega
  have hcut : (b :: data ++ (H.sha256_2 (b :: data)).take 4).length - 4 = (b :: data).length := by
    rw [List.length_append, hsum, Nat.add_sub_cancel]
  rw [base58CheckDecode, hencode, hdecode, hcut]
  dsimp only
  rw [List.take_left, List.drop_left, if_pos (by rw [List.length_append, hsum]; omega),
    if_pos ⟨rfl, hlen⟩]

end RavenWallet
