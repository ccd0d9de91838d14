/-
  The buffers of the base58 codec (BRBase58.c).

  `base58StringIn` and `base58BytesIn` are the encoder and the decoder that fail if a
  number does not fit in 32 bits, or if digits do not fit in the scratch buffer; they
  never do (`base58StringIn_eq`, `base58BytesIn_eq`).  A size is `none` for `NULL`.
-/
import RavenWallet.Core.Base58

namespace RavenWallet

/-- The base58 digits of `data`; fails on an overflow. -/
def base58StringIn (data : Bytes) : Option Bytes := do
  let zeroes := data.takeWhile fun b => b = 0
  let rest := data.dropWhile fun b => b = 0
  let buf ← (rest.map UInt8.toNat).foldlM (mulAddIn (2 ^ 32) 256 58)
    (List.replicate (rest.length * 138 / 100 + 1) 0)
  let digits := buf.dropWhile fun d => d = 0
  some (List.replicate zeroes.length 49 ++ digits.map fun d => base58chars.getD d 0)

/-- Reads digits into `buf` up to the first invalid one; fails on an overflow. -/
def base58DigitsIn (buf : List ℕ) : Bytes → Option (List ℕ)
  | [] => some buf
  | c :: cs => match base58Digit c with
    | none => some buf
    | some d => do
      let buf ← mulAddIn (2 ^ 32) 58 256 buf d
      base58DigitsIn buf cs

/-- The bytes with the base58 digits `str`; fails on an overflow. -/
def base58BytesIn (str : Bytes) : Option Bytes := do
  let zeroes := str.takeWhile fun c => c = 49
  let rest := str.dropWhile fun c => c = 49
  let buf ← base58DigitsIn (List.replicate (rest.length * 733 / 1000 + 1) 0) rest
  let bytes := buf.dropWhile fun d => d = 0
  some (List.replicate zeroes.length 0 ++ bytes.map UInt8.ofNat)

/-- What `BRBase58Encode` returns. -/
def base58EncodeSize (strLen : Option ℕ) (data : Bytes) : ℕ :=
  let len := (base58String data).length + 1
  if strLen.all fun strLen => len ≤ strLen then len else 0

/-- What `BRBase58Decode` returns. -/
def base58DecodeSize (dataLen : Option ℕ) (str : Bytes) : ℕ :=
  let len := (base58Bytes str).length
  if dataLen.all fun dataLen => len ≤ dataLen then len else 0

/-- The digits are converted in a buffer of so many digits that has room for them. -/
theorem foldlM_zeros {mul base n : ℕ} (hb : 0 < base) (hlimit : base * mul ≤ 2 ^ 32) {xs : List ℕ}
    (hxs : ∀ x ∈ xs, x < mul) (h : value mul xs < base ^ n) :
    xs.foldlM (mulAddIn (2 ^ 32) mul base) (List.replicate n 0) =
      some (xs.foldl (mulAdd mul base) (List.replicate n 0)) := by
  refine foldlM_mulAddIn hb hlimit hxs ?_ ?_
  · intro d hd
    rw [List.eq_of_mem_replicate hd]
    exact hb
  · rwa [value_zeros, Nat.zero_mul, Nat.zero_add, List.length_replicate]

theorem base58StringIn_eq (data : Bytes) : base58StringIn data = some (base58String data) := by
  set rest := data.dropWhile fun b => b = 0 with hrest
  have hbytes : ∀ d ∈ rest.map UInt8.toNat, d < 256 := (digits_toNat rest).1
  have hlt := value_lt (by decide) hbytes
  rw [List.length_map] at hlt
  have hroom : value 256 (rest.map UInt8.toNat) < 58 ^ (rest.length * 138 / 100 + 1) :=
    lt_of_lt_of_le hlt (pow_le_pow_ratio _ (by decide) (by decide) (by decide +kernel))
  have hfold := foldlM_zeros (by decide) (by decide) hbytes hroom
  simp only [base58StringIn, ← hrest, hfold, Option.bind_eq_bind, Option.bind_some, base58String,
    List.foldl_map]

theorem base58DigitsIn_chars {ds : List ℕ} (h : ∀ d ∈ ds, d < 58) {buf : List ℕ} {u : Bytes}
    (hu : ∀ c, u.head? = some c → base58Digit c = none) :
    base58DigitsIn buf ((ds.map fun d => base58chars.getD d 0) ++ u) =
      ds.foldlM (mulAddIn (2 ^ 32) 58 256) buf := by
  induction ds generalizing buf with
  | nil =>
    cases u with
    | nil => rfl
    | cons c u =>
      rw [List.map_nil, List.nil_append, base58DigitsIn, hu c rfl, List.foldlM_nil]
      rfl
  | cons d ds ih =>
    obtain ⟨hd, hds⟩ := List.forall_mem_cons.1 h
    rw [List.map_cons, List.cons_append, base58DigitsIn, base58Digit_chars d hd, List.foldlM_cons]
    exact Option.bind_congr fun buf _ => ih hds

/-- A string starts with digits, up to the first character that is none. -/
theorem digits_split (s : Bytes) : ∃ (ds : List ℕ) (u : Bytes), (∀ d ∈ ds, d < 58) ∧
    s = (ds.map fun d => base58chars.getD d 0) ++ u ∧
      ∀ c, u.head? = some c → base58Digit c = none := by
  obtain ⟨ds, hds, htake⟩ := exists_digits (s := s.takeWhile fun c => (base58Digit c).isSome) (by
    intro c hc
    have hall : (s.takeWhile fun c => (base58Digit c).isSome).all
        (fun c => (base58Digit c).isSome) := List.all_takeWhile
    exact List.all_eq_true.1 hall c hc)
  refine ⟨ds, s.dropWhile fun c => (base58Digit c).isSome, hds, ?_, ?_⟩
  · rw [← htake, List.takeWhile_append_dropWhile]
  · intro c hc
    have hnot := List.head?_dropWhile_not (fun c => (base58Digit c).isSome) s
    rw [hc] at hnot
    simpa using hnot

theorem base58BytesIn_eq (str : Bytes) : base58BytesIn str = some (base58Bytes str) := by
  set rest := str.dropWhile fun c => c = 49 with hrest
  set n := rest.length * 733 / 1000 + 1 with hn
  obtain ⟨ds, u, hds, hsplit, hu⟩ := digits_split rest
  have hlen : ds.length * 733 / 1000 + 1 ≤ n := by
    rw [hn, hsplit, List.length_append, List.length_map]
    omega
  have hroom : value 58 ds < 256 ^ n :=
    lt_of_lt_of_le (value_lt (by decide) hds)
      ((pow_le_pow_ratio _ (by decide) (by decide) (by decide +kernel)).trans
        (Nat.pow_le_pow_right (by decide) hlen))
  have hin : base58DigitsIn (List.replicate n 0) rest =
      some (base58Digits (List.replicate n 0) rest) := by
    rw [hsplit, base58DigitsIn_chars hds hu, base58Digits_chars hds _ hu]
    exact foldlM_zeros (by decide) (by decide) hds hroom
  simp only [base58BytesIn, ← hrest, ← hn, hin, Option.bind_eq_bind, Option.bind_some, base58Bytes]

/-- Decoding what was encoded gives it back, if the buffers have the sizes that the passes with
    `NULL` return, or more; no scratch buffer overflows. -/
theorem base58_roundTrip (data : Bytes) :
    base58StringIn data = some (base58String data) ∧
    (∀ str, base58BytesIn str = some (base58Bytes str)) ∧
    (∀ m, base58EncodeSize none data =
        (base58Encode (base58EncodeSize none data + m) data).length + 1 ∧
      base58EncodeSize (some (base58EncodeSize none data + m)) data = base58EncodeSize none data) ∧
    (∀ str m, base58DecodeSize none str =
        (base58Decode (base58DecodeSize none str + m) str).length ∧
      base58DecodeSize (some (base58DecodeSize none str + m)) str = base58DecodeSize none str) ∧
    ∀ m n, base58Decode (base58DecodeSize none (base58String data) + n)
      (base58Encode (base58EncodeSize none data + m) data) = data := by
  have hencode : ∀ m, base58Encode (base58EncodeSize none data + m) data = base58String data :=
    fun m => if_pos (Nat.le_add_right _ m)
  have hdecode : ∀ str m, base58Decode (base58DecodeSize none str + m) str = base58Bytes str :=
    fun str m => if_pos (Nat.le_add_right _ m)
  refine ⟨base58StringIn_eq data, base58BytesIn_eq, ?_, ?_, ?_⟩
  · intro m
    rw [hencode]
    exact ⟨rfl, if_pos (decide_eq_true (Nat.le_add_right _ m))⟩
  · intro str m
    rw [hdecode]
    exact ⟨rfl, if_pos (decide_eq_true (Nat.le_add_right _ m))⟩
  · intro m n
    rw [hencode, hdecode, base58Bytes_base58String]

end RavenWallet
