/-
  Variable-length integers in memory (`BRVarInt`, `BRVarIntSet` and `BRVarIntSize` of
  BRAddress.c, `appendVarInt` of Extensions.swift).

  A buffer is NULL, or the `bufLen` bytes that may be accessed: a read or a write beyond
  them has no result, and neither has what traps.

  * `varIntSet_eq` and `varInt_eq`: what is written and what is read;
  * `appendVarInt_eq`: the integers that are appended to data, and those that trap;
  * `varInt_iff`: the integers on which the functions agree.
-/
import RavenWallet.Core.Script
import RavenWallet.Lib.Checked

namespace RavenWallet

def VAR_INT16_HEADER : UInt8 := 0xfd
def VAR_INT32_HEADER : UInt8 := 0xfe
def VAR_INT64_HEADER : UInt8 := 0xff

namespace BRVarInt

/-! ## The functions -/

/-- The first byte. -/
def header (buf : Option Bytes) (bufLen : ℕ) : Option UInt8 :=
  match buf with
  | some mem => if 1 ≤ bufLen then mem[0]? else some 0
  | none => some 0

/-- A number of `n` bytes behind the first one, and the length of the integer. -/
def wide (buf : Option Bytes) (bufLen n : ℕ) : Option (ℕ × ℕ) := do
  let r ← match buf with
    | some mem => if 1 + n ≤ bufLen then getLE mem 1 n else some 0
    | none => some 0
  some (r, 1 + n)

/-- `BRVarInt`, with the length that it stores. -/
def varInt (buf : Option Bytes) (bufLen : ℕ) : Option (ℕ × ℕ) := do
  let h ← header buf bufLen
  if h = VAR_INT16_HEADER then wide buf bufLen 2
  else if h = VAR_INT32_HEADER then wide buf bufLen 4
  else if h = VAR_INT64_HEADER then wide buf bufLen 8
  else some (h.toNat, 1)

/-- A branch of `BRVarIntSet`, which writes `size` bytes: the buffer, and what is returned. -/
def setPieces (buf : Option Bytes) (bufLen size : ℕ) (pieces : List Bytes) :
    Option (Option Bytes × ℕ) := do
  let buf' ← match buf with
    | some mem =>
      if size ≤ bufLen then (pokeAll mem 0 pieces).map fun written => some written.1
      else some (some mem)
    | none => some none
  some (buf', if buf = none ∨ size ≤ bufLen then size else 0)

/-- `BRVarIntSet` -/
def varIntSet (buf : Option Bytes) (bufLen : ℕ) (i : UInt64) : Option (Option Bytes × ℕ) :=
  if i < 0xfd then setPieces buf bufLen 1 [[i.toUInt8]]
  else if i ≤ 0xffff then
    setPieces buf bufLen (1 + 2) [[VAR_INT16_HEADER], toLE 2 i.toUInt16.toNat]
  else if i ≤ 0xffffffff then
    setPieces buf bufLen (1 + 4) [[VAR_INT32_HEADER], toLE 4 i.toUInt32.toNat]
  else setPieces buf bufLen (1 + 8) [[VAR_INT64_HEADER], toLE 8 i.toNat]

/-- `BRVarIntSize` -/
def varIntSize (i : UInt64) : Option ℕ := (varIntSet none 0 i).map Prod.snd

/-- `appendVarInt`.  The two bounds are of the types `Int32` and `UInt32`, and the integer is
    converted to these. -/
def appendVarInt (data : Bytes) (i : UInt64) : Option Bytes :=
  if i < 0xfd then do
    let payload ← convert 0xff i.toNat
    some (data ++ [UInt8.ofNat payload])
  else do
    let i32 ← convert (2 ^ 31 - 1) i.toNat
    if i32 ≤ 0xffff then do
      let payload ← convert 0xffff i.toNat
      some (data ++ [VAR_INT16_HEADER] ++ toLE 2 payload)
    else do
      let u32 ← convert (2 ^ 32 - 1) i.toNat
      if u32 ≤ 0xffffffff then do
        let payload ← convert (2 ^ 32 - 1) i.toNat
        some (data ++ [VAR_INT32_HEADER] ++ toLE 4 payload)
      else some (data ++ [VAR_INT64_HEADER] ++ toLE 8 i.toNat)

/-! ## Writing -/

/-- The pieces of an integer, one behind the other, and how long they are. -/
theorem varIntSet_pieces (i : UInt64) :
    ∃ pieces : List Bytes, pieces.flatten = varIntBytes i.toNat ∧
      ∀ buf bufLen, varIntSet buf bufLen i =
        setPieces buf bufLen (RavenWallet.varIntSize i.toNat) pieces := by
  have hsmall : i < 0xfd ↔ i.toNat < 0xfd := UInt64.lt_iff_toNat_lt
  have hmiddle : i ≤ 0xffff ↔ i.toNat ≤ 0xffff := UInt64.le_iff_toNat_le
  have hlarge : i ≤ 0xffffffff ↔ i.toNat ≤ 0xffffffff := UInt64.le_iff_toNat_le
  simp only [varIntSet, RavenWallet.varIntSize, varIntBytes, hsmall, hmiddle, hlarge]
  split_ifs with h₁ h₂ h₃
  · exact ⟨_, rfl, fun _ _ => rfl⟩
  · have hcast : i.toUInt16.toNat = i.toNat := by
      rw [UInt64.toNat_toUInt16]
      omega
    exact ⟨_, by rw [hcast]; rfl, fun _ _ => rfl⟩
  · have hcast : i.toUInt32.toNat = i.toNat := by
      rw [UInt64.toNat_toUInt32]
      omega
    exact ⟨_, by rw [hcast]; rfl, fun _ _ => rfl⟩
  · exact ⟨_, rfl, fun _ _ => rfl⟩

theorem varIntSize_eq (i : UInt64) : varIntSize i = some (RavenWallet.varIntSize i.toNat) := by
  obtain ⟨pieces, -, hset⟩ := varIntSet_pieces i
  rw [varIntSize, hset]
  rfl

/-- **What is written**: the encoding at the start of a buffer with room for it, else nothing. -/
theorem varIntSet_eq (mem : Bytes) (i : UInt64) :
    varIntSet (some mem) mem.length i =
      some (if RavenWallet.varIntSize i.toNat ≤ mem.length then
        (some (varIntBytes i.toNat ++ mem.drop (RavenWallet.varIntSize i.toNat)),
          RavenWallet.varIntSize i.toNat)
      else (some mem, 0)) := by
  obtain ⟨pieces, hpieces, hset⟩ := varIntSet_pieces i
  have hlen : pieces.flatten.length = RavenWallet.varIntSize i.toNat := by
    rw [hpieces, length_varIntBytes]
  rw [hset, setPieces]
  by_cases hroom : RavenWallet.varIntSize i.toNat ≤ mem.length
  · have hwritten : pokeAll mem 0 pieces =
        some (varIntBytes i.toNat ++ mem.drop (RavenWallet.varIntSize i.toNat),
          RavenWallet.varIntSize i.toNat) := by
      have h := @pokeAll_written _ mem [] pieces (by rw [hlen]; simpa using hroom)
      simpa only [List.nil_append, List.length_nil, List.drop_zero, hpieces,
        length_varIntBytes] using h
    simp [hroom, hwritten]
  · simp [hroom]

/-! ## Reading -/

theorem wide_eq (mem : Bytes) (n : ℕ) :
    wide (some mem) mem.length n =
      some (if 1 + n ≤ mem.length then ofLE ((mem.drop 1).take n) else 0, 1 + n) := by
  rw [wide]
  split_ifs with h
  · simp [getLE_of_le h]
  · rfl

/-- **What is read**: no byte is accessed beyond the buffer. -/
theorem varInt_eq (mem : Bytes) :
    varInt (some mem) mem.length = some (RavenWallet.varInt mem) := by
  have hfirst : header (some mem) mem.length = some (mem.headD 0) := by
    cases mem with
    | nil => rfl
    | cons b mem => simp [header]
  rw [varInt, hfirst, Option.bind_eq_bind, Option.bind_some, wide_eq, wide_eq, wide_eq,
    RavenWallet.varInt]
  generalize mem.headD 0 = h
  by_cases h₁ : h = VAR_INT16_HEADER
  · rw [if_pos h₁, if_pos (show h = 0xfd from h₁)]
  have h₁' : ¬ h = 0xfd := h₁
  by_cases h₂ : h = VAR_INT32_HEADER
  · rw [if_neg h₁, if_neg h₁', if_pos h₂, if_pos (show h = 0xfe from h₂)]
  have h₂' : ¬ h = 0xfe := h₂
  by_cases h₃ : h = VAR_INT64_HEADER
  · rw [if_neg h₁, if_neg h₁', if_neg h₂, if_neg h₂', if_pos h₃,
      if_pos (show h = 0xff from h₃)]
  · rw [if_neg h₁, if_neg h₁', if_neg h₂, if_neg h₂', if_neg h₃,
      if_neg (show ¬ h = 0xff from h₃)]

/-! ## Appending to data -/

/-- **What is appended**: the encoding, but the conversion to `Int32` traps from `2 ^ 31` on. -/
theorem appendVarInt_eq (data : Bytes) (i : UInt64) :
    appendVarInt data i =
      if i.toNat < 2 ^ 31 then some (data ++ varIntBytes i.toNat) else none := by
  have hsmall : i < 0xfd ↔ i.toNat < 0xfd := UInt64.lt_iff_toNat_lt
  rw [appendVarInt, varIntBytes]
  by_cases h₁ : i.toNat < 0xfd
  · rw [if_pos (hsmall.2 h₁), if_pos (by omega), if_pos h₁, convert_of_le (by omega)]
    rfl
  rw [if_neg fun h => h₁ (hsmall.1 h), if_neg h₁]
  by_cases htrap : i.toNat < 2 ^ 31
  · rw [if_pos htrap, convert_of_le (by omega : i.toNat ≤ 2 ^ 31 - 1), Option.bind_eq_bind,
      Option.bind_some]
    by_cases h₂ : i.toNat ≤ 0xffff
    · rw [if_pos h₂, if_pos h₂, convert_of_le h₂]
      simp [VAR_INT16_HEADER]
    · rw [if_neg h₂, if_neg h₂, convert_of_le (by omega : i.toNat ≤ 2 ^ 32 - 1),
        Option.bind_some, if_pos (by omega), if_pos (by omega)]
      simp [VAR_INT32_HEADER]
  · rw [if_neg htrap, convert_of_lt (by omega)]
    rfl

/-! ## The functions together -/

/-- **The integers on which the functions agree** are those below `2 ^ 31`. -/
theorem varInt_iff (v : UInt64) :
    (∃ bytes : Bytes, varIntSize v = some bytes.length ∧
      (∀ mem : Bytes, bytes.length ≤ mem.length → varIntSet (some mem) mem.length v =
        some (some (bytes ++ mem.drop bytes.length), bytes.length)) ∧
      (∀ mem : Bytes, mem.length < bytes.length →
        varIntSet (some mem) mem.length v = some (some mem, 0)) ∧
      (∀ rest : Bytes, varInt (some (bytes ++ rest)) (bytes ++ rest).length =
        some (v.toNat, bytes.length)) ∧
      (∀ mem : Bytes, (varInt (some mem) mem.length).isSome) ∧
      ∀ data : Bytes, appendVarInt data v = some (data ++ bytes)) ↔ v.toNat < 2 ^ 31 := by
  constructor
  · rintro ⟨bytes, -, -, -, -, -, happend⟩
    by_contra htrap
    have h := happend []
    rw [appendVarInt_eq, if_neg htrap] at h
    cases h
  · intro htrap
    have hlen := length_varIntBytes v.toNat
    refine ⟨varIntBytes v.toNat, by rw [varIntSize_eq, hlen], fun mem hroom => ?_,
      fun mem hshort => ?_, fun rest => ?_, fun mem => ?_, fun data => ?_⟩
    · rw [hlen] at hroom
      rw [varIntSet_eq, if_pos hroom, hlen]
    · rw [hlen] at hshort
      rw [varIntSet_eq, if_neg (Nat.not_le.2 hshort)]
    · rw [varInt_eq, varInt_varIntBytes v.toNat_lt, hlen]
    · rw [varInt_eq]
      rfl
    · rw [appendVarInt_eq, if_pos htrap]

/-- The integer `2 ^ 31` is written, but not appended. -/
theorem not_varInt :
    varIntSet (some (List.replicate 5 0)) 5 0x80000000 =
        some (some [0xfe, 0, 0, 0, 0x80], 5) ∧
      appendVarInt [] 0x80000000 = none := by
  decide

end BRVarInt

end RavenWallet
