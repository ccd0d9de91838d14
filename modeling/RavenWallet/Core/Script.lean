/-
  Scripts and the addresses they pay (BRScript.h, BRAddress.c).

  A pointer into a script is the suffix it points to.  A script is a
  concatenation of elements, opcodes and data pushes: `scriptElements_eq`
  reads it element by element, and `fromScriptPubKey_p2pkh` finds the address
  that a script template pays, with or without the three elements of an asset.
-/
import RavenWallet.Lib.Buffer
import RavenWallet.Core.Base58

namespace RavenWallet

def OP_PUSHDATA1 : UInt8 := 0x4c
def OP_PUSHDATA2 : UInt8 := 0x4d
def OP_PUSHDATA4 : UInt8 := 0x4e
def OP_DROP : UInt8 := 0x75
def OP_DUP : UInt8 := 0x76
def OP_EQUAL : UInt8 := 0x87
def OP_EQUALVERIFY : UInt8 := 0x88
def OP_HASH160 : UInt8 := 0xa9
def OP_CHECKSIG : UInt8 := 0xac
def OP_RVN_ASSET : UInt8 := 0xc0

def MAX_SCRIPT_LENGTH : ℕ := 0x100

def RAVENCOIN_PUBKEY_ADDRESS : UInt8 := 60
def RAVENCOIN_SCRIPT_ADDRESS : UInt8 := 122

/-- `sizeof(BRAddress)`. -/
def ADDRESS_SIZE : ℕ := 36

/-! ## Hashes in a buffer -/

/-- `UInt256Get`. -/
def get256 (bs : Bytes) : UInt256 := BitVec.ofNat 256 (ofLE bs)

/-- `UInt256Set`. -/
def set256 (h : UInt256) : Bytes := toLE 32 h.toNat

@[simp] theorem length_set256 (h : UInt256) : (set256 h).length = 32 := length_toLE _ _

theorem get256_set256 (h : UInt256) : get256 (set256 h) = h := by
  have hlt : h.toNat < 256 ^ 32 := lt_of_lt_of_le h.isLt (by decide)
  rw [get256, set256, ofLE_toLE hlt, BitVec.ofNat_toNat, BitVec.setWidth_eq]

/-! ## Variable-length integers -/

/-- The bytes that `BRVarIntSet` writes into a buffer of `bufLen` bytes. -/
def varIntSet (bufLen : ℕ) (i : ℕ) : Bytes :=
  let bytes :=
    if i < 0xfd then [UInt8.ofNat i]
    else if i ≤ 0xffff then 0xfd :: toLE 2 i
    else if i ≤ 0xffffffff then 0xfe :: toLE 4 i
    else 0xff :: toLE 8 i
  if bytes.length ≤ bufLen then bytes else []

/-- `BRVarInt`: the value and the length of the integer at the start of `buf`. -/
def varInt (buf : Bytes) : ℕ × ℕ :=
  let value (n : ℕ) := if 1 + n ≤ buf.length then ofLE ((buf.drop 1).take n) else 0
  let h := buf.headD 0
  if h = 0xfd then (value 2, 3)
  else if h = 0xfe then (value 4, 5)
  else if h = 0xff then (value 8, 9)
  else (h.toNat, 1)

/-- Lengths below 253 take a single byte. -/
theorem varIntSet_small {bufLen i : ℕ} (hb : 0 < bufLen) (hi : i < 0xfd) :
    varIntSet bufLen i = [UInt8.ofNat i] := by
  unfold varIntSet
  rw [if_pos hi]
  exact if_pos hb

theorem varInt_small {i : ℕ} (hi : i < 0xfd) (rest : Bytes) :
    varInt (UInt8.ofNat i :: rest) = (i, 1) := by
  have hn : (UInt8.ofNat i).toNat = i := by
    rw [UInt8.toNat_ofNat']
    omega
  have hne : ∀ h : UInt8, 0xfd ≤ h.toNat → UInt8.ofNat i ≠ h := by
    rintro h hh rfl
    omega
  unfold varInt
  rw [List.headD_cons, if_neg (hne _ (by decide)), if_neg (hne _ (by decide)),
    if_neg (hne _ (by decide)), hn]

/-- The shortest encoding of `i`. -/
def varIntBytes (i : ℕ) : Bytes :=
  if i < 0xfd then [UInt8.ofNat i]
  else if i ≤ 0xffff then 0xfd :: toLE 2 i
  else if i ≤ 0xffffffff then 0xfe :: toLE 4 i
  else 0xff :: toLE 8 i

@[simp] theorem length_varIntBytes (i : ℕ) : (varIntBytes i).length = varIntSize i := by
  unfold varIntBytes varIntSize
  split_ifs <;> simp

theorem At.varInt {buf rest : Bytes} {off n : ℕ} (h : At buf off (varIntBytes n ++ rest)) :
    At buf (off + varIntSize n) rest := by
  have hnext := h.next
  rwa [length_varIntBytes] at hnext

theorem varIntSet_eq {bufLen i : ℕ} (h : varIntSize i ≤ bufLen) :
    varIntSet bufLen i = varIntBytes i := by
  rw [← length_varIntBytes] at h
  exact if_pos h

theorem varIntSize_le (i : ℕ) : varIntSize i ≤ 9 := by
  unfold varIntSize
  split_ifs <;> decide

/-- The shortest encoding is read back. -/
theorem varInt_varIntBytes {i : ℕ} (hi : i < 2 ^ 64) (rest : Bytes) :
    varInt (varIntBytes i ++ rest) = (i, varIntSize i) := by
  unfold varIntBytes varIntSize
  by_cases h₁ : i < 0xfd
  · rw [if_pos h₁, if_pos h₁]
    exact varInt_small h₁ rest
  · rw [if_neg h₁, if_neg h₁]
    by_cases h₂ : i ≤ 0xffff
    · rw [if_pos h₂, if_pos h₂, varInt]
      simp [ofLE_toLE (show i < 256 ^ 2 by omega)]
    · rw [if_neg h₂, if_neg h₂]
      by_cases h₃ : i ≤ 0xffffffff
      · rw [if_pos h₃, if_pos h₃, varInt]
        simp [ofLE_toLE (show i < 256 ^ 4 by omega)]
      · rw [if_neg h₃, if_neg h₃, varInt]
        simp [ofLE_toLE (show i < 256 ^ 8 by omega)]

/-- An integer is marked by its first byte as one of 2, 4 or 8 bytes, or is that byte. -/
theorem varInt_cases (buf : Bytes) :
    (∃ h n, (h, n) ∈ [((0xfd : UInt8), 2), (0xfe, 4), (0xff, 8)] ∧ buf.headD 0 = h ∧
      varInt buf = (if 1 + n ≤ buf.length then ofLE ((buf.drop 1).take n) else 0, 1 + n)) ∨
    (buf.headD 0).toNat < 0xfd ∧ varInt buf = ((buf.headD 0).toNat, 1) := by
  unfold varInt
  by_cases h₁ : buf.headD 0 = 0xfd
  · rw [if_pos h₁]
    exact Or.inl ⟨0xfd, 2, by simp, h₁, rfl⟩
  by_cases h₂ : buf.headD 0 = 0xfe
  · rw [if_neg h₁, if_pos h₂]
    exact Or.inl ⟨0xfe, 4, by simp, h₂, rfl⟩
  by_cases h₃ : buf.headD 0 = 0xff
  · rw [if_neg h₁, if_neg h₂, if_pos h₃]
    exact Or.inl ⟨0xff, 8, by simp, h₃, rfl⟩
  · rw [if_neg h₁, if_neg h₂, if_neg h₃]
    have hlt := (buf.headD 0).toNat_lt
    have hne : ∀ m : UInt8, buf.headD 0 ≠ m → (buf.headD 0).toNat ≠ m.toNat :=
      fun m hm heq => hm (UInt8.toNat_inj.1 heq)
    have n₁ : (buf.headD 0).toNat ≠ 253 := hne _ h₁
    have n₂ : (buf.headD 0).toNat ≠ 254 := hne _ h₂
    have n₃ : (buf.headD 0).toNat ≠ 255 := hne _ h₃
    exact Or.inr ⟨by omega, rfl⟩

/-- The number in `n` bytes behind the first one, if they are there. -/
theorem wide_lt (buf : Bytes) (n : ℕ) :
    (if 1 + n ≤ buf.length then ofLE ((buf.drop 1).take n) else 0) < 256 ^ n := by
  split_ifs with h
  · refine lt_of_lt_of_le (ofLE_lt _) (Nat.pow_le_pow_right (by decide) ?_)
    rw [List.length_take]
    exact Nat.min_le_left _ _
  · exact Nat.pow_pos (by decide)

theorem varInt_fst_lt (buf : Bytes) : (varInt buf).1 < 2 ^ 64 := by
  rcases varInt_cases buf with ⟨h, n, hn, -, hv⟩ | ⟨hlt, hv⟩
  · have hle : n ≤ 8 := by
      simp only [List.mem_cons, Prod.mk.injEq, List.not_mem_nil, or_false] at hn
      omega
    rw [hv]
    exact lt_of_lt_of_le (wide_lt buf n) (Nat.pow_le_pow_right (by decide) hle)
  · rw [hv]
    exact hlt.trans (by decide)

/-- Only in nine bytes are there integers of more than four. -/
theorem varInt_lt_of_short {buf : Bytes} (h : buf.length < 9) : (varInt buf).1 < 2 ^ 32 := by
  rcases varInt_cases buf with ⟨b, n, hn, -, hv⟩ | ⟨hlt, hv⟩
  · rw [hv]
    by_cases hle : n ≤ 4
    · exact lt_of_lt_of_le (wide_lt buf n) (Nat.pow_le_pow_right (by decide) hle)
    · have hshort : ¬ 1 + n ≤ buf.length := by
        simp only [List.mem_cons, Prod.mk.injEq, List.not_mem_nil, or_false] at hn
        omega
      dsimp only
      rw [if_neg hshort]
      decide
  · rw [hv]
    exact hlt.trans (by decide)

/-- An integer other than zero is in the buffer. -/
theorem varInt_fits {buf : Bytes} (h : (varInt buf).1 ≠ 0) : (varInt buf).2 ≤ buf.length := by
  rcases varInt_cases buf with ⟨b, n, -, -, hv⟩ | ⟨-, hv⟩
  · rw [hv] at h ⊢
    exact Nat.le_of_not_lt fun hlt => h (if_neg (Nat.not_le.2 hlt))
  · rw [hv] at h ⊢
    cases buf with
    | nil => exact absurd rfl h
    | cons b buf => exact Nat.succ_le_succ (Nat.zero_le _)

/-- No integer is read in fewer bytes than it needs. -/
theorem varIntSize_le_snd (buf : Bytes) : varIntSize (varInt buf).1 ≤ (varInt buf).2 := by
  rcases varInt_cases buf with ⟨h, n, hn, -, hv⟩ | ⟨hlt, hv⟩
  · rw [hv]
    have hwide := wide_lt buf n
    simp only [List.mem_cons, Prod.mk.injEq, List.not_mem_nil, or_false] at hn
    rcases hn with ⟨-, rfl⟩ | ⟨-, rfl⟩ | ⟨-, rfl⟩
    · generalize hw : (if 1 + 2 ≤ buf.length then _ else 0) = v at hwide ⊢
      unfold varIntSize
      split_ifs <;> omega
    · generalize hw : (if 1 + 4 ≤ buf.length then _ else 0) = v at hwide ⊢
      unfold varIntSize
      split_ifs <;> omega
    · exact varIntSize_le _
  · rw [hv, varIntSize, if_pos hlt]

theorem varIntBytes_wide {h : UInt8} {n i : ℕ}
    (hn : (h, n) ∈ [((0xfd : UInt8), 2), (0xfe, 4), (0xff, 8)]) (hi : varIntSize i = 1 + n) :
    varIntBytes i = h :: toLE n i := by
  simp only [List.mem_cons, Prod.mk.injEq, List.not_mem_nil, or_false] at hn
  unfold varIntSize at hi
  unfold varIntBytes
  rcases hn with ⟨rfl, rfl⟩ | ⟨rfl, rfl⟩ | ⟨rfl, rfl⟩ <;> split_ifs at hi ⊢ <;>
    first | rfl | omega

/-- An integer that is as short as it can be is written as it was read. -/
theorem varIntBytes_varInt {buf : Bytes} (hfits : (varInt buf).2 ≤ buf.length)
    (hmin : (varInt buf).2 = varIntSize (varInt buf).1) :
    varIntBytes (varInt buf).1 ++ buf.drop (varInt buf).2 = buf := by
  cases buf with
  | nil => exact absurd hfits (by decide)
  | cons b buf =>
    rcases varInt_cases (b :: buf) with ⟨h, n, hn, hb, hv⟩ | ⟨hlt, hv⟩
    · rw [hv] at hfits hmin ⊢
      dsimp only at hfits hmin ⊢
      rw [if_pos hfits] at hmin ⊢
      have hlen : (((b :: buf).drop 1).take n).length = n := by
        rw [List.length_cons] at hfits
        exact List.length_take_of_le (by rw [List.drop_one, List.tail_cons]; omega)
      have hbytes : toLE n (ofLE (((b :: buf).drop 1).take n)) = ((b :: buf).drop 1).take n := by
        have := toLE_ofLE (((b :: buf).drop 1).take n)
        rwa [hlen] at this
      rw [varIntBytes_wide hn hmin.symm, hbytes, ← hb, Nat.add_comm 1 n]
      simp
    · rw [hv]
      dsimp only
      rw [varIntBytes, if_pos hlt]
      simp

/-- An integer takes 1, 3, 5 or 9 bytes. -/
theorem varInt_snd (buf : Bytes) : (varInt buf).2 ∈ [1, 3, 5, 9] := by
  unfold varInt
  dsimp only
  split_ifs <;> simp

theorem varInt_snd_pos (buf : Bytes) : 0 < (varInt buf).2 :=
  (by decide : ∀ n ∈ [1, 3, 5, 9], 0 < n) _ (varInt_snd buf)

theorem varInt_snd_le (buf : Bytes) : (varInt buf).2 ≤ 9 :=
  (by decide : ∀ n ∈ [1, 3, 5, 9], n ≤ 9) _ (varInt_snd buf)

/-! ## Elements -/

/-- The number of length bytes and of data bytes of the element with opcode `op`, `rest` being what
    follows the opcode. -/
def elementSize (op : UInt8) (rest : Bytes) : ℕ × ℕ :=
  if op = OP_PUSHDATA1 then (1, ofLE (rest.take 1))
  else if op = OP_PUSHDATA2 then (2, ofLE (rest.take 2))
  else if op = OP_PUSHDATA4 then (4, ofLE (rest.take 4))
  else (0, if op > OP_PUSHDATA4 then 0 else op.toNat)

/-- The elements of a script of at most `fuel` bytes, each as the rest of the script from there on;
    none if the last one does not end with the script. -/
def elements : ℕ → Bytes → Option (List Bytes)
  | _, [] => some []
  | 0, _ :: _ => none
  | fuel + 1, op :: rest => do
    let (n, len) := elementSize op rest
    if n + len ≤ rest.length then
      let elems ← elements fuel (rest.drop (n + len))
      some ((op :: rest) :: elems)
    else none

/-- `BRScriptElements`. -/
def scriptElements (script : Bytes) : List Bytes := (elements script.length script).getD []

/-- `BRScriptData`: the data of a push; `none` if it is empty. -/
def scriptData : Bytes → Option Bytes
  | [] => none
  | op :: rest =>
    let (n, len) := elementSize op rest
    if len > 0 then some ((rest.drop n).take len) else none

/-- `BRScriptPushData`. -/
def scriptPushData (data : Bytes) : Bytes :=
  if data.length < OP_PUSHDATA1.toNat then UInt8.ofNat data.length :: data
  else if data.length < 0xff then OP_PUSHDATA1 :: UInt8.ofNat data.length :: data
  else if data.length < 0xffff then OP_PUSHDATA2 :: (toLE 2 data.length ++ data)
  else OP_PUSHDATA4 :: (toLE 4 data.length ++ data)

/-- Opcodes without data. -/
theorem elementSize_op {op : UInt8} (h : op > OP_PUSHDATA4) (rest : Bytes) :
    elementSize op rest = (0, 0) := by
  have hne : ∀ o : UInt8, o ≤ OP_PUSHDATA4 → op ≠ o := by
    rintro o ho rfl
    exact absurd ho (UInt8.not_le.2 h)
  unfold elementSize
  rw [if_neg (hne _ (by decide)), if_neg (hne _ (by decide)), if_neg (hne _ (by decide)), if_pos h]

/-- Direct pushes of up to 75 bytes. -/
theorem elementSize_push {n : ℕ} (h : n < OP_PUSHDATA1.toNat) (rest : Bytes) :
    elementSize (UInt8.ofNat n) rest = (0, n) := by
  have h75 : n < 76 := h
  have hn : (UInt8.ofNat n).toNat = n := by
    rw [UInt8.toNat_ofNat']
    omega
  have hne : ∀ o : UInt8, 76 ≤ o.toNat → UInt8.ofNat n ≠ o := by
    rintro o ho rfl
    omega
  have hle : ¬ UInt8.ofNat n > OP_PUSHDATA4 := by
    rw [gt_iff_lt, UInt8.lt_iff_toNat_lt, hn]
    have : OP_PUSHDATA4.toNat = 78 := rfl
    omega
  unfold elementSize
  rw [if_neg (hne _ (by decide)), if_neg (hne _ (by decide)), if_neg (hne _ (by decide)),
    if_neg hle, hn]

theorem elements_cons {fuel n len : ℕ} {op : UInt8} {rest : Bytes} {elems : List Bytes}
    (hs : elementSize op rest = (n, len)) (hl : n + len ≤ rest.length)
    (he : elements fuel (rest.drop (n + len)) = some elems) :
    elements (fuel + 1) (op :: rest) = some ((op :: rest) :: elems) := by
  rw [elements, hs]
  simp only [if_pos hl, he, Option.bind_eq_bind, Option.bind_some]

/-- The first of the elements, and the others. -/
theorem elements_head {fuel : ℕ} {op : UInt8} {ops script : Bytes} {elems : List Bytes}
    (h : elements fuel script = some elems) (hops : elems.map (fun e => e.headD 0) = op :: ops) :
    ∃ rest elems' fuel', script = op :: rest ∧ elems = (op :: rest) :: elems' ∧
      (elementSize op rest).1 + (elementSize op rest).2 ≤ rest.length ∧
      elements fuel' (rest.drop ((elementSize op rest).1 + (elementSize op rest).2)) =
        some elems' ∧ elems'.map (fun e => e.headD 0) = ops := by
  cases script with
  | nil =>
    cases fuel <;> cases Option.some.inj h <;> cases hops
  | cons op' rest =>
    cases fuel with
    | zero => cases h
    | succ fuel =>
      simp only [elements, Option.bind_eq_bind] at h
      split_ifs at h with hfits
      obtain ⟨elems', helems, h⟩ := Option.bind_eq_some_iff.1 h
      obtain rfl := Option.some.inj h
      obtain ⟨rfl, rfl⟩ := List.cons.inj hops
      exact ⟨rest, elems', fuel, rfl, rfl, hfits, helems, rfl⟩

theorem elements_op {fuel : ℕ} {op : UInt8} {rest : Bytes} {elems : List Bytes}
    (h : op > OP_PUSHDATA4) (he : elements fuel rest = some elems) :
    elements (fuel + 1) (op :: rest) = some ((op :: rest) :: elems) :=
  elements_cons (elementSize_op h rest) (Nat.zero_le _) he

theorem elements_push {fuel : ℕ} {data rest : Bytes} {elems : List Bytes}
    (h : data.length < OP_PUSHDATA1.toNat) (he : elements fuel rest = some elems) :
    elements (fuel + 1) (UInt8.ofNat data.length :: (data ++ rest)) =
      some ((UInt8.ofNat data.length :: (data ++ rest)) :: elems) := by
  refine elements_cons (elementSize_push h _) (by simp) ?_
  rw [Nat.zero_add, List.drop_left]
  exact he

/-- More fuel than bytes makes no difference. -/
theorem elements_mono {fuel fuel' : ℕ} {script : Bytes} {elems : List Bytes} (hf : fuel ≤ fuel')
    (h : elements fuel script = some elems) : elements fuel' script = some elems := by
  induction fuel generalizing fuel' script elems with
  | zero =>
    cases script with
    | nil => cases fuel' <;> exact h
    | cons op rest => cases h
  | succ fuel ih =>
    cases script with
    | nil => cases fuel' <;> exact h
    | cons op rest =>
      obtain ⟨fuel', rfl⟩ : ∃ k, fuel' = k + 1 := ⟨fuel' - 1, by omega⟩
      simp only [elements, Option.bind_eq_bind] at h ⊢
      split_ifs at h ⊢ with hl
      obtain ⟨es, hes, h⟩ := Option.bind_eq_some_iff.1 h
      rw [ih (Nat.le_of_succ_le_succ hf) hes, Option.bind_some]
      exact h

theorem elements_unique {fuel fuel' : ℕ} {script : Bytes} {elems elems' : List Bytes}
    (h : elements fuel script = some elems) (h' : elements fuel' script = some elems') :
    elems = elems' :=
  Option.some.inj ((elements_mono (le_max_left fuel fuel') h).symm.trans
    (elements_mono (le_max_right fuel fuel') h'))

theorem scriptElements_eq {fuel : ℕ} {script : Bytes} {elems : List Bytes}
    (hf : fuel ≤ script.length) (h : elements fuel script = some elems) :
    scriptElements script = elems := by
  rw [scriptElements, elements_mono hf h, Option.getD_some]

/-! ## Addresses -/

namespace BRAddress

variable (H : Hashes)

/-- `BRAddressFromScriptPubKey` into a `BRAddress`; `ADDRESS_NONE` if the script has none. -/
def fromScriptPubKey (script : Bytes) : BRAddress :=
  if script = [] ∨ script.length > MAX_SCRIPT_LENGTH then []
  else
    let elems := scriptElements script
    let ops := elems.map fun e => e.headD 0
    let data := fun i => (elems[i]?.bind scriptData).getD []
    if (ops.length = 5 ∨ ops.length = 8) ∧
        ops.take 5 = [OP_DUP, OP_HASH160, 20, OP_EQUALVERIFY, OP_CHECKSIG] then
      base58CheckEncode H ADDRESS_SIZE (RAVENCOIN_PUBKEY_ADDRESS :: data 2)
    else if ops = [OP_HASH160, 20, OP_EQUAL] then
      base58CheckEncode H ADDRESS_SIZE (RAVENCOIN_SCRIPT_ADDRESS :: data 1)
    else if ops = [65, OP_CHECKSIG] ∨ ops = [33, OP_CHECKSIG] then
      base58CheckEncode H ADDRESS_SIZE (RAVENCOIN_PUBKEY_ADDRESS :: H.hash160 (data 0))
    else []

/-- The script has an address: `BRAddressFromScriptPubKey` of it with `NULL` is not zero. -/
def isScriptPubKey (script : Bytes) : Bool :=
  let ops := (scriptElements script).map fun e => e.headD 0
  decide (script ≠ [] ∧ script.length ≤ MAX_SCRIPT_LENGTH) &&
    (decide ((ops.length = 5 ∨ ops.length = 8) ∧
      ops.take 5 = [OP_DUP, OP_HASH160, 20, OP_EQUALVERIFY, OP_CHECKSIG]) ||
    decide (ops = [OP_HASH160, 20, OP_EQUAL]) ||
    decide (ops = [65, OP_CHECKSIG] ∨ ops = [33, OP_CHECKSIG]))

/-- `BRAddressFromScriptSig` into a `BRAddress`. -/
def fromScriptSig (script : Bytes) : BRAddress :=
  if script = [] ∨ script.length > MAX_SCRIPT_LENGTH then []
  else
    let elems := scriptElements script
    match elems.reverse.map fun e => e.headD 0, elems.getLast?.bind scriptData with
    | last :: next :: _, data =>
      if next ≤ OP_PUSHDATA4 ∧ (last = 65 ∨ last = 33) then
        base58CheckEncode H ADDRESS_SIZE (RAVENCOIN_PUBKEY_ADDRESS :: H.hash160 (data.getD []))
      else if next ≤ OP_PUSHDATA4 ∧ last ≤ OP_PUSHDATA4 ∧ last > 0 then
        match data with
        | some d => base58CheckEncode H ADDRESS_SIZE (RAVENCOIN_SCRIPT_ADDRESS :: H.hash160 d)
        | none => []
      else []
    | _, _ => []

/-- Pay to the public key hash `h20`. -/
def p2pkh (h20 : Bytes) : Bytes :=
  [OP_DUP, OP_HASH160, 20] ++ (h20 ++ [OP_EQUALVERIFY, OP_CHECKSIG])

/-- Pay to the script hash `h20`. -/
def p2sh (h20 : Bytes) : Bytes := [OP_HASH160, 20] ++ (h20 ++ [OP_EQUAL])

/-- What an address encodes: a version byte and a hash. -/
def decode (addr : BRAddress) : Bytes := base58CheckDecode H 21 addr

/-- `BRAddressScriptPubKey`; empty if `addr` has no script. -/
def scriptPubKey (addr : BRAddress) : Bytes :=
  let data := decode H addr
  if data.length = 21 then
    if data.headD 0 = RAVENCOIN_PUBKEY_ADDRESS then p2pkh data.tail
    else if data.headD 0 = RAVENCOIN_SCRIPT_ADDRESS then p2sh data.tail
    else []
  else []

/-- `BRAddressIsValid`. -/
def isValid (addr : BRAddress) : Bool :=
  let data := decode H addr
  decide (data.length = 21) && decide (data.headD 0 = RAVENCOIN_PUBKEY_ADDRESS ∨
    data.headD 0 = RAVENCOIN_SCRIPT_ADDRESS)

variable {H} {h20 : Bytes}

theorem length_p2pkh (h : h20.length = 20) : (p2pkh h20).length = 25 := by
  simp [p2pkh, h]

/-- The data of a push of a hash. -/
theorem scriptData_hash (h : h20.length = 20) (rest : Bytes) :
    scriptData (20 :: (h20 ++ rest)) = some h20 := by
  have hs : elementSize 20 (h20 ++ rest) = (0, 20) := elementSize_push (n := 20) (by decide) _
  have htake : ((h20 ++ rest).drop 0).take 20 = h20 := by
    rw [List.drop_zero, ← h, List.take_left]
  rw [scriptData, hs]
  exact congrArg some htake

/-- The five elements of the template stand before those of the rest. -/
theorem elements_p2pkh {fuel : ℕ} {rest : Bytes} {elems : List Bytes} (h : h20.length = 20)
    (he : elements fuel rest = some elems) :
    elements (fuel + 5) (p2pkh h20 ++ rest) = some
      ([p2pkh h20 ++ rest, OP_HASH160 :: 20 :: (h20 ++ (OP_EQUALVERIFY :: OP_CHECKSIG :: rest)),
        20 :: (h20 ++ (OP_EQUALVERIFY :: OP_CHECKSIG :: rest)),
        OP_EQUALVERIFY :: OP_CHECKSIG :: rest, OP_CHECKSIG :: rest] ++ elems) := by
  have hpush : elements (fuel + 3) (20 :: (h20 ++ (OP_EQUALVERIFY :: OP_CHECKSIG :: rest))) = some
      ((20 :: (h20 ++ (OP_EQUALVERIFY :: OP_CHECKSIG :: rest))) ::
        (OP_EQUALVERIFY :: OP_CHECKSIG :: rest) :: (OP_CHECKSIG :: rest) :: elems) := by
    have hsig : elements (fuel + 1) (OP_CHECKSIG :: rest) = some ((OP_CHECKSIG :: rest) :: elems) :=
      elements_op (by decide) he
    have hp : elements (fuel + 3)
        (UInt8.ofNat h20.length :: (h20 ++ (OP_EQUALVERIFY :: OP_CHECKSIG :: rest))) = some _ :=
      elements_push (by rw [h]; decide) (elements_op (by decide) hsig)
    rw [h] at hp
    exact hp
  have hscript : p2pkh h20 ++ rest =
      OP_DUP :: OP_HASH160 :: 20 :: (h20 ++ (OP_EQUALVERIFY :: OP_CHECKSIG :: rest)) := by
    simp [p2pkh]
  rw [hscript]
  exact elements_op (by decide) (elements_op (by decide) hpush)

/-- The template pays its address, alone or followed by three elements. -/
theorem fromScriptPubKey_p2pkh {rest : Bytes} {elems : List Bytes} {fuel : ℕ}
    (h : h20.length = 20) (he : elements fuel rest = some elems) (hf : fuel ≤ rest.length)
    (hl : rest.length + 25 ≤ MAX_SCRIPT_LENGTH) (hc : elems.length = 0 ∨ elems.length = 3) :
    fromScriptPubKey H (p2pkh h20 ++ rest) =
      base58CheckEncode H ADDRESS_SIZE (RAVENCOIN_PUBKEY_ADDRESS :: h20) := by
  have hlen : (p2pkh h20 ++ rest).length = 25 + rest.length := by
    rw [List.length_append, length_p2pkh h]
  have hne : ¬ (p2pkh h20 ++ rest = [] ∨ (p2pkh h20 ++ rest).length > MAX_SCRIPT_LENGTH) := by
    rintro (hnil | hlong)
    · rw [hnil, List.length_nil] at hlen; omega
    · omega
  have helems := scriptElements_eq (by omega) (elements_p2pkh h he)
  have hdata := scriptData_hash h (OP_EQUALVERIFY :: OP_CHECKSIG :: rest)
  unfold fromScriptPubKey
  rw [if_neg hne, helems]
  simp only [List.map_append, List.map_cons, List.map_nil, List.headD_cons, List.length_append,
    List.length_cons, List.length_nil, List.length_map]
  have hhead : (p2pkh h20 ++ rest).headD 0 = OP_DUP := rfl
  have hcount : 0 + 1 + 1 + 1 + 1 + 1 + elems.length = 5 ∨
      0 + 1 + 1 + 1 + 1 + 1 + elems.length = 8 := by omega
  rw [if_pos ⟨hcount, by rw [hhead]; rfl⟩]
  simp [hdata]

end BRAddress

end RavenWallet
