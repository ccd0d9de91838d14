/-
  Scripts in memory (BRAddress.c): the loop that finds the elements of a script, with or
  without an array for them, and the writing and reading of pushes.

  `Tiles`: a script is taken apart into elements, each with its data.

  * `elementsLoop_tiles`: the loop finds the elements if there are tiles, and else ends
    beyond the script;
  * `elements_scriptElements`: it finds what `scriptElements` is;
  * `elements_tile_pushData`: what the count says, with and without an array, and that a
    push is read as it was written.
-/
import Mathlib.Algebra.Order.BigOperators.Group.List
import RavenWallet.Lib.Filling
import RavenWallet.Lib.Word
import RavenWallet.Core.Script

namespace RavenWallet

/-- A script in memory. -/
structure BRScript where
  bytes : Bytes
  size_le : bytes.length ≤ PTRDIFF_MAX

namespace BRScript

def UINT8_MAX : ℕ := 0xff
def UINT16_MAX : ℕ := 0xffff

/-- How many bytes the length behind the opcode has, if it does not stand for itself. -/
def lengthBytes (op : UInt8) : Option ℕ :=
  if op = OP_PUSHDATA1 then some 1
  else if op = OP_PUSHDATA2 then some 2
  else if op = OP_PUSHDATA4 then some 4
  else none

/-- The offset behind the opcode and the length, and the length.  If there are no bytes left for it,
    the one of the element before is kept. -/
def elementData (script : Bytes) (off len : ℕ) : Option (ℕ × ℕ) := do
  let op ← script[off]?
  let off := wrap64 (off + 1)
  match lengthBytes op with
  | some n => do
    let len ← (if wrap64 (off + n) ≤ script.length then getLE script off n else some len)
    some (wrap64 (off + n), len)
  | none => some (off, if op > OP_PUSHDATA4 then 0 else op.toNat)

/-- The loop of `BRScriptElements`; the elements are offsets. -/
def elementsLoop (script : Bytes) (elemsCount : ℕ) :
    ℕ → ℕ → ℕ → ℕ → Option (List ℕ) → Option (ℕ × ℕ × Option (List ℕ))
  | 0, off, i, _, elems => if off < script.length then none else some (off, i, elems)
  | fuel + 1, off, i, len, elems =>
    if off < script.length then do
      let elems ← putAt elems elemsCount i off
      let (off, len) ← elementData script off len
      elementsLoop script elemsCount fuel (wrap64 (off + len)) (i + 1) len elems
    else some (off, i, elems)

/-- `BRScriptElements`; also the array. -/
def elements (elems : Option (List ℕ)) (elemsCount : ℕ) (script : BRScript) :
    Option (ℕ × Option (List ℕ)) := do
  let (off, i, elems) ← elementsLoop script.bytes elemsCount script.bytes.length 0 0 0 elems
  some (if (elems = none ∨ i ≤ elemsCount) ∧ off = script.bytes.length then i else 0, elems)

/-- `BRScriptData`: where the data begin, unless there are none, and their length. -/
def data (script : Bytes) (elem : ℕ) : Option (Option ℕ × ℕ) := do
  let op ← script[elem]?
  let (elem, dataLen) ← (match lengthBytes op with
    | some n => (getLE script (elem + 1) n).map fun len => (elem + 1 + n, len)
    | none => some (elem + 1, if op > OP_PUSHDATA4 then 0 else op.toNat))
  some (if dataLen > 0 then some elem else none, dataLen)

/-- What `BRScriptPushData` writes before the data. -/
def pushHeader (dataLen : ℕ) : Bytes :=
  if dataLen < OP_PUSHDATA1.toNat then [UInt8.ofNat dataLen]
  else if dataLen < UINT8_MAX then OP_PUSHDATA1 :: toLE 1 dataLen
  else if dataLen < UINT16_MAX then OP_PUSHDATA2 :: toLE 2 dataLen
  else OP_PUSHDATA4 :: toLE 4 dataLen

/-- `BRScriptPushData`; also the buffer. -/
def pushData (script : Option Bytes) (scriptLen : ℕ) (data : Bytes) : Option (ℕ × Option Bytes) :=
  let header := pushHeader data.length
  let len := data.length + header.length
  match script with
  | none => some (len, none)
  | some buf =>
    if len ≤ scriptLen then do
      let buf ← poke buf 0 header
      let buf ← poke buf (len - data.length) data
      some (len, some buf)
    else some (0, some buf)

/-! ## Tiles -/

/-- An element and its data. -/
inductive Element : Bytes → Bytes → Prop
  | op {op : UInt8} : op > OP_PUSHDATA4 → Element [op] []
  | push {data : Bytes} : data.length < OP_PUSHDATA1.toNat →
      Element (UInt8.ofNat data.length :: data) data
  | pushData {code : UInt8} {n : ℕ} {data : Bytes} : lengthBytes code = some n →
      data.length < 256 ^ n → Element (code :: (toLE n data.length ++ data)) data

/-- A script that is taken apart into elements. -/
structure Tiles (script : Bytes) (tiles : List Bytes) : Prop where
  flatten : tiles.flatten = script
  element : ∀ tile ∈ tiles, ∃ data, Element tile data

/-- Where the tiles begin. -/
def starts : ℕ → List Bytes → List ℕ
  | _, [] => []
  | off, tile :: tiles => off :: starts (off + tile.length) tiles

/-- The script from each of its tiles on. -/
def suffixes : List Bytes → List Bytes
  | [] => []
  | tile :: tiles => (tile ++ tiles.flatten) :: suffixes tiles

@[simp] theorem length_starts (off : ℕ) (tiles : List Bytes) :
    (starts off tiles).length = tiles.length := by
  induction tiles generalizing off with
  | nil => rfl
  | cons tile tiles ih => rw [starts, List.length_cons, ih, List.length_cons]

@[simp] theorem length_suffixes (tiles : List Bytes) : (suffixes tiles).length = tiles.length := by
  induction tiles with
  | nil => rfl
  | cons tile tiles ih => rw [suffixes, List.length_cons, ih, List.length_cons]

section

variable {op code : UInt8} {n off len fuel : ℕ} {rest script tile data : Bytes}
  {tiles : List Bytes}

theorem lengthBytes_eq_some (h : lengthBytes op = some n) :
    (op = OP_PUSHDATA1 ∧ n = 1) ∨ (op = OP_PUSHDATA2 ∧ n = 2) ∨ (op = OP_PUSHDATA4 ∧ n = 4) := by
  unfold lengthBytes at h
  split_ifs at h with h1 h2 h4
  · exact .inl ⟨h1, (Option.some.inj h).symm⟩
  · exact .inr (.inl ⟨h2, (Option.some.inj h).symm⟩)
  · exact .inr (.inr ⟨h4, (Option.some.inj h).symm⟩)

theorem lengthBytes_le (h : lengthBytes op = some n) : n ≤ 4 := by
  rcases lengthBytes_eq_some h with ⟨-, rfl⟩ | ⟨-, rfl⟩ | ⟨-, rfl⟩ <;> decide

/-- The size of an element by the number of its length bytes. -/
theorem elementSize_eq (op : UInt8) (rest : Bytes) :
    elementSize op rest = match lengthBytes op with
      | some n => (n, ofLE (rest.take n))
      | none => (0, if op > OP_PUSHDATA4 then 0 else op.toNat) := by
  unfold elementSize lengthBytes
  split_ifs <;> rfl

theorem elementSize_some (h : lengthBytes op = some n) (rest : Bytes) :
    elementSize op rest = (n, ofLE (rest.take n)) := by
  rw [elementSize_eq, h]

theorem elementSize_none (h : lengthBytes op = none) (rest : Bytes) :
    elementSize op rest = (0, if op > OP_PUSHDATA4 then 0 else op.toNat) := by
  rw [elementSize_eq, h]

/-- An opcode without length bytes that is no small push has no data. -/
theorem le_of_lengthBytes_none (h : lengthBytes op = none) (hle : op ≤ OP_PUSHDATA4) :
    op.toNat < OP_PUSHDATA1.toNat := by
  by_contra hlt
  have hle : op.toNat ≤ 78 := UInt8.le_iff_toNat_le.1 hle
  have hge : 76 ≤ op.toNat := Nat.le_of_not_lt hlt
  have hcases : op.toNat = OP_PUSHDATA1.toNat ∨ op.toNat = OP_PUSHDATA2.toNat ∨
      op.toNat = OP_PUSHDATA4.toNat := by
    show op.toNat = 76 ∨ op.toNat = 77 ∨ op.toNat = 78
    omega
  rcases hcases with h1 | h2 | h4
  · rw [UInt8.toNat_inj.1 h1] at h
    cases h
  · rw [UInt8.toNat_inj.1 h2] at h
    cases h
  · rw [UInt8.toNat_inj.1 h4] at h
    cases h

/-- What fits is an element. -/
theorem element_of_fits
    (hfits : (elementSize op rest).1 + (elementSize op rest).2 ≤ rest.length) :
    ∃ data, Element (op :: rest.take ((elementSize op rest).1 + (elementSize op rest).2)) data := by
  cases hbytes : lengthBytes op with
  | some n =>
    rw [elementSize_some hbytes] at hfits ⊢
    dsimp only at hfits ⊢
    refine ⟨(rest.drop n).take (ofLE (rest.take n)), ?_⟩
    have hlen : ((rest.drop n).take (ofLE (rest.take n))).length = ofLE (rest.take n) := by
      rw [List.length_take, List.length_drop]
      omega
    have htake : (rest.take n).length = n := List.length_take_of_le (by omega)
    have hlt := ofLE_lt (rest.take n)
    have hbytesEq : toLE n (ofLE (rest.take n)) = rest.take n := by
      have h := toLE_ofLE (rest.take n)
      rwa [htake] at h
    rw [htake] at hlt
    have h : Element _ ((rest.drop n).take (ofLE (rest.take n))) :=
      Element.pushData hbytes (by rwa [hlen])
    rwa [hlen, hbytesEq, ← List.take_add] at h
  | none =>
    rw [elementSize_none hbytes] at hfits ⊢
    dsimp only at hfits ⊢
    rw [Nat.zero_add] at hfits ⊢
    split_ifs at hfits ⊢ with hop
    · exact ⟨[], Element.op hop⟩
    · have hlen : (rest.take op.toNat).length = op.toNat := List.length_take_of_le hfits
      refine ⟨rest.take op.toNat, ?_⟩
      have h : Element _ (rest.take op.toNat) := Element.push
        (by rw [hlen]; exact le_of_lengthBytes_none hbytes (UInt8.not_lt.1 hop))
      rwa [hlen, UInt8.ofNat_toNat] at h

/-- The opcode of an element says where its data begin and end, whatever is behind it. -/
theorem Element.size (h : Element tile data) : ∃ op lengths, tile = op :: (lengths ++ data) ∧
    ∀ rest, elementSize op (lengths ++ data ++ rest) = (lengths.length, data.length) := by
  cases h with
  | op hop => exact ⟨_, [], rfl, fun rest => elementSize_op hop _⟩
  | push hlen => exact ⟨_, [], rfl, fun rest => elementSize_push hlen _⟩
  | @pushData code n _ hbytes hlen =>
    refine ⟨code, toLE n data.length, rfl, fun rest => ?_⟩
    have htake : (toLE n data.length ++ data ++ rest).take n = toLE n data.length := by
      rw [List.append_assoc, List.take_append_of_le_length (by simp),
        List.take_of_length_le (by simp)]
    rw [elementSize_some hbytes, htake, ofLE_toLE hlen, length_toLE]

theorem Element.ne_nil (h : Element tile data) : tile ≠ [] := by
  obtain ⟨op, lengths, rfl, -⟩ := h.size
  exact List.cons_ne_nil op _

/-- The first of the tiles is the element that the opcode says. -/
theorem Tiles.cons (h : Tiles (op :: rest) tiles) : ∃ tiles',
    (elementSize op rest).1 + (elementSize op rest).2 ≤ rest.length ∧
    tiles = (op :: rest.take ((elementSize op rest).1 + (elementSize op rest).2)) :: tiles' ∧
    Tiles (rest.drop ((elementSize op rest).1 + (elementSize op rest).2)) tiles' := by
  cases tiles with
  | nil =>
    have hnil := h.flatten
    cases hnil
  | cons tile tiles' =>
    obtain ⟨data, hdata⟩ := h.element tile List.mem_cons_self
    obtain ⟨op', lengths, rfl, hsize⟩ := hdata.size
    have hflat : op' :: (lengths ++ data ++ tiles'.flatten) = op :: rest := h.flatten
    obtain ⟨rfl, rfl⟩ := List.cons.inj hflat
    have hbody : lengths.length + data.length = (lengths ++ data).length := by simp
    refine ⟨tiles', ?_, ?_, ?_, fun tile htile => h.element tile (List.mem_cons_of_mem _ htile)⟩
    · rw [hsize]
      simp only [List.length_append]
      omega
    · rw [hsize, hbody, List.take_left]
    · rw [hsize, hbody, List.drop_left]

/-- An element that fits stands before the tiles of the rest. -/
theorem Tiles.of_cons
    (hfits : (elementSize op rest).1 + (elementSize op rest).2 ≤ rest.length)
    (h : Tiles (rest.drop ((elementSize op rest).1 + (elementSize op rest).2)) tiles) :
    Tiles (op :: rest)
      ((op :: rest.take ((elementSize op rest).1 + (elementSize op rest).2)) :: tiles) := by
  refine ⟨?_, fun tile htile => ?_⟩
  · rw [List.flatten_cons, h.flatten, List.cons_append, List.take_append_drop]
  · rcases List.mem_cons.1 htile with rfl | htile
    · exact element_of_fits hfits
    · exact h.element tile htile

theorem tiles_nil : Tiles [] [] := ⟨rfl, fun _ h => (List.not_mem_nil h).elim⟩

theorem Tiles.nil (h : Tiles [] tiles) : tiles = [] := by
  cases tiles with
  | nil => rfl
  | cons tile tiles =>
    obtain ⟨data, hdata⟩ := h.element tile List.mem_cons_self
    have hflat := h.flatten
    rw [List.flatten_cons, List.append_eq_nil_iff] at hflat
    exact absurd hflat.1 hdata.ne_nil

/-! ## The loop -/

theorem elementsLoop_stop (h : script.length ≤ off) (elemsCount fuel i len : ℕ)
    (elems : Option (List ℕ)) :
    elementsLoop script elemsCount fuel off i len elems = some (off, i, elems) := by
  cases fuel <;> rw [elementsLoop, if_neg (Nat.not_lt.2 h)]

theorem length_of_drop (h : script.drop off = op :: rest) :
    script.length = off + 1 + rest.length := by
  have hlength := congrArg List.length h
  rw [List.length_drop, List.length_cons] at hlength
  omega

theorem drop_of_drop (h : script.drop off = op :: rest) (n : ℕ) :
    script.drop (off + 1 + n) = rest.drop n := by
  rw [← List.drop_drop, ← List.drop_drop, h, List.drop_one, List.tail_cons]

/-- The length of an element is found if its bytes are there; else the offset is beyond the
    script. -/
theorem elementData_drop (hsize : script.length ≤ PTRDIFF_MAX)
    (hdrop : script.drop off = op :: rest) (hlen : len < 2 ^ 32) : ∃ len',
    elementData script off len = some (off + 1 + (elementSize op rest).1, len') ∧ len' < 2 ^ 32 ∧
      ((elementSize op rest).1 ≤ rest.length → len' = (elementSize op rest).2) := by
  have hmax : PTRDIFF_MAX + 6 < 2 ^ 64 := by decide
  have hlength := length_of_drop hdrop
  have hget : script[off]? = some op := by
    rw [← List.head?_drop, hdrop, List.head?_cons]
  have hrest : script.drop (off + 1) = rest := drop_of_drop hdrop 0
  have hnext : wrap64 (off + 1) = off + 1 := wrap64_of_lt (by omega)
  unfold elementData
  rw [hget, Option.bind_eq_bind, Option.bind_some]
  cases hbytes : lengthBytes op with
  | some n =>
    have hn := lengthBytes_le hbytes
    have hwrap : wrap64 (off + 1 + n) = off + 1 + n := wrap64_of_lt (by omega)
    rw [elementSize_some hbytes]
    dsimp only
    rw [hnext, hwrap]
    by_cases hfits : off + 1 + n ≤ script.length
    · rw [if_pos hfits, getLE_of_le hfits, hrest]
      refine ⟨_, rfl, ?_, fun _ => rfl⟩
      have hlt := ofLE_lt (rest.take n)
      rw [List.length_take_of_le (by omega)] at hlt
      exact Nat.lt_of_lt_of_le hlt (Nat.pow_le_pow_right (by decide) hn)
    · rw [if_neg hfits]
      exact ⟨len, rfl, hlen, fun h => absurd (by omega) hfits⟩
  | none =>
    rw [elementSize_none hbytes]
    dsimp only
    rw [hnext]
    refine ⟨_, rfl, ?_, fun _ => rfl⟩
    have hop : op.toNat < 2 ^ 8 := op.toNat_lt
    split_ifs <;> omega

theorem elementSize_fst_le (op : UInt8) (rest : Bytes) : (elementSize op rest).1 ≤ 4 := by
  rw [elementSize_eq]
  split
  · exact lengthBytes_le ‹_›
  · exact Nat.zero_le _

/-- A round goes on behind the element, or ends beyond the script. -/
theorem elementsLoop_round (hsize : script.length ≤ PTRDIFF_MAX)
    (hdrop : script.drop off = op :: rest) (hlen : len < 2 ^ 32) : ∃ len', len' < 2 ^ 32 ∧
    ((elementSize op rest).1 ≤ rest.length → len' = (elementSize op rest).2) ∧
    ∀ elemsCount fuel i elems, elementsLoop script elemsCount (fuel + 1) off i len elems =
      (putAt elems elemsCount i off).bind fun elems =>
        elementsLoop script elemsCount fuel (off + 1 + ((elementSize op rest).1 + len')) (i + 1)
          len' elems := by
  have hmax : PTRDIFF_MAX + 6 + 2 ^ 32 < 2 ^ 64 := by decide
  have hlength := length_of_drop hdrop
  have hn := elementSize_fst_le op rest
  obtain ⟨len', hdata, hlen', hfound⟩ := elementData_drop hsize hdrop hlen
  refine ⟨len', hlen', hfound, fun elemsCount fuel i elems => ?_⟩
  rw [elementsLoop, if_pos (by omega), hdata]
  simp only [Option.bind_eq_bind, Option.bind_some]
  rw [wrap64_of_lt (by omega), Nat.add_assoc (off + 1)]

/-- The loop finds the tiles, and counts them; if there are none it ends beyond the script. -/
theorem elementsLoop_tiles (hsize : script.length ≤ PTRDIFF_MAX) (elemsCount : ℕ)
    (hoff : off ≤ script.length) (hfuel : script.length ≤ off + fuel) (hlen : len < 2 ^ 32) :
    (∃ tiles, Tiles (script.drop off) tiles ∧
      ∀ i elems, elementsLoop script elemsCount fuel off i len elems =
        (putAll elems elemsCount i (starts off tiles)).map
          fun elems => (script.length, i + tiles.length, elems)) ∨
    (∀ tiles, ¬ Tiles (script.drop off) tiles) ∧ ∃ offs stop, script.length < stop ∧
      ∀ i elems, elementsLoop script elemsCount fuel off i len elems =
        (putAll elems elemsCount i offs).map fun elems => (stop, i + offs.length, elems) := by
  induction fuel generalizing off len with
  | zero =>
    refine .inl ⟨[], ?_, fun i elems => ?_⟩
    · rw [List.drop_of_length_le (by omega)]
      exact tiles_nil
    · rw [elementsLoop_stop (by omega), show script.length = off by omega]
      rfl
  | succ fuel ih =>
    cases hdrop : script.drop off with
    | nil =>
      rw [List.drop_eq_nil_iff] at hdrop
      refine .inl ⟨[], tiles_nil, fun i elems => ?_⟩
      rw [elementsLoop_stop hdrop, show script.length = off by omega]
      rfl
    | cons op rest =>
      have hlength := length_of_drop hdrop
      obtain ⟨len', hlen', hfound, hround⟩ := elementsLoop_round hsize hdrop hlen
      by_cases hfits : (elementSize op rest).1 + (elementSize op rest).2 ≤ rest.length
      · obtain rfl := hfound (by omega)
        have htail := drop_of_drop hdrop ((elementSize op rest).1 + (elementSize op rest).2)
        have hrest := @ih (off + 1 + ((elementSize op rest).1 + (elementSize op rest).2)) _
          (by omega) (by omega) hlen'
        rw [htail] at hrest
        rcases hrest with ⟨tiles, htiles, hloop⟩ | ⟨hnone, offs, stop, hstop, hloop⟩
        · refine .inl ⟨_, htiles.of_cons hfits, fun i elems => ?_⟩
          have hnext : off + ((elementSize op rest).1 + (elementSize op rest).2 + 1) =
              off + 1 + ((elementSize op rest).1 + (elementSize op rest).2) := by omega
          rw [hround, starts, putAll_cons, Option.map_bind, List.length_cons, List.length_cons,
            List.length_take_of_le hfits, hnext, Nat.add_comm tiles.length, ← Nat.add_assoc i]
          exact congrArg _ (funext fun elems => hloop (i + 1) elems)
        · refine .inr ⟨fun tiles htiles => ?_, off :: offs, stop, hstop, fun i elems => ?_⟩
          · obtain ⟨tiles', -, -, htiles'⟩ := htiles.cons
            exact hnone tiles' htiles'
          · rw [hround, putAll_cons, Option.map_bind, List.length_cons, Nat.add_comm offs.length,
              ← Nat.add_assoc i]
            exact congrArg _ (funext fun elems => hloop (i + 1) elems)
      · have hstop : script.length < off + 1 + ((elementSize op rest).1 + len') := by
          by_cases hn : (elementSize op rest).1 ≤ rest.length
          · have := hfound hn
            omega
          · omega
        refine .inr ⟨fun tiles htiles => ?_, [off], _, hstop, fun i elems => ?_⟩
        · obtain ⟨-, hle, -⟩ := htiles.cons
          exact hfits hle
        · rw [hround, putAll_cons, Option.map_bind]
          refine congrArg _ (funext fun elems => ?_)
          rw [elementsLoop_stop (Nat.le_of_lt hstop)]
          rfl

/-! ## Counting and filling -/

/-- What `elements` returns and leaves in the array, for a script that has these tiles or none. -/
theorem elements_cases (script : BRScript) (elemsCount : ℕ) :
    (∃ tiles, Tiles script.bytes tiles ∧
      ∀ elems, elements elems elemsCount script =
        (putAll elems elemsCount 0 (starts 0 tiles)).map fun elems =>
          (if elems = none ∨ tiles.length ≤ elemsCount then tiles.length else 0, elems)) ∨
    (∀ tiles, ¬ Tiles script.bytes tiles) ∧ ∃ offs,
      ∀ elems, elements elems elemsCount script =
        (putAll elems elemsCount 0 offs).map fun elems => (0, elems) := by
  have h := @elementsLoop_tiles 0 0 script.bytes.length script.bytes script.size_le elemsCount
    (Nat.zero_le _) (by omega) (by decide)
  rw [List.drop_zero] at h
  rcases h with ⟨tiles, htiles, hloop⟩ | ⟨hnone, offs, stop, hstop, hloop⟩
  · refine .inl ⟨tiles, htiles, fun elems => ?_⟩
    rw [elements, hloop, Option.bind_eq_bind, Option.bind_map, Option.map_eq_bind]
    simp
  · refine .inr ⟨hnone, offs, fun elems => ?_⟩
    rw [elements, hloop, Option.bind_eq_bind, Option.bind_map, Option.map_eq_bind]
    simp [Nat.ne_of_gt hstop]

/-- A script is taken apart in one way. -/
theorem Tiles.unique {tiles' : List Bytes} (h : Tiles script tiles) (h' : Tiles script tiles') :
    tiles = tiles' := by
  induction tiles generalizing script tiles' with
  | nil =>
    rw [← h.flatten, List.flatten_nil] at h'
    exact h'.nil.symm
  | cons tile tiles ih =>
    cases script with
    | nil => cases h.nil
    | cons op rest =>
      obtain ⟨rest₁, -, htiles, hrest⟩ := h.cons
      obtain ⟨rest₂, -, rfl, hrest'⟩ := h'.cons
      obtain ⟨rfl, rfl⟩ := List.cons.inj htiles
      rw [ih hrest hrest']

/-- The elements of a script that is taken apart. -/
theorem Tiles.elements (h : Tiles script tiles) :
    RavenWallet.elements tiles.length script = some (suffixes tiles) := by
  induction tiles generalizing script with
  | nil =>
    rw [← h.flatten]
    rfl
  | cons tile tiles ih =>
    cases script with
    | nil => cases h.nil
    | cons op rest =>
      obtain ⟨tiles', hfits, htiles, hrest⟩ := h.cons
      obtain ⟨rfl, rfl⟩ := List.cons.inj htiles
      have hflat : suffixes ((op :: rest.take ((elementSize op rest).1 +
          (elementSize op rest).2)) :: tiles) = (op :: rest) :: suffixes tiles := by
        rw [suffixes, hrest.flatten, List.cons_append, List.take_append_drop]
      rw [hflat]
      exact elements_cons rfl hfits (ih hrest)

/-- A script that has elements is taken apart. -/
theorem exists_tiles {elems : List Bytes} (h : RavenWallet.elements fuel script = some elems) :
    ∃ tiles, Tiles script tiles := by
  induction fuel generalizing script elems with
  | zero =>
    cases script with
    | nil => exact ⟨[], tiles_nil⟩
    | cons op rest => cases h
  | succ fuel ih =>
    cases script with
    | nil => exact ⟨[], tiles_nil⟩
    | cons op rest =>
      simp only [RavenWallet.elements, Option.bind_eq_bind] at h
      split_ifs at h with hfits
      obtain ⟨elems', helems, -⟩ := Option.bind_eq_some_iff.1 h
      obtain ⟨tiles, htiles⟩ := ih helems
      exact ⟨_, htiles.of_cons hfits⟩

theorem Tiles.length_le (h : Tiles script tiles) : tiles.length ≤ script.length := by
  rw [← h.flatten, List.length_flatten]
  have hpos : ∀ n ∈ tiles.map List.length, 1 ≤ n := by
    intro n hn
    obtain ⟨tile, htile, rfl⟩ := List.mem_map.1 hn
    obtain ⟨data, hdata⟩ := h.element tile htile
    exact List.length_pos_iff.2 hdata.ne_nil
  have hsum := List.card_nsmul_le_sum (tiles.map List.length) 1 hpos
  simpa using hsum

/-- The count is that of the elements that `scriptElements` is. -/
theorem elements_scriptElements (script : BRScript) (elemsCount : ℕ) :
    elements none elemsCount script = some ((scriptElements script.bytes).length, none) := by
  rcases elements_cases script elemsCount with ⟨tiles, htiles, helems⟩ | ⟨hnone, offs, helems⟩
  · rw [helems, scriptElements_eq htiles.length_le htiles.elements]
    simp
  · have hempty : scriptElements script.bytes = [] := by
      unfold scriptElements
      cases h : RavenWallet.elements script.bytes.length script.bytes with
      | none => rfl
      | some elems =>
        obtain ⟨tiles, htiles⟩ := exists_tiles h
        exact absurd htiles (hnone tiles)
    rw [helems, hempty]
    simp

/-! ## Pushes -/

/-- `BRScriptData` of an element that fits stays inside of the script. -/
theorem data_drop (hdrop : script.drop off = op :: rest)
    (hn : (elementSize op rest).1 ≤ rest.length) :
    BRScript.data script off = some (if (elementSize op rest).2 > 0 then
      some (off + 1 + (elementSize op rest).1) else none, (elementSize op rest).2) := by
  have hlength := length_of_drop hdrop
  have hget : script[off]? = some op := by
    rw [← List.head?_drop, hdrop, List.head?_cons]
  have hrest : script.drop (off + 1) = rest := drop_of_drop hdrop 0
  unfold BRScript.data
  rw [hget, Option.bind_eq_bind, Option.bind_some]
  cases hbytes : lengthBytes op with
  | some n =>
    rw [elementSize_some hbytes] at hn ⊢
    dsimp only at hn ⊢
    rw [getLE_of_le (by omega), hrest]
    rfl
  | none =>
    rw [elementSize_none hbytes]
    rfl

/-- The data of an element are found, if there are any. -/
theorem data_element (h : Element tile data) (hne : data ≠ []) (b : Bytes) :
    ∃ pos, BRScript.data (tile ++ b) 0 = some (some pos, data.length) ∧
      ((tile ++ b).drop pos).take data.length = data := by
  obtain ⟨op, lengths, rfl, hsize⟩ := h.size
  have hdrop : (op :: (lengths ++ data) ++ b).drop 0 = op :: (lengths ++ data ++ b) := rfl
  have hdata := data_drop hdrop (by rw [hsize]; simp)
  rw [hsize] at hdata
  dsimp only at hdata
  rw [if_pos (List.length_pos_iff.2 hne)] at hdata
  refine ⟨_, hdata, ?_⟩
  rw [drop_of_drop hdrop, List.append_assoc, List.drop_left, List.take_left]

/-- What is written before the data makes them an element. -/
theorem pushHeader_element (h : data.length < 2 ^ 32) :
    Element (pushHeader data.length ++ data) data := by
  unfold pushHeader
  split_ifs with h1 h2 h3
  · exact .push h1
  · exact .pushData rfl (Nat.lt_trans h2 (by decide))
  · exact .pushData rfl (Nat.lt_trans h3 (by decide))
  · exact .pushData rfl h

theorem length_pushHeader_le (dataLen : ℕ) : (pushHeader dataLen).length ≤ 5 := by
  unfold pushHeader
  split_ifs <;> simp

theorem pushHeader_scriptPushData (data : Bytes) :
    pushHeader data.length ++ data = scriptPushData data := by
  unfold pushHeader scriptPushData UINT8_MAX UINT16_MAX
  split_ifs <;> rfl

/-- A push is written to a buffer that has room for it, and nothing behind it. -/
theorem pushData_buffer {buf : Bytes} {scriptLen : ℕ}
    (hfits : (scriptPushData data).length ≤ scriptLen) (hbuf : scriptLen ≤ buf.length) :
    pushData (some buf) scriptLen data = some ((scriptPushData data).length,
      some (scriptPushData data ++ buf.drop (scriptPushData data).length)) := by
  have hlen : (scriptPushData data).length = data.length + (pushHeader data.length).length := by
    rw [← pushHeader_scriptPushData, List.length_append, Nat.add_comm]
  obtain ⟨a, b, rest, rfl, ha, hb⟩ : ∃ a b rest, buf = a ++ (b ++ rest) ∧
      a.length = (pushHeader data.length).length ∧ b.length = data.length := by
    refine ⟨buf.take (pushHeader data.length).length,
      (buf.drop (pushHeader data.length).length).take data.length,
      (buf.drop (pushHeader data.length).length).drop data.length, ?_, ?_, ?_⟩
    · rw [List.take_append_drop, List.take_append_drop]
    · rw [List.length_take]
      omega
    · rw [List.length_take, List.length_drop]
      omega
  have hrest : (a ++ (b ++ rest)).drop (scriptPushData data).length = rest := by
    rw [hlen, Nat.add_comm, ← ha, ← hb, ← List.length_append, ← List.append_assoc, List.drop_left]
  have hheader : poke (a ++ (b ++ rest)) 0 (pushHeader data.length) =
      some (pushHeader data.length ++ (b ++ rest)) := poke_parts (a := []) rfl rfl ha
  have hdata : poke (pushHeader data.length ++ (b ++ rest))
      (data.length + (pushHeader data.length).length - data.length) data =
        some (pushHeader data.length ++ (data ++ rest)) :=
    poke_parts rfl (by omega) hb
  unfold pushData
  dsimp only
  rw [if_pos (by omega), hheader, Option.bind_eq_bind, Option.bind_some, hdata, hrest, hlen,
    ← pushHeader_scriptPushData, List.append_assoc]
  rfl

theorem pushData_none (scriptLen : ℕ) (data : Bytes) :
    pushData none scriptLen data = some ((scriptPushData data).length, none) := by
  rw [pushData, ← pushHeader_scriptPushData, List.length_append, Nat.add_comm]

/-- The count with an array is the count without one if there is room, and then the array has the
    elements. -/
theorem elements_array (script : BRScript) {array : List ℕ} {elemsCount : ℕ}
    (hroom : elemsCount ≤ array.length) (n count : ℕ)
    (hcount : elements none n script = some (count, none)) :
    ∃ array', elements (some array) elemsCount script =
      some (if count ≤ elemsCount then count else 0, some array') := by
  rw [elements_scriptElements] at hcount
  obtain ⟨rfl, -⟩ := Prod.mk.inj (Option.some.inj hcount)
  rcases elements_cases script elemsCount with ⟨tiles, htiles, helems⟩ | ⟨hnone, offs, helems⟩
  · rw [scriptElements_eq htiles.length_le htiles.elements, length_suffixes, helems,
      putAll_array hroom]
    exact ⟨_, by simp; rfl⟩
  · have hzero := helems none
    rw [elements_scriptElements, putAll_none] at hzero
    obtain ⟨hzero, -⟩ := Prod.mk.inj (Option.some.inj hzero)
    rw [hzero, helems, putAll_array hroom]
    exact ⟨_, by simp; rfl⟩

theorem elements_fill (script : BRScript) (h : Tiles script.bytes tiles) {array : List ℕ}
    {elemsCount : ℕ} (hfits : tiles.length ≤ elemsCount) (hroom : elemsCount ≤ array.length) :
    elements (some array) elemsCount script =
      some (tiles.length, some (starts 0 tiles ++ array.drop tiles.length)) := by
  rcases elements_cases script elemsCount with ⟨tiles', htiles, helems⟩ | ⟨hnone, -⟩
  · obtain rfl := h.unique htiles
    have htake : (starts 0 tiles).take elemsCount = starts 0 tiles :=
      List.take_of_length_le (by simpa using hfits)
    rw [helems, putAll_array hroom, htake, length_starts, Nat.min_eq_left hfits]
    simp [hfits]
  · exact absurd h (hnone tiles)

end

/-- The count is not zero only if the script is taken apart into as many elements, each with its
    data inside of it, and it is the same with an array that has room for it, into which the
    elements are written.  A push is one element, and its data are what was pushed. -/
theorem elements_tile_pushData :
    (∀ (script : BRScript) (n : ℕ), ∃ count, elements none n script = some (count, none) ∧
      (count ≠ 0 → ∃ tiles, Tiles script.bytes tiles ∧ tiles.length = count ∧
        ∀ (array : List ℕ) (elemsCount : ℕ), count ≤ elemsCount → elemsCount ≤ array.length →
          elements (some array) elemsCount script =
            some (count, some (starts 0 tiles ++ array.drop count))) ∧
      ((∃ tiles, Tiles script.bytes tiles ∧ tiles ≠ []) → count ≠ 0) ∧
      ∀ (array : List ℕ) (elemsCount : ℕ), elemsCount ≤ array.length → ∃ array',
        elements (some array) elemsCount script =
          some (if count ≤ elemsCount then count else 0, some array')) ∧
    ∀ data : Bytes, 0 < data.length → data.length < 2 ^ 32 → ∃ script : BRScript,
      pushData none 0 data = some (script.bytes.length, none) ∧
      (∀ (buf : Bytes) (scriptLen : ℕ), script.bytes.length ≤ scriptLen → scriptLen ≤ buf.length →
        pushData (some buf) scriptLen data =
          some (script.bytes.length, some (script.bytes ++ buf.drop script.bytes.length))) ∧
      elements none 0 script = some (1, none) ∧ elements (some [0]) 1 script = some (1, some [0]) ∧
      ∃ pos, BRScript.data script.bytes 0 = some (some pos, data.length) ∧
        (script.bytes.drop pos).take data.length = data := by
  refine ⟨fun script n => ⟨_, elements_scriptElements script n, fun hne => ?_, ?_, ?_⟩,
    fun data hpos hlt => ?_⟩
  · cases h : RavenWallet.elements script.bytes.length script.bytes with
    | none =>
      rw [scriptElements, h] at hne
      exact absurd rfl hne
    | some elems =>
      obtain ⟨tiles, htiles⟩ := exists_tiles h
      rw [scriptElements_eq htiles.length_le htiles.elements, length_suffixes]
      exact ⟨tiles, htiles, rfl, fun array elemsCount => elements_fill script htiles⟩
  · rintro ⟨tiles, htiles, hne⟩
    rw [scriptElements_eq htiles.length_le htiles.elements, length_suffixes]
    exact Nat.ne_of_gt (List.length_pos_iff.2 hne)
  · exact fun array elemsCount hroom =>
      elements_array script hroom n _ (elements_scriptElements script n)
  · have helement := pushHeader_element hlt
    rw [pushHeader_scriptPushData] at helement
    have htiles : Tiles (scriptPushData data) [scriptPushData data] := by
      refine ⟨by simp, fun tile htile => ?_⟩
      rw [List.mem_singleton.1 htile]
      exact ⟨data, helement⟩
    have hsize : (scriptPushData data).length ≤ PTRDIFF_MAX := by
      have hheader := length_pushHeader_le data.length
      have hmax : 2 ^ 32 + 5 ≤ PTRDIFF_MAX := by decide
      rw [← pushHeader_scriptPushData, List.length_append]
      omega
    have hcount := elements_scriptElements ⟨scriptPushData data, hsize⟩ 0
    rw [scriptElements_eq htiles.length_le htiles.elements] at hcount
    refine ⟨⟨scriptPushData data, hsize⟩, pushData_none 0 data, fun buf scriptLen =>
      pushData_buffer, hcount, ?_, ?_⟩
    · exact elements_fill ⟨scriptPushData data, hsize⟩ htiles (by simp) (by simp)
    · have hdata := data_element helement (List.length_pos_iff.1 hpos) []
      rwa [List.append_nil] at hdata

/-- The push of two bytes, and a script of it. -/
theorem elements_tile_pushData_two : ∃ script : BRScript,
    pushData none 0 [7, 8] = some (script.bytes.length, none) ∧
    elements none 0 script = some (1, none) ∧
    (∃ tiles, Tiles script.bytes tiles ∧ tiles.length = 1) ∧
    ∃ pos, BRScript.data script.bytes 0 = some (some pos, 2) ∧
      (script.bytes.drop pos).take 2 = [7, 8] := by
  obtain ⟨htile, hpush⟩ := elements_tile_pushData
  obtain ⟨script, hlength, -, hcount, -, hdata⟩ := hpush [7, 8] (by decide) (by decide)
  obtain ⟨count, hcount', htiles, -⟩ := htile script 0
  obtain ⟨rfl, -⟩ := Prod.mk.inj (Option.some.inj (hcount.symm.trans hcount'))
  obtain ⟨tiles, htiles, hone, -⟩ := htiles one_ne_zero
  exact ⟨script, hlength, hcount, ⟨tiles, htiles, hone⟩, hdata⟩

end BRScript

end RavenWallet
