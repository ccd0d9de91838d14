/-
  Assets in the database (`assetAdded`, `rejectAssetTx` and `updateAssetData` of
  CoreDatabase.swift, and the names of AssetValidator.swift).

  A string is the list of its bytes.  It is followed through patterns and into the
  text of a statement only if they are printable and none of them is a quote; an
  operation without a result met another string, or trapped.

  * `assetAdded_stored`, `rejectAssetTx_stored`, `updateAssetData_stored`: what
    becomes of the amounts that are stored.
-/
import RavenWallet.Wallet.AssetTransfer

namespace RavenWallet

/-! ## Names -/

namespace AssetValidator

def MAX_NAME_LENGTH : ℕ := 30

/-- The codes of characters. -/
def codes (chars : List Char) : Bytes := chars.map fun c => UInt8.ofNat c.toNat

def isUpper (b : UInt8) : Bool := 0x41 ≤ b && b ≤ 0x5a
def isDigit (b : UInt8) : Bool := 0x30 ≤ b && b ≤ 0x39

/-- `[._]` -/
def isPunctuation (b : UInt8) : Bool := b ∈ codes ['.', '_']

/-- `[A-Z0-9._]` -/
def isNameCharacter (b : UInt8) : Bool := isUpper b || isDigit b || isPunctuation b

/-- `^p{n,}$` -/
def repeats (p : UInt8 → Bool) (n : ℕ) (name : Bytes) : Bool := n ≤ name.length && name.all p

/-- None of `DOUBLE_PUNCTUATION`, `LEADING_PUNCTUATION` and `TRAILING_PUNCTUATION` matches. -/
def punctuated (name : Bytes) : Bool :=
  !((name.zip name.tail).any fun (a, b) => isPunctuation a && isPunctuation b) &&
    !(name.head?.any isPunctuation) && !(name.getLast?.any isPunctuation)

/-- `RAVEN_NAMES` -/
def ravenNames : List Bytes :=
  [['R', 'V', 'N'], ['R', 'A', 'V', 'E', 'N'], ['R', 'A', 'V', 'E', 'N', 'C', 'O', 'I', 'N'],
    ['R', 'A', 'V', 'E', 'N', 'C', '0', 'I', 'N'], ['R', 'A', 'V', 'E', 'N', 'C', 'O', '1', 'N'],
    ['R', 'A', 'V', 'E', 'N', 'C', '0', '1', 'N']].map codes

def isRootNameValid (name : Bytes) : Bool :=
  repeats isNameCharacter 3 name && punctuated name && !(ravenNames.contains name)

def isSubNameValid (name : Bytes) : Bool := repeats isNameCharacter 1 name && punctuated name

def isNameValidBeforeTag (name : Bytes) : Bool :=
  let parts := name.splitOn 0x2f
  isRootNameValid (parts.headD []) && (parts.length ≤ 1 || parts.all isSubNameValid)

/-- `[^^~#!]` -/
def isBeforeTag (b : UInt8) : Bool := b ∉ codes ['^', '~', '#', '!']

/-- `OWNER_INDICATOR` -/
def ownerIndicator (name : Bytes) : Bool :=
  decide (name.getLast? = some 0x21) && repeats isBeforeTag 1 name.dropLast

/-- `IsAssetNameAnOwner`.  A name that `OWNER_INDICATOR` matches has no `#` and no `~`, so that it
    is for the third pattern of `IsAssetNameValid`. -/
def isAssetNameAnOwner (name : Bytes) : Bool :=
  name.length ≤ MAX_NAME_LENGTH && isNameValidBeforeTag name.dropLast && ownerIndicator name

end AssetValidator

open AssetValidator (isAssetNameAnOwner codes)

namespace BRAsset

/-- `nameString`; a name that is NULL is not followed. -/
def nameString (a : BRAsset) : Bytes := cString a.name

def isOwner (a : BRAsset) : Bool := isAssetNameAnOwner a.nameString

/-- The name that the database has for an asset, that of an owner without the mark. -/
def assetName (a : BRAsset) : Bytes := if a.isOwner then a.nameString.dropLast else a.nameString

def ownerShip (a : BRAsset) : ℕ :=
  match a.type with
  | .NEW_ASSET => if 0x23 ∈ a.nameString then 0 else 1
  | .TRANSFER => if a.isOwner then 1 else 0
  | .OWNER => 1
  | .REISSUE | .INVALID => 0

end BRAsset

/-! ## Rows -/

/-- A row of ZBRASSET. -/
structure AssetRow where
  name : Bytes
  amount : ℤ
  units : UInt8
  reissuable : UInt8
  hasIPFS : UInt8
  ipfsHash : Bytes
  ownership : ℕ
  deriving DecidableEq, Repr

/-- The string can stand in the text of a statement. -/
def plainText (s : Bytes) : Bool := s ≠ [] && s.all fun b => 0x20 ≤ b && b < 0x7f && b ≠ 0x27

/-- The number that is read from a column with the text of `n`. -/
def sqlInteger (n : ℕ) : ℤ := if n < 2 ^ 63 then n else 2 ^ 63 - 1

/-- `Int64(n)` -/
def toInt64 (n : ℤ) : Option ℤ := if -2 ^ 63 ≤ n ∧ n < 2 ^ 63 then some n else none

/-- The sum of two numbers of type `UInt64`. -/
def addUInt64 (a b : ℕ) : Option ℕ := if a + b < 2 ^ 64 then some (a + b) else none

namespace AssetTable

/-- `isAssetExiste` -/
def isAssetExiste (table : List AssetRow) (assetName : Bytes) : Option AssetRow :=
  table.find? fun row => row.name = assetName

/-- The amount that is read from a row, a `UInt64`. -/
def readAmount (row : AssetRow) : ℕ := row.amount.toNat

/-- `update ZBRAsset set … where Z_NAME = '…'` -/
def update (table : List AssetRow) (name : Bytes) (set : AssetRow → AssetRow) : List AssetRow :=
  table.map fun row => if row.name = name then { set row with name := row.name } else row

/-- The columns other than the amount that a new asset and a reissue set. -/
def setData (a : BRAsset) (row : AssetRow) : AssetRow :=
  { row with
    units := a.unit
    reissuable := a.reissuable
    hasIPFS := a.hasIPFS
    ipfsHash := cString a.IPFSHash }

/-- The row that is inserted for an asset. -/
def newRow (a : BRAsset) : AssetRow where
  name := a.assetName
  amount := if a.isOwner then 0 else sqlInteger a.amount.toNat
  units := a.unit
  reissuable := a.reissuable
  hasIPFS := a.hasIPFS
  ipfsHash := cString a.IPFSHash
  ownership := a.ownerShip

/-- `assetAdded`, where `received` tells that the direction of the transaction is `received`. -/
def assetAdded (received : Bool) (a : BRAsset) (table : List AssetRow) :
    Option (List AssetRow) := do
  guard (plainText a.assetName)
  match isAssetExiste table a.assetName with
  | some row =>
    if a.isOwner then
      some (update table a.assetName fun row =>
        { row with ownership := if received then 1 else 0 })
    else match a.type with
      | .TRANSFER => do
        let amount ← toInt64 (readAmount row)
        let moved ← toInt64 a.amount.toNat
        let amount ← toInt64 (if received then amount + moved else amount - moved)
        some (update table a.assetName fun row => { row with amount })
      | .REISSUE => do
        let amount ← addUInt64 a.amount.toNat (readAmount row)
        some (update table a.assetName fun row =>
          { setData a row with amount := sqlInteger amount })
      | .OWNER => some (update table a.assetName fun row => { row with ownership := 1 })
      | .NEW_ASSET =>
        some (update table a.assetName fun row =>
          { setData a row with amount := sqlInteger a.amount.toNat })
      | .INVALID => some table
  | none => some (table ++ [newRow a])

def rejectAssetTx (a : BRAsset) (table : List AssetRow) : Option (List AssetRow) := do
  guard (plainText a.assetName)
  match isAssetExiste table a.assetName with
  | some row => do
    let amount ← addUInt64 (readAmount row) a.amount.toNat
    some (update table a.assetName fun row => { row with amount := sqlInteger amount })
  | none => some table

def updateAssetData (a : BRAsset) (table : List AssetRow) : Option (List AssetRow) := do
  guard (plainText a.nameString)
  some (update table a.nameString (setData a))

/-- The stored amount of an asset, zero if there is no row for it. -/
def stored (table : List AssetRow) (name : Bytes) : ℤ :=
  (isAssetExiste table name).elim 0 AssetRow.amount

/-- What `assetAdded` adds to the stored amount of an asset, as long as nothing is out of range. -/
def credit (received : Bool) (a : BRAsset) (table : List AssetRow) (name : Bytes) : ℤ :=
  if a.isOwner ∨ a.nameString ≠ name then 0
  else match isAssetExiste table name, a.type with
    | none, _ => a.amount.toNat
    | some _, .TRANSFER => if received then a.amount.toNat else -a.amount.toNat
    | some _, .REISSUE => a.amount.toNat
    | some row, .NEW_ASSET => a.amount.toNat - row.amount
    | some _, .OWNER => 0
    | some _, .INVALID => 0

/-- What `rejectAssetTx` adds. -/
def refund (a : BRAsset) (table : List AssetRow) (name : Bytes) : ℤ :=
  if a.assetName = name ∧ (isAssetExiste table name).isSome then a.amount.toNat else 0

/-- The amounts that `assetAdded` reads are not negative, and those that it writes are in range. -/
def Room (a : BRAsset) (table : List AssetRow) : Prop :=
  match isAssetExiste table a.assetName, a.type with
  | none, _ => (a.amount.toNat : ℤ) < 2 ^ 63
  -- a sum that is out of range traps
  | some row, .TRANSFER => 0 ≤ row.amount
  | some row, .REISSUE => 0 ≤ row.amount ∧ row.amount + a.amount.toNat < 2 ^ 63
  | some _, .NEW_ASSET => (a.amount.toNat : ℤ) < 2 ^ 63
  | some _, .OWNER => True
  | some _, .INVALID => True

/-- The stored amount is not negative, and there is room for that of the asset. -/
structure InRange (a : BRAsset) (table : List AssetRow) : Prop where
  nonneg : 0 ≤ stored table a.assetName
  room : stored table a.assetName + a.amount.toNat < 2 ^ 63

variable {table table' : List AssetRow} {a : BRAsset} {name : Bytes} {row : AssetRow}
  {received : Bool} {set : AssetRow → AssetRow}

/-! ## Rows that are found -/

theorem isAssetExiste_name (h : isAssetExiste table name = some row) : row.name = name :=
  of_decide_eq_true (List.find?_some (p := fun row : AssetRow => decide (row.name = name)) h)

theorem stored_of_some (h : isAssetExiste table name = some row) :
    stored table name = row.amount := by
  rw [stored, h]
  rfl

theorem stored_of_none (h : isAssetExiste table name = none) : stored table name = 0 := by
  rw [stored, h]
  rfl

theorem isAssetExiste_update (set : AssetRow → AssetRow) (n : Bytes) :
    isAssetExiste (update table name set) n =
      (isAssetExiste table n).map fun row =>
        if row.name = name then { set row with name := row.name } else row := by
  rw [isAssetExiste, isAssetExiste, update, List.find?_map]
  congr 2
  funext row
  rw [Function.comp_apply]
  split_ifs <;> rfl

/-- An update changes the amount of one asset. -/
theorem stored_update (h : isAssetExiste table name = some row) (n : Bytes) :
    stored (update table name set) n = if n = name then (set row).amount else stored table n := by
  rw [stored, isAssetExiste_update]
  split_ifs with hn
  · subst hn
    rw [h, Option.map_some, if_pos (isAssetExiste_name h)]
    rfl
  · cases hrow : isAssetExiste table n with
    | none => rw [stored_of_none hrow, Option.map_none, Option.elim_none]
    | some r =>
      have hr := isAssetExiste_name hrow
      rw [stored_of_some hrow, Option.map_some, if_neg (hr ▸ hn), Option.elim_some]

/-- An update that keeps the amount in a row changes no stored amount. -/
theorem stored_update_same (hset : ∀ row, (set row).amount = row.amount) (n : Bytes) :
    stored (update table name set) n = stored table n := by
  rw [stored, stored, isAssetExiste_update]
  cases isAssetExiste table n with
  | none => rfl
  | some row =>
    rw [Option.map_some, Option.elim_some, Option.elim_some]
    split_ifs
    · exact hset row
    · rfl

theorem stored_insert (h : isAssetExiste table row.name = none) (n : Bytes) :
    stored (table ++ [row]) n = if n = row.name then row.amount else stored table n := by
  rw [stored, isAssetExiste, List.find?_append]
  split_ifs with hn
  · subst hn
    rw [show table.find? _ = none from h]
    simp
  · have hne : ¬ row.name = n := fun h => hn h.symm
    simp [hne, stored, isAssetExiste]

/-! ## The operations -/

theorem sqlInteger_of_lt {n : ℕ} (h : (n : ℤ) < 2 ^ 63) : sqlInteger n = n := by
  rw [sqlInteger, if_pos (by exact_mod_cast h)]

theorem toInt64_some {n k : ℤ} (h : toInt64 n = some k) : k = n := by
  rw [toInt64] at h
  split_ifs at h
  exact (Option.some.inj h).symm

theorem addUInt64_some {n k l : ℕ} (h : addUInt64 n k = some l) : l = n + k := by
  rw [addUInt64] at h
  split_ifs at h
  exact (Option.some.inj h).symm

theorem InRange.readAmount (h : InRange a table)
    (hrow : isAssetExiste table a.assetName = some row) :
    (readAmount row : ℤ) = row.amount := by
  have hnonneg := h.nonneg
  rw [stored_of_some hrow] at hnonneg
  exact Int.toNat_of_nonneg hnonneg

theorem assetName_of_not (h : a.isOwner = false) : a.assetName = a.nameString := by
  rw [BRAsset.assetName, h]
  rfl

theorem credit_of_owner (h : a.isOwner = true) (n : Bytes) : credit received a table n = 0 :=
  if_pos (Or.inl h)

theorem credit_of_ne {n : Bytes} (h : n ≠ a.nameString) : credit received a table n = 0 :=
  if_pos (Or.inr h.symm)

theorem credit_insert (howner : a.isOwner = false)
    (hrow : isAssetExiste table a.nameString = none) :
    credit received a table a.nameString = a.amount.toNat := by
  rw [credit, howner, hrow]
  simp

theorem credit_update (received : Bool) (howner : a.isOwner = false)
    (hrow : isAssetExiste table a.nameString = some row) :
    credit received a table a.nameString =
      match a.type with
      | .TRANSFER => if received then (a.amount.toNat : ℤ) else -a.amount.toNat
      | .REISSUE => a.amount.toNat
      | .NEW_ASSET => a.amount.toNat - row.amount
      | .OWNER => 0
      | .INVALID => 0 := by
  rw [credit, howner, hrow]
  cases a.type <;> simp

/-- One amount changes by what is added to it. -/
theorem stored_add {v : ℤ}
    (hv : v = stored table a.nameString + credit received a table a.nameString)
    (n : Bytes) : (if n = a.nameString then v else stored table n) =
      stored table n + credit received a table n := by
  split_ifs with hn
  · rw [hn, hv]
  · rw [credit_of_ne hn, add_zero]

theorem credit_eq_zero (h : credit received a table a.nameString = 0) (n : Bytes) :
    credit received a table n = 0 := by
  by_cases hn : n = a.nameString
  · rw [hn, h]
  · exact credit_of_ne hn

/-- The stored amounts after a row was inserted for an asset. -/
theorem newRow_stored (hrow : isAssetExiste table a.assetName = none)
    (hr : a.isOwner = false → (a.amount.toNat : ℤ) < 2 ^ 63) (n : Bytes) :
    stored (table ++ [newRow a]) n = stored table n + credit received a table n := by
  have hkey : isAssetExiste table (newRow a).name = none := hrow
  rw [stored_insert hkey]
  cases howner : a.isOwner with
  | true =>
    rw [credit_of_owner howner, add_zero]
    split_ifs with hn
    · rw [hn, newRow, howner, if_pos rfl]
      exact (stored_of_none hrow).symm
    · rfl
  | false =>
    have hname : (newRow a).name = a.nameString := assetName_of_not howner
    rw [hname]
    refine stored_add ?_ n
    rw [assetName_of_not howner] at hrow
    rw [credit_insert howner hrow, stored_of_none hrow, zero_add, newRow, howner]
    exact sqlInteger_of_lt (hr howner)

/-- The stored amounts after `assetAdded`. -/
theorem assetAdded_stored (h : assetAdded received a table = some table')
    (hr : a.isOwner = false → Room a table) (n : Bytes) :
    stored table' n = stored table n + credit received a table n := by
  rw [assetAdded] at h
  simp only [guard, Option.bind_eq_bind, Option.bind_eq_some_iff] at h
  obtain ⟨-, -, h⟩ := h
  rw [Room] at hr
  cases hrow : isAssetExiste table a.assetName with
  | none =>
    rw [hrow] at hr
    simp only [hrow, Option.some.injEq] at h
    subst h
    exact newRow_stored hrow hr n
  | some row =>
    rw [hrow] at hr
    cases howner : a.isOwner with
    | true =>
      simp only [hrow, howner, if_true, Option.some.injEq] at h
      subst h
      rw [credit_of_owner howner, add_zero]
      refine stored_update_same ?_ n
      intro row
      rfl
    | false =>
      have hroom := hr howner
      have hname := assetName_of_not howner
      rw [hname] at hrow
      have hstored := stored_of_some hrow
      have hcredit := credit_update received howner hrow
      simp only [hname, hrow, howner, Bool.false_eq_true, if_false] at h
      cases htype : a.type with
      | TRANSFER =>
        rw [htype] at h hcredit hroom
        have hread : (readAmount row : ℤ) = row.amount := Int.toNat_of_nonneg hroom
        simp only [Option.bind_eq_some_iff, Option.some.injEq] at h
        obtain ⟨amount, hamount, moved, hmoved, amount', hamount', rfl⟩ := h
        obtain rfl := toInt64_some hamount
        obtain rfl := toInt64_some hmoved
        obtain rfl := toInt64_some hamount'
        refine (stored_update hrow n).trans (stored_add ?_ n)
        rw [hstored, hcredit, hread]
        cases received with
        | true => rfl
        | false => exact Int.sub_eq_add_neg
      | REISSUE =>
        rw [htype] at h hcredit hroom
        obtain ⟨hnonneg, hroom⟩ := hroom
        have hread : (readAmount row : ℤ) = row.amount := Int.toNat_of_nonneg hnonneg
        simp only [Option.bind_eq_some_iff, Option.some.injEq] at h
        obtain ⟨amount, hamount, rfl⟩ := h
        obtain rfl := addUInt64_some hamount
        refine (stored_update hrow n).trans (stored_add ?_ n)
        rw [hstored, hcredit, ← hread]
        have hsum := sqlInteger_of_lt (n := a.amount.toNat + readAmount row) (by push_cast; omega)
        rw [hsum]
        push_cast
        exact add_comm _ _
      | OWNER =>
        rw [htype] at h hcredit
        cases h
        rw [credit_eq_zero hcredit, add_zero]
        refine stored_update_same ?_ n
        intro row
        rfl
      | NEW_ASSET =>
        rw [htype] at h hcredit hroom
        cases h
        refine (stored_update hrow n).trans (stored_add ?_ n)
        rw [hstored, hcredit]
        exact (sqlInteger_of_lt hroom).trans (add_sub_cancel row.amount _).symm
      | INVALID =>
        rw [htype] at h hcredit
        cases h
        rw [credit_eq_zero hcredit, add_zero]

/-- The stored amounts after `rejectAssetTx`. -/
theorem rejectAssetTx_stored (h : rejectAssetTx a table = some table') (hr : InRange a table)
    (n : Bytes) : stored table' n = stored table n + refund a table n := by
  rw [rejectAssetTx] at h
  simp only [guard, Option.bind_eq_bind, Option.bind_eq_some_iff] at h
  obtain ⟨-, -, h⟩ := h
  cases hrow : isAssetExiste table a.assetName with
  | none =>
    simp only [hrow, Option.some.injEq] at h
    subst h
    rw [refund, if_neg, add_zero]
    rintro ⟨rfl, hsome⟩
    rw [hrow] at hsome
    cases hsome
  | some row =>
    have hread := hr.readAmount hrow
    have hroom := hr.room
    rw [stored_of_some hrow] at hroom
    simp only [hrow, Option.bind_eq_some_iff, Option.some.injEq] at h
    obtain ⟨amount, hamount, rfl⟩ := h
    obtain rfl := addUInt64_some hamount
    refine (stored_update hrow n).trans ?_
    rw [refund]
    by_cases hn : n = a.assetName
    · subst hn
      rw [if_pos rfl, hrow, stored_of_some hrow, if_pos ⟨rfl, rfl⟩, ← hread]
      exact (sqlInteger_of_lt (by push_cast; omega)).trans (by push_cast; rfl)
    · rw [if_neg hn, if_neg fun h => hn h.1.symm, add_zero]

/-- What arrives about an asset changes no amount. -/
theorem updateAssetData_stored (h : updateAssetData a table = some table') (n : Bytes) :
    stored table' n = stored table n := by
  rw [updateAssetData] at h
  simp only [guard, Option.bind_eq_bind, Option.bind_eq_some_iff, Option.some.injEq] at h
  obtain ⟨-, -, rfl⟩ := h
  refine stored_update_same ?_ n
  intro row
  rfl

end AssetTable

end RavenWallet
