/-
  Growable arrays (BRArray.h).

  An array is a block of memory with its capacity and its count in front of it.  The
  memory that `realloc` adds holds anything.  An allocation succeeds, sizes do not
  overflow, and what is added does not come from the array itself.  A failed assertion
  and an access beyond the memory have no result.

  * `Holds`: what an array holds, with zeros behind it; each operation keeps it;
  * `arrays_refine`: an array goes through the same operations as a list.
-/
import RavenWallet.Lib.Buffer
import RavenWallet.Lib.Moves

namespace RavenWallet

/-- An array: its memory, and the two numbers in front of that. -/
structure BRArray (α : Type) where
  slots : List α
  capacity : ℕ
  count : ℕ
  deriving Repr

namespace BRArray

variable {α : Type} (zero : α) (junk : BRArray α → ℕ → α)

/-! ## The macros -/

/-- `memset` of `n` entries from the index `i` on. -/
def clearSlots (slots : List α) (i n : ℕ) : Option (List α) := poke slots i (List.replicate n zero)

/-- `array_new` -/
def new (capacity : ℕ) : BRArray α :=
  { slots := List.replicate capacity zero, capacity, count := 0 }

/-- The memory after `realloc`. -/
def realloc (a : BRArray α) (capacity : ℕ) : List α :=
  a.slots.take capacity ++
    (List.range' a.slots.length (capacity - a.slots.length)).map (junk a)

/-- `array_set_capacity` -/
def setCapacity (a : BRArray α) (capacity : ℕ) : Option (BRArray α) :=
  if capacity ≥ a.count then do
    let slots := realloc junk a capacity
    let slots ← if capacity > a.capacity then
        clearSlots zero slots a.capacity (capacity - a.capacity)
      else some slots
    some { a with slots, capacity }
  else none

/-- The check that an array has room for `need` entries, before it gets more of them. -/
def reserve (a : BRArray α) (need capacity : ℕ) : Option (BRArray α) :=
  if need > a.capacity then setCapacity zero junk a capacity else some a

/-- `array_set_count` -/
def setCount (a : BRArray α) (count : ℕ) : Option (BRArray α) := do
  let a ← reserve zero junk a count count
  let slots ← if count < a.count then clearSlots zero a.slots count (a.count - count)
    else some a.slots
  some { a with slots, count }

/-- `array_add` -/
def add (a : BRArray α) (item : α) : Option (BRArray α) := do
  let a ← reserve zero junk a (a.count + 1) ((a.capacity + 1) * 3 / 2)
  let slots ← storeAt a.slots a.count item
  some { a with slots, count := a.count + 1 }

/-- `array_add_array` -/
def addArray (a : BRArray α) (other : List α) : Option (BRArray α) := do
  let i := a.count
  let a ← reserve zero junk a (i + other.length) ((i + other.length) * 3 / 2)
  let slots ← copyIn a.slots i other
  some { a with slots, count := a.count + other.length }

/-- The loop of `array_insert`, which decrements the index before it is compared. -/
def insertLoop (index : ℕ) : ℕ → List α → Option (List α)
  | 0, _ => none
  | i + 1, slots =>
    if i > index then do
      let x ← if 1 ≤ i then slots[i - 1]? else none
      let slots ← storeAt slots i x
      insertLoop index i slots
    else some slots

/-- `array_insert`; the count is raised first. -/
def insert (a : BRArray α) (index : ℕ) (item : α) : Option (BRArray α) :=
  let a := { a with count := a.count + 1 }
  let i := a.count
  if index < a.count then do
    let a ← reserve zero junk a i ((a.capacity + 1) * 3 / 2)
    let slots ← insertLoop index i a.slots
    let slots ← storeAt slots index item
    some { a with slots }
  else none

/-- `array_insert_array` -/
def insertArray (a : BRArray α) (index : ℕ) (other : List α) : Option (BRArray α) :=
  let i := a.count + other.length
  if index ≤ a.count then do
    let a ← reserve zero junk a i (i * 3 / 2)
    let slots ← shiftBack other.length (index + other.length) i a.slots
    let slots ← copyIn slots index other
    some { a with slots, count := a.count + other.length }
  else none

/-- The loops of the removals, and the `memset` behind what is left: `len` entries from the index
    that the loop ends with. -/
def closeGap (a : BRArray α) (index len : ℕ) : Option (BRArray α) := do
  let count := a.count - len
  let slots ← shiftFront len (count - index) index a.slots
  let slots ← clearSlots zero slots (max index count) len
  some { a with slots, count }

/-- `array_rm` -/
def rm (a : BRArray α) (index : ℕ) : Option (BRArray α) :=
  if index < a.count then closeGap zero a index 1 else none

/-- `array_rm_last` -/
def rmLast (a : BRArray α) : Option (BRArray α) :=
  if a.count > 0 then do
    let count := a.count - 1
    let slots ← clearSlots zero a.slots count 1
    some { a with slots, count }
  else some a

/-- `array_rm_range` -/
def rmRange (a : BRArray α) (index len : ℕ) : Option (BRArray α) :=
  if index < a.count ∧ index + len ≤ a.count then closeGap zero a index len else none

/-- `array_clear` -/
def clear (a : BRArray α) : Option (BRArray α) := do
  let slots ← clearSlots zero a.slots 0 a.count
  some { a with slots, count := 0 }

inductive Op (α : Type) where
  | new (capacity : ℕ)
  | setCapacity (capacity : ℕ)
  | setCount (count : ℕ)
  | add (item : α)
  | addArray (other : List α)
  | insert (index : ℕ) (item : α)
  | insertArray (index : ℕ) (other : List α)
  | rm (index : ℕ)
  | rmLast
  | rmRange (index len : ℕ)
  | clear
  deriving Repr

def step (a : BRArray α) : Op α → Option (BRArray α)
  | .new capacity => some (new zero capacity)
  | .setCapacity capacity => setCapacity zero junk a capacity
  | .setCount count => setCount zero junk a count
  | .add item => add zero junk a item
  | .addArray other => addArray zero junk a other
  | .insert index item => insert zero junk a index item
  | .insertArray index other => insertArray zero junk a index other
  | .rm index => rm zero a index
  | .rmLast => rmLast zero a
  | .rmRange index len => rmRange zero a index len
  | .clear => clear zero a

/-- The elements. -/
def elements (a : BRArray α) : List α := a.slots.take a.count

/-! ## Lists -/

namespace Op

/-- The operation on a list. -/
def onList (l : List α) : Op α → List α
  | new _ => []
  | setCapacity _ => l
  | setCount count => l.take count ++ List.replicate (count - l.length) zero
  | add item => l ++ [item]
  | addArray other => l ++ other
  | insert index item => l.insertIdx index item
  | insertArray index other => l.take index ++ (other ++ l.drop index)
  | rm index => l.eraseIdx index
  | rmLast => l.dropLast
  | rmRange index len => l.take index ++ l.drop (index + len)
  | clear => []

/-- What the operation asserts of its arguments. -/
def Asserted (l : List α) : Op α → Prop
  | setCapacity capacity => l.length ≤ capacity
  | insert index _ | insertArray index _ => index ≤ l.length
  | rm index => index < l.length
  | rmRange index len => index < l.length ∧ index + len ≤ l.length
  | new _ | setCount _ | add _ | addArray _ | rmLast | clear => True

end Op

/-- The assertions on the arguments of all the operations hold. -/
def AllAsserted : List α → List (Op α) → Prop
  | _, [] => True
  | l, op :: ops => op.Asserted l ∧ AllAsserted (op.onList zero l) ops

/-! ## What an array holds -/

/-- The memory starts with the list, and has zeros behind it. -/
structure Fills (a : BRArray α) (l : List α) : Prop where
  slots : a.slots = l ++ List.replicate (a.capacity - l.length) zero
  room : l.length ≤ a.capacity

/-- The array holds the list, and zeros behind it. -/
structure Holds (a : BRArray α) (l : List α) : Prop extends Fills zero a l where
  count : a.count = l.length

section
variable {zero junk} {a : BRArray α} {l : List α}

theorem Fills.length (h : Fills zero a l) : a.slots.length = a.capacity := by
  rw [h.slots, List.length_append, List.length_replicate, Nat.add_sub_cancel' h.room]

/-- The slots behind the list, of which some are set apart. -/
theorem Fills.split (h : Fills zero a l) {n : ℕ} (hn : l.length + n ≤ a.capacity) :
    a.slots = l ++ (List.replicate n zero ++
      List.replicate (a.capacity - (l.length + n)) zero) := by
  rw [h.slots, List.replicate_append_replicate]
  congr 2
  omega

theorem Holds.elements (h : Holds zero a l) : a.elements = l := by
  rw [BRArray.elements, h.count, h.slots, List.take_left]

theorem new_holds (capacity : ℕ) : Holds zero (new zero capacity) [] where
  slots := rfl
  room := Nat.zero_le _
  count := rfl

/-- **The capacity** can be set to any number that is not below the count. -/
theorem setCapacity_fills (h : Fills zero a l) {capacity : ℕ} (hl : l.length ≤ capacity)
    (hcount : a.count ≤ capacity) :
    ∃ a', setCapacity zero junk a capacity = some a' ∧ Fills zero a' l ∧
      a'.capacity = capacity ∧ a'.count = a.count := by
  have hlen := h.length
  rw [setCapacity, if_pos hcount]
  dsimp only
  by_cases hgrow : capacity > a.capacity
  · -- the memory that is added is cleared from the old capacity on
    have hrealloc : realloc junk a capacity = a.slots ++
        ((List.range' a.slots.length (capacity - a.slots.length)).map (junk a) ++ []) := by
      rw [realloc, List.take_of_length_le (by omega), List.append_nil]
    have hclear : clearSlots zero (realloc junk a capacity) a.capacity (capacity - a.capacity) =
        some (a.slots ++ (List.replicate (capacity - a.capacity) zero ++ [])) := by
      refine poke_parts hrealloc hlen ?_
      simp [hlen]
    rw [if_pos hgrow, hclear]
    refine ⟨_, rfl, ⟨?_, hl⟩, rfl, rfl⟩
    dsimp only
    rw [h.slots, List.append_nil, List.append_assoc, List.replicate_append_replicate]
    congr 2
    have := h.room
    omega
  · have hrealloc : realloc junk a capacity =
        l ++ List.replicate (capacity - l.length) zero := by
      rw [realloc, hlen, Nat.sub_eq_zero_of_le (Nat.le_of_not_lt hgrow), h.slots,
        List.take_append, List.take_of_length_le hl, List.take_replicate]
      simp only [List.range'_zero, List.map_nil, List.append_nil]
      congr 2
      omega
    rw [if_neg hgrow, hrealloc]
    exact ⟨_, rfl, ⟨rfl, hl⟩, rfl, rfl⟩

/-- Arrays grow if they have to. -/
theorem reserve_fills (h : Fills zero a l) {need capacity : ℕ} (hl : l.length ≤ need)
    (hcount : a.count ≤ need) (hneed : need ≤ capacity) :
    ∃ a', reserve zero junk a need capacity = some a' ∧ Fills zero a' l ∧
      need ≤ a'.capacity ∧ a'.count = a.count := by
  by_cases hgrow : need > a.capacity
  · obtain ⟨a', ha', hfills, hcapacity, hsame⟩ :=
      setCapacity_fills (hl.trans hneed) (hcount.trans hneed) (h := h)
    exact ⟨a', by rw [reserve, if_pos hgrow, ha'], hfills, hcapacity ▸ hneed, hsame⟩
  · exact ⟨a, if_neg hgrow, h, Nat.le_of_not_lt hgrow, rfl⟩

theorem setCapacity_holds (h : Holds zero a l) {capacity : ℕ} (hl : l.length ≤ capacity) :
    ∃ a', setCapacity zero junk a capacity = some a' ∧ Holds zero a' l := by
  obtain ⟨a', ha', hfills, -, hcount⟩ :=
    @setCapacity_fills _ _ junk _ _ h.toFills capacity hl (h.count ▸ hl)
  exact ⟨a', ha', hfills, hcount.trans h.count⟩

theorem holds_of_parts {slots : List α} {capacity count n : ℕ}
    (hslots : slots = l ++ List.replicate n zero) (hcapacity : l.length + n = capacity)
    (hcount : count = l.length) : Holds zero { slots, capacity, count } l where
  slots := by rw [hslots, ← hcapacity, Nat.add_sub_cancel_left]
  room := hcapacity ▸ Nat.le_add_right _ _
  count := hcount

theorem setCount_holds (h : Holds zero a l) (count : ℕ) :
    ∃ a', setCount zero junk a count = some a' ∧
      Holds zero a' (l.take count ++ List.replicate (count - l.length) zero) := by
  have hcount := h.count
  by_cases hless : count < l.length
  · have hroom := h.room
    have hreserve : reserve zero junk a count count = some a := if_neg (by omega)
    have hclear : clearSlots zero a.slots count (a.count - count) =
        some (l.take count ++ (List.replicate (l.length - count) zero ++
          List.replicate (a.capacity - l.length) zero)) := by
      rw [hcount]
      refine poke_parts (b := l.drop count) ?_ (List.length_take_of_le hless.le) (by simp)
      rw [h.slots, ← List.append_assoc, List.take_append_drop]
    rw [setCount, hreserve, Option.bind_eq_bind, Option.bind_some, if_pos (hcount ▸ hless), hclear]
    refine ⟨_, rfl, ?_⟩
    rw [Nat.sub_eq_zero_of_le hless.le, List.replicate_zero, List.append_nil,
      List.replicate_append_replicate]
    refine holds_of_parts rfl ?_ (List.length_take_of_le hless.le).symm
    rw [List.length_take_of_le hless.le]
    omega
  · have hle : l.length ≤ count := Nat.le_of_not_lt hless
    obtain ⟨a', hreserve, hfills, hroom, hsame⟩ :=
      @reserve_fills _ _ junk _ _ h.toFills count count hle (hcount ▸ hle) (Nat.le_refl count)
    rw [setCount, hreserve, Option.bind_eq_bind, Option.bind_some, if_neg (by omega)]
    refine ⟨_, rfl, ?_⟩
    rw [List.take_of_length_le hle]
    have hlen : (l ++ List.replicate (count - l.length) zero).length = count := by
      rw [List.length_append, List.length_replicate, Nat.add_sub_cancel' hle]
    refine holds_of_parts (n := a'.capacity - count) ?_ (by omega) hlen.symm
    rw [@Fills.split _ _ _ _ hfills (count - l.length) (by omega), List.append_assoc,
      Nat.add_sub_cancel' hle]

theorem add_holds (h : Holds zero a l) (item : α) :
    ∃ a', add zero junk a item = some a' ∧ Holds zero a' (l ++ [item]) := by
  have hcount := h.count
  have hroom := h.room
  obtain ⟨a', hreserve, hfills, hroom', hsame⟩ := @reserve_fills _ _ junk _ _ h.toFills
    (a.count + 1) ((a.capacity + 1) * 3 / 2) (by omega) (by omega) (by omega)
  have hstore : storeAt a'.slots a'.count item =
      some (l ++ item :: List.replicate (a'.capacity - (l.length + 1)) zero) := by
    rw [@Fills.split _ _ _ _ hfills 1 (by omega)]
    exact storeAt_parts (hsame.trans hcount).symm zero item
  rw [add, hreserve, Option.bind_eq_bind, Option.bind_some, hstore]
  have hlen : (l ++ [item]).length = l.length + 1 := List.length_append
  exact ⟨_, rfl, holds_of_parts (n := a'.capacity - (l.length + 1)) (by simp) (by omega)
    (by omega)⟩

theorem addArray_holds (h : Holds zero a l) (other : List α) :
    ∃ a', addArray zero junk a other = some a' ∧ Holds zero a' (l ++ other) := by
  have hcount := h.count
  obtain ⟨a', hreserve, hfills, hroom, hsame⟩ := @reserve_fills _ _ junk _ _ h.toFills
    (a.count + other.length) ((a.count + other.length) * 3 / 2) (by omega) (by omega) (by omega)
  have hcopy : copyIn a'.slots a.count other = some (l ++ (other ++
      List.replicate (a'.capacity - (l.length + other.length)) zero)) := by
    rw [@Fills.split _ _ _ _ hfills other.length (by omega)]
    exact copyIn_parts hcount.symm (List.length_replicate ..)
  rw [addArray, hreserve, Option.bind_eq_bind, Option.bind_some, hcopy]
  have hlen : (l ++ other).length = l.length + other.length := List.length_append
  exact ⟨_, rfl, holds_of_parts (List.append_assoc ..).symm (by omega) (by omega)⟩

/-! ### Insertions -/

/-- The loop of `array_insert` is that of `array_insert_array` for a single entry. -/
theorem insertLoop_eq {index i : ℕ} (hi : index ≤ i) (slots : List α) :
    insertLoop index (i + 1) slots = shiftBack 1 (index + 1) (i + 1) slots := by
  induction i generalizing slots with
  | zero => rw [insertLoop, shiftBack, if_neg (by omega), if_neg (by omega)]
  | succ i ih =>
    rw [insertLoop, shiftBack]
    by_cases hlt : i + 1 > index
    · rw [if_pos hlt, if_pos (show i + 1 + 1 > index + 1 by omega), Nat.add_sub_cancel]
      simp only [ih (by omega : index ≤ i), Nat.le_add_left, if_true]
    · rw [if_neg hlt, if_neg (by omega)]

/-- The part of an array behind an index is moved to make room for `n` entries. -/
theorem shiftBack_fills (hfills : Fills zero a l) {index n : ℕ} (hindex : index ≤ l.length)
    (hroom : l.length + n ≤ a.capacity) :
    ∃ gap, gap.length = n ∧ shiftBack n (index + n) (l.length + n) a.slots =
      some (l.take index ++ (gap ++
        (l.drop index ++ List.replicate (a.capacity - (l.length + n)) zero))) := by
  have htake : (l.take index).length = index := List.length_take_of_le hindex
  have hslots : a.slots = l.take index ++ (l.drop index ++ (List.replicate n zero ++
      List.replicate (a.capacity - (l.length + n)) zero)) := by
    rw [← List.append_assoc, List.take_append_drop, ← hfills.split hroom]
  rw [hslots]
  refine shiftBack_parts (by rw [htake]) (List.length_replicate ..) ?_
  rw [htake, List.length_drop]
  omega

theorem insert_holds (h : Holds zero a l) {index : ℕ} (hindex : index ≤ l.length) (item : α) :
    ∃ a', insert zero junk a index item = some a' ∧ Holds zero a' (l.insertIdx index item) := by
  have hcount := h.count
  have hroom := h.room
  have hraised : Fills zero { a with count := a.count + 1 } l := ⟨h.slots, h.room⟩
  obtain ⟨a', hreserve, hfills, hroom', hsame⟩ := @reserve_fills _ _ junk _ _ hraised
    (a.count + 1) ((a.capacity + 1) * 3 / 2) (by omega) (Nat.le_refl _) (by omega)
  obtain ⟨gap, hgap, hshift⟩ := @shiftBack_fills _ _ _ _ hfills index 1 hindex (by omega)
  obtain ⟨x, rfl⟩ := List.length_eq_one_iff.1 hgap
  rw [insert]
  dsimp only
  rw [if_pos (by omega), hreserve, Option.bind_eq_bind, Option.bind_some, hcount,
    insertLoop_eq hindex, hshift, Option.bind_eq_bind, Option.bind_some, List.singleton_append,
    storeAt_parts (List.length_take_of_le hindex)]
  have hinsert := insertIdx_parts hindex item
  have hlen : (l.insertIdx index item).length = l.length + 1 :=
    List.length_insertIdx_of_le_length hindex item
  refine ⟨_, rfl, holds_of_parts (n := a'.capacity - (l.length + 1)) ?_ ?_ ?_⟩
  · rw [hinsert, List.append_assoc, List.cons_append]
  · omega
  · rw [hsame, hcount, hlen]

theorem insertArray_holds (h : Holds zero a l) {index : ℕ} (hindex : index ≤ l.length)
    (other : List α) :
    ∃ a', insertArray zero junk a index other = some a' ∧
      Holds zero a' (l.take index ++ (other ++ l.drop index)) := by
  have hcount := h.count
  obtain ⟨a', hreserve, hfills, hroom, hsame⟩ := @reserve_fills _ _ junk _ _ h.toFills
    (a.count + other.length) ((a.count + other.length) * 3 / 2) (by omega) (by omega) (by omega)
  obtain ⟨gap, hgap, hshift⟩ :=
    @shiftBack_fills _ _ _ _ hfills index other.length hindex (by omega)
  rw [insertArray, if_pos (hcount ▸ hindex), hreserve, Option.bind_eq_bind, Option.bind_some,
    hcount, hshift, Option.bind_eq_bind, Option.bind_some,
    copyIn_parts (List.length_take_of_le hindex) hgap]
  have hlen : (l.take index ++ (other ++ l.drop index)).length = l.length + other.length := by
    simp only [List.length_append, List.length_take_of_le hindex, List.length_drop]
    omega
  refine ⟨_, rfl, holds_of_parts (n := a'.capacity - (l.length + other.length)) ?_ ?_ ?_⟩
  · simp only [List.append_assoc]
  · omega
  · omega

/-! ### Removals -/

/-- **A part of an array** is taken out, and as much behind what is left is cleared. -/
theorem closeGap_holds (h : Holds zero a l) {index len : ℕ} (hindex : index + len ≤ l.length) :
    ∃ a', closeGap zero a index len = some a' ∧
      Holds zero a' (l.take index ++ l.drop (index + len)) := by
  have hcount := h.count
  have hroom := h.room
  have htake : (l.take index).length = index := List.length_take_of_le (by omega)
  have hslots : a.slots = l.take index ++ ((l.drop index).take len ++ (l.drop (index + len) ++
      List.replicate (a.capacity - l.length) zero)) := by
    rw [h.slots, ← List.append_assoc, ← List.append_assoc, ← List.drop_drop, List.append_assoc _ _
      (List.drop _ _), List.take_append_drop, List.take_append_drop]
  have hrounds : (l.drop (index + len)).length = a.count - len - index := by
    rw [List.length_drop]
    omega
  have hremoved : ((l.drop index).take len).length = len := by
    rw [List.length_take, List.length_drop]
    omega
  obtain ⟨gap, hgap, hshift⟩ := shiftFront_parts
    (c := List.replicate (a.capacity - l.length) zero) htake hremoved hrounds
  rw [← hslots] at hshift
  have hclear : clearSlots zero (l.take index ++ (l.drop (index + len) ++ (gap ++
      List.replicate (a.capacity - l.length) zero))) (max index (a.count - len)) len =
        some (l.take index ++ l.drop (index + len) ++ (List.replicate len zero ++
          List.replicate (a.capacity - l.length) zero)) := by
    refine poke_parts (List.append_assoc ..).symm ?_ ?_
    · rw [List.length_append, htake, hrounds]
      omega
    · rw [hgap, List.length_replicate]
  rw [closeGap, hshift, Option.bind_eq_bind, Option.bind_some, hclear]
  have hlen : (l.take index ++ l.drop (index + len)).length = l.length - len := by
    rw [List.length_append, htake, hrounds]
    omega
  refine ⟨_, rfl, holds_of_parts (n := len + (a.capacity - l.length)) ?_ ?_ ?_⟩
  · rw [List.replicate_append_replicate]
  · omega
  · omega

theorem rm_holds (h : Holds zero a l) {index : ℕ} (hindex : index < l.length) :
    ∃ a', rm zero a index = some a' ∧ Holds zero a' (l.eraseIdx index) := by
  rw [rm, if_pos (h.count ▸ hindex), List.eraseIdx_eq_take_drop_succ]
  exact closeGap_holds h hindex

theorem rmLast_holds (h : Holds zero a l) :
    ∃ a', rmLast zero a = some a' ∧ Holds zero a' l.dropLast := by
  have hcount := h.count
  rcases l.eq_nil_or_concat with rfl | ⟨front, x, rfl⟩
  · rw [rmLast, if_neg (by rw [hcount]; simp)]
    exact ⟨a, rfl, h⟩
  · rw [List.concat_eq_append] at h hcount ⊢
    have hroom := h.room
    rw [List.length_append, List.length_singleton] at hcount hroom
    have hslots : a.slots = front ++ ([x] ++
        List.replicate (a.capacity - (front ++ [x]).length) zero) := by
      rw [h.slots, List.append_assoc]
    have hclear : clearSlots zero a.slots (a.count - 1) 1 = some (front ++
        (List.replicate 1 zero ++ List.replicate (a.capacity - (front ++ [x]).length) zero)) :=
      poke_parts hslots (by omega) (by simp)
    rw [rmLast, if_pos (by omega)]
    dsimp only
    rw [hclear, List.dropLast_concat]
    refine ⟨_, rfl, holds_of_parts (n := 1 + (a.capacity - (front ++ [x]).length)) ?_ ?_
      (by omega)⟩
    · rw [List.replicate_append_replicate]
    · rw [List.length_append, List.length_singleton]
      omega

theorem rmRange_holds (h : Holds zero a l) {index len : ℕ} (hindex : index < l.length)
    (hlen : index + len ≤ l.length) :
    ∃ a', rmRange zero a index len = some a' ∧
      Holds zero a' (l.take index ++ l.drop (index + len)) := by
  rw [rmRange, if_pos ⟨h.count ▸ hindex, h.count ▸ hlen⟩]
  exact closeGap_holds h hlen

theorem clear_holds (h : Holds zero a l) :
    ∃ a', clear zero a = some a' ∧ Holds zero a' [] := by
  have hroom := h.room
  have hclear : clearSlots zero a.slots 0 a.count = some ([] ++ (List.replicate a.count zero ++
      List.replicate (a.capacity - l.length) zero)) :=
    poke_parts (a := []) h.slots rfl (by rw [List.length_replicate, h.count])
  rw [clear, hclear]
  refine ⟨_, rfl, holds_of_parts (n := a.count + (a.capacity - l.length)) ?_ ?_ rfl⟩
  · rw [List.nil_append, List.nil_append, List.replicate_append_replicate]
  · rw [List.length_nil, h.count]
    omega

/-! ## Runs -/

/-- **One operation** does to what an array holds what it does to a list. -/
theorem step_holds (h : Holds zero a l) {op : Op α} (hop : op.Asserted l) :
    ∃ a', step zero junk a op = some a' ∧ Holds zero a' (op.onList zero l) := by
  cases op with
  | new capacity => exact ⟨_, rfl, new_holds capacity⟩
  | setCapacity capacity => exact setCapacity_holds h hop
  | setCount count => exact setCount_holds h count
  | add item => exact add_holds h item
  | addArray other => exact addArray_holds h other
  | insert index item => exact insert_holds h hop item
  | insertArray index other => exact insertArray_holds h hop other
  | rm index => exact rm_holds h hop
  | rmLast => exact rmLast_holds h
  | rmRange index len => exact rmRange_holds h hop.1 hop.2
  | clear => exact clear_holds h

theorem run_holds (h : Holds zero a l) {ops : List (Op α)} (hops : AllAsserted zero l ops) :
    ∃ a', ops.foldlM (step zero junk) a = some a' ∧
      Holds zero a' (ops.foldl (fun l op => op.onList zero l) l) := by
  induction ops generalizing a l with
  | nil => exact ⟨a, rfl, h⟩
  | cons op ops ih =>
    obtain ⟨a', ha', h'⟩ := @step_holds _ _ junk _ _ h op hops.1
    obtain ⟨a'', ha'', h''⟩ := ih h' hops.2
    refine ⟨a'', ?_, h''⟩
    rw [List.foldlM_cons, ha', Option.bind_eq_bind, Option.bind_some, ha'']

end

/-- **Arrays refine lists**: operations that keep to their assertions are carried out, within the
    memory; the elements are those of the list, and there are zeros up to the capacity. -/
theorem arrays_refine (capacity : ℕ) (ops : List (Op α)) (hops : AllAsserted zero [] ops) :
    ∃ a, ops.foldlM (step zero junk) (new zero capacity) = some a ∧
      a.elements = ops.foldl (fun l op => op.onList zero l) [] ∧
      a.count = a.elements.length ∧ a.count ≤ a.capacity ∧ a.slots.length = a.capacity ∧
      ∀ i, a.count ≤ i → i < a.capacity → a.slots[i]? = some zero := by
  obtain ⟨a, ha, h⟩ := @run_holds _ _ junk _ _ (new_holds capacity) ops hops
  have hcount := h.count
  refine ⟨a, ha, h.elements, ?_, hcount ▸ h.room, h.length, fun i hi hcapacity => ?_⟩
  · rw [h.elements, hcount]
  · rw [h.slots, List.getElem?_append_right (hcount ▸ hi), List.getElem?_replicate, if_pos]
    omega

theorem arrays_refine_fives : ∃ a, [Op.add 5, .insert 0 6, .insertArray 1 [8, 9], .rmRange 0 2,
    .setCount 4, .rm 0].foldlM (step 0 fun _ _ => 7) (new 0 0) = some a ∧
      a.elements = [5, 0, 0] ∧
      a.count = a.elements.length ∧ a.count ≤ a.capacity ∧ a.slots.length = a.capacity ∧
      ∀ i, a.count ≤ i → i < a.capacity → a.slots[i]? = some 0 :=
  arrays_refine 0 (fun _ _ => 7) 0 _ (by simp [AllAsserted, Op.Asserted, Op.onList])

end BRArray

end RavenWallet
