/-
  Loops that fill an array, or only count if there is none.

  A round writes its entry if there is an array and the index is below the size that
  the caller gives; it goes on counting in any case.  `putAll_array`: as many entries
  as there is room for are written, and nothing behind them.
-/
import RavenWallet.Lib.Checked

namespace RavenWallet

variable {α : Type} {xs array : List α} {size i : ℕ}

/-- `if (array && i < size) array[i] = x`. -/
def putAt (array : Option (List α)) (size i : ℕ) (x : α) : Option (Option (List α)) :=
  match array with
  | none => some none
  | some ys => if i < size then (storeAt ys i x).map some else some (some ys)

/-- The entries from the index `i` on. -/
def putAll (array : Option (List α)) (size : ℕ) : ℕ → List α → Option (Option (List α))
  | _, [] => some array
  | i, x :: xs => do
    let array ← putAt array size i x
    putAll array size (i + 1) xs

@[simp] theorem putAt_none (size i : ℕ) (x : α) : putAt none size i x = some none := rfl

theorem putAt_of_lt (hi : i < size) (hsize : size ≤ array.length) (x : α) :
    putAt (some array) size i x = some (some (array.set i x)) := by
  have hlt : i < array.length := Nat.lt_of_lt_of_le hi hsize
  simp [putAt, hi, storeAt_of_lt hlt]

theorem putAt_of_le (hi : size ≤ i) (x : α) : putAt (some array) size i x = some (some array) := by
  simp [putAt, Nat.not_lt.2 hi]

theorem putAll_cons (array : Option (List α)) (size i : ℕ) (x : α) (xs : List α) :
    putAll array size i (x :: xs) =
      (putAt array size i x).bind fun array => putAll array size (i + 1) xs := rfl

theorem putAll_append (array : Option (List α)) (size i : ℕ) (xs ys : List α) :
    putAll array size i (xs ++ ys) =
      (putAll array size i xs).bind fun array => putAll array size (i + xs.length) ys := by
  induction xs generalizing array i with
  | nil => simp [putAll]
  | cons x xs ih =>
    simp only [List.cons_append, putAll_cons, ih, Option.bind_assoc, List.length_cons]
    simp only [Nat.add_assoc, Nat.add_comm 1]

@[simp] theorem putAll_none (size i : ℕ) (xs : List α) : putAll none size i xs = some none := by
  induction xs generalizing i with
  | nil => rfl
  | cons x xs ih => simp [putAll_cons, ih]

/-- Without room left nothing is written. -/
theorem putAll_full (hi : size ≤ i) (xs : List α) :
    putAll (some array) size i xs = some (some array) := by
  induction xs generalizing i with
  | nil => rfl
  | cons x xs ih =>
    rw [putAll_cons, putAt_of_le hi, Option.bind_some, ih (Nat.le_succ_of_le hi)]

theorem putAll_behind {done rest : List α} (hdone : done.length ≤ size)
    (hsize : size ≤ (done ++ rest).length) (xs : List α) :
    putAll (some (done ++ rest)) size done.length xs =
      some (some (done ++ (xs.take (size - done.length) ++
        rest.drop (min xs.length (size - done.length))))) := by
  induction xs generalizing done rest with
  | nil => simp [putAll]
  | cons x xs ih =>
    rcases Nat.lt_or_eq_of_le hdone with hlt | heq
    · obtain ⟨y, rest, rfl⟩ : ∃ y ys, rest = y :: ys := by
        refine List.exists_cons_of_ne_nil ?_
        rintro rfl
        rw [List.append_nil] at hsize
        omega
      have hset : (done ++ y :: rest).set done.length x = (done ++ [x]) ++ rest := by simp
      have hlen : (done ++ [x]).length = done.length + 1 := by simp
      obtain ⟨room, hroom⟩ : ∃ room, size - done.length = room + 1 :=
        ⟨size - done.length - 1, by omega⟩
      have hnext := @ih (done ++ [x]) rest (by rw [hlen]; omega) (by simpa using hsize)
      rw [hlen, show size - (done.length + 1) = room by omega] at hnext
      rw [putAll_cons, putAt_of_lt hlt hsize, Option.bind_some, hset, hnext, hroom]
      simp
    · rw [putAll_full (Nat.le_of_eq heq.symm), heq]
      simp

/-- As many of the entries as there is room for are written, and nothing behind them. -/
theorem putAll_array (hsize : size ≤ array.length) (xs : List α) :
    putAll (some array) size 0 xs =
      some (some (xs.take size ++ array.drop (min xs.length size))) := by
  have h := @putAll_behind _ size [] array (Nat.zero_le _) (by simpa using hsize) xs
  simpa using h

end RavenWallet
