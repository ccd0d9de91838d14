/-
  Tables of a database.

  A table is the list of its rows in the order of their primary keys, which is
  the order in which they are read.  `insertRow` has no result if there is a row
  with the key.

  `sum_at_key`, `sum_without_key`: sums over rows with distinct keys.
-/
import Mathlib.Algebra.BigOperators.Group.List.Basic
import Mathlib.Algebra.Ring.Int.Defs
import Mathlib.Data.List.Basic
import Mathlib.Data.List.TakeWhile

namespace RavenWallet

variable {ρ : Type} {key : ρ → ℕ} {rows : List ρ} {row : ρ}

/-- Inserts a row, unless its key is taken. -/
def insertRow (key : ρ → ℕ) (rows : List ρ) (row : ρ) : Option (List ρ) :=
  if rows.any fun r => key r = key row then none
  else some (rows.takeWhile (fun r => key r < key row) ++
    row :: rows.dropWhile fun r => key r < key row)

/-- A row with a new greatest key comes last. -/
theorem insertRow_last (h : ∀ r ∈ rows, key r < key row) :
    insertRow key rows row = some (rows ++ [row]) := by
  have htake : rows.takeWhile (fun r => key r < key row) = rows :=
    List.takeWhile_eq_self_iff.2 fun r hr => decide_eq_true (h r hr)
  have hdrop : rows.dropWhile (fun r => key r < key row) = [] :=
    List.dropWhile_eq_nil_iff.2 fun r hr => decide_eq_true (h r hr)
  rw [insertRow, if_neg, htake, hdrop]
  simp only [List.any_eq_true, decide_eq_true_eq, not_exists, not_and]
  exact fun r hr => (h r hr).ne

/-! ## Distinct keys -/

section
variable {κ : Type} [DecidableEq κ] {id : ρ → κ} {k : κ}

/-- The rows with a key are at most the one that is found. -/
theorem filter_key (h : (rows.map id).Nodup) :
    rows.filter (fun r => id r = k) = (rows.find? fun r => id r = k).toList := by
  induction rows with
  | nil => rfl
  | cons r rows ih =>
    rw [List.map_cons, List.nodup_cons] at h
    by_cases hr : id r = k
    · have hnone : rows.filter (fun r => id r = k) = [] := by
        rw [List.filter_eq_nil_iff]
        intro r' hr' hk
        exact h.1 (List.mem_map.2 ⟨r', hr', (of_decide_eq_true hk).trans hr.symm⟩)
      simp [hr, hnone]
    · simp [hr, ih h.2]

/-- A row is found by its key. -/
theorem find?_key (h : (rows.map id).Nodup) (hr : row ∈ rows) (hk : id row = k) :
    rows.find? (fun r => id r = k) = some row := by
  have hmem : row ∈ rows.filter fun r => id r = k := List.mem_filter.2 ⟨hr, decide_eq_true hk⟩
  rw [filter_key h] at hmem
  exact Option.mem_toList.1 hmem

/-- What is summed for one key is that of the row that is found. -/
theorem sum_at_key (h : (rows.map id).Nodup) (g : ρ → ℤ) :
    (rows.map fun r => if id r = k then g r else 0).sum =
      (rows.find? fun r => id r = k).elim 0 g := by
  have hsum : (rows.map fun r => if id r = k then g r else 0).sum =
      ((rows.filter fun r => id r = k).map g).sum := by
    induction rows with
    | nil => rfl
    | cons r rows ih =>
      rw [List.map_cons, List.nodup_cons] at h
      by_cases hr : id r = k
      · simp [hr, ih h.2]
      · simp [hr, ih h.2]
  rw [hsum, filter_key h]
  cases rows.find? fun r => id r = k with
  | none => rfl
  | some r => simp

theorem sum_without_key (g : ρ → ℤ) :
    ((rows.filter fun r => id r ≠ k).map g).sum =
      (rows.map g).sum - (rows.map fun r => if id r = k then g r else 0).sum := by
  induction rows with
  | nil => rfl
  | cons r rows ih =>
    by_cases hr : id r = k
    · simp only [List.filter_cons, hr, ne_eq, not_true_eq_false, decide_false, Bool.false_eq_true,
        if_false, List.map_cons, List.sum_cons, if_true, ih]
      omega
    · simp only [List.filter_cons, hr, ne_eq, not_false_eq_true, decide_true, if_true, List.map_cons,
        List.sum_cons, if_false, ih]
      omega

end

end RavenWallet
