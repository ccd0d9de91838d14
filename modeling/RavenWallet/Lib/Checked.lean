/-
  Integers and arrays whose operations trap.

  A conversion that does not fit, an index or a range beyond the end has no
  result, nor has a shift by the width of a word or more.
-/
import Mathlib.Data.List.Basic

namespace RavenWallet

variable {α : Type} {xs : List α} {i n bound : ℕ}

/-- A conversion to an integer type with the greatest value `bound`. -/
def convert (bound n : ℕ) : Option ℕ := if n ≤ bound then some n else none

/-- `xs[i] = x`. -/
def storeAt (xs : List α) (i : ℕ) (x : α) : Option (List α) :=
  if i < xs.length then some (xs.set i x) else none

/-- `xs.suffix(from: n)`. -/
def suffixFrom (xs : List α) (n : ℕ) : Option (List α) :=
  if n ≤ xs.length then some (xs.drop n) else none

/-- `x << n`. -/
def shl {w : ℕ} (x : BitVec w) (n : ℕ) : Option (BitVec w) := if n < w then some (x <<< n) else none

/-- `x >> n`. -/
def shr {w : ℕ} (x : BitVec w) (n : ℕ) : Option (BitVec w) := if n < w then some (x >>> n) else none

theorem convert_of_le (h : n ≤ bound) : convert bound n = some n := if_pos h

theorem convert_of_lt (h : bound < n) : convert bound n = none := if_neg (Nat.not_le_of_lt h)

theorem convert_eq_some {m : ℕ} : convert bound n = some m ↔ n ≤ bound ∧ n = m := by
  simp [convert]

theorem storeAt_of_lt (h : i < xs.length) (x : α) : storeAt xs i x = some (xs.set i x) := if_pos h

theorem suffixFrom_of_le (h : n ≤ xs.length) : suffixFrom xs n = some (xs.drop n) := if_pos h

section
variable {w : ℕ} (x : BitVec w)

theorem shl_of_lt (h : n < w) : shl x n = some (x <<< n) := if_pos h

theorem shr_of_lt (h : n < w) : shr x n = some (x >>> n) := if_pos h

end

end RavenWallet
