/-
  Serializers that write into a buffer, or only count if there is none.

  A `Writer` is called with a buffer, or none, and returns it as it leaves it and
  a number.  It takes steps from an offset on: a `field`, which is written if it
  fits, or another writer for the rest of the buffer.  `Writes` says what a writer
  writes into a buffer with enough room, which is also what it counts.

  * `writes_run`: a writer writes what its steps put one behind the other.
-/
import RavenWallet.Lib.Buffer

namespace RavenWallet

universe u
variable {α : Type u}

/-- The buffer after a call, none if there is none, and the number that is returned. -/
abbrev Writer (α : Type u) := Option (List α) → Option (List α) × ℕ

/-- From the buffer and the offset to those after the step. -/
abbrev WriteStep (α : Type u) := Option (List α) × ℕ → Option (List α) × ℕ

namespace WriteStep

/-- Writes `xs` at the offset if there is room. -/
def field (xs : List α) : WriteStep α := fun (data, off) =>
  (data.map fun buf => (poke buf off xs).getD buf, off + xs.length)

/-- Calls a writer for the rest of the buffer. -/
def sub (w : Writer α) : WriteStep α := fun (data, off) =>
  let r := w (data.map fun buf => buf.drop off)
  (data.bind fun buf => r.1.map fun rest => buf.take off ++ rest, off + r.2)

/-- With enough room the step puts `xs` at the offset. -/
structure Puts (s : WriteStep α) (xs : List α) : Prop where
  null : ∀ off, s (none, off) = (none, off + xs.length)
  fits : ∀ a rest, xs.length ≤ rest.length → s (some (a ++ rest), a.length) =
    (some ((a ++ xs) ++ rest.drop xs.length), (a ++ xs).length)

end WriteStep

namespace Writer

/-- The writer that takes these steps; it returns 0 if the buffer was too small. -/
def run (steps : List (WriteStep α)) : Writer α := fun data =>
  let (data', off) := steps.foldl (fun s step => step s) (data, 0)
  (data', if data.all fun buf => decide (off ≤ buf.length) then off else 0)

/-- With enough room the writer writes `xs`. -/
structure Writes (w : Writer α) (xs : List α) : Prop where
  null : w none = (none, xs.length)
  fits : ∀ buf, xs.length ≤ buf.length →
    w (some buf) = (some (xs ++ buf.drop xs.length), xs.length)

end Writer

open Writer WriteStep

theorem puts_field (xs : List α) : Puts (field xs) xs := by
  refine ⟨fun off => rfl, fun a rest h => ?_⟩
  have hsplit : a ++ rest = a ++ (rest.take xs.length ++ rest.drop xs.length) := by
    rw [List.take_append_drop]
  have hpoke := poke_parts hsplit rfl (List.length_take_of_le h)
  rw [field, Option.map_some, hpoke, Option.getD_some, List.length_append, List.append_assoc]

theorem Writer.Writes.puts {w : Writer α} {xs : List α} (h : w.Writes xs) : Puts (sub w) xs := by
  refine ⟨fun off => ?_, fun a rest hroom => ?_⟩
  · rw [sub, Option.map_none, h.null]
    rfl
  · rw [sub, Option.map_some, List.drop_left, h.fits rest hroom, Option.bind_some, Option.map_some,
      List.take_left, List.append_assoc, List.length_append]

/-- The steps put their pieces one behind the other. -/
theorem foldl_puts {steps : List (WriteStep α)} {pieces : List (List α)}
    (h : List.Forall₂ Puts steps pieces) :
    (∀ off, steps.foldl (fun s step => step s) (none, off) =
      (none, off + pieces.flatten.length)) ∧
    ∀ a rest, pieces.flatten.length ≤ rest.length →
      steps.foldl (fun s step => step s) (some (a ++ rest), a.length) =
        (some ((a ++ pieces.flatten) ++ rest.drop pieces.flatten.length),
          (a ++ pieces.flatten).length) := by
  induction h with
  | nil => exact ⟨fun off => rfl, fun a rest _ => by simp⟩
  | @cons step xs steps pieces hstep _ ih =>
    refine ⟨fun off => ?_, fun a rest hroom => ?_⟩
    · rw [List.foldl_cons, hstep.null, ih.1, List.flatten_cons, List.length_append, Nat.add_assoc]
    · rw [List.flatten_cons, List.length_append] at hroom
      have hrest : pieces.flatten.length ≤ (rest.drop xs.length).length := by
        rw [List.length_drop]
        omega
      rw [List.foldl_cons, hstep.fits a rest (by omega), ih.2 (a ++ xs) _ hrest, List.drop_drop,
        List.flatten_cons, @List.length_append _ xs, List.append_assoc a]

theorem writes_run {steps : List (WriteStep α)} {pieces : List (List α)}
    (h : List.Forall₂ Puts steps pieces) : (run steps).Writes pieces.flatten := by
  obtain ⟨hnull, hfits⟩ := foldl_puts h
  refine ⟨?_, fun buf hroom => ?_⟩
  · rw [run, hnull, Nat.zero_add]
    rfl
  · have hfold := hfits [] buf hroom
    rw [List.nil_append, List.nil_append, List.length_nil] at hfold
    rw [run, hfold]
    dsimp only
    rw [Option.all_some, decide_eq_true hroom, if_pos rfl]

/-- One step for each item of a list. -/
theorem forall₂_puts_map {β : Type u} {step : β → WriteStep α} {piece : β → List α}
    (h : ∀ b, Puts (step b) (piece b)) (bs : List β) :
    List.Forall₂ Puts (bs.map step) (bs.map piece) := by
  rw [List.forall₂_map_left_iff, List.forall₂_map_right_iff, List.forall₂_same]
  exact fun b _ => h b

/-- Some steps for each item of a list. -/
theorem forall₂_puts_flatMap {β : Type u} {steps : β → List (WriteStep α)}
    {pieces : β → List (List α)} (h : ∀ b, List.Forall₂ Puts (steps b) (pieces b))
    (bs : List β) : List.Forall₂ Puts (bs.flatMap steps) (bs.flatMap pieces) := by
  induction bs with
  | nil => exact .nil
  | cons b bs ih =>
    rw [List.flatMap_cons, List.flatMap_cons]
    exact List.rel_append (h b) ih

end RavenWallet
