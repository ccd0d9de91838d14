/-
  Counted sequences of items in a buffer.

  `readAll` reads items one behind the other, until there are enough of them or
  the offset is beyond the buffer; those not read stay blank.  With `next` for
  where an item ends, `starts` are the offsets at which items begin and `stop` is
  where the last one ends.

  * `readAll_eq`, `readAll_eq_none` and `readAll_of_fits`: what is read, and when a
    read fails;
  * `stop_sum` and `stop_sum_iff`: how long the items are;
  * `readAll_encoded`: items that were written one behind the other are read.

  `readWhile` reads items by their numbers, until one of them stops it;
  `readWhile_of_fits` says which of them it reaches, and `readWhile_range` what it
  reads when that is known.
-/
import Mathlib.Algebra.BigOperators.Group.List.Basic
import RavenWallet.Lib.Buffer

namespace RavenWallet.Items

universe u
variable {α : Type u} (len : ℕ)

/-- Reads up to `n` items from `off` on. -/
def readAll (read : ℕ → Option (α × ℕ)) (blank : α) : ℕ → ℕ → Option (List α × ℕ)
  | 0, off => some ([], off)
  | n + 1, off =>
    if off ≤ len then do
      let (a, off) ← read off
      let (as, off) ← readAll read blank n off
      some (a :: as, off)
    else some (List.replicate (n + 1) blank, off)

/-- The offsets at which up to `n` items begin. -/
def starts (next : ℕ → ℕ) : ℕ → ℕ → List ℕ
  | 0, _ => []
  | n + 1, off => if off ≤ len then off :: starts next n (next off) else []

/-- Where the last of up to `n` items ends. -/
def stop (next : ℕ → ℕ) : ℕ → ℕ → ℕ
  | 0, off => off
  | n + 1, off => if off ≤ len then stop next n (next off) else off

variable {len} {read : ℕ → Option (α × ℕ)} {blank : α} {next : ℕ → ℕ} {item : ℕ → α}

theorem le_of_mem_starts {n off s : ℕ} (h : s ∈ starts len next n off) : s ≤ len := by
  induction n generalizing off with
  | zero => cases h
  | succ n ih =>
    rw [starts] at h
    split_ifs at h with hle
    · rcases List.mem_cons.1 h with rfl | h
      · exact hle
      · exact ih h
    · cases h

/-- Only beyond the buffer are there fewer items. -/
theorem length_starts {n off : ℕ} (h : stop len next n off ≤ len) :
    (starts len next n off).length = n := by
  induction n generalizing off with
  | zero => rfl
  | succ n ih =>
    rw [stop] at h
    rw [starts]
    split_ifs at h ⊢ with hle
    · rw [List.length_cons, ih h]
    · exact absurd h hle

theorem stop_lt {n off bound : ℕ} (hoff : off < bound)
    (h : ∀ s ∈ starts len next n off, next s < bound) : stop len next n off < bound := by
  induction n generalizing off with
  | zero => exact hoff
  | succ n ih =>
    rw [starts] at h
    rw [stop]
    split_ifs at h ⊢ with hle
    · exact ih (h off List.mem_cons_self) fun s hs => h s (List.mem_cons_of_mem _ hs)
    · exact hoff

theorem readAll_eq {n off : ℕ} (h : ∀ s ∈ starts len next n off, read s = some (item s, next s)) :
    readAll len read blank n off = some ((starts len next n off).map item ++
      List.replicate (n - (starts len next n off).length) blank, stop len next n off) := by
  induction n generalizing off with
  | zero => rfl
  | succ n ih =>
    rw [starts] at h ⊢
    rw [readAll, stop]
    by_cases hle : off ≤ len
    · rw [if_pos hle] at h
      have hrest := ih fun s hs => h s (List.mem_cons_of_mem _ hs)
      rw [if_pos hle, if_pos hle, if_pos hle, h off List.mem_cons_self]
      simp only [Option.bind_eq_bind, Option.bind_some]
      rw [hrest, List.length_cons, Nat.add_sub_add_right]
      rfl
    · rw [if_neg hle, if_neg hle, if_neg hle]
      rfl

theorem readAll_eq_none {n off : ℕ}
    (h : ∀ s ∈ starts len next n off, read s = none ∨ read s = some (item s, next s))
    (hn : ∃ s ∈ starts len next n off, read s = none) : readAll len read blank n off = none := by
  induction n generalizing off with
  | zero =>
    obtain ⟨s, hs, -⟩ := hn
    cases hs
  | succ n ih =>
    rw [starts] at h hn
    rw [readAll]
    by_cases hle : off ≤ len
    · rw [if_pos hle] at h hn
      rw [if_pos hle]
      rcases h off List.mem_cons_self with hfail | hread
      · rw [hfail]
        rfl
      · obtain ⟨s, hs, hfail⟩ := hn
        have hrest : readAll len read blank n (next off) = none := by
          refine ih (fun s hs => h s (List.mem_cons_of_mem _ hs)) ⟨s, ?_, hfail⟩
          rcases List.mem_cons.1 hs with rfl | hs
          · rw [hread] at hfail
            cases hfail
          · exact hs
        rw [hread]
        simp only [Option.bind_eq_bind, Option.bind_some]
        rw [hrest]
        rfl
    · rw [if_neg hle] at hn
      obtain ⟨s, hs, -⟩ := hn
      cases hs

/-- Items are read where they fit; one that does not fit fails the whole. -/
theorem readAll_of_fits {fits : ℕ → Prop} [DecidablePred fits]
    (hread : ∀ s ≤ len, read s = if fits s then some (item s, next s) else none) (n off : ℕ) :
    readAll len read blank n off = if ∀ s ∈ starts len next n off, fits s then
      some ((starts len next n off).map item ++
        List.replicate (n - (starts len next n off).length) blank, stop len next n off)
      else none := by
  by_cases hall : ∀ s ∈ starts len next n off, fits s
  · rw [if_pos hall]
    refine readAll_eq fun s hs => ?_
    rw [hread s (le_of_mem_starts hs), if_pos (hall s hs)]
  · rw [if_neg hall]
    have hcases : ∀ s ∈ starts len next n off, read s = none ∨ read s = some (item s, next s) := by
      intro s hs
      rw [hread s (le_of_mem_starts hs)]
      split_ifs
      · exact Or.inr rfl
      · exact Or.inl rfl
    refine readAll_eq_none hcases ?_
    push Not at hall
    obtain ⟨s, hs, hnot⟩ := hall
    exact ⟨s, hs, by rw [hread s (le_of_mem_starts hs), if_neg hnot]⟩

/-! ## Lengths -/

variable {size : ℕ → ℕ}

/-- Items that are at least as long as their sizes. -/
theorem stop_sum {n off : ℕ} (h : ∀ s ∈ starts len next n off, s + size s ≤ next s) :
    off + ((starts len next n off).map size).sum ≤ stop len next n off := by
  induction n generalizing off with
  | zero => exact le_refl _
  | succ n ih =>
    rw [starts] at h ⊢
    rw [stop]
    by_cases hle : off ≤ len
    · rw [if_pos hle] at h ⊢
      rw [if_pos hle, List.map_cons, List.sum_cons]
      have hfirst := h off List.mem_cons_self
      have hrest := ih fun s hs => h s (List.mem_cons_of_mem _ hs)
      omega
    · rw [if_neg hle, if_neg hle]
      exact le_refl _

/-- No item ends behind the last one. -/
theorem next_le_stop {n off s : ℕ} (h : ∀ s ∈ starts len next n off, s ≤ next s)
    (hs : s ∈ starts len next n off) : next s ≤ stop len next n off := by
  induction n generalizing off with
  | zero => cases hs
  | succ n ih =>
    rw [starts] at h hs
    rw [stop]
    by_cases hle : off ≤ len
    · rw [if_pos hle] at h hs ⊢
      have hrest := fun s hs => h s (List.mem_cons_of_mem _ hs)
      rcases List.mem_cons.1 hs with rfl | hs
      · have hsum : next s + ((starts len next n (next s)).map fun _ => 0).sum ≤
            stop len next n (next s) := stop_sum hrest
        omega
      · exact ih hrest hs
    · rw [if_neg hle] at hs
      cases hs

/-- They are as long as their sizes only if each of them is. -/
theorem stop_sum_iff {n off : ℕ} (h : ∀ s ∈ starts len next n off, s + size s ≤ next s) :
    off + ((starts len next n off).map size).sum = stop len next n off ↔
      ∀ s ∈ starts len next n off, s + size s = next s := by
  induction n generalizing off with
  | zero => exact ⟨fun _ s hs => absurd hs List.not_mem_nil, fun _ => rfl⟩
  | succ n ih =>
    have hall := stop_sum h
    rw [starts] at h hall ⊢
    rw [stop] at hall ⊢
    by_cases hle : off ≤ len
    · rw [if_pos hle] at h hall ⊢
      rw [if_pos hle] at hall ⊢
      have hfirst := h off List.mem_cons_self
      have hrest := fun s hs => h s (List.mem_cons_of_mem _ hs)
      have hsum := stop_sum hrest
      rw [List.map_cons, List.sum_cons, List.forall_mem_cons, ← ih hrest]
      omega
    · rw [if_neg hle, if_neg hle]
      exact ⟨fun _ s hs => absurd hs List.not_mem_nil, fun _ => rfl⟩

/-- The bytes of the items are those of the buffer. -/
theorem drop_starts {β : Type u} {buf : List β} {enc : ℕ → List β} {n off : ℕ}
    (h : ∀ s ∈ starts len next n off, buf.drop s = enc s ++ buf.drop (next s)) :
    buf.drop off = (starts len next n off).flatMap enc ++ buf.drop (stop len next n off) := by
  induction n generalizing off with
  | zero => rfl
  | succ n ih =>
    rw [starts] at h ⊢
    rw [stop]
    by_cases hle : off ≤ len
    · rw [if_pos hle] at h ⊢
      rw [if_pos hle, h off List.mem_cons_self, List.flatMap_cons, List.append_assoc,
        ← ih fun s hs => h s (List.mem_cons_of_mem _ hs)]
    · rw [if_neg hle, if_neg hle]
      rfl

/-! ## Written items -/

theorem readAll_encoded {β γ : Type u} {buf rest : List β} {enc : γ → List β} {dec : γ → α}
    {l : List γ} {off : ℕ} (hlen : buf.length ≤ len)
    (hread : ∀ x ∈ l, ∀ off rest, At buf off (enc x ++ rest) →
      read off = some (dec x, off + (enc x).length))
    (h : At buf off (l.flatMap enc ++ rest)) :
    readAll len read blank l.length off = some (l.map dec, off + (l.flatMap enc).length) := by
  induction l generalizing off with
  | nil => rfl
  | cons x l ih =>
    rw [List.flatMap_cons, List.append_assoc] at h
    have hrest := ih (fun y hy => hread y (List.mem_cons_of_mem _ hy)) h.next
    rw [List.length_cons, readAll, if_pos (h.le.trans hlen), hread x List.mem_cons_self _ _ h]
    simp only [Option.bind_eq_bind, Option.bind_some]
    rw [hrest, List.flatMap_cons, List.length_append, Nat.add_assoc]
    rfl

/-! ## Reading on while a test holds -/

section
variable (read : ℕ → Option α) (val : ℕ → α) (go : α → Bool)

/-- Reads up to `n` items from the `i`-th on, until one stops it. -/
def readWhile : ℕ → ℕ → Option (List α)
  | 0, _ => some []
  | n + 1, i => (read i).bind fun a =>
    if go a then (readWhile n (i + 1)).map fun as => a :: as else some [a]

/-- The items that are reached if their values are those of `val`. -/
def reached : ℕ → ℕ → List ℕ
  | 0, _ => []
  | n + 1, i => i :: if go (val i) then reached n (i + 1) else []

variable {read val go}

theorem reached_bounds {n i j : ℕ} (h : j ∈ reached val go n i) : i ≤ j ∧ j < i + n := by
  induction n generalizing i with
  | zero => cases h
  | succ n ih =>
    rw [reached] at h
    rcases List.mem_cons.1 h with rfl | h
    · omega
    · split_ifs at h
      · have hrest := ih h
        omega
      · cases h

/-- Reading on fails if one of the items that are reached does not fit. -/
theorem readWhile_of_fits {fits : ℕ → Prop} [DecidablePred fits]
    (hread : ∀ j, read j = if fits j then some (val j) else none) (n i : ℕ) :
    readWhile read go n i = if ∀ j ∈ reached val go n i, fits j then
      some ((reached val go n i).map val) else none := by
  induction n generalizing i with
  | zero => rfl
  | succ n ih =>
    rw [readWhile, reached, hread i]
    by_cases hi : fits i
    · rw [if_pos hi, Option.bind_some]
      by_cases hgo : go (val i) = true
      · rw [if_pos hgo, if_pos hgo, ih (i + 1)]
        by_cases hrest : ∀ j ∈ reached val go n (i + 1), fits j
        · rw [if_pos hrest, if_pos (List.forall_mem_cons.2 ⟨hi, hrest⟩)]
          rfl
        · rw [if_neg hrest, if_neg fun h => hrest (List.forall_mem_cons.1 h).2]
          rfl
      · have hall : ∀ j ∈ [i], fits j := fun j hj => List.mem_singleton.1 hj ▸ hi
        rw [if_neg hgo, if_neg hgo, if_pos hall]
        rfl
    · rw [if_neg hi, if_neg fun h => hi (List.forall_mem_cons.1 h).1]
      rfl

/-- The first `m` items are read if all but the last of them go on and the last one, unless it is
    the last of all, does not. -/
theorem readWhile_range {n m i : ℕ} (hread : ∀ j, i ≤ j → j < i + m → read j = some (val j))
    (hgo : ∀ j, i ≤ j → j + 1 < i + m → go (val j)) (hm : m ≤ n)
    (hstop : m < n → 0 < m ∧ go (val (i + m - 1)) = false) :
    readWhile read go n i = some ((List.range' i m).map val) := by
  induction n generalizing i m with
  | zero =>
    obtain rfl := Nat.le_zero.1 hm
    rfl
  | succ n ih =>
    cases m with
    | zero => exact absurd (hstop (Nat.succ_pos n)).1 (Nat.lt_irrefl 0)
    | succ m =>
      rw [readWhile, hread i (le_refl i) (by omega), Option.bind_some, List.range'_succ,
        List.map_cons]
      by_cases hi : go (val i) = true
      · have hrest := ih (m := m) (i := i + 1) (fun j hj hlt => hread j (by omega) (by omega))
          (fun j hj hlt => hgo j (by omega) (by omega)) (by omega) fun hlt => by
            have hlast := hstop (by omega)
            rcases Nat.eq_zero_or_pos m with rfl | hpos
            · rw [Nat.zero_add, Nat.add_sub_cancel, hi] at hlast
              cases hlast.2
            · exact ⟨hpos, by rw [← hlast.2]; congr 2; omega⟩
        rw [if_pos hi, hrest]
        rfl
      · have hm0 : m = 0 := by
          by_contra hne
          exact hi (hgo i (le_refl i) (by omega))
        subst hm0
        rw [if_neg hi]
        rfl

/-- It fails only at an item that is reached. -/
theorem isSome_readWhile (n i : ℕ) : (readWhile read go n i).isSome ↔
    ∀ j ∈ reached read (fun a => a.any go) n i, (read j).isSome := by
  induction n generalizing i with
  | zero => exact ⟨fun _ j hj => absurd hj List.not_mem_nil, fun _ => rfl⟩
  | succ n ih =>
    rw [readWhile, reached]
    cases hi : read i with
    | none =>
      rw [List.forall_mem_cons, hi]
      exact ⟨fun h => absurd h Bool.false_ne_true, fun h => h.1⟩
    | some a =>
      rw [Option.bind_some, Option.any_some, List.forall_mem_cons, hi, Option.isSome_some,
        and_iff_right rfl]
      by_cases hgo : go a = true
      · rw [if_pos hgo, if_pos hgo, Option.isSome_map, ih]
      · rw [if_neg hgo, if_neg hgo]
        exact ⟨fun _ j hj => absurd hj List.not_mem_nil, fun _ => rfl⟩

end

end RavenWallet.Items
