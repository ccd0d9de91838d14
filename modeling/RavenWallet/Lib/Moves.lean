/-
  Entries that are moved within an array, one after the other.

  A loop that moves entries towards the front goes forwards, and one that moves them
  towards the end goes backwards, so that what is read was not written yet.  An access
  beyond the end has no result.

  * `copyIn_parts`: entries from elsewhere;
  * `shiftFront_parts` and `shiftBack_parts`: a part of an array changes places with the
    gap at its side, whatever is left in that.
-/
import Mathlib.Data.List.Induction
import RavenWallet.Lib.Checked

namespace RavenWallet

variable {α : Type} {a b c g xs : List α}

/-- `xs[i++] = ys[j++]`, for all of `ys`. -/
def copyIn : List α → ℕ → List α → Option (List α)
  | xs, _, [] => some xs
  | xs, i, y :: ys => do
    let xs ← storeAt xs i y
    copyIn xs (i + 1) ys

/-- `xs[i] = xs[i + len], i++`, so many times. -/
def shiftFront (len : ℕ) : ℕ → ℕ → List α → Option (List α)
  | 0, _, xs => some xs
  | n + 1, i, xs => do
    let x ← xs[i + len]?
    let xs ← storeAt xs i x
    shiftFront len n (i + 1) xs

/-- `while (i-- > stop) xs[i] = xs[i - len]`. -/
def shiftBack (len stop : ℕ) : ℕ → List α → Option (List α)
  | 0, xs => some xs
  | i + 1, xs =>
    if i + 1 > stop then do
      let x ← if len ≤ i then xs[i - len]? else none
      let xs ← storeAt xs i x
      shiftBack len stop i xs
    else some xs

theorem storeAt_parts {i : ℕ} (hi : a.length = i) (x y : α) :
    storeAt (a ++ x :: c) i y = some (a ++ y :: c) := by
  subst hi
  rw [storeAt_of_lt (by simp), List.set_append_right _ _ (Nat.le_refl _), Nat.sub_self]
  rfl

theorem insertIdx_parts {l : List α} {i : ℕ} (hi : i ≤ l.length) (x : α) :
    l.insertIdx i x = l.take i ++ x :: l.drop i := by
  induction l generalizing i with
  | nil =>
    obtain rfl := Nat.le_zero.1 hi
    rfl
  | cons y l ih =>
    cases i with
    | zero => rfl
    | succ i =>
      rw [List.insertIdx_succ_cons, ih (Nat.le_of_succ_le_succ hi)]
      rfl

theorem copyIn_parts {ys : List α} {i : ℕ} (hi : a.length = i) (hb : b.length = ys.length) :
    copyIn (a ++ (b ++ c)) i ys = some (a ++ (ys ++ c)) := by
  induction ys generalizing a b i with
  | nil =>
    obtain rfl := List.length_eq_zero_iff.1 hb
    rfl
  | cons y ys ih =>
    obtain ⟨x, b, rfl⟩ := List.exists_cons_of_length_eq_add_one hb
    have hstep : a ++ y :: (b ++ c) = a ++ [y] ++ (b ++ c) := by simp
    rw [copyIn, List.cons_append, storeAt_parts hi, Option.bind_eq_bind, Option.bind_some, hstep,
      ih (by simp [hi]) (by simpa using hb)]
    simp

/-- **The part behind a gap** moves to the front of it. -/
theorem shiftFront_parts {len n i : ℕ} (hi : a.length = i) (hg : g.length = len)
    (hb : b.length = n) :
    ∃ g', g'.length = len ∧
      shiftFront len n i (a ++ (g ++ (b ++ c))) = some (a ++ (b ++ (g' ++ c))) := by
  induction b generalizing a g n i with
  | nil =>
    subst hb
    exact ⟨g, hg, rfl⟩
  | cons x b ih =>
    subst hb
    -- the entry at the front of the gap is overwritten, and the gap moves on by one
    obtain ⟨z, gap, hgap⟩ : ∃ z gap, g ++ [x] = z :: gap :=
      List.exists_cons_of_ne_nil (by simp)
    have hlen : gap.length = len := by
      have := congrArg List.length hgap
      simp only [List.length_append, List.length_cons, List.length_nil] at this
      omega
    have hread : (a ++ (g ++ (x :: b ++ c)))[i + len]? = some x := by
      subst hi hg
      simp
    have hsplit : a ++ (g ++ (x :: b ++ c)) = a ++ z :: (gap ++ (b ++ c)) := by
      have : g ++ x :: (b ++ c) = g ++ [x] ++ (b ++ c) := by simp
      rw [List.cons_append, this, hgap, List.cons_append]
    obtain ⟨g', hg', hrest⟩ := ih (by simp [hi] : (a ++ [x]).length = i + 1) hlen rfl
    refine ⟨g', hg', ?_⟩
    rw [List.length_cons, shiftFront, hread, Option.bind_eq_bind, Option.bind_some, hsplit,
      storeAt_parts hi, Option.bind_eq_bind, Option.bind_some]
    simpa using hrest

/-- **The part in front of a gap** moves to the end of it. -/
theorem shiftBack_parts {len stop i : ℕ} (hstop : a.length + len = stop) (hg : g.length = len)
    (hi : a.length + b.length + len = i) :
    ∃ g', g'.length = len ∧
      shiftBack len stop i (a ++ (b ++ (g ++ c))) = some (a ++ (g' ++ (b ++ c))) := by
  induction b using List.reverseRecOn generalizing g c i with
  | nil =>
    refine ⟨g, hg, ?_⟩
    have hle : ¬ i > stop := by
      simp only [List.length_nil] at hi
      omega
    cases i with
    | zero => rfl
    | succ i => rw [shiftBack, if_neg hle, List.nil_append, List.nil_append]
  | append_singleton b x ih =>
    obtain ⟨j, rfl⟩ : ∃ j, i = j + 1 := by
      rw [List.length_append, List.length_singleton] at hi
      exact ⟨i - 1, by omega⟩
    have hj : a.length + b.length + len = j := by
      rw [List.length_append, List.length_singleton] at hi
      omega
    -- the entry at the end of the gap is overwritten, and the gap moves back by one
    obtain ⟨gap, z, hgap⟩ : ∃ gap z, x :: g = gap ++ [z] :=
      ⟨(x :: g).dropLast, (x :: g).getLast (by simp), (List.dropLast_append_getLast _).symm⟩
    have hlen : gap.length = len := by
      have := congrArg List.length hgap
      simp only [List.length_append, List.length_cons, List.length_nil] at this
      omega
    have hread : (a ++ (b ++ [x] ++ (g ++ c)))[j - len]? = some x := by
      rw [show j - len = a.length + b.length by omega]
      simp
    have hsplit : a ++ (b ++ [x] ++ (g ++ c)) = (a ++ (b ++ gap)) ++ z :: c := by
      have : [x] ++ (g ++ c) = gap ++ z :: c := by
        rw [List.singleton_append, ← List.cons_append, hgap, List.append_assoc,
          List.singleton_append]
      rw [List.append_assoc b, this]
      simp
    have hat : (a ++ (b ++ gap)).length = j := by
      rw [List.length_append, List.length_append, hlen, ← hj, Nat.add_assoc]
    obtain ⟨g', hg', hrest⟩ := @ih (x :: c) gap j hlen hj
    refine ⟨g', hg', ?_⟩
    rw [shiftBack, if_pos (by omega), if_pos (by omega), hread, Option.bind_eq_bind,
      Option.bind_some, hsplit]
    dsimp only
    rw [storeAt_parts hat, Option.bind_eq_bind, Option.bind_some]
    simpa using hrest

end RavenWallet
