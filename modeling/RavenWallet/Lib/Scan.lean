/-
  Scans of a list from its end, with tests that may fail.

  An array kept in order is inserted into and searched from its last element
  backwards.  The loops are written over the reversed list, last element first:

  * `insertBack` shifts elements while the test says so and puts the new one in
    the gap; `insertBack_sorted`: it keeps a descending list descending when
    the test never contradicts the key;
  * `scanBack` collects elements while the test holds; `scanBack_filter`: on a
    descending list it collects all the elements at or above a bound;
  * `eraseBack` leaves out the first element that passes the test.

  `Answers` says what a search that recurses returns once it has enough fuel.
-/
import Mathlib.Data.List.Basic
import Mathlib.Order.Lattice

namespace RavenWallet

variable {α β : Type}

/-- `x` inserted behind the leading elements for which `gt` holds. -/
def insertBack (gt : α → Option Bool) (x : α) : List α → Option (List α)
  | [] => some [x]
  | y :: ys => do
    if ← gt y then
      let zs ← insertBack gt x ys
      some (y :: zs)
    else some (x :: y :: ys)

/-- The leading elements for which `p` holds. -/
def scanBack (p : α → Option Bool) : List α → Option (List α)
  | [] => some []
  | y :: ys => do
    if ← p y then
      let zs ← scanBack p ys
      some (y :: zs)
    else some []

/-- The list without its first element for which `p` holds. -/
def eraseBack (p : α → Option Bool) : List α → Option (List α)
  | [] => some []
  | y :: ys => do
    if ← p y then some ys
    else
      let zs ← eraseBack p ys
      some (y :: zs)

theorem insertBack_cons {gt : α → Option Bool} {x y : α} {ys r : List α} :
    insertBack gt x (y :: ys) = some r ↔
      (gt y = some true ∧ ∃ zs, insertBack gt x ys = some zs ∧ r = y :: zs) ∨
        (gt y = some false ∧ r = x :: y :: ys) := by
  simp only [insertBack, Option.bind_eq_bind]
  rcases gt y with _ | _ | _
  · simp
  · simp [eq_comm]
  · simp only [Option.bind_some, if_true, Option.bind_eq_some_iff, Option.some.injEq, true_and,
      Bool.true_eq_false, false_and, or_false]
    exact exists_congr fun zs => and_congr_right fun _ => eq_comm

theorem scanBack_cons {p : α → Option Bool} {y : α} {ys r : List α} :
    scanBack p (y :: ys) = some r ↔
      (p y = some true ∧ ∃ zs, scanBack p ys = some zs ∧ r = y :: zs) ∨
        (p y = some false ∧ r = []) := by
  simp only [scanBack, Option.bind_eq_bind]
  rcases p y with _ | _ | _
  · simp
  · simp
  · simp only [Option.bind_some, if_true, Option.bind_eq_some_iff, Option.some.injEq, true_and,
      Bool.true_eq_false, false_and, or_false]
    exact exists_congr fun zs => and_congr_right fun _ => eq_comm

theorem eraseBack_cons {p : α → Option Bool} {y : α} {ys r : List α} :
    eraseBack p (y :: ys) = some r ↔
      (p y = some true ∧ r = ys) ∨ (p y = some false ∧ ∃ zs, eraseBack p ys = some zs ∧ r = y :: zs) := by
  simp only [eraseBack, Option.bind_eq_bind]
  rcases p y with _ | _ | _
  · simp
  · simp only [Option.bind_some, Bool.false_eq_true, if_false, Option.bind_eq_some_iff,
      Option.some.injEq, false_and, true_and, false_or]
    exact exists_congr fun zs => and_congr_right fun _ => eq_comm
  · simp [eq_comm]

/-- Either one element is left out, the first that passes the test, or none passes. -/
theorem eraseBack_split {p : α → Option Bool} :
    ∀ {l r : List α}, eraseBack p l = some r →
      (∃ a y b, l = a ++ y :: b ∧ r = a ++ b ∧ p y = some true) ∨
        (r = l ∧ ∀ y ∈ l, p y = some false)
  | [], r, h => by simp [eraseBack] at h; subst h; exact Or.inr ⟨rfl, by simp⟩
  | y :: ys, r, h => by
    rcases eraseBack_cons.1 h with ⟨hy, rfl⟩ | ⟨hy, zs, hz, rfl⟩
    · exact Or.inl ⟨[], y, r, rfl, rfl, hy⟩
    · rcases eraseBack_split hz with ⟨a, x, b, rfl, rfl, hx⟩ | ⟨rfl, hn⟩
      · exact Or.inl ⟨y :: a, x, b, rfl, rfl, hx⟩
      · exact Or.inr ⟨rfl, fun x hx => (List.mem_cons.1 hx).elim (fun h => h ▸ hy) (hn x)⟩

theorem scanBack_start {p : α → Option Bool} :
    ∀ {l r : List α}, scanBack p l = some r → r <+: l
  | [], r, h => by
    obtain rfl := Option.some.inj h
    exact List.prefix_rfl
  | y :: ys, r, h => by
    rcases scanBack_cons.1 h with ⟨-, zs, hz, rfl⟩ | ⟨-, rfl⟩
    · exact List.prefix_cons_inj y |>.2 (scanBack_start hz)
    · exact List.nil_prefix

theorem scanBack_test {p : α → Option Bool} :
    ∀ {l r : List α}, scanBack p l = some r → ∀ y ∈ r, p y = some true
  | [], r, h, y, hy => by
    obtain rfl := Option.some.inj h
    cases hy
  | x :: xs, r, h, y, hy => by
    rcases scanBack_cons.1 h with ⟨hx, zs, hz, rfl⟩ | ⟨-, rfl⟩
    · rcases List.mem_cons.1 hy with rfl | hy
      · exact hx
      · exact scanBack_test hz y hy
    · cases hy

theorem eraseBack_sublist {p : α → Option Bool} {l r : List α} (h : eraseBack p l = some r) :
    r.Sublist l := by
  rcases eraseBack_split h with ⟨a, y, b, rfl, rfl, -⟩ | ⟨rfl, -⟩
  · exact (List.Sublist.refl a).append (List.sublist_cons_self y b)
  · exact .refl _

/-- The test holds of what is in front of the new element, and not of what follows it. -/
theorem insertBack_split {gt : α → Option Bool} {x : α} :
    ∀ {l r : List α}, insertBack gt x l = some r →
      ∃ a b, l = a ++ b ∧ r = a ++ x :: b ∧ (∀ y ∈ a, gt y = some true) ∧
        ∀ y ∈ b.head?, gt y = some false
  | [], r, h => by
    obtain rfl := Option.some.inj h
    exact ⟨[], [], rfl, rfl, by simp, by simp⟩
  | y :: ys, r, h => by
    rcases insertBack_cons.1 h with ⟨hy, zs, hz, rfl⟩ | ⟨hy, rfl⟩
    · obtain ⟨a, b, rfl, rfl, ha, hb⟩ := insertBack_split hz
      exact ⟨y :: a, b, rfl, rfl, List.forall_mem_cons.2 ⟨hy, ha⟩, hb⟩
    · refine ⟨[], y :: ys, rfl, rfl, by simp, ?_⟩
      intro z hz
      rw [List.head?_cons, Option.mem_some_iff] at hz
      exact hz ▸ hy

theorem insertBack_perm {gt : α → Option Bool} {x : α} :
    ∀ {l r : List α}, insertBack gt x l = some r → r.Perm (x :: l)
  | [], r, h => by simp [insertBack] at h; subst h; exact .refl _
  | y :: ys, r, h => by
    rcases insertBack_cons.1 h with ⟨-, zs, hz, rfl⟩ | ⟨-, rfl⟩
    · exact ((insertBack_perm hz).cons y).trans (.swap x y ys)
    · exact .refl _

section
variable [LinearOrder β] (key : α → β)

/-- Keys do not increase towards the end. -/
def Descending (l : List α) : Prop := l.Pairwise fun a b => key b ≤ key a

variable {key}

theorem insertBack_sorted {gt : α → Option Bool} {x : α} :
    ∀ {l r : List α}, (∀ y ∈ l, key x < key y → gt y ≠ some false) →
      (∀ y ∈ l, key y < key x → gt y ≠ some true) → insertBack gt x l = some r →
      Descending key l → Descending key r
  | [], r, _, _, h, _ => by simp [insertBack] at h; subst h; simp [Descending]
  | y :: ys, r, hgt, hlt, h, hd => by
    obtain ⟨hy, hys⟩ := List.pairwise_cons.1 hd
    rcases insertBack_cons.1 h with ⟨ht, zs, hz, rfl⟩ | ⟨hf, rfl⟩
    · have ih := insertBack_sorted (fun z hz => hgt z (by simp [hz]))
        (fun z hz => hlt z (by simp [hz])) hz hys
      refine List.pairwise_cons.2 ⟨fun z hzz => ?_, ih⟩
      rcases List.mem_cons.1 ((insertBack_perm hz).mem_iff.1 hzz) with rfl | hzz
      · exact not_lt.1 fun hlt' => hlt y (by simp) hlt' ht
      · exact hy z hzz
    · have hxy : key y ≤ key x := not_lt.1 fun hgt' => hgt y (by simp) hgt' hf
      refine List.pairwise_cons.2 ⟨fun z hz => ?_, hd⟩
      rcases List.mem_cons.1 hz with rfl | hz
      · exact hxy
      · exact (hy z hz).trans hxy

/-- On a descending list the scan finds every element that an upward closed test accepts. -/
theorem scanBack_filter {p : α → Option Bool} {q : α → Bool} :
    ∀ {l r : List α}, (∀ a ∈ l, ∀ b ∈ l, key b ≤ key a → q a = false → q b = false) →
      (∀ y ∈ l, p y = some (q y)) → scanBack p l = some r → Descending key l → r = l.filter q
  | [], r, _, _, h, _ => by simp [scanBack] at h; simp [h]
  | y :: ys, r, hq, hp, h, hd => by
    obtain ⟨hy, hys⟩ := List.pairwise_cons.1 hd
    have hpy := hp y (by simp)
    rcases scanBack_cons.1 h with ⟨ht, zs, hzs, rfl⟩ | ⟨hf, rfl⟩
    · rw [hpy, Option.some.injEq] at ht
      have ih := scanBack_filter (fun a ha b hb => hq a (by simp [ha]) b (by simp [hb]))
        (fun z hz => hp z (by simp [hz])) hzs hys
      rw [List.filter_cons_of_pos ht, ← ih]
    · rw [hpy, Option.some.injEq] at hf
      rw [List.filter_cons_of_neg (by simp [hf]), eq_comm, List.filter_eq_nil_iff]
      intro z hz
      simp [hq y (by simp) z (by simp [hz]) (hy z hz) hf]

/-- If no test fails, the scan is the one of a list. -/
theorem scanBack_takeWhile {p : α → Option Bool} {q : α → Bool} :
    ∀ {l : List α}, (∀ y ∈ l, p y = some (q y)) → scanBack p l = some (l.takeWhile q)
  | [], _ => rfl
  | y :: ys, hp => by
    have hys : ∀ z ∈ ys, p z = some (q z) := fun z hz => hp z (by simp [hz])
    rcases hy : q y with _ | _
    · refine scanBack_cons.2 (Or.inr ⟨by rw [hp y (by simp), hy], ?_⟩)
      rw [List.takeWhile_cons_of_neg (by simp [hy])]
    · refine scanBack_cons.2 (Or.inl ⟨by rw [hp y (by simp), hy], _, scanBack_takeWhile hys, ?_⟩)
      rw [List.takeWhile_cons_of_pos hy]

theorem eraseBack_isSome {p : α → Option Bool} {l : List α} (h : ∀ y ∈ l, ∃ b, p y = some b) :
    ∃ r, eraseBack p l = some r := by
  induction l with
  | nil => exact ⟨[], rfl⟩
  | cons y ys ih =>
    obtain ⟨zs, hzs⟩ := ih fun z hz => h z (List.mem_cons_of_mem _ hz)
    obtain ⟨b, hb⟩ := h y List.mem_cons_self
    cases b with
    | true => exact ⟨ys, eraseBack_cons.2 (Or.inl ⟨hb, rfl⟩)⟩
    | false => exact ⟨y :: zs, eraseBack_cons.2 (Or.inr ⟨hb, zs, hzs, rfl⟩)⟩

theorem allM_isSome {l : List α} {p : α → Option Bool} (h : ∀ x ∈ l, ∃ b, p x = some b) :
    ∃ b, l.allM p = some b := by
  induction l with
  | nil => exact ⟨true, rfl⟩
  | cons y ys ih =>
    obtain ⟨b, hb⟩ := h y List.mem_cons_self
    obtain ⟨c, hc⟩ := ih fun z hz => h z (List.mem_cons_of_mem _ hz)
    rw [List.allM_cons, hb]
    cases b with
    | true => exact ⟨c, hc⟩
    | false => exact ⟨false, rfl⟩

/-- A search that finds nothing tests all elements. -/
theorem anyM_eq_false {l : List α} {p : α → Option Bool} (h : l.anyM p = some false) :
    ∀ x ∈ l, p x = some false := by
  induction l with
  | nil =>
    intro x hx
    cases hx
  | cons y ys ih =>
    obtain ⟨b, hb, h⟩ := Option.bind_eq_some_iff.1 h
    cases b with
    | true => cases h
    | false =>
      intro x hx
      rcases List.mem_cons.1 hx with rfl | hx
      · exact hb
      · exact ih h x hx

theorem anyM_eq_true {l : List α} {p : α → Option Bool} (h : l.anyM p = some true) :
    ∃ x ∈ l, p x = some true := by
  induction l with
  | nil => cases h
  | cons y ys ih =>
    obtain ⟨b, hb, h⟩ := Option.bind_eq_some_iff.1 h
    cases b with
    | true => exact ⟨y, List.mem_cons_self, hb⟩
    | false =>
      obtain ⟨x, hx, hpx⟩ := ih h
      exact ⟨x, List.mem_cons_of_mem _ hx, hpx⟩

theorem allM_some {l : List α} {p : α → Option Bool} {b : α → Bool}
    (h : ∀ x ∈ l, p x = some (b x)) : l.allM p = some (l.all b) := by
  induction l with
  | nil => rfl
  | cons y ys ih =>
    rw [List.allM_cons, h y List.mem_cons_self, ih fun x hx => h x (List.mem_cons_of_mem _ hx),
      List.all_cons]
    cases b y <;> rfl

theorem anyM_some {l : List α} {p : α → Option Bool} {b : α → Bool}
    (h : ∀ x ∈ l, p x = some (b x)) : l.anyM p = some (l.any b) := by
  induction l with
  | nil => rfl
  | cons y ys ih =>
    rw [List.anyM_cons, h y List.mem_cons_self, ih fun x hx => h x (List.mem_cons_of_mem _ hx),
      List.any_cons]
    cases b y <;> rfl

/-! ## Searches with fuel -/

/-- With enough fuel the search returns `r`. -/
def Answers (search : ℕ → Option Bool) (r : Bool) : Prop := ∃ n, ∀ fuel ≥ n, search fuel = some r

theorem Answers.unique {search : ℕ → Option Bool} {r r' : Bool} (h : Answers search r)
    (h' : Answers search r') : r = r' := by
  obtain ⟨n, hn⟩ := h
  obtain ⟨m, hm⟩ := h'
  have hmax := (hn _ (Nat.le_max_left n m)).symm.trans (hm _ (Nat.le_max_right n m))
  exact Option.some.inj hmax

theorem Answers.of_succ {search : ℕ → Option Bool} {r : Bool} {n : ℕ}
    (h : ∀ fuel ≥ n, search (fuel + 1) = some r) : Answers search r := by
  refine ⟨n + 1, fun fuel hfuel => ?_⟩
  obtain ⟨fuel, rfl⟩ := Nat.exists_eq_add_of_le' hfuel
  exact h (fuel + n) (Nat.le_add_left n fuel)

/-- Finitely many searches have enough fuel at once. -/
theorem Answers.uniform {l : List α} {f : α → ℕ → Option Bool} {b : α → Bool}
    (h : ∀ x ∈ l, Answers (f x) (b x)) : ∃ n, ∀ fuel ≥ n, ∀ x ∈ l, f x fuel = some (b x) := by
  induction l with
  | nil => exact ⟨0, by simp⟩
  | cons y ys ih =>
    obtain ⟨n, hn⟩ := h y List.mem_cons_self
    obtain ⟨m, hm⟩ := ih fun x hx => h x (List.mem_cons_of_mem _ hx)
    refine ⟨max n m, fun fuel hfuel => List.forall_mem_cons.2 ⟨hn fuel ?_, hm fuel ?_⟩⟩
    · exact (Nat.le_max_left n m).trans hfuel
    · exact (Nat.le_max_right n m).trans hfuel

end

end RavenWallet
