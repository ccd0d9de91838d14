/-
  Loops over a list that replace one entry after the other.

  A step is given the list as it is by then.  `replaceEach_eq`: if it sees of the
  list only what the steps do not change, the loop is a map of the list that it
  started with.
-/
import Mathlib.Data.List.Basic

namespace RavenWallet

universe u v
variable {α : Type u} {β : Type v}

/-- Replaces the entries in turn by what `step` makes of them, given the list so far. -/
def replaceEach (step : List α → ℕ → α → Option α) (xs : List α) : Option (List α) :=
  (List.range xs.length).foldlM
    (fun ys i => ys[i]?.bind fun x => (step ys i x).map fun y => ys.set i y) xs

/-- The entries with what `step` makes of them, given the whole list. -/
def mapEach (step : List α → ℕ → α → Option α) (xs : List α) : Option (List α) :=
  xs.zipIdx.mapM fun p => step xs p.2 p.1

section
variable {step : List α → ℕ → α → Option α} {view : List α → β} {xs ys : List α}

/-- With `zs` replaced already, the loop goes on through the rest. -/
theorem foldlM_replace (hview : ∀ {xs ys}, view xs = view ys → step xs = step ys)
    (hset : ∀ {xs i x y}, xs[i]? = some x → step xs i x = some y → view (xs.set i y) = view xs)
    (rest zs : List α) (h : view (zs ++ rest) = view xs) :
    let loop := (List.range' zs.length rest.length).foldlM
      (fun ys i => ys[i]?.bind fun x => (step ys i x).map fun y => ys.set i y) (zs ++ rest)
    loop = ((rest.zipIdx zs.length).mapM fun p => step xs p.2 p.1).map (fun ys => zs ++ ys) ∧
      ∀ ys, loop = some ys → view ys = view xs := by
  induction rest generalizing zs with
  | nil =>
    refine ⟨rfl, fun ys hys => ?_⟩
    obtain rfl := Option.some.inj hys
    exact h
  | cons x rest ih =>
    have hat : (zs ++ x :: rest)[zs.length]? = some x := by simp
    have hstep : step (zs ++ x :: rest) = step xs := hview h
    rw [List.length_cons, List.range'_succ, List.zipIdx_cons, List.mapM_cons]
    dsimp only
    rw [List.foldlM_cons, hat, Option.bind_some, hstep]
    cases hy : step xs zs.length x with
    | none => exact ⟨rfl, fun ys hys => by cases hys⟩
    | some y =>
      have hwrite : (zs ++ x :: rest).set zs.length y = zs ++ [y] ++ rest := by simp
      have hnext : view (zs ++ [y] ++ rest) = view xs := by
        rw [← hwrite, hset hat (by rw [hstep, hy]), h]
      have hlen : (zs ++ [y]).length = zs.length + 1 := by simp
      obtain ⟨heq, hsame⟩ := ih (zs ++ [y]) hnext
      rw [hlen] at heq hsame
      rw [Option.map_some, hwrite]
      refine ⟨heq.trans ?_, hsame⟩
      cases (rest.zipIdx (zs.length + 1)).mapM fun p => step xs p.2 p.1 with
      | none => rfl
      | some ys => exact congrArg some (List.append_assoc zs [y] ys)

/-- The loop is a map of the list, and leaves what the steps see of it. -/
theorem replaceEach_eq (hview : ∀ {xs ys}, view xs = view ys → step xs = step ys)
    (hset : ∀ {xs i x y}, xs[i]? = some x → step xs i x = some y → view (xs.set i y) = view xs)
    (xs : List α) : replaceEach step xs = mapEach step xs ∧
      ∀ ys, replaceEach step xs = some ys → view ys = view xs := by
  obtain ⟨heq, hsame⟩ := foldlM_replace hview hset xs [] rfl
  simp only [List.nil_append, List.length_nil, ← List.range_eq_range', Option.map_id'] at heq hsame
  exact ⟨heq, hsame⟩

theorem mapM_cons_eq_some {γ : Type v} {f : α → Option γ} {x : α} {zs : List γ} :
    (x :: xs).mapM f = some zs ↔
      ∃ z zs', f x = some z ∧ xs.mapM f = some zs' ∧ zs = z :: zs' := by
  rw [List.mapM_cons]
  constructor
  · intro h
    obtain ⟨z, hz, h⟩ := Option.bind_eq_some_iff.1 h
    obtain ⟨zs', hzs, h⟩ := Option.bind_eq_some_iff.1 h
    exact ⟨z, zs', hz, hzs, (Option.some.inj h).symm⟩
  · rintro ⟨z, zs', hz, hzs, rfl⟩
    rw [hz, hzs]
    rfl

/-- A map that counts the entries from `k` on. -/
theorem mapM_zipIdx_eq_some {f : ℕ → α → Option α} {k : ℕ} :
    (xs.zipIdx k).mapM (fun p => f p.2 p.1) = some ys ↔
      ys.length = xs.length ∧ ∀ i x, xs[i]? = some x → f (k + i) x = ys[i]? := by
  induction xs generalizing ys k with
  | nil =>
    rw [List.zipIdx_nil, List.mapM_nil]
    constructor
    · intro h
      obtain rfl := Option.some.inj h
      exact ⟨rfl, fun i x hx => by simp at hx⟩
    · rintro ⟨hlen, -⟩
      rw [List.length_eq_zero_iff.1 hlen]
      rfl
  | cons x xs ih =>
    rw [List.zipIdx_cons, mapM_cons_eq_some]
    constructor
    · rintro ⟨y, zs, hy, hzs, rfl⟩
      obtain ⟨hlen, hall⟩ := ih.1 hzs
      refine ⟨by rw [List.length_cons, List.length_cons, hlen], fun i x' hx => ?_⟩
      cases i with
      | zero =>
        obtain rfl := Option.some.inj hx
        exact hy
      | succ i =>
        have hrest := hall i x' hx
        rwa [Nat.add_right_comm] at hrest
    · rintro ⟨hlen, hall⟩
      cases ys with
      | nil => cases hlen
      | cons y ys =>
        have hy : f k x = some y := hall 0 x rfl
        have hrest : (xs.zipIdx (k + 1)).mapM (fun p => f p.2 p.1) = some ys := by
          refine ih.2 ⟨Nat.succ.inj hlen, fun i x' hx => ?_⟩
          have hnext := hall (i + 1) x' hx
          rwa [Nat.add_right_comm]
        exact ⟨y, ys, hy, hrest, rfl⟩

/-- What the map does to each entry. -/
theorem mapEach_eq_some : mapEach step xs = some ys ↔
    ys.length = xs.length ∧ ∀ i x, xs[i]? = some x → step xs i x = ys[i]? := by
  refine mapM_zipIdx_eq_some.trans ?_
  simp only [Nat.zero_add]

theorem mapM_isSome {γ : Type v} {f : α → Option γ} :
    (xs.mapM f).isSome ↔ ∀ x ∈ xs, (f x).isSome := by
  induction xs with
  | nil => simp
  | cons x xs ih =>
    rw [List.mapM_cons, List.forall_mem_cons, ← ih]
    cases f x with
    | none => simp
    | some y => cases xs.mapM f <;> simp

theorem mapEach_isSome :
    (mapEach step xs).isSome ↔ ∀ i x, xs[i]? = some x → (step xs i x).isSome := by
  rw [mapEach, mapM_isSome]
  constructor
  · intro h i x hx
    exact h (x, i) (List.mem_zipIdx_iff_getElem?.2 hx)
  · rintro h ⟨x, i⟩ hp
    exact h i x (List.mem_zipIdx_iff_getElem?.1 hp)

end

end RavenWallet
