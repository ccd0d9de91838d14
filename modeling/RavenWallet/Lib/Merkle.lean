/-
  Merkle trees and partial branches of them.

  Hashes are values of any type with a function `node` for two siblings; a
  distinguished `zero` stands for a branch that is missing.

  * `row` are the rows of the tree over a list: siblings are hashed together,
    and the last one with itself if it has none;
  * a `Path` leads from a leaf to the root;
  * a `Partial` tree is read from flag bits and hashes, depth first; `root` is
    its root, which fails for two equal branches, `matched` are its flagged
    leaves, and `counted` those of them that enter the root: they have a path
    to it (`exists_path`);
  * `encode` writes the partial tree of a list with some leaves flagged;
    `read_encode`: reading it back gives the root and the flagged leaves, if
    the tree is `Plain`, as it is over distinct leaves (`plain_of_nodup`).
-/
import Mathlib.Data.UInt
import Mathlib.Data.Nat.Log

namespace RavenWallet.Merkle

universe u
variable {α : Type u}

/-- Siblings on the way from a leaf to the root, with `true` for those to the left. -/
abbrev Path (α : Type u) := List (Bool × α)

/-- The root that a path leads to. -/
def Path.eval (node : α → α → α) (x : α) (p : Path α) : α :=
  p.foldl (fun h s => if s.1 then node s.2 h else node h s.2) x

theorem Path.eval_concat (node : α → α → α) (x : α) (p : Path α) (s : Bool × α) :
    Path.eval node x (p ++ [s]) =
      if s.1 then node s.2 (Path.eval node x p) else node (Path.eval node x p) s.2 := by
  rw [Path.eval, List.foldl_append]
  rfl

/-! ## Partial trees -/

/-- A branch of a tree of which only some leaves are known. -/
inductive Partial (α : Type u) where
  | missing
  /-- a leaf, flagged or not, or a branch without flagged leaves -/
  | stub (flag : Bool) (hash : α)
  | node (left right : Partial α)

namespace Partial

/-- Reads a branch of height `k`, and returns what is left of the bits and the hashes. -/
def read : ℕ → List Bool → List α → Partial α × List Bool × List α
  | _, [], hs => (missing, [], hs)
  | _, b :: bs, [] => (missing, b :: bs, [])
  | 0, b :: bs, h :: hs => (stub b h, bs, hs)
  | _ + 1, false :: bs, h :: hs => (stub false h, bs, hs)
  | k + 1, true :: bs, h :: hs =>
    let (l, bs, hs) := read k bs (h :: hs)
    let (r, bs, hs) := read k bs hs
    (node l r, bs, hs)

theorem read_true (k : ℕ) (bs : List Bool) {hs : List α} (h : hs ≠ []) :
    read (k + 1) (true :: bs) hs =
      (.node (read k bs hs).1
          (read k (read k bs hs).2.1 (read k bs hs).2.2).1,
        (read k (read k bs hs).2.1 (read k bs hs).2.2).2) := by
  rcases hs with _ | ⟨x, hs⟩
  · exact absurd rfl h
  · rfl

theorem read_nil {k : ℕ} (bs : List Bool) :
    read k bs ([] : List α) = (.missing, bs, []) := by
  cases k <;> cases bs <;> rfl

/-- The flagged leaves. -/
def matched : Partial α → List α
  | missing => []
  | stub flag hash => if flag then [hash] else []
  | node l r => matched l ++ matched r

/-- There are no more flagged leaves than hashes read. -/
theorem length_matched_read (k : ℕ) (bs : List Bool) (hs : List α) :
    (read k bs hs).1.matched.length + (read k bs hs).2.2.length ≤ hs.length := by
  induction k generalizing bs hs with
  | zero =>
    rcases bs with _ | ⟨b, bs⟩
    · simp [read, matched]
    · rcases hs with _ | ⟨x, hs⟩
      · simp [read, matched]
      · cases b <;> simp [read, matched, Nat.add_comm]
  | succ k ih =>
    rcases bs with _ | ⟨b, bs⟩
    · simp [read, matched]
    · rcases hs with _ | ⟨x, hs⟩
      · simp [read, matched]
      · cases b with
        | false => simp [read, matched]
        | true =>
          have hl := ih bs (x :: hs)
          have hr := ih (read k bs (x :: hs)).2.1 (read k bs (x :: hs)).2.2
          rw [read_true _ _ (List.cons_ne_nil _ _), matched, List.length_append]
          dsimp only
          omega

variable [DecidableEq α] (zero : α) (hash : α → α → α)

/-- The root, and whether it failed: a branch fails if its left branch is missing, or if both are
    the same.  After a failure everything counts as missing. -/
def root : Partial α → Bool → α × Bool
  | _, true => (zero, true)
  | missing, false => (zero, false)
  | stub _ h, false => (h, false)
  | node l r, false =>
    let (a, failed) := root l false
    let (b, failed) := root r failed
    if a ≠ zero ∧ a ≠ b then (hash a (if b = zero then a else b), failed) else (zero, true)

/-- The flagged leaves that enter the root: those in a branch that is not dropped. -/
def counted : Partial α → List α
  | missing => []
  | stub flag hash => if flag then [hash] else []
  | node l r =>
    let (a, failed) := l.root zero hash false
    let (b, _) := r.root zero hash failed
    if a ≠ zero ∧ a ≠ b then counted l ++ (if b = zero then [] else counted r) else []

variable {zero hash}

@[simp] theorem root_failed (t : Partial α) : t.root zero hash true = (zero, true) := by
  cases t <;> rfl

theorem root_node_eq {l r : Partial α} {a b : α} {fa fb : Bool}
    (hl : l.root zero hash false = (a, fa)) (hr : r.root zero hash fa = (b, fb)) :
    (node l r).root zero hash false =
      if a ≠ zero ∧ a ≠ b then (hash a (if b = zero then a else b), fb) else (zero, true) := by
  rw [root, hl]
  dsimp only
  rw [hr]

theorem root_node_of {l r : Partial α} {a b : α} (hl : l.root zero hash false = (a, false))
    (hr : r.root zero hash false = (b, false)) (ha : a ≠ zero) (hab : a ≠ b) :
    (node l r).root zero hash false = (hash a (if b = zero then a else b), false) := by
  rw [root_node_eq hl hr, if_pos ⟨ha, hab⟩]

theorem counted_node {l r : Partial α} {a b : α} {fa fb : Bool}
    (hl : l.root zero hash false = (a, fa)) (hr : r.root zero hash fa = (b, fb)) :
    counted zero hash (node l r) =
      if a ≠ zero ∧ a ≠ b then
        counted zero hash l ++ (if b = zero then [] else counted zero hash r)
      else [] := by
  rw [counted, hl]
  dsimp only
  rw [hr]

/-- The counted leaves of a branch of height `k` have paths of length `k` to its root. -/
theorem exists_path {k : ℕ} {bs : List Bool} {hs : List α} {x : α}
    (hx : x ∈ counted zero hash (read k bs hs).1) :
    ∃ p : Path α, p.length = k ∧ p.eval hash x = ((read k bs hs).1.root zero hash false).1 := by
  induction k generalizing bs hs x with
  | zero =>
    rcases bs with _ | ⟨b, bs⟩
    · cases hx
    · rcases hs with _ | ⟨y, hs⟩
      · cases hx
      · cases b
        · cases hx
        · obtain rfl := List.mem_singleton.1 hx
          exact ⟨[], rfl, rfl⟩
  | succ k ih =>
    rcases bs with _ | ⟨b, bs⟩
    · cases hx
    · rcases hs with _ | ⟨y, hs⟩
      · cases b <;> cases hx
      · cases b with
        | false => cases hx
        | true =>
          rw [read_true _ _ (List.cons_ne_nil _ _)] at hx ⊢
          rcases hl : (read k bs (y :: hs)).1.root zero hash false with ⟨a, fa⟩
          rcases hr : (read k (read k bs (y :: hs)).2.1 (read k bs (y :: hs)).2.2).1.root zero hash
            fa with ⟨b, fb⟩
          rw [counted_node hl hr] at hx
          rw [root_node_eq hl hr]
          by_cases hab : a ≠ zero ∧ a ≠ b
          · rw [if_pos hab] at hx ⊢
            rcases List.mem_append.1 hx with hx | hx
            · obtain ⟨p, hp, hev⟩ := ih hx
              refine ⟨p ++ [(false, if b = zero then a else b)], by simp [hp], ?_⟩
              rw [Path.eval_concat, hev, hl]
              rfl
            · by_cases hb : b = zero
              · rw [if_pos hb] at hx
                cases hx
              · rw [if_neg hb] at hx ⊢
                -- the left branch did not fail, or the right one would be zero
                obtain rfl : fa = false := by
                  cases fa with
                  | false => rfl
                  | true =>
                    rw [root_failed] at hr
                    exact absurd (Prod.mk.inj hr).1.symm hb
                obtain ⟨p, hp, hev⟩ := ih hx
                refine ⟨p ++ [(true, a)], by simp [hp], ?_⟩
                rw [Path.eval_concat, hev, hr]
                rfl
          · rw [if_neg hab] at hx
            cases hx

end Partial

/-! ## Rows -/

section
variable (hash : α → α → α)

/-- The row above: siblings are hashed together, the last one with itself if it has none. -/
def pairUp : List α → List α
  | [] => []
  | [a] => [hash a a]
  | a :: b :: l => hash a b :: pairUp l

/-- The rows of the tree over `l`, from the bottom. -/
def row (l : List α) : ℕ → List α
  | 0 => l
  | k + 1 => pairUp hash (row l k)

/-- No two siblings are equal. -/
def NoTwins : List α → Prop
  | [] => True
  | [_] => True
  | a :: b :: l => a ≠ b ∧ NoTwins l

variable {hash}

theorem length_pairUp : ∀ l : List α, (pairUp hash l).length = (l.length + 1) / 2
  | [] => by simp [pairUp]
  | [_] => by simp [pairUp]
  | a :: b :: l => by
    simp only [pairUp, List.length_cons, length_pairUp l]
    omega

theorem pairUp_append : ∀ {l : List α} (l' : List α), 2 ∣ l.length →
    pairUp hash (l ++ l') = pairUp hash l ++ pairUp hash l'
  | [], _, _ => rfl
  | [_], _, h => by simp at h
  | a :: b :: l, l', h => by
    have hl : 2 ∣ l.length := by simpa [List.length_cons, Nat.add_assoc] using h
    simp only [List.cons_append, pairUp, pairUp_append l' hl]

theorem noTwins_append : ∀ {l l' : List α}, 2 ∣ l.length → NoTwins (l ++ l') →
    NoTwins l ∧ NoTwins l'
  | [], _, _, h => ⟨trivial, h⟩
  | [_], _, hl, _ => by simp at hl
  | a :: b :: l, l', hl, h => by
    have hl : 2 ∣ l.length := by simpa [List.length_cons, Nat.add_assoc] using hl
    obtain ⟨hne, h⟩ := h
    obtain ⟨h₁, h₂⟩ := noTwins_append hl h
    exact ⟨⟨hne, h₁⟩, h₂⟩

/-- Over `2 ^ k` times so many leaves a row is `2 ^ k` times as short. -/
theorem length_row {l : List α} {m : ℕ} (k : ℕ) (h : l.length = m * 2 ^ k) :
    (row hash l k).length = m := by
  induction k generalizing m with
  | zero => rw [row, h, Nat.pow_zero, Nat.mul_one]
  | succ k ih =>
    rw [row, length_pairUp, ih (m := m * 2) (by rw [h, Nat.pow_succ, Nat.mul_comm (2 ^ k), Nat.mul_assoc])]
    omega

theorem row_append {l : List α} (l' : List α) {k : ℕ} (h : 2 ^ k ∣ l.length) :
    row hash (l ++ l') k = row hash l k ++ row hash l' k := by
  induction k with
  | zero => rfl
  | succ k ih =>
    obtain ⟨m, hm⟩ := h
    have hlen : (row hash l k).length = m * 2 :=
      length_row k (by rw [hm, Nat.pow_succ, Nat.mul_comm, Nat.mul_comm (2 ^ k), Nat.mul_assoc])
    rw [row, ih ⟨2 * m, by rw [hm, Nat.pow_succ, Nat.mul_assoc]⟩, pairUp_append _ ⟨m, by omega⟩]
    rfl

/-- Up to `2 ^ k` leaves, but at least one, have one hash at height `k`. -/
theorem row_singleton {l : List α} {k : ℕ} (h0 : l ≠ []) (h : l.length ≤ 2 ^ k) :
    ∃ a, row hash l k = [a] := by
  induction k generalizing l with
  | zero =>
    rcases l with _ | ⟨a, _ | ⟨b, l⟩⟩
    · exact absurd rfl h0
    · exact ⟨a, rfl⟩
    · simp at h
  | succ k ih =>
    by_cases hk : l.length ≤ 2 ^ k
    · obtain ⟨a, ha⟩ := ih h0 hk
      exact ⟨hash a a, by rw [row, ha, pairUp]⟩
    · have hlen : (l.take (2 ^ k)).length = 2 ^ k := by rw [List.length_take]; omega
      have hdrop : (l.drop (2 ^ k)).length = l.length - 2 ^ k := List.length_drop
      rw [Nat.pow_succ] at h
      obtain ⟨a, ha⟩ := ih (l := l.take (2 ^ k)) (by
        intro hnil
        rw [hnil, List.length_nil] at hlen
        exact absurd hlen.symm (Nat.pow_pos (by decide)).ne') hlen.le
      obtain ⟨b, hb⟩ := ih (l := l.drop (2 ^ k)) (by
        intro hnil
        rw [hnil, List.length_nil] at hdrop
        omega) (by omega)
      refine ⟨hash a b, ?_⟩
      rw [row, ← List.take_append_drop (2 ^ k) l, row_append _ ⟨1, by rw [hlen, Nat.mul_one]⟩, ha, hb]
      rfl

end

/-! ## Encoding -/

section
variable (zero : α) (hash : α → α → α)

/-- The hash at height `k` over up to `2 ^ k` leaves. -/
def rootOf (k : ℕ) (l : List α) : α := (row hash l k).headD zero

/-- The partial tree over the leaves `l`, of which some are flagged: a bit for each node, whether it
    is above a flagged leaf, and the hash of each leaf and of each node that is not. -/
def encode : ℕ → List (α × Bool) → List Bool × List α
  | 0, l => (l.map Prod.snd, l.map Prod.fst)
  | k + 1, l =>
    if l.any Prod.snd then
      let left := encode k (l.take (2 ^ k))
      let right := if l.length ≤ 2 ^ k then ([], []) else encode k (l.drop (2 ^ k))
      (true :: (left.1 ++ right.1), left.2 ++ right.2)
    else ([false], [rootOf zero hash (k + 1) (l.map Prod.fst)])

/-- The leaves that are flagged. -/
def flagged (l : List (α × Bool)) : List α := (l.filter Prod.snd).map Prod.fst

/-- Three leaves, the second flagged. -/
example (m₁ m₂ t₁ t₂ t₃ : ℕ) : encode 0 (fun a b => if (a, b) = (t₁, t₂) then m₁ else m₂) 2
    [(t₁, false), (t₂, true), (t₃, false)] =
      ([true, true, false, true, false], [t₁, t₂, if (t₃, t₃) = (t₁, t₂) then m₁ else m₂]) := rfl

variable {zero hash}

theorem row_eq_rootOf {l : List α} {k : ℕ} (h0 : l ≠ []) (h : l.length ≤ 2 ^ k) :
    row hash l k = [rootOf zero hash k l] := by
  obtain ⟨a, ha⟩ : ∃ a, row hash l k = [a] := row_singleton h0 h
  rw [rootOf, ha]
  rfl

theorem encode_snd_ne_nil {k : ℕ} {l : List (α × Bool)} (h0 : l ≠ []) :
    (encode zero hash k l).2 ≠ [] := by
  induction k generalizing l with
  | zero => simpa [encode] using h0
  | succ k ih =>
    unfold encode
    by_cases ha : l.any Prod.snd = true
    · have htake : l.take (2 ^ k) ≠ [] := by
        simp [h0]
      rw [if_pos ha]
      intro hnil
      exact ih htake (List.append_eq_nil_iff.1 hnil).1
    · rw [if_neg ha]
      exact List.cons_ne_nil _ _

/-- There are no more bits than nodes. -/
theorem length_encode_fst {k : ℕ} {l : List (α × Bool)} (h : l.length ≤ 2 ^ k) :
    (encode zero hash k l).1.length + 1 ≤ 2 ^ (k + 1) := by
  induction k generalizing l with
  | zero =>
    rw [encode, List.length_map]
    omega
  | succ k ih =>
    rw [Nat.pow_succ] at h
    have hpos : 0 < 2 ^ k := Nat.pow_pos (by decide)
    have hl := ih (l := l.take (2 ^ k)) (by rw [List.length_take]; omega)
    have hr := ih (l := l.drop (2 ^ k)) (by rw [List.length_drop]; omega)
    rw [Nat.pow_succ] at hl hr ⊢
    rw [encode, Nat.pow_succ]
    by_cases ha : l.any Prod.snd = true
    · rw [if_pos ha, List.length_cons, List.length_append]
      by_cases hk : l.length ≤ 2 ^ k
      · rw [if_pos hk, List.length_nil]
        omega
      · rw [if_neg hk]
        omega
    · rw [if_neg ha, List.length_singleton]
      omega

/-- There are no more hashes than bits. -/
theorem length_encode_snd (k : ℕ) (l : List (α × Bool)) :
    (encode zero hash k l).2.length ≤ (encode zero hash k l).1.length := by
  induction k generalizing l with
  | zero => simp [encode]
  | succ k ih =>
    have hl := ih (l.take (2 ^ k))
    have hr := ih (l.drop (2 ^ k))
    rw [encode]
    by_cases ha : l.any Prod.snd = true
    · rw [if_pos ha, List.length_cons, List.length_append, List.length_append]
      by_cases hk : l.length ≤ 2 ^ k
      · rw [if_pos hk, List.length_nil, List.length_nil]
        omega
      · rw [if_neg hk]
        omega
    · rw [if_neg ha, List.length_singleton, List.length_singleton]

/-- What the rows of a tree must not have: a zero hash, or two equal siblings. -/
structure Plain (zero : α) (hash : α → α → α) (k : ℕ) (l : List α) : Prop where
  zero : ∀ j ≤ k, zero ∉ row hash l j
  twins : ∀ j < k, NoTwins (row hash l j)

theorem Plain.mono {k : ℕ} {l : List α} (h : Plain zero hash (k + 1) l) : Plain zero hash k l :=
  ⟨fun j hj => h.zero j (by omega), fun j hj => h.twins j (by omega)⟩

/-- The two halves of a tree. -/
theorem Plain.halves {k : ℕ} {l l' : List α} (hl : l.length = 2 ^ k)
    (h : Plain zero hash (k + 1) (l ++ l')) :
    Plain zero hash k l ∧ Plain zero hash k l' := by
  have happ : ∀ j ≤ k, row hash (l ++ l') j = row hash l j ++ row hash l' j := fun j hj =>
    row_append _ (by rw [hl]; exact Nat.pow_dvd_pow 2 hj)
  have heven : ∀ j < k, 2 ∣ (row hash l j).length := fun j hj => by
    have hlen : (row hash l j).length = 2 ^ (k - j) :=
      length_row j (by rw [hl, ← Nat.pow_add]; congr 1; omega)
    rw [hlen]
    exact dvd_pow_self 2 (by omega)
  have hz : ∀ j ≤ k, zero ∉ row hash l j ++ row hash l' j := fun j hj => by
    rw [← happ j hj]
    exact h.zero j (by omega)
  have ht : ∀ j < k, NoTwins (row hash l j) ∧ NoTwins (row hash l' j) := fun j hj => by
    refine noTwins_append (heven j hj) ?_
    rw [← happ j hj.le]
    exact h.twins j (by omega)
  exact ⟨⟨fun j hj hm => hz j hj (List.mem_append_left _ hm), fun j hj => (ht j hj).1⟩,
    ⟨fun j hj hm => hz j hj (List.mem_append_right _ hm), fun j hj => (ht j hj).2⟩⟩

theorem rootOf_mem {k : ℕ} {l : List α} (h0 : l ≠ []) (h : l.length ≤ 2 ^ k) :
    rootOf zero hash k l ∈ row hash l k := by
  rw [row_eq_rootOf h0 h]
  exact List.mem_singleton_self _

/-- The hash above a single branch. -/
theorem rootOf_single {k : ℕ} {l : List α} (h0 : l ≠ []) (h : l.length ≤ 2 ^ k) :
    rootOf zero hash (k + 1) l = hash (rootOf zero hash k l) (rootOf zero hash k l) := by
  have hrow : row hash l k = [rootOf zero hash k l] := row_eq_rootOf h0 h
  rw [rootOf, row, hrow]
  rfl

theorem row_halves {k : ℕ} {l l' : List α} (hl : l.length = 2 ^ k) (h0 : l' ≠ [])
    (hl' : l'.length ≤ 2 ^ k) :
    row hash (l ++ l') k = [rootOf zero hash k l, rootOf zero hash k l'] := by
  have hne : l ≠ [] := by
    rintro rfl
    exact absurd hl (Nat.pow_pos (by decide)).ne
  rw [row_append _ (by rw [hl]), row_eq_rootOf hne hl.le, row_eq_rootOf h0 hl']
  rfl

/-! ### Distinct leaves -/

theorem mem_pairUp {x : α} : ∀ {l : List α}, x ∈ pairUp hash l → ∃ a ∈ l, ∃ b, x = hash a b
  | [], h => by cases h
  | [a], h => ⟨a, List.mem_singleton_self a, a, List.mem_singleton.1 h⟩
  | a :: b :: l, h => by
    rcases List.mem_cons.1 h with rfl | h
    · exact ⟨a, List.mem_cons_self, b, rfl⟩
    · obtain ⟨c, hc, d, rfl⟩ := mem_pairUp h
      exact ⟨c, List.mem_cons_of_mem _ (List.mem_cons_of_mem _ hc), d, rfl⟩

theorem nodup_pairUp (hinj : Function.Injective2 hash) : ∀ {l : List α}, l.Nodup →
    (pairUp hash l).Nodup
  | [], _ => List.nodup_nil
  | [_], _ => List.nodup_singleton _
  | a :: b :: l, h => by
    obtain ⟨ha, hbl⟩ := List.nodup_cons.1 h
    refine List.nodup_cons.2 ⟨fun hm => ?_, nodup_pairUp hinj (List.nodup_cons.1 hbl).2⟩
    obtain ⟨c, hc, d, heq⟩ := mem_pairUp hm
    obtain ⟨rfl, -⟩ := hinj heq
    exact ha (List.mem_cons_of_mem _ hc)

theorem noTwins_of_nodup : ∀ {l : List α}, l.Nodup → NoTwins l
  | [], _ => trivial
  | [_], _ => trivial
  | _ :: _ :: _, h =>
    ⟨fun heq => (List.nodup_cons.1 h).1 (heq ▸ List.mem_cons_self),
      noTwins_of_nodup (List.nodup_cons.1 (List.nodup_cons.1 h).2).2⟩

/-- With a hash that is injective and never zero, the tree over distinct leaves is plain. -/
theorem plain_of_nodup (hinj : Function.Injective2 hash) (hz : ∀ a b, hash a b ≠ zero) (k : ℕ)
    {l : List α} (hl : l.Nodup) (hzl : zero ∉ l) : Plain zero hash k l := by
  have hrow : ∀ j, (row hash l j).Nodup := fun j => by
    induction j with
    | zero => exact hl
    | succ j ih => exact nodup_pairUp hinj ih
  refine ⟨fun j _ => ?_, fun j _ => noTwins_of_nodup (hrow j)⟩
  cases j with
  | zero => exact hzl
  | succ j =>
    intro hm
    obtain ⟨a, -, b, heq⟩ := mem_pairUp hm
    exact hz a b heq.symm

variable [DecidableEq α]

/-- A partial tree is read back, if it is followed by no more hashes where it may have a missing
    right branch. -/
theorem read_encode {k : ℕ} {l : List (α × Bool)} (h0 : l ≠ []) (hk : l.length ≤ 2 ^ k)
    (hp : Plain zero hash k (l.map Prod.fst)) (bs : List Bool) {hs : List α}
    (hr : l.length = 2 ^ k ∨ hs = []) :
    ∃ t, Partial.read k ((encode zero hash k l).1 ++ bs) ((encode zero hash k l).2 ++ hs) =
        (t, bs, hs) ∧
      t.root zero hash false = (rootOf zero hash k (l.map Prod.fst), false) ∧
      t.matched = flagged l := by
  induction k generalizing l bs hs with
  | zero =>
    obtain ⟨x, m, rfl⟩ : ∃ x m, l = [(x, m)] := by
      rcases l with _ | ⟨⟨x, m⟩, _ | ⟨y, l⟩⟩
      · exact absurd rfl h0
      · exact ⟨x, m, rfl⟩
      · simp at hk
    refine ⟨.stub m x, rfl, rfl, ?_⟩
    cases m <;> rfl
  | succ k ih =>
    by_cases ha : l.any Prod.snd = true
    · have hne : l.map Prod.fst ≠ [] := by simpa using h0
      by_cases hk' : l.length ≤ 2 ^ k
      · -- the only branch: nothing follows, and the right one is missing
        have hpos : 0 < 2 ^ k := Nat.pow_pos (by decide)
        have hlen : l.length ≠ 2 ^ (k + 1) := by rw [Nat.pow_succ]; omega
        obtain rfl : hs = [] := hr.resolve_left hlen
        obtain ⟨t, ht, hroot, hm⟩ := ih h0 hk' hp.mono bs (Or.inr rfl)
        have henc : encode zero hash (k + 1) l =
            (true :: (encode zero hash k l).1, (encode zero hash k l).2) := by
          rw [encode, if_pos ha, if_pos hk', List.take_of_length_le hk']
          simp
        have hz : rootOf zero hash k (l.map Prod.fst) ≠ zero := by
          intro hz
          refine hp.zero k (by omega) ?_
          rw [← hz]
          exact rootOf_mem hne (by simpa using hk')
        refine ⟨.node t .missing, ?_, ?_, by rw [Partial.matched, hm]; simp [Partial.matched]⟩
        · rw [henc, List.cons_append, Partial.read_true _ _ (by simp [encode_snd_ne_nil h0]), ht, Partial.read_nil]
        · rw [Partial.root_node_of hroot rfl hz hz, if_pos rfl,
            rootOf_single hne (by simpa using hk')]
      · set l₁ := l.take (2 ^ k) with hl₁
        set l₂ := l.drop (2 ^ k) with hl₂
        have hlen₁ : l₁.length = 2 ^ k := by rw [hl₁, List.length_take]; omega
        have hlen₂ : l₂.length = l.length - 2 ^ k := by rw [hl₂, List.length_drop]
        have hpow : 2 ^ (k + 1) = 2 ^ k * 2 := Nat.pow_succ ..
        have hne₁ : l₁ ≠ [] := by
          intro hnil
          rw [hnil, List.length_nil] at hlen₁
          exact absurd hlen₁ (Nat.pow_pos (by decide)).ne
        have hne₂ : l₂ ≠ [] := by
          intro hnil
          rw [hnil, List.length_nil] at hlen₂
          omega
        have hsplit : l.map Prod.fst = l₁.map Prod.fst ++ l₂.map Prod.fst := by
          rw [← List.map_append, hl₁, hl₂, List.take_append_drop]
        rw [hsplit] at hp ⊢
        obtain ⟨hp₁, hp₂⟩ := hp.halves (by simpa using hlen₁)
        obtain ⟨r, hr₂, hroot₂, hm₂⟩ := ih hne₂ (by omega) hp₂ bs 
          (hr.imp_left fun h => by omega)
        obtain ⟨t, hr₁, hroot₁, hm₁⟩ := ih hne₁ hlen₁.le hp₁ ((encode zero hash k l₂).1 ++ bs)
          (Or.inl hlen₁)
        have hrow : row hash (l₁.map Prod.fst ++ l₂.map Prod.fst) k =
            [rootOf zero hash k (l₁.map Prod.fst), rootOf zero hash k (l₂.map Prod.fst)] :=
          row_halves (by simpa using hlen₁) (by simpa using hne₂) (by rw [List.length_map]; omega)
        have hz := hp.zero k (by omega)
        have htw := hp.twins k (by omega)
        rw [hrow] at hz htw
        have hz₁ : rootOf zero hash k (l₁.map Prod.fst) ≠ zero := fun h => hz (by simp [h])
        have hz₂ : rootOf zero hash k (l₂.map Prod.fst) ≠ zero := fun h => hz (by simp [h])
        have henc : encode zero hash (k + 1) l =
            (true :: ((encode zero hash k l₁).1 ++ (encode zero hash k l₂).1),
              (encode zero hash k l₁).2 ++ (encode zero hash k l₂).2) := by
          rw [encode, if_pos ha, if_neg hk']
        refine ⟨.node t r, ?_, ?_, ?_⟩
        · rw [henc, List.cons_append, Partial.read_true _ _ (by simp [encode_snd_ne_nil hne₁]),
            List.append_assoc, List.append_assoc, hr₁, hr₂]
        · have hroot : rootOf zero hash (k + 1) (l₁.map Prod.fst ++ l₂.map Prod.fst) =
              hash (rootOf zero hash k (l₁.map Prod.fst)) (rootOf zero hash k (l₂.map Prod.fst)) := by
            rw [rootOf, row, hrow]
            rfl
          rw [Partial.root_node_of hroot₁ hroot₂ hz₁ htw.1, if_neg hz₂, hroot]
        · rw [Partial.matched, hm₁, hm₂, flagged, flagged, flagged, ← List.map_append,
            ← List.filter_append, hl₁, hl₂, List.take_append_drop]
    · have hnone : flagged l = [] := by
        rw [flagged, List.map_eq_nil_iff, List.filter_eq_nil_iff]
        exact fun x hx hm => ha (List.any_eq_true.2 ⟨x, hx, hm⟩)
      refine ⟨.stub false (rootOf zero hash (k + 1) (l.map Prod.fst)), ?_, rfl, hnone.symm⟩
      rw [encode, if_neg ha]
      rfl

end

end RavenWallet.Merkle
