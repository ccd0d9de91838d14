/-
  Ledgers of transactions that may conflict.

  A ledger is read off a list of transactions.  Each transaction consumes
  outpoints; a final one always counts, an open one is *invalid* if it consumes
  something already spent or comes from an invalid transaction, and *pending*
  if it is held back or comes from a pending one.  A transaction that is
  neither *settles*: its outputs join the ledger, and everything spent so far
  is swept out of it.

  * `run` reads a list of transactions; `Invalid`, `Pending` and `Settles` are
    the class of a transaction after a prefix;
  * `unspent` are the outputs of the settled transactions that no sweep took;
  * `unspent_disjoint_iff`: an unspent output is consumed by a valid transaction
    exactly when a pending transaction after the last sweep consumes it.
-/
import Mathlib.Data.Finset.Basic
import Mathlib.Data.List.Basic

namespace RavenWallet

/-- What a ledger reads of a transaction of type `τ`, with outpoints in `O` and
    identifiers in `H`. -/
structure LedgerRules (τ O H : Type) where
  id : τ → H
  ins : τ → List O
  /-- the transaction an outpoint belongs to -/
  src : O → H
  final : τ → Bool
  held : τ → Bool

/-- The classes of the transactions read so far: the spent outpoints, the
    invalid and pending transactions, the settled ones in order, and what was
    spent when the last of these settled. -/
structure Classes (τ O H : Type) where
  spent : Finset O
  invalid : Finset H
  pending : Finset H
  settled : List τ
  swept : Finset O

namespace LedgerRules

variable {τ O H : Type} [DecidableEq O] [DecidableEq H] (R : LedgerRules τ O H)

/-- An open transaction that consumes a spent outpoint or has an invalid parent. -/
def conflicts (c : Classes τ O H) (t : τ) : Bool :=
  !R.final t && (R.ins t).any fun o => decide (o ∈ c.spent) || decide (R.src o ∈ c.invalid)

/-- An open transaction that is held back or has a pending parent. -/
def waits (c : Classes τ O H) (t : τ) : Bool :=
  !R.final t && (R.held t || (R.ins t).any fun o => decide (R.src o ∈ c.pending))

def spend (c : Classes τ O H) (t : τ) : Finset O := c.spent ∪ (R.ins t).toFinset

def step (c : Classes τ O H) (t : τ) : Classes τ O H :=
  if R.conflicts c t then { c with invalid := insert (R.id t) c.invalid }
  else if R.waits c t then
    { c with spent := R.spend c t, pending := insert (R.id t) c.pending }
  else { c with spent := R.spend c t, settled := c.settled ++ [t], swept := R.spend c t }

def run (l : List τ) : Classes τ O H := l.foldl R.step ⟨∅, ∅, ∅, [], ∅⟩

/-! ## The class of a transaction after a prefix -/

def Invalid (pre : List τ) (t : τ) : Prop := R.conflicts (R.run pre) t

def Pending (pre : List τ) (t : τ) : Prop := ¬ R.Invalid pre t ∧ R.waits (R.run pre) t

def Settles (pre : List τ) (t : τ) : Prop := ¬ R.Invalid pre t ∧ ¬ R.waits (R.run pre) t

instance (pre : List τ) (t : τ) : Decidable (R.Invalid pre t) :=
  inferInstanceAs (Decidable (R.conflicts (R.run pre) t = true))

theorem class_cases (pre : List τ) (t : τ) :
    R.Invalid pre t ∨ R.Pending pre t ∨ R.Settles pre t := by
  by_cases h : R.Invalid pre t
  · exact Or.inl h
  by_cases hw : R.waits (R.run pre) t
  · exact Or.inr (Or.inl ⟨h, hw⟩)
  · exact Or.inr (Or.inr ⟨h, hw⟩)

theorem run_snoc (l : List τ) (t : τ) : R.run (l ++ [t]) = R.step (R.run l) t := by
  simp [run]

theorem run_invalid {pre : List τ} {t : τ} (h : R.Invalid pre t) :
    R.run (pre ++ [t]) =
      { R.run pre with invalid := insert (R.id t) (R.run pre).invalid } := by
  have h : R.conflicts (R.run pre) t = true := h
  rw [run_snoc, step, if_pos h]

theorem run_pending {pre : List τ} {t : τ} (h : R.Pending pre t) :
    R.run (pre ++ [t]) =
      { R.run pre with
        spent := R.spend (R.run pre) t, pending := insert (R.id t) (R.run pre).pending } := by
  obtain ⟨h, hw⟩ := h
  have h : ¬ R.conflicts (R.run pre) t = true := h
  rw [run_snoc, step, if_neg h, if_pos hw]

theorem run_settles {pre : List τ} {t : τ} (h : R.Settles pre t) :
    R.run (pre ++ [t]) =
      { R.run pre with
        spent := R.spend (R.run pre) t, settled := (R.run pre).settled ++ [t]
        swept := R.spend (R.run pre) t } := by
  obtain ⟨h, hw⟩ := h
  have h : ¬ R.conflicts (R.run pre) t = true := h
  rw [run_snoc, step, if_neg h, if_neg hw]

/-- A final transaction settles wherever it stands. -/
theorem settles_of_final {t : τ} (h : R.final t = true) (pre : List τ) : R.Settles pre t := by
  simp [Settles, Invalid, conflicts, waits, h]

theorem pending_open {pre : List τ} {t : τ} (h : R.Pending pre t) : R.final t = false := by
  have := h.2
  simp only [waits, Bool.and_eq_true, Bool.not_eq_true'] at this
  exact this.1

/-- What a valid open transaction consumes was not spent before it. -/
theorem fresh_of_open {pre : List τ} {t : τ} (h : ¬ R.Invalid pre t) (hf : R.final t = false)
    {o : O} (ho : o ∈ R.ins t) : o ∉ (R.run pre).spent := by
  intro hs
  apply h
  simp only [Invalid, conflicts, hf, Bool.not_false, Bool.true_and, List.any_eq_true]
  exact ⟨o, ho, by simp [hs]⟩

/-! ## Runs as lists of positions -/

theorem split_snoc {l pre post : List τ} {t x : τ} (h : l ++ [t] = pre ++ x :: post) :
    (post = [] ∧ x = t ∧ pre = l) ∨ ∃ post', post = post' ++ [t] ∧ l = pre ++ x :: post' := by
  rcases List.eq_nil_or_concat post with rfl | ⟨post', y, rfl⟩
  · obtain ⟨h1, h2⟩ := List.append_inj' h rfl
    exact Or.inl ⟨rfl, (List.cons.inj h2).1.symm, h1.symm⟩
  · have h' : l ++ [t] = (pre ++ x :: post') ++ [y] := by simpa using h
    obtain ⟨h1, h2⟩ := List.append_inj' h' rfl
    obtain rfl := (List.cons.inj h2).1
    exact Or.inr ⟨post', by simp, h1⟩

/-- A position of `l` satisfying `P` (of the prefix and the transaction). -/
def At (l : List τ) (P : List τ → τ → Prop) : Prop :=
  ∃ pre t post, l = pre ++ t :: post ∧ P pre t

theorem at_nil (P : List τ → τ → Prop) : ¬ At [] P := by
  rintro ⟨pre, t, post, h, -⟩; simp at h

theorem at_snoc (l : List τ) (t : τ) (P : List τ → τ → Prop) :
    At (l ++ [t]) P ↔ At l P ∨ P l t := by
  constructor
  · rintro ⟨pre, x, post, h, hP⟩
    rcases split_snoc h with ⟨-, rfl, rfl⟩ | ⟨post', -, hl⟩
    · exact Or.inr hP
    · exact Or.inl ⟨pre, x, post', hl, hP⟩
  · rintro (⟨pre, x, post, rfl, hP⟩ | hP)
    · exact ⟨pre, x, post ++ [t], by simp, hP⟩
    · exact ⟨l, t, [], rfl, hP⟩

/-- What every transaction adds to at its own position holds of a list if it was added to at a
    position of it. -/
theorem at_iff {Q : List τ → Prop} {P : List τ → τ → Prop} (hnil : ¬ Q [])
    (hsnoc : ∀ l t, Q (l ++ [t]) ↔ Q l ∨ P l t) (l : List τ) : Q l ↔ At l P := by
  induction l using List.reverseRecOn with
  | nil => exact iff_of_false hnil (at_nil P)
  | append_singleton l t ih => rw [hsnoc, at_snoc, ih]

theorem mem_spent (l : List τ) (o : O) :
    o ∈ (R.run l).spent ↔ At l fun pre t => ¬ R.Invalid pre t ∧ o ∈ R.ins t := by
  refine at_iff (Q := fun l => o ∈ (R.run l).spent) ?_ (fun l t => ?_) l
  · simp [run]
  · rcases R.class_cases l t with h | h | h
    · simp [R.run_invalid h, h]
    · simp [R.run_pending h, h.1, spend]
    · simp [R.run_settles h, h.1, spend]

theorem mem_invalid (l : List τ) (i : H) :
    i ∈ (R.run l).invalid ↔ At l fun pre t => R.Invalid pre t ∧ R.id t = i := by
  refine at_iff (Q := fun l => i ∈ (R.run l).invalid) ?_ (fun l t => ?_) l
  · simp [run]
  · rcases R.class_cases l t with h | h | h
    · simp only [R.run_invalid h, h, Finset.mem_insert, true_and]
      rw [or_comm, eq_comm]
    · simp [R.run_pending h, h.1]
    · simp [R.run_settles h, h.1]

theorem mem_pending (l : List τ) (i : H) :
    i ∈ (R.run l).pending ↔ At l fun pre t => R.Pending pre t ∧ R.id t = i := by
  refine at_iff (Q := fun l => i ∈ (R.run l).pending) ?_ (fun l t => ?_) l
  · simp [run]
  · rcases R.class_cases l t with h | h | h
    · simp [R.run_invalid h, h, Pending]
    · simp only [R.run_pending h, h, Finset.mem_insert, true_and]
      rw [or_comm, eq_comm]
    · simp [R.run_settles h, Pending, h.1, h.2]

theorem mem_settled (l : List τ) (s : τ) :
    s ∈ (R.run l).settled ↔ At l fun pre t => R.Settles pre t ∧ t = s := by
  refine at_iff (Q := fun l => s ∈ (R.run l).settled) ?_ (fun l t => ?_) l
  · simp [run]
  · rcases R.class_cases l t with h | h | h
    · simp [R.run_invalid h, h, Settles]
    · simp [R.run_pending h, h.2, Settles]
    · simp [R.run_settles h, h, eq_comm]

theorem swept_sub_spent (l : List τ) : (R.run l).swept ⊆ (R.run l).spent := by
  induction l using List.reverseRecOn with
  | nil => simp [run]
  | append_singleton l t ih =>
    rcases R.class_cases l t with h | h | h
    · rw [R.run_invalid h]; exact ih
    · rw [R.run_pending h]; exact ih.trans Finset.subset_union_left
    · rw [R.run_settles h]

theorem mem_swept (l : List τ) (o : O) :
    o ∈ (R.run l).swept ↔
      At l fun pre t => R.Settles pre t ∧ o ∈ (R.run (pre ++ [t])).spent := by
  refine at_iff (Q := fun l => o ∈ (R.run l).swept) ?_ (fun l t => ?_) l
  · simp [run]
  · rcases R.class_cases l t with h | h | h
    · simp [R.run_invalid h, h, Settles]
    · simp [R.run_pending h, h.2, Settles]
    · have hs : o ∈ (R.run l).swept → o ∈ R.spend (R.run l) t :=
        fun ho => Finset.mem_union_left _ (R.swept_sub_spent l ho)
      simp only [R.run_settles h, h, true_and]
      exact ⟨Or.inr, fun ho => ho.elim hs fun h => h⟩

theorem settled_sublist (l : List τ) : (R.run l).settled.Sublist l := by
  induction l using List.reverseRecOn with
  | nil => simp [run]
  | append_singleton l t ih =>
    rcases R.class_cases l t with h | h | h
    · rw [R.run_invalid h]; exact ih.trans (List.sublist_append_left ..)
    · rw [R.run_pending h]; exact ih.trans (List.sublist_append_left ..)
    · rw [R.run_settles h]; exact ih.append (.refl _)

/-! ## Distinct identifiers

The class of a transaction can then be read off the final sets. -/

section
variable {R} {l : List τ} (hl : (l.map R.id).Nodup)
include hl

omit [DecidableEq O] [DecidableEq H] in
theorem pos_unique {pre pre' post post' : List τ} {t t' : τ} (h : l = pre ++ t :: post)
    (h' : l = pre' ++ t' :: post') (ht : R.id t = R.id t') : pre = pre' ∧ t = t' := by
  have hn : pre.length < (l.map R.id).length := by simp [h]
  have hn' : pre'.length < (l.map R.id).length := by simp [h']
  have he : (l.map R.id)[pre.length] = (l.map R.id)[pre'.length] := by
    have h1 : (l.map R.id)[pre.length] = R.id t := by simp [h]
    have h2 : (l.map R.id)[pre'.length] = R.id t' := by simp [h']
    rw [h1, h2, ht]
  have hlen : pre.length = pre'.length := hl.getElem_inj_iff.1 he
  obtain ⟨h1, h2⟩ := List.append_inj (h.symm.trans h') hlen
  exact ⟨h1, (List.cons.inj h2).1⟩

theorem invalid_iff {pre post : List τ} {t : τ} (h : l = pre ++ t :: post) :
    R.id t ∈ (R.run l).invalid ↔ R.Invalid pre t := by
  rw [R.mem_invalid]
  constructor
  · rintro ⟨pre', t', post', h', hi, ht⟩
    obtain ⟨rfl, rfl⟩ := pos_unique hl h h' ht.symm
    exact hi
  · exact fun hi => ⟨pre, t, post, h, hi, rfl⟩

theorem pending_iff {pre post : List τ} {t : τ} (h : l = pre ++ t :: post) :
    R.id t ∈ (R.run l).pending ↔ R.Pending pre t := by
  rw [R.mem_pending]
  constructor
  · rintro ⟨pre', t', post', h', hi, ht⟩
    obtain ⟨rfl, rfl⟩ := pos_unique hl h h' ht.symm
    exact hi
  · exact fun hi => ⟨pre, t, post, h, hi, rfl⟩

omit [DecidableEq O] [DecidableEq H] in
theorem position_before {pre post : List τ} {s t : τ} (h : l = pre ++ t :: post) (hs : s ∈ pre) :
    (pre.map R.id).Nodup ∧ ∃ a b, pre = a ++ s :: b ∧ l = a ++ s :: (b ++ t :: post) := by
  refine ⟨hl.sublist (List.Sublist.map _ ?_), ?_⟩
  · rw [h]
    exact List.sublist_append_left _ _
  · obtain ⟨a, b, rfl⟩ := List.append_of_mem hs
    exact ⟨a, b, rfl, by rw [h, List.append_assoc, List.cons_append]⟩

/-- The class of a transaction does not depend on what follows it. -/
theorem invalid_before {pre post : List τ} {s t : τ} (h : l = pre ++ t :: post) (hs : s ∈ pre) :
    R.id s ∈ (R.run l).invalid ↔ R.id s ∈ (R.run pre).invalid := by
  obtain ⟨hpre, a, b, hsplit, hpos⟩ := position_before hl h hs
  rw [invalid_iff hl hpos, invalid_iff hpre hsplit]

theorem pending_before {pre post : List τ} {s t : τ} (h : l = pre ++ t :: post) (hs : s ∈ pre) :
    R.id s ∈ (R.run l).pending ↔ R.id s ∈ (R.run pre).pending := by
  obtain ⟨hpre, a, b, hsplit, hpos⟩ := position_before hl h hs
  rw [pending_iff hl hpos, pending_iff hpre hsplit]

/-- An open transaction with an invalid parent before it is invalid. -/
theorem invalid_of_parent {pre post : List τ} {s t : τ} {o : O} (h : l = pre ++ t :: post)
    (hopen : R.final t = false) (hs : s ∈ pre) (ho : o ∈ R.ins t) (hsrc : R.src o = R.id s)
    (hi : R.id s ∈ (R.run l).invalid) : R.id t ∈ (R.run l).invalid := by
  rw [invalid_iff hl h, Invalid, conflicts, hopen, Bool.not_false, Bool.true_and, List.any_eq_true]
  refine ⟨o, ho, ?_⟩
  rw [hsrc, decide_eq_true ((invalid_before hl h hs).1 hi), Bool.or_true]

/-- A valid transaction is pending if it is open, and held back or has a pending parent before
    it. -/
theorem pending_iff_parent {pre post : List τ} {t : τ} (h : l = pre ++ t :: post)
    (hv : R.id t ∉ (R.run l).invalid) : R.id t ∈ (R.run l).pending ↔
      R.final t = false ∧ (R.held t = true ∨
        ∃ o ∈ R.ins t, ∃ s ∈ pre, R.id s = R.src o ∧ R.id s ∈ (R.run l).pending) := by
  have hparent : ∀ o, R.src o ∈ (R.run pre).pending ↔
      ∃ s ∈ pre, R.id s = R.src o ∧ R.id s ∈ (R.run l).pending := by
    intro o
    constructor
    · intro ho
      obtain ⟨a, s, b, hab, -, hid⟩ := (R.mem_pending pre _).1 ho
      have hs : s ∈ pre := by
        rw [hab]
        simp
      exact ⟨s, hs, hid, (pending_before hl h hs).2 (hid ▸ ho)⟩
    · rintro ⟨s, hs, hid, hp⟩
      exact hid ▸ (pending_before hl h hs).1 hp
  rw [pending_iff hl h, Pending, and_iff_right ((invalid_iff hl h).not.1 hv), waits]
  simp only [Bool.and_eq_true, Bool.not_eq_true', Bool.or_eq_true, List.any_eq_true,
    decide_eq_true_eq, hparent]

theorem settles_iff {pre post : List τ} {t : τ} (h : l = pre ++ t :: post) :
    R.Settles pre t ↔ R.id t ∉ (R.run l).invalid ∧ R.id t ∉ (R.run l).pending := by
  rw [invalid_iff hl h, pending_iff hl h]
  unfold Settles Pending
  tauto

theorem mem_settled_iff {t : τ} :
    t ∈ (R.run l).settled ↔
      t ∈ l ∧ R.id t ∉ (R.run l).invalid ∧ R.id t ∉ (R.run l).pending := by
  rw [R.mem_settled]
  constructor
  · rintro ⟨pre, t', post, h, hs, rfl⟩
    exact ⟨by simp [h], (settles_iff hl h).1 hs⟩
  · rintro ⟨ht, hs⟩
    obtain ⟨pre, post, h⟩ := List.append_of_mem ht
    exact ⟨pre, t, post, h, (settles_iff hl h).2 hs, rfl⟩

/-- An outpoint is swept if a valid transaction consumes it, and this or a later one settles. -/
theorem mem_swept_iff {o : O} :
    o ∈ (R.run l).swept ↔ ∃ pre t post, l = pre ++ t :: post ∧ R.id t ∉ (R.run l).invalid ∧
      o ∈ R.ins t ∧ ∃ s ∈ t :: post, R.id s ∉ (R.run l).invalid ∧ R.id s ∉ (R.run l).pending := by
  rw [R.mem_swept]
  constructor
  · rintro ⟨a, s, b, h, hs, ho⟩
    obtain ⟨pre, t, mid, h', hv, ht⟩ := (R.mem_spent _ _).1 ho
    have hl' : l = pre ++ t :: (mid ++ b) := by
      rw [h, show a ++ s :: b = (a ++ [s]) ++ b by simp, h']; simp
    have hsm : s ∈ t :: mid := by
      rcases split_snoc h' with ⟨-, rfl, -⟩ | ⟨post', rfl, -⟩ <;> simp
    refine ⟨pre, t, mid ++ b, hl', (invalid_iff hl hl').not.2 hv, ht, s, ?_,
      (settles_iff hl h).1 hs⟩
    rw [← List.cons_append]; exact List.mem_append_left _ hsm
  · rintro ⟨pre, t, post, h, hv, ho, s, hsm, hs⟩
    obtain ⟨a, b, hab⟩ := List.append_of_mem hsm
    have h' : l = (pre ++ a) ++ s :: b := by rw [h, hab]; simp
    refine ⟨pre ++ a, s, b, h', (settles_iff hl h').2 hs, (R.mem_spent _ _).2 ?_⟩
    have hpre : ∃ mid, (pre ++ a) ++ [s] = pre ++ t :: mid := by
      rcases a with _ | ⟨x, a⟩
      · obtain ⟨rfl, -⟩ := List.cons.inj hab; exact ⟨[], by simp⟩
      · obtain ⟨rfl, -⟩ := List.cons.inj hab; exact ⟨a ++ [s], by simp⟩
    obtain ⟨mid, hmid⟩ := hpre
    exact ⟨pre, t, mid, hmid, (invalid_iff hl h).not.1 hv, ho⟩

end

/-! ## Other rules

Two sets of rules that judge the transactions of two lists alike, each at its place. -/

theorem run_map {R R' : LedgerRules τ O H} {f : τ → τ} (hid : ∀ t, R'.id (f t) = R.id t)
    (hins : ∀ t, R'.ins (f t) = R.ins t) {l : List τ}
    (hc : ∀ pre t post, l = pre ++ t :: post →
      R'.conflicts (R.run pre) (f t) = R.conflicts (R.run pre) t ∧
        (R.conflicts (R.run pre) t = false →
          R'.waits (R.run pre) (f t) = R.waits (R.run pre) t)) :
    R'.run (l.map f) = { R.run l with settled := (R.run l).settled.map f } := by
  induction l using List.reverseRecOn with
  | nil => rfl
  | append_singleton l t ih =>
    have ih := ih fun pre x post h => hc pre x (post ++ [t]) (by simp [h])
    obtain ⟨h₁, h₂⟩ := hc l t [] rfl
    have hconf : R'.conflicts (R'.run (l.map f)) (f t) = R.conflicts (R.run l) t := by
      rw [ih]; exact h₁
    have hspend : R'.spend (R'.run (l.map f)) (f t) = R.spend (R.run l) t := by
      rw [ih, spend, hins]; rfl
    rw [List.map_append, List.map_singleton, run_snoc, run_snoc, step, step, hconf, hspend, hid]
    rcases ht : R.conflicts (R.run l) t with _ | _
    · have hwait : R'.waits (R'.run (l.map f)) (f t) = R.waits (R.run l) t := by
        rw [ih]; exact h₂ ht
      rw [hwait, ih]
      rcases R.waits (R.run l) t with _ | _
      · simp
      · simp
    · rw [ih]
      simp

/-! ## Unspent outputs -/

/-- What the settled transactions put out, in order, and no sweep took by its name. -/
def unspentBy {P : Type} (outs : τ → List P) (name : P → O) (c : Classes τ O H) : List P :=
  (c.settled.flatMap outs).filter fun p => decide (name p ∉ c.swept)

/-- Settling a transaction appends its outputs and sweeps. -/
theorem unspentBy_settles {P : Type} {outs : τ → List P} {name : P → O} {pre : List τ} {t : τ}
    (h : R.Settles pre t) : unspentBy outs name (R.run (pre ++ [t])) =
      (unspentBy outs name (R.run pre) ++ outs t).filter
        fun p => decide (name p ∉ R.spend (R.run pre) t) := by
  have hsub : ∀ o, o ∉ R.spend (R.run pre) t → o ∉ (R.run pre).swept := fun o ho hs =>
    ho (Finset.mem_union_left _ (R.swept_sub_spent pre hs))
  simp only [R.run_settles h, unspentBy, List.flatMap_append, List.filter_append,
    List.filter_filter, List.flatMap_cons, List.flatMap_nil, List.append_nil]
  congr 1
  refine List.filter_congr fun p _ => ?_
  by_cases ho : name p ∈ R.spend (R.run pre) t
  · simp [ho]
  · simp [ho, hsub _ ho]

section
variable (outs : τ → List O)

/-- The outputs of the settled transactions that no sweep took, in order. -/
def unspent (c : Classes τ O H) : List O := unspentBy outs (fun o => o) c

/-- `t` is pending after `pre`, and nothing in `post` settles. -/
def Trailing (l pre : List τ) (t : τ) (post : List τ) : Prop :=
  l = pre ++ t :: post ∧ R.Pending pre t ∧
    ∀ mid s rest, post = mid ++ s :: rest → ¬ R.Settles (pre ++ t :: mid) s

variable {R outs}

omit [DecidableEq H] in
theorem mem_unspent {c : Classes τ O H} {o : O} :
    o ∈ unspent outs c ↔ (∃ t ∈ c.settled, o ∈ outs t) ∧ o ∉ c.swept := by
  simp [unspent, unspentBy]

theorem unspent_settles {pre : List τ} {t : τ} (h : R.Settles pre t) :
    unspent outs (R.run (pre ++ [t])) = (unspent outs (R.run pre) ++ outs t).filter
      fun o => decide (o ∉ R.spend (R.run pre) t) := R.unspentBy_settles h

theorem trailing_snoc (l : List τ) (t : τ) (pre : List τ) (p : τ) (post : List τ) :
    R.Trailing (l ++ [t]) pre p post ↔
      (pre = l ∧ p = t ∧ post = [] ∧ R.Pending l t) ∨
        ∃ post', post = post' ++ [t] ∧ R.Trailing l pre p post' ∧ ¬ R.Settles l t := by
  constructor
  · rintro ⟨h, hp, hs⟩
    rcases split_snoc h with ⟨rfl, rfl, rfl⟩ | ⟨post', rfl, rfl⟩
    · exact Or.inl ⟨rfl, rfl, rfl, hp⟩
    · exact Or.inr ⟨post', rfl, ⟨rfl, hp, fun mid s rest hm => hs mid s (rest ++ [t]) (by simp [hm])⟩,
        hs post' t [] rfl⟩
  · rintro (⟨rfl, rfl, rfl, hp⟩ | ⟨post', rfl, ⟨rfl, hp, hs⟩, ht⟩)
    · exact ⟨rfl, hp, fun mid s rest hm => by simp at hm⟩
    · refine ⟨by simp, hp, fun mid s rest hm => ?_⟩
      rcases split_snoc hm with ⟨-, rfl, rfl⟩ | ⟨rest', -, rfl⟩
      · exact ht
      · exact hs mid s rest' rfl

/-- The unspent outputs are unspent by every valid transaction, except for those a pending
    transaction consumes after the last sweep. -/
theorem unspent_disjoint_iff (l : List τ) :
    (∀ o ∈ unspent outs (R.run l), o ∉ (R.run l).spent) ↔
      ∀ pre t post, R.Trailing l pre t post →
        ∀ o ∈ R.ins t, ∀ s ∈ (R.run pre).settled, o ∉ outs s := by
  induction l using List.reverseRecOn with
  | nil => simp [run, unspent, Trailing]
  | append_singleton l t ih =>
    rcases R.class_cases l t with h | h | h
    · -- an invalid transaction changes neither side
      have hns : ¬ R.Settles l t := fun hs => hs.1 h
      have hnp : ¬ R.Pending l t := fun hp => hp.1 h
      have hl : (∀ o ∈ unspent outs (R.run (l ++ [t])), o ∉ (R.run (l ++ [t])).spent) ↔
          ∀ o ∈ unspent outs (R.run l), o ∉ (R.run l).spent := by
        rw [R.run_invalid h]; rfl
      rw [hl, ih]
      constructor
      · intro hr pre p post htr
        rcases (trailing_snoc l t pre p post).1 htr with ⟨-, -, -, hp⟩ | ⟨post', -, htr, -⟩
        · exact absurd hp hnp
        · exact hr pre p post' htr
      · exact fun hr pre p post htr =>
          hr pre p (post ++ [t]) ((trailing_snoc l t pre p _).2 (Or.inr ⟨post, rfl, htr, hns⟩))
    · -- a pending one spends its inputs without a sweep
      have hns : ¬ R.Settles l t := fun hs => hs.2 h.2
      have hl : (∀ o ∈ unspent outs (R.run (l ++ [t])), o ∉ (R.run (l ++ [t])).spent) ↔
          (∀ o ∈ unspent outs (R.run l), o ∉ (R.run l).spent) ∧
            ∀ o ∈ R.ins t, ∀ s ∈ (R.run l).settled, o ∉ outs s := by
        have hu : unspent outs (R.run (l ++ [t])) = unspent outs (R.run l) := by
          rw [R.run_pending h]; rfl
        rw [hu, R.run_pending h]
        simp only [spend, Finset.mem_union, List.mem_toFinset, not_or]
        constructor
        · intro hd
          refine ⟨fun o ho => (hd o ho).1, fun o ho s hs hos => ?_⟩
          have hsw : o ∉ (R.run l).swept := fun hsw =>
            R.fresh_of_open h.1 (R.pending_open h) ho (R.swept_sub_spent l hsw)
          exact (hd o (mem_unspent.2 ⟨⟨s, hs, hos⟩, hsw⟩)).2 ho
        · rintro ⟨hd, hi⟩ o ho
          refine ⟨hd o ho, fun hot => ?_⟩
          obtain ⟨⟨s, hs, hos⟩, -⟩ := mem_unspent.1 ho
          exact hi o hot s hs hos
      rw [hl, ih]
      constructor
      · rintro ⟨hr, ht⟩ pre p post htr
        rcases (trailing_snoc l t pre p post).1 htr with ⟨rfl, rfl, -, -⟩ | ⟨post', -, htr, -⟩
        · exact ht
        · exact hr pre p post' htr
      · intro hr
        refine ⟨fun pre p post htr => hr pre p (post ++ [t])
          ((trailing_snoc l t pre p _).2 (Or.inr ⟨post, rfl, htr, hns⟩)), ?_⟩
        exact hr l t [] ((trailing_snoc l t l t []).2 (Or.inl ⟨rfl, rfl, rfl, h⟩))
    · -- a settled one sweeps: nothing unspent is left spent, nothing pending trails
      have hnp : ¬ R.Pending l t := fun hp => h.2 hp.2
      refine iff_of_true (fun o ho => ?_) fun pre p post htr => ?_
      · rw [unspent_settles h] at ho
        rw [R.run_settles h]
        simpa using (List.mem_filter.1 ho).2
      · rcases (trailing_snoc l t pre p post).1 htr with ⟨-, -, -, hp⟩ | ⟨post', -, -, hs⟩
        · exact absurd hp hnp
        · exact absurd h hs

end

end LedgerRules

end RavenWallet
