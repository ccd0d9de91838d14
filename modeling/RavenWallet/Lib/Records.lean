/-
  Records kept by somebody who is told of what was added, updated and deleted.

  `Orderly` says what the reports promise: what is updated or deleted was given
  at the start or added before, and not deleted since.  `tell` keeps the set of
  the records, and fails at a report of something without a record.

  * `mem_records_iff`: the records are what was announced;
  * `orderly_iff`: exactly the orderly reports can be told to the end.
-/
import Mathlib.Data.Finset.Basic
import RavenWallet.Lib.Reach

namespace RavenWallet

inductive Report (K : Type) where
  | added (k : K)
  | updated (ks : List K)
  | deleted (k : K)
  deriving DecidableEq

namespace Report

variable {K : Type}

/-- What must have a record. -/
def names : Report K → List K
  | .added _ => []
  | .updated ks => ks
  | .deleted k => [k]

/-- `k` was given or added, and not deleted since. -/
def Announced (given : Finset K) (past : List (Report K)) (k : K) : Prop :=
  k ∈ given ∧ .deleted k ∉ past ∨ ∃ a b, past = a ++ .added k :: b ∧ .deleted k ∉ b

/-- Every report names only what is announced at that time. -/
def Orderly (given : Finset K) (reports : List (Report K)) : Prop :=
  ∀ past e rest, reports = past ++ e :: rest → ∀ k ∈ e.names, Announced given past k

variable [DecidableEq K]

/-- Keeps the records. -/
def tell (records : Finset K) : Report K → Option (Finset K)
  | .added k => some (insert k records)
  | .updated ks => if ∀ k ∈ ks, k ∈ records then some records else none
  | .deleted k => if k ∈ records then some (records.erase k) else none

variable {given records records' : Finset K} {past reports : List (Report K)} {e : Report K} {k : K}

omit [DecidableEq K] in
/-- The last report decides, if it adds or deletes. -/
theorem announced_concat : Announced given (past ++ [e]) k ↔
    e = .added k ∨ Announced given past k ∧ e ≠ .deleted k := by
  constructor
  · rintro (⟨hk, hnot⟩ | ⟨a, b, hab, hnot⟩)
    · rw [List.mem_append, List.mem_singleton, not_or] at hnot
      exact Or.inr ⟨Or.inl ⟨hk, hnot.1⟩, Ne.symm hnot.2⟩
    · rcases List.eq_nil_or_concat b with rfl | ⟨b, e', rfl⟩
      · exact Or.inl (List.cons.inj (List.append_inj' hab rfl).2).1
      · rw [List.concat_eq_append] at hab hnot
        have hsplit : past ++ [e] = (a ++ .added k :: b) ++ [e'] := by rw [hab]; simp
        obtain ⟨rfl, he⟩ := List.append_inj' hsplit rfl
        obtain rfl := (List.cons.inj he).1
        rw [List.mem_append, List.mem_singleton, not_or] at hnot
        exact Or.inr ⟨Or.inr ⟨a, b, rfl, hnot.1⟩, Ne.symm hnot.2⟩
  · rintro (rfl | ⟨⟨hk, hnot⟩ | ⟨a, b, rfl, hnot⟩, hne⟩)
    · exact Or.inr ⟨past, [], rfl, List.not_mem_nil⟩
    · refine Or.inl ⟨hk, ?_⟩
      rw [List.mem_append, List.mem_singleton, not_or]
      exact ⟨hnot, Ne.symm hne⟩
    · refine Or.inr ⟨a, b ++ [e], by simp, ?_⟩
      rw [List.mem_append, List.mem_singleton, not_or]
      exact ⟨hnot, Ne.symm hne⟩

theorem tell_some (h : tell records e = some records') :
    (∀ k ∈ e.names, k ∈ records) ∧
      ∀ k, k ∈ records' ↔ e = .added k ∨ k ∈ records ∧ e ≠ .deleted k := by
  cases e with
  | added j =>
    obtain rfl := Option.some.inj h
    refine ⟨by simp [names], fun k => ?_⟩
    simp [eq_comm]
  | updated ks =>
    simp only [tell] at h
    split_ifs at h with hks
    obtain rfl := Option.some.inj h
    exact ⟨hks, by simp⟩
  | deleted j =>
    simp only [tell] at h
    split_ifs at h with hj
    obtain rfl := Option.some.inj h
    refine ⟨by simpa [names] using hj, fun k => ?_⟩
    simp [and_comm, eq_comm]

theorem foldlM_concat : (past ++ [e]).foldlM tell given =
    (past.foldlM tell given).bind fun records => tell records e := by
  simp [List.foldlM_append]

/-- The records are what is announced. -/
theorem mem_records_iff (h : reports.foldlM tell given = some records) :
    k ∈ records ↔ Announced given reports k := by
  induction reports using List.reverseRecOn generalizing records with
  | nil =>
    obtain rfl := Option.some.inj h
    simp [Announced]
  | append_singleton past e ih =>
    rw [foldlM_concat, Option.bind_eq_some_iff] at h
    obtain ⟨r, hr, h⟩ := h
    rw [(tell_some h).2 k, announced_concat, ih hr]

omit [DecidableEq K] in
theorem orderly_concat : Orderly given (past ++ [e]) ↔
    Orderly given past ∧ ∀ k ∈ e.names, Announced given past k := by
  constructor
  · intro h
    refine ⟨?_, h past e [] rfl⟩
    rintro a e' rest rfl
    exact h a e' (rest ++ [e]) (by simp)
  · rintro ⟨hpast, he⟩ a e' rest hsplit
    rcases List.eq_nil_or_concat rest with rfl | ⟨rest, e'', rfl⟩
    · obtain ⟨rfl, heq⟩ := List.append_inj' hsplit rfl
      obtain rfl := (List.cons.inj heq).1
      exact he
    · rw [List.concat_eq_append, ← List.cons_append, ← List.append_assoc] at hsplit
      exact hpast a e' rest (List.append_inj' hsplit rfl).1

theorem tell_isSome (h : ∀ k ∈ e.names, k ∈ records) : ∃ records', tell records e = some records' := by
  cases e with
  | added k => exact ⟨_, rfl⟩
  | updated ks => exact ⟨_, if_pos h⟩
  | deleted k => exact ⟨_, if_pos (h k (List.mem_singleton_self k))⟩

/-- Exactly the orderly reports can be told to the end. -/
theorem orderly_iff : Orderly given reports ↔
    ∃ records, reports.foldlM tell given = some records := by
  induction reports using List.reverseRecOn with
  | nil =>
    refine iff_of_true ?_ ⟨given, rfl⟩
    intro past e rest h
    simp at h
  | append_singleton past e ih =>
    rw [orderly_concat, ih, foldlM_concat]
    constructor
    · rintro ⟨⟨records, hr⟩, he⟩
      rw [hr, Option.bind_some]
      exact tell_isSome fun k hk => (mem_records_iff hr).2 (he k hk)
    · rintro ⟨records, h⟩
      obtain ⟨r, hr, h⟩ := Option.bind_eq_some_iff.1 h
      exact ⟨⟨r, hr⟩, fun k hk => (mem_records_iff hr).1 ((tell_some h).1 k hk)⟩

end Report

end RavenWallet
