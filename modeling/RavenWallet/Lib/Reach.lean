/-
  Runs of a system under a guard.

  A guard is a condition on the state before a step and the operation that makes
  it.  `Run.invariant` is the invariant rule; it may use facts that are already
  known of every state of the run.  `Steps` are the steps of one run.
  `foldlM_prefix`, `foldlM_isSome`, `foldlM_eq_none_iff` and `foldlM_invariant` are
  the rules for a loop.
-/
import Mathlib.Data.List.Induction

namespace RavenWallet

/-- States that change by operations. -/
structure System (S Op : Type) where
  init : S → Prop
  step : S → Op → S → Prop

namespace System

variable {S Op : Type} (M : System S Op)

/-- `s` is reached by steps that all meet the guard `G`. -/
inductive Run (G : S → Op → Prop) : S → Prop
  | init {s : S} : M.init s → Run G s
  | step {s s' : S} {op : Op} : Run G s → G s op → M.step s op s' → Run G s'

/-- `s` is reached by the steps, each with the states before and after it. -/
inductive Steps : List (S × Op × S) → S → Prop
  | init {s : S} : M.init s → Steps [] s
  | step {steps : List (S × Op × S)} {s s' : S} {op : Op} :
      Steps steps s → M.step s op s' → Steps (steps ++ [(s, op, s')]) s'

variable {M} {G G' : S → Op → Prop}

theorem Run.mono (h : ∀ s op, G s op → G' s op) {s : S} (hs : M.Run G s) : M.Run G' s := by
  induction hs with
  | init h0 => exact .init h0
  | step _ hg hst ih => exact .step ih (h _ _ hg) hst

/-- A system with fewer initial states and steps has fewer runs. -/
theorem Run.restrict {M' : System S Op} (hi : ∀ s, M'.init s → M.init s)
    (hst : ∀ s op s', M'.step s op s' → M.step s op s') {s : S} (hs : M'.Run G s) : M.Run G s := by
  induction hs with
  | init h0 => exact .init (hi _ h0)
  | step _ hg h ih => exact .step ih hg (hst _ _ _ h)

/-- What holds initially and is kept by every guarded step holds throughout; the known facts `J`
    may be used on both sides of a step. -/
theorem Run.invariant {I J : S → Prop} (hJ : ∀ {s}, M.Run G s → J s)
    (h0 : ∀ {s}, M.init s → I s)
    (hstep : ∀ {s op s'}, J s → I s → G s op → M.step s op s' → J s' → I s') {s : S}
    (hs : M.Run G s) : I s := by
  induction hs with
  | init hi => exact h0 hi
  | step hr hg hst ih => exact hstep (hJ hr) ih hg hst (hJ (.step hr hg hst))

variable {steps : List (S × Op × S)} {s : S}

theorem Steps.run (h : M.Steps steps s) (hG : ∀ x ∈ steps, G x.1 x.2.1) : M.Run G s := by
  induction h with
  | init h0 => exact .init h0
  | @step steps s s' op _ hst ih =>
    exact .step (ih fun x hx => hG x (List.mem_append_left _ hx)) (hG (s, op, s') (by simp)) hst

/-- Every step starts in a state that is reached by the steps before it. -/
theorem Steps.mem (h : M.Steps steps s) {x : S × Op × S} (hx : x ∈ steps) :
    (∃ before, M.Steps before x.1 ∧ before <+: steps) ∧ M.step x.1 x.2.1 x.2.2 := by
  induction h with
  | init h0 => simp at hx
  | step h hst ih =>
    rcases List.mem_append.1 hx with hx | hx
    · obtain ⟨⟨before, hbefore, hpre⟩, hstep⟩ := ih hx
      exact ⟨⟨before, hbefore, hpre.trans (List.prefix_append _ _)⟩, hstep⟩
    · obtain rfl := List.mem_singleton.1 hx
      exact ⟨⟨_, h, List.prefix_append _ _⟩, hst⟩

/-- What every step of a run does is what every step meets, if that is so for a step. -/
theorem Steps.forall_iff {P Q : S → Op → S → Prop}
    (hPQ : ∀ {s op s'}, M.Run (fun _ _ => True) s → M.step s op s' → (P s op s' ↔ Q s op s'))
    (h : M.Steps steps s) :
    (∀ x ∈ steps, P x.1 x.2.1 x.2.2) ↔ ∀ x ∈ steps, Q x.1 x.2.1 x.2.2 := by
  refine forall₂_congr fun x hx => ?_
  obtain ⟨⟨before, hbefore, -⟩, hstep⟩ := h.mem hx
  exact hPQ (hbefore.run fun _ _ => trivial) hstep

end System

/-- The invariant rule for a loop over a list that may fail; the invariant may speak of the part
    of the list that is done. -/
theorem foldlM_prefix {S A : Type} {f : S → A → Option S} {P : List A → S → Prop} {l : List A}
    {s s' : S} (hf : ∀ {done x s s'}, x ∈ l → P done s → f s x = some s' → P (done ++ [x]) s')
    (h0 : P [] s) (h : l.foldlM f s = some s') : P l s' := by
  induction l using List.reverseRecOn generalizing s' with
  | nil =>
    obtain rfl : s = s' := by simpa using h
    exact h0
  | append_singleton l x ih =>
    simp only [List.foldlM_append, Option.bind_eq_bind, Option.bind_eq_some_iff, List.foldlM_cons,
      List.foldlM_nil, Option.pure_def, Option.some.injEq] at h
    obtain ⟨t, ht, t', hx, rfl⟩ := h
    exact hf (by simp) (ih (fun hy => hf (by simp [hy])) ht) hx

/-- The loop does not fail if no round does that starts with the invariant; what is done is the
    start of the list. -/
theorem foldlM_isSome_prefix {S A : Type} {f : S → A → Option S} {P : List A → S → Prop}
    {l : List A} {s : S}
    (hf : ∀ {done x s}, done ++ [x] <+: l → P done s → ∃ s', f s x = some s' ∧ P (done ++ [x]) s')
    (h0 : P [] s) : ∃ s', l.foldlM f s = some s' ∧ P l s' := by
  induction l using List.reverseRecOn with
  | nil => exact ⟨s, rfl, h0⟩
  | append_singleton l x ih =>
    obtain ⟨t, ht, hPt⟩ := ih fun hpre => hf (hpre.trans (List.prefix_append _ _))
    obtain ⟨t', ht', hP⟩ := hf List.prefix_rfl hPt
    exact ⟨t', by simp [List.foldlM_append, ht, ht'], hP⟩

theorem foldlM_isSome {S A : Type} {f : S → A → Option S} {P : List A → S → Prop} {l : List A}
    {s : S} (hf : ∀ {done x s}, x ∈ l → P done s → ∃ s', f s x = some s' ∧ P (done ++ [x]) s')
    (h0 : P [] s) : ∃ s', l.foldlM f s = some s' ∧ P l s' :=
  foldlM_isSome_prefix (fun hpre => hf (hpre.subset (List.mem_append_right _ List.mem_cons_self)))
    h0

/-- The loop fails in the first round that fails, if the invariant says which rounds do. -/
theorem foldlM_eq_none_iff {S A : Type} {f : S → A → Option S} {P : S → Prop}
    {Bad : S → A → Prop} {l : List A} {s : S} (hkeep : ∀ {s x s'}, P s → f s x = some s' → P s')
    (hf : ∀ {s x}, P s → (f s x = none ↔ Bad s x)) (h0 : P s) :
    l.foldlM f s = none ↔
      ∃ done x rest s', l = done ++ x :: rest ∧ done.foldlM f s = some s' ∧ Bad s' x := by
  induction l generalizing s with
  | nil => simp
  | cons y l ih =>
    rw [List.foldlM_cons]
    constructor
    · intro h
      cases hy : f s y with
      | none => exact ⟨[], y, l, s, rfl, rfl, (hf h0).1 hy⟩
      | some t =>
        rw [hy] at h
        obtain ⟨done, x, rest, s', rfl, hrun, hbad⟩ := (ih (hkeep h0 hy)).1 h
        exact ⟨y :: done, x, rest, s', rfl, by rw [List.foldlM_cons, hy]; exact hrun, hbad⟩
    · rintro ⟨done, x, rest, s', hl, hrun, hbad⟩
      cases done with
      | nil =>
        obtain ⟨rfl, rfl⟩ := List.cons.inj hl
        obtain rfl : s = s' := Option.some.inj hrun
        rw [(hf h0).2 hbad]
        rfl
      | cons z done =>
        obtain ⟨rfl, rfl⟩ := List.cons.inj hl
        cases hy : f s y with
        | none => rfl
        | some t =>
          rw [List.foldlM_cons, hy] at hrun
          exact (ih (hkeep h0 hy)).2 ⟨done, x, rest, s', rfl, hrun, hbad⟩

theorem foldlM_invariant {S A : Type} {f : S → A → Option S} {P : S → Prop} {l : List A}
    {s s' : S} (hf : ∀ {s x s'}, x ∈ l → P s → f s x = some s' → P s') (h0 : P s)
    (h : l.foldlM f s = some s') : P s' :=
  foldlM_prefix (P := fun _ => P) hf h0 h

/-- A run goes on with the steps that a function makes one after the other. -/
theorem System.Run.foldlM {S Op : Type} {M : System S Op} {G : S → Op → Prop}
    {exec : S → Op → Option S} {ops : List Op} {s s' : S}
    (hexec : ∀ {s op s'}, exec s op = some s' → G s op ∧ M.step s op s') (hs : M.Run G s)
    (h : ops.foldlM exec s = some s') : M.Run G s' :=
  foldlM_invariant (P := M.Run G)
    (fun _ ht hstep => .step ht (hexec hstep).1 (hexec hstep).2) hs h

end RavenWallet
