/-
  Programs that make requests.

  A program returns, or makes a request and goes on with the answer.  A handler
  answers the requests from a state: `Prog.exec` runs a program with it,
  `Prog.step` makes a single request.

  * `Asks.exec`: what is kept by the requests a program makes, its run keeps;
  * `step_invariant`: what every request keeps, a step keeps;
  * `Leads.obeys`: what an automaton says of a program, it says of what is left of it.
-/
import Mathlib.Data.Nat.Notation
import Mathlib.Logic.Basic

namespace RavenWallet

/-- A program that makes requests of type `Op`, answered in `Res`, and returns an `α`. -/
inductive Prog {Op : Type} (Res : Op → Type) (α : Type) : Type
  | ret (a : α)
  | req (op : Op) (k : Res op → Prog Res α)

namespace Prog

section
variable {Op σ α : Type} {Res : Op → Type} (h : (op : Op) → σ → Res op × σ)

/-- The result and the state at the end. -/
def exec : Prog Res α → σ → α × σ
  | ret a, s => (a, s)
  | req op k, s => exec (k (h op s).1) (h op s).2

/-- The next request is answered. -/
def step : Prog Res α → σ → Prog Res α × σ
  | ret a, s => (ret a, s)
  | req op k, s => (k (h op s).1, (h op s).2)

/-- All the requests that there are for some answers satisfy `P`. -/
def Asks (P : Op → Prop) : Prog Res α → Prop
  | ret _ => True
  | req op k => P op ∧ ∀ r, Asks P (k r)

variable {h} {p : Prog Res α} {s : σ} {P : Op → Prop} {I : σ → Prop}

theorem asks_true : p.Asks fun _ => True := by
  induction p with
  | ret a => trivial
  | req op k ih => exact ⟨trivial, ih⟩

theorem Asks.exec (hp : p.Asks P) (hstep : ∀ op s, P op → I s → I (h op s).2) (hs : I s) :
    I (exec h p s).2 := by
  induction p generalizing s with
  | ret a => exact hs
  | req op k ih =>
    obtain ⟨hop, hk⟩ := hp
    exact ih _ (hk _) (hstep op s hop hs)

theorem step_invariant (hstep : ∀ op s, I s → I (h op s).2) (hs : I s) : I (step h p s).2 := by
  cases p with
  | ret a => exact hs
  | req op k => exact hstep op s hs

end

/-! ## Answers -/

/-- A request, and the answer to it. -/
abbrev Event {Op : Type} (Res : Op → Type) : Type := Σ op, Res op

/-- `q` is what is left of the program after these answers. -/
inductive Leads {Op α : Type} {Res : Op → Type} :
    Prog Res α → List (Event Res) → Prog Res α → Prop
  | refl (p : Prog Res α) : Leads p [] p
  | req {op : Op} {k : Res op → Prog Res α} {r : Res op} {t : List (Event Res)} {q : Prog Res α} :
      Leads (k r) t q → Leads (req op k) (⟨op, r⟩ :: t) q

/-- What a program may do: its mode changes with the answers. -/
structure Automaton {Op : Type} (Res : Op → Type) (M : Type) where
  next : M → Event Res → M
  /-- The requests that are made in a mode. -/
  allows : M → Op → Prop
  /-- The modes that a program ends in. -/
  ends : M → Prop

section
variable {Op α M : Type} {Res : Op → Type} (A : Automaton Res M)

/-- From the mode `m` on, the program keeps to the automaton, and ends after at most `n`
    requests. -/
def Obeys : ℕ → M → Prog Res α → Prop
  | _, m, ret _ => A.ends m
  | 0, _, req _ _ => False
  | n + 1, m, req op k => A.allows m op ∧ ∀ r, Obeys n (A.next m ⟨op, r⟩) (k r)

variable {A} {n n' : ℕ} {m : M} {p q : Prog Res α} {t : List (Event Res)}

theorem Obeys.mono (h : Obeys A n m p) (hn : n ≤ n') : Obeys A n' m p := by
  induction p generalizing n n' m with
  | ret a => cases n <;> cases n' <;> exact h
  | req op k ih =>
    cases n with
    | zero => exact h.elim
    | succ n =>
      cases n' with
      | zero => exact absurd hn (Nat.not_succ_le_zero n)
      | succ n' => exact ⟨h.1, fun r => ih r (h.2 r) (Nat.le_of_succ_le_succ hn)⟩

theorem Leads.concat {op : Op} {k : Res op → Prog Res α} (h : p.Leads t (Prog.req op k))
    (r : Res op) : p.Leads (t ++ [⟨op, r⟩]) (k r) := by
  generalize hq : Prog.req op k = q at h
  induction h with
  | refl => exact hq ▸ .req (.refl _)
  | req _ ih => exact .req (ih hq)

theorem Leads.obeys (h : p.Leads t q) (hp : Obeys A n m p) :
    ∃ n', n' + t.length = n ∧ Obeys A n' (t.foldl A.next m) q := by
  induction h generalizing n m with
  | refl => exact ⟨n, rfl, hp⟩
  | req _ ih =>
    cases n with
    | zero => exact hp.elim
    | succ n =>
      obtain ⟨n', rfl, hq⟩ := ih (hp.2 _)
      exact ⟨n', rfl, hq⟩

end

end Prog

end RavenWallet
