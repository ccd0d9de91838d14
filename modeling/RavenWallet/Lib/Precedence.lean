/-
  Lists in which what an element needs stands before it.

  `Founded needs l`: what an element of `l` needs is in `l`, and before it.  An
  insertion keeps this if nothing before the gap needs the new element and what
  the new one needs is before the gap (`insert`); so does a part of the list that
  keeps what its elements need (`sublist`).  `induct` is the rule for what holds
  of an element if it holds of all that it needs.

  `Each P l`: of each element, with the elements before it, `P` holds.
-/
import Mathlib.Data.List.Basic
import Mathlib.Data.List.Induction

namespace RavenWallet

variable {α : Type}

structure Founded (needs : α → α → Prop) (l : List α) : Prop where
  closed : ∀ q ∈ l, ∀ s, needs q s → s ∈ l
  order : l.Pairwise fun q r => ¬ needs q r
  irrefl : ∀ q ∈ l, ¬ needs q q

namespace Founded

variable {needs needs' : α → α → Prop} {l l' a b : List α} {p q s : α}

theorem nil : Founded needs [] := ⟨by simp, .nil, by simp⟩

theorem mono (h : Founded needs l) (hn : ∀ q ∈ l, ∀ s, needs' q s → needs q s) :
    Founded needs' l where
  closed q hq s hs := h.closed q hq s (hn q hq s hs)
  order := h.order.imp_of_mem fun hq _ hqr hs => hqr (hn _ hq _ hs)
  irrefl q hq hs := h.irrefl q hq (hn q hq q hs)

/-- What the element at a position needs is before that position. -/
theorem before (h : Founded needs l) (hl : l = a ++ q :: b) (hs : needs q s) : s ∈ a := by
  subst hl
  obtain ⟨-, hqb, -⟩ := List.pairwise_append.1 h.order
  have hm := h.closed q (by simp) s hs
  rcases List.mem_append.1 hm with hm | hm
  · exact hm
  · rcases List.mem_cons.1 hm with rfl | hm
    · exact absurd hs (h.irrefl s (by simp))
    · exact absurd hs ((List.pairwise_cons.1 hqb).1 s hm)

theorem sublist (h : Founded needs l) (hl : l'.Sublist l)
    (hn : ∀ q ∈ l', ∀ s, needs' q s → needs q s ∧ (s ∈ l → s ∈ l')) : Founded needs' l' where
  closed q hq s hs := by
    obtain ⟨hs, hm⟩ := hn q hq s hs
    exact hm (h.closed q (hl.subset hq) s hs)
  order := (h.order.sublist hl).imp_of_mem fun hq _ hqr hs => hqr (hn _ hq _ hs).1
  irrefl q hq hs := h.irrefl q (hl.subset hq) (hn q hq q hs).1

theorem insert (h : Founded needs (a ++ b)) (hnd : (a ++ p :: b).Nodup)
    (ha : ∀ q ∈ a, ∀ s, needs' q s → needs q s)
    (hb : ∀ q ∈ b, ∀ s, needs' q s → needs q s ∨ s = p) (hp : ∀ s, needs' p s → s ∈ a) :
    Founded needs' (a ++ p :: b) := by
  obtain ⟨hoa, hob, hab⟩ := List.pairwise_append.1 h.order
  obtain ⟨-, hpb, hdisj⟩ := List.nodup_append.1 hnd
  have hpa : p ∉ a := fun hm => hdisj p hm p List.mem_cons_self rfl
  have hpb : p ∉ b := (List.nodup_cons.1 hpb).1
  have hnew : p ∉ a ++ b := fun hm => (List.mem_append.1 hm).elim hpa hpb
  refine ⟨fun q hq s hs => ?_, List.pairwise_append.2 ⟨?_, List.pairwise_cons.2 ⟨?_, ?_⟩, ?_⟩,
    fun q hq hs => ?_⟩
  · rw [List.mem_append, List.mem_cons] at hq ⊢
    have hmem : s ∈ a ++ b → s ∈ a ∨ s = p ∨ s ∈ b := fun hm =>
      (List.mem_append.1 hm).imp_right Or.inr
    rcases hq with hq | rfl | hq
    · exact hmem (h.closed q (List.mem_append_left _ hq) s (ha q hq s hs))
    · exact Or.inl (hp s hs)
    · rcases hb q hq s hs with hs | rfl
      · exact hmem (h.closed q (List.mem_append_right _ hq) s hs)
      · exact Or.inr (Or.inl rfl)
  · exact hoa.imp_of_mem fun hq _ hqr hs => hqr (ha _ hq _ hs)
  · intro r hr hs
    exact hdisj r (hp r hs) r (List.mem_cons_of_mem _ hr) rfl
  · refine hob.imp_of_mem fun {q r} hq hr hqr hs => ?_
    rcases hb q hq r hs with hs | rfl
    · exact hqr hs
    · exact hpb hr
  · intro q hq r hr hs
    have hs := ha q hq r hs
    rcases List.mem_cons.1 hr with rfl | hr
    · exact hnew (h.closed q (List.mem_append_left _ hq) r hs)
    · exact hab q hq r hr hs
  · rw [List.mem_append, List.mem_cons] at hq
    rcases hq with hq | rfl | hq
    · exact h.irrefl q (List.mem_append_left _ hq) (ha q hq q hs)
    · exact hpa (hp q hs)
    · rcases hb q hq q hs with hs | rfl
      · exact h.irrefl q (List.mem_append_right _ hq) hs
      · exact hpb hq

/-- What holds of an element if it holds of all that the element needs. -/
theorem induct {P : α → Prop} (h : Founded needs l)
    (hP : ∀ a q b, l = a ++ q :: b → (∀ s, needs q s → s ∈ a ∧ P s) → P q) :
    ∀ q ∈ l, P q := by
  have hstart : ∀ a b, l = a ++ b → ∀ q ∈ a, P q := by
    intro a
    induction a using List.reverseRecOn with
    | nil =>
      intro b _ q hq
      cases hq
    | append_singleton a x ih =>
      intro b hl q hq
      have hl : l = a ++ x :: b := by rw [hl, List.append_assoc, List.singleton_append]
      rcases List.mem_append.1 hq with hq | hq
      · exact ih (x :: b) hl q hq
      · rw [List.mem_singleton.1 hq]
        refine hP a x b hl fun s hs => ?_
        have hm := h.before hl hs
        exact ⟨hm, ih (x :: b) hl s hm⟩
  exact hstart l [] (List.append_nil l).symm

end Founded

/-- Of each element and the elements before it `P` holds. -/
def Each (P : List α → α → Prop) (l : List α) : Prop :=
  ∀ a x b, l = a ++ x :: b → P a x

section
variable {P : List α → α → Prop} {l l' : List α} {x : α}

theorem each_nil : Each P [] := by
  intro a x b h
  simp at h

theorem each_concat : Each P (l ++ [x]) ↔ Each P l ∧ P l x := by
  constructor
  · intro h
    refine ⟨fun a y b hl => h a y (b ++ [x]) (by simp [hl]), h l x [] rfl⟩
  · rintro ⟨hl, hx⟩ a y b h
    rcases List.eq_nil_or_concat b with rfl | ⟨b, z, rfl⟩
    · obtain ⟨rfl, hyx⟩ := List.append_inj' h rfl
      rwa [← List.singleton_inj.1 hyx]
    · rw [List.concat_eq_append, ← List.cons_append, ← List.append_assoc] at h
      exact hl a y b (List.append_inj' h rfl).1

/-- Elements of which `P` always holds may be added. -/
theorem Each.append (h : Each P l) (hx : ∀ x ∈ l', ∀ a, P a x) : Each P (l ++ l') := by
  induction l' using List.reverseRecOn with
  | nil => rwa [List.append_nil]
  | append_singleton l' x ih =>
    rw [← List.append_assoc, each_concat]
    exact ⟨ih fun y hy => hx y (List.mem_append_left _ hy), hx x (by simp) _⟩

end

end RavenWallet
