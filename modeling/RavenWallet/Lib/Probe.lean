/-
  Open addressing: items in slots, each looked for from its home slot on.

  `next` leads from a slot to the one that is probed after it.  A search goes on
  while it meets items that are not the one looked for, and ends in an empty slot
  or at an equivalent item.

  * `Probed.put`: to put an item where its search ends keeps every item within
    reach of its search;
  * `Probed.erase`, `Loose.move`, `Loose.close`: after an item is taken out, the
    items of the slots that follow are put again one by one; `Loose` is what
    holds meanwhile;
  * `Clear.move`: an empty slot outside of these is still empty at the end.
-/
import Mathlib.Logic.Relation
import RavenWallet.Lib.ClassMap

namespace RavenWallet

namespace Probe

variable {ι α : Type}

/-! ## Paths -/

/-- From the slot `a` to the slot `b` by steps out of slots that meet `P`. -/
def Path (next : ι → ι) (P : ι → Prop) : ι → ι → Prop :=
  Relation.ReflTransGen fun a b => P a ∧ next a = b

section
variable {next : ι → ι} {P Q : ι → Prop} {a b c i : ι}

theorem Path.mono (hPQ : ∀ {j}, P j → Q j) (h : Path next P a b) : Path next Q a b := by
  induction h with
  | refl => exact .refl
  | tail _ hstep ih => exact ih.tail ⟨hPQ hstep.1, hstep.2⟩

/-- A path out of slots that meet `P` does not get past a slot that does not. -/
theorem Path.meet (h : Path next P a b) (h' : Path next Q a c) (hc : ¬ P c) :
    Path next Q a b ∧ (b = c ∨ Q b) := by
  induction h using Relation.ReflTransGen.head_induction_on with
  | refl =>
    refine ⟨.refl, ?_⟩
    rcases h'.cases_head with heq | ⟨d, ⟨hb, -⟩, -⟩
    · exact Or.inl heq
    · exact Or.inr hb
  | head hstep hrest ih =>
    obtain ⟨hP, rfl⟩ := hstep
    rcases h'.cases_head with rfl | ⟨d, ⟨hQ, rfl⟩, hd⟩
    · exact absurd hP hc
    · obtain ⟨hpath, hend⟩ := ih hd
      exact ⟨.head ⟨hQ, rfl⟩ hpath, hend⟩

/-- A path that does not avoid the slot `i` has an end that leads from the slot after it. -/
theorem Path.around (i : ι) (h : Path next P a b) :
    Path next (fun j => P j ∧ j ≠ i) a b ∨ Path next (fun j => P j ∧ j ≠ i) (next i) b := by
  induction h with
  | refl => exact Or.inl .refl
  | @tail b c hab hbc ih =>
    obtain ⟨hb, rfl⟩ := hbc
    by_cases hi : b = i
    · subst hi
      exact Or.inr .refl
    · rcases ih with ih | ih
      · exact Or.inl (ih.tail ⟨⟨hb, hi⟩, rfl⟩)
      · exact Or.inr (ih.tail ⟨⟨hb, hi⟩, rfl⟩)

/-- No path leads out of a slot that does not meet `P`. -/
theorem Path.eq_of_not (h : Path next P a b) (ha : ¬ P a) : a = b := by
  rcases h.cases_head with heq | ⟨c, ⟨hP, -⟩, -⟩
  · exact heq
  · exact absurd hP ha

end

/-! ## Tables -/

/-- Equivalent items are looked for from the same slot. -/
structure Compatible (home : α → ι) (r : α → α → Prop) : Prop where
  equivalence : Equivalence r
  home_eq : ∀ {t u}, r t u → home t = home u

/-- The slot is not empty. -/
def Occupied (T : ι → Option α) (i : ι) : Prop := T i ≠ none

/-- The table has the item in a slot. -/
def Holds (T : ι → Option α) (t : α) : Prop := ∃ i, T i = some t

variable (next : ι → ι) (home : α → ι) (r : α → α → Prop)

/-- Every item is reached from its home slot, and no two are equivalent. -/
structure Probed (T : ι → Option α) : Prop where
  reached : ∀ {i t}, T i = some t → Path next (Occupied T) (home t) i
  distinct : ∀ {i j t u}, T i = some t → T j = some u → r t u → i = j

/-- The search for `x` ends in the slot `i`. -/
structure Stops (T : ι → Option α) (x : α) (i : ι) : Prop where
  path : Path next (fun j => ∃ t, T j = some t ∧ ¬ r t x) (home x) i
  ends : ∀ {t}, T i = some t → r t x

/-- As `Probed`, except for the items in the run of slots from `j` on. -/
structure Loose (T : ι → Option α) (j : ι) : Prop where
  reached : ∀ {i t}, T i = some t →
    Path next (Occupied T) (home t) i ∨ Path next (Occupied T) j i
  distinct : ∀ {i k t u}, T i = some t → T k = some u → r t u → i = k

/-- The slot `e` is empty, and no item is in a slot beyond it. -/
structure Clear (T : ι → Option α) (e : ι) : Prop where
  empty : T e = none
  before : ∀ {i t}, T i = some t → Path next (fun j => j ≠ e) (home t) i

/-- The table has the items of the map. -/
def Keeps (T : ι → Option α) (m : α → Option α) : Prop :=
  ∀ x t, m x = some t ↔ Holds T t ∧ r t x

variable {next home r} {T : ι → Option α} {m m' : α → Option α} {x t u : α} {e i j q : ι}

/-! ## The empty table -/

theorem Probed.empty : Probed next home r fun _ => none := by
  constructor
  · intro i t h
    cases h
  · intro i j t u h
    cases h

theorem Keeps.empty : Keeps r (fun _ : ι => none) fun _ => none := by
  intro x t
  constructor
  · intro h
    cases h
  · rintro ⟨⟨i, hi⟩, -⟩
    cases hi

/-! ## Search -/

/-- The search finds the equivalent item. -/
theorem Probed.stop_eq (hc : Compatible home r) (hT : Probed next home r T)
    (hs : Stops next home r T x i) (hj : T j = some u) (hu : r u x) : i = j := by
  have hreach := hT.reached hj
  rw [hc.home_eq hu] at hreach
  have hmatch : ¬ ∃ t, T j = some t ∧ ¬ r t x := by
    rintro ⟨t, ht, hne⟩
    cases hj.symm.trans ht
    exact hne hu
  rcases (hs.path.meet hreach hmatch).2 with heq | hocc
  · exact heq
  · obtain ⟨t, ht⟩ := Option.ne_none_iff_exists'.1 hocc
    exact hT.distinct ht hj (hc.equivalence.trans (hs.ends ht) (hc.equivalence.symm hu))

/-- The slot where the search ends has what the map has. -/
theorem Stops.lookup (hc : Compatible home r) (hT : Probed next home r T) (hm : Keeps r T m)
    (hs : Stops next home r T x i) : m x = T i := by
  cases hi : T i with
  | some t => exact (hm x t).2 ⟨⟨i, hi⟩, hs.ends hi⟩
  | none =>
    rw [Option.eq_none_iff_forall_ne_some]
    intro t ht
    obtain ⟨⟨j, hj⟩, hr⟩ := (hm x t).1 ht
    rw [hT.stop_eq hc hs hj hr, hj] at hi
    cases hi

theorem Keeps.items (hr : Equivalence r) (hm : Keeps r T m) : t ∈ ClassMap.items m ↔ Holds T t :=
  ClassMap.mem_items.trans ((hm t t).trans ⟨And.left, fun h => ⟨h, hr.refl t⟩⟩)

theorem Keeps.of_holds {T' : ι → Option α} (hm : Keeps r T m)
    (h : ∀ t, Holds T' t ↔ Holds T t) : Keeps r T' m := by
  intro x t
  rw [h]
  exact hm x t

theorem Keeps.consistent (hr : Equivalence r) (hm : Keeps r T m) :
    ClassMap.Consistent r m := by
  refine ⟨fun h => ((hm _ _).1 h).2, ?_⟩
  intro x y hxy
  refine Option.ext fun t => ?_
  rw [hm, hm]
  refine and_congr_right fun _ => ⟨fun h => hr.trans h hxy, fun h => hr.trans h (hr.symm hxy)⟩

/-! ## Insertion -/

section
variable [DecidableEq ι]

theorem holds_update (hi : T i = none) :
    Holds (Function.update T i (some x)) t ↔ t = x ∨ Holds T t := by
  constructor
  · rintro ⟨j, hj⟩
    by_cases hji : j = i
    · subst hji
      rw [Function.update_self] at hj
      exact Or.inl (Option.some.inj hj).symm
    · rw [Function.update_of_ne hji] at hj
      exact Or.inr ⟨j, hj⟩
  · rintro (rfl | ⟨j, hj⟩)
    · exact ⟨i, Function.update_self ..⟩
    · have hji : j ≠ i := by
        rintro rfl
        rw [hi] at hj
        cases hj
      exact ⟨j, by rw [Function.update_of_ne hji, hj]⟩

theorem occupied_update (h : Occupied T j) : Occupied (Function.update T i (some x)) j := by
  by_cases hji : j = i
  · subst hji
    rw [Occupied, Function.update_self]
    exact Option.some_ne_none x
  · rw [Occupied, Function.update_of_ne hji]
    exact h

/-- The item that is put is reached. -/
theorem Stops.reached (hs : Stops next home r T x i) :
    Path next (Occupied (Function.update T i (some x))) (home x) i := by
  refine hs.path.mono ?_
  rintro j ⟨t, ht, -⟩
  exact occupied_update (Option.ne_none_iff_exists'.2 ⟨t, ht⟩)

theorem Probed.put (hc : Compatible home r) (hT : Probed next home r T)
    (hs : Stops next home r T x i) : Probed next home r (Function.update T i (some x)) := by
  refine ⟨?_, ?_⟩
  · intro j t hj
    by_cases hji : j = i
    · subst hji
      rw [Function.update_self] at hj
      cases hj
      exact hs.reached
    · rw [Function.update_of_ne hji] at hj
      exact (hT.reached hj).mono occupied_update
  · intro j k t u hj hk hr
    by_cases hji : j = i
    · by_cases hki : k = i
      · rw [hji, hki]
      · rw [hji, Function.update_self] at hj
        rw [Function.update_of_ne hki] at hk
        cases hj
        exact hji.trans (hT.stop_eq hc hs hk (hc.equivalence.symm hr))
    · rw [Function.update_of_ne hji] at hj
      by_cases hki : k = i
      · rw [hki, Function.update_self] at hk
        cases hk
        exact (hki.trans (hT.stop_eq hc hs hj hr)).symm
      · rw [Function.update_of_ne hki] at hk
        exact hT.distinct hj hk hr

/-- To put an item replaces the equivalent one. -/
theorem Keeps.put [DecidableRel r] (hc : Compatible home r) (hT : Probed next home r T)
    (hm : Keeps r T m) (hs : Stops next home r T x i) :
    Keeps r (Function.update T i (some x)) (ClassMap.insert r m x) := by
  have hholds : ∀ t, Holds (Function.update T i (some x)) t ↔ t = x ∨ Holds T t ∧ ¬ r t x := by
    intro t
    constructor
    · rintro ⟨j, hj⟩
      by_cases hji : j = i
      · subst hji
        rw [Function.update_self] at hj
        exact Or.inl (Option.some.inj hj).symm
      · rw [Function.update_of_ne hji] at hj
        exact Or.inr ⟨⟨j, hj⟩, fun hr => hji (hT.stop_eq hc hs hj hr).symm⟩
    · rintro (rfl | ⟨⟨j, hj⟩, hr⟩)
      · exact ⟨i, Function.update_self ..⟩
      · have hji : j ≠ i := fun h => hr (hs.ends (h ▸ hj))
        exact ⟨j, by rw [Function.update_of_ne hji, hj]⟩
  intro y t
  rw [hholds, ClassMap.insert]
  split_ifs with hxy
  · constructor
    · rintro h
      cases h
      exact ⟨Or.inl rfl, hxy⟩
    · rintro ⟨rfl | ⟨-, hne⟩, hty⟩
      · rfl
      · exact absurd (hc.equivalence.trans hty (hc.equivalence.symm hxy)) hne
  · rw [hm]
    constructor
    · rintro ⟨hheld, hty⟩
      refine ⟨Or.inr ⟨hheld, fun htx => hxy ?_⟩, hty⟩
      exact hc.equivalence.trans (hc.equivalence.symm htx) hty
    · rintro ⟨rfl | ⟨hheld, -⟩, hty⟩
      · exact absurd hty hxy
      · exact ⟨hheld, hty⟩

/-! ## Removal -/

theorem update_none_eq_some : Function.update T i none j = some t ↔ j ≠ i ∧ T j = some t := by
  by_cases hji : j = i
  · subst hji
    simp
  · simp [hji]

theorem occupied_update_none : Occupied (Function.update T i none) j ↔ Occupied T j ∧ j ≠ i := by
  by_cases hji : j = i
  · subst hji
    simp [Occupied]
  · simp [Occupied, hji]

/-- A path survives that a slot is emptied, or leads on from the slot after it. -/
theorem Path.erase {a b : ι} (i : ι) (h : Path next (Occupied T) a b) :
    Path next (Occupied (Function.update T i none)) a b ∨
      Path next (Occupied (Function.update T i none)) (next i) b := by
  rcases h.around i with h | h
  · exact Or.inl (h.mono occupied_update_none.2)
  · exact Or.inr (h.mono occupied_update_none.2)

/-- After an item is taken out, the run of slots after it is loose. -/
theorem Probed.erase (hT : Probed next home r T) (i : ι) :
    Loose next home r (Function.update T i none) (next i) := by
  refine ⟨?_, ?_⟩
  · intro j t hj
    obtain ⟨-, hj⟩ := update_none_eq_some.1 hj
    exact (hT.reached hj).erase i
  · intro j k t u hj hk hr
    exact hT.distinct (update_none_eq_some.1 hj).2 (update_none_eq_some.1 hk).2 hr

theorem Keeps.erase [DecidableRel r] (hc : Compatible home r) (hT : Probed next home r T)
    (hm : Keeps r T m) (hi : T i = some u) (hu : r u x) :
    Keeps r (Function.update T i none) (ClassMap.erase r m x) := by
  have hsymm : r x u := hc.equivalence.symm hu
  intro y t
  rw [ClassMap.erase]
  split_ifs with hxy
  · constructor
    · intro h
      cases h
    · rintro ⟨⟨j, hj⟩, hty⟩
      obtain ⟨hji, hj⟩ := update_none_eq_some.1 hj
      have htu := hc.equivalence.trans hty
        (hc.equivalence.trans (hc.equivalence.symm hxy) hsymm)
      exact absurd (hT.distinct hj hi htu) hji
  · rw [hm]
    constructor
    · rintro ⟨⟨j, hj⟩, hty⟩
      refine ⟨⟨j, update_none_eq_some.2 ⟨?_, hj⟩⟩, hty⟩
      rintro rfl
      cases hi.symm.trans hj
      exact hxy (hc.equivalence.trans hsymm hty)
    · rintro ⟨⟨j, hj⟩, hty⟩
      exact ⟨⟨j, (update_none_eq_some.1 hj).2⟩, hty⟩

/-- An item of the loose run that is taken out is put in an empty slot. -/
theorem Loose.stops_empty (hT : Loose next home r T j) (hj : T j = some t)
    (hs : Stops next home r (Function.update T j none) t q) :
    Function.update T j none q = none := by
  rw [Option.eq_none_iff_forall_ne_some]
  intro u hu
  obtain ⟨hqj, hq⟩ := update_none_eq_some.1 hu
  exact hqj (hT.distinct hq hj (hs.ends hu))

/-- The first item of the loose run is put again, and the run gets shorter. -/
theorem Loose.move (hT : Loose next home r T j) (hj : T j = some t)
    (hs : Stops next home r (Function.update T j none) t q) :
    Loose next home r (Function.update (Function.update T j none) q (some t)) (next j) := by
  refine ⟨?_, ?_⟩
  · intro i u hi
    by_cases hiq : i = q
    · subst hiq
      rw [Function.update_self] at hi
      cases hi
      exact Or.inl hs.reached
    · rw [Function.update_of_ne hiq] at hi
      obtain ⟨hij, hi⟩ := update_none_eq_some.1 hi
      rcases hT.reached hi with hpath | hpath
      · rcases hpath.erase j with h | h
        · exact Or.inl (h.mono occupied_update)
        · exact Or.inr (h.mono occupied_update)
      · rcases hpath.erase j with h | h
        · have hempty : ¬ Occupied (Function.update T j none) j := by simp [Occupied]
          exact absurd (h.eq_of_not hempty).symm hij
        · exact Or.inr (h.mono occupied_update)
  · intro i k v w hi hk hvw
    by_cases hiq : i = q
    · by_cases hkq : k = q
      · rw [hiq, hkq]
      · rw [hiq, Function.update_self] at hi
        rw [Function.update_of_ne hkq] at hk
        cases hi
        obtain ⟨hkj, hk⟩ := update_none_eq_some.1 hk
        exact absurd (hT.distinct hj hk hvw).symm hkj
    · rw [Function.update_of_ne hiq] at hi
      obtain ⟨hij, hi⟩ := update_none_eq_some.1 hi
      by_cases hkq : k = q
      · rw [hkq, Function.update_self] at hk
        cases hk
        exact absurd (hT.distinct hi hj hvw) hij
      · rw [Function.update_of_ne hkq] at hk
        exact hT.distinct hi (update_none_eq_some.1 hk).2 hvw

theorem holds_move (hj : T j = some t) (hq : Function.update T j none q = none) :
    Holds (Function.update (Function.update T j none) q (some t)) u ↔ Holds T u := by
  rw [holds_update hq]
  constructor
  · rintro (rfl | ⟨i, hi⟩)
    · exact ⟨j, hj⟩
    · exact ⟨i, (update_none_eq_some.1 hi).2⟩
  · rintro ⟨i, hi⟩
    by_cases hij : i = j
    · subst hij
      exact Or.inl (Option.some.inj (hi.symm.trans hj))
    · exact Or.inr ⟨i, update_none_eq_some.2 ⟨hij, hi⟩⟩

omit [DecidableEq ι] in
/-- Nothing is loose when the run is over. -/
theorem Loose.close (hT : Loose next home r T j) (hj : T j = none) : Probed next home r T := by
  refine ⟨?_, hT.distinct⟩
  intro i t hi
  rcases hT.reached hi with h | h
  · exact h
  · have hempty : ¬ Occupied T j := fun hocc => hocc hj
    rw [← h.eq_of_not hempty, hj] at hi
    cases hi

/-! ## A slot that stays empty -/

omit [DecidableEq ι] in
theorem Probed.clear (hT : Probed next home r T) (he : T e = none) : Clear next home T e := by
  refine ⟨he, ?_⟩
  intro i t hi
  refine (hT.reached hi).mono ?_
  rintro j hj rfl
  exact hj he

theorem Clear.erase (hT : Clear next home T e) (i : ι) :
    Clear next home (Function.update T i none) e := by
  refine ⟨?_, ?_⟩
  · rw [Option.eq_none_iff_forall_ne_some]
    intro t ht
    have hempty := hT.empty
    rw [(update_none_eq_some.1 ht).2] at hempty
    cases hempty
  · intro j t hj
    exact hT.before (update_none_eq_some.1 hj).2

/-- An item that is put again stays before the empty slot. -/
theorem Clear.move (hT : Clear next home T e) (hj : T j = some t)
    (hs : Stops next home r (Function.update T j none) t q) :
    Clear next home (Function.update (Function.update T j none) q (some t)) e := by
  have hblocked : ¬ ∃ u, Function.update T j none j = some u ∧ ¬ r u t := by
    rintro ⟨u, hu, -⟩
    exact (update_none_eq_some.1 hu).1 rfl
  obtain ⟨hpath, hend⟩ := hs.path.meet (hT.before hj) hblocked
  have hqe : q ≠ e := by
    rcases hend with rfl | hqe
    · rintro rfl
      rw [hT.empty] at hj
      cases hj
    · exact hqe
  refine ⟨?_, ?_⟩
  · rw [Function.update_of_ne hqe.symm]
    exact (hT.erase j).empty
  · intro i u hi
    by_cases hiq : i = q
    · subst hiq
      rw [Function.update_self] at hi
      cases hi
      exact hpath
    · rw [Function.update_of_ne hiq] at hi
      exact hT.before (update_none_eq_some.1 hi).2

end

end Probe

end RavenWallet
