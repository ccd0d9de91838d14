/-
  Operations on two sets, iteration, and runs (BRSet.c).

  * `union_spec`, `minus_spec`, `intersect_spec`: the operations on two different
    sets are those on maps; the lemmas named `_self` are about a set and itself;
  * `minus_self_iff`: which sets are emptied when they are taken away from themselves;
  * `iterateAll_eq`: the calls of `BRSetIterate` give the items one by one;
  * `run_refines_maps`: in every run the sets are the maps that the operations make, as
    long as no set gets too large, and none is taken away from itself while an
    item is outside of its own bucket.
-/
import RavenWallet.Core.Sets
import RavenWallet.Lib.Heap

namespace RavenWallet

namespace BRSet

variable {α : Type} [DecidableEq α] {hash : α → ℕ} {eq : α → α → Bool} {set other : BRSet α}
  {i e size : ℕ} {x t u : α} {m m' : α → Option α}

/-! ## Iteration -/

/-- The items that the calls of `BRSetIterate` give from `previous` on. -/
def iterateAll (set : BRSet α) : ℕ → Option α → Option (List α)
  | 0, _ => none
  | n + 1, previous => do
    match ← set.iterate previous with
    | none => some []
    | some t =>
      let ts ← set.iterateAll n (some t)
      some (t :: ts)

/-- After the item of a bucket comes the first one of the buckets that follow. -/
theorem iterate_some (hl : Lawful hash eq) (hv : Valid hash eq set)
    (hi : slot set.table i = some t) :
    set.iterate (some t) = some ((set.table.drop (i + 1)).findSome? id) := by
  obtain ⟨e, he, hempty⟩ := hv.exists_empty
  obtain ⟨q, -, hprobe, hstop⟩ := probe_stops hl hv.toShaped he hempty t
  obtain rfl := hv.probed.stop_eq (hl.compatible _) hstop hi (hl.equivalence.refl t)
  rw [iterate, hprobe]
  rfl

/-- Every item is visited, in the order of the buckets. -/
theorem iterateAll_eq (hl : Lawful hash eq) (hv : Valid hash eq set) :
    set.iterateAll (set.itemCount + 1) none = some set.table.reduceOption := by
  have hfrom : ∀ n i previous, set.iterate previous = some ((set.table.drop i).findSome? id) →
      (set.table.drop i).reduceOption.length < n →
      set.iterateAll n previous = some (set.table.drop i).reduceOption := by
    intro n
    induction n with
    | zero =>
      intro i previous _ hn
      exact absurd hn (Nat.not_lt_zero _)
    | succ n ih =>
      intro i previous hit hn
      rw [iterateAll, hit]
      cases hfind : (set.table.drop i).findSome? id with
      | none =>
        rw [List.findSome?_eq_none_iff] at hfind
        have hnil : (set.table.drop i).reduceOption = [] := List.filterMap_eq_nil_iff.2 hfind
        rw [hnil]
        rfl
      | some t =>
        obtain ⟨l₁, v, l₂, hdrop, hvt, hl₁⟩ := List.findSome?_eq_some_iff.1 hfind
        obtain rfl : v = some t := hvt
        have hnil : l₁.reduceOption = [] := List.filterMap_eq_nil_iff.2 hl₁
        have hitems : (set.table.drop i).reduceOption = t :: l₂.reduceOption := by
          rw [hdrop, List.reduceOption_append, hnil, List.reduceOption_cons_of_some]
          rfl
        have hslot : slot set.table (i + l₁.length) = some t := by
          rw [slot_eq_some, ← List.getElem?_drop, hdrop, List.getElem?_append_right le_rfl,
            Nat.sub_self]
          rfl
        have hrest : set.table.drop (i + l₁.length + 1) = l₂ := by
          rw [Nat.add_assoc, ← List.drop_drop, hdrop, List.drop_append]
          simp
        rw [hitems] at hn
        have hnext := ih (i + l₁.length + 1) (some t) (iterate_some hl hv hslot)
          (by rw [hrest]; exact Nat.lt_of_succ_lt_succ hn)
        rw [hrest] at hnext
        simp only [Option.bind_eq_bind, Option.bind_some, hnext, hitems]
  refine hfrom _ 0 none rfl ?_
  rw [List.drop_zero, countP_reduceOption, hv.count_eq]
  exact Nat.lt_succ_self _

/-! ## Two different sets -/

/-- The items of the other set are added, unless the set gets too large. -/
theorem union_spec (hl : Lawful hash eq) (hv : Valid hash eq set) (hm : Stores eq set m)
    (hv' : Valid hash eq other) (hm' : Stores eq other m')
    (hcount : ClassMap.count (ClassMap.union m m') ≤ 2609407362) :
    ∃ set', set.union (some other) = some set' ∧ Valid hash eq set' ∧
      Stores eq set' (ClassMap.union m m') := by
  have hfold := ClassMap.foldl_insert (m := m) hm'.mem_iff
  have hloop := foldlM_isSome_prefix (f := fun s t => (add s t).map Prod.fst)
    (P := fun done s => Valid hash eq s ∧ Stores eq s (done.foldl (ClassMap.insert (Equal eq)) m))
    (l := other.table.reduceOption) (s := set) ?_ ⟨hv, hm⟩
  · obtain ⟨set', hrun, hvalid, hstores⟩ := hloop
    rw [hfold] at hstores
    refine ⟨set', ?_, hvalid, hstores⟩
    rw [union, Option.getD_some, ← hv'.length_eq]
    exact (eachItem_eq ..).trans hrun
  · rintro done x s ⟨rest, hrest⟩ ⟨hvalid, hstores⟩
    have hcons := hstores.consistent hl.equivalence
    have hfin := hstores.finite hl
    have hle := ClassMap.count_le_foldl_insert (l := rest) hl.equivalence
      (ClassMap.insert_consistent hl.equivalence hcons x)
      (ClassMap.insert_finite (x := x) hl.equivalence hfin)
    rw [← List.foldl_concat (ClassMap.insert (Equal eq)), ← List.foldl_append, hrest, hfold,
      List.foldl_concat] at hle
    obtain ⟨s', hadd, hvalid', hstores'⟩ := add_spec hl hvalid hstores (hle.trans hcount)
    refine ⟨s', by rw [hadd]; rfl, hvalid', ?_⟩
    rw [List.foldl_concat]
    exact hstores'

/-- The items of the other set are removed. -/
theorem minus_spec (hl : Lawful hash eq) (hv : Valid hash eq set) (hm : Stores eq set m)
    (hv' : Valid hash eq other) (hm' : Stores eq other m') :
    ∃ set', set.minus (some other) = some set' ∧ Valid hash eq set' ∧
      Stores eq set' (ClassMap.minus m m') := by
  have hloop := foldlM_isSome (f := fun s t => (remove s t).map Prod.fst)
    (P := fun done s => Valid hash eq s ∧ Stores eq s (done.foldl (ClassMap.erase (Equal eq)) m))
    (l := other.table.reduceOption) (s := set) ?_ ⟨hv, hm⟩
  · obtain ⟨set', hrun, hvalid, hstores⟩ := hloop
    rw [ClassMap.foldl_erase hm'.mem_iff] at hstores
    refine ⟨set', ?_, hvalid, hstores⟩
    rw [minus, Option.getD_some, ← hv'.length_eq]
    exact (eachItem_eq ..).trans hrun
  · rintro done x s - ⟨hvalid, hstores⟩
    obtain ⟨s', hremove, hvalid', hstores'⟩ := remove_spec hl hvalid hstores x
    refine ⟨s', by rw [hremove]; rfl, hvalid', ?_⟩
    rw [List.foldl_concat]
    exact hstores'

/-- What holds while the items after bucket `i` are put again: those before it that are not in
    order yet, or after the cleanup came back to the first bucket, all items before it meet `G`. -/
structure Passed (hash : α → ℕ) (size e i : ℕ) (T₀ : ℕ → Option α) (G : α → Prop)
    (T : ℕ → Option α) (j : ℕ) : Prop where
  clear : Probe.Clear (next size) (home hash size) T e
  cases : (i < j ∧ (e < i ∨ j ≤ e) ∧ ∀ k, k < i ∨ j ≤ k → T k = T₀ k) ∨
    (j ≤ e ∧ e < i ∧ ∀ k < i, ∀ u, T k = some u → G u)

omit [DecidableEq α] in
/-- No item from bucket `i` on is put before it by the cleanup. -/
theorem Passed.move {T₀ T : ℕ → Option α} {G : α → Prop} {j q : ℕ}
    (h₀ : Probe.Probed (next size) (home hash size) (Equal eq) T₀) (hi : i < size) (he : e < size)
    (hG : ∀ k < i, ∀ u, T₀ k = some u → G u) (hP : Passed hash size e i T₀ G T j)
    (hj : j < size) (ht : T j = some t) (hq : Function.update T j none q = none)
    (hs : Probe.Stops (next size) (home hash size) (Equal eq) (Function.update T j none) t q) :
    Passed hash size e i T₀ G (Function.update (Function.update T j none) q (some t))
      (next size j) := by
  have hje : j ≠ e := by
    rintro rfl
    rw [hP.clear.empty] at ht
    cases ht
  refine ⟨hP.clear.move ht hs, ?_⟩
  rcases hP.cases with ⟨hij, hend, hsame⟩ | ⟨hje', hei, hgood⟩
  · -- the probe ends between the bucket `i` and the old place of the item
    have hbetween : i ≤ q ∧ q ≤ j := by
      have hreach := h₀.reached ((hsame j (Or.inr le_rfl)).symm.trans ht)
      have hblocked : ¬ ∃ u, Function.update T j none j = some u ∧ ¬ Equal eq u t := by
        rintro ⟨u, hu, -⟩
        rw [Function.update_self] at hu
        cases hu
      rcases (hs.path.meet hreach hblocked).2 with rfl | hocc
      · exact ⟨hij.le, le_rfl⟩
      · have hqj : q ≤ j := by
          by_contra hlt
          rw [Function.update_of_ne (by omega), hsame q (Or.inr (by omega))] at hq
          exact hocc hq
        refine ⟨?_, hqj⟩
        by_contra hlt
        rw [Function.update_of_ne (by omega), hsame q (Or.inl (by omega))] at hq
        exact hocc hq
    have hsame' : ∀ k, k < i ∨ j < k →
        Function.update (Function.update T j none) q (some t) k = T₀ k := by
      intro k hk
      rw [Function.update_of_ne (by omega), Function.update_of_ne (by omega)]
      exact hsame k (hk.imp_right le_of_lt)
    rcases Nat.lt_or_ge (j + 1) size with hlt | hge
    · rw [next, Nat.mod_eq_of_lt hlt]
      exact Or.inl ⟨by omega, by omega, fun k hk => hsame' k (hk.imp_right fun h => h)⟩
    · obtain rfl : size = j + 1 := by omega
      rw [next, Nat.mod_self]
      refine Or.inr ⟨Nat.zero_le _, by omega, ?_⟩
      intro k hk u hu
      rw [hsame' k (Or.inl hk)] at hu
      exact hG k hk u hu
  · rw [next, Nat.mod_eq_of_lt (by omega)]
    refine Or.inr ⟨by omega, hei, ?_⟩
    intro k hk u hu
    by_cases hkq : k = q
    · rw [hkq, Function.update_self] at hu
      cases hu
      exact hgood j (by omega) t ht
    · rw [Function.update_of_ne hkq] at hu
      exact hgood k hk u (Probe.update_none_eq_some.1 hu).2

/-- The items before bucket `i` still meet `G` after the item in it was removed. -/
theorem remove_passed (hl : Lawful hash eq) (hv : Valid hash eq set) {G : α → Prop}
    (hG : ∀ k < i, ∀ u, slot set.table k = some u → G u) (hi : slot set.table i = some t) :
    ∃ set', set.remove t = some (set', some t) ∧ Valid hash eq set' ∧ set'.size = set.size ∧
      set'.itemCount + 1 = set.itemCount ∧ ∀ k < i, ∀ u, slot set'.table k = some u → G u := by
  obtain ⟨e, he, hempty⟩ := hv.exists_empty
  have hsize := hv.toShaped.lt_size hi
  have hie : i ≠ e := by
    rintro rfl
    rw [hi] at hempty
    cases hempty
  have hstart : Passed hash set.size e i (slot set.table) G
      (Function.update (slot set.table) i none) (next set.size i) := by
    refine ⟨(hv.probed.clear hempty).erase i, ?_⟩
    rcases Nat.lt_or_ge (i + 1) set.size with hlt | hge
    · rw [next, Nat.mod_eq_of_lt hlt]
      refine Or.inl ⟨Nat.lt_succ_self i, by omega, ?_⟩
      intro k hk
      rw [Function.update_of_ne (by omega)]
    · have hlast : i + 1 = set.size := by omega
      rw [next, hlast, Nat.mod_self]
      refine Or.inr ⟨Nat.zero_le _, by omega, ?_⟩
      intro k hk u hu
      exact hG k hk u (Probe.update_none_eq_some.1 hu).2
  obtain ⟨set', j', hrun, hv', hsize', hitems, -, hpassed, -⟩ :=
    remove_found hl (P := Passed hash set.size e i (slot set.table) G)
      (fun hP hj _ ht hq hs => hP.move hv.probed hsize he hG hj ht hq hs)
      hv rfl hi (hl.equivalence.refl t) hstart
  refine ⟨set', hrun, hv', hsize', hitems, ?_⟩
  rcases hpassed.cases with ⟨-, -, hsame⟩ | ⟨-, -, hgood⟩
  · intro k hk u hu
    rw [hsame k (Or.inl hk)] at hu
    exact hG k hk u hu
  · exact hgood

omit [DecidableEq α] in
theorem inter_erase (hc : ClassMap.Consistent (Equal eq) m') (ht : m' t = none) :
    ClassMap.inter (ClassMap.erase (Equal eq) m t) m' = ClassMap.inter m m' := by
  funext y
  rw [ClassMap.inter, ClassMap.inter, ClassMap.erase]
  split_ifs with hy hty
  · rw [← hc.congr hty, ht] at hy
    cases hy
  · rfl
  · rfl

/-- The items that are not in the other set are removed. -/
theorem intersectFrom_spec (hl : Lawful hash eq) (hv' : Valid hash eq other)
    (hm' : Stores eq other m') {n : ℕ} (hv : Valid hash eq set) (hsize : set.size = size)
    (hm : Stores eq set m) (hpassed : ∀ k < i, ∀ u, slot set.table k = some u → (m' u).isSome)
    (hn : size - i + set.itemCount < n) :
    ∃ set', intersectFrom (some other) size n i set = some set' ∧ Valid hash eq set' ∧
      Stores eq set' (ClassMap.inter m m') := by
  have hcons := hm'.consistent hl.equivalence
  induction n generalizing i set m with
  | zero => exact absurd hn (Nat.not_lt_zero _)
  | succ n ih =>
    rw [intersectFrom]
    split_ifs with hi
    · subst hsize
      rw [hv.toShaped.getElem?_table hi]
      cases hslot : slot set.table i with
      | none =>
        refine ih hv rfl hm ?_ (by omega)
        intro k hk u hu
        rcases Nat.lt_succ_iff_lt_or_eq.1 hk with hlt | rfl
        · exact hpassed k hlt u hu
        · rw [hslot] at hu
          cases hu
      | some t =>
        simp only [Option.bind_eq_bind, Option.bind_some, Option.getD_some,
          contains_spec hl hv' hm']
        split_ifs with ht
        · refine ih hv rfl hm ?_ (by omega)
          intro k hk u hu
          rcases Nat.lt_succ_iff_lt_or_eq.1 hk with hlt | rfl
          · exact hpassed k hlt u hu
          · rw [hslot] at hu
            cases hu
            exact ht
        · obtain ⟨set', hrun, hvalid, hsz, hitems, hkeep⟩ := remove_passed hl hv hpassed hslot
          obtain ⟨set'', hrun', -, hstores⟩ := remove_spec hl hv hm t
          obtain ⟨rfl, -⟩ := Prod.mk.inj (Option.some.inj (hrun.symm.trans hrun'))
          rw [hrun]
          simp only [Option.bind_some]
          rw [← inter_erase hcons (Option.not_isSome_iff_eq_none.1 ht)]
          exact ih hvalid hsz hstores hkeep (by omega)
    · refine ⟨set, rfl, hv, ?_⟩
      have hall : ClassMap.inter m m' = m := by
        funext y
        rw [ClassMap.inter]
        split_ifs with hy
        · rfl
        · cases hmy : m y with
          | none => rfl
          | some u =>
            obtain ⟨⟨k, hk⟩, huy⟩ := (hm y u).1 hmy
            have hlt := hv.toShaped.lt_size hk
            have hu := hpassed k (by omega) u hk
            rw [hcons.congr huy] at hu
            exact absurd hu hy
      rw [hall]
      exact hm

theorem intersect_spec (hl : Lawful hash eq) (hv : Valid hash eq set) (hm : Stores eq set m)
    (hv' : Valid hash eq other) (hm' : Stores eq other m') :
    ∃ set', set.intersect (some other) = some set' ∧ Valid hash eq set' ∧
      Stores eq set' (ClassMap.inter m m') :=
  intersectFrom_spec hl hv' hm' hv rfl hm (fun k hk => absurd hk (Nat.not_lt_zero k))
    (by rw [Nat.sub_zero]; exact Nat.lt_succ_self _)

/-! ## A set and itself -/

omit [DecidableEq α] in
theorem put_self (hi : slot set.table i = some t) : set.put i (some t) t = set := by
  have hget := slot_eq_some.1 hi
  have htable : set.table.set i (some t) = set.table := by
    refine List.ext_getElem? fun j => ?_
    by_cases hj : i = j
    · subst hj
      rw [List.getElem?_set_self (lt_of_slot hi), hget]
    · rw [List.getElem?_set_ne hj]
  rw [put, htable]
  rfl

/-- To add an item that is in the set changes nothing. -/
theorem add_self (hl : Lawful hash eq) (hv : Valid hash eq set) (hi : slot set.table i = some t) :
    set.add t = some (set, some t) := by
  obtain ⟨e, he, hempty⟩ := hv.exists_empty
  obtain ⟨q, hq, hstop, hadd⟩ := addNested_put hl hv.toShaped he hempty 50 t
  obtain rfl := hv.probed.stop_eq (hl.compatible _) hstop hi (hl.equivalence.refl t)
  rw [hi, put_self hi, if_neg (Nat.not_lt.2 hv.load)] at hadd
  exact hadd

theorem union_self (hl : Lawful hash eq) (hv : Valid hash eq set) : set.union none = some set := by
  have hfrom : ∀ n i, i + n = set.size →
      eachItem (fun s => ((none : Option (BRSet α)).getD s).table)
        (fun s t => (s.add t).map Prod.fst) n i set = some set := by
    intro n
    induction n with
    | zero =>
      intro i _
      rfl
    | succ n ih =>
      intro i hi
      rw [eachItem, Option.getD_none, hv.toShaped.getElem?_table (by omega)]
      cases hslot : slot set.table i with
      | none => exact ih (i + 1) (by omega)
      | some t =>
        simp only [Option.bind_eq_bind, Option.bind_some, add_self hl hv hslot, Option.map_some]
        exact ih (i + 1) (by omega)
  exact hfrom set.size 0 (Nat.zero_add _)

theorem intersect_self (hl : Lawful hash eq) (hv : Valid hash eq set) (hm : Stores eq set m) :
    set.intersect none = some set := by
  have hfrom : ∀ n i, set.size - i < n → intersectFrom none set.size n i set = some set := by
    intro n
    induction n with
    | zero =>
      intro i hn
      exact absurd hn (Nat.not_lt_zero _)
    | succ n ih =>
      intro i hn
      rw [intersectFrom]
      split_ifs with hi
      · rw [hv.toShaped.getElem?_table hi]
        cases hslot : slot set.table i with
        | none => exact ih (i + 1) (by omega)
        | some t =>
          have ht : m t = some t := (hm t t).2 ⟨⟨i, hslot⟩, hl.equivalence.refl t⟩
          simp only [Option.bind_eq_bind, Option.bind_some, Option.getD_none,
            contains_spec hl hv hm, ht, Option.isSome_some, if_true]
          exact ih (i + 1) (by omega)
      · rfl
  exact hfrom _ 0 (by omega)

/-- Every item is in its own bucket, except that the first bucket may have any item. -/
def Settled (set : BRSet α) : Prop :=
  ∀ i t, i ≠ 0 → slot set.table i = some t → home set.hash set.size t = i

/-- When an item is removed and all others are in their own buckets, none of these is moved. -/
theorem remove_home (hl : Lawful hash eq) (hv : Valid hash eq set) (hi : slot set.table i = some t)
    (hhome : ∀ j u, Function.update (slot set.table) i none j = some u →
      home hash set.size u = j) :
    ∃ set', set.remove t = some (set', some t) ∧ Valid hash eq set' ∧ set'.size = set.size ∧
      slot set'.table = Function.update (slot set.table) i none := by
  have hkeep : ∀ {T : ℕ → Option α} {j u q}, T = Function.update (slot set.table) i none →
      T j = some u →
      Probe.Stops (next set.size) (home hash set.size) (Equal eq) (Function.update T j none) u q →
      Function.update (Function.update T j none) q (some u) =
        Function.update (slot set.table) i none := by
    rintro T j u q rfl hu hs
    -- the item at `j` is in its own bucket, so its probe ends there
    have hblocked : ¬ ∃ v, Function.update (Function.update (slot set.table) i none) j none j =
        some v ∧ ¬ Equal eq v u := by
      rintro ⟨v, hv, -⟩
      rw [Function.update_self] at hv
      cases hv
    have hpath := hs.path
    rw [hhome j u hu] at hpath
    obtain rfl := hpath.eq_of_not hblocked
    rw [Function.update_idem, ← hu, Function.update_eq_self]
  obtain ⟨set', j', hrun, hv', hsize, -, -, hsame, -⟩ :=
    remove_found hl (P := fun T _ => T = Function.update (slot set.table) i none)
      (fun hT _ _ hu _ hs => hkeep hT hu hs) hv rfl hi (hl.equivalence.refl t) rfl
  exact ⟨set', hrun, hv', hsize, hsame⟩

/-- A settled set is emptied when it is taken away from itself. -/
theorem minus_self (hl : Lawful hash eq) (hv : Valid hash eq set) (hsettled : set.Settled) :
    ∃ set', set.minus none = some set' ∧ Valid hash eq set' ∧ Stores eq set' fun _ => none := by
  have hfrom : ∀ n i s, i + n = set.size → Valid hash eq s → s.size = set.size →
      (slot s.table = fun k => if k < i then none else slot set.table k) →
      ∃ s', eachItem (fun s => ((none : Option (BRSet α)).getD s).table)
          (fun s t => (s.remove t).map Prod.fst) n i s = some s' ∧ Valid hash eq s' ∧
        s'.size = set.size ∧
        slot s'.table = fun k => if k < set.size then none else slot set.table k := by
    intro n
    induction n with
    | zero =>
      rintro i s rfl hvs hsz hslots
      exact ⟨s, rfl, hvs, hsz, hslots⟩
    | succ n ih =>
      intro i s hi hvs hsz hslots
      have hstep : Function.update (slot s.table) i none =
          fun k => if k < i + 1 then none else slot set.table k := by
        funext k
        by_cases hk : k = i
        · rw [hk, Function.update_self, if_pos (Nat.lt_succ_self i)]
        · rw [Function.update_of_ne hk, hslots]
          exact if_congr (by omega) rfl rfl
      rw [eachItem, Option.getD_none, hvs.toShaped.getElem?_table (by omega)]
      cases hslot : slot s.table i with
      | none =>
        refine ih (i + 1) s (by omega) hvs hsz ?_
        rw [← hstep, ← hslot, Function.update_eq_self]
      | some t =>
        obtain ⟨s', hrun, hvs', hsz', hsame⟩ := remove_home hl hvs hslot <| by
          intro j u hu
          rw [hstep] at hu
          dsimp only at hu
          split_ifs at hu with hlt
          rw [hsz, ← hv.hash_eq]
          exact hsettled j u (by omega) hu
        simp only [Option.bind_eq_bind, Option.bind_some, hrun, Option.map_some]
        exact ih (i + 1) s' (by omega) hvs' (hsz'.trans hsz) (hsame.trans hstep)
  obtain ⟨set', hrun, hv', -, hslots⟩ := hfrom set.size 0 set (Nat.zero_add _) hv rfl (by simp)
  refine ⟨set', hrun, hv', ?_⟩
  have hempty : slot set'.table = fun _ => none := by
    rw [hslots]
    funext k
    split_ifs with hk
    · rfl
    · rw [Option.eq_none_iff_forall_ne_some]
      intro t ht
      exact hk (hv.toShaped.lt_size ht)
  rw [Stores, hempty]
  exact .empty

/-- What holds while the items after bucket `i` are put again, up to the empty bucket `e`: none of
    them was moved yet, or there is an item in bucket `i`. -/
structure Moved (hash : α → ℕ) (size e d i : ℕ) (T₀ T : ℕ → Option α) (j : ℕ) : Prop where
  clear : Probe.Clear (next size) (home hash size) T e
  ahead : ∃ k, 0 < k ∧ k ≤ d ∧ (i + k) % size = j
  cases : T = Function.update T₀ i none ∨ T i ≠ none

omit [DecidableEq α] in
/-- The first item that is moved is put in bucket `i`. -/
theorem Moved.move {T₀ T : ℕ → Option α} {d j q : ℕ}
    (h₀ : Probe.Probed (next size) (home hash size) (Equal eq) T₀) (hi : i < size) (hd : d < size)
    (hde : (i + d) % size = e) (hM : Moved hash size e d i T₀ T j) (ht : T j = some t)
    (hq : Function.update T j none q = none)
    (hs : Probe.Stops (next size) (home hash size) (Equal eq) (Function.update T j none) t q) :
    Moved hash size e d i T₀ (Function.update (Function.update T j none) q (some t))
      (next size j) := by
  obtain ⟨k, hk, hkd, hkj⟩ := hM.ahead
  have hlt : k < d := by
    refine lt_of_le_of_ne hkd ?_
    rintro rfl
    rw [← hkj, hde, hM.clear.empty] at ht
    cases ht
  have hji : j ≠ i := by
    rintro rfl
    rcases Nat.lt_or_ge (j + k) size with h | h
    · rw [Nat.mod_eq_of_lt h] at hkj
      omega
    · rw [Nat.mod_eq_sub_mod h, Nat.mod_eq_of_lt (by omega)] at hkj
      omega
  refine ⟨hM.clear.move ht hs, ⟨k + 1, Nat.succ_pos k, hlt, ?_⟩, ?_⟩
  · rw [next, ← hkj, Nat.mod_add_mod, Nat.add_assoc]
  · rcases hM.cases with rfl | hmoved
    · rw [Function.update_of_ne hji] at ht
      have hblocked : ¬ ∃ u, Function.update (Function.update T₀ i none) j none j = some u ∧
          ¬ Equal eq u t := by
        rintro ⟨u, hu, -⟩
        rw [Function.update_self] at hu
        cases hu
      by_cases hqj : q = j
      · left
        rw [hqj, Function.update_idem, Function.update_eq_self_iff, Function.update_of_ne hji]
        exact ht.symm
      · have hocc := (hs.path.meet (h₀.reached ht) hblocked).2.resolve_left hqj
        have hqi : q = i := by
          by_contra hne
          rw [Function.update_of_ne hqj, Function.update_of_ne hne] at hq
          exact hocc hq
        right
        rw [hqi, Function.update_self]
        exact Option.some_ne_none t
    · right
      by_cases hqi : i = q
      · rw [hqi, Function.update_self]
        exact Option.some_ne_none t
      · rw [Function.update_of_ne hqi, Function.update_of_ne hji.symm]
        exact hmoved

/-- When an item is removed, either no other item is moved, or its bucket has one again. -/
theorem remove_moved (hl : Lawful hash eq) (hv : Valid hash eq set)
    (hi : slot set.table i = some t) :
    ∃ set', set.remove t = some (set', some t) ∧ Valid hash eq set' ∧ set'.size = set.size ∧
      (slot set'.table = Function.update (slot set.table) i none ∨ slot set'.table i ≠ none) := by
  obtain ⟨e, he, hempty⟩ := hv.exists_empty
  have hsize := hv.toShaped.lt_size hi
  obtain ⟨d, hd, hde⟩ := exists_step hsize he
  have hpos : 0 < d := by
    refine Nat.pos_of_ne_zero ?_
    rintro rfl
    rw [Nat.add_zero, Nat.mod_eq_of_lt hsize] at hde
    rw [← hde, hi] at hempty
    cases hempty
  have hstart : Moved hash set.size e d i (slot set.table)
      (Function.update (slot set.table) i none) (next set.size i) :=
    ⟨(hv.probed.clear hempty).erase i, ⟨1, Nat.one_pos, hpos, rfl⟩, Or.inl rfl⟩
  obtain ⟨set', j', hrun, hv', hsize', -, -, hmoved, -⟩ :=
    remove_found hl (P := Moved hash set.size e d i (slot set.table))
      (fun hM _ _ ht hq hs => hM.move hv.probed hsize hd hde ht hq hs)
      hv rfl hi (hl.equivalence.refl t) hstart
  exact ⟨set', hrun, hv', hsize', hmoved.cases⟩

omit [DecidableEq α] in
/-- An item is in its own bucket if all buckets before it are empty, unless it is in the first. -/
theorem home_of_passed (hv : Valid hash eq set) (hbefore : ∀ k < i, slot set.table k = none)
    (hi : i ≠ 0) (ht : slot set.table i = some t) : home hash set.size t = i := by
  rcases (hv.probed.reached ht).cases_tail with heq | ⟨b, -, hb, hnext⟩
  · exact heq.symm
  · obtain ⟨u, hu⟩ := Option.ne_none_iff_exists'.1 hb
    have hlt := hv.toShaped.lt_size hu
    have hbi : b < i := by
      rcases Nat.lt_or_ge (b + 1) set.size with h | h
      · rw [next, Nat.mod_eq_of_lt h] at hnext
        omega
      · have hlast : b + 1 = set.size := by omega
        rw [next, hlast, Nat.mod_self] at hnext
        exact absurd hnext.symm hi
    exact absurd (hbefore b hbi) hb

/-- A set that is taken away from itself is emptied if and only if it is settled. -/
theorem minus_self_iff (hl : Lawful hash eq) (hv : Valid hash eq set) :
    ∃ set', set.minus none = some set' ∧ Valid hash eq set' ∧
      ((Stores eq set' fun _ => none) ↔ set.Settled) := by
  have hfrom : ∀ n i s, i + n = set.size → Valid hash eq s → s.size = set.size →
      ∃ s', eachItem (fun s => ((none : Option (BRSet α)).getD s).table)
          (fun s t => (s.remove t).map Prod.fst) n i s = some s' ∧ Valid hash eq s' ∧
        ((slot s'.table = fun _ => none) → (∀ k < i, slot s.table k = none) ∧
          ∀ k t, k ≠ 0 → slot s.table k = some t → home hash set.size t = k) := by
    intro n
    induction n with
    | zero =>
      intro i s _ hvs _
      refine ⟨s, rfl, hvs, ?_⟩
      intro hempty
      rw [hempty]
      refine ⟨fun _ _ => rfl, ?_⟩
      intro k t _ ht
      cases ht
    | succ n ih =>
      intro i s hi hvs hsz
      rw [eachItem, Option.getD_none, hvs.toShaped.getElem?_table (by omega)]
      cases hslot : slot s.table i with
      | none =>
        obtain ⟨s', hrun, hv', hs'⟩ := ih (i + 1) s (by omega) hvs hsz
        refine ⟨s', hrun, hv', ?_⟩
        intro hempty
        obtain ⟨hpassed, hhome⟩ := hs' hempty
        exact ⟨fun k hk => hpassed k (Nat.lt_succ_of_lt hk), hhome⟩
      | some t =>
        obtain ⟨s₁, hremove, hv₁, hsz₁, hmoved⟩ := remove_moved hl hvs hslot
        obtain ⟨s', hrun, hv', hs'⟩ := ih (i + 1) s₁ (by omega) hv₁ (hsz₁.trans hsz)
        simp only [Option.bind_eq_bind, Option.bind_some, hremove, Option.map_some]
        refine ⟨s', hrun, hv', ?_⟩
        intro hempty
        obtain ⟨hpassed, hhome⟩ := hs' hempty
        have hsame := hmoved.resolve_right fun h => h (hpassed i (Nat.lt_succ_self i))
        have hother : ∀ k, k ≠ i → slot s₁.table k = slot s.table k := by
          intro k hk
          rw [hsame, Function.update_of_ne hk]
        have hbefore : ∀ k < i, slot s.table k = none := by
          intro k hk
          rw [← hother k hk.ne]
          exact hpassed k (Nat.lt_succ_of_lt hk)
        refine ⟨hbefore, ?_⟩
        intro k u hk hu
        by_cases hki : k = i
        · subst hki
          rw [← hsz]
          exact home_of_passed hvs hbefore hk hu
        · exact hhome k u hk ((hother k hki).trans hu)
  obtain ⟨set', hrun, hv', hset'⟩ := hfrom set.size 0 set (Nat.zero_add _) hv rfl
  refine ⟨set', hrun, hv', ?_, ?_⟩
  · intro hstores
    have hempty : slot set'.table = fun _ => none := by
      funext k
      cases hk : slot set'.table k with
      | none => rfl
      | some u => cases (hstores u u).2 ⟨⟨k, hk⟩, hl.equivalence.refl u⟩
    rw [Settled, hv.hash_eq]
    exact (hset' hempty).2
  · intro hsettled
    obtain ⟨set'', hrun', -, hstores⟩ := minus_self hl hv hsettled
    obtain rfl := Option.some.inj (hrun.symm.trans hrun')
    exact hstores

omit [DecidableEq α] in
theorem clear_spec (hv : Valid hash eq set) :
    Valid hash eq set.clear ∧ Stores eq set.clear fun _ => none := by
  have hempty : slot set.clear.table = fun _ => none := funext fun _ => slot_replicate set.size
  refine ⟨⟨⟨hv.hash_eq, hv.eq_eq, hv.size_mem, List.length_replicate, ?_⟩, Nat.zero_le _, ?_⟩, ?_⟩
  · simp [clear, List.countP_replicate]
  · rw [hempty]
    exact .empty
  · rw [Stores, hempty]
    exact .empty

end BRSet

/-! ## Runs -/

/-- The calls on the sets of a program. -/
inductive SetOp (α : Type) where
  | new (set : Ptr) (capacity : ℕ)
  | add (set : Ptr) (item : α)
  | remove (set : Ptr) (item : α)
  | clear (set : Ptr)
  | union (set otherSet : Ptr)
  | minus (set otherSet : Ptr)
  | intersect (set otherSet : Ptr)
  | free (set : Ptr)

/-- The sets of a program, and the maps that the calls are to make of them. -/
structure SetsState (α : Type) where
  sets : Ptr → Option (BRSet α)
  maps : Ptr → Option (α → Option α)

namespace SetOp

variable {α : Type}

/-- What a call is to make of the maps. -/
def spec (eq : α → α → Bool) (maps : Ptr → Option (α → Option α)) :
    SetOp α → Option (Ptr → Option (α → Option α))
  | new p _ =>
    if (maps p).isSome then none else some (Function.update maps p (some fun _ => none))
  | add p x => do
    let m ← maps p
    some (Function.update maps p (some (ClassMap.insert (BRSet.Equal eq) m x)))
  | remove p x => do
    let m ← maps p
    some (Function.update maps p (some (ClassMap.erase (BRSet.Equal eq) m x)))
  | clear p => do
    let _ ← maps p
    some (Function.update maps p (some fun _ => none))
  | union p q => do
    let m ← maps p
    let m' ← maps q
    some (Function.update maps p (some (ClassMap.union m m')))
  | minus p q => do
    let m ← maps p
    let m' ← maps q
    some (Function.update maps p (some (ClassMap.minus m m')))
  | intersect p q => do
    let m ← maps p
    let m' ← maps q
    some (Function.update maps p (some (ClassMap.inter m m')))
  | free p => do
    let _ ← maps p
    some (Function.update maps p none)

variable [DecidableEq α]

/-- The other set of a call, `none` when it is the set itself. -/
def other (sets : Ptr → Option (BRSet α)) (p q : Ptr) : Option (Option (BRSet α)) :=
  if p = q then some none else (sets q).map some

/-- What a call does. -/
def run (hash : α → ℕ) (eq : α → α → Bool) (sets : Ptr → Option (BRSet α)) :
    SetOp α → Option (Ptr → Option (BRSet α))
  | new p capacity =>
    if (sets p).isSome then none
    else some (Function.update sets p (some (BRSet.new hash eq capacity)))
  | add p x => do
    let set ← sets p
    let (set', _) ← set.add x
    some (Function.update sets p (some set'))
  | remove p x => do
    let set ← sets p
    let (set', _) ← set.remove x
    some (Function.update sets p (some set'))
  | clear p => do
    let set ← sets p
    some (Function.update sets p (some set.clear))
  | union p q => do
    let set ← sets p
    let otherSet ← other sets p q
    let set' ← set.union otherSet
    some (Function.update sets p (some set'))
  | minus p q => do
    let set ← sets p
    let otherSet ← other sets p q
    let set' ← set.minus otherSet
    some (Function.update sets p (some set'))
  | intersect p q => do
    let set ← sets p
    let otherSet ← other sets p q
    let set' ← set.intersect otherSet
    some (Function.update sets p (some set'))
  | free p => do
    let _ ← sets p
    some (Function.update sets p none)

end SetOp

namespace BRSet

variable {α : Type} [DecidableEq α]

def setSystem (hash : α → ℕ) (eq : α → α → Bool) : System (SetsState α) (SetOp α) where
  init s := s = ⟨fun _ => none, fun _ => none⟩
  step s op s' := op.run hash eq s.sets = some s'.sets ∧ op.spec eq s.maps = some s'.maps

/-- No set gets larger than the largest table allows, and a set that is taken away from itself is
    settled. -/
def setGuard (eq : α → α → Bool) (s : SetsState α) : SetOp α → Prop
  | .new _ capacity => capacity ≤ 2609407319
  | .add p x => ∀ m, s.maps p = some m →
    ClassMap.count (ClassMap.insert (Equal eq) m x) ≤ 2609407362
  | .union p q => ∀ m m', s.maps p = some m → s.maps q = some m' →
    ClassMap.count (ClassMap.union m m') ≤ 2609407362
  | .minus p q => p = q → ∀ set, s.sets p = some set → set.Settled
  | _ => True

/-- The set is the map. -/
structure Refines (set : BRSet α) (m : α → Option α) : Prop where
  /-- `BRSetGet` gives the item that was added last, of those equal to `x` and not removed. -/
  get : ∀ x, set.get x = some (m x)
  count : set.count = ClassMap.count m
  empty : none ∈ set.table
  iterate : ∃ ts, set.iterateAll (set.count + 1) none = some ts ∧ ts.Nodup ∧
    ∀ t, t ∈ ts ↔ t ∈ ClassMap.items m

variable {hash : α → ℕ} {eq : α → α → Bool} {set : BRSet α} {m : α → Option α} {s : SetsState α}

/-- The set is a valid table with the items of the map. -/
def Represents (hash : α → ℕ) (eq : α → α → Bool) (set : BRSet α) (m : α → Option α) : Prop :=
  Valid hash eq set ∧ Stores eq set m

theorem Represents.refines (hl : Lawful hash eq) (h : Represents hash eq set m) :
    Refines set m := by
  obtain ⟨hv, hm⟩ := h
  obtain ⟨e, he, hempty⟩ := hv.exists_empty
  refine ⟨get_spec hl hv hm, hm.count_eq hl hv.toShaped hv.probed, ?_, ?_⟩
  · have hget := hv.toShaped.getElem?_table he
    rw [hempty] at hget
    exact List.mem_of_getElem? hget
  · exact ⟨_, iterateAll_eq hl hv, Shaped.items_nodup hl hv.probed, fun t => (hm.mem_items hl).symm⟩

section
variable {sets : Ptr → Option (BRSet α)} {maps : Ptr → Option (α → Option α)} {p : Ptr}
  {R : BRSet α → (α → Option α) → Prop}

omit [DecidableEq α] in
theorem rel_some (h : ∀ p, Option.Rel R (sets p) (maps p)) (hp : maps p = some m) :
    ∃ set, sets p = some set ∧ R set m := by
  have hrel := h p
  rw [hp] at hrel
  cases hset : sets p with
  | none =>
    rw [hset] at hrel
    cases hrel
  | some set =>
    rw [hset] at hrel
    cases hrel with
    | some hR => exact ⟨set, rfl, hR⟩

omit [DecidableEq α] in
theorem rel_mono {R' : BRSet α → (α → Option α) → Prop} {a : Option (BRSet α)}
    {b : Option (α → Option α)} (hR : ∀ {set m}, R set m → R' set m) (h : Option.Rel R a b) :
    Option.Rel R' a b := by
  cases h with
  | none => exact .none
  | some hab => exact .some (hR hab)

omit [DecidableEq α] in
theorem rel_update (h : ∀ p, Option.Rel R (sets p) (maps p)) {a : Option (BRSet α)}
    {b : Option (α → Option α)} (hab : Option.Rel R a b) (q : Ptr) :
    Option.Rel R (Function.update sets p a q) (Function.update maps p b q) := by
  by_cases hq : q = p
  · subst hq
    rw [Function.update_self, Function.update_self]
    exact hab
  · rw [Function.update_of_ne hq, Function.update_of_ne hq]
    exact h q

end

omit [DecidableEq α] in
/-- A call on two sets does to the first what it is to do to its map, if it does so with another set
    and with the set itself. -/
theorem pair_represents {p q : Ptr} {maps' : Ptr → Option (α → Option α)}
    {f : BRSet α → Option (BRSet α) → Option (BRSet α)}
    {F : (α → Option α) → (α → Option α) → α → Option α}
    (h : ∀ p, Option.Rel (Represents hash eq) (s.sets p) (s.maps p))
    (hspec : (do
        let m ← s.maps p
        let m' ← s.maps q
        some (Function.update s.maps p (some (F m m')))) = some maps')
    (hself : p = q → ∀ m set, s.sets p = some set → Represents hash eq set m →
      ∃ set', f set none = some set' ∧ Represents hash eq set' (F m m))
    (hother : ∀ m m' set other, s.maps p = some m → s.maps q = some m' →
      Represents hash eq set m → Represents hash eq other m' →
      ∃ set', f set (some other) = some set' ∧ Represents hash eq set' (F m m')) :
    ∃ sets', (do
        let set ← s.sets p
        let otherSet ← SetOp.other s.sets p q
        let set' ← f set otherSet
        some (Function.update s.sets p (some set'))) = some sets' ∧
      ∀ r, Option.Rel (Represents hash eq) (sets' r) (maps' r) := by
  simp only [Option.bind_eq_bind, Option.bind_eq_some_iff] at hspec
  obtain ⟨m, hm, m', hm', hspec⟩ := hspec
  cases hspec
  obtain ⟨set, hset, hrep⟩ := rel_some h hm
  by_cases hpq : p = q
  · subst hpq
    cases hm.symm.trans hm'
    obtain ⟨set', hrun, hrep'⟩ := hself rfl m set hset hrep
    refine ⟨_, ?_, rel_update h (.some hrep')⟩
    simp only [SetOp.other, hset, hrun, if_true, Option.bind_eq_bind, Option.bind_some]
  · obtain ⟨other, hget, hrep'⟩ := rel_some h hm'
    obtain ⟨set', hrun, hrep''⟩ := hother m m' set other hm hm' hrep hrep'
    refine ⟨_, ?_, rel_update h (.some hrep'')⟩
    simp only [SetOp.other, hset, hget, hrun, hpq, if_false, Option.map_some,
      Option.bind_eq_bind, Option.bind_some]

/-- A call that meets the guard does to the sets what it is to do to the maps. -/
theorem step_represents (hl : Lawful hash eq) {op : SetOp α}
    {maps' : Ptr → Option (α → Option α)}
    (h : ∀ p, Option.Rel (Represents hash eq) (s.sets p) (s.maps p)) (hg : setGuard eq s op)
    (hspec : op.spec eq s.maps = some maps') :
    ∃ sets', op.run hash eq s.sets = some sets' ∧
      ∀ p, Option.Rel (Represents hash eq) (sets' p) (maps' p) := by
  cases op with
  | new p capacity =>
    simp only [SetOp.spec] at hspec
    split_ifs at hspec with hp
    cases hspec
    have hset : ¬ (s.sets p).isSome := by
      intro hset
      have hrel := h p
      rw [Option.not_isSome_iff_eq_none.1 hp] at hrel
      obtain ⟨set, hset⟩ := Option.isSome_iff_exists.1 hset
      rw [hset] at hrel
      cases hrel
    refine ⟨_, if_neg hset, rel_update h (.some ?_)⟩
    exact new_valid (tableSize_of_le hg)
  | add p x =>
    obtain ⟨m, hm, hspec⟩ := Option.bind_eq_some_iff.1 hspec
    cases hspec
    obtain ⟨set, hset, hv, hstores⟩ := rel_some h hm
    obtain ⟨set', hrun, hrep⟩ := add_spec hl hv hstores (hg m hm)
    refine ⟨_, ?_, rel_update h (.some hrep)⟩
    simp only [SetOp.run, hset, hrun, Option.bind_eq_bind, Option.bind_some]
  | remove p x =>
    obtain ⟨m, hm, hspec⟩ := Option.bind_eq_some_iff.1 hspec
    cases hspec
    obtain ⟨set, hset, hv, hstores⟩ := rel_some h hm
    obtain ⟨set', hrun, hrep⟩ := remove_spec hl hv hstores x
    refine ⟨_, ?_, rel_update h (.some hrep)⟩
    simp only [SetOp.run, hset, hrun, Option.bind_eq_bind, Option.bind_some]
  | clear p =>
    obtain ⟨m, hm, hspec⟩ := Option.bind_eq_some_iff.1 hspec
    cases hspec
    obtain ⟨set, hset, hv, hstores⟩ := rel_some h hm
    refine ⟨_, ?_, rel_update h (.some (clear_spec hv))⟩
    simp only [SetOp.run, hset, Option.bind_eq_bind, Option.bind_some]
  | union p q =>
    refine pair_represents h hspec ?_ ?_
    · rintro rfl m set - ⟨hv, hstores⟩
      rw [ClassMap.union_self]
      exact ⟨set, union_self hl hv, hv, hstores⟩
    · rintro m m' set other hm hm' ⟨hv, hstores⟩ ⟨hv', hstores'⟩
      exact union_spec hl hv hstores hv' hstores' (hg m m' hm hm')
  | minus p q =>
    refine pair_represents h hspec ?_ ?_
    · rintro hpq m set hset ⟨hv, -⟩
      rw [ClassMap.minus_self]
      exact minus_self hl hv (hg hpq set hset)
    · rintro m m' set other - - ⟨hv, hstores⟩ ⟨hv', hstores'⟩
      exact minus_spec hl hv hstores hv' hstores'
  | intersect p q =>
    refine pair_represents h hspec ?_ ?_
    · rintro rfl m set - ⟨hv, hstores⟩
      rw [ClassMap.inter_self]
      exact ⟨set, intersect_self hl hv hstores, hv, hstores⟩
    · rintro m m' set other - - ⟨hv, hstores⟩ ⟨hv', hstores'⟩
      exact intersect_spec hl hv hstores hv' hstores'
  | free p =>
    obtain ⟨m, hm, hspec⟩ := Option.bind_eq_some_iff.1 hspec
    cases hspec
    obtain ⟨set, hset, -⟩ := rel_some h hm
    refine ⟨_, ?_, rel_update h .none⟩
    simp only [SetOp.run, hset, Option.bind_eq_bind, Option.bind_some]

theorem run_represents (hl : Lawful hash eq) (h : (setSystem hash eq).Run (setGuard eq) s)
    (p : Ptr) :
    Option.Rel (Represents hash eq) (s.sets p) (s.maps p) := by
  induction h generalizing p with
  | init h0 =>
    rw [h0]
    exact .none
  | step hr hg hst ih =>
    obtain ⟨sets', hrun, hrel⟩ := step_represents hl ih hg hst.2
    cases hrun.symm.trans hst.1
    exact hrel p

/-- In every run every set is the map that the calls make, and every call on sets that are there
    has a result. -/
theorem run_refines_maps (hl : Lawful hash eq) (h : (setSystem hash eq).Run (setGuard eq) s) :
    (∀ p, Option.Rel Refines (s.sets p) (s.maps p)) ∧
      ∀ op, setGuard eq s op → (op.spec eq s.maps).isSome →
        ∃ s', (setSystem hash eq).step s op s' := by
  refine ⟨?_, ?_⟩
  · intro p
    exact rel_mono (fun hrep => hrep.refines hl) (run_represents hl h p)
  · intro op hg hspec
    obtain ⟨maps', hmaps⟩ := Option.isSome_iff_exists.1 hspec
    obtain ⟨sets', hrun, -⟩ := step_represents hl (run_represents hl h) hg hmaps
    exact ⟨⟨sets', maps'⟩, hrun, hmaps⟩

/-! ## Sets of numbers -/

/-- A table of three buckets for numbers. -/
def numbers (table : List (Option ℕ)) (itemCount : ℕ) : BRSet ℕ :=
  { table, size := 3, itemCount, hash := fun n => n, eq := fun n k => n == k }

/-- The state after a call that leaves a set and a map at the address 0. -/
def withSet (s : SetsState ℕ) (set : BRSet ℕ) (m : ℕ → Option ℕ) : SetsState ℕ :=
  ⟨Function.update s.sets 0 (some set), Function.update s.maps 0 (some m)⟩

abbrev numberSystem : System (SetsState ℕ) (SetOp ℕ) :=
  setSystem (fun n => n) fun n k => n == k

theorem lawful_nat : Lawful (fun n : ℕ => n) (fun n k => n == k) := by
  refine ⟨⟨fun n => beq_self_eq_true n, ?_, ?_⟩, ?_⟩
  · intro n k h
    exact beq_iff_eq.2 (beq_iff_eq.1 h).symm
  · intro n k l h h'
    exact beq_iff_eq.2 ((beq_iff_eq.1 h).trans (beq_iff_eq.1 h'))
  · intro n k h
    exact beq_iff_eq.1 h

theorem count_insert_le (n k : ℕ) :
    ClassMap.count (ClassMap.insert (Equal fun n k => n == k) (fun _ => none) n) = 1 ∧
      ClassMap.count (ClassMap.insert (Equal fun n k => n == k)
        (ClassMap.insert (Equal fun n k => n == k) (fun _ => none) n) k) ≤ 2 := by
  have hempty : ClassMap.items (fun _ : ℕ => (none : Option ℕ)) = ∅ := by simp [ClassMap.items]
  have hfin : (ClassMap.items fun _ : ℕ => (none : Option ℕ)).Finite := hempty ▸ Set.finite_empty
  have hone : ClassMap.count (ClassMap.insert (Equal fun n k => n == k) (fun _ => none) n) = 1 := by
    rw [ClassMap.count_insert lawful_nat.equivalence .empty hfin, ClassMap.count, hempty,
      Set.ncard_empty]
    rfl
  refine ⟨hone, ?_⟩
  rw [ClassMap.count_insert lawful_nat.equivalence
    (ClassMap.insert_consistent lawful_nat.equivalence .empty n)
    (ClassMap.insert_finite lawful_nat.equivalence hfin), hone]
  split_ifs <;> omega

/-- The numbers 2 and 5 begin their probes in the last bucket, and 5 is put in the first one; then
    the set with both is taken away from itself. -/
theorem run_refines_maps_minus : ∃ s₃ s₄ : SetsState ℕ,
    numberSystem.Run (setGuard fun n k => n == k) s₄ ∧
    s₃.sets 0 = some (numbers [some 5, none, some 2] 2) ∧
    numberSystem.step s₃ (.minus 0 0) s₄ ∧ s₄.sets 0 = some (numbers [none, none, none] 0) ∧
    ∀ p, Option.Rel Refines (s₄.sets p) (s₄.maps p) := by
  let m : ℕ → Option ℕ := ClassMap.insert (Equal fun n k => n == k)
    (ClassMap.insert (Equal fun n k => n == k) (fun _ => none) 2) 5
  let s₁ := withSet ⟨fun _ => none, fun _ => none⟩ (numbers [none, none, none] 0)
    fun _ => none
  let s₂ := withSet s₁ (numbers [none, none, some 2] 1)
    (ClassMap.insert (Equal fun n k => n == k) (fun _ => none) 2)
  let s₃ := withSet s₂ (numbers [some 5, none, some 2] 2) m
  let s₄ := withSet s₃ (numbers [none, none, none] 0) (ClassMap.minus m m)
  have hnew : numberSystem.step ⟨fun _ => none, fun _ => none⟩ (.new 0 0) s₁ := ⟨rfl, rfl⟩
  have hminus : numberSystem.step s₃ (.minus 0 0) s₄ := ⟨rfl, rfl⟩
  have h₁ : numberSystem.Run (setGuard fun n k => n == k) s₁ :=
    .step (.init rfl) (Nat.zero_le _) hnew
  have hadd₂ : setGuard (fun n k => n == k) s₁ (.add 0 2) := by
    intro m hm
    obtain rfl : (fun _ => none) = m := Option.some.inj hm
    rw [(count_insert_le 2 5).1]
    decide
  have hadd₅ : setGuard (fun n k => n == k) s₂ (.add 0 5) := by
    intro m hm
    obtain rfl : ClassMap.insert (Equal fun n k => n == k) (fun _ => none) 2 = m :=
      Option.some.inj hm
    exact (count_insert_le 2 5).2.trans (by decide)
  have hsettled : setGuard (fun n k => n == k) s₃ (.minus 0 0) := by
    intro _ set hset
    obtain rfl : numbers [some 5, none, some 2] 2 = set := Option.some.inj hset
    intro i t hi ht
    match i, ht with
    | 2, ht =>
      obtain rfl : 2 = t := Option.some.inj ht
      rfl
  have h₄ : numberSystem.Run (setGuard fun n k => n == k) s₄ :=
    .step (.step (.step h₁ hadd₂ ⟨rfl, rfl⟩) hadd₅ ⟨rfl, rfl⟩) hsettled hminus
  exact ⟨s₃, s₄, h₄, rfl, hminus, rfl, (run_refines_maps lawful_nat h₄).1⟩

/-- The numbers 0 and 3 begin their probes in one bucket; when the set with both is taken away from
    itself, the removal of 0 puts 3 in the bucket that was just looked at. -/
theorem not_run_refines_maps : Lawful (fun n : ℕ => n) (fun n k => n == k) ∧
    ∃ s : SetsState ℕ, numberSystem.Run (fun _ _ => True) s ∧
      ¬ ∀ p, Option.Rel Refines (s.sets p) (s.maps p) := by
  let m : ℕ → Option ℕ := ClassMap.insert (Equal fun n k => n == k)
    (ClassMap.insert (Equal fun n k => n == k) (fun _ => none) 0) 3
  let s₁ := withSet ⟨fun _ => none, fun _ => none⟩ (numbers [none, none, none] 0)
    fun _ => none
  let s₂ := withSet s₁ (numbers [some 0, none, none] 1)
    (ClassMap.insert (Equal fun n k => n == k) (fun _ => none) 0)
  let s₃ := withSet s₂ (numbers [some 0, some 3, none] 2) m
  let s₄ := withSet s₃ (numbers [some 3, none, none] 1) (ClassMap.minus m m)
  have hnew : numberSystem.step ⟨fun _ => none, fun _ => none⟩ (.new 0 0) s₁ := ⟨rfl, rfl⟩
  have hadd₀ : numberSystem.step s₁ (.add 0 0) s₂ := ⟨rfl, rfl⟩
  have hadd₃ : numberSystem.step s₂ (.add 0 3) s₃ := ⟨rfl, rfl⟩
  have hminus : numberSystem.step s₃ (.minus 0 0) s₄ := ⟨rfl, rfl⟩
  have h₄ : numberSystem.Run (fun _ _ => True) s₄ := by
    refine .step (.step (.step (.step (.init rfl) ?_ hnew) ?_ hadd₀) ?_ hadd₃) ?_ hminus
    all_goals trivial
  refine ⟨lawful_nat, s₄, h₄, ?_⟩
  intro h
  obtain ⟨set, hset, hrefines⟩ := rel_some h (p := 0) (m := ClassMap.minus m m) rfl
  obtain rfl : numbers [some 3, none, none] 1 = set := Option.some.inj hset
  have hget := hrefines.get 3
  rw [ClassMap.minus_self] at hget
  cases hget

end BRSet

end RavenWallet
