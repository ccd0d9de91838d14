/-
  Binary patches (BRBSPatch.swift).

  The patch loop reads three control values in each round: how many bytes of the diff
  and of the extra string go into the new file, and by how much to move in the old one.
  A stream of the patch is what is left of its bytes; a read that gets fewer than it
  asks for, or asks for fewer than none, is an error.

  * `PatchState.round_spec`: a round traps exactly if its control values do not `Fit`, and
    accesses no byte outside of the two files;
  * `PatchInput.patch_iff`: the same for all rounds of a patch.
-/
import Mathlib.Logic.Relation
import RavenWallet.Lib.Buffer
import RavenWallet.Core.Types

namespace RavenWallet

/-- How the loop fails: Swift traps, it throws, or an access is out of bounds. -/
inductive PatchError where
  | trap
  | corruptPatch
  | outOfBounds
  deriving DecidableEq, Repr

/-- Addition of `off_t`. -/
def addOff (a b : ℤ) : Except PatchError ℤ :=
  if -2 ^ 63 ≤ a + b ∧ a + b < 2 ^ 63 then .ok (a + b) else .error .trap

/-- `Int32(a)`. -/
def toInt32 (a : ℤ) : Except PatchError ℤ :=
  if -2 ^ 31 ≤ a ∧ a < 2 ^ 31 then .ok a else .error .trap

/-- The number in eight bytes, with its sign in the last bit. -/
def offtin (b : Bytes) : ℤ :=
  let y : ℤ := ofLE (b.take 7 ++ [b.getD 7 0 &&& 0x7f])
  if b.getD 7 0 &&& 0x80 ≠ 0 then -y else y

/-- The three control values of a round, and the rest of their stream. -/
def readControl (src : Bytes) : Except PatchError (ℤ × ℤ × ℤ × Bytes) :=
  if src.length < 24 then .error .corruptPatch
  else .ok (offtin (src.take 8), offtin ((src.drop 8).take 8), offtin ((src.drop 16).take 8),
    src.drop 24)

/-- `BZ2_bzRead` of `len` bytes into `new` from `pos` on, and the test of its result. -/
def bzRead (src new : Bytes) (pos len : ℤ) : Except PatchError (Bytes × Bytes) :=
  if len < 0 then .error .corruptPatch
  else
    let read := src.take len.toNat
    match if 0 ≤ pos then poke new pos.toNat read else none with
    | none => .error .outOfBounds
    | some new => if read.length < len then .error .corruptPatch
      else .ok (new, src.drop len.toNat)

/-- Reads a string of `size` bytes of the new file, after the sanity check. -/
def readString (src new : Bytes) (newPos size : ℤ) : Except PatchError (Bytes × Bytes) := do
  let stop ← addOff newPos size
  if stop > new.length then .error .corruptPatch
  else
    let len ← toInt32 size
    bzRead src new newPos len

/-- Adds the byte of the old file to the `i`-th byte of the diff string. -/
def addOldAt (old : Bytes) (newPos oldPos : ℤ) (new : Bytes) (i : ℕ) :
    Except PatchError Bytes := do
  let op ← addOff oldPos i
  if op ≥ 0 ∧ op < old.length then
    let np ← addOff newPos i
    match (if 0 ≤ np then new[np.toNat]? else none), old[op.toNat]? with
    | some b, some o => .ok (new.set np.toNat (b + o))
    | _, _ => .error .outOfBounds
  else .ok new

/-- The variables of the loop; `crtl`, `diff` and `extra` are what is left of the streams. -/
structure PatchState where
  new : Bytes
  newPos : ℤ := 0
  oldPos : ℤ := 0
  crtl : Bytes
  diff : Bytes
  extra : Bytes
  deriving DecidableEq, Repr

namespace PatchState

/-- One round of the loop. -/
def round (old : Bytes) (s : PatchState) : Except PatchError PatchState := do
  let (c₀, c₁, c₂, crtl) ← readControl s.crtl
  let (new, diff) ← readString s.diff s.new s.newPos c₀
  let new ← (List.range c₀.toNat).foldlM (addOldAt old s.newPos s.oldPos) new
  let newPos ← addOff s.newPos c₀
  let oldPos ← addOff s.oldPos c₀
  let (new, extra) ← readString s.extra new newPos c₁
  let newPos ← addOff newPos c₁
  let oldPos ← addOff oldPos c₂
  .ok { new, newPos, oldPos, crtl, diff, extra }

/-! ## Reads -/

/-- The sanity check and the conversion of a size do not trap. -/
def SizeFits (newPos newSize size : ℤ) : Prop :=
  newPos + size < 2 ^ 63 ∧ (newPos + size ≤ newSize → -2 ^ 31 ≤ size ∧ size < 2 ^ 31)

/-- There are so many bytes, and so much room for them. -/
def SizeRead (src : Bytes) (newPos newSize size : ℤ) : Prop :=
  newPos + size ≤ newSize ∧ 0 ≤ size ∧ size ≤ src.length

section
variable {src new old : Bytes} {newPos oldPos size : ℤ}

variable (src) in
theorem bzRead_spec (h0 : 0 ≤ newPos) (hstop : newPos + size ≤ new.length) :
    (bzRead src new newPos size = .error .corruptPatch ∧ ¬ (0 ≤ size ∧ size ≤ src.length)) ∨
    (0 ≤ size ∧ size ≤ src.length) ∧ ∃ new', new'.length = new.length ∧
      bzRead src new newPos size = .ok (new', src.drop size.toNat) := by
  rw [bzRead]
  by_cases hneg : size < 0
  · rw [if_pos hneg]
    exact Or.inl ⟨rfl, by omega⟩
  · rw [if_neg hneg]
    dsimp only
    rw [if_pos h0]
    have hroom : newPos.toNat + (src.take size.toNat).length ≤ new.length := by
      rw [List.length_take]
      omega
    obtain ⟨new', hnew, hlen⟩ := poke_of_le hroom
    rw [hnew]
    dsimp only
    rw [List.length_take]
    by_cases hshort : ((min size.toNat src.length : ℕ) : ℤ) < size
    · rw [if_pos hshort]
      exact Or.inl ⟨rfl, by omega⟩
    · rw [if_neg hshort]
      exact Or.inr ⟨by omega, new', hlen, rfl⟩

variable (src new newPos) in
theorem readString_spec (h0 : 0 ≤ newPos) (hsize : -2 ^ 63 ≤ size) :
    (readString src new newPos size = .error .trap ∧ ¬ SizeFits newPos new.length size) ∨
    SizeFits newPos new.length size ∧
      ((readString src new newPos size = .error .corruptPatch ∧
        ¬ SizeRead src newPos new.length size) ∨
      SizeRead src newPos new.length size ∧ ∃ new', new'.length = new.length ∧
        readString src new newPos size = .ok (new', src.drop size.toNat)) := by
  rw [readString, addOff]
  by_cases hadd : newPos + size < 2 ^ 63
  · rw [if_pos ⟨by omega, hadd⟩]
    simp only [bind, Except.bind]
    by_cases hstop : newPos + size > new.length
    · rw [if_pos hstop]
      refine Or.inr ⟨⟨hadd, fun hle => absurd hstop (by omega)⟩, Or.inl ⟨rfl, fun h => ?_⟩⟩
      exact absurd h.1 (by omega)
    · rw [if_neg hstop, toInt32]
      by_cases hfit : -2 ^ 31 ≤ size ∧ size < 2 ^ 31
      · rw [if_pos hfit]
        refine Or.inr ⟨⟨hadd, fun _ => hfit⟩, ?_⟩
        rcases bzRead_spec src h0 (not_lt.1 hstop) with ⟨heq, hno⟩ | ⟨hok, new', hlen, heq⟩
        · exact Or.inl ⟨heq, fun h => hno h.2⟩
        · exact Or.inr ⟨⟨not_lt.1 hstop, hok⟩, new', hlen, heq⟩
      · rw [if_neg hfit]
        exact Or.inl ⟨rfl, fun h => hfit (h.2 (not_lt.1 hstop))⟩
  · rw [if_neg (by omega)]
    exact Or.inl ⟨rfl, fun h => hadd h.1⟩

variable (old new) in
/-- The `i`-th byte is in both files, or only one addition traps. -/
theorem addOldAt_spec (i : ℕ) (hold : -2 ^ 63 ≤ oldPos) (hlen : new.length < 2 ^ 63)
    (h0 : 0 ≤ newPos) (hstop : newPos + i < new.length) :
    (addOldAt old newPos oldPos new i = .error .trap ∧ 2 ^ 63 ≤ oldPos + i) ∨
    ∃ new', new'.length = new.length ∧ addOldAt old newPos oldPos new i = .ok new' := by
  simp only [addOldAt, addOff, bind, Except.bind]
  by_cases hop : oldPos + i < 2 ^ 63
  · rw [if_pos ⟨by omega, hop⟩]
    dsimp only
    by_cases hin : oldPos + i ≥ 0 ∧ oldPos + i < old.length
    · have hnp : (newPos + i).toNat < new.length := by omega
      have hop' : (oldPos + i).toNat < old.length := by omega
      rw [if_pos hin, if_pos ⟨by omega, by omega⟩]
      dsimp only
      rw [if_pos (by omega), List.getElem?_eq_getElem hnp, List.getElem?_eq_getElem hop']
      exact Or.inr ⟨_, List.length_set, rfl⟩
    · rw [if_neg hin]
      exact Or.inr ⟨new, rfl, rfl⟩
  · rw [if_neg (by omega)]
    exact Or.inl ⟨rfl, not_lt.1 hop⟩

variable (old new) in
/-- The loop over a diff string of `n` bytes. -/
theorem addOld_spec (n : ℕ) (hold : -2 ^ 63 ≤ oldPos) (hlen : new.length < 2 ^ 63)
    (h0 : 0 ≤ newPos) (hstop : newPos + n ≤ new.length) :
    ((List.range n).foldlM (addOldAt old newPos oldPos) new = .error .trap ∧
      2 ^ 63 < oldPos + n) ∨
    ∃ new', new'.length = new.length ∧
      (List.range n).foldlM (addOldAt old newPos oldPos) new = .ok new' := by
  induction n with
  | zero => exact Or.inr ⟨new, rfl, rfl⟩
  | succ n ih =>
    push_cast at hstop ⊢
    rw [List.range_succ, List.foldlM_append]
    simp only [bind, Except.bind]
    rcases ih (by omega) with ⟨heq, htrap⟩ | ⟨mid, hmid, heq⟩
    · rw [heq]
      exact Or.inl ⟨rfl, by omega⟩
    · rw [heq]
      dsimp only
      rw [List.foldlM_cons]
      simp only [bind, Except.bind]
      rcases addOldAt_spec mid old n hold (by omega) h0 (by omega) with
        ⟨heq', htrap⟩ | ⟨last, hlast, heq'⟩
      · rw [heq']
        exact Or.inl ⟨rfl, by omega⟩
      · rw [heq']
        exact Or.inr ⟨last, hlast.trans hmid, rfl⟩

theorem offtin_ge (b : Bytes) : -2 ^ 63 ≤ offtin b := by
  have hlast : (b.getD 7 0 &&& 0x7f).toNat ≤ 127 := by
    rw [UInt8.toNat_and]
    exact Nat.and_le_right
  have hlt : ofLE (b.take 7 ++ [b.getD 7 0 &&& 0x7f]) < 2 ^ 63 := by
    have htake := ofLE_lt (b.take 7)
    have hlen : (b.take 7).length ≤ 7 := List.length_take_le 7 b
    have hpow : 256 ^ (b.take 7).length ≤ 256 ^ 7 := Nat.pow_le_pow_right (by decide) hlen
    have hmul := Nat.mul_le_mul hpow hlast
    rw [ofLE_append, ofLE, ofLE, Nat.mul_zero, Nat.add_zero]
    omega
  rw [offtin]
  split_ifs <;> omega

end

/-! ## Rounds -/

/-- The positions are inside of the new file, and `off_t`. -/
structure Valid (s : PatchState) : Prop where
  newPos_nonneg : 0 ≤ s.newPos
  newPos_le : s.newPos ≤ s.new.length
  oldPos_ge : -2 ^ 63 ≤ s.oldPos
  oldPos_lt : s.oldPos < 2 ^ 63
  length : s.new.length < 2 ^ 63

/-- With control values `c₀`, `c₁` and `c₂` the sizes fit where they are checked, and the positions
    where they are moved. -/
def ValuesFit (s : PatchState) (c₀ c₁ c₂ : ℤ) : Prop :=
  SizeFits s.newPos s.new.length c₀ ∧ (SizeRead s.diff s.newPos s.new.length c₀ →
    s.oldPos + c₀ < 2 ^ 63 ∧ SizeFits (s.newPos + c₀) s.new.length c₁ ∧
      (SizeRead s.extra (s.newPos + c₀) s.new.length c₁ →
        -2 ^ 63 ≤ s.oldPos + c₀ + c₂ ∧ s.oldPos + c₀ + c₂ < 2 ^ 63))

/-- The next control values fit, if there are any. -/
def Fit (s : PatchState) : Prop :=
  ∀ c₀ c₁ c₂ crtl, readControl s.crtl = .ok (c₀, c₁, c₂, crtl) → s.ValuesFit c₀ c₁ c₂

variable {s : PatchState}

/-- All that a round can do. -/
theorem round_spec (old : Bytes) (hs : s.Valid) :
    (s.round old = .error .trap ∧ ¬ s.Fit) ∨ (s.round old = .error .corruptPatch ∧ s.Fit) ∨
    s.Fit ∧ ∃ s', s.round old = .ok s' ∧ s'.Valid ∧ s'.new.length = s.new.length ∧
      s'.crtl.length < s.crtl.length := by
  obtain ⟨hpos0, hpos, hold, hold', hlen⟩ := hs
  rw [round]
  cases hctrl : readControl s.crtl with
  | error e =>
    have he : e = .corruptPatch := by
      rw [readControl] at hctrl
      split_ifs at hctrl
      exact (Except.error.inj hctrl).symm
    rw [he]
    refine Or.inr (Or.inl ⟨rfl, fun c₀ c₁ c₂ crtl h => ?_⟩)
    rw [hctrl] at h
    cases h
  | ok r =>
    obtain ⟨c₀, c₁, c₂, crtl⟩ := r
    have hfit : s.Fit ↔ s.ValuesFit c₀ c₁ c₂ := by
      refine ⟨fun h => h _ _ _ _ hctrl, fun h d₀ d₁ d₂ crtl' h' => ?_⟩
      rw [hctrl] at h'
      cases h'
      exact h
    obtain ⟨hc₀, hc₁, hshort⟩ : -2 ^ 63 ≤ c₀ ∧ -2 ^ 63 ≤ c₁ ∧ crtl.length < s.crtl.length := by
      rw [readControl] at hctrl
      split_ifs at hctrl with h24
      cases hctrl
      refine ⟨offtin_ge _, offtin_ge _, ?_⟩
      rw [List.length_drop]
      omega
    rw [hfit]
    simp only [bind, Except.bind]
    rcases readString_spec s.diff s.new s.newPos hpos0 hc₀ with ⟨heq, hno⟩ |
      ⟨hsize, ⟨heq, hno⟩ | ⟨hread, new₀, hnew₀, heq⟩⟩
    · rw [heq]
      exact Or.inl ⟨rfl, fun h => hno h.1⟩
    · rw [heq]
      exact Or.inr (Or.inl ⟨rfl, hsize, fun h => absurd h hno⟩)
    have hstop₀ := hread.1
    have hc₀' := hread.2.1
    rw [heq]
    dsimp only
    rcases addOld_spec new₀ old c₀.toNat hold (by omega) hpos0
      (by omega) with ⟨hloop, htrap⟩ | ⟨new₁, hnew₁, hloop⟩
    · rw [hloop]
      exact Or.inl ⟨rfl, fun h => absurd (h.2 hread).1 (by omega)⟩
    rw [hloop, addOff, if_pos ⟨by omega, by omega⟩]
    dsimp only
    by_cases hmove : s.oldPos + c₀ < 2 ^ 63
    swap
    · rw [addOff, if_neg (by omega)]
      exact Or.inl ⟨rfl, fun h => hmove (h.2 hread).1⟩
    rw [addOff, if_pos ⟨by omega, hmove⟩]
    dsimp only
    rcases readString_spec s.extra new₁ (s.newPos + c₀) (by omega) hc₁
      with ⟨heq', hno⟩ | ⟨hsize', ⟨heq', hno⟩ | ⟨hread', new₂, hnew₂, heq'⟩⟩
    all_goals rw [hnew₁, hnew₀] at *
    · rw [heq']
      exact Or.inl ⟨rfl, fun h => hno (h.2 hread).2.1⟩
    · rw [heq']
      exact Or.inr (Or.inl ⟨rfl, hsize, fun _ => ⟨hmove, hsize', fun h => absurd h hno⟩⟩)
    have hstop₁ := hread'.1
    have hc₁' := hread'.2.1
    rw [heq', addOff, if_pos ⟨by omega, by omega⟩]
    dsimp only
    by_cases hmove' : -2 ^ 63 ≤ s.oldPos + c₀ + c₂ ∧ s.oldPos + c₀ + c₂ < 2 ^ 63
    · rw [addOff, if_pos hmove']
      refine Or.inr (Or.inr ⟨⟨hsize, fun _ => ⟨hmove, hsize', fun _ => hmove'⟩⟩, _, rfl,
        ?_, ?_, ?_⟩)
      · exact ⟨by dsimp only; omega, by dsimp only; omega, hmove'.1, hmove'.2, by dsimp only; omega⟩
      · exact hnew₂
      · exact hshort
    · rw [addOff, if_neg hmove']
      exact Or.inl ⟨rfl, fun h => hmove' ((h.2 hread).2.2 hread')⟩

/-! ## The loop -/

theorem bind_eq_ok {α β : Type} {x : Except PatchError α} {f : α → Except PatchError β} {b : β} :
    x >>= f = .ok b ↔ ∃ a, x = .ok a ∧ f a = .ok b := by
  cases x with
  | error e => simp [bind, Except.bind]
  | ok a => simp [bind, Except.bind]

/-- Every round reads control values. -/
theorem round_crtl {old : Bytes} {s' : PatchState} (h : s.round old = .ok s') :
    s'.crtl.length < s.crtl.length := by
  simp only [round, bind_eq_ok] at h
  obtain ⟨⟨c₀, c₁, c₂, crtl⟩, hctrl, ⟨_, _⟩, -, _, -, _, -, _, -, ⟨_, _⟩, -, _, -, _, -, h⟩ := h
  obtain rfl := Except.ok.inj h
  rw [readControl] at hctrl
  split_ifs at hctrl with h24
  cases hctrl
  rw [List.length_drop]
  omega

/-- The loop, from a state on. -/
def patchLoop (old : Bytes) (s : PatchState) : Except PatchError PatchState :=
  if s.newPos < s.new.length then
    match _h : s.round old with
    | .ok s' => patchLoop old s'
    | .error e => .error e
  else .ok s
termination_by s.crtl.length
decreasing_by exact round_crtl _h

/-- A round of the loop leads from one state to the other. -/
def Next (old : Bytes) (s s' : PatchState) : Prop :=
  s.newPos < s.new.length ∧ s.round old = .ok s'

/-- The loop traps if there is a round whose values do not fit; otherwise it throws or fills the
    new file. -/
theorem patchLoop_spec (old : Bytes) (hs : s.Valid) :
    (s.patchLoop old = .error .trap ∧ ∃ s', Relation.ReflTransGen (Next old) s s' ∧
      s'.newPos < s'.new.length ∧ ¬ s'.Fit) ∨
    (s.patchLoop old = .error .corruptPatch ∨
      ∃ s', s.patchLoop old = .ok s' ∧ s'.newPos = s.new.length) ∧
      ∀ s', Relation.ReflTransGen (Next old) s s' → s'.newPos < s'.new.length → s'.Fit := by
  induction s using patchLoop.induct old with
  | case1 s hlt s' hround ih =>
    rcases round_spec old hs with ⟨heq, -⟩ | ⟨heq, -⟩ | ⟨hfit, t, heq, hvalid, hlen, -⟩
    · rw [hround] at heq
      cases heq
    · rw [hround] at heq
      cases heq
    · rw [hround] at heq
      obtain rfl := Except.ok.inj heq
      have hloop : s.patchLoop old = s'.patchLoop old := by
        rw [patchLoop, if_pos hlt]
        split
        · next t ht => rw [hround] at ht; rw [Except.ok.inj ht]
        · next e he => rw [hround] at he; cases he
      rw [hloop, ← hlen]
      rcases ih hvalid with ⟨htrap, t, hreach, ht⟩ | ⟨hend, hall⟩
      · exact Or.inl ⟨htrap, t, .head ⟨hlt, hround⟩ hreach, ht⟩
      · refine Or.inr ⟨hend, fun t ht htlt => ?_⟩
        rcases ht.cases_head with rfl | ⟨u, ⟨-, hu⟩, hreach⟩
        · exact hfit
        · rw [hround] at hu
          obtain rfl := Except.ok.inj hu
          exact hall t hreach htlt
  | case2 s hlt e hround =>
    have hloop : s.patchLoop old = .error e := by
      rw [patchLoop, if_pos hlt]
      split
      · next t ht => rw [hround] at ht; cases ht
      · next e' he => rw [hround] at he; rw [Except.error.inj he]
    have hnext : ∀ t, Relation.ReflTransGen (Next old) s t → t = s := by
      intro t ht
      rcases ht.cases_head with rfl | ⟨u, ⟨-, hu⟩, -⟩
      · rfl
      · rw [hround] at hu
        cases hu
    rw [hloop]
    rcases round_spec old hs with ⟨heq, hno⟩ | ⟨heq, hfit⟩ | ⟨-, t, heq, -⟩
    · rw [hround] at heq
      exact Or.inl ⟨heq, s, .refl, hlt, hno⟩
    · rw [hround] at heq
      refine Or.inr ⟨Or.inl heq, fun t ht _ => ?_⟩
      rw [hnext t ht]
      exact hfit
    · rw [hround] at heq
      cases heq
  | case3 s hge =>
    refine Or.inr ⟨Or.inr ⟨s, by rw [patchLoop, if_neg hge], ?_⟩, fun t ht htlt => ?_⟩
    · exact le_antisymm hs.newPos_le (not_lt.1 hge)
    · rcases ht.cases_head with rfl | ⟨u, ⟨hlt, -⟩, -⟩
      · exact absurd htlt hge
      · exact absurd hlt hge

end PatchState

/-- What the loop starts from: the old file, the buffer of the new one, and the streams. -/
structure PatchInput where
  old : Bytes
  new : Bytes
  crtl : Bytes
  diff : Bytes
  extra : Bytes
  newSize_lt : new.length < 2 ^ 63

namespace PatchInput

variable (p : PatchInput)

def start : PatchState := { new := p.new, crtl := p.crtl, diff := p.diff, extra := p.extra }

def patch : Except PatchError PatchState := p.start.patchLoop p.old

/-- The loop stays inside of the files.  It throws or fills the new file, without a trap, if and
    only if the control values of every round that is reached fit. -/
theorem patch_iff : p.patch ≠ .error .outOfBounds ∧
    ((p.patch = .error .corruptPatch ∨ ∃ s, p.patch = .ok s ∧ s.newPos = p.new.length) ↔
      ∀ s, Relation.ReflTransGen (PatchState.Next p.old) p.start s → s.newPos < s.new.length →
        s.Fit) := by
  have hold : p.start.oldPos = 0 := rfl
  have hvalid : p.start.Valid :=
    ⟨le_rfl, Int.natCast_nonneg _, by omega, by omega, p.newSize_lt⟩
  rw [patch]
  rcases PatchState.patchLoop_spec p.old hvalid with ⟨htrap, s, hreach, hlt, hno⟩ | ⟨hend, hall⟩
  · rw [htrap]
    refine ⟨nofun, ⟨?_, fun h => absurd (h s hreach hlt) hno⟩⟩
    rintro (h | ⟨s, h, -⟩) <;> cases h
  · refine ⟨?_, ⟨fun _ => hall, fun _ => hend⟩⟩
    rcases hend with h | ⟨s, h, -⟩ <;> simp [h]

end PatchInput

/-- A patch with the control values `-2 ^ 31 - 1`, 0 and 0 for a file of one byte. -/
def samplePatch : PatchInput where
  old := []
  new := [0]
  crtl := [1, 0, 0, 0x80, 0, 0, 0, 0x80] ++ List.replicate 16 0
  diff := []
  extra := []
  newSize_lt := by decide

/-- The conversion of a negative size traps. -/
theorem not_patch_throws : ¬ ∀ p : PatchInput,
    p.patch = .error .corruptPatch ∨ ∃ s, p.patch = .ok s ∧ s.newPos = p.new.length := by
  intro h
  have hround : samplePatch.start.round samplePatch.old = .error .trap := by decide +kernel
  have htrap : samplePatch.patch = .error .trap := by
    rw [PatchInput.patch, PatchState.patchLoop, if_pos (by decide)]
    split
    · next s hs => rw [hround] at hs; cases hs
    · next e he => rw [hround] at he; rw [Except.error.inj he]
  rcases h samplePatch with h | ⟨s, h, -⟩
  · rw [htrap] at h
    cases h
  · rw [htrap] at h
    cases h

end RavenWallet
