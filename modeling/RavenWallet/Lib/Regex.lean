/-
  Regular expressions over UTF-16 units, in the part of ICU's syntax that has no groups:
  branches separated by `|`, each a list of anchors and of sets of characters with a least
  number of repetitions.

  A set is followed as a set of units, which for sets of ASCII characters and for their
  complements is the same as a set of characters.

  * `compile`: the syntax, with nested sets and with `none` for a set that is not closed;
  * `found`: there is a match in a region;
  * `found_anchored`: a match of `^…$` spells the region, or the region without a final
    line break.
-/
import Mathlib.Data.List.Basic
import Mathlib.Tactic.Tauto

namespace RavenWallet

namespace Regex

/-! ## Sets of characters -/

inductive CharSet where
  | empty
  | range (lo hi : ℕ)
  | union (s t : CharSet)
  | compl (s : CharSet)
  deriving DecidableEq, Repr

namespace CharSet

def mem : CharSet → ℕ → Bool
  | empty, _ => false
  | range lo hi, u => lo ≤ u && u ≤ hi
  | union s t, u => s.mem u || t.mem u
  | compl s, u => !s.mem u

def char (c : Char) : CharSet := range c.toNat c.toNat

/-- Line feed up to carriage return, NEL and the two separators of Unicode. -/
def lineTerminator : CharSet :=
  union (range 0x0a 0x0d) (union (range 0x85 0x85) (range 0x2028 0x2029))

/-- `.` -/
def dot : CharSet := compl lineTerminator

@[simp] theorem mem_empty (u : ℕ) : empty.mem u = false := rfl

@[simp] theorem mem_range (lo hi u : ℕ) : (range lo hi).mem u ↔ lo ≤ u ∧ u ≤ hi := by
  simp [mem]

@[simp] theorem mem_union (s t : CharSet) (u : ℕ) : (union s t).mem u ↔ s.mem u ∨ t.mem u := by
  simp [mem]

@[simp] theorem mem_compl (s : CharSet) (u : ℕ) : (compl s).mem u ↔ ¬ s.mem u := by
  simp [mem]

@[simp] theorem mem_char (c : Char) (u : ℕ) : (char c).mem u ↔ u = c.toNat := by
  rw [char, mem_range]
  omega

end CharSet

/-! ## Syntax -/

inductive Atom where
  | bol
  | eol
  /-- A set, at least so many times. -/
  | rep (s : CharSet) (min : ℕ)
  /-- A set, once. -/
  | one (s : CharSet)
  deriving DecidableEq, Repr

/-- The rest of a set, up to the bracket that closes it, behind the brackets of the sets around
    it: whether each is negated, and its items so far. -/
def parseSet : List (Bool × CharSet) → List Char → Option (CharSet × List Char)
  | [], _ => none
  -- U_REGEX_MISSING_CLOSE_BRACKET
  | _, [] => none
  | (neg, s) :: sets, c :: rest =>
    if c = ']' then
      let closed := if neg then s.compl else s
      match sets with
      | [] => some (closed, rest)
      | (neg', t) :: sets => parseSet ((neg', t.union closed) :: sets) rest
    else if c = '[' then
      match rest with
      | '^' :: rest => parseSet ((true, .empty) :: (neg, s) :: sets) rest
      | rest => parseSet ((false, .empty) :: (neg, s) :: sets) rest
    else if c = '\\' then
      match rest with
      | d :: rest => parseSet ((neg, s.union (.char d)) :: sets) rest
      | [] => none
    else
      match rest with
      | '-' :: d :: rest =>
        if d = ']' then parseSet ((neg, s.union (.char c)) :: sets) ('-' :: d :: rest)
        else parseSet ((neg, s.union (.range c.toNat d.toNat)) :: sets) rest
      | rest => parseSet ((neg, s.union (.char c)) :: sets) rest

/-- What can be repeated: a set, a point, or a character that stands for itself. -/
def parseOne : List Char → Option (CharSet × List Char)
  | '[' :: '^' :: rest => parseSet [(true, .empty)] rest
  | '[' :: rest => parseSet [(false, .empty)] rest
  | '.' :: rest => some (.dot, rest)
  | '\\' :: c :: rest => some (.char c, rest)
  | c :: rest => some (.char c, rest)
  | [] => none

def number (digits : List Char) : ℕ := digits.foldl (fun n d => 10 * n + (d.toNat - '0'.toNat)) 0

def quantify (s : CharSet) : List Char → Option (Atom × List Char)
  | '+' :: rest => some (.rep s 1, rest)
  | '*' :: rest => some (.rep s 0, rest)
  | '{' :: rest =>
    match rest.dropWhile Char.isDigit with
    | ',' :: '}' :: rest' => some (.rep s (number (rest.takeWhile Char.isDigit)), rest')
    | _ => none
  | rest => some (.one s, rest)

/-- The branch so far, and the branches behind it. -/
def parse : ℕ → List Atom → List Char → Option (List (List Atom))
  | 0, _, _ => none
  | _ + 1, branch, [] => some [branch]
  | fuel + 1, branch, '|' :: rest => (parse fuel [] rest).map fun branches => branch :: branches
  | fuel + 1, branch, '^' :: rest => parse fuel (branch ++ [.bol]) rest
  | fuel + 1, branch, '$' :: rest => parse fuel (branch ++ [.eol]) rest
  | fuel + 1, branch, cs => do
    let (s, rest) ← parseOne cs
    let (atom, rest) ← quantify s rest
    parse fuel (branch ++ [atom]) rest

/-- The branches of a pattern; `none` if it is refused. -/
def compile (pattern : List Char) : Option (List (List Atom)) :=
  parse (pattern.length + 1) [] pattern

/-! ## Matching -/

/-- A place in a region: the units in front of it, the nearest first, and those behind it. -/
abbrev Cursor := List ℕ × List ℕ

/-- Where `$` matches: at the end, and before a line break there, but not within it. -/
def atEnd : Cursor → Bool
  | (_, []) => true
  | (front, [u]) =>
    CharSet.lineTerminator.mem u && !(decide (u = 0x0a) && decide (front.head? = some 0x0d))
  | (_, [u, v]) => decide (u = 0x0d) && decide (v = 0x0a)
  | _ => false

/-- Where at least `min` units of the set lead to. -/
def repeated (s : CharSet) : ℕ → List ℕ → List ℕ → List Cursor
  | 0, front, [] => [(front, [])]
  | 0, front, u :: rest =>
    (front, u :: rest) :: if s.mem u then repeated s 0 (u :: front) rest else []
  | _ + 1, _, [] => []
  | min + 1, front, u :: rest => if s.mem u then repeated s min (u :: front) rest else []

def Atom.ends : Atom → Cursor → List Cursor
  | .bol, q => if q.1 = [] then [q] else []
  | .eol, q => if atEnd q then [q] else []
  | .rep s min, (front, rest) => repeated s min front rest
  | .one _, (_, []) => []
  | .one s, (front, u :: rest) => if s.mem u then [(u :: front, rest)] else []

def ends : List Atom → Cursor → List Cursor
  | [], q => [q]
  | a :: branch, q => (a.ends q).flatMap (ends branch)

/-- The places of a region from a place on. -/
def cursors : List ℕ → List ℕ → List Cursor
  | front, [] => [(front, [])]
  | front, u :: rest => (front, u :: rest) :: cursors (u :: front) rest

/-- There is a match of one of the branches. -/
def found (branches : List (List Atom)) (region : List ℕ) : Bool :=
  branches.any fun branch => (cursors [] region).any fun q => ends branch q ≠ []

/-! ## What matches -/

theorem mem_repeated (s : CharSet) (min : ℕ) (front rest front' rest' : List ℕ) :
    (front', rest') ∈ repeated s min front rest ↔
      ∃ w, rest = w ++ rest' ∧ front' = w.reverse ++ front ∧ min ≤ w.length ∧
        ∀ u ∈ w, s.mem u := by
  induction rest generalizing min front with
  | nil =>
    cases min with
    | zero =>
      simp only [repeated, List.mem_singleton, Prod.mk.injEq, Nat.zero_le, true_and]
      constructor
      · rintro ⟨rfl, rfl⟩
        exact ⟨[], rfl, rfl, by simp⟩
      · rintro ⟨w, hw, hfront, -⟩
        obtain ⟨rfl, rfl⟩ := List.append_eq_nil_iff.1 hw.symm
        exact ⟨hfront, rfl⟩
    | succ min =>
      simp only [repeated, List.not_mem_nil, false_iff]
      rintro ⟨w, hw, -, hlen, -⟩
      obtain ⟨rfl, -⟩ := List.append_eq_nil_iff.1 hw.symm
      simp at hlen
  | cons u rest ih =>
    -- a word that is not empty begins with `u`
    have hstep (min : ℕ) : ((front', rest') ∈ if s.mem u then repeated s min (u :: front) rest
        else []) ↔ ∃ w, u :: rest = u :: w ++ rest' ∧ front' = (u :: w).reverse ++ front ∧
          min ≤ w.length ∧ ∀ v ∈ u :: w, s.mem v := by
      split
      · next hu => simp [ih, hu]
      · next hu => simp [hu]
    cases min with
    | zero =>
      rw [repeated, List.mem_cons, hstep]
      constructor
      · rintro (h | ⟨w, hw, hfront, -, hs⟩)
        · cases h
          exact ⟨[], rfl, rfl, by simp⟩
        · exact ⟨u :: w, hw, hfront, Nat.zero_le _, hs⟩
      · rintro ⟨w, hw, hfront, -, hs⟩
        cases w with
        | nil => exact Or.inl (by rw [hfront, hw]; rfl)
        | cons v w =>
          obtain rfl : u = v := (List.cons.inj hw).1
          exact Or.inr ⟨w, hw, hfront, Nat.zero_le _, hs⟩
    | succ min =>
      rw [repeated, hstep]
      constructor
      · rintro ⟨w, hw, hfront, hlen, hs⟩
        exact ⟨u :: w, hw, hfront, by simpa using hlen, hs⟩
      · rintro ⟨w, hw, hfront, hlen, hs⟩
        cases w with
        | nil => simp at hlen
        | cons v w =>
          obtain rfl : u = v := (List.cons.inj hw).1
          exact ⟨w, hw, hfront, by simpa using hlen, hs⟩

theorem mem_cursors (front rest front' rest' : List ℕ) :
    (front', rest') ∈ cursors front rest ↔
      ∃ w, rest = w ++ rest' ∧ front' = w.reverse ++ front := by
  induction rest generalizing front with
  | nil =>
    simp only [cursors, List.mem_singleton, Prod.mk.injEq]
    constructor
    · rintro ⟨rfl, rfl⟩
      exact ⟨[], rfl, rfl⟩
    · rintro ⟨w, hw, hfront⟩
      obtain ⟨rfl, rfl⟩ := List.append_eq_nil_iff.1 hw.symm
      exact ⟨hfront, rfl⟩
  | cons u rest ih =>
    rw [cursors, List.mem_cons, ih]
    constructor
    · rintro (h | ⟨w, rfl, rfl⟩)
      · cases h
        exact ⟨[], rfl, rfl⟩
      · exact ⟨u :: w, rfl, by simp⟩
    · rintro ⟨w, hw, hfront⟩
      cases w with
      | nil => exact Or.inl (by rw [hfront, hw]; rfl)
      | cons v w =>
        obtain ⟨rfl, hrest⟩ := List.cons.inj hw
        exact Or.inr ⟨w, hrest, by simpa using hfront⟩

theorem mem_ends_append (branch branch' : List Atom) (q q' : Cursor) :
    q' ∈ ends (branch ++ branch') q ↔ ∃ m ∈ ends branch q, q' ∈ ends branch' m := by
  induction branch generalizing q with
  | nil => simp [ends]
  | cons a branch ih =>
    simp only [List.cons_append, ends, List.mem_flatMap, ih]
    constructor
    · rintro ⟨p, hp, m, hm, hq⟩
      exact ⟨m, ⟨p, hp, hm⟩, hq⟩
    · rintro ⟨m, ⟨p, hp, hm⟩, hq⟩
      exact ⟨p, hp, m, hm, hq⟩

/-- The words of a branch without anchors. -/
def Spells : List Atom → List ℕ → Prop
  | [], w => w = []
  | .rep s min :: branch, w =>
    ∃ a b, w = a ++ b ∧ min ≤ a.length ∧ (∀ u ∈ a, s.mem u) ∧ Spells branch b
  | .one s :: branch, w => ∃ u b, w = u :: b ∧ s.mem u ∧ Spells branch b
  | _ :: _, _ => False

/-- The set of an atom that is not an anchor. -/
def Atom.set : Atom → CharSet
  | .rep s _ | .one s => s
  | .bol | .eol => .empty

theorem mem_of_spells {branch : List Atom} {w : List ℕ} (h : Spells branch w) :
    ∀ u ∈ w, ∃ a ∈ branch, a.set.mem u := by
  induction branch generalizing w with
  | nil =>
    rw [show w = [] from h]
    nofun
  | cons a branch ih =>
    intro u hu
    cases a with
    | bol | eol => exact h.elim
    | rep s min =>
      obtain ⟨a, b, rfl, -, ha, hb⟩ := h
      rcases List.mem_append.1 hu with hu | hu
      · exact ⟨_, List.mem_cons_self, ha u hu⟩
      · obtain ⟨atom, hmem, hset⟩ := ih hb u hu
        exact ⟨atom, List.mem_cons_of_mem _ hmem, hset⟩
    | one s =>
      obtain ⟨v, b, rfl, hv, hb⟩ := h
      rcases List.mem_cons.1 hu with rfl | hu
      · exact ⟨_, List.mem_cons_self, hv⟩
      · obtain ⟨atom, hmem, hset⟩ := ih hb u hu
        exact ⟨atom, List.mem_cons_of_mem _ hmem, hset⟩

theorem spells_rep (s : CharSet) (min : ℕ) (w : List ℕ) :
    Spells [.rep s min] w ↔ min ≤ w.length ∧ ∀ u ∈ w, s.mem u := by
  constructor
  · rintro ⟨a, b, rfl, hlen, ha, rfl⟩
    rw [List.append_nil]
    exact ⟨hlen, ha⟩
  · rintro ⟨hlen, hw⟩
    exact ⟨w, [], (List.append_nil w).symm, hlen, hw, rfl⟩

/-- A word that a branch stands for. -/
def literal (w : List ℕ) : List Atom := w.map fun u => .one (.range u u)

theorem spells_literal (v w : List ℕ) : Spells (literal v) w ↔ w = v := by
  induction v generalizing w with
  | nil => rfl
  | cons u v ih =>
    constructor
    · rintro ⟨x, b, rfl, hx, hb⟩
      have hx' : x = u := by
        rw [CharSet.mem_range] at hx
        omega
      rw [hx', (ih b).1 hb]
    · rintro rfl
      exact ⟨u, v, rfl, by simp, (ih v).2 rfl⟩

/-- No anchors. -/
def plain : List Atom → Bool
  | [] => true
  | .rep _ _ :: branch | .one _ :: branch => plain branch
  | _ :: _ => false

theorem plain_literal (w : List ℕ) : plain (literal w) := by
  induction w with
  | nil => rfl
  | cons u w ih => exact ih

/-- **The ends of a branch without anchors** are those of its words. -/
theorem mem_ends {branch : List Atom} (h : plain branch) (front rest front' rest' : List ℕ) :
    (front', rest') ∈ ends branch (front, rest) ↔
      ∃ w, Spells branch w ∧ rest = w ++ rest' ∧ front' = w.reverse ++ front := by
  induction branch generalizing front rest with
  | nil =>
    simp only [ends, List.mem_singleton, Prod.mk.injEq, Spells, exists_eq_left, List.nil_append,
      List.reverse_nil]
    tauto
  | cons a branch ih =>
    rw [ends, List.mem_flatMap]
    cases a with
    | bol | eol => simp [plain] at h
    | rep s min =>
      constructor
      · rintro ⟨⟨front₁, rest₁⟩, h₁, h₂⟩
        obtain ⟨a, rfl, rfl, hlen, ha⟩ := (mem_repeated ..).1 h₁
        obtain ⟨b, hb, rfl, rfl⟩ := (ih h _ _).1 h₂
        exact ⟨a ++ b, ⟨a, b, rfl, hlen, ha, hb⟩, by simp, by simp⟩
      · rintro ⟨_, ⟨a, b, rfl, hlen, ha, hb⟩, rfl, rfl⟩
        refine ⟨(a.reverse ++ front, b ++ rest'), (mem_repeated ..).2 ⟨a, by simp, rfl, hlen, ha⟩,
          (ih h _ _).2 ⟨b, hb, rfl, by simp⟩⟩
    | one s =>
      constructor
      · rintro ⟨⟨front₁, rest₁⟩, h₁, h₂⟩
        cases rest with
        | nil => simp [Atom.ends] at h₁
        | cons u rest =>
          obtain ⟨hu, h₁⟩ : s.mem u ∧ (front₁, rest₁) = (u :: front, rest) := by
            simpa [Atom.ends] using h₁
          cases h₁
          obtain ⟨b, hb, rfl, rfl⟩ := (ih h _ _).1 h₂
          exact ⟨u :: b, ⟨u, b, rfl, hu, hb⟩, by simp, by simp⟩
      · rintro ⟨_, ⟨u, b, rfl, hu, hb⟩, rfl, rfl⟩
        refine ⟨(u :: front, b ++ rest'), by simp [Atom.ends, hu], ?_⟩
        exact (ih h _ _).2 ⟨b, hb, rfl, by simp⟩

/-! ## Anchored patterns -/

/-- `^…$` -/
def anchored (branch : List Atom) : List Atom := .bol :: branch ++ [.eol]

/-- A region without the line break at its end. -/
def beforeBreak (region : List ℕ) : List ℕ :=
  match region.getLast? with
  | none => []
  | some u =>
    if u = 0x0a ∧ region.dropLast.getLast? = some 0x0d then region.dropLast.dropLast
    else if CharSet.lineTerminator.mem u then region.dropLast
    else region

theorem beforeBreak_concat (w : List ℕ) (u : ℕ) :
    beforeBreak (w ++ [u]) =
      if u = 0x0a ∧ w.getLast? = some 0x0d then w.dropLast
      else if CharSet.lineTerminator.mem u then w
      else w ++ [u] := by
  simp only [beforeBreak, List.getLast?_concat, List.dropLast_concat]

theorem beforeBreak_eq_self {region : List ℕ}
    (h : ∀ u ∈ region, ¬ CharSet.lineTerminator.mem u) : beforeBreak region = region := by
  rcases region.eq_nil_or_concat with rfl | ⟨w, u, rfl⟩
  · rfl
  · rw [List.concat_eq_append] at h ⊢
    have hu : ¬ CharSet.lineTerminator.mem u := h u (by simp)
    have hne : u ≠ 0x0a := by
      rintro rfl
      exact hu rfl
    rw [beforeBreak_concat, if_neg fun h => hne h.1, if_neg hu]

theorem beforeBreak_prefix (region : List ℕ) : beforeBreak region <+: region := by
  rcases region.eq_nil_or_concat with rfl | ⟨w, u, rfl⟩
  · exact List.prefix_rfl
  · rw [List.concat_eq_append, beforeBreak_concat]
    split
    · exact (List.dropLast_prefix w).trans (List.prefix_append w [u])
    · split
      · exact List.prefix_append w [u]
      · exact List.prefix_rfl

/-- A line break has one unit or two. -/
theorem length_beforeBreak (region : List ℕ) :
    region.length ≤ (beforeBreak region).length + 2 := by
  rcases region.eq_nil_or_concat with rfl | ⟨w, u, rfl⟩
  · simp
  · rw [List.concat_eq_append, beforeBreak_concat, List.length_append, List.length_singleton]
    split
    · rw [List.length_dropLast]
      omega
    · split
      · omega
      · rw [List.length_append, List.length_singleton]
        omega

/-- **Where `$` matches**: at the end, and behind what is left without a line break. -/
theorem atEnd_iff (w rest : List ℕ) :
    atEnd (w.reverse, rest) ↔ rest = [] ∨ w = beforeBreak (w ++ rest) := by
  match rest with
  | [] => simp [atEnd]
  | [u] =>
    have hlast (h : w.getLast? = some 0x0d) : w ≠ w.dropLast := by
      rcases w.eq_nil_or_concat with rfl | ⟨v, x, rfl⟩
      · cases h
      · simp
    rw [beforeBreak_concat]
    simp only [atEnd, List.head?_reverse, Bool.and_eq_true, Bool.not_eq_true',
      Bool.and_eq_false_iff, decide_eq_false_iff_not, List.cons_ne_self, false_or]
    by_cases hcr : u = 0x0a ∧ w.getLast? = some 0x0d
    · simp [hcr, hlast hcr.2]
    · rw [if_neg hcr]
      by_cases hu : CharSet.lineTerminator.mem u
      · simp only [hu, if_true, true_and, iff_true]
        tauto
      · simp [hu]
  | [u, v] =>
    have hsplit : w ++ [u, v] = w ++ [u] ++ [v] := by simp
    rw [hsplit, beforeBreak_concat, List.getLast?_concat, List.dropLast_concat]
    simp only [atEnd, Bool.and_eq_true, decide_eq_true_eq, List.cons_ne_nil, false_or,
      Option.some.injEq]
    constructor
    · rintro ⟨hu, hv⟩
      rw [if_pos ⟨hv, hu⟩]
    · intro hw
      split at hw
      · next hcr => exact ⟨hcr.2, hcr.1⟩
      · split at hw
        · simp at hw
        · simp at hw
  | u :: v :: x :: rest =>
    have hlen := length_beforeBreak (w ++ u :: v :: x :: rest)
    have hne : w ≠ beforeBreak (w ++ u :: v :: x :: rest) := fun h => by
      rw [← h, List.length_append] at hlen
      simp at hlen
    simp [atEnd, hne]

/-- **A pattern `^…$`** is found in a region that it spells, with a line break at the end or
    without. -/
theorem found_anchored {branch : List Atom} (h : plain branch) (region : List ℕ) :
    found [anchored branch] region ↔
      Spells branch region ∨ Spells branch (beforeBreak region) := by
  have hends : found [anchored branch] region ↔
      ∃ w rest, Spells branch w ∧ region = w ++ rest ∧ atEnd (w.reverse, rest) := by
    simp only [found, List.any_cons, List.any_nil, Bool.or_false, List.any_eq_true,
      decide_eq_true_eq, ne_eq, List.eq_nil_iff_forall_not_mem, not_forall, not_not]
    constructor
    · rintro ⟨⟨front, rest⟩, hcursor, q', hmem⟩
      rw [anchored, List.cons_append, ends, List.mem_flatMap] at hmem
      obtain ⟨q, hbol, hmem⟩ := hmem
      obtain ⟨rfl, rfl⟩ : front = [] ∧ q = (front, rest) := by simpa [Atom.ends] using hbol
      obtain ⟨v, rfl, hv⟩ := (mem_cursors ..).1 hcursor
      obtain rfl : v = [] := by simpa using hv.symm
      obtain ⟨⟨front', rest'⟩, hm, heol⟩ := (mem_ends_append ..).1 hmem
      obtain ⟨w, hw, rfl, rfl⟩ := (mem_ends h ..).1 hm
      refine ⟨w, rest', hw, rfl, ?_⟩
      by_contra hend
      rw [List.append_nil] at heol
      simp [ends, Atom.ends, hend] at heol
    · rintro ⟨w, rest, hw, rfl, hend⟩
      refine ⟨([], w ++ rest), (mem_cursors ..).2 ⟨[], rfl, rfl⟩, (w.reverse, rest), ?_⟩
      rw [anchored, List.cons_append, ends, List.mem_flatMap]
      refine ⟨([], w ++ rest), by simp [Atom.ends], (mem_ends_append ..).2 ?_⟩
      refine ⟨(w.reverse, rest), (mem_ends h ..).2 ⟨w, hw, rfl, by simp⟩, ?_⟩
      simp [ends, Atom.ends, hend]
  rw [hends]
  constructor
  · rintro ⟨w, rest, hw, rfl, hend⟩
    rcases (atEnd_iff w rest).1 hend with rfl | heq
    · exact Or.inl (by rwa [List.append_nil])
    · exact Or.inr (heq ▸ hw)
  · rintro (hw | hw)
    · exact ⟨region, [], hw, (List.append_nil _).symm, rfl⟩
    · obtain ⟨rest, hrest⟩ := beforeBreak_prefix region
      refine ⟨beforeBreak region, rest, hw, hrest.symm, (atEnd_iff _ _).2 (Or.inr ?_)⟩
      rw [hrest]

theorem found_iff (branches : List (List Atom)) (region : List ℕ) :
    found branches region ↔ ∃ branch ∈ branches, found [branch] region := by
  simp [found]

/-- A pattern that line breaks are not part of. -/
theorem found_anchored_iff {branch : List Atom} (h : plain branch)
    (hbreak : ∀ a ∈ branch, ∀ u, a.set.mem u → ¬ CharSet.lineTerminator.mem u)
    (region : List ℕ) :
    found [anchored branch] region ↔ Spells branch (beforeBreak region) := by
  rw [found_anchored h]
  constructor
  · rintro (hw | hw)
    · rwa [beforeBreak_eq_self fun u hu => ?_]
      obtain ⟨a, ha, hmem⟩ := mem_of_spells hw u hu
      exact hbreak a ha u hmem
    · exact hw
  · exact Or.inr

end Regex

end RavenWallet
