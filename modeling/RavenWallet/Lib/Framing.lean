/-
  Streams that are cut into frames.

  A frame starts with a mark; its header, of fixed length, says how long the payload is.
  In front of a frame, symbols are dropped one by one until there is a mark.
  `Framed s fs r`: the stream `s` is cut into `fs`, and `r` is left of it.

  * `Framed.prefix_of_incomplete`: no other frames are cut from the start of a stream;
  * `Framed.prefix_sent`, `Framed.eq_sent`: only the frames that were sent are cut from what
    they spell, and all of them once it has arrived.
-/
import Mathlib.Data.List.Basic

namespace RavenWallet

variable {α F : Type}

/-- What the frames of a stream look like. -/
structure FrameFormat (α F : Type) where
  mark : List α
  headerLength : ℕ
  /-- The length of the payload, unless the header is refused. -/
  payloadLength : List α → Option ℕ
  /-- What the frame says, unless its payload is refused. -/
  content : List α → List α → Option F
  mark_pos : 0 < mark.length
  mark_lt : mark.length < headerLength

namespace FrameFormat

variable (R : FrameFormat α F)

/-- The header and the payload of a frame that says `f`. -/
structure Frame (header payload : List α) (f : F) : Prop where
  length_header : header.length = R.headerLength
  mark : R.mark <+: header
  length_payload : R.payloadLength header = some payload.length
  content : R.content header payload = some f

/-- The first symbol is dropped, or the first frame cut off. -/
inductive Cut : List α → List F → List α → Prop
  | skip {x : α} {s : List α} : R.mark.length ≤ (x :: s).length → ¬ R.mark <+: x :: s →
      Cut (x :: s) [] s
  | frame {header payload : List α} {f : F} (s : List α) : R.Frame header payload f →
      Cut (header ++ (payload ++ s)) [f] s

inductive Framed : List α → List F → List α → Prop
  | wait (s : List α) : Framed s [] s
  | cut {s s' r : List α} {fs fs' : List F} : R.Cut s fs s' → Framed s' fs' r →
      Framed s (fs ++ fs') r

/-- Nothing is cut off from `s` as it is. -/
def Incomplete (s : List α) : Prop := ∀ fs s', ¬ R.Cut s fs s'

/-- What starts like a frame, but does not become one. -/
structure Broken (s : List α) : Prop where
  mark : R.mark <+: s
  length : R.mark.length < s.length
  not_frame : ∀ {header payload t s' : List α} {f : F}, R.Frame header payload f →
    s ++ t ≠ header ++ (payload ++ s')

/-- There is no mark in `junk`, also if one follows. -/
def Unmarked (junk : List α) : Prop :=
  ∀ i < junk.length, ¬ R.mark <+: (junk ++ R.mark).drop i

variable {R} {s s' t r r' junk header payload : List α} {fs fs' gs : List F} {f : F}

theorem Frame.mark_prefix (h : R.Frame header payload f) (s : List α) : R.mark <+: header ++ s :=
  h.mark.trans (List.prefix_append _ _)

theorem Cut.unique {s₁ s₂ : List α} (h : R.Cut s fs s₁) (h' : R.Cut s fs' s₂) :
    fs = fs' ∧ s₁ = s₂ := by
  cases h with
  | skip _ hmark =>
    generalize hs : (_ :: _) = s at h' hmark
    cases h' with
    | skip => exact ⟨rfl, (List.cons.inj hs).2⟩
    | frame _ hframe => exact absurd (hframe.mark_prefix _) hmark
  | @frame header payload f s₁ hframe =>
    generalize hs : header ++ (payload ++ s₁) = s at h'
    cases h' with
    | skip _ hmark => exact absurd (hs ▸ hframe.mark_prefix _) hmark
    | @frame header' payload' f' _ hframe' =>
      obtain ⟨rfl, hrest⟩ := List.append_inj hs
        (hframe.length_header.trans hframe'.length_header.symm)
      have hlength : payload.length = payload'.length :=
        Option.some.inj (hframe.length_payload.symm.trans hframe'.length_payload)
      obtain ⟨rfl, rfl⟩ := List.append_inj hrest hlength
      exact ⟨by rw [Option.some.inj (hframe.content.symm.trans hframe'.content)], rfl⟩

theorem Cut.append (h : R.Cut s fs s') (t : List α) : R.Cut (s ++ t) fs (s' ++ t) := by
  cases h with
  | skip hlength hmark =>
    rw [List.cons_append]
    refine .skip (by simp only [List.length_cons, List.length_append] at *; omega)
      fun hprefix => hmark ?_
    exact List.prefix_of_prefix_length_le hprefix (List.prefix_append (_ :: s') t) hlength
  | frame s hframe =>
    rw [List.append_assoc, List.append_assoc]
    exact .frame _ hframe

theorem incomplete_of_lt (h : s.length < R.mark.length) : R.Incomplete s := by
  intro fs s' hcut
  cases hcut with
  | skip hlength _ => omega
  | @frame _ payload _ _ hframe =>
    have hmark := (hframe.mark_prefix (payload ++ s')).length_le
    omega

/-- A frame that has started, as far as its header. -/
theorem incomplete_of_header (hmark : R.mark <+: s) (h : s.length < R.headerLength) :
    R.Incomplete s := by
  intro fs s' hcut
  cases hcut with
  | skip _ hno => exact hno hmark
  | frame _ hframe =>
    rw [List.length_append, hframe.length_header] at h
    omega

/-- A frame that has started, as far as its payload. -/
theorem incomplete_of_payload {n : ℕ} (hlength : header.length = R.headerLength)
    (hmark : R.mark <+: header) (hn : R.payloadLength header = some n) (h : s.length < n) :
    R.Incomplete (header ++ s) := by
  intro fs s' hcut
  generalize hs : header ++ s = whole at hcut
  cases hcut with
  | skip _ hno => exact hno (hs ▸ hmark.trans (List.prefix_append _ _))
  | @frame header' payload f _ hframe =>
    obtain ⟨rfl, rfl⟩ := List.append_inj hs (hlength.trans hframe.length_header.symm)
    have hpayload : payload.length = n :=
      Option.some.inj (hframe.length_payload.symm.trans hn)
    rw [List.length_append] at h
    omega

/-! ## What is cut from a stream -/

theorem Framed.skip {x : α} (hlength : R.mark.length ≤ (x :: s).length)
    (hmark : ¬ R.mark <+: x :: s) (h : R.Framed s fs r) : R.Framed (x :: s) fs r :=
  .cut (.skip hlength hmark) h

theorem Framed.frame (hframe : R.Frame header payload f) (h : R.Framed s fs r) :
    R.Framed (header ++ (payload ++ s)) (f :: fs) r :=
  .cut (.frame s hframe) h

theorem Framed.trans (h : R.Framed s fs r) (h' : R.Framed r fs' r') :
    R.Framed s (fs ++ fs') r' := by
  induction h with
  | wait s => exact h'
  | cut hcut _ ih =>
    rw [List.append_assoc]
    exact .cut hcut (ih h')

theorem Framed.append (h : R.Framed s fs r) (t : List α) : R.Framed (s ++ t) fs (r ++ t) := by
  induction h with
  | wait s => exact .wait _
  | cut hcut _ ih => exact .cut (hcut.append t) ih

theorem Framed.of_incomplete (h : R.Framed s fs r) (hs : R.Incomplete s) : fs = [] ∧ r = s := by
  cases h with
  | wait => exact ⟨rfl, rfl⟩
  | cut hcut _ => exact absurd hcut (hs _ _)

/-- Of two ways to cut a stream, one goes on where the other ends. -/
theorem Framed.compare (h : R.Framed s fs r) (h' : R.Framed s fs' r') :
    (∃ gs, fs' = fs ++ gs ∧ R.Framed r gs r') ∨ ∃ gs, fs = fs' ++ gs ∧ R.Framed r' gs r := by
  induction h generalizing fs' with
  | wait s => exact Or.inl ⟨fs', rfl, h'⟩
  | @cut s s₁ r fs₁ fs₂ hcut hrest ih =>
    cases h' with
    | wait => exact Or.inr ⟨_, rfl, .cut hcut hrest⟩
    | cut hcut' hrest' =>
      obtain ⟨rfl, rfl⟩ := hcut.unique hcut'
      rcases ih hrest' with ⟨gs, rfl, hgs⟩ | ⟨gs, rfl, hgs⟩
      · exact Or.inl ⟨gs, (List.append_assoc ..).symm, hgs⟩
      · exact Or.inr ⟨gs, (List.append_assoc ..).symm, hgs⟩

/-- What is cut from the start of a stream is what is cut from the stream first. -/
theorem Framed.prefix_of_incomplete (h : R.Framed s fs r) (h' : R.Framed (s ++ t) fs' r')
    (hr : R.Incomplete r') : fs <+: fs' := by
  rcases (h.append t).compare h' with ⟨gs, rfl, -⟩ | ⟨gs, rfl, hgs⟩
  · exact List.prefix_append _ _
  · obtain rfl := (hgs.of_incomplete hr).1
    simp

theorem Framed.unmarked (hjunk : R.Unmarked junk) (hmark : R.mark <+: s) (h : R.Framed s fs r) :
    R.Framed (junk ++ s) fs r := by
  induction junk with
  | nil => exact h
  | cons x junk ih =>
    have hlength : R.mark.length ≤ (x :: junk ++ R.mark).length := by
      rw [List.length_append]
      omega
    obtain ⟨rest, rfl⟩ := hmark
    rw [List.cons_append]
    refine .skip ?_ ?_ (ih fun i hi => ?_)
    · simp only [List.length_cons, List.length_append]
      omega
    · intro hprefix
      refine hjunk 0 (by simp) (List.prefix_of_prefix_length_le hprefix ?_ hlength)
      rw [List.drop_zero, ← List.append_assoc, ← List.cons_append]
      exact List.prefix_append _ _
    · exact hjunk (i + 1) (by simpa using hi)

/-! ## What is sent -/

/-- The stream `s` spells the frames. -/
inductive Spells (R : FrameFormat α F) : List F → List α → Prop
  | nil : Spells R [] []
  | cons {header payload s : List α} {f : F} {fs : List F} : R.Frame header payload f →
      Spells R fs s → Spells R (f :: fs) (header ++ (payload ++ s))

theorem Spells.concat (h : Spells R fs s) (hframe : R.Frame header payload f) :
    Spells R (fs ++ [f]) (s ++ (header ++ payload)) := by
  induction h with
  | nil => simpa using Spells.cons hframe .nil
  | cons hfirst _ ih => simpa using Spells.cons hfirst ih

theorem Spells.framed (h : Spells R fs s) (t : List α) : R.Framed (s ++ t) fs t := by
  induction h with
  | nil => exact .wait t
  | cons hframe _ ih =>
    rw [List.append_assoc, List.append_assoc]
    exact .frame hframe ih

theorem Spells.mark_prefix (h : Spells R fs s) : R.mark <+: s ++ R.mark := by
  cases h with
  | nil => exact List.prefix_rfl
  | cons hframe _ =>
    rw [List.append_assoc]
    exact hframe.mark_prefix _

/-- The frames that are spelled are cut from the stream, also behind something else. -/
theorem Spells.framed_unmarked (h : Spells R fs s) (hjunk : R.Unmarked junk) :
    R.Framed (junk ++ (s ++ R.mark)) fs R.mark :=
  .unmarked hjunk h.mark_prefix (h.framed _)

theorem incomplete_mark : R.Incomplete R.mark := incomplete_of_header List.prefix_rfl R.mark_lt

/-- The frames that are cut from the start of what was sent were sent, in this order. -/
theorem Framed.prefix_sent (h : R.Framed s gs r) (hjunk : R.Unmarked junk) {sent : List α}
    (hsent : Spells R fs sent) (hs : s <+: junk ++ sent) : gs <+: fs := by
  obtain ⟨t, hs⟩ := hs
  have hall : R.Framed (s ++ (t ++ R.mark)) fs R.mark := by
    rw [← List.append_assoc, hs, List.append_assoc]
    exact hsent.framed_unmarked hjunk
  exact h.prefix_of_incomplete hall incomplete_mark

/-- Nothing that was sent is broken. -/
theorem Framed.not_broken (h : R.Framed s gs r) (hjunk : R.Unmarked junk) {sent : List α}
    (hsent : Spells R fs sent) (hs : s <+: junk ++ sent) : ¬ R.Broken r := by
  intro hbroken
  obtain ⟨t, hs⟩ := hs
  have hall : R.Framed (s ++ (t ++ R.mark)) fs R.mark := by
    rw [← List.append_assoc, hs, List.append_assoc]
    exact hsent.framed_unmarked hjunk
  have hlong : r ++ (t ++ R.mark) ≠ R.mark := by
    intro heq
    have hlength := congrArg List.length heq
    have hr := hbroken.length
    rw [List.length_append] at hlength
    omega
  rcases (h.append (t ++ R.mark)).compare hall with ⟨hs, -, hrest⟩ | ⟨hs, -, hrest⟩
  · generalize hwhole : r ++ (t ++ R.mark) = whole at hrest hlong
    cases hrest with
    | wait => exact hlong rfl
    | cut hcut _ =>
      cases hcut with
      | skip _ hno => exact hno (hwhole ▸ hbroken.mark.trans (List.prefix_append _ _))
      | frame _ hframe => exact hbroken.not_frame hframe hwhole
  · exact hlong (hrest.of_incomplete incomplete_mark).2

/-- All the frames are cut off when all has arrived. -/
theorem Framed.eq_sent (hjunk : R.Unmarked junk) {sent : List α} (hsent : Spells R fs sent)
    (h : R.Framed (junk ++ sent) gs r) (hr : R.Incomplete r) : gs = fs := by
  have hprefix : gs <+: fs := h.prefix_sent hjunk hsent List.prefix_rfl
  cases hsent with
  | nil => exact List.prefix_nil.1 hprefix
  | cons hframe hrest =>
    have hall := (Spells.cons hframe hrest).framed []
    rw [List.append_nil] at hall
    have hcut := Framed.unmarked hjunk (hframe.mark_prefix _) hall
    exact hprefix.eq_of_length_le (hcut.prefix_of_incomplete (t := [])
      ((List.append_nil _).symm ▸ h) hr).length_le

end FrameFormat

end RavenWallet
