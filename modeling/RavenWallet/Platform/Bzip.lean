/-
  bzip2 data (`bzCompressedData` and `init?(bzCompressedData:)` of
  Extensions.swift).

  The library is a parameter: what a call of `BZ2_bzCompress` or
  `BZ2_bzDecompress` does with the bytes that are left (`Step`), and what its
  documentation says of it (`Documented`).  A loop runs with fuel.

  * `pump_terminates_iff`: the loop ends unless the input runs out first;
  * `pump_decodes`: it returns what a stream stands for;
  * `bzip_iff`: when decompression ends, and when it gives back the original.
-/
import Mathlib.Data.Nat.Basic
import RavenWallet.Core.Types

namespace RavenWallet

def BZ_OK : ℤ := 0
def BZ_RUN_OK : ℤ := 1
def BZ_STREAM_END : ℤ := 4
def BZ_DATA_ERROR : ℤ := -4

inductive BzAction where
  | run
  | finish
  deriving DecidableEq, Repr

/-- What a call returns, its state, the input that is left, and what is put out. -/
structure Step (σ : Type) where
  code : ℤ
  state : σ
  rest : Bytes
  output : Bytes
  deriving DecidableEq, Repr

/-- The calls, with the input and the room for the output. -/
structure Bzip (σ τ : Type) where
  compressInit : Option σ
  compress : σ → BzAction → Bytes → ℕ → Step σ
  decompressInit : Option τ
  decompress : τ → Bytes → ℕ → Step τ

def BZCompressionBufferSize : ℕ := 1024

/-! ## The loops -/

section
variable {σ : Type} (call : σ → Bytes → ℕ → Step σ)

/-- The loop of the two functions: calls until the stream ends or there is an error. -/
def pump : ℕ → σ → Bytes → Bytes → Option (Option Bytes)
  | 0, _, _, _ => none
  | fuel + 1, s, input, acc =>
    let r := call s input BZCompressionBufferSize
    if r.code < BZ_OK then some none
    else if r.code ≠ BZ_STREAM_END then pump fuel r.state r.rest (acc ++ r.output)
    else some (some (acc ++ r.output))

/-- The states between two calls of the loop. -/
inductive Pumped : σ → Bytes → σ → Bytes → Prop
  | refl (s : σ) (input : Bytes) : Pumped s input s input
  | step {s s' : σ} {input input' : Bytes}
    (hcode : ¬ (call s input BZCompressionBufferSize).code < BZ_OK)
    (hend : (call s input BZCompressionBufferSize).code ≠ BZ_STREAM_END)
    (h : Pumped (call s input BZCompressionBufferSize).state
      (call s input BZCompressionBufferSize).rest s' input') : Pumped s input s' input'

end

/-- The end of a function: it traps, it still runs, or it returns. -/
inductive BzResult where
  | trap
  | running
  | done (data : Option Bytes)
  deriving DecidableEq, Repr

def BzResult.ofLoop : Option (Option Bytes) → BzResult
  | none => .running
  | some data => .done data

section
variable {σ τ : Type} (bz : Bzip σ τ)

/-- The call of the loop of `bzCompressedData`. -/
def Bzip.compressCall (s : σ) (input : Bytes) (room : ℕ) : Step σ :=
  bz.compress s (if input.length > 0 then .run else .finish) input room

/-- `bzCompressedData`; `UInt32(self.count)` traps. -/
def bzCompressedData (fuel : ℕ) (data : Bytes) : BzResult :=
  if data = [] then .done (some data)
  else if data.length ≥ 2 ^ 32 then .trap
  else match bz.compressInit with
    | none => .done none
    | some s => .ofLoop (pump bz.compressCall fuel s data [])

/-- `init?(bzCompressedData:)` -/
def initBzCompressedData (fuel : ℕ) (data : Bytes) : BzResult :=
  if data = [] then .done none
  else if data.length ≥ 2 ^ 32 then .trap
  else match bz.decompressInit with
    | none => .done none
    | some t => .ofLoop (pump bz.decompress fuel t data [])

/-- Calls of the compressor with any room that turn the input into a stream. -/
inductive Compresses : σ → Bytes → Bytes → Prop
  | more {s : σ} {input w : Bytes} {room : ℕ}
    (hcode : ¬ (bz.compressCall s input room).code < BZ_OK)
    (hend : (bz.compressCall s input room).code ≠ BZ_STREAM_END)
    (h : Compresses (bz.compressCall s input room).state (bz.compressCall s input room).rest w) :
    Compresses s input ((bz.compressCall s input room).output ++ w)
  | last {s : σ} {input : Bytes} {room : ℕ}
    (hend : (bz.compressCall s input room).code = BZ_STREAM_END) :
    Compresses s input (bz.compressCall s input room).output

/-- What the library documents.  `pending` is the number of bytes that are decoded and wait for
    room; `Decodes t input out` says that the input that is left ends the stream, with `out`. -/
structure Documented (pending : τ → ℕ) (Decodes : τ → Bytes → Bytes → Prop) : Prop where
  /-- a successful call makes progress as long as there is something to do -/
  progress : ∀ t input room, 0 < room → ¬ (bz.decompress t input room).code < BZ_OK →
    (bz.decompress t input room).code ≠ BZ_STREAM_END → input ≠ [] ∨ 0 < pending t →
      (bz.decompress t input room).rest.length < input.length ∨
        ((bz.decompress t input room).rest.length = input.length ∧
          pending (bz.decompress t input room).state < pending t)
  /-- without input it succeeds, and nothing happens -/
  exhausted : ∀ t room, pending t = 0 → bz.decompress t [] room = ⟨BZ_OK, t, [], []⟩
  /-- the decompressor is the inverse of the compressor, whose streams have a header -/
  inverse : ∀ s data c, bz.compressInit = some s → Compresses bz s data c →
    c ≠ [] ∧ ∃ t, bz.decompressInit = some t ∧ Decodes t c data
  /-- a call of a stream that is not over puts out the next bytes -/
  decodes_call : ∀ t input out room, 0 < room → Decodes t input out →
    ¬ (bz.decompress t input room).code < BZ_OK ∧
      ((bz.decompress t input room).code = BZ_STREAM_END →
        out = (bz.decompress t input room).output) ∧
      ((bz.decompress t input room).code ≠ BZ_STREAM_END →
        ∃ rest, out = (bz.decompress t input room).output ++ rest ∧
          Decodes (bz.decompress t input room).state (bz.decompress t input room).rest rest)
  /-- a whole stream does not run out of input -/
  decodes_ne : ∀ t input out, Decodes t input out → input ≠ [] ∨ 0 < pending t

/-- The decompressor runs out of input before the stream ends. -/
def Truncated (pending : τ → ℕ) (data : Bytes) : Prop :=
  ∃ t s, bz.decompressInit = some t ∧ Pumped bz.decompress t data s [] ∧ pending s = 0

/-! ## How a loop ends -/

/-- Induction on the input that is left, and then on the bytes that are pending. -/
theorem input_induction (pending : τ → ℕ) {P : τ → Bytes → Prop}
    (h : ∀ t input, (∀ t' input', input'.length < input.length ∨
      (input'.length = input.length ∧ pending t' < pending t) → P t' input') → P t input)
    (t : τ) (input : Bytes) : P t input := by
  induction hn : input.length using Nat.strong_induction_on generalizing t input with
  | h n ihn =>
    induction hp : pending t using Nat.strong_induction_on generalizing t input with
    | h p ihp =>
      refine h t input fun t' input' hless => ?_
      rcases hless with hlt | ⟨heq, hlt⟩
      · exact ihn _ (hn ▸ hlt) t' input' rfl
      · exact ihp _ (hp ▸ hlt) t' input' (heq.trans hn) rfl

theorem pump_succ (call : σ → Bytes → ℕ → Step σ) (fuel : ℕ) (s : σ) (input acc : Bytes) :
    pump call (fuel + 1) s input acc =
      if (call s input BZCompressionBufferSize).code < BZ_OK then some none
      else if (call s input BZCompressionBufferSize).code ≠ BZ_STREAM_END then
        pump call fuel (call s input BZCompressionBufferSize).state
          (call s input BZCompressionBufferSize).rest
          (acc ++ (call s input BZCompressionBufferSize).output)
      else some (some (acc ++ (call s input BZCompressionBufferSize).output)) := rfl

variable {bz} {pending : τ → ℕ} {Decodes : τ → Bytes → Bytes → Prop}

/-- The loop goes on for ever once there is no input. -/
theorem pump_exhausted (hbz : Documented bz pending Decodes) {s t : τ} {input rest : Bytes}
    (hpumped : Pumped bz.decompress t input s rest) (hrest : rest = []) (hs : pending s = 0)
    (fuel : ℕ) (acc : Bytes) : pump bz.decompress fuel t input acc = none := by
  induction hpumped generalizing fuel acc with
  | refl s input =>
    subst hrest
    induction fuel generalizing acc with
    | zero => rfl
    | succ fuel ih =>
      rw [pump_succ, hbz.exhausted s _ hs, if_neg (lt_irrefl _),
        if_pos (show BZ_OK ≠ BZ_STREAM_END by decide)]
      exact ih _
  | step hcode hend h ih =>
    cases fuel with
    | zero => rfl
    | succ fuel => rw [pump_succ, if_neg hcode, if_pos hend, ih hrest hs]

/-- The loop ends exactly if it does not run out of input. -/
theorem pump_terminates_iff (hbz : Documented bz pending Decodes) (t : τ) (input acc : Bytes) :
    (∃ fuel r, pump bz.decompress fuel t input acc = some r) ↔
      ¬ ∃ s, Pumped bz.decompress t input s [] ∧ pending s = 0 := by
  constructor
  · rintro ⟨fuel, r, hr⟩ ⟨s, hpumped, hs⟩
    rw [pump_exhausted hbz hpumped rfl hs] at hr
    cases hr
  · induction t, input using input_induction pending generalizing acc with
    | h t input ih =>
      intro hmore
      have hwork : input ≠ [] ∨ 0 < pending t := by
        by_contra hnone
        obtain ⟨rfl, hzero⟩ : input = [] ∧ pending t = 0 :=
          ⟨by_contra fun h => hnone (Or.inl h), by omega⟩
        exact hmore ⟨t, .refl t [], hzero⟩
      by_cases hcode : (bz.decompress t input BZCompressionBufferSize).code < BZ_OK
      · exact ⟨1, none, by rw [pump_succ, if_pos hcode]⟩
      · by_cases hend : (bz.decompress t input BZCompressionBufferSize).code = BZ_STREAM_END
        · exact ⟨1, _, by rw [pump_succ, if_neg hcode, if_neg (not_not_intro hend)]⟩
        · obtain ⟨fuel, r, hr⟩ := ih _ _ (hbz.progress t input _ (by decide) hcode hend hwork)
            (acc ++ (bz.decompress t input BZCompressionBufferSize).output)
            fun ⟨s, hpumped, hs⟩ => hmore ⟨s, .step hcode hend hpumped, hs⟩
          exact ⟨fuel + 1, r, by rw [pump_succ, if_neg hcode, if_pos hend, hr]⟩

/-- The loop returns what a stream stands for. -/
theorem pump_decodes (hbz : Documented bz pending Decodes) (t : τ) (input : Bytes) (acc : Bytes)
    {out : Bytes} (h : Decodes t input out) :
    ∃ fuel, pump bz.decompress fuel t input acc = some (some (acc ++ out)) := by
  induction t, input using input_induction pending generalizing acc out with
  | h t input ih =>
    obtain ⟨hcode, hlast, hmore⟩ := hbz.decodes_call t input out _
      (show 0 < BZCompressionBufferSize by decide) h
    by_cases hend : (bz.decompress t input BZCompressionBufferSize).code = BZ_STREAM_END
    · refine ⟨1, ?_⟩
      rw [pump_succ, if_neg hcode, if_neg (not_not_intro hend), ← hlast hend]
    · obtain ⟨rest, rfl, hrest⟩ := hmore hend
      obtain ⟨fuel, hfuel⟩ := ih _ _ (hbz.progress t input _ (by decide) hcode hend
        (hbz.decodes_ne t input _ h)) _ hrest
      exact ⟨fuel + 1, by rw [pump_succ, if_neg hcode, if_pos hend, hfuel, List.append_assoc]⟩

/-- What the loop of `bzCompressedData` returns is a stream of the data. -/
theorem compresses_of_pump {fuel : ℕ} {s : σ} {input acc c : Bytes}
    (h : pump bz.compressCall fuel s input acc = some (some c)) :
    ∃ out, c = acc ++ out ∧ Compresses bz s input out := by
  induction fuel generalizing s input acc with
  | zero => cases h
  | succ fuel ih =>
    rw [pump_succ] at h
    split_ifs at h with hcode hend
    · cases Option.some.inj h
    · obtain ⟨out, rfl, hout⟩ := ih h
      exact ⟨_, List.append_assoc _ _ _, .more hcode hend hout⟩
    · obtain rfl := Option.some.inj (Option.some.inj h)
      exact ⟨_, rfl, .last (not_not.1 hend)⟩

theorem ofLoop_eq_done {r : Option (Option Bytes)} {data : Option Bytes} :
    BzResult.ofLoop r = .done data ↔ r = some data := by
  cases r with
  | none => exact iff_of_false nofun nofun
  | some data' => exact ⟨fun h => congrArg some (BzResult.done.inj h),
      fun h => congrArg BzResult.done (Option.some.inj h)⟩

theorem initBzCompressedData_of_init {t : τ} {data : Bytes} (hne : data ≠ [])
    (hlt : data.length < 2 ^ 32) (hinit : bz.decompressInit = some t) (fuel : ℕ) :
    initBzCompressedData bz fuel data = .ofLoop (pump bz.decompress fuel t data []) := by
  rw [initBzCompressedData, if_neg hne, if_neg (by omega), hinit]

/-- Decompression ends for data that are empty, or shorter than 2³² bytes and not truncated. -/
theorem initBzCompressedData_done_iff (hbz : Documented bz pending Decodes) (data : Bytes) :
    (∃ fuel r, initBzCompressedData bz fuel data = .done r) ↔
      data = [] ∨ data.length < 2 ^ 32 ∧ ¬ Truncated bz pending data := by
  by_cases hnil : data = []
  · exact iff_of_true ⟨0, none, if_pos hnil⟩ (Or.inl hnil)
  · rw [or_iff_right hnil]
    by_cases hlt : data.length < 2 ^ 32
    · rw [and_iff_right hlt]
      cases hinit : bz.decompressInit with
      | none =>
        refine iff_of_true ⟨0, none, ?_⟩ ?_
        · rw [initBzCompressedData, if_neg hnil, if_neg (by omega), hinit]
        · rintro ⟨t, s, ht, -⟩
          rw [hinit] at ht
          cases ht
      | some t =>
        simp only [initBzCompressedData_of_init hnil hlt hinit, ofLoop_eq_done]
        rw [pump_terminates_iff hbz, Truncated, hinit, not_iff_not]
        constructor
        · rintro ⟨s, hpumped, hs⟩
          exact ⟨t, s, rfl, hpumped, hs⟩
        · rintro ⟨t', s, ht, hpumped, hs⟩
          obtain rfl := Option.some.inj ht
          exact ⟨s, hpumped, hs⟩
    · refine iff_of_false ?_ fun h => hlt h.1
      rintro ⟨fuel, r, h⟩
      rw [initBzCompressedData, if_neg hnil, if_pos (by omega)] at h
      cases h

/-- What was compressed comes back if it is not empty, and the stream is shorter than 2³² bytes. -/
theorem initBzCompressedData_compressed_iff (hbz : Documented bz pending Decodes) {fuel : ℕ}
    {data c : Bytes} (h : bzCompressedData bz fuel data = .done (some c)) :
    (∃ fuel', initBzCompressedData bz fuel' c = .done (some data)) ↔
      data ≠ [] ∧ c.length < 2 ^ 32 := by
  unfold bzCompressedData at h
  split_ifs at h with hnil hlong
  · obtain rfl := Option.some.inj (BzResult.done.inj h)
    refine iff_of_false ?_ fun h => h.1 hnil
    rintro ⟨fuel', h'⟩
    rw [initBzCompressedData, if_pos hnil] at h'
    cases h'
  · cases hcompress : bz.compressInit with
    | none =>
      rw [hcompress] at h
      cases h
    | some s =>
      rw [hcompress] at h
      obtain ⟨out, hc, hout⟩ := compresses_of_pump (ofLoop_eq_done.1 h)
      rw [List.nil_append] at hc
      rw [← hc] at hout
      rw [and_iff_right hnil]
      obtain ⟨hne, t, hinit, hdecodes⟩ := hbz.inverse s data _ hcompress hout
      by_cases hlt : c.length < 2 ^ 32
      · obtain ⟨fuel', hfuel'⟩ := pump_decodes hbz t c [] hdecodes
        refine iff_of_true ⟨fuel', ?_⟩ hlt
        rw [initBzCompressedData_of_init hne hlt hinit, hfuel', List.nil_append]
        rfl
      · refine iff_of_false ?_ hlt
        rintro ⟨fuel', h'⟩
        rw [initBzCompressedData, if_neg hne, if_pos (by omega)] at h'
        cases h'

end

/-- Decompression ends exactly for data that are empty, or shorter than 2³² bytes and not
    truncated; data come back from their compressed form exactly if they are not empty and that is
    shorter than 2³² bytes. -/
theorem bzip_iff {σ τ : Type} {bz : Bzip σ τ} {pending : τ → ℕ}
    {Decodes : τ → Bytes → Bytes → Prop} (hbz : Documented bz pending Decodes) :
    (∀ data, (∃ fuel r, initBzCompressedData bz fuel data = .done r) ↔
      data = [] ∨ data.length < 2 ^ 32 ∧ ¬ Truncated bz pending data) ∧
    ∀ fuel data c, bzCompressedData bz fuel data = .done (some c) →
      ((∃ fuel', initBzCompressedData bz fuel' c = .done (some data)) ↔
        data ≠ [] ∧ c.length < 2 ^ 32) :=
  ⟨initBzCompressedData_done_iff hbz, fun _ _ _ => initBzCompressedData_compressed_iff hbz⟩

/-! ## A library for one stream -/

/-- The stream of the string `a`, with blocks of 700 kB. -/
def streamOfA : Bytes := [66, 90, 104, 55, 49, 65, 89, 38, 83, 89, 25, 147, 155, 107, 0, 0, 0, 1, 0,
  32, 0, 32, 0, 33, 24, 70, 130, 238, 72, 167, 10, 18, 3, 50, 115, 109, 96]

/-- A library that knows this stream and its truncations; the states are what was put in. -/
def bzipOfA : Bzip Bytes Bytes where
  compressInit := some []
  compress s action input _ :=
    match action with
    | .run => ⟨BZ_RUN_OK, s ++ input, [], []⟩
    | .finish =>
      if s = [97] then ⟨BZ_STREAM_END, s, input, streamOfA⟩ else ⟨BZ_DATA_ERROR, s, input, []⟩
  decompressInit := some []
  decompress t input _ :=
    if input = [] then ⟨BZ_OK, t, [], []⟩
    else if t ++ input = streamOfA then ⟨BZ_STREAM_END, t ++ input, [], [97]⟩
    else if t ++ input <+: streamOfA then ⟨BZ_OK, t ++ input, [], []⟩
    else ⟨BZ_DATA_ERROR, t, input, []⟩

theorem compressCall_bzipOfA (s input : Bytes) (room : ℕ) :
    bzipOfA.compressCall s input room =
      if input ≠ [] then ⟨BZ_RUN_OK, s ++ input, [], []⟩
      else if s = [97] then ⟨BZ_STREAM_END, s, input, streamOfA⟩
      else ⟨BZ_DATA_ERROR, s, input, []⟩ := by
  cases input with
  | nil => rfl
  | cons b input => rfl

theorem compresses_bzipOfA {s input c : Bytes} (h : Compresses bzipOfA s input c) :
    s ++ input = [97] ∧ c = streamOfA := by
  induction h with
  | more hcode hend h ih =>
    rw [compressCall_bzipOfA] at hcode hend ih ⊢
    split_ifs at hcode hend ih ⊢ with hinput hs
    · rwa [List.append_nil] at ih
    · exact absurd rfl hend
    · exact absurd (show BZ_DATA_ERROR < BZ_OK by decide) hcode
  | last hend =>
    rw [compressCall_bzipOfA] at hend ⊢
    split_ifs at hend ⊢ with hinput hs
    · exact absurd hend (show BZ_RUN_OK ≠ BZ_STREAM_END by decide)
    · rw [not_not.1 hinput, hs]
      exact ⟨rfl, rfl⟩
    · exact absurd hend (show BZ_DATA_ERROR ≠ BZ_STREAM_END by decide)

theorem decompress_bzipOfA (t : Bytes) {input : Bytes} (hne : input ≠ []) (room : ℕ) :
    bzipOfA.decompress t input room =
      if t ++ input = streamOfA then ⟨BZ_STREAM_END, t ++ input, [], [97]⟩
      else if t ++ input <+: streamOfA then ⟨BZ_OK, t ++ input, [], []⟩
      else ⟨BZ_DATA_ERROR, t, input, []⟩ := if_neg hne

theorem documented_bzipOfA : Documented bzipOfA (fun _ => 0) fun t input out =>
    input ≠ [] ∧ t ++ input = streamOfA ∧ out = [97] where
  progress t input room _ hcode hend hwork := by
    have hne : input ≠ [] := hwork.resolve_right (lt_irrefl 0)
    rw [decompress_bzipOfA t hne] at hcode hend ⊢
    split_ifs at hcode hend ⊢
    · exact absurd rfl hend
    · exact Or.inl (List.length_pos_iff.2 hne)
    · exact absurd (show BZ_DATA_ERROR < BZ_OK by decide) hcode
  exhausted _ _ _ := rfl
  inverse s data c hs h := by
    obtain rfl := Option.some.inj hs
    obtain ⟨hdata, rfl⟩ := compresses_bzipOfA h
    exact ⟨by decide, [], rfl, by decide, rfl, hdata⟩
  decodes_call t input out room _ := by
    rintro ⟨hne, heq, rfl⟩
    rw [decompress_bzipOfA t hne, if_pos heq]
    exact ⟨show ¬ BZ_STREAM_END < BZ_OK by decide, fun _ => rfl, fun h => absurd rfl h⟩
  decodes_ne t input out h := Or.inl h.1

/-- The string `a` comes back. -/
theorem bzip_iff_a : ∃ fuel, initBzCompressedData bzipOfA fuel streamOfA = .done (some [97]) :=
  ((bzip_iff documented_bzipOfA).2 2 [97] streamOfA (by decide)).2 (by decide)

/-- The stream without its last byte, and the empty string. -/
theorem not_bzip :
    (¬ ∃ fuel r, initBzCompressedData bzipOfA fuel streamOfA.dropLast = .done r) ∧
    bzCompressedData bzipOfA 0 [] = .done (some []) ∧
      ¬ ∃ fuel, initBzCompressedData bzipOfA fuel [] = .done (some []) := by
  refine ⟨?_, rfl, fun ⟨fuel, h⟩ => ?_⟩
  · rw [initBzCompressedData_done_iff documented_bzipOfA]
    rintro (hnil | ⟨-, hwhole⟩)
    · exact absurd hnil (by decide)
    · exact hwhole ⟨[], streamOfA.dropLast, rfl, .step (by decide) (by decide) (.refl _ _), rfl⟩
  · cases h

end RavenWallet
