/-
  Bloom filters (BRBloomFilter.c).

  Inserting an item sets the bits at its `positions`, and a lookup tests them.  A
  division by zero, or an index beyond the filter, is `none`; they happen with a filter
  of no bytes only.

  * `containsData_iff`: what is found, if the filter has a byte;
  * `parse_of_serialize`: the codec keeps the filter;
  * `bloomFilter_contains`: what was inserted is found, and which buffers have an
    unsafe filter.
-/
import RavenWallet.Lib.Bits
import RavenWallet.Core.Script
import RavenWallet.Crypto.Chacha20

namespace RavenWallet

def BLOOM_MAX_FILTER_LENGTH : ℕ := 36000
def BLOOM_MAX_HASH_FUNCS : UInt32 := 50

/-! ## The hash function (BRCrypto.c) -/

def murmurC1 : UInt32 := 0xcc9e2d51
def murmurC2 : UInt32 := 0x1b873593

def fmix32 (h : UInt32) : UInt32 :=
  let h := (h ^^^ (h >>> 16)) * 0x85ebca6b
  let h := (h ^^^ (h >>> 13)) * 0xc2b2ae35
  h ^^^ (h >>> 16)

/-- `Murmur3_32`. -/
def murmur3_32 (data : Bytes) (seed : UInt32) : UInt32 :=
  let h := (List.range (data.length / 4)).foldl (fun h i =>
    let k := rol32 (wordAt data i * murmurC1) 15 * murmurC2
    rol32 (h ^^^ k) 13 * 5 + 0xe6546b64) seed
  -- the one to three bytes that are left
  let k := wordAt data (data.length / 4) * murmurC1
  let h := if data.length % 4 = 0 then h else h ^^^ (rol32 k 15 * murmurC2)
  fmix32 (h ^^^ UInt32.ofNat data.length)

/-! ## Filters -/

/-- A filter; `length` is that of the array `filter`. -/
structure BRBloomFilter where
  filter : Bytes
  hashFuncs : UInt32
  elemCount : UInt64 := 0
  tweak : UInt32
  flags : UInt8
  deriving DecidableEq, Repr

namespace BRBloomFilter

variable (f : BRBloomFilter)

def length : ℕ := f.filter.length

/-- `_BloomFilterHash`. -/
def hash (data : Bytes) (hashNum : UInt32) : Option ℕ :=
  if f.length * 8 = 0 then none
  else some ((murmur3_32 data (hashNum * 0xfba4c795 + f.tweak)).toNat % (f.length * 8))

/-- `BRBloomFilterNew`; the floating-point formulas give `length` and `hashFuncs`. -/
def new (length : ℕ) (hashFuncs tweak : UInt32) (flags : UInt8) : BRBloomFilter :=
  let length := if length > BLOOM_MAX_FILTER_LENGTH then BLOOM_MAX_FILTER_LENGTH else length
  let length := if length < 1 then 1 else length
  { filter := List.replicate length 0
    hashFuncs := if hashFuncs > BLOOM_MAX_HASH_FUNCS then BLOOM_MAX_HASH_FUNCS else hashFuncs
    tweak, flags }

/-- The filter in a buffer; what is missing behind its bytes is zero. -/
def fieldsIn (buf : Bytes) : BRBloomFilter :=
  let (length, off) := varInt buf
  let hashOff := off + length
  { filter := (buf.drop off).take length
    hashFuncs := UInt32.ofNat ((getLE buf hashOff 4).getD 0)
    tweak := UInt32.ofNat ((getLE buf (hashOff + 4) 4).getD 0)
    flags := buf.getD (hashOff + 8) 0 }

/-- `BRBloomFilterParse`; `malloc` is whether so many bytes are allocated. -/
def parse (malloc : ℕ → Bool) (buf : Bytes) : Option BRBloomFilter :=
  let (length, off) := varInt buf
  if length ≤ BLOOM_MAX_FILTER_LENGTH ∧ off + length ≤ buf.length ∧ malloc length then
    some (fieldsIn buf)
  else none

/-- `BRBloomFilterSerialize`, into a buffer with room for the filter. -/
def serialize : Bytes :=
  varIntBytes f.length ++ (f.filter ++ (toLE 4 f.hashFuncs.toNat ++ (toLE 4 f.tweak.toNat ++
    [f.flags])))

/-- The loop of `BRBloomFilterContainsData` over the hash functions that are left. -/
def containsFrom (data : Bytes) : List ℕ → Option Bool
  | [] => some true
  | i :: is => do
    let idx ← f.hash data (UInt32.ofNat i)
    if ← bitSet f.filter idx then containsFrom data is else some false

/-- `BRBloomFilterContainsData`; the data are `none` for `NULL`. -/
def containsData : Option Bytes → Option Bool
  | none => some false
  | some data => f.containsFrom data (List.range f.hashFuncs.toNat)

/-- `BRBloomFilterInsertData`. -/
def insertData : Option Bytes → Option BRBloomFilter
  | none => some f
  | some data => do
    let filter ← (List.range f.hashFuncs.toNat).foldlM (fun filter i => do
      let idx ← f.hash data (UInt32.ofNat i)
      setBit filter idx) f.filter
    some { f with filter, elemCount := f.elemCount + 1 }

/-- Inserts the items, one after the other. -/
def insertAll (items : List (Option Bytes)) : Option BRBloomFilter := items.foldlM insertData f

/-- Insertions and lookups stay inside the filter and never divide by zero. -/
def Safe : Prop :=
  ∀ items, ∃ g, f.insertAll items = some g ∧ ∀ data, (g.containsData data).isSome

/-! ## Positions -/

/-- The bits of an item. -/
def positions (data : Bytes) : List ℕ :=
  (List.range f.hashFuncs.toNat).map fun i =>
    (murmur3_32 data (UInt32.ofNat i * 0xfba4c795 + f.tweak)).toNat % (f.length * 8)

/-- The filters have the same positions. -/
structure Alike (f g : BRBloomFilter) : Prop where
  length : g.length = f.length
  hashFuncs : g.hashFuncs = f.hashFuncs
  tweak : g.tweak = f.tweak

section
variable {f g h : BRBloomFilter} {data : Bytes}

theorem Alike.refl (f : BRBloomFilter) : f.Alike f := ⟨rfl, rfl, rfl⟩

theorem Alike.trans (hfg : f.Alike g) (hgh : g.Alike h) : f.Alike h :=
  ⟨hgh.length.trans hfg.length, hgh.hashFuncs.trans hfg.hashFuncs, hgh.tweak.trans hfg.tweak⟩

theorem Alike.positions (h : f.Alike g) (data : Bytes) : g.positions data = f.positions data := by
  rw [BRBloomFilter.positions, BRBloomFilter.positions, h.length, h.hashFuncs, h.tweak]

theorem hash_of_pos (hf : 0 < f.length) (data : Bytes) (i : UInt32) : f.hash data i =
    some ((murmur3_32 data (i * 0xfba4c795 + f.tweak)).toNat % (f.length * 8)) :=
  if_neg (by omega)

variable (data) in
theorem positions_lt (hf : 0 < f.length) : ∀ idx ∈ f.positions data, idx < 8 * f.length := by
  intro idx hidx
  obtain ⟨i, -, rfl⟩ := List.mem_map.1 hidx
  rw [Nat.mul_comm 8]
  exact Nat.mod_lt _ (by omega)

/-- An insertion sets the bits of the item. -/
theorem insertData_some (hf : 0 < f.length) (data : Bytes) :
    ∃ g, f.insertData (some data) = some g ∧ f.Alike g ∧
      ∀ j, bitSet g.filter j = some true ↔
        bitSet f.filter j = some true ∨ j ∈ f.positions data := by
  obtain ⟨filter, hfold, hlen, hbits⟩ := foldlM_setBit (positions_lt data hf)
  refine ⟨{ f with filter, elemCount := f.elemCount + 1 }, ?_, ⟨hlen, rfl, rfl⟩, hbits⟩
  rw [positions, List.foldlM_map] at hfold
  simp only [insertData, hash_of_pos hf, Option.bind_eq_bind, Option.bind_some, hfold]

theorem containsFrom_eq (hf : 0 < f.length) (data : Bytes) (is : List ℕ) :
    f.containsFrom data is = some (decide (∀ i ∈ is, bitSet f.filter
      ((murmur3_32 data (UInt32.ofNat i * 0xfba4c795 + f.tweak)).toNat % (f.length * 8)) =
        some true)) := by
  induction is with
  | nil => simp [containsFrom]
  | cons i is ih =>
    set idx := (murmur3_32 data (UInt32.ofNat i * 0xfba4c795 + f.tweak)).toNat % (f.length * 8)
      with hidx
    have hlt : idx / 8 < f.filter.length := by
      have hmod : idx < f.length * 8 := Nat.mod_lt _ (by omega)
      rw [length] at hmod
      omega
    obtain ⟨b, hb⟩ : ∃ b, bitSet f.filter idx = some b := by
      rw [bitSet, List.getElem?_eq_getElem hlt]
      exact ⟨_, rfl⟩
    rw [containsFrom, hash_of_pos hf, ← hidx]
    simp only [Option.bind_eq_bind, Option.bind_some, hb, List.forall_mem_cons, ← hidx, ih]
    cases b <;> simp

/-- What a lookup finds. -/
theorem containsData_iff (hf : 0 < f.length) (data : Bytes) :
    f.containsData (some data) =
      some (decide (∀ idx ∈ f.positions data, bitSet f.filter idx = some true)) := by
  rw [containsData, containsFrom_eq hf, positions]
  simp only [List.forall_mem_map]

/-- What the filter contains. -/
def Found (f : BRBloomFilter) (data : Bytes) : Prop := f.containsData (some data) = some true

theorem found_iff (hf : 0 < f.length) :
    f.Found data ↔ ∀ idx ∈ f.positions data, bitSet f.filter idx = some true := by
  rw [Found, containsData_iff hf, Option.some_inj, decide_eq_true_iff]

/-- One insertion: the filter keeps its positions, and what was found is found. -/
theorem insertData_spec (hf : 0 < f.length) (item : Option Bytes) :
    ∃ g, f.insertData item = some g ∧ f.Alike g ∧ (∀ data, f.Found data → g.Found data) ∧
      ∀ data, item = some data → g.Found data := by
  cases item with
  | none => exact ⟨f, rfl, Alike.refl f, fun _ h => h, nofun⟩
  | some data =>
    obtain ⟨g, hg, hlike, hbits⟩ := insertData_some hf data
    have hpos : 0 < g.length := by rwa [hlike.length]
    refine ⟨g, hg, hlike, ?_, ?_⟩
    · intro other h
      rw [found_iff hpos, hlike.positions]
      exact fun idx hidx => (hbits idx).2 (Or.inl ((found_iff hf).1 h idx hidx))
    · intro other hother
      obtain rfl := Option.some.inj hother
      rw [found_iff hpos, hlike.positions]
      exact fun idx hidx => (hbits idx).2 (Or.inr hidx)

/-- A sequence of insertions: all that was found or inserted is found. -/
theorem insertAll_spec (hf : 0 < f.length) (items : List (Option Bytes)) :
    ∃ g, f.insertAll items = some g ∧ f.Alike g ∧ (∀ data, f.Found data → g.Found data) ∧
      ∀ data, some data ∈ items → g.Found data := by
  induction items generalizing f with
  | nil => exact ⟨f, rfl, Alike.refl f, fun _ h => h, fun _ h => absurd h (by simp)⟩
  | cons item items ih =>
    obtain ⟨g, hg, hlike, hkeep, hitem⟩ := insertData_spec hf item
    obtain ⟨last, hlast, hlike', hkeep', hitems⟩ := ih (f := g) (by rwa [hlike.length])
    refine ⟨last, ?_, hlike.trans hlike', fun data h => hkeep' data (hkeep data h), ?_⟩
    · rw [insertAll, List.foldlM_cons, hg]
      exact hlast
    · intro data hdata
      rcases List.mem_cons.1 hdata with h | h
      · exact hkeep' data (hitem data h.symm)
      · exact hitems data h

/-! ## Safety -/

theorem safe_of_pos (hf : 0 < f.length) : f.Safe := by
  intro items
  obtain ⟨g, hg, hlike, -⟩ := insertAll_spec hf items
  refine ⟨g, hg, fun data => ?_⟩
  cases data with
  | none => rfl
  | some data => rw [containsData_iff (by rwa [hlike.length])]; rfl

/-- Without hash functions nothing is computed. -/
theorem insertAll_unhashed (hf : f.hashFuncs = 0) (items : List (Option Bytes)) :
    ∃ g, f.insertAll items = some g ∧ g.hashFuncs = 0 := by
  induction items generalizing f with
  | nil => exact ⟨f, rfl, hf⟩
  | cons item items ih =>
    obtain ⟨g, hg, hhash⟩ : ∃ g, f.insertData item = some g ∧ g.hashFuncs = 0 := by
      cases item with
      | none => exact ⟨f, rfl, hf⟩
      | some data => exact ⟨{ f with elemCount := f.elemCount + 1 }, by simp [insertData, hf], hf⟩
    obtain ⟨last, hlast, hlast'⟩ := ih hhash
    refine ⟨last, ?_, hlast'⟩
    rw [insertAll, List.foldlM_cons, hg]
    exact hlast

/-- The filters that are safe: those with a byte, or without hash functions. -/
theorem safe_iff : f.Safe ↔ f.length ≠ 0 ∨ f.hashFuncs = 0 := by
  constructor
  · intro h
    by_contra hbad
    push Not at hbad
    obtain ⟨hlen, hhash⟩ := hbad
    obtain ⟨g, hg, hlook⟩ := h []
    obtain rfl := Option.some.inj hg
    obtain ⟨n, hn⟩ : ∃ n, f.hashFuncs.toNat = n + 1 := by
      refine Nat.exists_eq_succ_of_ne_zero fun h0 => hhash ?_
      exact UInt32.toNat_inj.1 h0
    have hnone : f.containsData (some []) = none := by
      rw [containsData, hn, List.range_succ_eq_map, containsFrom, hash, if_pos (by omega)]
      rfl
    simpa [hnone] using hlook (some [])
  · rintro (hlen | hhash)
    · exact safe_of_pos (Nat.pos_of_ne_zero hlen)
    · intro items
      obtain ⟨g, hg, hhash'⟩ := insertAll_unhashed hhash items
      refine ⟨g, hg, fun data => ?_⟩
      cases data with
      | none => rfl
      | some data => simp [containsData, hhash', containsFrom]

/-! ## The codec -/

section
variable {malloc : ℕ → Bool} {buf : Bytes}

theorem parse_eq_some : parse malloc buf = some f ↔ (varInt buf).1 ≤ BLOOM_MAX_FILTER_LENGTH ∧
    (varInt buf).2 + (varInt buf).1 ≤ buf.length ∧ malloc (varInt buf).1 = true ∧
      f = fieldsIn buf := by
  simp only [parse, Option.ite_none_right_eq_some, Option.some_inj, and_assoc, eq_comm (b := f)]

theorem length_fieldsIn (h : (varInt buf).2 + (varInt buf).1 ≤ buf.length) :
    (fieldsIn buf).length = (varInt buf).1 := by
  simp only [length, fieldsIn, List.length_take, List.length_drop]
  omega

/-- The codec keeps a filter of at most the largest size, less the number of its elements. -/
theorem parse_of_serialize (hf : f.length ≤ BLOOM_MAX_FILTER_LENGTH) :
    parse malloc f.serialize =
      if malloc f.length then some { f with elemCount := 0 } else none := by
  have h₀ : At f.serialize 0 (varIntBytes f.length ++ (f.filter ++ (toLE 4 f.hashFuncs.toNat ++
      (toLE 4 f.tweak.toNat ++ [f.flags])))) := At.zero _
  have h₁ := h₀.varInt
  rw [Nat.zero_add] at h₁
  have h₂ : At f.serialize (varIntSize f.length + f.length) (toLE 4 f.hashFuncs.toNat ++
      (toLE 4 f.tweak.toNat ++ [f.flags])) := h₁.next
  have h₃ := h₂.toLE
  have hvar : varInt f.serialize = (f.length, varIntSize f.length) :=
    varInt_varIntBytes (lt_of_le_of_lt hf (by decide)) _
  have hfilter : (f.serialize.drop (varIntSize f.length)).take f.length = f.filter := by
    rw [h₁.drop_eq]
    exact List.take_left
  have hflags : f.serialize[varIntSize f.length + f.length + 8]? = some f.flags := by
    obtain ⟨a, ha, ho⟩ := h₃.toLE
    exact getElem?_parts ha ho
  have hfields : fieldsIn f.serialize = { f with elemCount := 0 } := by
    rw [fieldsIn, hvar]
    dsimp only
    rw [hfilter, h₂.getLE f.hashFuncs.toNat_lt, h₃.getLE f.tweak.toNat_lt,
      List.getD_eq_getElem?_getD, hflags]
    simp only [Option.getD_some, UInt32.ofNat_toNat]
  rw [parse, hvar, hfields]
  simp only [hf, h₂.le, true_and]

/-- The buffer has a filter of no bytes, with hash functions. -/
def DeclaresEmpty (buf : Bytes) : Prop :=
  (varInt buf).1 = 0 ∧ ∃ n, n ≠ 0 ∧ getLE buf (varInt buf).2 4 = some n

/-- The accepted filters are safe, unless one of no bytes is accepted with hash functions. -/
theorem parse_safe_iff (malloc : ℕ → Bool) (buf : Bytes) :
    (∀ f, parse malloc buf = some f → f.Safe) ↔ ¬ (malloc 0 = true ∧ DeclaresEmpty buf) := by
  constructor
  · rintro h ⟨hm, hzero, n, hn, hget⟩
    have hle : (varInt buf).2 + 4 ≤ buf.length := by
      by_contra hlt
      rw [getLE_eq_none.2 (by omega)] at hget
      cases hget
    have hn32 : n < 2 ^ 32 := by
      have hlt := ofLE_lt ((buf.drop (varInt buf).2).take 4)
      rw [List.length_take_of_le (by rw [List.length_drop]; omega)] at hlt
      rw [getLE_of_le hle] at hget
      rwa [Option.some.inj hget] at hlt
    have hlen : (fieldsIn buf).length = 0 := by rw [length_fieldsIn (by omega), hzero]
    have hhash : (fieldsIn buf).hashFuncs.toNat = n := by
      simp only [fieldsIn, hzero, Nat.add_zero, hget, Option.getD_some,
        UInt32.toNat_ofNat_of_lt' hn32]
    have hparse : parse malloc buf = some (fieldsIn buf) := by
      rw [parse_eq_some, hzero]
      exact ⟨Nat.zero_le _, by omega, hm, rfl⟩
    rcases safe_iff.1 (h _ hparse) with h0 | h0
    · exact h0 hlen
    · rw [h0] at hhash
      exact hn hhash.symm
  · intro h f hf
    obtain ⟨-, hle, hm, rfl⟩ := parse_eq_some.1 hf
    refine safe_iff.2 ?_
    by_contra hbad
    push Not at hbad
    obtain ⟨hlen, hhash⟩ := hbad
    rw [length_fieldsIn hle] at hlen
    rw [hlen] at hm
    refine h ⟨hm, hlen, ?_⟩
    simp only [fieldsIn, hlen, Nat.add_zero] at hhash
    cases hget : getLE buf (varInt buf).2 4 with
    | none => simp [hget] at hhash
    | some n =>
      refine ⟨n, ?_, rfl⟩
      rintro rfl
      simp [hget] at hhash

end

/-! ## No false negatives -/

theorem length_new (length : ℕ) (hashFuncs tweak : UInt32) (flags : UInt8) :
    0 < (new length hashFuncs tweak flags).length ∧
      (new length hashFuncs tweak flags).length ≤ BLOOM_MAX_FILTER_LENGTH := by
  rw [BRBloomFilter.length, new, List.length_replicate]
  by_cases hmax : length > BLOOM_MAX_FILTER_LENGTH
  · rw [if_pos hmax]
    decide
  · rw [if_neg hmax]
    split_ifs with h1
    · decide
    · exact ⟨by omega, Nat.le_of_not_lt hmax⟩

/-- What was inserted into a new filter is found, also after the codec and more insertions.  A
    parsed filter is safe unless it has no bytes and uses hash functions. -/
theorem bloomFilter_contains (malloc : ℕ → Bool) :
    (∀ length hashFuncs tweak flags items,
      ∃ f, (new length hashFuncs tweak flags).insertAll items = some f ∧
        (∀ data, some data ∈ items → f.Found data) ∧
        (malloc f.length = true → (parse malloc f.serialize).isSome) ∧
        ∀ f', parse malloc f.serialize = some f' → f'.Safe ∧
          ∀ more g, f'.insertAll more = some g → ∀ data, some data ∈ items ++ more → g.Found data) ∧
    ∀ buf, (∀ f, parse malloc buf = some f → f.Safe) ↔ ¬ (malloc 0 = true ∧ DeclaresEmpty buf) := by
  refine ⟨fun length hashFuncs tweak flags items => ?_, parse_safe_iff malloc⟩
  obtain ⟨hpos, hmax⟩ := length_new length hashFuncs tweak flags
  obtain ⟨f, hf, hlike, -, hfound⟩ := insertAll_spec hpos items
  rw [← hlike.length] at hpos hmax
  refine ⟨f, hf, hfound, fun hm => by rw [parse_of_serialize hmax, if_pos hm]; rfl,
    fun f' hf' => ?_⟩
  rw [parse_of_serialize hmax] at hf'
  split_ifs at hf' with hm
  obtain rfl := Option.some.inj hf'
  refine ⟨safe_of_pos hpos, fun more g hg data hdata => ?_⟩
  obtain ⟨g', hg', -, hkeep, hmore⟩ := insertAll_spec (f := { f with elemCount := 0 }) hpos more
  obtain rfl := Option.some.inj (hg'.symm.trans hg)
  have hkept : ∀ data, f.Found data → Found { f with elemCount := 0 } data := fun data h =>
    (found_iff (f := { f with elemCount := 0 }) hpos).2 ((found_iff hpos).1 h)
  rcases List.mem_append.1 hdata with h | h
  · exact hkeep data (hkept data (hfound data h))
  · exact hmore data h

/-- A buffer of five bytes has a filter that divides by zero. -/
theorem not_bloomFilter_safe :
    ¬ ∀ buf f, parse (fun _ => true) buf = some f → f.Safe := by
  intro h
  rcases safe_iff.1 (h [0, 1, 0, 0, 0] _ rfl) with hlen | hhash
  · exact hlen rfl
  · exact absurd hhash (by decide)

end

end BRBloomFilter

end RavenWallet
