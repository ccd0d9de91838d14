/-
  Query strings (`buildQueryString`, `urlEscapedString` and `parseQueryString` of
  Extensions.swift).

  A string is its UTF-8 bytes, and a dictionary the list of its entries, in the
  order in which it is iterated.  What traps is `none`.

  * `percentDecode_eq_some`: what is decoded, and from what;
  * `parse_build`: the pairs of a query string come back with their plus
    signs as spaces;
  * `queryString_iff`: which dictionaries come back, and what can be parsed.
-/
import RavenWallet.Lib.Word
import RavenWallet.Platform.WebSocket

namespace RavenWallet

/-! ## Percent encoding -/

/-- `urlQuoteCharacterSet`: the characters of `urlQueryAllowed` but `?`, `=` and `&`. -/
def urlQuoteCharacterSet (c : UInt8) : Bool :=
  (48 ≤ c ∧ c ≤ 57) ∨ (65 ≤ c ∧ c ≤ 90) ∨ (97 ≤ c ∧ c ≤ 122) ∨
    -- the characters -._~!$'()*+,;:@/
    c ∈ [45, 46, 95, 126, 33, 36, 39, 40, 41, 42, 43, 44, 59, 58, 64, 47]

def upperHex (d : UInt8) : UInt8 := if d < 10 then d + 48 else d + 55

def urlEscapedString (str : Bytes) : Bytes :=
  str.flatMap fun c =>
    if urlQuoteCharacterSet c then [c] else [37, upperHex (c / 16), upperHex (c % 16)]

def hexValue (c : UInt8) : Option UInt8 :=
  if 48 ≤ c ∧ c ≤ 57 then some (c - 48)
  else if 65 ≤ c ∧ c ≤ 70 then some (c - 55)
  else if 97 ≤ c ∧ c ≤ 102 then some (c - 87)
  else none

/-- The bytes that a string with percent escapes stands for. -/
def percentDecode : Bytes → Option Bytes
  | [] => some []
  | 37 :: a :: b :: rest => do
    let hi ← hexValue a
    let lo ← hexValue b
    let bytes ← percentDecode rest
    some ((16 * hi + lo) :: bytes)
  | c :: rest => if c = 37 then none else (percentDecode rest).map fun bytes => c :: bytes

/-- `removingPercentEncoding`; what is decoded has to be UTF-8. -/
def removingPercentEncoding (str : Bytes) : Option Bytes :=
  (percentDecode str).filter fun bytes => (decodeUTF8 bytes).isSome

/-! ## The two functions -/

/-- The body of the two loops of `buildQueryString`, with the string so far and `i`. -/
def appendPair (p : Bytes × ℕ) (k v : Bytes) : Bytes × ℕ :=
  ((if p.2 ≠ 0 then p.1 ++ [38] else p.1) ++ urlEscapedString k ++ 61 :: urlEscapedString v,
    p.2 + 1)

def buildQueryString (options : Option (List (Bytes × List Bytes))) (includeQ : Bool) : Bytes :=
  match options with
  | none => []
  | some options =>
    if options.length > 0 then
      (options.foldl (fun p entry => entry.2.foldl (fun p v => appendPair p entry.1 v) p)
        (if includeQ then [63] else [], 0)).1
    else []

def plusToSpace (c : UInt8) : UInt8 := if c = 43 then 32 else c

/-- The body of the loop of `parseQueryString`; a further value is appended to a copy. -/
def addPart (ret : List (Bytes × List Bytes)) (s : Bytes) : List (Bytes × List Bytes) :=
  match s.splitOn 61 with
  | [key, value] => if (ret.lookup key).isSome then ret else ret ++ [(key, [value])]
  | _ => ret

/-- The string without a question mark in front; the index behind the first character of the empty
    string traps. -/
def stripQuestionMark : Bytes → Option Bytes
  | [] => none
  | c :: rest => some (if c = 63 then rest else c :: rest)

def parseQueryString (str : Bytes) : Option (List (Bytes × List Bytes)) := do
  let stripped ← stripQuestionMark str
  let decoded ← removingPercentEncoding (stripped.map plusToSpace)
  some ((decoded.splitOn 38).foldl addPart [])

/-! ## What is decoded -/

/-- A string stands for bytes. -/
inductive PercentEncodes : Bytes → Bytes → Prop
  | nil : PercentEncodes [] []
  | literal {c : UInt8} {str bytes : Bytes} (hc : c ≠ 37) (h : PercentEncodes str bytes) :
    PercentEncodes (c :: str) (c :: bytes)
  | escape {a b hi lo : UInt8} {str bytes : Bytes} (ha : hexValue a = some hi)
    (hb : hexValue b = some lo) (h : PercentEncodes str bytes) :
    PercentEncodes (37 :: a :: b :: str) ((16 * hi + lo) :: bytes)

theorem percentDecode_cons {c : UInt8} (hc : c ≠ 37) (rest : Bytes) :
    percentDecode (c :: rest) = (percentDecode rest).map fun bytes => c :: bytes := by
  rw [percentDecode, if_neg hc]
  rintro a b rest' rfl
  exact absurd rfl hc

theorem percentDecode_eq_some {str bytes : Bytes} :
    percentDecode str = some bytes ↔ PercentEncodes str bytes := by
  constructor
  · intro h
    induction str using percentDecode.induct generalizing bytes with
    | case1 =>
      obtain rfl := Option.some.inj h
      exact .nil
    | case2 a b rest ih =>
      rw [percentDecode] at h
      simp only [Option.bind_eq_bind, Option.bind_eq_some_iff] at h
      obtain ⟨hi, ha, lo, hb, bytes', hrest, heq⟩ := h
      obtain rfl := Option.some.inj heq
      exact .escape ha hb (ih hrest)
    | case3 rest hno =>
      rw [percentDecode, if_pos rfl] at h
      · cases h
      · exact hno
    | case4 c rest hno hc ih =>
      rw [percentDecode_cons hc] at h
      obtain ⟨bytes', hrest, rfl⟩ := Option.map_eq_some_iff.1 h
      exact .literal hc (ih hrest)
  · intro h
    induction h with
    | nil => rfl
    | literal hc h ih => rw [percentDecode_cons hc, ih, Option.map_some]
    | escape ha hb h ih =>
      rw [percentDecode, ha, hb, ih]
      rfl

theorem PercentEncodes.append {str str' bytes bytes' : Bytes} (h : PercentEncodes str bytes)
    (h' : PercentEncodes str' bytes') : PercentEncodes (str ++ str') (bytes ++ bytes') := by
  induction h with
  | nil => exact h'
  | literal hc h ih => exact .literal hc ih
  | escape ha hb h ih => exact .escape ha hb ih

/-- What the escapes of a character are, with its plus sign as a space. -/
theorem escape_spec (c : UInt8) :
    (urlQuoteCharacterSet c = true → plusToSpace c ≠ 37) ∧
    (urlQuoteCharacterSet c = false → plusToSpace c = c ∧
      hexValue (plusToSpace (upperHex (c / 16))) = some (c / 16) ∧
        hexValue (plusToSpace (upperHex (c % 16))) = some (c % 16) ∧
          16 * (c / 16) + c % 16 = c) :=
  forall_uint8 (P := fun c =>
    (urlQuoteCharacterSet c = true → plusToSpace c ≠ 37) ∧
    (urlQuoteCharacterSet c = false → plusToSpace c = c ∧
      hexValue (plusToSpace (upperHex (c / 16))) = some (c / 16) ∧
        hexValue (plusToSpace (upperHex (c % 16))) = some (c % 16) ∧
          16 * (c / 16) + c % 16 = c)) (by decide +kernel) c

/-- An escaped string comes back with its plus signs as spaces. -/
theorem percentEncodes_escaped (str : Bytes) :
    PercentEncodes ((urlEscapedString str).map plusToSpace) (str.map plusToSpace) := by
  induction str with
  | nil => exact .nil
  | cons c str ih =>
    rw [urlEscapedString, List.flatMap_cons, ← urlEscapedString, List.map_append, List.map_cons]
    cases hc : urlQuoteCharacterSet c with
    | true => exact .literal ((escape_spec c).1 hc) ih
    | false =>
      obtain ⟨hplus, hhi, hlo, hsum⟩ := (escape_spec c).2 hc
      have hescape := PercentEncodes.escape hhi hlo ih
      rw [hsum] at hescape
      rw [hplus]
      exact hescape

/-- The text of a pair, and what it stands for. -/
def pairText (p : Bytes × Bytes) : Bytes := urlEscapedString p.1 ++ 61 :: urlEscapedString p.2

def pairPlain (p : Bytes × Bytes) : Bytes := p.1 ++ 61 :: p.2

/-- The pairs come back, joined and with their plus signs as spaces. -/
theorem percentEncodes_pairs (pairs : List (Bytes × Bytes)) :
    PercentEncodes (([38].intercalate (pairs.map pairText)).map plusToSpace)
      (([38].intercalate (pairs.map pairPlain)).map plusToSpace) := by
  have hpair (p : Bytes × Bytes) :
      PercentEncodes ((pairText p).map plusToSpace) ((pairPlain p).map plusToSpace) := by
    rw [pairText, pairPlain, List.map_append, List.map_append]
    exact (percentEncodes_escaped p.1).append
      (.literal (by decide) (percentEncodes_escaped p.2))
  induction pairs with
  | nil => exact .nil
  | cons p pairs ih =>
    cases pairs with
    | nil => simpa using hpair p
    | cons q pairs =>
      simp only [List.map_cons, List.intercalate_cons_cons, List.map_append] at ih ⊢
      exact ((hpair p).append (.literal (by decide) .nil)).append ih

/-! ## What is built -/

/-- A pair for each value, in order. -/
def pairsOf (options : List (Bytes × List Bytes)) : List (Bytes × Bytes) :=
  options.flatMap fun entry => entry.2.map fun v => (entry.1, v)

theorem foldl_appendPair (pairs : List (Bytes × Bytes)) (s : Bytes) {i : ℕ} (hi : i ≠ 0) :
    (pairs.foldl (fun p q => appendPair p q.1 q.2) (s, i)).1 =
      s ++ pairs.flatMap fun q => 38 :: pairText q := by
  induction pairs generalizing s i with
  | nil => exact (List.append_nil s).symm
  | cons q pairs ih =>
    rw [List.foldl_cons, appendPair, if_pos hi, ih _ (Nat.succ_ne_zero i), List.flatMap_cons,
      pairText]
    simp

theorem intercalate_cons (s : Bytes) (l : List Bytes) :
    [38].intercalate (s :: l) = s ++ l.flatMap fun t => 38 :: t := by
  induction l generalizing s with
  | nil => simp
  | cons t l ih =>
    rw [List.intercalate_cons_cons, ih, List.flatMap_cons]
    simp

/-- The texts of the pairs, joined. -/
theorem buildQueryString_eq {options : List (Bytes × List Bytes)} (h : options ≠ [])
    (includeQ : Bool) :
    buildQueryString (some options) includeQ =
      (if includeQ then [63] else []) ++ [38].intercalate ((pairsOf options).map pairText) := by
  have hloop (p : Bytes × ℕ) :
      options.foldl (fun p entry => entry.2.foldl (fun p v => appendPair p entry.1 v) p) p =
        (pairsOf options).foldl (fun p q => appendPair p q.1 q.2) p := by
    rw [pairsOf, List.foldl_flatMap]
    simp only [List.foldl_map]
  rw [buildQueryString, if_pos (List.length_pos_iff.2 h), hloop]
  cases pairsOf options with
  | nil => exact (List.append_nil _).symm
  | cons q pairs =>
    rw [List.foldl_cons, appendPair, if_neg (not_not_intro rfl),
      foldl_appendPair _ _ (Nat.succ_ne_zero 0), List.map_cons, intercalate_cons,
      List.flatMap_map, pairText]
    simp

/-- The text of a pair does not begin with a question mark. -/
theorem pairText_cons (p : Bytes × Bytes) : ∃ c rest, pairText p = c :: rest ∧ c ≠ 63 := by
  have hchar : urlQuoteCharacterSet 63 = false := by decide
  rw [pairText, urlEscapedString]
  cases p.1 with
  | nil => exact ⟨61, _, rfl, by decide⟩
  | cons c k =>
    rw [List.flatMap_cons]
    split_ifs with hc
    · refine ⟨c, _, rfl, ?_⟩
      rintro rfl
      rw [hchar] at hc
      cases hc
    · exact ⟨37, _, rfl, by decide⟩

/-- The question mark is taken off again. -/
theorem stripQuestionMark_build (options : List (Bytes × List Bytes)) (includeQ : Bool) :
    stripQuestionMark (buildQueryString (some options) includeQ) =
      if buildQueryString (some options) includeQ = [] then none
      else some ([38].intercalate ((pairsOf options).map pairText)) := by
  split_ifs with hnil
  · rw [hnil]
    rfl
  · have hne : options ≠ [] := by
      rintro rfl
      exact hnil rfl
    rw [buildQueryString_eq hne] at hnil ⊢
    cases includeQ with
    | true => rfl
    | false =>
      rw [if_neg Bool.false_ne_true, List.nil_append] at hnil ⊢
      cases hpairs : pairsOf options with
      | nil =>
        rw [hpairs] at hnil
        exact absurd rfl hnil
      | cons p pairs =>
        obtain ⟨c, rest, htext, hc⟩ := pairText_cons p
        rw [List.map_cons, intercalate_cons, htext, List.cons_append, stripQuestionMark,
          if_neg hc]

/-! ## What is parsed -/

/-- No character of a string is a plus sign or a separator. -/
def IsPlain (str : Bytes) : Prop := ∀ b ∈ str, b ≠ 43 ∧ b ≠ 38 ∧ b ≠ 61

/-- What a part adds has one value, and no separators. -/
theorem mem_addPart {ret : List (Bytes × List Bytes)} {s : Bytes} {entry : Bytes × List Bytes}
    (hs : ∀ b ∈ s, b ≠ 43 ∧ b ≠ 38) (h : entry ∈ addPart ret s) :
    entry ∈ ret ∨ ∃ v, entry.2 = [v] ∧ IsPlain entry.1 ∧ IsPlain v := by
  unfold addPart at h
  split at h
  · rename_i key value hsplit
    split_ifs at h
    · exact Or.inl h
    · refine (List.mem_append.1 h).imp_right fun h => ?_
      have hplain (piece : Bytes) (hmem : piece ∈ s.splitOn 61) : IsPlain piece := fun b hb =>
        ⟨(hs b (mem_splitOn hmem b hb).1).1, (hs b (mem_splitOn hmem b hb).1).2,
          (mem_splitOn hmem b hb).2⟩
      rw [List.mem_singleton.1 h]
      exact ⟨value, rfl, hplain key (by simp [hsplit]), hplain value (by simp [hsplit])⟩
  · exact Or.inl h

theorem mem_foldl_addPart {parts : List Bytes} {ret : List (Bytes × List Bytes)}
    {entry : Bytes × List Bytes} (hparts : ∀ s ∈ parts, ∀ b ∈ s, b ≠ 43 ∧ b ≠ 38)
    (h : entry ∈ parts.foldl addPart ret) :
    entry ∈ ret ∨ ∃ v, entry.2 = [v] ∧ IsPlain entry.1 ∧ IsPlain v := by
  induction parts generalizing ret with
  | nil => exact Or.inl h
  | cons s parts ih =>
    rcases ih (fun t ht => hparts t (List.mem_cons_of_mem _ ht)) h with hadd | hright
    · exact mem_addPart (hparts s List.mem_cons_self) hadd
    · exact Or.inr hright

/-- A pair of plain strings is added, unless there is its key. -/
theorem addPart_pairPlain {ret : List (Bytes × List Bytes)} {p : Bytes × Bytes}
    (hkey : IsPlain p.1) (hvalue : IsPlain p.2) (hnew : ret.lookup p.1 = none) :
    addPart ret (pairPlain p) = ret ++ [(p.1, [p.2])] := by
  have hsplit : (pairPlain p).splitOn 61 = [p.1, p.2] := by
    rw [pairPlain, List.splitOn_append_cons_self_of_not_mem fun h => (hkey 61 h).2.2 rfl,
      List.splitOn_eq_singleton fun h => (hvalue 61 h).2.2 rfl]
  rw [addPart, hsplit]
  simp only [hnew, Option.isSome_none, Bool.false_eq_true, if_false]

/-- A pair of plain strings contains no plus sign, and no separator of pairs. -/
theorem ne_of_mem_pairPlain {p : Bytes × Bytes} (h : IsPlain p.1 ∧ IsPlain p.2) :
    ∀ b ∈ pairPlain p, b ≠ 43 ∧ b ≠ 38 := by
  intro b hb
  rcases List.mem_append.1 hb with hkey | hvalue
  · exact ⟨(h.1 b hkey).1, (h.1 b hkey).2.1⟩
  · rcases List.mem_cons.1 hvalue with rfl | hvalue
    · decide
    · exact ⟨(h.2 b hvalue).1, (h.2 b hvalue).2.1⟩

/-- Joined pairs of plain strings have no plus sign to replace. -/
theorem map_plusToSpace_plain {pairs : List (Bytes × Bytes)}
    (h : ∀ p ∈ pairs, IsPlain p.1 ∧ IsPlain p.2) :
    ([38].intercalate (pairs.map pairPlain)).map plusToSpace =
      [38].intercalate (pairs.map pairPlain) := by
  have hpair (p : Bytes × Bytes) (hp : p ∈ pairs) :
      (pairPlain p).map plusToSpace = pairPlain p := by
    refine (List.map_congr_left fun b hb => ?_).trans (List.map_id _)
    exact if_neg (ne_of_mem_pairPlain (h p hp) b hb).1
  induction pairs with
  | nil => rfl
  | cons p pairs ih =>
    have ih := ih (fun q hq => h q (List.mem_cons_of_mem _ hq))
      fun q hq => hpair q (List.mem_cons_of_mem _ hq)
    cases pairs with
    | nil => simpa using hpair p List.mem_cons_self
    | cons q pairs =>
      simp only [List.map_cons, List.intercalate_cons_cons, List.map_append] at ih ⊢
      rw [hpair p List.mem_cons_self, ih]
      rfl

/-- The pairs with their plus signs as spaces, joined again. -/
def joinedText (options : List (Bytes × List Bytes)) : Bytes :=
  ([38].intercalate ((pairsOf options).map pairPlain)).map plusToSpace

theorem parse_build (options : List (Bytes × List Bytes)) (includeQ : Bool) :
    parseQueryString (buildQueryString (some options) includeQ) =
      if buildQueryString (some options) includeQ ≠ [] ∧
        (decodeUTF8 (joinedText options)).isSome then
          some (((joinedText options).splitOn 38).foldl addPart [])
      else none := by
  rw [parseQueryString, stripQuestionMark_build]
  by_cases hnil : buildQueryString (some options) includeQ = []
  · rw [if_pos hnil, if_neg fun h => h.1 hnil]
    rfl
  · have hdecode := percentDecode_eq_some.2 (percentEncodes_pairs (pairsOf options))
    rw [← joinedText] at hdecode
    rw [if_neg hnil, Option.bind_eq_bind, Option.bind_some, removingPercentEncoding, hdecode]
    by_cases hutf8 : (decodeUTF8 (joinedText options)).isSome
    · rw [if_pos ⟨hnil, hutf8⟩, Option.filter_some, if_pos hutf8]
      rfl
    · rw [if_neg fun h => hutf8 h.2, Option.filter_some, if_neg hutf8]
      rfl

/-- What is parsed from a built string has one plain value for each key. -/
theorem mem_parse_build {options ret : List (Bytes × List Bytes)} {includeQ : Bool}
    {entry : Bytes × List Bytes}
    (h : parseQueryString (buildQueryString (some options) includeQ) = some ret)
    (hentry : entry ∈ ret) : ∃ v, entry.2 = [v] ∧ IsPlain entry.1 ∧ IsPlain v := by
  have hplus (c : UInt8) : plusToSpace c ≠ 43 := by
    unfold plusToSpace
    split_ifs with hc
    · decide
    · exact hc
  rw [parse_build] at h
  split_ifs at h
  obtain rfl := Option.some.inj h
  refine (mem_foldl_addPart (fun s hs b hb => ?_) hentry).resolve_left (List.not_mem_nil)
  obtain ⟨hmem, hne⟩ := mem_splitOn hs b hb
  obtain ⟨c, -, rfl⟩ := List.mem_map.1 hmem
  exact ⟨hplus c, hne⟩

theorem foldl_addPart_pairs {pairs : List (Bytes × Bytes)} {ret : List (Bytes × List Bytes)}
    (hplain : ∀ p ∈ pairs, IsPlain p.1 ∧ IsPlain p.2)
    (hnodup : (ret.map Prod.fst ++ pairs.map Prod.fst).Nodup) :
    (pairs.map pairPlain).foldl addPart ret = ret ++ pairs.map fun p => (p.1, [p.2]) := by
  induction pairs generalizing ret with
  | nil => exact (List.append_nil ret).symm
  | cons p pairs ih =>
    obtain ⟨hkey, hvalue⟩ := hplain p List.mem_cons_self
    have hnew : ret.lookup p.1 = none := by
      rw [List.lookup_eq_none_iff]
      intro entry hentry
      have hne := (List.nodup_append.1 hnodup).2.2 entry.1 (List.mem_map_of_mem hentry) p.1
        List.mem_cons_self
      simpa using fun h => hne h.symm
    rw [List.map_cons, List.foldl_cons, addPart_pairPlain hkey hvalue hnew,
      ih (fun q hq => hplain q (List.mem_cons_of_mem _ hq)), List.append_assoc,
      List.singleton_append, List.map_cons]
    rw [List.map_append, List.append_assoc]
    exact hnodup

/-! ## UTF-8 -/

theorem isSome_decodeUTF8 {bs : Bytes} :
    (decodeUTF8 bs).isSome ↔ ByteArray.IsValidUTF8 ⟨bs.toArray⟩ := by
  rw [decodeUTF8, String.fromUTF8?]
  split_ifs with h
  · exact iff_of_true rfl h
  · exact iff_of_false Bool.false_ne_true h

theorem isSome_decodeUTF8_utf8 (str : String) : (decodeUTF8 (utf8 str)).isSome :=
  isSome_decodeUTF8.2 str.isValidUTF8

theorem utf8_append (a b : String) : utf8 (a ++ b) = utf8 a ++ utf8 b := by
  rw [utf8, String.toByteArray_append, ByteArray.data_append, Array.toList_append, utf8, utf8]

theorem utf8_injective : Function.Injective utf8 := by
  intro a b h
  exact String.toByteArray_inj.1 (ByteArray.ext (Array.toList_inj.1 h))

/-- A question mark in front makes no difference. -/
theorem isSome_decodeUTF8_cons (bs : Bytes) :
    (decodeUTF8 (63 :: bs)).isSome ↔ (decodeUTF8 bs).isSome := by
  have hcons : (⟨(63 :: bs).toArray⟩ : ByteArray) = ['?'].utf8Encode ++ ⟨bs.toArray⟩ := by
    refine ByteArray.ext (Array.toList_inj.1 ?_)
    rw [ByteArray.data_append, Array.toList_append, ← String.toByteArray_ofList]
    rfl
  rw [isSome_decodeUTF8, isSome_decodeUTF8, hcons]
  exact ByteArray.isValidUTF8_utf8Encode_singleton_append_iff

/-! ## Dictionaries -/

/-- A dictionary from strings to lists of strings, in the order of its iteration. -/
structure QueryDict where
  entries : List (String × List String)
  nodup : (entries.map Prod.fst).Nodup

namespace QueryDict

variable (d : QueryDict)

/-- Its entries, in bytes. -/
def bytes : List (Bytes × List Bytes) := d.entries.map fun entry => (utf8 entry.1, entry.2.map utf8)

/-- What is parsed from the string that is built has the same values for every key. -/
def ComesBack (includeQ : Bool) : Prop :=
  ∃ ret, parseQueryString (buildQueryString (some d.bytes) includeQ) = some ret ∧
    ∀ key, ret.lookup key = d.bytes.lookup key

variable {d}

theorem nodup_bytes : (d.bytes.map Prod.fst).Nodup := by
  have hkeys : d.bytes.map Prod.fst = (d.entries.map Prod.fst).map utf8 := by
    rw [bytes, List.map_map, List.map_map]
    rfl
  rw [hkeys]
  exact d.nodup.map utf8_injective

theorem lookup_of_mem {dict : List (Bytes × List Bytes)} {entry : Bytes × List Bytes}
    (hnodup : (dict.map Prod.fst).Nodup) (h : entry ∈ dict) :
    dict.lookup entry.1 = some entry.2 := by
  induction dict with
  | nil => cases h
  | cons first dict ih =>
    obtain ⟨hnew, hrest⟩ := List.nodup_cons.1 hnodup
    rcases List.mem_cons.1 h with rfl | hmem
    · exact List.lookup_cons_self
    · have hne : (entry.1 == first.1) = false := by
        rw [beq_eq_false_iff_ne]
        exact fun heq => hnew (heq ▸ List.mem_map_of_mem hmem)
      rw [List.lookup_cons, hne, ih hrest hmem]

/-- The pairs of a dictionary, joined, are a string. -/
theorem exists_utf8_pairs (pairs : List (String × String)) :
    ∃ str, utf8 str = [38].intercalate
      ((pairs.map fun p => (utf8 p.1, utf8 p.2)).map pairPlain) := by
  have hpair (p : String × String) :
      utf8 (p.1 ++ "=" ++ p.2) = pairPlain (utf8 p.1, utf8 p.2) := by
    rw [utf8_append, utf8_append, List.append_assoc]
    rfl
  induction pairs with
  | nil => exact ⟨"", rfl⟩
  | cons p pairs ih =>
    cases pairs with
    | nil => exact ⟨_, (hpair p).trans (by simp)⟩
    | cons q pairs =>
      obtain ⟨str, hstr⟩ := ih
      refine ⟨p.1 ++ "=" ++ p.2 ++ "&" ++ str, ?_⟩
      rw [utf8_append, utf8_append, hpair, hstr]
      simp only [List.map_cons, List.intercalate_cons_cons]
      rfl

/-- A dictionary comes back exactly if it is not empty and has one plain value for each key, with
    plain keys. -/
theorem comesBack_iff (includeQ : Bool) :
    d.ComesBack includeQ ↔ d.entries ≠ [] ∧
      ∀ entry ∈ d.entries, ∃ v, entry.2 = [v] ∧ IsPlain (utf8 entry.1) ∧ IsPlain (utf8 v) := by
  constructor
  · rintro ⟨ret, hret, hlookup⟩
    refine ⟨fun hnil => ?_, fun entry hentry => ?_⟩
    · rw [bytes, hnil] at hret
      cases hret
    · have hmem : (utf8 entry.1, entry.2.map utf8) ∈ d.bytes := List.mem_map_of_mem hentry
      have hvalues : ret.lookup (utf8 entry.1) = some (entry.2.map utf8) := by
        rw [hlookup, lookup_of_mem nodup_bytes hmem]
      obtain ⟨l₁, l₂, rfl, -⟩ := List.lookup_eq_some_iff.1 hvalues
      obtain ⟨v, hv, hkey, hvalue⟩ := mem_parse_build hret
        (List.mem_append_right l₁ List.mem_cons_self)
      obtain ⟨v', hv', rfl⟩ := List.map_eq_singleton_iff.1 hv
      exact ⟨v', hv', hkey, hvalue⟩
  · rintro ⟨hne, hplain⟩
    -- the single values
    set pairs : List (String × String) :=
      d.entries.map fun entry => (entry.1, entry.2.headD "") with hpairs
    set plains : List (Bytes × Bytes) := pairs.map fun p => (utf8 p.1, utf8 p.2) with hplains
    have hbytes : d.bytes = plains.map fun p => (p.1, [p.2]) := by
      rw [bytes, hplains, hpairs, List.map_map, List.map_map]
      refine List.map_congr_left fun entry hentry => ?_
      obtain ⟨v, hv, -⟩ := hplain entry hentry
      simp [hv]
    have hpairsOf : pairsOf d.bytes = plains := by
      rw [hbytes, pairsOf, List.flatMap_map]
      simp
    have hplain' : ∀ p ∈ plains, IsPlain p.1 ∧ IsPlain p.2 := by
      intro p hp
      obtain ⟨q, hq, rfl⟩ := List.mem_map.1 hp
      obtain ⟨entry, hentry, rfl⟩ := List.mem_map.1 hq
      obtain ⟨v, hv, hkey, hvalue⟩ := hplain entry hentry
      simpa [hv] using ⟨hkey, hvalue⟩
    have hne' : plains ≠ [] := by simpa [hplains, hpairs] using hne
    have hplus : joinedText d.bytes = [38].intercalate (plains.map pairPlain) := by
      rw [joinedText, hpairsOf, map_plusToSpace_plain hplain']
    have hsplit : (joinedText d.bytes).splitOn 38 = plains.map pairPlain := by
      rw [hplus]
      refine List.splitOn_intercalate 38 (fun l hl hmem => ?_) (by simpa using hne')
      obtain ⟨p, hp, rfl⟩ := List.mem_map.1 hl
      exact (ne_of_mem_pairPlain (hplain' p hp) 38 hmem).2 rfl
    have hbuild : buildQueryString (some d.bytes) includeQ ≠ [] := by
      obtain ⟨p, rest, heq⟩ := List.exists_cons_of_ne_nil hne'
      obtain ⟨c, text, htext, -⟩ := pairText_cons p
      rw [buildQueryString_eq (by simpa [hbytes] using hne'), hpairsOf, heq, List.map_cons,
        intercalate_cons, htext]
      exact List.append_ne_nil_of_right_ne_nil _ (List.cons_ne_nil _ _)
    have hutf8 : (decodeUTF8 (joinedText d.bytes)).isSome := by
      obtain ⟨str, hstr⟩ := exists_utf8_pairs pairs
      rw [hplus, hplains, ← hstr]
      exact isSome_decodeUTF8_utf8 str
    refine ⟨d.bytes, ?_, fun _ => rfl⟩
    have hnodup := d.nodup_bytes
    rw [parse_build, if_pos ⟨hbuild, hutf8⟩, hsplit]
    rw [foldl_addPart_pairs hplain', List.nil_append, hbytes]
    rw [hbytes, List.map_map] at hnodup
    exact hnodup

end QueryDict

/-- What can be parsed is not empty, and stands for a string if plus signs are read as spaces. -/
theorem parse_ne_none_iff (s : Bytes) :
    parseQueryString s ≠ none ↔
      s ≠ [] ∧ ∃ str, PercentEncodes (s.map plusToSpace) (utf8 str) := by
  have hremove (t : Bytes) : removingPercentEncoding t ≠ none ↔
      ∃ str, PercentEncodes t (utf8 str) := by
    rw [removingPercentEncoding, Option.ne_none_iff_exists']
    constructor
    · rintro ⟨bytes, h⟩
      obtain ⟨hdecode, hsome⟩ := Option.filter_eq_some_iff.1 h
      obtain ⟨str, hstr⟩ := Option.isSome_iff_exists.1 hsome
      exact ⟨str, decodeUTF8_eq_some hstr ▸ percentDecode_eq_some.1 hdecode⟩
    · rintro ⟨str, h⟩
      exact ⟨utf8 str, Option.filter_eq_some_iff.2
        ⟨percentDecode_eq_some.2 h, isSome_decodeUTF8_utf8 str⟩⟩
  cases s with
  | nil => exact iff_of_false (fun h => h rfl) fun h => h.1 rfl
  | cons c rest =>
    have hparse : parseQueryString (c :: rest) ≠ none ↔
        removingPercentEncoding ((if c = 63 then rest else c :: rest).map plusToSpace) ≠ none := by
      rw [parseQueryString, stripQuestionMark, Option.bind_eq_bind, Option.bind_some, not_iff_not]
      cases removingPercentEncoding _ <;> simp
    rw [hparse, hremove, and_iff_right (List.cons_ne_nil _ _)]
    split_ifs with hc
    · -- the question mark stands for itself
      subst hc
      constructor
      · rintro ⟨str, h⟩
        refine ⟨"?" ++ str, ?_⟩
        rw [utf8_append]
        exact .literal (by decide) h
      · rintro ⟨str, h⟩
        have hisSome := isSome_decodeUTF8_utf8 str
        generalize utf8 str = bytes at h hisSome
        cases h with
        | literal hc h =>
          obtain ⟨str', hstr'⟩ := Option.isSome_iff_exists.1
            ((isSome_decodeUTF8_cons _).1 hisSome)
          exact ⟨str', decodeUTF8_eq_some hstr' ▸ h⟩
    · rfl

/-- A dictionary comes back exactly if it is not empty and has one value for each key, without plus
    signs and separators; a string is parsed without a trap exactly if it is not empty and stands
    for a string. -/
theorem queryString_iff (d : QueryDict) (includeQ : Bool) (s : Bytes) :
    (d.ComesBack includeQ ↔ d.entries ≠ [] ∧
      ∀ entry ∈ d.entries, ∃ v, entry.2 = [v] ∧ IsPlain (utf8 entry.1) ∧ IsPlain (utf8 v)) ∧
    (parseQueryString s ≠ none ↔
      s ≠ [] ∧ ∃ str, PercentEncodes (s.map plusToSpace) (utf8 str)) :=
  ⟨QueryDict.comesBack_iff includeQ, parse_ne_none_iff s⟩

/-- Two values of a key; a plus sign; the empty string, and one that stands for nothing. -/
theorem not_queryString :
    (∀ d ∈ [⟨[("a", ["b", "c"])], by decide⟩, ⟨[("a", ["1+1"])], by decide⟩],
      ∀ includeQ, ¬ QueryDict.ComesBack d includeQ) ∧
    ∀ s ∈ [[], [37, 122, 122]], parseQueryString s = none := by
  refine ⟨fun d hd includeQ h => ?_, by decide⟩
  rw [QueryDict.comesBack_iff] at h
  rcases List.mem_pair.1 hd with rfl | rfl
  · obtain ⟨v, hv, -⟩ := h.2 _ List.mem_cons_self
    cases hv
  · obtain ⟨v, hv, -, hplain⟩ := h.2 _ List.mem_cons_self
    obtain rfl := (List.cons.inj hv).1
    exact (hplain 43 (by decide)).1 rfl

end RavenWallet
