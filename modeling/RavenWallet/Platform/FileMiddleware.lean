/-
  The files that the local web server serves (BRHTTPFileMiddleware.swift, and
  `rangeHeader` of BRHTTPServer.swift).

  The file system and the debug server are parameters; there are no symbolic
  links.  What traps is `none`.

  * `resolve_append`: where a path with dot segments leads;
  * `rangeRe_eq_some`: which headers the regular expression matches;
  * `served_iff`: when a file inside of `baseURL` is served, and its range.
-/
import RavenWallet.Platform.HTTPRequest
import RavenWallet.Platform.Tar

namespace RavenWallet

open BRTar (Path resolve entryPath dot dotDot)

/-! ## Paths -/

/-- The components of the path of a request; `ltrim` drops the slashes it begins with. -/
def pathComponents (path : Bytes) : Path := entryPath [] (path.dropWhile fun c => c = 47)

/-- What a component does, with the number of directories left upwards and the components
    below. -/
def climbStep (s : ℕ × Path) (c : Bytes) : ℕ × Path :=
  if c = dot then s
  else if c = dotDot then if s.2 = [] then (s.1 + 1, []) else (s.1, s.2.dropLast)
  else (s.1, s.2 ++ [c])

/-- How many directories the components leave upwards, and what they name from there. -/
def climb (comps : Path) : ℕ × Path := comps.foldl climbStep (0, [])

/-- The directory `path` or something in it. -/
def LiesInside (path p : Path) : Prop := resolve path <+: resolve p

/-- What the components leave upwards they enter again. -/
def Stays (path comps : Path) : Prop :=
  (resolve path).drop ((resolve path).length - (climb comps).1) <+: (climb comps).2

theorem climb_concat (comps : Path) (c : Bytes) :
    climb (comps ++ [c]) = climbStep (climb comps) c := by
  rw [climb, List.foldl_append, List.foldl_cons, List.foldl_nil, climb]

theorem resolve_concat (path : Path) (c : Bytes) :
    resolve (path ++ [c]) = if c = dot then resolve path
      else if c = dotDot then (resolve path).dropLast else resolve path ++ [c] := by
  rw [resolve, List.foldl_append, List.foldl_cons, List.foldl_nil, resolve]

/-- Where the components lead. -/
theorem resolve_append (path comps : Path) :
    resolve (path ++ comps) =
      (resolve path).take ((resolve path).length - (climb comps).1) ++ (climb comps).2 := by
  induction comps using List.reverseRecOn with
  | nil =>
    rw [List.append_nil, climb, List.foldl_nil, Nat.sub_zero, List.take_length, List.append_nil]
  | append_singleton comps c ih =>
    rw [← List.append_assoc, resolve_concat, ih, climb_concat, climbStep]
    split_ifs with hdot hup hnil
    · rfl
    · rw [hnil, List.append_nil, List.append_nil, List.dropLast_eq_take, List.take_take,
        List.length_take]
      congr 1
      omega
    · rw [List.dropLast_append_of_ne_nil hnil]
    · rw [List.append_assoc]

theorem liesInside_iff (path comps : Path) :
    LiesInside path (path ++ comps) ↔ Stays path comps := by
  rw [LiesInside, resolve_append, Stays]
  conv_lhs =>
    lhs
    rw [← List.take_append_drop ((resolve path).length - (climb comps).1) (resolve path)]
  exact List.prefix_append_right_inj _

/-! ## Ranges -/

/-- The number with these decimal digits. -/
def decimal (digits : Bytes) : ℕ := value 10 (digits.map fun c => c.toNat - 48)

/-- The groups of `bytes=(\d*)-(\d*)` at the start of a header. -/
def rangeRe (hdr : Bytes) : Option (Bytes × Bytes) :=
  if (hdr.take 6).map lowercased = ascii "bytes=" then
    match (hdr.drop 6).dropWhile isDecimal with
    | 45 :: rest => some ((hdr.drop 6).takeWhile isDecimal, rest.takeWhile isDecimal)
    | _ => none
  else none

inductive RangeError where
  | trap
  | invalidRangeHeader
  deriving DecidableEq, Repr

/-- The two numbers of the header, if there is one. -/
def BRHTTPRequestImpl.rangeHeader (r : BRHTTPRequestImpl) : Except RangeError (Option (ℤ × ℤ)) :=
  match r.headers.lookup (ascii "range") with
  | none => .ok none
  | some [] => .error .trap
  | some (rngHeader :: _) =>
    match rangeRe rngHeader with
    | none => .error .invalidRangeHeader
    | some (startStr, endStr) =>
      match intOfString startStr, intOfString endStr with
      | some start, some stop => .ok (some (start, stop))
      | _, _ => .error .invalidRangeHeader

/-- The header is `bytes=`, the digits `first`, a dash, the digits `last`, and then `rest`. -/
def Ranges (hdr first last rest : Bytes) : Prop :=
  ∃ unit, hdr = unit ++ first ++ 45 :: (last ++ rest) ∧ unit.map lowercased = ascii "bytes=" ∧
    first.all isDecimal ∧ last.all isDecimal ∧ ∀ c ∈ rest.head?, ¬ isDecimal c

theorem length_ascii_bytes : (ascii "bytes=").length = 6 := by decide

theorem takeWhile_digits {digits rest : Bytes} (h : digits.all isDecimal)
    (hrest : ∀ c ∈ rest.head?, ¬ isDecimal c) :
    (digits ++ rest).takeWhile isDecimal = digits ∧
      (digits ++ rest).dropWhile isDecimal = rest := by
  have hall : ∀ c ∈ digits, isDecimal c = true := List.all_eq_true.1 h
  rw [List.takeWhile_append_of_pos hall, List.dropWhile_append_of_pos hall]
  cases rest with
  | nil => exact ⟨List.append_nil _, rfl⟩
  | cons c rest =>
    have hc : ¬ isDecimal c := hrest c rfl
    rw [List.takeWhile_cons_of_neg hc, List.dropWhile_cons_of_neg hc, List.append_nil]
    exact ⟨rfl, rfl⟩

theorem rangeRe_eq_some {hdr first last : Bytes} :
    rangeRe hdr = some (first, last) ↔ ∃ rest, Ranges hdr first last rest := by
  constructor
  · intro h
    unfold rangeRe at h
    split_ifs at h with hunit
    split at h
    · rename_i rest hrest
      obtain ⟨rfl, rfl⟩ := Prod.mk.inj (Option.some.inj h)
      refine ⟨rest.dropWhile isDecimal, hdr.take 6, ?_, hunit, ?_, ?_, ?_⟩
      · rw [List.append_assoc, List.takeWhile_append_dropWhile, ← hrest,
          List.takeWhile_append_dropWhile, List.take_append_drop]
      · exact List.all_eq_true.2 fun c hc => List.mem_takeWhile_imp hc
      · exact List.all_eq_true.2 fun c hc => List.mem_takeWhile_imp hc
      · intro c hc
        have hnot := List.head?_dropWhile_not isDecimal rest
        rw [Option.mem_def.1 hc] at hnot
        simpa using hnot
    · cases h
  · rintro ⟨rest, unit, rfl, hunit, hfirst, hlast, hrest⟩
    have hlen : unit.length = 6 := by
      rw [← List.length_map lowercased, hunit, length_ascii_bytes]
    have htake : (unit ++ first ++ 45 :: (last ++ rest)).take 6 = unit := by
      rw [List.append_assoc, List.take_left' hlen]
    have hdrop : (unit ++ first ++ 45 :: (last ++ rest)).drop 6 =
        first ++ 45 :: (last ++ rest) := by
      rw [List.append_assoc, List.drop_left' hlen]
    obtain ⟨hfirst₁, hfirst₂⟩ := @takeWhile_digits first (45 :: (last ++ rest)) hfirst
      (by rintro c ⟨⟩; decide)
    rw [rangeRe, htake, if_pos hunit, hdrop, hfirst₁, hfirst₂]
    simp only [(takeWhile_digits hlast hrest).1]

/-! ## The middleware -/

/-- `Data`; its `count` is an `Int`. -/
structure Content where
  bytes : Bytes
  count_lt : bytes.length < 2 ^ 63

structure BRHTTPResponse where
  statusCode : ℕ
  statusReason : Bytes
  headers : List (Bytes × List Bytes) := []
  body : Option Bytes := none
  deriving DecidableEq, Repr

/-- The file system and the network. -/
structure Files where
  /-- the digest of the modification date, of a path that has attributes -/
  etag : Path → Option Bytes
  contents : Path → Option Content
  /-- with the content type that the server gives -/
  download : Path → Option (Content × Option Bytes)

structure BRHTTPFileMiddleware where
  baseURL : Path
  debugURL : Option Path := none
  deriving DecidableEq, Repr

def pathExtension (url : Path) : Bytes :=
  match ((url.getLastD []).splitOn 46).reverse with
  | ext :: _ :: _ => ext
  | _ => []

def contentType (url : Path) : Bytes :=
  let ext := pathExtension url
  if ext = ascii "ttf" then ascii "application/font-truetype"
  else if ext = ascii "woff" then ascii "application/font-woff"
  else if ext = ascii "otf" then ascii "application/font-opentype"
  else if ext = ascii "svg" then ascii "image/svg+xml"
  else if ext = ascii "html" then ascii "text/html"
  else if ext = ascii "png" then ascii "image/png"
  else if ext = ascii "jpeg" ∨ ext = ascii "jpg" then ascii "image/jpeg"
  else if ext = ascii "css" then ascii "text/css"
  else if ext = ascii "js" then ascii "application/javascript"
  else if ext = ascii "json" then ascii "application/json"
  else ascii "application/octet-stream"

/-- What there is to answer with. -/
inductive Fetched where
  | missing
  | notModified
  | body (content : Content) (headers : List (Bytes × List Bytes))

namespace BRHTTPFileMiddleware

variable (m : BRHTTPFileMiddleware) (files : Files) (r : BRHTTPRequestImpl)

def fileURL : Path := m.debugURL.getD m.baseURL ++ pathComponents r.path

/-- The first value of `If-None-Match`. -/
def etagHeader : Option Bytes := (r.headers.lookup (ascii "if-none-match")).bind List.head?

/-- The first part of `handle`: the local files that are read, and what is found. -/
def fetch : List Path × Fetched :=
  match m.debugURL with
  | none =>
    match files.etag (m.fileURL r) with
    | none => ([], .missing)
    | some etag =>
      if etagHeader r = some etag then ([m.fileURL r], .notModified)
      else match files.contents (m.fileURL r) with
        | none => ([m.fileURL r], .missing)
        | some content => ([m.fileURL r], .body content
            [(ascii "ETag", [etag]), (ascii "Content-Type", [contentType (m.fileURL r)])])
  | some _ =>
    match files.download (m.fileURL r) with
    | none => ([], .missing)
    | some (content, contentTypeHint) => ([], .body content
        [(ascii "Content-Type", [contentTypeHint.getD (contentType (m.fileURL r))])])

/-- The result of arithmetic of `Int`. -/
def checkInt (n : ℤ) : Option ℤ := if -2 ^ 63 ≤ n ∧ n < 2 ^ 63 then some n else none

/-- The answer to a request with a range, whose first number `handle` calls `end`. -/
def respondRange (fileURL : Path) (body : Bytes) (last start : ℤ) : Option BRHTTPResponse := do
  let length ← checkInt (last - start)
  let count ← checkInt (length + 1)
  let stop ← checkInt (start + count)
  if stop ≤ body.length then
    if start ≤ stop then
      some {
        statusCode := 200
        statusReason := ascii "OK"
        headers := [
          (ascii "Content-Range", [ascii "bytes " ++ ascii (toString start) ++ ascii "-" ++
            ascii (toString last) ++ ascii "/" ++ ascii (toString body.length)]),
          (ascii "Content-Type", [contentType fileURL])]
        body := some ((body.drop start.toNat).take (stop - start).toNat) }
    else none
  else some { statusCode := 418, statusReason := ascii "Request Range Not Satisfiable" }

def respond (content : Content) (headers : List (Bytes × List Bytes)) : Option BRHTTPResponse :=
  match r.rangeHeader with
  | .error .trap => none
  | .error .invalidRangeHeader =>
    some { statusCode := 400, statusReason := ascii "Bad Request"
           body := some (ascii "Invalid Range Header") }
  | .ok (some (last, start)) => respondRange (m.fileURL r) content.bytes last start
  | .ok none =>
    some { statusCode := 200, statusReason := ascii "OK", headers, body := some content.bytes }

/-- The local files that are read, and the response; `next` may be called without one. -/
def handle : Option (List Path × Option BRHTTPResponse) :=
  match m.fetch files r with
  | (read, .missing) => some (read, none)
  | (read, .notModified) =>
    some (read, some { statusCode := 304, statusReason := ascii "Not Modified" })
  | (read, .body content headers) =>
    (m.respond r content headers).map fun response => (read, some response)

end BRHTTPFileMiddleware

/-! ## What is served -/

/-- The header is `bytes=a-b`. -/
def IsRange (hdr : Bytes) (a b : ℕ) : Prop :=
  ∃ first last, Ranges hdr first last [] ∧ first ≠ [] ∧ last ≠ [] ∧
    decimal first = a ∧ decimal last = b

/-- The whole of the content without a range, the bytes from `a` to `b` for a range in it, and an
    error for any other header. -/
def AnswersRange (content : Bytes) (response : BRHTTPResponse) : Option Bytes → Prop
  | none => response.statusCode = 200 ∧ response.body = some content
  | some hdr =>
    (∀ a b, IsRange hdr a b → a ≤ b → b < content.length →
      response.statusCode = 200 ∧ response.body = some ((content.drop a).take (b + 1 - a))) ∧
    ((∀ a b, IsRange hdr a b → a ≤ b → content.length ≤ b) → 400 ≤ response.statusCode)

/-- The first value of `Range`. -/
def rngHeader (r : BRHTTPRequestImpl) : Option Bytes :=
  (r.headers.lookup (ascii "range")).bind List.head?

/-- Nothing traps, only files inside of `baseURL` are read, and what is found is the answer. -/
def Served (m : BRHTTPFileMiddleware) (files : Files) (r : BRHTTPRequestImpl) : Prop :=
  ∃ read response, m.handle files r = some (read, response) ∧
    (∀ p ∈ read, LiesInside m.baseURL p) ∧
    match (m.fetch files r).2 with
    | .missing => response = none
    | .notModified => ∃ h, response = some h ∧ h.statusCode = 304 ∧ h.body = none
    | .body content _ => ∃ h, response = some h ∧ AnswersRange content.bytes h (rngHeader r)

/-- A range of one byte of the content, or one that begins behind it; any header is fine that does
    not begin with a range of two numbers that fit in an `Int`. -/
def RangeServed (length : ℕ) : Option Bytes → Prop
  | none => True
  | some hdr => ∀ first last rest, Ranges hdr first last rest → first ≠ [] → last ≠ [] →
      decimal first < 2 ^ 63 → decimal last < 2 ^ 63 →
        (rest = [] ∧ decimal first = decimal last ∧ decimal first < length) ∨
          (length ≤ decimal first ∧ decimal first + 1 < 2 ^ 63)

/-! ## The range of an answer -/

theorem intOfString_digits {digits : Bytes} (h : digits.all isDecimal) :
    intOfString digits =
      if digits ≠ [] ∧ decimal digits < 2 ^ 63 then some (decimal digits : ℤ) else none := by
  have hdigits : intOfString digits = intOfDigits 1 digits := by
    unfold intOfString
    split
    · exact absurd (List.all_eq_true.1 h 43 List.mem_cons_self) (by decide)
    · exact absurd (List.all_eq_true.1 h 45 List.mem_cons_self) (by decide)
    · rfl
  rw [hdigits, intOfDigits, h, one_mul, ← decimal]
  by_cases hnum : digits ≠ [] ∧ decimal digits < 2 ^ 63
  · rw [if_pos hnum, if_pos ⟨hnum.1, rfl, by omega, by omega⟩]
  · rw [if_neg hnum, if_neg fun h => hnum ⟨h.1, by omega⟩]

theorem Ranges.digits {hdr first last rest : Bytes} (h : Ranges hdr first last rest) :
    first.all isDecimal ∧ last.all isDecimal := by
  obtain ⟨-, -, -, hfirst, hlast, -⟩ := h
  exact ⟨hfirst, hlast⟩

theorem Ranges.unique {hdr first last rest first' last' rest' : Bytes}
    (h : Ranges hdr first last rest) (h' : Ranges hdr first' last' rest') :
    first = first' ∧ last = last' ∧ rest = rest' := by
  have hre := rangeRe_eq_some.2 ⟨rest, h⟩
  rw [rangeRe_eq_some.2 ⟨rest', h'⟩] at hre
  obtain ⟨rfl, rfl⟩ := Prod.mk.inj (Option.some.inj hre)
  obtain ⟨unit, rfl, hunit, -⟩ := h
  obtain ⟨unit', heq, hunit', -⟩ := h'
  have hlen : unit.length = unit'.length := by
    rw [← List.length_map lowercased, hunit, ← hunit', List.length_map]
  rw [List.append_assoc, List.append_assoc] at heq
  have hrest := List.append_cancel_left (List.append_inj heq hlen).2
  exact ⟨rfl, rfl, List.append_cancel_left (List.cons.inj hrest).2⟩

/-- A header is a range of two numbers and what follows, or it is refused. -/
theorem rangeHeader_cases {r : BRHTTPRequestImpl} {hdr : Bytes} {more : List Bytes}
    (h : r.headers.lookup (ascii "range") = some (hdr :: more)) :
    (∃ first last rest, Ranges hdr first last rest ∧ (first ≠ [] ∧ last ≠ []) ∧
      decimal first < 2 ^ 63 ∧ decimal last < 2 ^ 63 ∧
        r.rangeHeader = .ok (some ((decimal first : ℤ), (decimal last : ℤ)))) ∨
    ((∀ first last rest, Ranges hdr first last rest → first ≠ [] → last ≠ [] →
      decimal first < 2 ^ 63 → ¬ decimal last < 2 ^ 63) ∧
        r.rangeHeader = .error .invalidRangeHeader) := by
  rw [BRHTTPRequestImpl.rangeHeader, h]
  dsimp only
  cases hre : rangeRe hdr with
  | none =>
    refine Or.inr ⟨fun first last rest hranges => ?_, rfl⟩
    rw [rangeRe_eq_some.2 ⟨rest, hranges⟩] at hre
    cases hre
  | some groups =>
    obtain ⟨first, last⟩ := groups
    obtain ⟨rest, hranges⟩ := rangeRe_eq_some.1 hre
    obtain ⟨hfirst, hlast⟩ := hranges.digits
    dsimp only
    rw [intOfString_digits hfirst, intOfString_digits hlast]
    by_cases hnum : (first ≠ [] ∧ decimal first < 2 ^ 63) ∧ last ≠ [] ∧ decimal last < 2 ^ 63
    · rw [if_pos hnum.1, if_pos hnum.2]
      exact Or.inl ⟨first, last, rest, hranges, ⟨hnum.1.1, hnum.2.1⟩, hnum.1.2, hnum.2.2, rfl⟩
    · refine Or.inr ⟨fun first' last' rest' hranges' hne hne' hlt hlt' => ?_, ?_⟩
      · obtain ⟨rfl, rfl, rfl⟩ := hranges.unique hranges'
        exact hnum ⟨⟨hne, hlt⟩, hne', hlt'⟩
      · split_ifs <;> first | rfl | exact absurd ⟨‹_›, ‹_›⟩ hnum

namespace BRHTTPFileMiddleware

theorem checkInt_of_range {n : ℤ} (h : -2 ^ 63 ≤ n) (h' : n < 2 ^ 63) : checkInt n = some n :=
  if_pos ⟨h, h'⟩

theorem checkInt_of_ge {n : ℤ} (h : 2 ^ 63 ≤ n) : checkInt n = none := if_neg (by omega)

/-- The arithmetic of `handle`: it ends behind the byte `a`, whatever `b` is. -/
theorem respondRange_eq (url : Path) (body : Bytes) {a b : ℕ} (ha : a < 2 ^ 63) (hb : b < 2 ^ 63) :
    respondRange url body a b =
      if a + 1 < 2 ^ 63 then
        if a + 1 ≤ body.length then
          if b ≤ a + 1 then
            some {
              statusCode := 200
              statusReason := ascii "OK"
              headers := [
                (ascii "Content-Range", [ascii "bytes " ++ ascii (toString (b : ℤ)) ++ ascii "-" ++
                  ascii (toString (a : ℤ)) ++ ascii "/" ++ ascii (toString body.length)]),
                (ascii "Content-Type", [contentType url])]
              body := some ((body.drop b).take (a + 1 - b)) }
          else none
        else some { statusCode := 418, statusReason := ascii "Request Range Not Satisfiable" }
      else none := by
  have hstop : (b : ℤ) + (a - b + 1) = (a + 1 : ℕ) := by omega
  unfold respondRange
  rw [checkInt_of_range (by omega) (by omega)]
  simp only [Option.bind_eq_bind, Option.bind_some]
  split_ifs with hfits hin hle
  · rw [checkInt_of_range (by omega) (by omega), Option.bind_some, hstop,
      checkInt_of_range (by omega) (by omega), Option.bind_some, if_pos (by omega),
      if_pos (by omega)]
    simp only [Int.toNat_natCast, Int.toNat_sub]
  · rw [checkInt_of_range (by omega) (by omega), Option.bind_some, hstop,
      checkInt_of_range (by omega) (by omega), Option.bind_some, if_pos (by omega),
      if_neg (by omega)]
  · rw [checkInt_of_range (by omega) (by omega), Option.bind_some, hstop,
      checkInt_of_range (by omega) (by omega), Option.bind_some, if_neg (by omega)]
  · by_cases hb0 : b = 0
    · rw [checkInt_of_ge (by omega), Option.bind_none]
    · rw [checkInt_of_range (by omega) (by omega), Option.bind_some, hstop,
        checkInt_of_ge (by omega), Option.bind_none]

variable {m : BRHTTPFileMiddleware} {r : BRHTTPRequestImpl}

/-- The answer to a header is right exactly for the ranges that are served. -/
theorem respond_iff (content : Content) (headers : List (Bytes × List Bytes))
    (hvalues : r.headers.lookup (ascii "range") ≠ some []) :
    (∃ h, m.respond r content headers = some h ∧ AnswersRange content.bytes h (rngHeader r)) ↔
      RangeServed content.bytes.length (rngHeader r) := by
  have hcount := content.count_lt
  cases hlookup : r.headers.lookup (ascii "range") with
  | none =>
    have habsent : r.rangeHeader = .ok none := by rw [BRHTTPRequestImpl.rangeHeader, hlookup]
    rw [respond, habsent, rngHeader, hlookup]
    exact iff_of_true ⟨_, rfl, rfl, rfl⟩ trivial
  | some values =>
    obtain ⟨hdr, more, rfl⟩ := List.exists_cons_of_ne_nil fun h => hvalues (hlookup.trans (h ▸ rfl))
    have hhdr : rngHeader r = some hdr := by rw [rngHeader, hlookup]; rfl
    rw [hhdr, respond]
    rcases rangeHeader_cases hlookup with
      ⟨first, last, rest, hranges, ⟨hne, hne'⟩, ha, hb, hheader⟩ | ⟨hno, hheader⟩
    · have hserved : RangeServed content.bytes.length (some hdr) ↔
          (rest = [] ∧ decimal first = decimal last ∧ decimal first < content.bytes.length) ∨
            (content.bytes.length ≤ decimal first ∧ decimal first + 1 < 2 ^ 63) := by
        refine ⟨fun h => h first last rest hranges hne hne' ha hb, fun h => ?_⟩
        intro first' last' rest' hranges' _ _ _ _
        obtain ⟨rfl, rfl, rfl⟩ := hranges.unique hranges'
        exact h
      have hunique (a b : ℕ) (h : IsRange hdr a b) :
          rest = [] ∧ a = decimal first ∧ b = decimal last := by
        obtain ⟨first', last', hranges', -, -, rfl, rfl⟩ := h
        obtain ⟨rfl, rfl, rfl⟩ := hranges.unique hranges'
        exact ⟨rfl, rfl, rfl⟩
      rw [hserved, hheader]
      dsimp only
      rw [respondRange_eq _ _ ha hb]
      split_ifs with hfits hin hle
      · -- the bytes from `b` to `a`, which are those from `a` to `b` if there is one
        constructor
        · rintro ⟨h, hsome, hright, herror⟩
          obtain rfl := Option.some.inj hsome
          have hrange : ∃ a b, IsRange hdr a b ∧ a ≤ b ∧ b < content.bytes.length := by
            by_contra hnone
            have h400 : 400 ≤ 200 := herror fun a b hr hab => by
              by_contra hlt
              exact hnone ⟨a, b, hr, hab, by omega⟩
            exact absurd h400 (by decide)
          obtain ⟨a, b, hr, hab, hlt⟩ := hrange
          have hbody := (hright a b hr hab hlt).2
          obtain ⟨rfl, rfl, rfl⟩ := hunique a b hr
          have hlen := congrArg List.length (Option.some.inj hbody)
          simp only [List.length_take, List.length_drop] at hlen
          exact Or.inl ⟨rfl, by omega, by omega⟩
        · rintro (⟨rfl, heq, hlt⟩ | ⟨hge, -⟩)
          · refine ⟨_, rfl, fun a b hr _ _ => ⟨rfl, ?_⟩, fun hall => ?_⟩
            · obtain ⟨-, rfl, rfl⟩ := hunique a b hr
              rw [heq]
            · have hle := hall _ _ ⟨first, last, hranges, hne, hne', rfl, rfl⟩ heq.le
              omega
          · omega
      · refine iff_of_false (by rintro ⟨h, ⟨⟩, -⟩) ?_
        rintro (⟨-, heq, hlt⟩ | ⟨hge, hlt⟩) <;> omega
      · refine iff_of_true ⟨_, rfl, fun a b hr hab hb => ?_, fun _ => ?_⟩
          (Or.inr ⟨by omega, hfits⟩)
        · obtain ⟨-, rfl, rfl⟩ := hunique a b hr
          omega
        · decide
      · refine iff_of_false (by rintro ⟨h, ⟨⟩, -⟩) ?_
        rintro (⟨-, heq, hlt⟩ | ⟨hge, hlt⟩) <;> omega
    · rw [hheader]
      refine iff_of_true ⟨_, rfl, ?_, fun _ => ?_⟩ ?_
      · rintro a b ⟨first, last, hranges, hne, hne', rfl, rfl⟩ hab hlt
        exact absurd (hlt.trans hcount)
          (hno first last [] hranges hne hne' ((hab.trans_lt hlt).trans hcount))
      · decide
      · intro first last rest hranges hne hne' ha hb
        exact absurd hb (hno first last rest hranges hne hne' ha)

/-- The local file is read that the path names, and only if it has attributes. -/
theorem mem_fetch {files : Files} {p : Path} :
    p ∈ (m.fetch files r).1 ↔
      m.debugURL = none ∧ (files.etag (m.fileURL r)).isSome ∧ p = m.fileURL r := by
  unfold fetch
  cases hdebug : m.debugURL with
  | none =>
    dsimp only
    cases hetag : files.etag (m.fileURL r) with
    | none => simp
    | some etag =>
      dsimp only
      split_ifs
      · simp
      · cases files.contents (m.fileURL r) <;> simp
  | some url =>
    dsimp only
    cases files.download (m.fileURL r) <;> simp

end BRHTTPFileMiddleware

/-- Every key has a value. -/
def Valued (dict : List (Bytes × List Bytes)) : Prop := ∀ entry ∈ dict, entry.2 ≠ []

theorem valued_addValue {dict : List (Bytes × List Bytes)} (h : Valued dict) (key value : Bytes) :
    Valued (addValue dict key value) := by
  intro entry hentry
  unfold addValue at hentry
  split_ifs at hentry
  · obtain ⟨old, hold, rfl⟩ := List.mem_map.1 hentry
    split_ifs
    · exact List.append_ne_nil_of_right_ne_nil _ (List.cons_ne_nil _ _)
    · exact h old hold
  · rcases List.mem_append.1 hentry with hold | hnew
    · exact h entry hold
    · rw [List.mem_singleton.1 hnew]
      exact List.cons_ne_nil _ _

theorem valued_addHeader {headers : List (Bytes × List Bytes)} (h : Valued headers) (hdr : Bytes) :
    Valued (addHeader headers hdr) := by
  unfold addHeader
  split
  · exact valued_addValue h _ _
  · exact h

theorem valued_readHeaders {c next : HTTPConnection} {headers headers' : List (Bytes × List Bytes)}
    (h : Valued headers) (hread : readHeaders c headers = some (headers', next)) :
    Valued headers' := by
  induction c, headers using readHeaders.induct with
  | case1 c headers hnone =>
    rw [readHeaders] at hread
    split at hread
    · cases hread
    · rename_i hsome
      rw [hnone] at hsome
      cases hsome
  | case2 c headers next' hline =>
    rw [readHeaders_of_readLine hline, if_pos rfl] at hread
    obtain ⟨rfl, -⟩ := Prod.mk.inj (Option.some.inj hread)
    exact h
  | case3 c headers hdr next' hline hne ih =>
    rw [readHeaders_of_readLine hline, if_neg hne] at hread
    exact ih (valued_addHeader h hdr) hread

theorem lookup_ne_of_valued {dict : List (Bytes × List Bytes)} (h : Valued dict) (key : Bytes) :
    dict.lookup key ≠ some [] := by
  intro hlookup
  obtain ⟨l₁, l₂, rfl, -⟩ := List.lookup_eq_some_iff.1 hlookup
  exact h (key, []) (List.mem_append_right _ List.mem_cons_self) rfl

/-- A request has a value for each of its headers. -/
theorem values_of_init {c : HTTPConnection} {r : BRHTTPRequestImpl}
    (h : BRHTTPRequestImpl.init c = some r) (name : Bytes) : r.headers.lookup name ≠ some [] := by
  refine lookup_ne_of_valued ?_ name
  unfold BRHTTPRequestImpl.init at h
  obtain ⟨⟨status, c₁⟩, -, h⟩ := Option.bind_eq_some_iff.1 h
  dsimp only at h
  split at h
  · obtain ⟨⟨headers, connection⟩, hread, h⟩ := Option.bind_eq_some_iff.1 h
    have hvalued := valued_readHeaders (List.forall_mem_nil _) hread
    dsimp only at h
    split_ifs at h <;> cases h <;> exact hvalued
  · cases h

/-- Files inside of `baseURL` are served, to requests whose path leaves it only to come back the
    same way, and whose range is one byte of the file or begins behind it. -/
theorem served_iff (m : BRHTTPFileMiddleware) (files : Files) {r : BRHTTPRequestImpl}
    (hvalues : r.headers.lookup (ascii "range") ≠ some []) :
    Served m files r ↔
      (m.debugURL = none → (files.etag (m.fileURL r)).isSome →
        Stays m.baseURL (pathComponents r.path)) ∧
      ∀ content headers, (m.fetch files r).2 = .body content headers →
        RangeServed content.bytes.length (rngHeader r) := by
  have hread : (∀ p ∈ (m.fetch files r).1, LiesInside m.baseURL p) ↔
      (m.debugURL = none → (files.etag (m.fileURL r)).isSome →
        Stays m.baseURL (pathComponents r.path)) := by
    have hurl (hdebug : m.debugURL = none) :
        m.fileURL r = m.baseURL ++ pathComponents r.path := by
      rw [BRHTTPFileMiddleware.fileURL, hdebug, Option.getD_none]
    constructor
    · intro h hdebug hetag
      have hinside := h _ (BRHTTPFileMiddleware.mem_fetch.2 ⟨hdebug, hetag, rfl⟩)
      rwa [hurl hdebug, liesInside_iff] at hinside
    · intro h p hp
      obtain ⟨hdebug, hetag, rfl⟩ := BRHTTPFileMiddleware.mem_fetch.1 hp
      rw [hurl hdebug, liesInside_iff]
      exact h hdebug hetag
  rw [← hread, Served, BRHTTPFileMiddleware.handle]
  obtain ⟨read, fetched⟩ := m.fetch files r
  cases fetched with
  | missing =>
    exact ⟨fun ⟨_, _, hsome, hin, _⟩ => ⟨(Prod.mk.inj (Option.some.inj hsome)).1 ▸ hin, nofun⟩,
      fun h => ⟨read, none, rfl, h.1, rfl⟩⟩
  | notModified =>
    exact ⟨fun ⟨_, _, hsome, hin, _⟩ => ⟨(Prod.mk.inj (Option.some.inj hsome)).1 ▸ hin, nofun⟩,
      fun h => ⟨read, _, rfl, h.1, _, rfl, rfl, rfl⟩⟩
  | body content headers =>
    have hiff := BRHTTPFileMiddleware.respond_iff (m := m) content headers hvalues
    dsimp only
    constructor
    · rintro ⟨read', response, hsome, hin, h, rfl, hanswer⟩
      obtain ⟨h', hrespond, heq⟩ := Option.map_eq_some_iff.1 hsome
      obtain ⟨rfl, hh⟩ := Prod.mk.inj heq
      obtain rfl := Option.some.inj hh
      refine ⟨hin, fun content' headers' hbody => ?_⟩
      obtain ⟨rfl, -⟩ := Fetched.body.inj hbody
      exact hiff.1 ⟨h', hrespond, hanswer⟩
    · rintro ⟨hin, hrange⟩
      obtain ⟨h, hrespond, hanswer⟩ := hiff.2 (hrange content headers rfl)
      exact ⟨read, some h, by rw [hrespond, Option.map_some], hin, h, rfl, hanswer⟩

/-- A file of three bytes in `www`, and another one beside it. -/
def threeBytes : Files where
  etag p := if p ∈ [[ascii "www", ascii "f"], [ascii "www", dotDot, ascii "f"]] then some []
    else none
  contents _ := some ⟨[1, 2, 3], by decide⟩
  download _ := none

/-- A request for a path, with a range. -/
def getRange (path range : Bytes) : BRHTTPRequestImpl where
  path := path
  headers := [(ascii "range", [range])]
  connection := ⟨[], []⟩

theorem rangeServed_digits {first last : Bytes} {length : ℕ} (hfirst : first.all isDecimal)
    (hlast : last.all isDecimal) (hne : first ≠ []) (hne' : last ≠ [])
    (hlt : decimal first < 2 ^ 63) (hlt' : decimal last < 2 ^ 63) :
    RangeServed length (some (ascii "bytes=" ++ first ++ 45 :: last)) ↔
      (decimal first = decimal last ∧ decimal first < length) ∨
        (length ≤ decimal first ∧ decimal first + 1 < 2 ^ 63) := by
  have hranges : Ranges (ascii "bytes=" ++ first ++ 45 :: last) first last [] :=
    ⟨ascii "bytes=", by rw [List.append_nil], by decide, hfirst, hlast, nofun⟩
  constructor
  · intro h
    rcases h first last [] hranges hne hne' hlt hlt' with ⟨-, heq⟩ | hge
    · exact Or.inl heq
    · exact Or.inr hge
  · intro h first' last' rest hranges' _ _ _ _
    obtain ⟨rfl, rfl, rfl⟩ := hranges.unique hranges'
    exact h.imp_left fun h => ⟨rfl, h⟩

/-- The second byte of the file. -/
theorem served_iff_one :
    Served ⟨[ascii "www"], none⟩ threeBytes (getRange (ascii "/f") (ascii "bytes=1-1")) := by
  refine (served_iff _ _ (by decide)).2 ⟨fun _ _ => ?_, fun content headers hbody => ?_⟩
  · unfold Stays
    decide
  · obtain ⟨rfl, -⟩ := Fetched.body.inj hbody
    exact (@rangeServed_digits [49] [49] _ (by decide) (by decide) (by decide) (by decide)
      (by decide) (by decide)).2 (Or.inl (by decide))

/-- Three bytes of the file, which trap; the file beside the directory. -/
theorem not_served : ¬ ∃ r ∈ [getRange (ascii "/f") (ascii "bytes=0-2"),
    getRange (ascii "/../f") (ascii "bytes=1-1")], Served ⟨[ascii "www"], none⟩ threeBytes r := by
  rintro ⟨r, hr, hserved⟩
  revert hserved
  rcases List.mem_pair.1 hr with rfl | rfl
  · rintro ⟨read, response, hhandle, -⟩
    have htrap : BRHTTPFileMiddleware.handle ⟨[ascii "www"], none⟩ threeBytes
        (getRange (ascii "/f") (ascii "bytes=0-2")) = none := by rfl
    rw [htrap] at hhandle
    cases hhandle
  · rintro ⟨read, response, hhandle, hread, -⟩
    have hsome : (BRHTTPFileMiddleware.handle ⟨[ascii "www"], none⟩ threeBytes
        (getRange (ascii "/../f") (ascii "bytes=1-1"))).map Prod.fst =
          some [[ascii "www", dotDot, ascii "f"]] := by rfl
    rw [hhandle, Option.map_some] at hsome
    obtain rfl := Option.some.inj hsome
    have hin := hread _ List.mem_cons_self
    unfold LiesInside at hin
    exact absurd hin (by decide)

end RavenWallet
