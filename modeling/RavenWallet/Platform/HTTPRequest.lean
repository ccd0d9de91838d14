/-
  Requests of the local web server (BRHTTPServer.swift).

  A string that is read from the socket has one character for each byte.  A
  connection is what the peer sends before it closes, and how it arrives: a call
  of `recv` gets some of it, or fails.  What traps is `none`.

  * `init_of_lines`: a request is read up to the empty line, however it arrives;
  * `body_iff`: when the body is what follows the headers, and nothing else is
    read.
-/
import Mathlib.Data.List.DropRight
import RavenWallet.Lib.Buffer
import RavenWallet.Lib.Radix
import RavenWallet.Core.Types

namespace RavenWallet

/-! ## The connection -/

/-- What a call of `recv` finds: some bytes more than one, if there are as many, or an error. -/
inductive Arrival where
  | bytes (more : ℕ)
  | error
  deriving DecidableEq, Repr

structure HTTPConnection where
  incoming : Bytes
  arrivals : List Arrival := []
  deriving DecidableEq, Repr

namespace HTTPConnection

/-- The next bytes, at most `len`. -/
def take (c : HTTPConnection) (len : ℕ) (arrivals : List Arrival) :
    ℤ × Bytes × HTTPConnection :=
  ((c.incoming.take len).length, c.incoming.take len, ⟨c.incoming.drop len, arrivals⟩)

/-- `recv` of at most `len` bytes: what it returns, and what it stores. -/
def recv (c : HTTPConnection) (len : ℕ) : ℤ × Bytes × HTTPConnection :=
  match c.arrivals with
  | [] => c.take len []
  | .bytes more :: arrivals => c.take (min (more + 1) len) arrivals
  | .error :: arrivals => (-1, [], { c with arrivals })

/-- `read`: one byte, or what `recv` returns if it gets none. -/
def read (c : HTTPConnection) : ℤ × HTTPConnection :=
  let (n, buf, c) := c.recv 1
  if n ≤ 0 then (n, c) else ((buf.headD 0).toNat, c)

/-- Some bytes are read, or none at the end of the stream, or there is an error. -/
theorem recv_cases (c : HTTPConnection) {len : ℕ} (hpos : 0 < len) :
    ((c.recv len).1 = -1 ∧ (c.recv len).2.2.incoming = c.incoming) ∨
      ∃ m ≤ len, m ≤ c.incoming.length ∧ (m = 0 → c.incoming = []) ∧ (c.recv len).1 = m ∧
        (c.recv len).2.1 = c.incoming.take m ∧ (c.recv len).2.2.incoming = c.incoming.drop m := by
  have htake (n : ℕ) (hn : 0 < n) (hle : n ≤ len) (arrivals : List Arrival) :
      ∃ m ≤ len, m ≤ c.incoming.length ∧ (m = 0 → c.incoming = []) ∧ (c.take n arrivals).1 = m ∧
        (c.take n arrivals).2.1 = c.incoming.take m ∧
          (c.take n arrivals).2.2.incoming = c.incoming.drop m := by
    refine ⟨min n c.incoming.length, by omega, by omega, fun h => ?_, ?_, ?_, ?_⟩
    · exact List.length_eq_zero_iff.1 (by omega)
    · simp [take]
    · simp [take, ← List.take_eq_take_min]
    · rcases Nat.le_total n c.incoming.length with h | h
      · rw [Nat.min_eq_left h, take]
      · rw [Nat.min_eq_right h, take, List.drop_length, List.drop_eq_nil_of_le h]
  unfold recv
  rcases c.arrivals with _ | ⟨more | -, arrivals⟩
  · exact Or.inr (htake len hpos le_rfl [])
  · exact Or.inr (htake _ (by omega) (Nat.min_le_right _ _) arrivals)
  · exact Or.inl ⟨rfl, rfl⟩

/-- A byte is read, or the end of the stream or an error is met. -/
theorem read_cases (c : HTTPConnection) :
    (c.read.1 = -1 ∧ c.read.2.incoming = c.incoming) ∨
      (c.read.1 = 0 ∧ c.incoming = [] ∧ c.read.2.incoming = []) ∨
        ∃ b rest, c.incoming = b :: rest ∧ c.read.1 = b.toNat ∧ c.read.2.incoming = rest := by
  unfold read
  rcases c.recv_cases Nat.one_pos with ⟨hn, hin⟩ | ⟨m, hm, hlen, hend, hn, hbuf, hin⟩
  · refine Or.inl ?_
    dsimp only
    rw [if_pos (by omega)]
    exact ⟨hn, hin⟩
  · refine Or.inr ?_
    dsimp only
    rcases Nat.le_one_iff_eq_zero_or_eq_one.1 hm with rfl | rfl
    · rw [if_pos (by omega)]
      exact Or.inl ⟨hn, hend rfl, hin.trans (hend rfl)⟩
    · rw [if_neg (by omega)]
      cases hb : c.incoming with
      | nil =>
        rw [hb] at hlen
        exact absurd hlen (by decide)
      | cons b rest =>
        refine Or.inr ⟨b, rest, rfl, ?_, ?_⟩
        · rw [hbuf, hb]
          rfl
        · rw [hin, hb]
          rfl

theorem read_lt {c : HTTPConnection} (h : c.read.1 > 0) :
    c.read.2.incoming.length < c.incoming.length := by
  rcases c.read_cases with ⟨hn, -⟩ | ⟨hn, -⟩ | ⟨b, rest, hb, -, hin⟩
  · omega
  · omega
  · rw [hb, hin, List.length_cons]
    omega

/-- The characters of a line with the next one, unless it is a control character. -/
def pushChar (chars : Bytes) (n : ℤ) : Bytes :=
  if n > 13 then chars ++ [UInt8.ofNat n.toNat] else chars

/-- The loop of `readLine`, with the characters read so far; `none` if it throws. -/
def readLineFrom (c : HTTPConnection) (chars : Bytes) : Option (Bytes × HTTPConnection) :=
  if c.read.1 > 0 ∧ c.read.1 ≠ 10 then readLineFrom c.read.2 (pushChar chars c.read.1)
  else if c.read.1 = -1 then none
  else some (pushChar chars c.read.1, c.read.2)
termination_by c.incoming.length
decreasing_by
  rename_i h
  exact read_lt h.1

/-- `readLine` -/
def readLine (c : HTTPConnection) : Option (Bytes × HTTPConnection) := c.readLineFrom []

theorem length_pushChar (chars : Bytes) (n : ℤ) :
    (pushChar chars n).length ≤ chars.length + 1 := by
  unfold pushChar
  split_ifs
  · rw [List.length_append, List.length_singleton]
  · exact Nat.le_succ _

/-- What is left after a line is shorter by its characters. -/
theorem readLineFrom_length {c c' : HTTPConnection} {chars hdr : Bytes}
    (h : c.readLineFrom chars = some (hdr, c')) :
    hdr.length + c'.incoming.length ≤ chars.length + c.incoming.length := by
  induction c, chars using readLineFrom.induct with
  | case1 c chars hmore ih =>
    rw [readLineFrom, if_pos hmore] at h
    have hle := ih h
    have hlt := read_lt hmore.1
    have hchars := length_pushChar chars c.read.1
    omega
  | case2 c chars hstop herror =>
    rw [readLineFrom, if_neg hstop, if_pos herror] at h
    cases h
  | case3 c chars hstop herror =>
    rw [readLineFrom, if_neg hstop, if_neg herror] at h
    obtain ⟨rfl, rfl⟩ := Prod.mk.inj (Option.some.inj h)
    rcases c.read_cases with ⟨hn, -⟩ | ⟨hn, hnil, hin⟩ | ⟨b, rest, hb, hn, hin⟩
    · exact absurd hn herror
    · rw [hn, pushChar, if_neg (by decide), hnil, hin]
    · have hsmall : ¬ c.read.1 > 13 := fun h13 => hstop ⟨by omega, by omega⟩
      rw [pushChar, if_neg hsmall, hb, hin, List.length_cons]
      omega

end HTTPConnection

/-! ## Requests -/

/-- The characters of an ASCII string. -/
def ascii (str : String) : Bytes := str.toList.map fun c => UInt8.ofNat c.toNat

/-- `dict[key]?.append(value)` if there is a list for `key`, and `dict[key] = [value]` otherwise. -/
def addValue (dict : List (Bytes × List Bytes)) (key value : Bytes) : List (Bytes × List Bytes) :=
  if (dict.lookup key).isSome then
    dict.map fun entry => if entry.1 = key then (key, entry.2 ++ [value]) else entry
  else dict ++ [(key, [value])]

/-- `lowercased()` of a character of one byte. -/
def lowercased (c : UInt8) : UInt8 :=
  if (65 ≤ c ∧ c ≤ 90) ∨ (192 ≤ c ∧ c ≤ 222 ∧ c ≠ 215) then c + 32 else c

/-- `CharacterSet.whitespaces`, among the characters of one byte. -/
def isWhitespace (c : UInt8) : Bool := c = 9 ∨ c = 32 ∨ c = 160

def trimmingWhitespace (str : Bytes) : Bytes := (str.dropWhile isWhitespace).rdropWhile isWhitespace

structure BRHTTPRequestImpl where
  method : Bytes := ascii "GET"
  path : Bytes := ascii "/"
  queryString : Bytes := []
  query : List (Bytes × List Bytes) := []
  headers : List (Bytes × List Bytes) := []
  bodyRead : Bool := false
  bodyBytes : Option Bytes := none
  connection : HTTPConnection
  deriving DecidableEq, Repr

/-- A header line, if it is one. -/
def addHeader (headers : List (Bytes × List Bytes)) (hdr : Bytes) : List (Bytes × List Bytes) :=
  match hdr.splitOn 58 with
  | name :: value :: values =>
    addValue headers (name.map lowercased)
      (trimmingWhitespace ([58].intercalate (value :: values)))
  | _ => headers

/-- The loop over the header lines. -/
def readHeaders (c : HTTPConnection) (headers : List (Bytes × List Bytes)) :
    Option (List (Bytes × List Bytes) × HTTPConnection) :=
  match _ : c.readLine with
  | none => none
  | some (hdr, next) =>
    if hdr = [] then some (headers, next)
    else readHeaders next (addHeader headers hdr)
termination_by c.incoming.length
decreasing_by
  rename_i hread hne
  have hlen := HTTPConnection.readLineFrom_length hread
  have hpos := List.length_pos_iff.2 hne
  rw [List.length_nil] at hlen
  omega

/-- The pairs of a query string. -/
def parseQuery (queryString : Bytes) : List (Bytes × List Bytes) :=
  (queryString.splitOn 38).foldl (fun query pair =>
    match pair.splitOn 61 with
    | [key, value] => addValue query key value
    | _ => query) []

namespace BRHTTPRequestImpl

/-- `init(readFromFd:queue:)`; fails if it throws. -/
def init (c : HTTPConnection) : Option BRHTTPRequestImpl := do
  let (status, c) ← c.readLine
  match status.splitOn 32 with
  | method :: path :: _ :: _ => do
    let (headers, connection) ← readHeaders c []
    if 63 ∈ path then
      let queryString := [63].intercalate (path.splitOn 63).tail
      some { method, path := (path.splitOn 63).headD [], queryString
             query := parseQuery queryString, headers, connection }
    else some { method, path, headers, connection }
  | _ => none

variable (r : BRHTTPRequestImpl)

def hasBody : Bool :=
  r.method = ascii "POST" ∨ r.method = ascii "PATCH" ∨ r.method = ascii "PUT"

end BRHTTPRequestImpl

def isDecimal (c : UInt8) : Bool := 48 ≤ c ∧ c ≤ 57

/-- The number with these decimal digits; `nil` if there are none, or it is no `Int`. -/
def intOfDigits (sign : ℤ) (digits : Bytes) : Option ℤ :=
  let n := sign * value 10 (digits.map fun c => c.toNat - 48)
  if digits ≠ [] ∧ digits.all isDecimal ∧ -2 ^ 63 ≤ n ∧ n < 2 ^ 63 then some n else none

/-- `Int(str)` -/
def intOfString : Bytes → Option ℤ
  | 43 :: digits => intOfDigits 1 digits
  | 45 :: digits => intOfDigits (-1) digits
  | digits => intOfDigits 1 digits

namespace BRHTTPRequestImpl

variable (r : BRHTTPRequestImpl)

def contentLength : ℤ :=
  match r.headers.lookup (ascii "content-length") with
  | some (hdr :: _) => if r.hasBody then (intOfString hdr).getD 0 else 0
  | _ => 0

end BRHTTPRequestImpl

def buffSize : ℕ := 4096

namespace HTTPConnection

theorem recv_lt {c : HTTPConnection} (hneg : ¬ (c.recv buffSize).1 < 0)
    (hfull : ¬ (c.recv buffSize).1 < buffSize) :
    (c.recv buffSize).2.2.incoming.length < c.incoming.length := by
  rcases c.recv_cases (show 0 < buffSize by decide) with ⟨hn, -⟩ | ⟨m, -, hm, -, hn, -, hin⟩
  · omega
  · have hpos : 0 < buffSize := by decide
    rw [hin, List.length_drop]
    omega

/-- The loop of `body`: the bytes, whether `_bodyRead` is set, and what is left. -/
def readBodyFrom (contentLength : ℤ) (c : HTTPConnection) (body : Bytes) (total : ℤ) :
    Option (Bytes × Bool × HTTPConnection) :=
  match _ : c.recv buffSize with
  | (n, buf, next) =>
    -- the range `0..<n` of a negative `n` traps
    if n < 0 then none
    else if n < buffSize then some (body ++ buf, true, next)
    else if total + n ≥ contentLength then some (body ++ buf, false, next)
    else readBodyFrom contentLength next (body ++ buf) (total + n)
termination_by c.incoming.length
decreasing_by
  rename_i hrecv hneg hfull _
  have hlt := recv_lt (c := c)
  rw [hrecv] at hlt
  exact hlt hneg hfull

end HTTPConnection

/-- `Data(bytesNoCopy:count:deallocator:)`: so many bytes, from the start of an array. -/
structure BytesNoCopy where
  array : Bytes
  count : ℤ
  deriving DecidableEq, Repr

/-- What is read through it, or `none` if there is memory beyond the array. -/
def BytesNoCopy.bytes (v : BytesNoCopy) : Option Bytes :=
  if v.count ≤ v.array.length then some (v.array.take v.count.toNat) else none

namespace BRHTTPRequestImpl

variable (r : BRHTTPRequestImpl)

/-- What `body` returns, if it does not trap. -/
def body : Option (Option BytesNoCopy × BRHTTPRequestImpl) :=
  match r.bodyRead, r.bodyBytes with
  | true, some bytes => some (some ⟨bytes, r.contentLength⟩, r)
  | true, none => some (none, r)
  | false, _ =>
    if r.contentLength > 0 then do
      let (body, bodyRead, connection) ←
        HTTPConnection.readBodyFrom r.contentLength r.connection [] 0
      some (some ⟨body, r.contentLength⟩, { r with bodyRead, bodyBytes := some body, connection })
    else some (none, r)

/-- So many calls of `body`. -/
def bodies : ℕ → BRHTTPRequestImpl → Option (List (Option BytesNoCopy) × BRHTTPRequestImpl)
  | 0, r => some ([], r)
  | calls + 1, r => do
    let (view, r) ← r.body
    let (views, r) ← bodies calls r
    some (view :: views, r)

/-- Every call returns the bytes of the body or nothing, and no more than the body is read. -/
def BodyExact (calls : ℕ) : Prop :=
  ∃ views r', r.bodies calls = some (views, r') ∧
    (∀ view, some view ∈ views → r.contentLength ≤ r.connection.incoming.length ∧
      view.bytes = some (r.connection.incoming.take r.contentLength.toNat)) ∧
    ∃ k ≤ r.contentLength.toNat, r'.connection.incoming = r.connection.incoming.drop k

end BRHTTPRequestImpl

namespace HTTPConnection

/-- The connection after so many calls of `recv` for the body. -/
def afterRecv (c : HTTPConnection) (i : ℕ) : HTTPConnection :=
  (fun c => (c.recv buffSize).2.2)^[i] c

/-- Each call of `recv` gets a whole buffer, and the last one the end of the `n` bytes. -/
def ArrivesWhole (c : HTTPConnection) (n : ℕ) : Prop :=
  ∀ i, buffSize * i < n →
    ((c.afterRecv i).recv buffSize).1 = min (buffSize : ℤ) (n - buffSize * i)

theorem afterRecv_succ (c : HTTPConnection) (i : ℕ) :
    c.afterRecv (i + 1) = (c.recv buffSize).2.2.afterRecv i := Function.iterate_succ_apply _ i c

theorem arrivesWhole_zero (c : HTTPConnection) : c.ArrivesWhole 0 := nofun

/-- The first call, and then the rest. -/
theorem arrivesWhole_iff (c : HTTPConnection) {n : ℕ} (hpos : 0 < n) :
    c.ArrivesWhole n ↔ (c.recv buffSize).1 = min (buffSize : ℤ) n ∧
      (c.recv buffSize).2.2.ArrivesWhole (n - buffSize) := by
  constructor
  · intro h
    refine ⟨by simpa [afterRecv] using h 0 (by omega), fun i hi => ?_⟩
    have hnext := h (i + 1) (by rw [Nat.mul_succ]; omega)
    rw [afterRecv_succ] at hnext
    rw [hnext, Nat.cast_succ, mul_add, mul_one, Nat.cast_sub (by omega)]
    congr 1
    ring
  · rintro ⟨hfirst, hrest⟩ i hi
    cases i with
    | zero => simpa [afterRecv] using hfirst
    | succ i =>
      rw [Nat.mul_succ] at hi
      rw [afterRecv_succ, hrest i (by omega), Nat.cast_succ, mul_add, mul_one,
        Nat.cast_sub (by omega)]
      congr 1
      ring

theorem readBodyFrom_of_recv {c : HTTPConnection} {k : ℕ} (contentLength total : ℤ) (body : Bytes)
    (hn : (c.recv buffSize).1 = k) (hbuf : (c.recv buffSize).2.1 = c.incoming.take k) :
    c.readBodyFrom contentLength body total =
      if k < buffSize then some (body ++ c.incoming.take k, true, (c.recv buffSize).2.2)
      else if total + k ≥ contentLength then
        some (body ++ c.incoming.take k, false, (c.recv buffSize).2.2)
      else (c.recv buffSize).2.2.readBodyFrom contentLength (body ++ c.incoming.take k)
        (total + k) := by
  rw [readBodyFrom]
  split
  rename_i n buf next heq
  rw [heq] at hn hbuf ⊢
  dsimp only at hn hbuf ⊢
  subst hn hbuf
  rw [if_neg (by omega)]
  simp only [Nat.cast_lt]

/-- Of `n + 1` bytes that are missing exactly these are read, or another number. -/
theorem readBodyFrom_cases (n : ℕ) (c : HTTPConnection) (body : Bytes) (hpos : 0 < n) :
    (c.ArrivesWhole n ∧ n ≤ c.incoming.length ∧ ∃ next, next.incoming = c.incoming.drop n ∧
      c.readBodyFrom (body.length + n : ℕ) body body.length =
        some (body ++ c.incoming.take n, decide (¬ buffSize ∣ n), next)) ∨
    (¬ c.ArrivesWhole n ∧ ∀ body' bodyRead next,
      c.readBodyFrom (body.length + n : ℕ) body body.length = some (body', bodyRead, next) →
        ∃ k ≤ c.incoming.length, k ≠ n ∧ body' = body ++ c.incoming.take k ∧
          next.incoming = c.incoming.drop k) := by
  induction n using Nat.strong_induction_on generalizing c body with
  | h n ih =>
    have hbuff : 0 < buffSize := by decide
    rw [c.arrivesWhole_iff hpos]
    rcases c.recv_cases hbuff with ⟨hn, -⟩ | ⟨k, hk, hlen, -, hn, hbuf, hin⟩
    · refine Or.inr ⟨fun h => ?_, fun body' bodyRead next h => ?_⟩
      · have h1 := h.1
        omega
      · rw [readBodyFrom] at h
        split at h
        rename_i n buf next' heq
        rw [heq] at hn
        rw [if_pos (by omega)] at h
        cases h
    · rw [readBodyFrom_of_recv _ _ _ hn hbuf, hn]
      have hext (m : ℕ) : (c.recv buffSize).2.2.incoming.take m =
          (c.incoming.drop k).take m := by rw [hin]
      split_ifs with hfull htotal
      · -- the last bytes that there are, or a part of them
        by_cases hkn : k = n
        · subst hkn
          refine Or.inl ⟨⟨by omega, ?_⟩, hlen, _, hin, ?_⟩
          · rw [Nat.sub_eq_zero_of_le hk]
            exact arrivesWhole_zero _
          · have hdvd : ¬ buffSize ∣ k := fun h => by
              have hle := Nat.le_of_dvd hpos h
              omega
            rw [decide_eq_true hdvd]
        · refine Or.inr ⟨fun h => ?_, fun body' bodyRead next h => ?_⟩
          · have h1 := h.1
            omega
          · obtain ⟨rfl, hrest⟩ := Prod.mk.inj (Option.some.inj h)
            obtain ⟨-, rfl⟩ := Prod.mk.inj hrest
            exact ⟨k, hlen, hkn, rfl, hin⟩
      · obtain rfl : k = buffSize := by omega
        by_cases hkn : buffSize = n
        · subst hkn
          refine Or.inl ⟨⟨by omega, ?_⟩, hlen, _, hin, ?_⟩
          · rw [Nat.sub_self]
            exact arrivesWhole_zero _
          · rw [decide_eq_false (not_not_intro (dvd_refl _))]
        · refine Or.inr ⟨fun h => ?_, fun body' bodyRead next h => ?_⟩
          · have h1 := h.1
            omega
          · obtain ⟨rfl, hrest⟩ := Prod.mk.inj (Option.some.inj h)
            obtain ⟨-, rfl⟩ := Prod.mk.inj hrest
            exact ⟨buffSize, hlen, hkn, rfl, hin⟩
      · obtain rfl : k = buffSize := by omega
        have hmore : buffSize < n := by omega
        have hbody : body.length + n =
            (body ++ c.incoming.take buffSize).length + (n - buffSize) := by
          rw [List.length_append, List.length_take_of_le hlen]
          omega
        have htotal' : (body.length : ℤ) + buffSize =
            (body ++ c.incoming.take buffSize).length := by
          rw [List.length_append, List.length_take_of_le hlen, Nat.cast_add]
        have htake : c.incoming.take buffSize ++ (c.incoming.drop buffSize).take (n - buffSize) =
            c.incoming.take n := by
          rw [← List.take_add, Nat.add_sub_cancel' hmore.le]
        rw [hbody, htotal']
        rcases ih (n - buffSize) (by omega) (c.recv buffSize).2.2
          (body ++ c.incoming.take buffSize) (by omega) with
          ⟨hwhole, hle, next, hnext, heq⟩ | ⟨hno, hall⟩
        · rw [hin, List.length_drop] at hle
          refine Or.inl ⟨⟨by omega, hwhole⟩, by omega, next, ?_, ?_⟩
          · rw [hnext, hin, List.drop_drop, Nat.add_sub_cancel' hmore.le]
          · have hdvd : buffSize ∣ n - buffSize ↔ buffSize ∣ n :=
              Nat.dvd_sub_self_right.trans (or_iff_left (by omega))
            rw [heq, hext, List.append_assoc, htake, decide_eq_decide.2 (not_congr hdvd)]
        · refine Or.inr ⟨fun h => hno h.2, fun body' bodyRead next h => ?_⟩
          obtain ⟨k, hk, hkn, rfl, hnext⟩ := hall _ _ _ h
          rw [hin, List.length_drop] at hk
          refine ⟨buffSize + k, by omega, by omega, ?_, ?_⟩
          · rw [hext, List.append_assoc, ← List.take_add]
          · rw [hnext, hin, List.drop_drop]

end HTTPConnection

namespace BRHTTPRequestImpl

variable {r : BRHTTPRequestImpl}

theorem bodies_succ (calls : ℕ) :
    r.bodies (calls + 1) = r.body.bind fun p =>
      (p.2.bodies calls).bind fun q => some (p.1 :: q.1, q.2) := rfl

theorem of_bodies_succ {calls : ℕ} {views : List (Option BytesNoCopy)} {r' : BRHTTPRequestImpl}
    (h : r.bodies (calls + 1) = some (views, r')) :
    ∃ view next views', r.body = some (view, next) ∧ next.bodies calls = some (views', r') ∧
      views = view :: views' := by
  rw [bodies_succ, Option.bind_eq_some_iff] at h
  obtain ⟨⟨view, next⟩, hbody, h⟩ := h
  obtain ⟨⟨views', last⟩, hbodies, hsome⟩ := Option.bind_eq_some_iff.1 h
  obtain ⟨rfl, rfl⟩ := Prod.mk.inj (Option.some.inj hsome)
  exact ⟨view, next, views', hbody, hbodies, rfl⟩

/-- What is returned again, without reading. -/
theorem bodies_of_body {view : Option BytesNoCopy} (h : r.body = some (view, r)) (calls : ℕ) :
    r.bodies calls = some (List.replicate calls view, r) := by
  induction calls with
  | zero => rfl
  | succ calls ih => rw [bodies_succ, h, Option.bind_some, ih]; rfl

/-- A call that reads gets the `n` bytes of the body, or another number of bytes. -/
theorem body_cases {n : ℕ} (hfresh : r.bodyRead = false) (hn : r.contentLength = n) (hpos : 0 < n) :
    (r.connection.ArrivesWhole n ∧ n ≤ r.connection.incoming.length ∧
      ∃ r', r.body = some (some ⟨r.connection.incoming.take n, n⟩, r') ∧
        r'.connection.incoming = r.connection.incoming.drop n ∧ r'.contentLength = n ∧
          r'.bodyRead = decide (¬ buffSize ∣ n) ∧
            r'.bodyBytes = some (r.connection.incoming.take n)) ∨
    (¬ r.connection.ArrivesWhole n ∧ ∀ view r', r.body = some (view, r') →
      ∃ k ≤ r.connection.incoming.length, k ≠ n ∧
        view = some ⟨r.connection.incoming.take k, n⟩ ∧
          r'.connection.incoming = r.connection.incoming.drop k) := by
  have hbody : r.body = (r.connection.readBodyFrom n [] 0).bind fun p =>
      some (some ⟨p.1, n⟩,
        { r with bodyRead := p.2.1, bodyBytes := some p.1, connection := p.2.2 }) := by
    rw [body, hfresh, hn]
    dsimp only
    rw [if_pos (by omega)]
    rfl
  have hcases := HTTPConnection.readBodyFrom_cases n r.connection [] hpos
  simp only [List.length_nil, Nat.zero_add, List.nil_append, Nat.cast_zero] at hcases
  rcases hcases with ⟨hwhole, hle, next, hnext, heq⟩ | ⟨hno, hall⟩
  · rw [heq, Option.bind_some] at hbody
    exact Or.inl ⟨hwhole, hle, _, hbody, hnext, hn, rfl, rfl⟩
  · refine Or.inr ⟨hno, fun view r' h => ?_⟩
    rw [hbody, Option.bind_eq_some_iff] at h
    obtain ⟨⟨body', bodyRead, next⟩, hread, hsome⟩ := h
    obtain ⟨k, hk, hkn, rfl, hnext⟩ := hall _ _ _ hread
    obtain ⟨rfl, rfl⟩ := Prod.mk.inj (Option.some.inj hsome)
    exact ⟨k, hk, hkn, rfl, hnext⟩

/-- A call that reads returns a view of the bytes it reads. -/
theorem body_reads {n : ℕ} {view : Option BytesNoCopy} {r' : BRHTTPRequestImpl}
    (hfresh : r.bodyRead = false) (hn : r.contentLength = n) (hpos : 0 < n)
    (h : r.body = some (view, r')) :
    ∃ k ≤ r.connection.incoming.length, view = some ⟨r.connection.incoming.take k, n⟩ ∧
      r'.connection.incoming = r.connection.incoming.drop k := by
  rcases body_cases hfresh hn hpos with ⟨-, hle, r₁, heq, hnext, -⟩ | ⟨-, hall⟩
  · rw [heq] at h
    obtain ⟨rfl, rfl⟩ := Prod.mk.inj (Option.some.inj h)
    exact ⟨n, hle, rfl, hnext⟩
  · obtain ⟨k, hk, -, hview, hin⟩ := hall _ _ h
    exact ⟨k, hk, hview, hin⟩

/-- Without a body nothing is returned, and nothing read. -/
theorem body_of_contentLength_nonpos (hfresh : r.bodyRead = false) (hn : r.contentLength ≤ 0) :
    r.body = some (none, r) := by
  rw [body, hfresh]
  dsimp only
  rw [if_neg (by omega)]

theorem body_of_bodyRead (hread : r.bodyRead = true) :
    r.body = some (r.bodyBytes.map fun bytes => ⟨bytes, r.contentLength⟩, r) := by
  rw [body, hread]
  cases r.bodyBytes <;> rfl

/-- The number of bytes that are left does not grow. -/
theorem body_length {view : Option BytesNoCopy} {r' : BRHTTPRequestImpl}
    (h : r.body = some (view, r')) :
    r'.connection.incoming.length ≤ r.connection.incoming.length := by
  cases hread : r.bodyRead with
  | true =>
    rw [body_of_bodyRead hread] at h
    obtain ⟨-, rfl⟩ := Prod.mk.inj (Option.some.inj h)
    exact le_rfl
  | false =>
    by_cases hn : r.contentLength ≤ 0
    · rw [body_of_contentLength_nonpos hread hn] at h
      obtain ⟨-, rfl⟩ := Prod.mk.inj (Option.some.inj h)
      exact le_rfl
    · obtain ⟨n, hcl⟩ := Int.eq_ofNat_of_zero_le (show 0 ≤ r.contentLength by omega)
      obtain ⟨k, -, -, hin⟩ := body_reads hread hcl (by omega) h
      rw [hin, List.length_drop]
      exact Nat.sub_le _ _

theorem bodies_length {calls : ℕ} {views : List (Option BytesNoCopy)} {r' : BRHTTPRequestImpl}
    (h : r.bodies calls = some (views, r')) :
    r'.connection.incoming.length ≤ r.connection.incoming.length := by
  induction calls generalizing r views with
  | zero =>
    obtain ⟨-, rfl⟩ := Prod.mk.inj (Option.some.inj h)
    exact le_rfl
  | succ calls ih =>
    obtain ⟨view, next, views', hbody, hbodies, -⟩ := of_bodies_succ h
    exact (ih hbodies).trans (body_length hbody)

theorem bytes_eq_none {array : Bytes} {n : ℕ} (h : array.length < n) :
    (BytesNoCopy.mk array n).bytes = none := if_neg (by dsimp only; omega)

theorem bytes_take {array : Bytes} {n : ℕ} (h : n ≤ array.length) :
    (BytesNoCopy.mk (array.take n) n).bytes = some (array.take n) := by
  have hlen : (array.take n).length = n := List.length_take_of_le h
  rw [BytesNoCopy.bytes, if_pos (by dsimp only; omega)]
  dsimp only
  rw [Int.toNat_natCast, List.take_take, Nat.min_self]

/-- The bytes of the body are read exactly if they arrive whole and are not read again. -/
theorem bodyExact_iff (hfresh : r.bodyRead = false) (calls : ℕ) :
    r.BodyExact (calls + 1) ↔ r.contentLength ≤ 0 ∨
      r.connection.ArrivesWhole r.contentLength.toNat ∧
        (calls = 0 ∨ ¬ buffSize ∣ r.contentLength.toNat) := by
  by_cases hcl : r.contentLength ≤ 0
  · refine iff_of_true ⟨_, _, bodies_of_body (body_of_contentLength_nonpos hfresh hcl) _, ?_, ?_⟩
      (Or.inl hcl)
    · intro view hview
      exact absurd (List.eq_of_mem_replicate hview) (Option.some_ne_none _)
    · exact ⟨0, Nat.zero_le _, List.drop_zero.symm⟩
  · obtain ⟨n, hn⟩ := Int.eq_ofNat_of_zero_le (show 0 ≤ r.contentLength by omega)
    have hpos : 0 < n := by omega
    rw [or_iff_right hcl, BodyExact, hn, Int.toNat_natCast]
    rcases body_cases hfresh hn hpos with
      ⟨hwhole, hle, r₁, hbody, hnext, hn₁, hread, hbytes⟩ | ⟨hno, hall⟩
    · rw [and_iff_right hwhole]
      by_cases hdvd : buffSize ∣ n
      · rw [or_iff_left (not_not_intro hdvd)]
        cases calls with
        | zero =>
          refine iff_of_true ⟨_, _, by rw [bodies_succ, hbody]; rfl, ?_, n, le_rfl, hnext⟩ rfl
          intro view hview
          obtain rfl := Option.some.inj (List.mem_singleton.1 hview)
          exact ⟨by omega, bytes_take hle⟩
        | succ calls =>
          -- the second call reads again
          refine iff_of_false ?_ (Nat.succ_ne_zero calls)
          rintro ⟨views, r', h, hviews, k', hk', hr'⟩
          obtain ⟨view, next, views₁, hfirst, h₁, rfl⟩ := of_bodies_succ h
          rw [hbody] at hfirst
          obtain ⟨rfl, rfl⟩ := Prod.mk.inj (Option.some.inj hfirst)
          obtain ⟨view₂, r₂, views₂, hsecond, h₂, rfl⟩ := of_bodies_succ h₁
          rw [decide_eq_false (not_not_intro hdvd)] at hread
          obtain ⟨k, hk, rfl, hin⟩ := body_reads hread hn₁ hpos hsecond
          have hlen := bodies_length h₂
          rw [hin, hr', hnext] at hlen
          rw [hnext] at hk
          simp only [List.length_drop] at hk hlen
          have hnone := (hviews _ (List.mem_cons_of_mem _ List.mem_cons_self)).2
          rw [bytes_eq_none (by rw [hnext, List.length_take, List.length_drop]; omega)] at hnone
          exact Option.some_ne_none _ hnone.symm
      · rw [decide_eq_true hdvd] at hread
        have hagain := body_of_bodyRead hread
        rw [hbytes, hn₁, Option.map_some] at hagain
        have hviews : r.bodies (calls + 1) = some
            (List.replicate (calls + 1) (some ⟨r.connection.incoming.take n, n⟩), r₁) := by
          rw [bodies_succ, hbody, Option.bind_some, bodies_of_body hagain]
          rfl
        refine iff_of_true ⟨_, _, hviews, fun view hview => ?_, n, le_rfl, hnext⟩ (Or.inr hdvd)
        obtain rfl := Option.some.inj (List.eq_of_mem_replicate hview)
        exact ⟨by omega, bytes_take hle⟩
    · refine iff_of_false ?_ fun h => hno h.1
      rintro ⟨views, r', h, hviews, k', hk', hr'⟩
      obtain ⟨view, r₁, views₁, hfirst, h₁, rfl⟩ := of_bodies_succ h
      obtain ⟨k, hk, hkn, rfl, hin⟩ := hall _ _ hfirst
      have hlen := bodies_length h₁
      rw [hin, hr'] at hlen
      simp only [List.length_drop] at hlen
      obtain ⟨hle, hnone⟩ := hviews _ List.mem_cons_self
      rw [bytes_eq_none (by rw [List.length_take_of_le hk]; omega)] at hnone
      exact Option.some_ne_none _ hnone.symm

end BRHTTPRequestImpl

/-! ## Reading a request -/

namespace HTTPConnection

/-- None of the next calls of `recv` fails. -/
def Arrives (calls : ℕ) (arrivals : List Arrival) : Prop :=
  ∀ i < calls, arrivals[i]? ≠ some .error

theorem Arrives.mono {calls calls' : ℕ} {arrivals : List Arrival} (h : Arrives calls arrivals)
    (hle : calls' ≤ calls) : Arrives calls' arrivals := fun i hi => h i (by omega)

theorem Arrives.drop {calls k : ℕ} {arrivals : List Arrival} (h : Arrives (k + calls) arrivals) :
    Arrives calls (arrivals.drop k) := by
  intro i hi
  rw [List.getElem?_drop]
  exact h (k + i) (by omega)

/-- A byte arrives unless there is an error. -/
theorem read_cons (b : UInt8) (incoming : Bytes) {arrivals : List Arrival}
    (h : Arrives 1 arrivals) :
    read ⟨b :: incoming, arrivals⟩ = ((b.toNat : ℤ), ⟨incoming, arrivals.drop 1⟩) := by
  rcases arrivals with _ | ⟨more | -, arrivals⟩
  · rfl
  · have hone : min (more + 1) 1 = 1 := Nat.min_eq_right (Nat.le_add_left 1 more)
    simp only [read, recv, hone]
    rfl
  · exact absurd rfl (h 0 Nat.one_pos)

theorem readLineFrom_of_read {c c' : HTTPConnection} {n : ℤ} (h : c.read = (n, c'))
    (chars : Bytes) :
    c.readLineFrom chars = if n > 0 ∧ n ≠ 10 then c'.readLineFrom (pushChar chars n)
      else if n = -1 then none else some (pushChar chars n, c') := by
  rw [readLineFrom, h]

/-- A line without control characters, up to its end. -/
theorem readLineFrom_line (line rest chars : Bytes) (arrivals : List Arrival)
    (hline : ∀ b ∈ line, 13 < b) (h : Arrives (line.length + 2) arrivals) :
    readLineFrom ⟨line ++ 13 :: 10 :: rest, arrivals⟩ chars =
      some (chars ++ line, ⟨rest, arrivals.drop (line.length + 2)⟩) := by
  induction line generalizing chars arrivals with
  | nil =>
    rw [List.nil_append, readLineFrom_of_read (read_cons 13 _ (h.mono (by simp))),
      if_pos (by decide), readLineFrom_of_read (read_cons 10 _ (h.drop (k := 1))),
      if_neg (by decide), if_neg (by decide), pushChar, if_neg (by decide), pushChar,
      if_neg (by decide), List.append_nil, List.drop_drop]
    rfl
  | cons b line ih =>
    have hb : (13 : ℤ) < b.toNat := by
      have hlt := hline b List.mem_cons_self
      rw [UInt8.lt_iff_toNat_lt] at hlt
      exact_mod_cast hlt
    have hpush : pushChar chars b.toNat = chars ++ [b] := by
      rw [pushChar, if_pos hb, Int.toNat_natCast, UInt8.ofNat_toNat]
    have hlen : (b :: line).length + 2 = 1 + (line.length + 2) := by
      rw [List.length_cons, Nat.add_comm 1, Nat.add_right_comm]
    rw [hlen] at h ⊢
    rw [List.cons_append, readLineFrom_of_read (read_cons b _ (h.mono (Nat.le_add_right _ _))),
      if_pos (by omega), hpush, ih _ _ (fun x hx => hline x (List.mem_cons_of_mem _ hx)) h.drop,
      List.append_assoc, List.singleton_append, List.drop_drop]

end HTTPConnection

/-- The lines with their ends, and then an empty line. -/
def headBytes : List Bytes → Bytes
  | [] => [13, 10]
  | line :: lines => line ++ 13 :: 10 :: headBytes lines

/-- A line that is not empty, without control characters. -/
def IsLine (line : Bytes) : Prop := line ≠ [] ∧ ∀ b ∈ line, 13 < b

theorem readHeaders_of_readLine {c next : HTTPConnection} {hdr : Bytes}
    (h : c.readLine = some (hdr, next)) (headers : List (Bytes × List Bytes)) :
    readHeaders c headers =
      if hdr = [] then some (headers, next) else readHeaders next (addHeader headers hdr) := by
  rw [readHeaders]
  split
  · rename_i hnone
    rw [h] at hnone
    cases hnone
  · rename_i hsome
    rw [h] at hsome
    obtain ⟨rfl, rfl⟩ := Prod.mk.inj (Option.some.inj hsome)
    rfl

/-- The headers are those of the lines up to the empty one, however they arrive. -/
theorem readHeaders_lines (lines : List Bytes) (rest : Bytes)
    (headers : List (Bytes × List Bytes)) (arrivals : List Arrival)
    (hlines : ∀ line ∈ lines, IsLine line)
    (h : HTTPConnection.Arrives (headBytes lines).length arrivals) :
    readHeaders ⟨headBytes lines ++ rest, arrivals⟩ headers =
      some (lines.foldl addHeader headers, ⟨rest, arrivals.drop (headBytes lines).length⟩) := by
  induction lines generalizing headers arrivals with
  | nil =>
    have hread := HTTPConnection.readLineFrom_line [] rest [] arrivals (by simp) h
    exact (readHeaders_of_readLine hread headers).trans (if_pos rfl)
  | cons line lines ih =>
    have hlen : (headBytes (line :: lines)).length =
        line.length + 2 + (headBytes lines).length := by
      rw [headBytes, List.length_append, List.length_cons, List.length_cons]
      omega
    rw [hlen] at h ⊢
    obtain ⟨hne, hchars⟩ := hlines line List.mem_cons_self
    have hread := HTTPConnection.readLineFrom_line line (headBytes lines ++ rest) [] arrivals
      hchars (h.mono (Nat.le_add_right _ _))
    rw [List.nil_append] at hread
    rw [headBytes, List.append_assoc, List.cons_append, List.cons_append,
      readHeaders_of_readLine hread, if_neg hne,
      ih _ _ (fun x hx => hlines x (List.mem_cons_of_mem _ hx)) h.drop, List.drop_drop]
    rfl

namespace BRHTTPRequestImpl

/-- A request whose head arrives has the method of its first line and the headers of the other
    ones, and what follows the empty line is left. -/
theorem init_of_lines {status method path version : Bytes} {more : List Bytes}
    (hparts : status.splitOn 32 = method :: path :: version :: more) (lines : List Bytes)
    (rest : Bytes) (arrivals : List Arrival) (hlines : ∀ line ∈ status :: lines, IsLine line)
    (h : HTTPConnection.Arrives (headBytes (status :: lines)).length arrivals) :
    ∃ r, init ⟨headBytes (status :: lines) ++ rest, arrivals⟩ = some r ∧ r.method = method ∧
      r.headers = lines.foldl addHeader [] ∧
        r.connection = ⟨rest, arrivals.drop (headBytes (status :: lines)).length⟩ := by
  have hlen : (headBytes (status :: lines)).length =
      status.length + 2 + (headBytes lines).length := by
    rw [headBytes, List.length_append, List.length_cons, List.length_cons]
    omega
  rw [hlen] at h ⊢
  have hread := HTTPConnection.readLineFrom_line status (headBytes lines ++ rest) [] arrivals
    (hlines status List.mem_cons_self).2 (h.mono (Nat.le_add_right _ _))
  have hheaders := readHeaders_lines lines rest [] _
    (fun x hx => hlines x (List.mem_cons_of_mem _ hx)) h.drop
  rw [List.nil_append] at hread
  rw [List.drop_drop] at hheaders
  rw [headBytes, List.append_assoc, List.cons_append, List.cons_append, init,
    HTTPConnection.readLine, hread]
  simp only [Option.bind_eq_bind, Option.bind_some, hparts, hheaders]
  split_ifs
  · exact ⟨_, rfl, rfl, rfl, rfl⟩
  · exact ⟨_, rfl, rfl, rfl, rfl⟩

/-- A request that was read has no body yet. -/
theorem bodyRead_of_init {c : HTTPConnection} {r : BRHTTPRequestImpl} (h : init c = some r) :
    r.bodyRead = false := by
  unfold init at h
  obtain ⟨⟨status, c₁⟩, -, h⟩ := Option.bind_eq_some_iff.1 h
  dsimp only at h
  split at h
  · obtain ⟨⟨headers, connection⟩, -, h⟩ := Option.bind_eq_some_iff.1 h
    dsimp only at h
    split_ifs at h <;> cases h <;> rfl
  · cases h

end BRHTTPRequestImpl

/-- The bytes of the body are read exactly if they arrive whole: each call of `recv` gets 4096 of
    them, and the last one the rest.  A body whose length is a multiple of 4096 is read again in the
    next call. -/
theorem body_iff {c : HTTPConnection} {r : BRHTTPRequestImpl}
    (h : BRHTTPRequestImpl.init c = some r) (calls : ℕ) :
    r.BodyExact (calls + 1) ↔ r.contentLength ≤ 0 ∨
      r.connection.ArrivesWhole r.contentLength.toNat ∧
        (calls = 0 ∨ ¬ buffSize ∣ r.contentLength.toNat) :=
  BRHTTPRequestImpl.bodyExact_iff (BRHTTPRequestImpl.bodyRead_of_init h) calls

/-- A `POST` of two bytes. -/
def postHead : List Bytes := [ascii "POST / HTTP/1.1", ascii "Content-Length: 2"]

theorem isLine_postHead : ∀ line ∈ postHead, IsLine line := by
  have hall : postHead.all (fun line => !line.isEmpty && line.all fun b => decide (13 < b)) := rfl
  intro line hline
  have h := List.all_eq_true.1 hall line hline
  rw [Bool.and_eq_true] at h
  exact ⟨by simpa using h.1, by simpa using h.2⟩

/-- What is read of it. -/
theorem init_postHead (rest : Bytes) (arrivals : List Arrival)
    (h : HTTPConnection.Arrives (headBytes postHead).length arrivals) :
    ∃ r, BRHTTPRequestImpl.init ⟨headBytes postHead ++ rest, arrivals⟩ = some r ∧
      r.contentLength = 2 ∧
        r.connection = ⟨rest, arrivals.drop (headBytes postHead).length⟩ := by
  have hparts : (ascii "POST / HTTP/1.1").splitOn 32 =
      [ascii "POST", ascii "/", ascii "HTTP/1.1"] := by decide
  obtain ⟨r, hinit, hmethod, hheaders, hconn⟩ := BRHTTPRequestImpl.init_of_lines hparts
    [ascii "Content-Length: 2"] rest arrivals isLine_postHead h
  refine ⟨r, hinit, ?_, hconn⟩
  have hlookup : r.headers.lookup (ascii "content-length") = some [ascii "2"] := by
    rw [hheaders]
    decide
  have hbody : r.hasBody = true := by
    rw [BRHTTPRequestImpl.hasBody, hmethod]
    decide
  rw [BRHTTPRequestImpl.contentLength, hlookup]
  dsimp only
  rw [if_pos hbody]
  decide

/-- The two bytes arrive together. -/
theorem body_iff_postHead :
    ∃ c r, BRHTTPRequestImpl.init c = some r ∧ r.contentLength = 2 ∧ r.BodyExact 1 := by
  obtain ⟨r, hinit, hlen, hconn⟩ := init_postHead (ascii "hi") [] nofun
  have hwhole : r.connection.ArrivesWhole r.contentLength.toNat := by
    rw [hlen, hconn]
    exact (HTTPConnection.arrivesWhole_iff _ (by decide)).2
      ⟨by decide, HTTPConnection.arrivesWhole_zero _⟩
  exact ⟨_, r, hinit, hlen, (body_iff hinit 0).2 (Or.inr ⟨hwhole, Or.inl rfl⟩)⟩

/-- The two bytes arrive one after the other. -/
theorem not_body : ¬ ∀ (c : HTTPConnection) (r : BRHTTPRequestImpl),
    BRHTTPRequestImpl.init c = some r → 0 ≤ r.contentLength → r.BodyExact 1 := by
  intro h
  have harrives (calls : ℕ) : HTTPConnection.Arrives calls
      (List.replicate ((headBytes postHead).length + 1) (.bytes 0)) := by
    intro i _ herror
    exact Arrival.noConfusion (List.eq_of_mem_replicate (List.mem_of_getElem? herror))
  obtain ⟨r, hinit, hlen, hconn⟩ := init_postHead (ascii "hi") _ (harrives _)
  have hexact := h _ r hinit (by omega)
  rw [BRHTTPRequestImpl.bodyExact_iff (BRHTTPRequestImpl.bodyRead_of_init hinit) 0] at hexact
  rcases hexact with hle | ⟨hwhole, -⟩
  · omega
  · rw [hlen, hconn, HTTPConnection.arrivesWhole_iff _ (by decide)] at hwhole
    rw [List.drop_replicate, Nat.add_sub_cancel_left] at hwhole
    exact absurd hwhole.1 (by decide)

end RavenWallet
