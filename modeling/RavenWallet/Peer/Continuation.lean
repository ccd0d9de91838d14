/-
  How the headers go on (`_PeerAcceptHeadersMessage` of BRPeer.c).

  A well-formed message has some headers of 81 bytes and behind them some of 121
  bytes, and each header names the hash of the one before it.  What is asked for
  next should go on behind the last header, or, once one of them is inside the
  window before `earliestKeyTime`, behind the last header before the window.

  * `continuation`: what `acceptHeadersMessage` does before it relays headers;
  * `Continues`: the time that it compares and the locator it sends are right;
  * `continues_iff`: this is so only of some messages.  With three or more of the
    longer headers the time is that of the last but one, with one or two of them
    the last header is taken for a short one, and the first header of the window
    must not be a longer one nor the first one of all.
-/
import RavenWallet.Peer.Headers

namespace RavenWallet

/-- Longer messages are not received. -/
def MAX_MSG_LENGTH : ℕ := 0x02000000

/-! ## Hashes -/

/-- The functions that hash a header. -/
inductive HeaderHash where
  | x16r
  | x16rv2
  | kawpow
  deriving DecidableEq

namespace HeaderHash

/-- The function for a header with the given timestamp. -/
def of (timestamp : UInt32) : HeaderHash :=
  if timestamp ≥ KAWPOW_ActivationTime then kawpow
  else if timestamp ≥ X16RV2ActivationTime then x16rv2
  else x16r

/-- The hash of the header at `p`. -/
def hashAt (K : BlockHashes) (msg : Bytes) (p : ℕ) : HeaderHash → UInt256
  | x16r => get256 (K.x16r ((msg.drop p).take 80))
  | x16rv2 => get256 (K.x16rv2 ((msg.drop p).take 80))
  | kawpow => get256 (K.lightVerify (K.sha256_2 ((msg.drop p).take 80)).reverse
      ((msg.drop (p + 88)).take 32).reverse
      (UInt64.ofNat (ofLE ((msg.drop (p + 80)).take 8)))).reverse

variable {timestamp : UInt32}

theorem of_new (h : isNew timestamp = true) : of timestamp = kawpow := if_pos (of_decide_eq_true h)

theorem of_not_new (h : ¬ isNew timestamp = true) :
    of timestamp = if timestamp ≥ X16RV2ActivationTime then x16rv2 else x16r :=
  if_neg fun hnew => h (decide_eq_true hnew)

end HeaderHash

namespace BRPeerContext

variable (E : PeerEnv) (ctx : BRPeerContext) (msg : Bytes)

theorem lightHash_eq {p : ℕ} (h : p + 120 ≤ msg.length) :
    lightHash E msg p = some (HeaderHash.kawpow.hashAt E.K msg p) := by
  rw [lightHash, getLE_of_le (by omega), getLE_of_le (by omega), peek, peek, if_pos (by omega),
    if_pos (by omega)]
  rfl

theorem oldHash_eq {timestamp : UInt32} {p : ℕ} (hp : p < 2 ^ 64) (h : p + 80 ≤ msg.length) :
    oldHash E msg timestamp p = some
      ((if timestamp ≥ X16RV2ActivationTime then HeaderHash.x16rv2 else HeaderHash.x16r).hashAt
        E.K msg p) := by
  rw [oldHash, wrap64_of_lt hp, peek, if_pos h, Option.map_some]
  split_ifs
  · rfl
  · rfl

/-! ## The part before the headers are relayed -/

/-- A header of the given time is inside the window: it is not from long before the wallet. -/
def inWindow (timestamp : UInt32) : Bool := decide (timestamp > 0) && ctx.isFresh timestamp

/-- The part of `acceptHeadersMessage` before the headers are relayed: where they lie, and what is
    asked for next. -/
def continuation : Option (HeaderSpan × Option PeerEvent) := do
  let (count, off) := varInt msg
  let timestamp ← countedStamp msg count (off + 81 * (count - 1))
  let first ← countedStamp msg count off
  let s ← headerSpan msg off count timestamp first
  if count ≥ 2000 ∨ (s.timestamp > 0 ∧ ctx.isFresh s.timestamp) then do
    let request ← ctx.nextRequest E msg off count first s
    some (s, some request)
  else some (s, none)

end BRPeerContext

/-! ## Well-formed messages -/

/-- Where the header with number `i` begins, `old` of them being short. -/
def headerStart (off old i : ℕ) : ℕ := off + 81 * min i old + 121 * (i - old)

/-- The hash of the header before the one at `p`. -/
def prevBlockAt (msg : Bytes) (p : ℕ) : UInt256 := get256 ((msg.drop (p + 4)).take 32)

/-- A message with `old` headers of 81 bytes and behind them `new` ones of 121 bytes, each of its
    own age, in the order of a chain. -/
structure HeadersMessage (K : BlockHashes) where
  msg : Bytes
  off : ℕ
  old : ℕ
  new : ℕ
  varInt_eq : varInt msg = (old + new, off)
  pos : 0 < old + new
  length_eq : msg.length = off + 81 * old + 121 * new
  length_le : msg.length ≤ MAX_MSG_LENGTH
  old_time : ∀ i < old,
    BRPeerContext.stamp msg (headerStart off old i) < KAWPOW_ActivationTime
  new_time : ∀ i < new,
    BRPeerContext.stamp msg (headerStart off old (old + i)) ≥ KAWPOW_ActivationTime
  linked : ∀ i < old + new - 1, prevBlockAt msg (headerStart off old (i + 1)) =
    (HeaderHash.of (BRPeerContext.stamp msg (headerStart off old i))).hashAt K msg
      (headerStart off old i)

namespace HeadersMessage

open BRPeerContext

variable {K : BlockHashes} (m : HeadersMessage K) (ctx : BRPeerContext)

def count : ℕ := m.old + m.new
def start (i : ℕ) : ℕ := headerStart m.off m.old i
def time (i : ℕ) : UInt32 := stamp m.msg (m.start i)
def prevBlock (i : ℕ) : UInt256 := prevBlockAt m.msg (m.start i)
def blockHash (i : ℕ) : UInt256 := (HeaderHash.of (m.time i)).hashAt K m.msg (m.start i)

/-- The number of the last header. -/
def last : ℕ := m.count - 1

/-- Where a last header of 81 bytes would begin if there were no longer ones. -/
def shortLast : ℕ := m.off + 81 * m.last

/-- The number of the first header inside the window. -/
def firstInside : ℕ := (List.range m.count).findIdx fun i => ctx.inWindow (m.time i)

/-! ### Offsets -/

theorem length_lt : m.msg.length < 2 ^ 26 := m.length_le.trans_lt (by decide)

theorem count_eq : m.count = m.old + m.new := rfl

theorem count_pos : 0 < m.count := m.pos

theorem last_lt : m.last < m.count := Nat.sub_lt m.count_pos Nat.one_pos

theorem start_old {i : ℕ} (h : i ≤ m.old) : m.start i = m.off + 81 * i := by
  rw [start, headerStart, Nat.min_eq_left h, Nat.sub_eq_zero_of_le h]
  omega

theorem start_new (i : ℕ) : m.start (m.old + i) = m.off + 81 * m.old + 121 * i := by
  rw [start, headerStart, Nat.min_eq_right (Nat.le_add_right _ _), Nat.add_sub_cancel_left]

theorem start_add_le {i : ℕ} (h : i < m.count) : m.start i + 81 ≤ m.msg.length := by
  have hlength := m.length_eq
  rw [count_eq] at h
  rw [start, headerStart]
  omega

theorem start_new_add_le {i : ℕ} (hi : m.old ≤ i) (h : i < m.count) :
    m.start i + 121 ≤ m.msg.length := by
  have hlength := m.length_eq
  rw [count_eq] at h
  rw [start, headerStart]
  omega

/-- The last header, if it is a longer one, is at the end. -/
theorem start_last (h : 0 < m.new) : m.start m.last + 121 = m.msg.length := by
  have hlength := m.length_eq
  rw [start, headerStart, last, count_eq]
  omega

theorem start_inj {i j : ℕ} (h : m.start i = m.start j) : i = j := by
  rw [start, start, headerStart, headerStart] at h
  omega

theorem start_shortLast (h : m.new ≤ 1) : m.start m.last = m.shortLast :=
  m.start_old (by rw [last, count_eq]; omega)

theorem shortLast_add_le : m.shortLast + 81 ≤ m.msg.length := by
  have hlength := m.length_eq
  have hpos := m.pos
  rw [shortLast, last, count_eq]
  omega

/-! ### Times -/

theorem isNew_iff {i : ℕ} (h : i < m.count) : isNew (m.time i) = true ↔ m.old ≤ i := by
  constructor
  · intro hnew
    by_contra hlt
    exact UInt32.not_lt.2 (of_decide_eq_true hnew) (m.old_time i (Nat.not_le.1 hlt))
  · intro hle
    obtain ⟨j, rfl⟩ := Nat.exists_eq_add_of_le hle
    exact decide_eq_true (m.new_time j (by rw [count_eq] at h; omega))

theorem isOld_iff {i : ℕ} (h : i < m.count) :
    isOld (m.time i) = true ↔ 0 < m.time i ∧ i < m.old := by
  rw [isOld, decide_eq_true_iff, ← Nat.not_le, ← m.isNew_iff h, isNew, decide_eq_true_iff,
    ge_iff_le, UInt32.not_le]

theorem time_pos {i : ℕ} (hi : m.old ≤ i) (h : i < m.count) : 0 < m.time i := by
  have hnew : m.time i ≥ KAWPOW_ActivationTime := of_decide_eq_true ((m.isNew_iff h).2 hi)
  have hpos : (0 : UInt32) < KAWPOW_ActivationTime := by decide
  exact UInt32.lt_of_lt_of_le hpos hnew

theorem stampFits {p : ℕ} (h : p + 72 ≤ m.msg.length) : StampFits m.msg p := by
  have hlt := m.length_lt
  rw [StampFits, wrap64_of_lt (by omega)]
  omega

theorem stampAt_eq {p : ℕ} (h : p + 72 ≤ m.msg.length) : stampAt m.msg p = some (stamp m.msg p) :=
  (stampAt_yields m.msg p).some_of (m.stampFits h)

theorem stampAt_start {i : ℕ} (h : i < m.count) : stampAt m.msg (m.start i) = some (m.time i) :=
  m.stampAt_eq (by have := m.start_add_le h; omega)

/-! ### Parsed headers -/

/-! ### Where the longer headers begin -/

theorem countedStamp_eq {p : ℕ} (h : p + 72 ≤ m.msg.length) :
    countedStamp m.msg m.count p = some (stamp m.msg p) := by
  rw [countedStamp, if_pos m.count_pos, m.stampAt_eq h]

theorem countedStamp_first : countedStamp m.msg m.count m.off = some (m.time 0) := by
  have hle := m.start_add_le m.count_pos
  have hstart : m.start 0 = m.off := m.start_old (Nat.zero_le _)
  rw [hstart] at hle
  rw [m.countedStamp_eq (by omega), time, hstart]

theorem countedStamp_last :
    countedStamp m.msg m.count m.shortLast = some (stamp m.msg m.shortLast) :=
  m.countedStamp_eq (by have := m.shortLast_add_le; omega)

/-- One or two longer headers are not noticed. -/
theorem headerSpan_short (h : m.new ≤ 2) (timestamp first : UInt32) :
    headerSpan m.msg m.off m.count timestamp first = some (allOld m.count timestamp first) := by
  have hlength := m.length_eq
  have hlt := m.length_lt
  rw [headerSpan, if_neg]
  rw [count_eq, wrap64_of_lt (by omega)]
  omega

/-- The timestamps up to the first header that is not old. -/
theorem oldStamps_eq {q : ℕ} (hq : q ≤ m.old) (hcount : q < m.count)
    (hold : ∀ i < q, isOld (m.time i)) (hstop : isOld (m.time q) = false) :
    oldStamps m.msg m.off m.count (m.time 0) = some ((List.range' 0 (q + 1)).map m.time) := by
  rw [oldStamps]
  rcases Nat.eq_zero_or_pos q with rfl | hpos
  · rw [hstop]
    rfl
  · have htime : ∀ j, 1 ≤ j → j < 1 + q → stampAt m.msg (m.off + 81 * j) = some (m.time j) := by
      intro j _ hj
      rw [← m.start_old (by omega), m.stampAt_start (by omega)]
    rw [if_pos (hold 0 hpos), Items.readWhile_range htime (fun j _ hj => hold j (by omega))
      (by omega) fun _ => ⟨hpos, by rwa [Nat.add_sub_cancel_left]⟩]
    rfl

theorem getLastD_range' (f : ℕ → UInt32) (i n : ℕ) (d : UInt32) :
    ((List.range' i (n + 1)).map f).getLastD d = f (i + n) := by
  rw [List.range'_concat, List.map_append, Nat.one_mul]
  exact List.getLastD_concat

theorem nextHeader_eq {q : ℕ} (hstop : isOld (m.time q) = false) :
    nextHeader m.count ((List.range' 0 (q + 1)).map m.time) = q := by
  rw [nextHeader, getLastD_range', Nat.zero_add, hstop, List.length_map, List.length_range']
  rfl

theorem headerSpan_long (h : 3 ≤ m.new) (timestamp : UInt32) {q : ℕ} (hq : q ≤ m.old)
    (hold : ∀ i < q, isOld (m.time i)) (hstop : isOld (m.time q) = false) :
    headerSpan m.msg m.off m.count timestamp (m.time 0) =
      (newStamps m.msg (m.off + 81 * q) (m.count - q - 1) (m.time q)).map fun stamps =>
        newFrom m.off q (stamps.getLastD 0) := by
  have hlength := m.length_eq
  have hlt := m.length_lt
  have hcount := m.count_eq
  have hne : q ≠ m.count := by omega
  rw [headerSpan, if_pos, m.oldStamps_eq hq (by omega) hold hstop, Option.bind_some, spanOf]
  · rw [m.nextHeader_eq hstop, if_neg hne, getLastD_range', Nat.zero_add]
  · rw [wrap64_of_lt (by omega)]
    omega

/-- With three longer headers or more the time is that of the last but one. -/
theorem headerSpan_dated (h : 3 ≤ m.new) (timestamp : UInt32) (hpos : ∀ i < m.old, 0 < m.time i) :
    headerSpan m.msg m.off m.count timestamp (m.time 0) =
      some (newFrom m.off m.old (m.time (m.last - 1))) := by
  have hcount := m.count_eq
  have hnew : isNew (m.time m.old) = true := (m.isNew_iff (by omega)).2 (le_refl _)
  have hold : ∀ i < m.old, isOld (m.time i) :=
    fun i hi => (m.isOld_iff (by omega)).2 ⟨hpos i hi, hi⟩
  have hstop : isOld (m.time m.old) = false :=
    Bool.eq_false_iff.2 fun hyes => absurd ((m.isOld_iff (by omega)).1 hyes).2 (Nat.lt_irrefl _)
  have htime : ∀ j, 0 ≤ j → j < 0 + (m.new - 1) →
      stampAt m.msg (m.off + 81 * m.old + 121 * j) = some (m.time (m.old + j)) := by
    intro j _ hj
    rw [← m.start_new, m.stampAt_start (by omega)]
  have hgo : ∀ j, 0 ≤ j → j + 1 < 0 + (m.new - 1) → isNew (m.time (m.old + j)) = true :=
    fun j _ hj => (m.isNew_iff (by omega)).2 (Nat.le_add_right _ _)
  have hrange : m.count - m.old - 1 = m.new - 1 := by omega
  have hlast : m.time (m.old + (0 + (m.new - 2))) = m.time (m.last - 1) := by
    rw [last]
    congr 1
    omega
  have hmany : m.new - 1 = m.new - 2 + 1 := by omega
  rw [m.headerSpan_long h timestamp (le_refl _) hold hstop, newStamps, if_pos hnew, hrange,
    Items.readWhile_range htime hgo (le_refl _) fun hlt => absurd hlt (Nat.lt_irrefl _), hmany]
  dsimp only [Option.map_some]
  rw [List.getLastD_cons, getLastD_range', hlast]

/-- A header without a time is taken for the first of the longer ones. -/
theorem headerSpan_undated (h : 3 ≤ m.new) (timestamp : UInt32) {q : ℕ} (hq : q < m.old)
    (hpos : ∀ i < q, 0 < m.time i) (hzero : m.time q = 0) :
    headerSpan m.msg m.off m.count timestamp (m.time 0) = some (newFrom m.off q 0) := by
  have hcount := m.count_eq
  have hold : ∀ i < q, isOld (m.time i) :=
    fun i hi => (m.isOld_iff (by omega)).2 ⟨hpos i hi, by omega⟩
  have hstop : isOld (m.time q) = false := by
    rw [hzero]
    rfl
  rw [m.headerSpan_long h timestamp hq.le hold hstop, hzero]
  rfl

/-! ### The header that is sought -/

variable {ctx} {s : HeaderSpan}

theorem isStale_of_inWindow {timestamp : UInt32} (h : ctx.inWindow timestamp = true) :
    ctx.isStale timestamp = false := by
  rw [inWindow, Bool.and_eq_true] at h
  rw [isStale, h.1, h.2]
  rfl

/-- Past the window, or of no time. -/
theorem pos_of_isStale {timestamp : UInt32} (h : ctx.isStale timestamp = true) : 0 < timestamp := by
  rw [isStale, Bool.and_eq_true] at h
  exact of_decide_eq_true h.1

theorem inWindow_of_not_isStale {timestamp : UInt32} (hpos : 0 < timestamp)
    (h : ctx.isStale timestamp = false) : ctx.inWindow timestamp = true := by
  rw [isStale, decide_eq_true hpos, Bool.true_and, Bool.not_eq_false'] at h
  rw [inWindow, decide_eq_true hpos, h]
  rfl

/-- The timestamps that the search reads are those of the headers. -/
def Timed (s : HeaderSpan) : Prop :=
  ∀ i, 1 ≤ i → i < m.count → stampAt m.msg (s.nextStart m.off i) = some (m.time i)

theorem seek_eq (hs : m.Timed s) {k : ℕ} (h1 : 1 ≤ k) (hk : k < m.count)
    (hstale : ∀ i, 1 ≤ i → i < k → ctx.isStale (m.time i) = true)
    (hstop : ctx.isStale (m.time k) = false) :
    ctx.seek m.msg m.off m.count s = some (k, m.time k) := by
  obtain ⟨j, rfl⟩ := Nat.exists_eq_add_of_le' h1
  have hread : Items.readWhile (fun i => stampAt m.msg (s.nextStart m.off i)) ctx.isStale
      (m.count - 1) 1 = some ((List.range' 1 (j + 1)).map m.time) :=
    Items.readWhile_range (fun i hi hlt => hs i hi (by omega))
      (fun i hi hlt => hstale i hi (by omega)) (by omega)
      fun _ => ⟨Nat.succ_pos j, by rwa [Nat.add_sub_cancel_left]⟩
  have hlast : ((List.range' 1 (j + 1)).map m.time).getLast? = some (m.time (j + 1)) := by
    rw [List.range'_concat, List.map_append, Nat.one_mul, Nat.add_comm 1 j]
    exact List.getLast?_concat
  rw [seek, hread, Option.map_some, hlast, Option.all_some, hstop, if_neg Bool.false_ne_true,
    getLastD_range', List.length_map, List.length_range', Nat.add_comm 1 j]

/-- Of a single header none is sought. -/
theorem seek_single (h : m.count = 1) : ctx.seek m.msg m.off m.count s = some (1, 0) := by
  rw [seek, h]
  rfl

/-- The search ends at the last header at the latest. -/
theorem exists_sought (h : 1 < m.count) (hlast : ctx.inWindow (m.time m.last) = true) :
    ∃ k, 1 ≤ k ∧ k < m.count ∧ (∀ i, 1 ≤ i → i < k → ctx.isStale (m.time i) = true) ∧
      ctx.isStale (m.time k) = false := by
  have hex : ∃ k, 1 ≤ k ∧ ctx.isStale (m.time k) = false :=
    ⟨m.last, by rw [last]; omega, isStale_of_inWindow hlast⟩
  obtain ⟨hpos, hstop⟩ := Nat.find_spec hex
  have hle : Nat.find hex ≤ m.last :=
    Nat.find_min' hex ⟨by rw [last]; omega, isStale_of_inWindow hlast⟩
  refine ⟨Nat.find hex, hpos, hle.trans_lt m.last_lt, fun i hi hlt => ?_, hstop⟩
  rw [← Bool.not_eq_false]
  exact fun hno => Nat.find_min hex hlt ⟨hi, hno⟩

/-! ### The first header inside the window -/

theorem firstInside_le {k : ℕ} (h : ctx.inWindow (m.time k) = true) :
    m.firstInside ctx ≤ k := by
  by_contra hlt
  have hno := List.not_of_lt_findIdx (Nat.not_le.1 hlt)
  rw [List.getElem_range, h] at hno
  cases hno

theorem inWindow_firstInside (h : ctx.inWindow (m.time m.last) = true) :
    m.firstInside ctx < m.count ∧ ctx.inWindow (m.time (m.firstInside ctx)) = true := by
  have hlt : m.firstInside ctx < (List.range m.count).length := by
    rw [List.length_range]
    exact (m.firstInside_le h).trans_lt m.last_lt
  have hin : ctx.inWindow (m.time ((List.range m.count).get ⟨m.firstInside ctx, hlt⟩)) = true :=
    List.findIdx_getElem (w := hlt)
  rw [List.get_eq_getElem, List.getElem_range] at hin
  rw [List.length_range] at hlt
  exact ⟨hlt, hin⟩

/-! ### Messages whose last header is dated right -/

/-- The time that is compared is that of the last header. -/
structure Dated : Prop where
  long : 3 ≤ m.new → (∀ i < m.old, 0 < m.time i) ∧ m.time (m.last - 1) = m.time m.last
  two : m.new = 2 → stamp m.msg m.shortLast = m.time m.last

/-- Where the headers of such a message are taken to lie. -/
def span : HeaderSpan :=
  if 3 ≤ m.new then newFrom m.off m.old (m.time m.last)
  else allOld m.count (m.time m.last) (m.time 0)

theorem span_timestamp : m.span.timestamp = m.time m.last := by
  rw [span]
  split_ifs
  · rfl
  · rfl

theorem time_shortLast (h : m.new ≤ 1) : stamp m.msg m.shortLast = m.time m.last := by
  rw [time, m.start_shortLast h]

theorem headerSpan_eq : ∃ s, headerSpan m.msg m.off m.count (stamp m.msg m.shortLast) (m.time 0) =
    some s ∧ (s.timestamp = m.time m.last ↔ m.Dated) ∧ (m.Dated → s = m.span) := by
  by_cases hlong : 3 ≤ m.new
  · have hlast : 0 < m.time m.last := m.time_pos (by rw [last, count_eq]; omega) m.last_lt
    by_cases hpos : ∀ i < m.old, 0 < m.time i
    · refine ⟨_, m.headerSpan_dated hlong _ hpos, ⟨fun htime => ⟨fun _ => ⟨hpos, htime⟩, ?_⟩,
        fun hd => (hd.long hlong).2⟩, fun hd => ?_⟩
      · intro htwo
        omega
      · rw [span, if_pos hlong, (hd.long hlong).2]
    · have hex : ∃ q, q < m.old ∧ m.time q = 0 := by
        push Not at hpos
        obtain ⟨q, hq, hle⟩ := hpos
        exact ⟨q, hq, UInt32.le_zero_iff.1 (UInt32.not_lt.1 hle)⟩
      obtain ⟨hq, hzero⟩ := Nat.find_spec hex
      have hbefore : ∀ i < Nat.find hex, 0 < m.time i := by
        intro i hi
        refine UInt32.pos_iff_ne_zero.2 fun hno => Nat.find_min hex hi ⟨by omega, hno⟩
      refine ⟨_, m.headerSpan_undated hlong _ hq hbefore hzero, ⟨fun htime => ?_, fun hd => ?_⟩,
        fun hd => absurd (hd.long hlong).1 hpos⟩
      · rw [← htime] at hlast
        exact absurd hlast (UInt32.lt_irrefl 0)
      · exact absurd (hd.long hlong).1 hpos
  · refine ⟨_, m.headerSpan_short (by omega) _ _, ⟨fun htime => ⟨fun hno => absurd hno hlong,
      fun _ => htime⟩, fun hd => ?_⟩, fun hd => ?_⟩
    · rcases Nat.lt_or_ge m.new 2 with hone | htwo
      · exact m.time_shortLast (by omega)
      · exact hd.two (by omega)
    · rw [span, if_neg hlong]
      rcases Nat.lt_or_ge m.new 2 with hone | htwo
      · rw [m.time_shortLast (by omega)]
      · rw [hd.two (by omega)]

theorem throughInt_count : throughInt (m.count + 1) = m.count + 1 := by
  have hlength := m.length_eq
  have hlt := m.length_lt
  rw [throughInt, count_eq, if_pos (by omega)]
  omega

theorem newStart_long (h : 3 ≤ m.new) {i : ℕ} (hi : m.old ≤ i) (hlt : i < m.count) :
    m.span.newStart i = m.start i := by
  have hle := m.start_add_le hlt
  have hlength := m.length_lt
  obtain ⟨j, rfl⟩ := Nat.exists_eq_add_of_le hi
  rw [start_new] at hle ⊢
  have hwrap : wrap64 (m.old + j + (2 ^ 64 - m.old)) = j := by
    rw [wrap64]
    omega
  rw [span, if_pos h, HeaderSpan.newStart]
  dsimp only [newFrom]
  rw [hwrap, wrap64_of_lt (by omega)]

/-- With one or two longer headers they are sought far beyond the message. -/
theorem newStart_short (h : ¬ 3 ≤ m.new) {i : ℕ} (hlt : i < m.count) :
    m.msg.length < m.span.newStart i := by
  have hlength := m.length_eq
  have hle := m.length_lt
  have hcount := m.count_eq
  have hback : wrap64 (i + (2 ^ 64 - (m.count + 1))) = 2 ^ 64 - (m.count + 1 - i) := by
    rw [wrap64_of_lt (by omega)]
    omega
  have hsum : 0 + 121 * (2 ^ 64 - (m.count + 1 - i)) =
      2 ^ 64 - 121 * (m.count + 1 - i) + 2 ^ 64 * 120 := by omega
  rw [span, if_neg h, HeaderSpan.newStart]
  dsimp only [allOld]
  rw [m.throughInt_count, hback, hsum, wrap64, Nat.add_mul_mod_self_left,
    Nat.mod_eq_of_lt (by omega)]
  omega

theorem timed_span (hd : m.Dated) : m.Timed m.span := by
  intro i hi hlt
  have hcount := m.count_eq
  by_cases hlong : 3 ≤ m.new
  · have hstart : m.span.nextStart m.off i = m.start i := by
      rw [HeaderSpan.nextStart]
      have hnew : m.span.startNewHeader = m.old := by
        rw [span, if_pos hlong]
        rfl
      rw [hnew]
      split_ifs with hle
      · exact (m.start_old (by omega)).symm
      · exact m.newStart_long hlong (by omega) hlt
    rw [hstart, m.stampAt_start hlt]
  · have hstart : m.span.nextStart m.off i = m.off + 81 * i := by
      rw [HeaderSpan.nextStart, if_pos]
      rw [span, if_neg hlong]
      dsimp only [allOld]
      rw [m.throughInt_count]
      omega
    rw [hstart]
    by_cases hold : i ≤ m.old
    · rw [← m.start_old hold, m.stampAt_start hlt]
    · -- the last of two longer headers, which is looked for where a short one would be
      have hlast : i = m.last := by
        rw [last]
        omega
      have hle := m.shortLast_add_le
      rw [hlast, ← shortLast, m.stampAt_eq (by omega), hd.two (by omega)]

/-! ### When the right header is sought -/

/-- The header directly before the window is the one that is sought. -/
structure Before (ctx : BRPeerContext) : Prop where
  pos : 0 < m.firstInside ctx
  old : m.firstInside ctx < m.old
  timed : ∀ i < m.firstInside ctx, 0 < i → 0 < m.time i
  age : m.time (m.firstInside ctx) ≥ X16RV2ActivationTime ↔
    m.time (m.firstInside ctx - 1) ≥ X16RV2ActivationTime

/-- The last header is dated right; headers are asked for only if none of the headers is longer or
    three of them are; and blocks only from a short header on that is not the first one, has the
    age of the one before it, and has no header without a time before it. -/
structure Continuable (ctx : BRPeerContext) : Prop where
  dated : m.Dated
  headers : ¬ ctx.inWindow (m.time m.last) = true → 2000 ≤ m.count → m.new = 0 ∨ 3 ≤ m.new
  blocks : ctx.inWindow (m.time m.last) = true → m.Before ctx

/-- The places at which the hash of a header is taken. -/
def Place (p : ℕ) : Prop := (∃ i < m.count, p = m.start i) ∨ p = m.shortLast

/-- The hashes that the three functions give at these places do not collide, and none of them is
    the hash before the first header. -/
structure Apart : Prop where
  hash : ∀ (a b : HeaderHash) (p q : ℕ), m.Place p → m.Place q →
    a.hashAt K m.msg p = b.hashAt K m.msg q → a = b ∧ p = q
  first : ∀ (a : HeaderHash) (p : ℕ), m.Place p → a.hashAt K m.msg p ≠ m.prevBlock 0

theorem place_start {i : ℕ} (h : i < m.count) : m.Place (m.start i) := Or.inl ⟨i, h, rfl⟩

/-- A header behind the first one names the hash of the one before it. -/
theorem prevBlock_eq {k : ℕ} (hpos : 0 < k) (hk : k < m.count) :
    m.prevBlock k = m.blockHash (k - 1) := by
  obtain ⟨j, rfl⟩ := Nat.exists_eq_add_of_le' hpos
  exact m.linked j (by rw [count_eq] at hk; omega)

theorem of_eq_of_iff {s t : UInt32} (hs : ¬ isNew s = true) (ht : ¬ isNew t = true) :
    HeaderHash.of s = HeaderHash.of t ↔
      (s ≥ X16RV2ActivationTime ↔ t ≥ X16RV2ActivationTime) := by
  rw [HeaderHash.of_not_new hs, HeaderHash.of_not_new ht]
  split_ifs with h h' h'
  · exact ⟨fun _ => iff_of_true h h', fun _ => rfl⟩
  · exact ⟨fun hno => hno.elim, fun hiff => absurd (hiff.1 h) h'⟩
  · exact ⟨fun hno => hno.elim, fun hiff => absurd (hiff.2 h') h⟩
  · exact ⟨fun _ => iff_of_false h h', fun _ => rfl⟩

/-! ### Locators -/

section
variable (E : PeerEnv) (m : HeadersMessage E.K)

/-- The hash of the last header as it is taken: with one or two longer headers behind shorter ones
    the last is taken for a short one. -/
def lastHash : UInt256 :=
  if m.new = 0 ∨ 3 ≤ m.new ∨ m.old = 0 then m.blockHash m.last
  else HeaderHash.x16rv2.hashAt E.K m.msg m.shortLast

theorem isNew_first : isNew (m.time 0) = true ↔ m.old = 0 :=
  (m.isNew_iff m.count_pos).trans Nat.le_zero

theorem lightHash_last (h : 0 < m.new) :
    lightHash E m.msg (wrap64 (m.msg.length + (2 ^ 64 - 121))) = some (m.blockHash m.last) := by
  have hlt := m.length_lt
  have hend := m.start_last h
  have hstart : wrap64 (m.msg.length + (2 ^ 64 - 121)) = m.start m.last := by
    rw [wrap64]
    omega
  have hnew : isNew (m.time m.last) = true :=
    (m.isNew_iff m.last_lt).2 (by rw [last, count_eq]; omega)
  rw [hstart, lightHash_eq E m.msg (by omega), blockHash, HeaderHash.of_new hnew]

theorem oldHash_first (timestamp : UInt32) :
    ∃ hash, oldHash E m.msg timestamp m.off = some hash := by
  have hlt := m.length_lt
  have hle := m.start_add_le m.count_pos
  rw [m.start_old (Nat.zero_le _)] at hle
  exact ⟨_, oldHash_eq E m.msg (by omega) (by omega)⟩

theorem oldHash_shortLast (h : m.new ≤ 2) (h0 : m.old ≠ 0) :
    oldHash E m.msg (m.time m.last) m.shortLast = some (m.lastHash E) := by
  have hlt := m.length_lt
  have hle := m.shortLast_add_le
  rw [oldHash_eq E m.msg (by omega) (by omega), lastHash]
  by_cases hnone : m.new = 0
  · have hold : ¬ isNew (m.time m.last) = true := by
      rw [m.isNew_iff m.last_lt, last, count_eq]
      omega
    rw [if_pos (Or.inl hnone), blockHash, HeaderHash.of_not_new hold, m.start_shortLast (by omega)]
  · have hnew : m.time m.last ≥ KAWPOW_ActivationTime :=
      of_decide_eq_true ((m.isNew_iff m.last_lt).2 (by rw [last, count_eq]; omega))
    have hrv2 : m.time m.last ≥ X16RV2ActivationTime :=
      UInt32.le_trans (by decide : X16RV2ActivationTime ≤ KAWPOW_ActivationTime) hnew
    rw [if_pos hrv2, if_neg (by omega)]

theorem locators_eq : ∃ locator₁,
    locators E m.msg m.off m.count (m.time 0) m.span = some (m.lastHash E, locator₁) := by
  have hfirst := m.isNew_first E
  have hcount := m.count_eq
  have hpos := m.count_pos
  by_cases hlong : 3 ≤ m.new
  · have hnew : isNew (m.time m.last) = true :=
      (m.isNew_iff m.last_lt).2 (by rw [last, count_eq]; omega)
    have hlast : m.span.timestampLast = m.time m.last := by
      rw [span, if_pos hlong]
      rfl
    have hhash : m.lastHash E = m.blockHash m.last := if_pos (Or.inr (Or.inl hlong))
    rw [locators, hlast, m.lightHash_last E (by omega), hhash]
    by_cases h0 : m.old = 0
    · have hle := m.start_new_add_le (Nat.le_of_eq h0) m.count_pos
      rw [m.start_old (Nat.zero_le _)] at hle
      rw [if_pos ⟨hfirst.2 h0, hnew⟩, lightHash_eq E m.msg (by omega)]
      exact ⟨_, rfl⟩
    · obtain ⟨hash, hhash⟩ := m.oldHash_first E (m.time 0)
      rw [if_neg fun hno => h0 (hfirst.1 hno.1), if_pos hnew, hhash]
      exact ⟨_, rfl⟩
  · have hlast : m.span.timestampLast = m.time 0 := by
      rw [span, if_neg hlong]
      rfl
    rw [locators, hlast]
    by_cases h0 : m.old = 0
    · have hhash : m.lastHash E = m.blockHash m.last := if_pos (Or.inr (Or.inr h0))
      have hle := m.start_new_add_le (Nat.le_of_eq h0) m.count_pos
      rw [m.start_old (Nat.zero_le _)] at hle
      rw [if_pos ⟨hfirst.2 h0, hfirst.2 h0⟩, m.lightHash_last E (by omega), hhash,
        lightHash_eq E m.msg (by omega)]
      exact ⟨_, rfl⟩
    · obtain ⟨hash, hhash⟩ := m.oldHash_first E (m.time m.last)
      rw [if_neg fun hno => h0 (hfirst.1 hno.1), if_neg fun hno => h0 (hfirst.1 hno),
        m.span_timestamp, ← last, ← shortLast, m.oldHash_shortLast E (by omega) h0, hhash]
      exact ⟨_, rfl⟩

/-- The hash that is sent for blocks. -/
def sought (ctx : BRPeerContext) : Option UInt256 :=
  (ctx.seek m.msg m.off m.count m.span).bind fun (k, timestamp) =>
    soughtHash E m.msg m.off m.span k timestamp

theorem nextRequest_eq (ctx : BRPeerContext) : ∃ locator₁,
    ctx.nextRequest E m.msg m.off m.count (m.time 0) m.span =
      if ctx.inWindow (m.time m.last) = true then
        (m.sought E ctx).map fun locator₀ => .sendGetblocks (locator₀, locator₁)
      else some (.sendGetheaders (m.lastHash E, locator₁)) := by
  obtain ⟨locator₁, hlocators⟩ := m.locators_eq E
  refine ⟨locator₁, ?_⟩
  have hin : (m.time m.last > 0 ∧ ctx.isFresh (m.time m.last) = true) ↔
      ctx.inWindow (m.time m.last) = true := by
    rw [inWindow, Bool.and_eq_true, decide_eq_true_iff]
  rw [nextRequest, hlocators, Option.bind_some, m.span_timestamp]
  dsimp only
  simp only [hin]
  split_ifs
  · rw [sought]
    dsimp only [Option.bind_eq_bind]
    cases ctx.seek m.msg m.off m.count m.span with
    | none => rfl
    | some r =>
      dsimp only [Option.bind_some]
      cases soughtHash E m.msg m.off m.span r.1 r.2 with
      | none | some _ => rfl
  · rfl

theorem continuation_eq (ctx : BRPeerContext) {s : HeaderSpan}
    (hs : headerSpan m.msg m.off m.count (stamp m.msg m.shortLast) (m.time 0) = some s) :
    ctx.continuation E m.msg =
      if m.count ≥ 2000 ∨ (s.timestamp > 0 ∧ ctx.isFresh s.timestamp = true) then
        (ctx.nextRequest E m.msg m.off m.count (m.time 0) s).map fun request => (s, some request)
      else some (s, none) := by
  have hvar : varInt m.msg = (m.count, m.off) := m.varInt_eq
  rw [continuation, hvar]
  dsimp only [Option.bind_eq_bind]
  rw [← last, ← shortLast, m.countedStamp_last, m.countedStamp_first, Option.bind_some,
    Option.bind_some, hs, Option.bind_some]
  split_ifs
  · cases ctx.nextRequest E m.msg m.off m.count (m.time 0) s with
    | none | some _ => rfl
  · rfl

theorem continuation_dated (ctx : BRPeerContext) (hd : m.Dated) : ∃ locator₁,
    ctx.continuation E m.msg =
      if ctx.inWindow (m.time m.last) = true then
        (m.sought E ctx).map fun locator₀ => (m.span, some (.sendGetblocks (locator₀, locator₁)))
      else if 2000 ≤ m.count then some (m.span, some (.sendGetheaders (m.lastHash E, locator₁)))
      else some (m.span, none) := by
  obtain ⟨s, hs, -, hspan⟩ := m.headerSpan_eq
  obtain ⟨locator₁, hrequest⟩ := m.nextRequest_eq E ctx
  rw [hspan hd] at hs
  refine ⟨locator₁, ?_⟩
  have hin : (m.time m.last > 0 ∧ ctx.isFresh (m.time m.last) = true) ↔
      ctx.inWindow (m.time m.last) = true := by
    rw [inWindow, Bool.and_eq_true, decide_eq_true_iff]
  rw [m.continuation_eq E ctx hs, hrequest, m.span_timestamp]
  simp only [hin]
  by_cases hwindow : ctx.inWindow (m.time m.last) = true
  · rw [if_pos (Or.inr hwindow), if_pos hwindow, if_pos hwindow, Option.map_map]
    rfl
  · rw [if_neg hwindow, if_neg hwindow]
    split_ifs with hmany hno hno
    · rfl
    · exact absurd (hmany.resolve_right hwindow) hno
    · exact absurd (Or.inl hno) hmany
    · rfl

/-! ### The header directly before the window -/

variable {E m}

theorem soughtHash_new {k : ℕ} (hk : k < m.count) (hnew : isNew (m.time k) = true) :
    soughtHash E m.msg m.off m.span k (m.time k) =
      if 3 ≤ m.new then some (m.blockHash k) else none := by
  have hold : m.old ≤ k := (m.isNew_iff hk).1 hnew
  rw [soughtHash, if_pos hnew]
  by_cases hlong : 3 ≤ m.new
  · have hle := m.start_new_add_le hold hk
    rw [if_pos hlong, m.newStart_long hlong hold hk, lightHash_eq E m.msg (by omega), blockHash,
      HeaderHash.of_new hnew]
  · rw [if_neg hlong, ← Option.not_isSome_iff_eq_none, lightHash_isSome]
    have hfar := m.newStart_short hlong hk
    omega

theorem soughtHash_old {k : ℕ} {timestamp : UInt32} (hpos : 0 < k) (hk : k ≤ m.count)
    (hle : k - 1 ≤ m.old) (hold : ¬ isNew timestamp = true) :
    soughtHash E m.msg m.off m.span k timestamp =
      some ((HeaderHash.of timestamp).hashAt E.K m.msg (m.start (k - 1))) := by
  have hlt := m.length_lt
  have hadd := m.start_add_le (i := k - 1) (by omega)
  rw [soughtHash, if_neg hold, ← m.start_old hle, oldHash_eq E m.msg (by omega) (by omega),
    HeaderHash.of_not_new hold]

variable {ctx : BRPeerContext}

theorem sought_of_before (hd : m.Dated) (hlast : ctx.inWindow (m.time m.last) = true)
    (h : m.Before ctx) : m.sought E ctx = some (m.prevBlock (m.firstInside ctx)) := by
  obtain ⟨hcount, hin⟩ := m.inWindow_firstInside hlast
  have hstale : ∀ i, 1 ≤ i → i < m.firstInside ctx → ctx.isStale (m.time i) = true := by
    intro i hi hlt
    rw [← Bool.not_eq_false]
    intro hno
    have hle := m.firstInside_le (inWindow_of_not_isStale (h.timed i hlt hi) hno)
    omega
  have hold : ¬ isNew (m.time (m.firstInside ctx)) = true :=
    fun hno => absurd ((m.isNew_iff hcount).1 hno) (Nat.not_le.2 h.old)
  have hold' : ¬ isNew (m.time (m.firstInside ctx - 1)) = true := by
    rw [m.isNew_iff (by omega)]
    have hlt := h.old
    omega
  have hle := h.old
  rw [sought, m.seek_eq (m.timed_span hd) h.pos hcount hstale (isStale_of_inWindow hin),
    Option.bind_some]
  dsimp only
  rw [soughtHash_old h.pos hcount.le (by omega) hold, m.prevBlock_eq h.pos hcount, blockHash,
    (of_eq_of_iff hold hold').2 h.age]

theorem before_of_sought (ha : m.Apart) (hd : m.Dated)
    (hlast : ctx.inWindow (m.time m.last) = true)
    (h : m.sought E ctx = some (m.prevBlock (m.firstInside ctx))) : m.Before ctx := by
  obtain ⟨hcount, hin⟩ := m.inWindow_firstInside hlast
  have hpos := m.count_pos
  -- the hash of some place, which is not the block before the first header
  have hne : ∀ {a p}, m.Place p → some (a.hashAt E.K m.msg p) =
      some (m.prevBlock (m.firstInside ctx)) →
      0 < m.firstInside ctx ∧ a = HeaderHash.of (m.time (m.firstInside ctx - 1)) ∧
        p = m.start (m.firstInside ctx - 1) := by
    intro a p hp hhash
    have hhash := Option.some.inj hhash
    rcases Nat.eq_zero_or_pos (m.firstInside ctx) with hzero | hfirst
    · rw [hzero] at hhash
      exact absurd hhash (ha.first a p hp)
    · rw [m.prevBlock_eq hfirst hcount, blockHash] at hhash
      exact ⟨hfirst, ha.hash _ _ _ _ hp (m.place_start (by omega)) hhash⟩
  rcases Nat.lt_or_ge 1 m.count with hmany | hone
  · obtain ⟨k, h1, hk, hstale, hstop⟩ := m.exists_sought hmany hlast
    rw [sought, m.seek_eq (m.timed_span hd) h1 hk hstale hstop, Option.bind_some] at h
    dsimp only at h
    by_cases hnew : isNew (m.time k) = true
    · rw [soughtHash_new hk hnew] at h
      split_ifs at h with hlong
      obtain ⟨hfirst, -, hplace⟩ := hne (m.place_start hk) h
      have hk' := m.start_inj hplace
      -- it is the header before the window itself that was taken to be inside
      have hpos := m.time_pos ((m.isNew_iff hk).1 hnew) hk
      have hle := m.firstInside_le (inWindow_of_not_isStale hpos hstop)
      omega
    · have hold : k < m.old := Nat.not_le.1 fun hno => hnew ((m.isNew_iff hk).2 hno)
      rw [soughtHash_old h1 hk.le (by omega) hnew] at h
      obtain ⟨hfirst, hage, hplace⟩ := hne (m.place_start (by omega)) h
      have hk' := m.start_inj hplace
      have heq : k = m.firstInside ctx := by omega
      subst heq
      refine ⟨hfirst, hold, fun i hlt hi => pos_of_isStale (hstale i hi hlt), ?_⟩
      refine (of_eq_of_iff hnew ?_).1 hage
      rw [m.isNew_iff (by omega)]
      omega
  · have hcount1 : m.count = 1 := by omega
    rw [sought, m.seek_single hcount1, Option.bind_some] at h
    dsimp only at h
    rw [soughtHash_old Nat.one_pos (by omega) (Nat.zero_le _) (by decide)] at h
    obtain ⟨hfirst, -, -⟩ := hne (m.place_start (by omega)) h
    omega

/-! ### When the right hash is sent -/

variable (E m ctx)

/-- The time of the last header is compared, and what is asked for goes on behind the last header,
    or behind the last one before the window. -/
def Continues : Prop :=
  ∃ s locator₁, ctx.continuation E m.msg = some (s,
    if ctx.inWindow (m.time m.last) = true then
      some (.sendGetblocks (m.prevBlock (m.firstInside ctx), locator₁))
    else if 2000 ≤ m.count then some (.sendGetheaders (m.blockHash m.last, locator₁))
    else none) ∧ s.timestamp = m.time m.last

variable {E m ctx}

theorem continuation_span {s : HeaderSpan}
    (hs : headerSpan m.msg m.off m.count (stamp m.msg m.shortLast) (m.time 0) = some s)
    {r : HeaderSpan × Option PeerEvent} (h : ctx.continuation E m.msg = some r) : r.1 = s := by
  rw [m.continuation_eq E ctx hs] at h
  split_ifs at h
  · obtain ⟨request, -, rfl⟩ := Option.map_eq_some_iff.1 h
    rfl
  · obtain rfl := Option.some.inj h
    rfl

theorem dated_of_continues (h : m.Continues E ctx) : m.Dated := by
  obtain ⟨s', locator₁, hcontinuation, htime⟩ := h
  obtain ⟨s, hs, hdated, -⟩ := m.headerSpan_eq
  have heq := continuation_span hs hcontinuation
  exact hdated.1 (heq ▸ htime)

theorem continues_blocks_iff (hd : m.Dated) (hw : ctx.inWindow (m.time m.last) = true) :
    m.Continues E ctx ↔ m.sought E ctx = some (m.prevBlock (m.firstInside ctx)) := by
  obtain ⟨locator₁, hcontinuation⟩ := m.continuation_dated E ctx hd
  rw [if_pos hw] at hcontinuation
  constructor
  · rintro ⟨s, locator, h, -⟩
    rw [hcontinuation, if_pos hw] at h
    obtain ⟨hash, hsought, hpair⟩ := Option.map_eq_some_iff.1 h
    have hrequest := PeerEvent.sendGetblocks.inj (Option.some.inj (Prod.mk.inj hpair).2)
    rw [hsought, (Prod.mk.inj hrequest).1]
  · intro hsought
    refine ⟨m.span, locator₁, ?_, m.span_timestamp⟩
    rw [hcontinuation, hsought, if_pos hw, Option.map_some]

theorem lastHash_eq_iff (ha : m.Apart) (hmany : 2000 ≤ m.count) :
    m.lastHash E = m.blockHash m.last ↔ m.new = 0 ∨ 3 ≤ m.new := by
  constructor
  · intro heq
    by_contra hno
    have hnew : isNew (m.time m.last) = true :=
      (m.isNew_iff m.last_lt).2 (by rw [last, count_eq]; omega)
    rw [lastHash, if_neg (by rw [count_eq] at hmany; omega), blockHash,
      HeaderHash.of_new hnew] at heq
    exact absurd (ha.hash _ _ _ _ (Or.inr rfl) (m.place_start m.last_lt) heq).1 (by decide)
  · rintro (hnone | hthree)
    · exact if_pos (Or.inl hnone)
    · exact if_pos (Or.inr (Or.inl hthree))

theorem continues_headers_iff (hd : m.Dated) (hw : ¬ ctx.inWindow (m.time m.last) = true) :
    m.Continues E ctx ↔ (2000 ≤ m.count → m.lastHash E = m.blockHash m.last) := by
  obtain ⟨locator₁, hcontinuation⟩ := m.continuation_dated E ctx hd
  rw [if_neg hw] at hcontinuation
  constructor
  · rintro ⟨s, locator, h, -⟩ hmany
    rw [hcontinuation, if_neg hw, if_pos hmany, if_pos hmany] at h
    have hpair := Prod.mk.inj (Option.some.inj h)
    exact (Prod.mk.inj (PeerEvent.sendGetheaders.inj (Option.some.inj hpair.2))).1
  · intro heq
    refine ⟨m.span, locator₁, ?_, m.span_timestamp⟩
    rw [hcontinuation, if_neg hw]
    split_ifs with hmany
    · rw [heq hmany]
    · rfl

/-- The headers go on as they should if and only if the message is one of those that are read
    right. -/
theorem continues_iff (ha : m.Apart) : m.Continues E ctx ↔ m.Continuable ctx := by
  constructor
  · intro h
    have hd := dated_of_continues h
    refine ⟨hd, fun hw hmany => ?_, fun hw => ?_⟩
    · exact (lastHash_eq_iff ha hmany).1 ((continues_headers_iff hd hw).1 h hmany)
    · exact before_of_sought ha hd hw ((continues_blocks_iff hd hw).1 h)
  · intro h
    by_cases hw : ctx.inWindow (m.time m.last) = true
    · exact (continues_blocks_iff h.dated hw).2 (sought_of_before h.dated hw (h.blocks hw))
    · exact (continues_headers_iff h.dated hw).2 fun hmany =>
        (lastHash_eq_iff ha hmany).2 (h.headers hw hmany)

end

/-! ### Samples -/

/-- Hashes that have a mark of their own and the four bytes behind the target. -/
def sampleEnv : PeerEnv where
  now := 0
  requestedTx _ := none
  K := { sha256_2 := fun bs => bs.drop 76
         lightVerify := fun header _ _ => 3 :: header
         x16r := fun bs => bs.drop 76 ++ [1]
         x16rv2 := fun bs => bs.drop 76 ++ [2] }

/-- The first 80 bytes of a header. -/
def sampleHeader (prevBlock : UInt256) (timestamp mark : ℕ) : Bytes :=
  toLE 4 1 ++ set256 prevBlock ++ List.replicate 32 0 ++ toLE 4 timestamp ++ toLE 4 0 ++ toLE 4 mark

/-- Two short headers. -/
def sampleShort : HeadersMessage sampleEnv.K where
  msg := 2 :: (sampleHeader 0 1569945600 1 ++ [0] ++ (sampleHeader 0x200000001 1569945660 2 ++ [0]))
  off := 1
  old := 2
  new := 0
  varInt_eq := by decide +kernel
  pos := by decide
  length_eq := by decide +kernel
  length_le := by decide +kernel
  old_time := by decide +kernel
  new_time := by decide +kernel
  linked := by decide +kernel

/-- Three longer headers, the last two with the same time. -/
def sampleLong : HeadersMessage sampleEnv.K where
  msg := 3 :: (sampleHeader 0 1588788000 1 ++ List.replicate 41 0 ++
    (sampleHeader 0x300000001 1588788060 2 ++ List.replicate 41 0 ++
      (sampleHeader 0x300000002 1588788060 3 ++ List.replicate 41 0)))
  off := 1
  old := 0
  new := 3
  varInt_eq := by decide +kernel
  pos := by decide
  length_eq := by decide +kernel
  length_le := by decide +kernel
  old_time := by decide +kernel
  new_time := by decide +kernel
  linked := by decide +kernel

/-- A context whose window begins at the given time. -/
def sampleFrom (timestamp : UInt32) : BRPeerContext :=
  { earliestKeyTime := timestamp + 7 * 24 * 60 * 60 + BLOCK_MAX_TIME_DRIFT }

theorem sampleShort_place {p : ℕ} (h : sampleShort.Place p) : p = 1 ∨ p = 82 := by
  rcases h with ⟨i, hi, rfl⟩ | rfl
  · exact (by decide : ∀ i < 2, headerStart 1 2 i = 1 ∨ headerStart 1 2 i = 82) i hi
  · exact Or.inr rfl

theorem sampleShort_apart : sampleShort.Apart := by
  refine ⟨fun a b p q hp hq heq => ?_, fun a p hp heq => ?_⟩
  · rcases sampleShort_place hp with rfl | rfl <;> rcases sampleShort_place hq with rfl | rfl <;>
      cases a <;> cases b <;> revert heq <;> decide +kernel
  · rcases sampleShort_place hp with rfl | rfl <;> cases a <;> revert heq <;> decide +kernel

theorem continues_iff_short : sampleShort.Continues sampleEnv (sampleFrom 1569945660) := by
  refine (continues_iff sampleShort_apart).2 ⟨⟨?_, ?_⟩, ?_, ?_⟩
  · decide
  · decide
  · exact fun _ hmany => absurd hmany (by decide)
  · exact fun _ => ⟨by decide +kernel, by decide +kernel, by decide +kernel, by decide +kernel⟩

/-- The block of the second header is inside the window and is skipped. -/
theorem not_continues_long : ¬ ∀ (E : PeerEnv) (m : HeadersMessage E.K) (ctx : BRPeerContext),
    m.Continues E ctx := by
  intro h
  have hwrong : ¬ sampleLong.sought sampleEnv (sampleFrom 1588788060) =
      some (sampleLong.prevBlock (sampleLong.firstInside (sampleFrom 1588788060))) := by
    decide +kernel
  have hlast : (sampleFrom 1588788060).inWindow (sampleLong.time sampleLong.last) = true := by
    decide +kernel
  have hc := h sampleEnv sampleLong (sampleFrom 1588788060)
  exact hwrong ((continues_blocks_iff (dated_of_continues hc) hlast).1 hc)

end HeadersMessage

end RavenWallet
