/-
  Extracting archives (BRTar.swift).

  The archive is the list of its bytes and the file manager is arbitrary.  What an
  extraction does is recorded: the calls that remove or create something, what is
  written into files, and how the position advances.  A path is the list of its
  components, and resolved without links.

  * `entry_spec`: one entry traps or does something wrong exactly if it does not
    `Fit`;
  * `extract_spec`: the same for the entries that are reached;
  * `extraction_safe_iff`: when an extraction stays below its target and does not trap.
-/
import Mathlib.Logic.Relation
import RavenWallet.Lib.Buffer
import RavenWallet.Lib.Radix
import RavenWallet.Core.Types

namespace RavenWallet

namespace BRTar

/-- How an extraction fails: Swift traps, the code throws, or the file manager does. -/
inductive Failure where
  | trap
  | unknown
  | fileManager
  deriving DecidableEq, Repr

inductive BRTarType where
  | file
  | directory
  | nullBlock
  | headerBlock
  | unsupported
  | invalid
  deriving DecidableEq, Repr

/-- `BRTarType.init(fromData:)` -/
def BRTarType.ofData : Bytes → BRTarType
  | [] => .invalid
  | byte :: _ =>
    if byte = 48 then .file
    else if byte = 53 then .directory
    else if byte = 0 then .nullBlock
    else if byte = 120 then .headerBlock
    else if (49 ≤ byte ∧ byte ≤ 55) ∨ byte = 103 then .unsupported
    else .invalid

/-! ## Reading -/

/-- `seek` and `readData`; an offset has to be an `off_t`. -/
def readData (tar : Bytes) (off len : ℕ) : Except Failure Bytes :=
  if off < 2 ^ 63 then .ok ((tar.drop off).take len) else .error .trap

def isASCII (dat : Bytes) : Bool := dat.all fun c => c < 128

/-- The number of leading octal digits. -/
def octal (str : Bytes) : ℕ :=
  value 8 ((str.takeWhile fun c => 48 ≤ c ∧ c ≤ 55).map fun c => c.toNat - 48)

/-- `strtoll` with base 8, of a string that is too short to be out of range. -/
def strtoll (str : Bytes) : ℤ :=
  match (str.takeWhile fun c => c ≠ 0).dropWhile isSpace with
  | [] => 0
  | c :: rest =>
    if c = 45 then -octal rest else if c = 43 then octal rest else octal (c :: rest)

def readTypeAtLocation (tar : Bytes) (loc : ℕ) : Except Failure BRTarType := do
  let dat ← readData tar (loc + 156) 1
  .ok (.ofData dat)

def readNameAtLocation (tar : Bytes) (loc : ℕ) : Except Failure Bytes := do
  let dat ← readData tar loc 100
  if isASCII dat then .ok dat else .error .unknown

/-- The optional is unwrapped, and the number converted to `UInt64`. -/
def readSizeAtLocation (tar : Bytes) (loc : ℕ) : Except Failure ℕ := do
  let dat ← readData tar (loc + 124) 12
  if isASCII dat then
    let dec := strtoll dat
    if 0 ≤ dec then .ok dec.toNat else .error .trap
  else .error .trap

def maxSize : ℕ := 100 * 512

/-- The bytes that are copied from `off` on, by parts of at most `maxSize`. -/
def copyData (tar : Bytes) (off size : ℕ) : Bytes :=
  if size > maxSize then
    let part := (tar.drop off).take maxSize
    part ++ copyData tar (off + part.length) (size - maxSize)
  else (tar.drop off).take size
termination_by size
decreasing_by
  have : 0 < maxSize := by decide
  omega

/-! ## Paths -/

/-- The components of a path. -/
abbrev Path := List Bytes

/-- `appendingPathComponent`, of a name that ends at the first NUL for the file system. -/
def entryPath (path : Path) (name : Bytes) : Path :=
  path ++ ((name.takeWhile fun c => c ≠ 0).splitOn 47).filter fun c => c ≠ []

def dot : Bytes := [46]
def dotDot : Bytes := [46, 46]

/-- What the file system makes of a path. -/
def resolve (path : Path) : Path :=
  path.foldl (fun p c => if c = dot then p else if c = dotDot then p.dropLast else p ++ [c]) []

/-- Inside of the directory `path`, and not `path` itself. -/
def Below (path p : Path) : Prop := ∃ c rest, resolve p = resolve path ++ c :: rest

/-! ## Extracting -/

/-- `FileManager` and `FileHandle`; where they can fail there is an `Option`. -/
structure FileManager (σ : Type) where
  fileExists : σ → Path → Bool
  removeItem : σ → Path → Option σ
  createDirectory : σ → Path → Option σ
  createFile : σ → Path → σ
  /-- writes the empty string -/
  writeEmpty : σ → Path → Option σ
  opensForWriting : σ → Path → Bool
  write : σ → Path → Bytes → σ

inductive Event where
  | removes (p : Path)
  | createsFile (p : Path)
  | createsDirectory (p : Path)
  /-- The file of the entry at `loc` gets its data. -/
  | writes (loc : ℕ) (content : Bytes)
  /-- The position after the entry at `loc`. -/
  | advances (loc next : ℕ)
  deriving DecidableEq, Repr

/-- The file system, and the events so far, the latest first. -/
structure State (σ : Type) where
  fs : σ
  events : List Event := []

section
variable {σ : Type} (tar : Bytes) (path : Path) (fm : FileManager σ)

def State.log (s : State σ) (e : Event) : State σ := { s with events := e :: s.events }

def removeExisting (p : Path) (s : State σ) : State σ × Except Failure Unit :=
  if fm.fileExists s.fs p then
    let s := s.log (.removes p)
    match fm.removeItem s.fs p with
    | some fs => ({ s with fs }, .ok ())
    | none => (s, .error .fileManager)
  else (s, .ok ())

/-- A file that is opened, and gets its data. -/
def writeFile (loc size : ℕ) (p : Path) (s : State σ) : State σ × Except Failure ℕ :=
  let s := { s with fs := fm.createFile s.fs p }
  if fm.opensForWriting s.fs p then
    if loc + 512 < 2 ^ 63 then
      let content := copyData tar (loc + 512) size
      (({ s with fs := fm.write s.fs p content }).log (.writes loc content),
        .ok ((size - 1) / 512 + 1))
    else (s, .error .trap)
  else (s, .error .unknown)

/-- The entry of a file: the number of blocks behind the header. -/
def extractFile (loc : ℕ) (s : State σ) : State σ × Except Failure ℕ :=
  match readNameAtLocation tar loc with
  | .error e => (s, .error e)
  | .ok name =>
    let p := entryPath path name
    match readSizeAtLocation tar loc with
    | .error e => (s, .error e)
    | .ok size =>
      match removeExisting fm p s with
      | (s, .error e) => (s, .error e)
      | (s, .ok ()) =>
        let s := s.log (.createsFile p)
        if size = 0 then
          match fm.writeEmpty s.fs p with
          | some fs => (({ s with fs }).log (.writes loc []), .ok 0)
          | none => (s, .error .fileManager)
        else writeFile tar fm loc size p s

def extractDirectory (loc : ℕ) (s : State σ) : State σ × Except Failure ℕ :=
  match readNameAtLocation tar loc with
  | .error e => (s, .error e)
  | .ok name =>
    let p := entryPath path name
    match removeExisting fm p s with
    | (s, .error e) => (s, .error e)
    | (s, .ok ()) =>
      let s := s.log (.createsDirectory p)
      match fm.createDirectory s.fs p with
      | some fs => ({ s with fs }, .ok 0)
      | none => (s, .error .fileManager)

/-- The entry at `loc`: the number of blocks behind the header. -/
def entry (loc : ℕ) (s : State σ) : State σ × Except Failure ℕ :=
  match readTypeAtLocation tar loc with
  | .error e => (s, .error e)
  | .ok .file => extractFile tar path fm loc s
  | .ok .directory => extractDirectory tar path fm loc s
  | .ok .nullBlock => (s, .ok 0)
  | .ok .headerBlock => (s, .ok 1)
  | .ok .unsupported =>
    match readSizeAtLocation tar loc with
    | .error e => (s, .error e)
    | .ok size => (s, .ok (size / 512))
  | .ok .invalid => (s, .error .unknown)

/-- The loop of `createFilesAndDirectoriesAtPath`. -/
def extract (loc : ℕ) (s : State σ) : State σ × Except Failure Unit :=
  if loc < tar.length then
    match entry tar path fm loc s with
    | (s, .error e) => (s, .error e)
    | (s, .ok extra) =>
      let next := loc + (1 + extra) * 512
      if next < 2 ^ 64 then extract next (s.log (.advances loc next)) else (s, .error .trap)
  else (s, .ok ())
termination_by tar.length - loc

/-- `createFilesAndDirectoriesAtPath`, of an archive that can be opened. -/
def createFilesAndDirectoriesAtPath (fs : σ) : State σ × Except Failure Unit :=
  extract tar path fm 0 { fs }

end

/-! ## What the extraction should do -/

def BRTarType.hasData : BRTarType → Bool
  | .file | .headerBlock | .unsupported => true
  | .directory | .nullBlock | .invalid => false

/-- The header behind the entry at `loc` and its data is at `next`. -/
def NextHeader (tar : Bytes) (loc next : ℕ) : Prop :=
  ∀ type, readTypeAtLocation tar loc = .ok type →
    if type.hasData then
      ∀ size, readSizeAtLocation tar loc = .ok size → next = loc + 512 * (1 + (size + 511) / 512)
    else next = loc + 512

/-- What is removed or created is below the target, a file gets as many bytes as its header
    declares, and the next position is that of a header. -/
def Event.Right (tar : Bytes) (path : Path) : Event → Prop
  | .removes p | .createsFile p | .createsDirectory p => Below path p
  | .writes loc content => ∀ size, readSizeAtLocation tar loc = .ok size →
      loc + 512 + size ≤ tar.length → content.length = size
  | .advances loc next => NextHeader tar loc next

section
variable {σ : Type} (tar : Bytes) (path : Path) (fm : FileManager σ)

/-- It does not trap, and all events are right. -/
def Safe {α : Type} (r : State σ × Except Failure α) : Prop :=
  r.2 ≠ .error .trap ∧ ∀ e ∈ r.1.events, e.Right tar path

/-- What the entry at `loc` has to be. -/
def Fit (loc : ℕ) (s : State σ) : Prop :=
  loc + 156 < 2 ^ 63 ∧
    match BRTarType.ofData ((tar.drop (loc + 156)).take 1) with
    | .file => ∀ name, readNameAtLocation tar loc = .ok name → Below path (entryPath path name) ∧
        ∃ size, readSizeAtLocation tar loc = .ok size ∧ (size ≠ 0 →
          ∀ t, removeExisting fm (entryPath path name) s = (t, .ok ()) →
            fm.opensForWriting (fm.createFile t.fs (entryPath path name))
              (entryPath path name) = true → loc + 512 < 2 ^ 63)
    | .directory => ∀ name, readNameAtLocation tar loc = .ok name →
        Below path (entryPath path name)
    | .headerBlock => ∀ size, readSizeAtLocation tar loc = .ok size → 0 < size ∧ size ≤ 512
    | .unsupported => ∃ size, readSizeAtLocation tar loc = .ok size ∧ 512 ∣ size
    | .nullBlock | .invalid => True

/-- From one entry to the next. -/
def Next (a b : ℕ × State σ) : Prop :=
  a.1 < tar.length ∧ ∃ t extra, entry tar path fm a.1 a.2 = (t, .ok extra) ∧
    b.1 = a.1 + (1 + extra) * 512 ∧ b.1 < 2 ^ 64 ∧ b.2 = t.log (.advances a.1 b.1)

end

/-! ## Reading -/

section
variable {tar : Bytes} {loc : ℕ}

theorem readName_error (h : loc + 156 < 2 ^ 63) {e : Failure}
    (he : readNameAtLocation tar loc = .error e) : e = .unknown := by
  rw [readNameAtLocation, readData, if_pos (by omega)] at he
  simp only [bind, Except.bind] at he
  split_ifs at he
  exact (Except.error.inj he).symm

theorem octal_lt (str : Bytes) : octal str < 8 ^ str.length := by
  have hdigits : ∀ d ∈ (str.takeWhile fun c => 48 ≤ c ∧ c ≤ 55).map (fun c => c.toNat - 48),
      d < 8 := by
    intro d hd
    obtain ⟨c, hc, rfl⟩ := List.mem_map.1 hd
    have hall := List.all_eq_true.1
      (List.all_takeWhile (p := fun c : UInt8 => decide (48 ≤ c ∧ c ≤ 55)) (l := str)) c hc
    have hle := UInt8.le_iff_toNat_le.1 (of_decide_eq_true hall).2
    have h55 : (55 : UInt8).toNat = 55 := rfl
    omega
  refine (value_lt (by decide) hdigits).trans_le (Nat.pow_le_pow_right (by decide) ?_)
  rw [List.length_map]
  exact (List.takeWhile_sublist _).length_le

theorem strtoll_lt (str : Bytes) : strtoll str < 8 ^ str.length := by
  rw [strtoll]
  have hsub : ((str.takeWhile fun c => c ≠ 0).dropWhile isSpace).length ≤ str.length :=
    ((List.dropWhile_sublist _).trans (List.takeWhile_sublist _)).length_le
  cases hrest : (str.takeWhile fun c => c ≠ 0).dropWhile isSpace with
  | nil => exact pow_pos (by decide) _
  | cons c rest =>
    rw [hrest, List.length_cons] at hsub
    have hlong : ∀ s : Bytes, s.length ≤ str.length → (octal s : ℤ) < 8 ^ str.length := by
      intro s hs
      exact_mod_cast (octal_lt s).trans_le (Nat.pow_le_pow_right (by decide) hs)
    dsimp only
    split_ifs
    · have hpos := hlong rest (by omega)
      omega
    · exact hlong rest (by omega)
    · exact hlong (c :: rest) hsub

variable (tar) in
/-- A size has at most twelve digits. -/
theorem readSize_cases (h : loc + 156 < 2 ^ 63) :
    readSizeAtLocation tar loc = .error .trap ∨
      ∃ size, readSizeAtLocation tar loc = .ok size ∧ size < 2 ^ 36 := by
  rw [readSizeAtLocation, readData, if_pos (by omega)]
  simp only [bind, Except.bind]
  split_ifs with hascii hdec
  · have hlt := strtoll_lt ((tar.drop (loc + 124)).take 12)
    have hlen := List.length_take_le 12 (tar.drop (loc + 124))
    have hpow : (8 : ℤ) ^ ((tar.drop (loc + 124)).take 12).length ≤ 2 ^ 36 :=
      (pow_le_pow_right₀ (by decide) hlen).trans (by decide)
    exact Or.inr ⟨_, rfl, by omega⟩
  · exact Or.inl rfl
  · exact Or.inl rfl

theorem copyData_eq (off size : ℕ) : copyData tar off size = (tar.drop off).take size := by
  induction off, size using copyData.induct tar with
  | case1 off size hlt part ih =>
    have hrest : (tar.drop off).drop part.length = (tar.drop off).drop maxSize := by
      rw [List.length_take]
      rcases le_total maxSize (tar.drop off).length with hle | hle
      · rw [Nat.min_eq_left hle]
      · rw [Nat.min_eq_right hle, List.drop_length, List.drop_eq_nil_of_le hle]
    have hsize : size = maxSize + (size - maxSize) := by omega
    rw [copyData, if_pos hlt]
    show part ++ copyData tar (off + part.length) (size - maxSize) = _
    rw [ih, ← List.drop_drop, hrest, hsize, List.take_add, Nat.add_sub_cancel_left]
  | case2 off size hle => rw [copyData, if_neg hle]

end

/-! ## One entry -/

section
variable {σ : Type} {tar : Bytes} {path : Path} {fm : FileManager σ} {loc : ℕ} {s : State σ}

theorem State.forall_log {P : Event → Prop} {e : Event} :
    (∀ e' ∈ (s.log e).events, P e') ↔ P e ∧ ∀ e' ∈ s.events, P e' :=
  List.forall_mem_cons

variable (fm) in
/-- Removing what exists at a path is right if the path is below the target. -/
theorem removeExisting_spec (p : Path) (hs : ∀ e ∈ s.events, e.Right tar path) :
    (∃ t, removeExisting fm p s = (t, .ok ()) ∧
      (Below path p → ∀ e ∈ t.events, e.Right tar path)) ∨
    ∃ t, removeExisting fm p s = (t, .error .fileManager) ∧
      ((∀ e ∈ t.events, e.Right tar path) ↔ Below path p) := by
  rw [removeExisting]
  by_cases hexists : fm.fileExists s.fs p = true
  · rw [if_pos hexists]
    dsimp only
    cases fm.removeItem (s.log (.removes p)).fs p with
    | some fs => exact Or.inl ⟨_, rfl, fun hbelow => State.forall_log.2 ⟨hbelow, hs⟩⟩
    | none => exact Or.inr ⟨_, rfl, State.forall_log.trans (and_iff_left hs)⟩
  · rw [if_neg hexists]
    exact Or.inl ⟨s, rfl, fun _ => hs⟩

variable (tar path loc) in
/-- An entry is safe, and the next position is that of a header. -/
def EntrySafe (r : State σ × Except Failure ℕ) : Prop :=
  Safe tar path r ∧ ∀ extra, r.2 = .ok extra →
    NextHeader tar loc (loc + (1 + extra) * 512) ∧ loc + (1 + extra) * 512 < 2 ^ 64

/-- An entry that is not handled to its end. -/
theorem entrySafe_error {t : State σ} {e : Failure} (he : e ≠ .trap) :
    EntrySafe tar path loc (t, .error e) ↔ ∀ e ∈ t.events, e.Right tar path := by
  refine ⟨fun h => h.1.2, fun h => ⟨⟨fun heq => he ?_, h⟩, nofun⟩⟩
  exact Except.error.inj heq

theorem entrySafe_trap (t : State σ) : ¬ EntrySafe tar path loc (t, .error .trap) :=
  fun h => h.1.1 rfl

theorem entrySafe_ok {t : State σ} {extra : ℕ}
    (hnext : NextHeader tar loc (loc + (1 + extra) * 512))
    (hlt : loc + (1 + extra) * 512 < 2 ^ 64) :
    EntrySafe tar path loc (t, .ok extra) ↔ ∀ e ∈ t.events, e.Right tar path := by
  refine ⟨fun h => h.1.2, fun h => ⟨⟨nofun, h⟩, fun extra' heq => ?_⟩⟩
  obtain rfl := Except.ok.inj heq
  exact ⟨hnext, hlt⟩

theorem entrySafe_iff {t : State σ} {extra : ℕ} (ht : ∀ e ∈ t.events, e.Right tar path)
    (hlt : loc + (1 + extra) * 512 < 2 ^ 64) :
    EntrySafe tar path loc (t, .ok extra) ↔ NextHeader tar loc (loc + (1 + extra) * 512) :=
  ⟨fun h => (h.2 extra rfl).1, fun h => (entrySafe_ok h hlt).2 ht⟩

/-- The next header of an entry of a known type, with data or without. -/
theorem nextHeader_data {type : BRTarType} {size next : ℕ}
    (ht : readTypeAtLocation tar loc = .ok type) (hdata : type.hasData = true)
    (hsize : readSizeAtLocation tar loc = .ok size) :
    NextHeader tar loc next ↔ next = loc + 512 * (1 + (size + 511) / 512) := by
  constructor
  · intro h
    have hnext := h type ht
    rw [if_pos hdata] at hnext
    exact hnext size hsize
  · intro h type' ht'
    rw [ht] at ht'
    obtain rfl := Except.ok.inj ht'
    rw [if_pos hdata]
    intro size' hsize'
    rw [hsize] at hsize'
    obtain rfl := Except.ok.inj hsize'
    exact h

theorem nextHeader_noData {type : BRTarType} {next : ℕ}
    (ht : readTypeAtLocation tar loc = .ok type) (hdata : type.hasData = false)
    (hnext : next = loc + 512) : NextHeader tar loc next := by
  intro type' ht'
  rw [ht] at ht'
  obtain rfl := Except.ok.inj ht'
  rwa [hdata]

/-- What is required of the entry of a file. -/
theorem extractFile_spec (hs : ∀ e ∈ s.events, e.Right tar path) (hloc : loc + 156 < 2 ^ 63)
    (htype : readTypeAtLocation tar loc = .ok .file) :
    EntrySafe tar path loc (extractFile tar path fm loc s) ↔
      ∀ name, readNameAtLocation tar loc = .ok name → Below path (entryPath path name) ∧
        ∃ size, readSizeAtLocation tar loc = .ok size ∧ (size ≠ 0 →
          ∀ t, removeExisting fm (entryPath path name) s = (t, .ok ()) →
            fm.opensForWriting (fm.createFile t.fs (entryPath path name))
              (entryPath path name) = true → loc + 512 < 2 ^ 63) := by
  rw [extractFile]
  cases hname : readNameAtLocation tar loc with
  | error e =>
    rw [readName_error hloc hname]
    exact (entrySafe_error (by decide)).trans ⟨fun _ => nofun, fun _ => hs⟩
  | ok name =>
    simp only [Except.ok.injEq, forall_eq']
    set p := entryPath path name with hp
    rcases readSize_cases tar hloc with hsize | ⟨size, hsize, hlt⟩
    · rw [hsize]
      refine iff_of_false (entrySafe_trap s) ?_
      rintro ⟨-, size, heq, -⟩
      cases heq
    rw [hsize]
    simp only [Except.ok.injEq, exists_eq_left']
    rcases removeExisting_spec fm p hs with ⟨t, hremove, ht⟩ | ⟨t, hremove, ht⟩
    · rw [hremove]
      simp only [Prod.mk.injEq, and_true, forall_eq']
      have hlog : (∀ e ∈ (t.log (.createsFile p)).events, e.Right tar path) ↔ Below path p :=
        State.forall_log.trans ⟨fun h => h.1, fun h => ⟨h, ht h⟩⟩
      by_cases hzero : size = 0
      · rw [if_pos hzero]
        have hdone : ¬ (size ≠ 0) := fun h => h hzero
        simp only [hdone, false_implies, and_true]
        cases fm.writeEmpty (t.log (.createsFile p)).fs p with
        | none => exact (entrySafe_error (by decide)).trans hlog
        | some fs =>
          refine (entrySafe_ok ((nextHeader_data htype rfl hsize).2 ?_) ?_).trans ?_
          · omega
          · omega
          · refine State.forall_log.trans ((and_iff_right ?_).trans hlog)
            intro size' hsize' _
            rw [hsize] at hsize'
            rw [← Except.ok.inj hsize', hzero]
            rfl
      · rw [if_neg hzero, writeFile]
        simp only [ne_eq, hzero, not_false_eq_true, true_implies]
        have hfs : (t.log (.createsFile p)).fs = t.fs := rfl
        rw [hfs]
        by_cases hopen : fm.opensForWriting (fm.createFile t.fs p) p = true
        · simp only [hopen, if_true, true_implies]
          by_cases hseek : loc + 512 < 2 ^ 63
          · rw [if_pos hseek]
            refine (entrySafe_ok ((nextHeader_data htype rfl hsize).2 ?_) ?_).trans ?_
            · omega
            · omega
            · refine State.forall_log.trans ((and_iff_right ?_).trans (hlog.trans
                (and_iff_left hseek).symm))
              intro size' hsize' hlong
              rw [hsize] at hsize'
              rw [← Except.ok.inj hsize'] at hlong ⊢
              rw [copyData_eq, List.length_take, List.length_drop]
              omega
          · rw [if_neg hseek]
            exact iff_of_false (entrySafe_trap _) fun h => hseek h.2
        · rw [if_neg hopen]
          exact (entrySafe_error (by decide)).trans (hlog.trans
            (and_iff_left fun h => absurd h hopen).symm)
    · rw [hremove]
      refine (entrySafe_error (by decide)).trans (ht.trans (and_iff_left ?_).symm)
      rintro - t' heq
      cases heq

/-- What is required of the entry of a directory. -/
theorem extractDirectory_spec (hs : ∀ e ∈ s.events, e.Right tar path) (hloc : loc + 156 < 2 ^ 63)
    (htype : readTypeAtLocation tar loc = .ok .directory) :
    EntrySafe tar path loc (extractDirectory tar path fm loc s) ↔
      ∀ name, readNameAtLocation tar loc = .ok name → Below path (entryPath path name) := by
  rw [extractDirectory]
  cases hname : readNameAtLocation tar loc with
  | error e =>
    rw [readName_error hloc hname]
    exact (entrySafe_error (by decide)).trans ⟨fun _ => nofun, fun _ => hs⟩
  | ok name =>
    simp only [Except.ok.injEq, forall_eq']
    set p := entryPath path name with hp
    rcases removeExisting_spec fm p hs with ⟨t, hremove, ht⟩ | ⟨t, hremove, ht⟩
    · rw [hremove]
      dsimp only
      have hlog : (∀ e ∈ (t.log (.createsDirectory p)).events, e.Right tar path) ↔ Below path p :=
        State.forall_log.trans ⟨fun h => h.1, fun h => ⟨h, ht h⟩⟩
      cases fm.createDirectory (t.log (.createsDirectory p)).fs p with
      | none => exact (entrySafe_error (by decide)).trans hlog
      | some fs =>
        refine (entrySafe_ok (nextHeader_noData htype rfl rfl) ?_).trans hlog
        omega
    · rw [hremove]
      exact (entrySafe_error (by decide)).trans ht

variable (fm loc) in
/-- An entry is safe exactly if it fits. -/
theorem entry_spec (hs : ∀ e ∈ s.events, e.Right tar path) :
    EntrySafe tar path loc (entry tar path fm loc s) ↔ Fit tar path fm loc s := by
  rw [entry, Fit]
  by_cases hloc : loc + 156 < 2 ^ 63
  swap
  · have htype : readTypeAtLocation tar loc = .error .trap := by
      rw [readTypeAtLocation, readData, if_neg hloc]
      rfl
    rw [htype]
    exact iff_of_false (entrySafe_trap s) fun h => hloc h.1
  have htype : readTypeAtLocation tar loc =
      .ok (.ofData ((tar.drop (loc + 156)).take 1)) := by
    rw [readTypeAtLocation, readData, if_pos hloc]
    rfl
  simp only [hloc, true_and]
  generalize BRTarType.ofData ((tar.drop (loc + 156)).take 1) = type at htype ⊢
  rw [htype]
  cases type with
  | file => exact extractFile_spec hs hloc htype
  | directory => exact extractDirectory_spec hs hloc htype
  | nullBlock =>
    refine (entrySafe_iff hs (by omega)).trans (iff_true_intro ?_)
    exact nextHeader_noData htype rfl (by omega)
  | headerBlock =>
    refine (entrySafe_iff hs (by omega)).trans ?_
    rcases readSize_cases tar hloc with hsize | ⟨size, hsize, -⟩
    · rw [hsize]
      refine iff_of_true ?_ nofun
      intro type ht
      rw [htype] at ht
      obtain rfl := Except.ok.inj ht
      show ∀ size, readSizeAtLocation tar loc = .ok size → _
      rw [hsize]
      nofun
    · rw [nextHeader_data htype rfl hsize, hsize]
      simp only [Except.ok.injEq, forall_eq']
      omega
  | unsupported =>
    rcases readSize_cases tar hloc with hsize | ⟨size, hsize, hlt⟩
    · rw [hsize]
      refine iff_of_false (entrySafe_trap s) ?_
      rintro ⟨size, heq, -⟩
      cases heq
    · rw [hsize]
      refine (entrySafe_iff hs (by omega)).trans ?_
      rw [nextHeader_data htype rfl hsize]
      simp only [Except.ok.injEq, exists_eq_left']
      omega
  | invalid => exact (entrySafe_error (by decide)).trans (iff_true_intro hs)

end

/-! ## The loop -/

section
variable {σ : Type} {tar : Bytes} {path : Path} {fm : FileManager σ} {loc : ℕ} {s : State σ}

variable (fm) in
theorem removeExisting_mono (p : Path) {e : Event} (he : e ∈ s.events) :
    e ∈ (removeExisting fm p s).1.events := by
  rw [removeExisting]
  by_cases hexists : fm.fileExists s.fs p = true
  · rw [if_pos hexists]
    dsimp only
    cases fm.removeItem (s.log (.removes p)).fs p with
    | some fs => exact List.mem_cons_of_mem _ he
    | none => exact List.mem_cons_of_mem _ he
  · rw [if_neg hexists]
    exact he

theorem extractFile_mono {e : Event} (he : e ∈ s.events) :
    e ∈ (extractFile tar path fm loc s).1.events := by
  rw [extractFile]
  cases readNameAtLocation tar loc with
  | error => exact he
  | ok name =>
    cases readSizeAtLocation tar loc with
    | error => exact he
    | ok size =>
      have hremove := removeExisting_mono fm (entryPath path name) he
      dsimp only
      cases h : removeExisting fm (entryPath path name) s with
      | mk t r =>
        rw [h] at hremove
        have hlog := List.mem_cons_of_mem (.createsFile (entryPath path name)) hremove
        cases r with
        | error => exact hremove
        | ok u =>
          dsimp only
          by_cases hzero : size = 0
          · rw [if_pos hzero]
            cases fm.writeEmpty (t.log (.createsFile (entryPath path name))).fs
              (entryPath path name) with
            | none => exact hlog
            | some fs => exact List.mem_cons_of_mem _ hlog
          · rw [if_neg hzero, writeFile]
            dsimp only
            split_ifs
            · exact List.mem_cons_of_mem _ hlog
            · exact hlog
            · exact hlog

theorem extractDirectory_mono {e : Event} (he : e ∈ s.events) :
    e ∈ (extractDirectory tar path fm loc s).1.events := by
  rw [extractDirectory]
  cases readNameAtLocation tar loc with
  | error => exact he
  | ok name =>
    have hremove := removeExisting_mono fm (entryPath path name) he
    dsimp only
    cases h : removeExisting fm (entryPath path name) s with
    | mk t r =>
      rw [h] at hremove
      cases r with
      | error => exact hremove
      | ok u =>
        dsimp only
        cases fm.createDirectory (t.log (.createsDirectory (entryPath path name))).fs
          (entryPath path name) with
        | none => exact List.mem_cons_of_mem _ hremove
        | some fs => exact List.mem_cons_of_mem _ hremove

variable (tar path fm loc) in
theorem entry_mono {e : Event} (he : e ∈ s.events) :
    e ∈ (entry tar path fm loc s).1.events := by
  rw [entry]
  cases readTypeAtLocation tar loc with
  | error => exact he
  | ok type =>
    cases type with
    | file => exact extractFile_mono he
    | directory => exact extractDirectory_mono he
    | unsupported =>
      dsimp only
      cases readSizeAtLocation tar loc with
      | error => exact he
      | ok size => exact he
    | nullBlock => exact he
    | headerBlock => exact he
    | invalid => exact he

/-- Events are not forgotten. -/
theorem extract_mono {e : Event} (he : e ∈ s.events) :
    e ∈ (extract tar path fm loc s).1.events := by
  induction loc, s using extract.induct tar path fm with
  | case1 loc s hlt t f hentry =>
    have hmono := entry_mono tar path fm loc he
    rw [hentry] at hmono
    rw [extract, if_pos hlt, hentry]
    exact hmono
  | case2 loc s hlt t extra hentry next hnext ih =>
    have hmono := entry_mono tar path fm loc he
    rw [hentry] at hmono
    rw [extract, if_pos hlt, hentry]
    dsimp only
    rw [if_pos hnext]
    exact ih (List.mem_cons_of_mem _ hmono)
  | case3 loc s hlt t extra hentry next hnext =>
    have hmono := entry_mono tar path fm loc he
    rw [hentry] at hmono
    rw [extract, if_pos hlt, hentry]
    dsimp only
    rw [if_neg hnext]
    exact hmono
  | case4 loc s hge =>
    rw [extract, if_neg hge]
    exact he

/-- What holds of everything that is reached holds at the start, and of what is reached from the
    next. -/
theorem forall_reach_iff {α : Type} {r : α → α → Prop} {P : α → Prop} {a : α} :
    (∀ b, Relation.ReflTransGen r a b → P b) ↔
      P a ∧ ∀ c, r a c → ∀ b, Relation.ReflTransGen r c b → P b := by
  constructor
  · exact fun h => ⟨h a .refl, fun c hc b hb => h b (.head hc hb)⟩
  · rintro ⟨ha, hnext⟩ b hb
    rcases hb.cases_head with rfl | ⟨c, hc, hcb⟩
    · exact ha
    · exact hnext c hc b hcb

variable (loc) in
/-- An extraction is safe exactly if the entries that are reached fit. -/
theorem extract_spec (hs : ∀ e ∈ s.events, e.Right tar path) :
    Safe tar path (extract tar path fm loc s) ↔ ∀ b : ℕ × State σ,
      Relation.ReflTransGen (Next tar path fm) (loc, s) b → b.1 < tar.length →
        Fit tar path fm b.1 b.2 := by
  induction loc, s using extract.induct tar path fm with
  | case1 loc s hlt t f hentry =>
    have hspec := entry_spec fm loc hs
    have hnone : ∀ c, ¬ Next tar path fm (loc, s) c := by
      rintro c ⟨-, t', extra, heq, -⟩
      rw [hentry] at heq
      cases heq
    rw [hentry] at hspec
    rw [forall_reach_iff, extract, if_pos hlt, hentry]
    constructor
    · intro h
      refine ⟨fun _ => hspec.1 ⟨⟨fun heq => h.1 ?_, h.2⟩, nofun⟩, fun c hc => absurd hc (hnone c)⟩
      rw [Except.error.inj heq]
    · intro h
      have hsafe := (hspec.2 (h.1 hlt)).1
      refine ⟨fun heq => hsafe.1 ?_, hsafe.2⟩
      rw [Except.error.inj heq]
  | case2 loc s hlt t extra hentry next hnext ih =>
    have hspec := entry_spec fm loc hs
    have hstep : ∀ c, Next tar path fm (loc, s) c ↔ c = (next, t.log (.advances loc next)) := by
      intro c
      constructor
      · rintro ⟨-, t', extra', heq, hc, -, hc'⟩
        rw [hentry] at heq
        cases heq
        exact Prod.ext hc (by rw [hc', hc])
      · rintro rfl
        exact ⟨hlt, t, extra, hentry, rfl, hnext, rfl⟩
    have hloop : extract tar path fm loc s =
        extract tar path fm next (t.log (.advances loc next)) := by
      rw [extract, if_pos hlt, hentry]
      exact if_pos hnext
    rw [hentry] at hspec
    rw [forall_reach_iff, hloop]
    simp only [hstep, forall_eq]
    constructor
    · intro h
      -- the events of the entry are among those of the whole extraction
      have hevents : ∀ e ∈ (t.log (.advances loc next)).events, e.Right tar path :=
        fun e he => h.2 e (extract_mono he)
      have hright := State.forall_log.1 hevents
      refine ⟨fun _ => hspec.1 ?_, (ih hevents).1 h⟩
      exact (entrySafe_ok hright.1 hnext).2 hright.2
    · intro h
      have hsafe := hspec.2 (h.1 hlt)
      exact (ih (State.forall_log.2 ⟨(hsafe.2 extra rfl).1, hsafe.1.2⟩)).2 h.2
  | case3 loc s hlt t extra hentry next hnext =>
    have hspec := entry_spec fm loc hs
    rw [hentry] at hspec
    rw [forall_reach_iff, extract, if_pos hlt, hentry]
    dsimp only
    rw [if_neg hnext]
    refine iff_of_false (fun h => h.1 rfl) fun h => ?_
    exact hnext ((hspec.2 (h.1 hlt)).2 extra rfl).2
  | case4 loc s hge =>
    rw [forall_reach_iff, extract, if_neg hge]
    exact iff_of_true ⟨nofun, hs⟩ ⟨fun h => absurd h hge, fun c hc => absurd hc.1 hge⟩

/-- An extraction ends.  It does not trap, stays below its target, gives files their declared sizes
    and goes from header to header exactly if all entries that it reaches fit. -/
theorem extraction_safe_iff (tar : Bytes) (path : Path) (fm : FileManager σ) (fs : σ) :
    ((createFilesAndDirectoriesAtPath tar path fm fs).2 ≠ .error .trap ∧
      ∀ e ∈ (createFilesAndDirectoriesAtPath tar path fm fs).1.events, e.Right tar path) ↔
    ∀ b : ℕ × State σ, Relation.ReflTransGen (Next tar path fm) (0, { fs }) b →
      b.1 < tar.length → Fit tar path fm b.1 b.2 :=
  extract_spec 0 nofun

end

/-- A file system without files. -/
def emptyManager : FileManager Unit where
  fileExists _ _ := false
  removeItem _ _ := some ()
  createDirectory _ _ := some ()
  createFile _ _ := ()
  writeEmpty _ _ := some ()
  opensForWriting _ _ := true
  write _ _ _ := ()

/-- A header with this name, size and type. -/
def header (name size : Bytes) (type : UInt8) : Bytes :=
  name ++ List.replicate (124 - name.length) 0 ++ size ++ List.replicate (32 - size.length) 0 ++
    type :: List.replicate 355 0

/-- The file `../x`; a file of size `-1`; global headers of 52 bytes, which are read as a header. -/
theorem not_extraction_safe : ¬ ∃ tar ∈ [header [46, 46, 47, 120] [48] 48,
    header [120] [45, 49] 48, header [120] [54, 52] 103 ++ List.replicate 512 0],
    (createFilesAndDirectoriesAtPath tar [[116]] emptyManager ()).2 ≠ .error .trap ∧
      ∀ e ∈ (createFilesAndDirectoriesAtPath tar [[116]] emptyManager ()).1.events,
        e.Right tar [[116]] := by
  rintro ⟨tar, htar, hsafe⟩
  have hfit := (extract_spec 0 (s := { fs := () }) nofun).1 hsafe (0, { fs := () }) .refl
  simp only [List.mem_cons, List.not_mem_nil, or_false] at htar
  rcases htar with rfl | rfl | rfl
  · obtain ⟨-, h⟩ := hfit (by decide +kernel)
    obtain ⟨⟨c, rest, heq⟩, -⟩ := h ([46, 46, 47, 120] ++ List.replicate 96 0) (by rfl)
    have hpath : resolve (entryPath [[116]] ([46, 46, 47, 120] ++ List.replicate 96 0)) =
        [[120]] := by decide +kernel
    rw [hpath] at heq
    exact absurd (List.cons.inj heq).1 (by decide)
  · obtain ⟨-, h⟩ := hfit (by decide +kernel)
    obtain ⟨-, size, hsize, -⟩ := h (120 :: List.replicate 99 0) (by rfl)
    have htrap : readSizeAtLocation (header [120] [45, 49] 48) 0 = .error .trap := by rfl
    rw [htrap] at hsize
    cases hsize
  · obtain ⟨-, h⟩ := hfit (by decide +kernel)
    obtain ⟨size, hsize, hdvd⟩ := h
    have h52 : readSizeAtLocation (header [120] [54, 52] 103 ++ List.replicate 512 0) 0 =
        .ok 52 := by rfl
    rw [h52] at hsize
    obtain rfl := Except.ok.inj hsize
    exact absurd hdvd (by decide)

end BRTar

end RavenWallet
