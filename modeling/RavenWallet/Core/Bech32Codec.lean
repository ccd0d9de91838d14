/-
  Which Bech32 addresses are read back (BRBech32.c).

  `Bech32Parts` are the parts of an address, and `bech32Decode_parts` is what is decoded
  from them.

  * `bech32Encode_program`: what is written for a witness program;
  * `bech32_codec`: how many characters are written, and which addresses are encodings.
-/
import RavenWallet.Lib.Word
import RavenWallet.Core.Bech32

namespace RavenWallet

/-- The data with a witness program of this version. -/
def witnessData (ver : ℕ) (prog : Bytes) : Bytes :=
  (if ver = 0 then OP_0 else UInt8.ofNat ver + OP_1 - 1) :: UInt8.ofNat prog.length :: prog

/-- The digits of the program in an address. -/
def programDigits (addr : Bytes) : List ℕ :=
  let sep := findSep addr addr.length
  (((addr.drop (sep + 1)).filterMap bech32Digit).drop 1).take (addr.length - (sep + 2 + 6))

/-- Behind the last whole byte there are fewer than five bits, and they are zero. -/
def PaddingZero (ds : List ℕ) : Prop :=
  5 * ds.length % 8 < 5 ∧ ∀ n, 8 * (5 * ds.length / 8) ≤ n → bitAt 5 ds n = false

/-! ## Characters -/

theorem toLower_low (c : UInt8) : toLower c &&& 0x1f = c &&& 0x1f :=
  forall_uint8 (P := fun c => toLower c &&& 0x1f = c &&& 0x1f) (by decide +kernel) c

theorem toLower_printable (c : UInt8) (h : isPrintable c = true) :
    isPrintable (toLower c) = true ∧ isUpper (toLower c) = false :=
  forall_uint8 (P := fun c => isPrintable c = true →
    isPrintable (toLower c) = true ∧ isUpper (toLower c) = false) (by decide +kernel) c h

theorem toLower_of_lower {c : UInt8} (h : isUpper c = false) : toLower c = c := by
  rw [toLower, h]
  rfl

theorem map_toLower {cs : Bytes} (h : ∀ c ∈ cs, isUpper c = false) : cs.map toLower = cs :=
  (List.map_congr_left fun c hc => toLower_of_lower (h c hc)).trans (List.map_id cs)

/-- Digits have a character, which is printable and no upper-case letter, nor a separator. -/
theorem bech32Digit_char {d : ℕ} (hd : d < 32) : bech32Digit (bech32chars.getD d 0) = some d ∧
    isPrintable (bech32chars.getD d 0) = true ∧ isUpper (bech32chars.getD d 0) = false := by
  have hall : ∀ d : Fin 32, bech32Digit (bech32chars.getD d 0) = some (d : ℕ) ∧
      isPrintable (bech32chars.getD d 0) = true ∧ isUpper (bech32chars.getD d 0) = false := by
    decide +kernel
  exact hall ⟨d, hd⟩

theorem char_bech32Digit {c : UInt8} {d : ℕ} (h : bech32Digit c = some d) :
    d < 32 ∧ bech32chars.getD d 0 = toLower c := by
  obtain ⟨hd, hget, -⟩ := List.findIdx?_eq_some_iff_getElem.1 h
  refine ⟨hd, ?_⟩
  rw [List.getD_eq_getElem?_getD, List.getElem?_eq_getElem hd, Option.getD_some]
  exact of_decide_eq_true hget

theorem separator_no_digit : bech32Digit 49 = none := by decide +kernel

/-- Characters with these digits. -/
theorem chars_of_digits {cs : Bytes} {ds : List ℕ} (h : cs.map bech32Digit = ds.map some) :
    (∀ d ∈ ds, d < 32) ∧ cs.map toLower = ds.map (fun d => bech32chars.getD d 0) ∧ 49 ∉ cs := by
  induction cs generalizing ds with
  | nil =>
    cases ds with
    | nil => exact ⟨nofun, rfl, List.not_mem_nil⟩
    | cons d ds => cases h
  | cons c cs ih =>
    cases ds with
    | nil => cases h
    | cons d ds =>
      rw [List.map_cons, List.map_cons, List.cons.injEq] at h
      obtain ⟨hlt, hmap, hnot⟩ := ih h.2
      obtain ⟨hd, hc⟩ := char_bech32Digit h.1
      refine ⟨List.forall_mem_cons.2 ⟨hd, hlt⟩, ?_, ?_⟩
      · rw [List.map_cons, List.map_cons, hmap, hc]
      · intro hmem
        rcases List.mem_cons.1 hmem with rfl | hmem
        · rw [separator_no_digit] at h
          cases h.1
        · exact hnot hmem

theorem digits_of_chars {ds : List ℕ} (h : ∀ d ∈ ds, d < 32) :
    (ds.map fun d => bech32chars.getD d 0).map bech32Digit = ds.map some := by
  rw [List.map_map]
  exact List.map_congr_left fun d hd => (bech32Digit_char (h d hd)).1

theorem chars_inj {ds es : List ℕ} (hds : ∀ d ∈ ds, d < 32) (hes : ∀ d ∈ es, d < 32) :
    (ds.map fun d => bech32chars.getD d 0) = (es.map fun d => bech32chars.getD d 0) ↔ ds = es := by
  refine ⟨fun h => ?_, congrArg _⟩
  have hmap := congrArg (List.map bech32Digit) h
  rw [digits_of_chars hds, digits_of_chars hes] at hmap
  exact List.map_injective_iff.2 (Option.some_injective ℕ) hmap

/-! ## The parts of an address -/

structure Bech32Parts (addr hrp : Bytes) (ver : ℕ) (ds sum : List ℕ) : Prop where
  split : ∃ body, addr = hrp ++ 49 :: body ∧ body.map bech32Digit = (ver :: (ds ++ sum)).map some
  sum : sum.length = 6
  hrp : hrp ≠ []

/-- The checks before the digits are read. -/
structure Bech32Valid (addr : Bytes) : Prop where
  printable : ∀ c ∈ addr, isPrintable c = true
  length : addr.length ≤ 90
  case : ¬ (addr.any isUpper ∧ addr.any isLower)

theorem findSep_eq {addr : Bytes} {sep m : ℕ} (hpos : 0 < sep) (hm : sep ≤ m)
    (hsep : addr.getD sep 0 = 49) (hlast : ∀ i, sep < i → i ≤ m → addr.getD i 0 ≠ 49) :
    findSep addr m = sep := by
  induction m with
  | zero => omega
  | succ m ih =>
    rw [findSep]
    by_cases heq : sep = m + 1
    · rw [if_pos (heq ▸ hsep), heq]
    · rw [if_neg (hlast (m + 1) (by omega) le_rfl)]
      exact ih (by omega) fun i hi hi' => hlast i hi (by omega)

theorem findSep_spec {addr : Bytes} {m : ℕ} (h : 0 < findSep addr m) :
    addr.getD (findSep addr m) 0 = 49 := by
  induction m with
  | zero => exact absurd h (by simp [findSep])
  | succ m ih =>
    rw [findSep] at h ⊢
    split_ifs at h ⊢ with hsep
    · exact hsep
    · exact ih h

section
variable {addr hrp : Bytes} {ver : ℕ} {ds sum : List ℕ}

theorem Bech32Parts.length (h : Bech32Parts addr hrp ver ds sum) :
    addr.length = hrp.length + ds.length + 8 := by
  obtain ⟨body, rfl, hbody⟩ := h.split
  have hlen := congrArg List.length hbody
  simp only [List.length_map, List.length_cons, List.length_append, h.sum] at hlen
  rw [List.length_append, List.length_cons, hlen]
  omega

theorem Bech32Parts.findSep (h : Bech32Parts addr hrp ver ds sum) :
    findSep addr addr.length = hrp.length := by
  obtain ⟨body, rfl, hbody⟩ := h.split
  have hnot := (chars_of_digits hbody).2.2
  refine findSep_eq (List.length_pos_of_ne_nil h.hrp) (by simp) (by simp) fun i hi _ heq => ?_
  rw [List.getD_eq_getElem?_getD, List.getElem?_append_right hi.le] at heq
  obtain ⟨k, hk⟩ : ∃ k, i - hrp.length = k + 1 := ⟨i - hrp.length - 1, by omega⟩
  rw [hk, List.getElem?_cons_succ] at heq
  cases hget : body[k]? with
  | none => rw [hget] at heq; cases heq
  | some c =>
    rw [hget] at heq
    exact hnot ((show c = 49 from heq) ▸ List.mem_of_getElem? hget)

theorem Bech32Parts.programDigits (h : Bech32Parts addr hrp ver ds sum) :
    programDigits addr = ds := by
  have hlen := h.length
  rw [RavenWallet.programDigits, h.findSep]
  obtain ⟨body, rfl, hbody⟩ := h.split
  have hfilter : body.filterMap bech32Digit = ver :: (ds ++ sum) := by
    have hid : (body.map bech32Digit).filterMap id = body.filterMap bech32Digit :=
      List.filterMap_map
    rw [← hid, hbody, List.filterMap_map]
    exact List.filterMap_some
  have hdrop : (hrp ++ 49 :: body).drop (hrp.length + 1) = body := by simp
  have hcount : (hrp ++ 49 :: body).length - (hrp.length + 2 + 6) = ds.length := by omega
  rw [hdrop, hfilter, hcount, List.drop_one, List.tail_cons, List.take_left]

/-! ## Decoding -/

/-- How the loop ends that starts in `s` with the digits `es` in the buffer: it has read the
    characters `cs` as digits and put the first ones into the buffer, or they are none. -/
def DigitsRead (n j : ℕ) (cs : Bytes) (es : List ℕ) (s : Bech32State)
    (r : Except Bech32Error Bech32State) : Prop :=
  (r = .error .invalid ∧ ∀ ds : List ℕ, cs.map bech32Digit ≠ ds.map some) ∨
    ∃ (ds : List ℕ) (buf : Bytes), cs.map bech32Digit = ds.map some ∧
      HoldsDigits buf (es ++ ds.take (n - j)) ∧ r = .ok ⟨addDigits s.chk ds, s.ver, buf⟩

theorem DigitsRead.cons {n j d : ℕ} {c : UInt8} {cs : Bytes} {es fs : List ℕ}
    {s s' : Bech32State} {r : Except Bech32Error Bech32State} (h : DigitsRead n (j + 1) cs fs s' r)
    (hdigit : bech32Digit c = some d)
    (htake : ∀ ds : List ℕ, fs ++ ds.take (n - (j + 1)) = es ++ (d :: ds).take (n - j))
    (hchk : s'.chk = polymod s.chk ^^^ UInt32.ofNat d) (hver : s'.ver = s.ver) :
    DigitsRead n j (c :: cs) es s r := by
  rcases h with ⟨hr, hno⟩ | ⟨ds, buf, hds, hholds, hr⟩
  · refine Or.inl ⟨hr, fun ds h => ?_⟩
    cases ds with
    | nil => cases h
    | cons d' ds => exact hno ds (List.cons.inj h).2
  · refine Or.inr ⟨d :: ds, buf, ?_, htake ds ▸ hholds, ?_⟩
    · rw [List.map_cons, List.map_cons, hdigit, hds]
    · rw [hr, hchk, hver]
      rfl

/-- The loop behind the version. -/
theorem readDigits_spec {n j : ℕ} (cs : Bytes) {s : Bech32State} {es : List ℕ} (hn : n ≤ 83)
    (hbuf : HoldsDigits s.buf es) (hes : es.length = min j n) :
    DigitsRead n j cs es s (readDigits n (j + 1) cs s) := by
  induction cs generalizing j s es with
  | nil =>
    refine Or.inr ⟨[], s.buf, rfl, ?_, rfl⟩
    rwa [List.take_nil, List.append_nil]
  | cons c cs ih =>
    rw [readDigits]
    cases hdigit : bech32Digit c with
    | none =>
      refine Or.inl ⟨rfl, fun ds h => ?_⟩
      cases ds with
      | nil => cases h
      | cons d ds =>
        rw [List.map_cons, List.map_cons, hdigit] at h
        cases (List.cons.inj h).1
    | some d =>
      have hd := (char_bech32Digit hdigit).1
      dsimp only
      by_cases hj : j ≥ n
      · rw [if_pos hj]
        refine (ih (j := j + 1) (s := { s with chk := polymod s.chk ^^^ UInt32.ofNat d }) hbuf
          (by omega)).cons hdigit (fun ds => ?_) rfl rfl
        rw [Nat.sub_eq_zero_of_le hj, Nat.sub_eq_zero_of_le (by omega), List.take_zero,
          List.take_zero]
      · rw [if_neg hj]
        have hesj : es.length = j := by omega
        obtain ⟨buf, hput, hholds⟩ := hbuf.put hd (by omega)
        rw [hesj] at hput
        simp only [hput, bind, Except.bind]
        refine (ih hholds ?_).cons hdigit (fun ds => ?_) rfl rfl
        · rw [List.length_append, List.length_singleton]
          omega
        · have hsucc : n - j = n - (j + 1) + 1 := by omega
          rw [hsucc, List.take_succ_cons, List.append_assoc, List.singleton_append]

theorem holdsDigits_nil : HoldsDigits (List.replicate 52 0) [] := by
  refine ⟨List.length_replicate, fun n => ?_⟩
  rw [byteBit_eq, bitAt_of_ge (by decide) (Nat.zero_le n), List.getD_eq_getElem?_getD,
    List.getElem?_replicate]
  split_ifs <;> exact Nat.zero_testBit _

/-- The loop over the digits of an address. -/
theorem readDigits_parts {n : ℕ} {body : Bytes} (chk : UInt32)
    (hbody : body.map bech32Digit = (ver :: (ds ++ sum)).map some) (hn : n = ds.length)
    (hle : n ≤ 83) : ∃ buf, HoldsDigits buf ds ∧
      readDigits n 0 body { chk } = .ok ⟨addDigits chk (ver :: (ds ++ sum)), ver, buf⟩ := by
  cases body with
  | nil => cases hbody
  | cons c cs =>
    rw [List.map_cons, List.map_cons, List.cons.injEq] at hbody
    rcases readDigits_spec (j := 0) cs
      (s := { chk := polymod chk ^^^ UInt32.ofNat ver, ver := ver }) hle holdsDigits_nil
      (Nat.zero_min n).symm with ⟨-, hno⟩ | ⟨es, buf, hes, hholds, hread⟩
    · exact absurd hbody.2 (hno _)
    · obtain rfl : es = ds ++ sum :=
        List.map_injective_iff.2 (Option.some_injective ℕ) (hes.symm.trans hbody.2)
      rw [List.nil_append, Nat.sub_zero, hn, List.take_left] at hholds
      refine ⟨buf, hholds, ?_⟩
      rw [readDigits, hbody.1]
      exact hread

/-- What is decoded from the parts of an address. -/
theorem bech32Decode_parts (h : Bech32Parts addr hrp ver ds sum) (hvalid : Bech32Valid addr) :
    ∃ buf, HoldsDigits buf ds ∧ bech32Decode addr =
      if addDigits (hrpChecksum (hrp.map toLower) hrp) (ver :: (ds ++ sum)) ≠ 1 ∨ ver > 16 ∨
        5 * ds.length / 8 < 2 ∨ 5 * ds.length / 8 > 40 then .error .invalid
      else .ok (hrp.map toLower, witnessData ver (buf.take (5 * ds.length / 8))) := by
  have hlen := h.length
  have hpos := List.length_pos_of_ne_nil h.hrp
  have hle := hvalid.length
  have hcount : addr.length - (hrp.length + 2 + 6) = ds.length := by omega
  have hsep := h.findSep
  obtain ⟨body, hsplit, hbody⟩ := h.split
  have htake : addr.take hrp.length = hrp := by rw [hsplit, List.take_left]
  have hdrop : addr.drop (hrp.length + 1) = body := by simp [hsplit]
  obtain ⟨buf, hholds, hread⟩ := readDigits_parts (hrpChecksum (hrp.map toLower) hrp) hbody
    rfl (by omega)
  refine ⟨buf, hholds, ?_⟩
  have hprint : ¬ addr.any (fun c => !isPrintable c) = true := by
    simpa using hvalid.printable
  have hcheck : ¬ (addr.length < 8 ∨ addr.length > 90 ∨ hrp.length < 1 ∨
      hrp.length + 2 + 6 > addr.length ∨ (addr.any isUpper ∧ addr.any isLower)) := by
    rintro (h | h | h | h | h)
    · omega
    · omega
    · omega
    · omega
    · exact hvalid.case h
  unfold bech32Decode
  simp only [hsep]
  rw [if_neg hprint, if_neg hcheck, htake, hdrop, hcount, hread]
  simp only [bind, Except.bind, Nat.mul_comm ds.length 5]
  by_cases hbad : addDigits (hrpChecksum (hrp.map toLower) hrp) (ver :: (ds ++ sum)) ≠ 1 ∨
      ver > 16 ∨ 5 * ds.length / 8 < 2 ∨ 5 * ds.length / 8 > 40
  · rw [if_pos hbad, if_pos hbad]
  · have hbuf : (buf.take (5 * ds.length / 8)).length = 5 * ds.length / 8 :=
      List.length_take_of_le (by rw [hholds.length]; omega)
    rw [if_neg hbad, if_neg hbad, if_neg (by rw [hholds.length]; omega), witnessData, hbuf]

/-- A loop over other characters than digits fails. -/
theorem readDigits_body {n : ℕ} (body : Bytes) (chk : UInt32) (hn : n ≤ 83) :
    readDigits n 0 body { chk } = .error .invalid ∨
      ∃ es : List ℕ, body.map bech32Digit = es.map some := by
  cases body with
  | nil => exact Or.inr ⟨[], rfl⟩
  | cons c cs =>
    rw [readDigits]
    cases hdigit : bech32Digit c with
    | none => exact Or.inl rfl
    | some d =>
      rcases readDigits_spec (j := 0) cs
        (s := { chk := polymod chk ^^^ UInt32.ofNat d, ver := d }) hn holdsDigits_nil
        (Nat.zero_min n).symm with ⟨hread, -⟩ | ⟨es, -, hes, -⟩
      · exact Or.inl hread
      · exact Or.inr ⟨d :: es, by rw [List.map_cons, List.map_cons, hdigit, hes]⟩

theorem isSep_split {sep : ℕ} (hsep : addr.getD sep 0 = 49) :
    addr = addr.take sep ++ 49 :: addr.drop (sep + 1) := by
  have hlt : sep < addr.length := by
    by_contra hge
    rw [List.getD_eq_getElem?_getD, List.getElem?_eq_none (Nat.le_of_not_lt hge)] at hsep
    cases hsep
  rw [List.getD_eq_getElem?_getD, List.getElem?_eq_getElem hlt, Option.getD_some] at hsep
  rw [← hsep, ← List.drop_eq_getElem_cons hlt, List.take_append_drop]

/-- Other addresses are not valid. -/
theorem bech32Decode_cases (addr : Bytes) : bech32Decode addr = .error .invalid ∨
    Bech32Valid addr ∧ ∃ hrp ver ds sum, Bech32Parts addr hrp ver ds sum := by
  by_cases hprint : addr.any (fun c => !isPrintable c) = true
  · left
    unfold bech32Decode
    exact if_pos hprint
  by_cases hcheck : addr.length < 8 ∨ addr.length > 90 ∨ findSep addr addr.length < 1 ∨
      findSep addr addr.length + 2 + 6 > addr.length ∨ (addr.any isUpper ∧ addr.any isLower)
  · left
    unfold bech32Decode
    simp only
    rw [if_neg hprint, if_pos hcheck]
  have hvalid : Bech32Valid addr :=
    ⟨by simpa using hprint, not_lt.1 fun h => hcheck (Or.inr (Or.inl h)),
      fun h => hcheck (Or.inr (Or.inr (Or.inr (Or.inr h))))⟩
  set sep := findSep addr addr.length with hsep
  have hpos : 0 < sep := by omega
  have hsplit := isSep_split (findSep_spec (hsep ▸ hpos))
  rw [← hsep] at hsplit
  set body := addr.drop (sep + 1) with hbody
  have hcount : addr.length = sep + 1 + body.length := by
    have h := congrArg List.length hsplit
    rw [List.length_append, List.length_cons, List.length_take_of_le (by omega)] at h
    omega
  rcases readDigits_body (n := addr.length - (sep + 2 + 6)) body
    (hrpChecksum ((addr.take sep).map toLower) (addr.take sep)) (by omega) with
    hread | ⟨es, hes⟩
  · left
    unfold bech32Decode
    simp only [← hsep, ← hbody]
    rw [if_neg hprint, if_neg hcheck, hread]
    rfl
  · refine Or.inr ⟨hvalid, addr.take sep, ?_⟩
    have hlen : body.length = es.length := by
      simpa using congrArg List.length hes
    cases es with
    | nil =>
      rw [List.length_nil] at hlen
      omega
    | cons ver rest =>
      rw [List.length_cons] at hlen
      refine ⟨ver, rest.take (rest.length - 6), rest.drop (rest.length - 6), ⟨body, hsplit, ?_⟩,
        ?_, ?_⟩
      · rw [List.take_append_drop]
        exact hes
      · rw [List.length_drop]
        omega
      · rw [← List.length_pos_iff, List.length_take_of_le (by omega)]
        exact hpos

/-! ## Encoding -/

/-- The characters that are written for a program. -/
def bech32Address (hrp : Bytes) (ver : ℕ) (prog : Bytes) : Bytes :=
  let groups := encodeGroups prog prog.length
  let chk := (polymod^[6] (addDigits (hrpChecksum hrp hrp) (ver :: groups))) ^^^ 1
  hrp ++ 49 :: (ver :: (groups ++ checksumDigits chk)).map fun d => bech32chars.getD d 0

variable {prog : Bytes}

/-- The opcode of a version gives it back. -/
theorem witnessData_opcode (hver : ver ≤ 16) (prog : Bytes) :
    ∃ op, witnessData ver prog = op :: UInt8.ofNat prog.length :: prog ∧
      ¬ (op > OP_0 ∧ op < OP_1) ∧ (if op ≥ OP_1 then (op + 1 - OP_1).toNat else 0) = ver := by
  have hall : ∀ ver : Fin 17,
      let op := if (ver : ℕ) = 0 then OP_0 else UInt8.ofNat ver + OP_1 - 1
      ¬ (op > OP_0 ∧ op < OP_1) ∧ (if op ≥ OP_1 then (op + 1 - OP_1).toNat else 0) = (ver : ℕ) := by
    decide +kernel
  exact ⟨_, rfl, hall ⟨ver, by omega⟩⟩

theorem all_lowercase {hrp : Bytes} : (hrp.all fun c => isPrintable c && !isUpper c) = true ↔
    ∀ c ∈ hrp, isPrintable c = true ∧ isUpper c = false := by
  simp

/-- What is written for a witness program. -/
theorem bech32Encode_program (hver : ver ≤ 16) (h2 : 2 ≤ prog.length) (h40 : prog.length ≤ 40) :
    bech32Encode hrp (witnessData ver prog) =
      if (hrp.all fun c => isPrintable c && !isUpper c) = true ∧ hrp.length + prog.length ≤ 82 then
        some (bech32Address hrp ver prog)
      else none := by
  obtain ⟨op, hdata, hop, hback⟩ := witnessData_opcode hver prog
  have hlen : (UInt8.ofNat prog.length).toNat = prog.length := by
    rw [UInt8.toNat_ofNat']
    omega
  have hany : (hrp.any fun c => !isPrintable c || isUpper c) = true ↔
      ¬ ∀ c ∈ hrp, isPrintable c = true ∧ isUpper c = false := by
    simp only [List.any_eq_true, Bool.or_eq_true, Bool.not_eq_true', not_forall, not_and_or,
      Bool.not_eq_true, Bool.not_eq_false, exists_prop]
  have hdrop : (op :: UInt8.ofNat prog.length :: prog).drop 2 = prog := rfl
  unfold bech32Encode
  rw [hdata]
  simp only [List.getD_cons_zero, List.getD_cons_succ, hlen, hback, hdrop]
  by_cases hhrp : ∀ c ∈ hrp, isPrintable c = true ∧ isUpper c = false
  · by_cases hroom : hrp.length + prog.length ≤ 82
    · rw [if_neg, if_neg hop, if_neg (by omega), if_pos ⟨all_lowercase.2 hhrp, hroom⟩]
      · rfl
      · rw [hany]
        exact fun h => h.elim (fun h => by omega) fun h => h hhrp
    · have hguard : ver > 16 ∨ prog.length < 2 ∨ prog.length > 40 ∨
          hrp.length + 1 + 1 + prog.length + 6 ≥ 91 := by omega
      rw [if_neg hop, if_pos hguard, ite_self, if_neg fun h => hroom h.2]
  · rw [if_pos (Or.inr (hany.2 hhrp)), if_neg fun h => hhrp (all_lowercase.1 h.1)]

theorem length_checksumDigits (chk : UInt32) : (checksumDigits chk).length = 6 := by
  simp [checksumDigits]

theorem checksumDigits_lt (chk : UInt32) : ∀ d ∈ checksumDigits chk, d < 32 := by
  rw [checksumDigits_eq]
  simp only [List.forall_mem_cons]
  refine ⟨?_, ?_, ?_, ?_, ?_, ?_, nofun⟩ <;> exact Nat.mod_lt _ (by decide)

theorem length_bech32Address (hrp : Bytes) (ver : ℕ) (prog : Bytes) :
    (bech32Address hrp ver prog).length = hrp.length + (8 * prog.length + 4) / 5 + 8 := by
  rw [bech32Address, List.length_append, List.length_cons, List.length_map, List.length_cons,
    List.length_append, (encodeGroups_spec rfl).1, length_checksumDigits]
  omega

variable (prog) in
/-- The parts of what is written. -/
theorem bech32Address_parts (hhrp : hrp ≠ []) (hver : ver ≤ 16) :
    Bech32Parts (bech32Address hrp ver prog) hrp ver (encodeGroups prog prog.length)
      (checksumDigits ((polymod^[6] (addDigits (hrpChecksum hrp hrp)
        (ver :: encodeGroups prog prog.length))) ^^^ 1)) := by
  refine ⟨⟨_, rfl, digits_of_chars ?_⟩, length_checksumDigits _, hhrp⟩
  refine List.forall_mem_cons.2 ⟨by omega, List.forall_mem_append.2 ⟨?_, checksumDigits_lt _⟩⟩
  exact (encodeGroups_spec rfl).2.1

/-- What is written is read back, if it is not too long. -/
theorem bech32Decode_address (hhrp : hrp ≠ [])
    (hchars : ∀ c ∈ hrp, isPrintable c = true ∧ isUpper c = false) (hver : ver ≤ 16)
    (h2 : 2 ≤ prog.length) (h40 : prog.length ≤ 40)
    (hlen : (bech32Address hrp ver prog).length ≤ 90) :
    bech32Decode (bech32Address hrp ver prog) = .ok (hrp, witnessData ver prog) := by
  have hparts := bech32Address_parts prog hhrp hver
  obtain ⟨hcount, hlt, hbits⟩ := encodeGroups_spec (rfl : prog.length = _)
  have hall : ∀ c ∈ bech32Address hrp ver prog, isPrintable c = true ∧ isUpper c = false := by
    rw [bech32Address]
    refine List.forall_mem_append.2 ⟨hchars, List.forall_mem_cons.2 ⟨by decide, ?_⟩⟩
    intro c hc
    obtain ⟨d, hd, rfl⟩ := List.mem_map.1 hc
    refine (bech32Digit_char ?_).2
    rcases List.mem_cons.1 hd with rfl | hd
    · omega
    · rcases List.mem_append.1 hd with hd | hd
      · exact hlt d hd
      · exact checksumDigits_lt _ d hd
  have hvalid : Bech32Valid (bech32Address hrp ver prog) := by
    refine ⟨fun c hc => (hall c hc).1, hlen, fun h => ?_⟩
    obtain ⟨c, hc, hupper⟩ := List.any_eq_true.1 h.1
    rw [(hall c hc).2] at hupper
    cases hupper
  obtain ⟨buf, hholds, hdecode⟩ := bech32Decode_parts hparts hvalid
  have hsize : 5 * (encodeGroups prog prog.length).length / 8 = prog.length := by
    rw [hcount]
    omega
  have hprog : buf.take prog.length = prog := by
    have htake : (buf.take prog.length).length = prog.length :=
      List.length_take_of_le (by rw [hholds.length]; omega)
    refine ext_byteBit htake fun n hn => ?_
    rw [htake] at hn
    rw [byteBit_take (by rw [hholds.length]; omega) hn, hholds.bits, hbits]
  have hsum : addDigits (hrpChecksum hrp hrp) (ver :: (encodeGroups prog prog.length ++
      checksumDigits ((polymod^[6] (addDigits (hrpChecksum hrp hrp)
        (ver :: encodeGroups prog prog.length))) ^^^ 1))) = 1 := by
    rw [← List.cons_append, addDigits_append]
    exact (addDigits_eq_one_iff (length_checksumDigits _) (checksumDigits_lt _)).2 rfl
  rw [hdecode, hsize, hprog, map_toLower fun c hc => (hchars c hc).2, if_neg]
  rintro (h | h | h | h)
  · exact h hsum
  · omega
  · omega
  · omega

/-! ## Both directions -/

theorem paddingZero_iff {buf : Bytes} (hholds : HoldsDigits buf ds) (hds : ∀ d ∈ ds, d < 32)
    (hlen : 5 * ds.length / 8 ≤ 40) :
    encodeGroups (buf.take (5 * ds.length / 8)) (5 * ds.length / 8) = ds ↔ PaddingZero ds := by
  set m := 5 * ds.length / 8 with hm
  have htake : (buf.take m).length = m := List.length_take_of_le (by rw [hholds.length]; omega)
  obtain ⟨hcount, hlt, hbits⟩ := encodeGroups_spec htake
  constructor
  · intro h
    rw [h] at hcount hbits
    refine ⟨by omega, fun n hn => ?_⟩
    rw [hbits, byteBit_of_ge (by rwa [htake])]
  · rintro ⟨hmod, hzero⟩
    refine ext_bitAt (w := 5) (by decide) (by omega) hlt hds fun n _ => ?_
    rw [hbits]
    by_cases hn : n < 8 * m
    · rw [byteBit_take (by rw [hholds.length]; omega) hn, hholds.bits]
    · rw [byteBit_of_ge (by rw [htake]; omega), hzero n (by omega)]

/-- An accepted address is the encoding of what it says, up to the case of its letters, exactly if
    the padding is right. -/
theorem bech32Encode_decoded {data : Bytes} (h : bech32Decode addr = .ok (hrp, data)) :
    bech32Encode hrp data = some (addr.map toLower) ↔ PaddingZero (programDigits addr) := by
  rcases bech32Decode_cases addr with hinvalid | ⟨hvalid, hrp', ver, ds, sum, hparts⟩
  · rw [hinvalid] at h
    cases h
  obtain ⟨buf, hholds, hdecode⟩ := bech32Decode_parts hparts hvalid
  rw [hdecode] at h
  split_ifs at h with hbad
  obtain ⟨rfl, rfl⟩ := Prod.mk.inj (Except.ok.inj h)
  push Not at hbad
  obtain ⟨hsum, hver, h2, h40⟩ := hbad
  set m := 5 * ds.length / 8 with hm
  have hlength := hparts.length
  have hle := hvalid.length
  have htake : (buf.take m).length = m := List.length_take_of_le (by rw [hholds.length]; omega)
  rw [hparts.programDigits]
  obtain ⟨body, rfl, hbody⟩ := hparts.split
  obtain ⟨hdigits, hlower, -⟩ := chars_of_digits hbody
  have hds : ∀ d ∈ ds, d < 32 := fun d hd =>
    hdigits d (List.mem_cons_of_mem _ (List.mem_append_left _ hd))
  have hsum32 : ∀ d ∈ sum, d < 32 := fun d hd =>
    hdigits d (List.mem_cons_of_mem _ (List.mem_append_right _ hd))
  have hchars : ∀ c ∈ hrp'.map toLower, isPrintable c = true ∧ isUpper c = false := by
    intro c hc
    obtain ⟨b, hb, rfl⟩ := List.mem_map.1 hc
    exact toLower_printable b (hvalid.printable b (List.mem_append_left _ hb))
  have hchk : hrpChecksum (hrp'.map toLower) (hrp'.map toLower) =
      hrpChecksum (hrp'.map toLower) hrp' := by
    have hlow : (hrp'.map toLower).map (fun c : UInt8 => (c &&& 0x1f).toNat) =
        hrp'.map fun c : UInt8 => (c &&& 0x1f).toNat := by
      rw [List.map_map]
      exact List.map_congr_left fun c _ => congrArg UInt8.toNat (toLower_low c)
    rw [hrpChecksum, hlow, hrpChecksum]
  have hseparator : toLower 49 = 49 := by decide
  have hlow : (hrp' ++ 49 :: body).map toLower = hrp'.map toLower ++
      49 :: (ver :: (ds ++ sum)).map fun d => bech32chars.getD d 0 := by
    rw [List.map_append, List.map_cons, hseparator, hlower]
  have hroom : (hrp'.map toLower).length + (buf.take m).length ≤ 82 := by
    rw [List.length_map, htake]
    omega
  rw [bech32Encode_program (by omega) (by omega) (by omega), if_pos ⟨all_lowercase.2 hchars, hroom⟩,
    Option.some_inj, bech32Address, htake, hchk, hlow, List.append_right_inj, List.cons_inj_right,
    ← paddingZero_iff hholds hds h40]
  set groups := encodeGroups (buf.take m) m with hgroups
  have hgroups32 : ∀ d ∈ groups, d < 32 := (encodeGroups_spec htake).2.1
  rw [chars_inj (List.forall_mem_cons.2 ⟨by omega, List.forall_mem_append.2
    ⟨hgroups32, checksumDigits_lt _⟩⟩) hdigits, List.cons_inj_right]
  constructor
  · intro heq
    exact (List.append_inj' heq ((length_checksumDigits _).trans hparts.sum.symm)).1
  · intro heq
    rw [← List.cons_append, addDigits_append] at hsum
    rw [heq, ← (addDigits_eq_one_iff hparts.sum hsum32).1 hsum]

/-- Encoding fits into the buffer of 91 bytes exactly if there is room for the digits of the
    program, which the guard counts as bytes.  What is written is read back.  Decoding writes inside
    of its buffers, and an accepted address is an encoding exactly if its padding is right. -/
theorem bech32_codec (addr : Bytes) :
    (∀ (hrp : Bytes) (ver : ℕ) (prog out : Bytes), hrp ≠ [] → (∀ c ∈ hrp, isUpper c = false) →
      ver ≤ 16 → 2 ≤ prog.length → prog.length ≤ 40 →
      bech32Encode hrp (witnessData ver prog) = some out →
        (out.length + 1 ≤ 91 ↔ hrp.length + (8 * prog.length + 4) / 5 ≤ 82) ∧
          (out.length ≤ 90 → bech32Decode out = .ok (hrp, witnessData ver prog))) ∧
    bech32Decode addr ≠ .error .outOfBounds ∧
      ∀ hrp data, bech32Decode addr = .ok (hrp, data) →
        (bech32Encode hrp data = some (addr.map toLower) ↔ PaddingZero (programDigits addr)) := by
  constructor
  · intro hrp ver prog out hhrp _ hver h2 h40 hencode
    rw [bech32Encode_program hver h2 h40] at hencode
    split_ifs at hencode with hguard
    obtain rfl := Option.some_inj.1 hencode
    refine ⟨?_, bech32Decode_address hhrp (all_lowercase.1 hguard.1) hver h2 h40⟩
    rw [length_bech32Address]
    omega
  · refine ⟨?_, fun hrp data => bech32Encode_decoded⟩
    rcases bech32Decode_cases addr with hinvalid | ⟨hvalid, hrp, ver, ds, sum, hparts⟩
    · rw [hinvalid]
      nofun
    · obtain ⟨buf, -, hdecode⟩ := bech32Decode_parts hparts hvalid
      rw [hdecode]
      split_ifs <;> nofun

/-- Forty characters and forty bytes make 113 characters; `rc1qqqqp60rx29` has a padding bit. -/
theorem not_bech32_codec :
    (¬ ∀ (hrp : Bytes) (ver : ℕ) (prog out : Bytes), hrp ≠ [] → (∀ c ∈ hrp, isUpper c = false) →
      ver ≤ 16 → 2 ≤ prog.length → prog.length ≤ 40 →
      bech32Encode hrp (witnessData ver prog) = some out → out.length + 1 ≤ 91) ∧
    ¬ ∀ addr hrp data : Bytes, bech32Decode addr = .ok (hrp, data) →
      bech32Encode hrp data = some (addr.map toLower) := by
  constructor
  · intro h
    have hchars : ∀ c ∈ List.replicate 40 (97 : UInt8), isPrintable c = true ∧ isUpper c = false := by
      intro c hc
      rw [List.eq_of_mem_replicate hc]
      decide
    have hencode : bech32Encode (List.replicate 40 97) (witnessData 0 (List.replicate 40 0)) =
        some (bech32Address (List.replicate 40 97) 0 (List.replicate 40 0)) := by
      rw [bech32Encode_program (by decide) (by decide) (by decide),
        if_pos ⟨all_lowercase.2 hchars, by decide⟩]
    have hroom := h _ _ _ _ (by decide) (fun c hc => (hchars c hc).2) (by decide) (by decide)
      (by decide) hencode
    rw [length_bech32Address] at hroom
    exact absurd hroom (by decide)
  · intro h
    have haddr := h ("rc1qqqqp60rx29".toList.map fun c => UInt8.ofNat c.toNat) [114, 99]
      [0, 2, 0, 0] (by decide +kernel)
    exact absurd haddr (by decide +kernel)

end

end RavenWallet
