/-
  Private keys as strings (BRKey.c).

  A string is read as a key in wallet import format, as a mini key, or by its hex
  digits.  Validating it and importing it tell the formats apart differently.

  * `setPrivKey_privKey`: what is written for a valid secret gives it back;
  * `setPrivKey_hexString`: and so do its hex digits, unless they are also read as
    base58;
  * `scans_digits`: the import reads the number that hex digits stand for;
  * `privKey_agrees`: when validation and import agree.
-/
import Mathlib.Data.List.TakeWhile
import RavenWallet.Lib.Word
import RavenWallet.Lib.Buffer
import RavenWallet.Core.Base58Buffers

namespace RavenWallet

def RAVENCOIN_PRIVKEY : UInt8 := 128

/-- The order of the group. -/
def SECP256K1_N : ℕ := 0xFFFFFFFFFFFFFFFFFFFFFFFFFFFFFFFEBAAEDCE6AF48A03BBFD25E8CD0364141

/-- `secp256k1_ec_seckey_verify`. -/
def seckeyVerify (seckey : Bytes) : Bool := 0 < ofBE seckey ∧ ofBE seckey < SECP256K1_N

/-- The secret of a `BRKey`, and whether its public key is compressed: not if this is 0. -/
structure SecretKey where
  secret : Bytes := List.replicate 32 0
  compressed : ℕ := 0
  deriving DecidableEq

/-- `BRKeySetSecret`. -/
def SecretKey.setSecret (secret : Bytes) (compressed : ℕ) : SecretKey × Bool :=
  (⟨secret, compressed⟩, seckeyVerify secret)

@[simp] theorem SecretKey.setSecret_snd (secret : Bytes) (compressed : ℕ) :
    (setSecret secret compressed).2 = seckeyVerify secret := rfl

/-! ## Formats -/

/-- The length and the first character of a mini key. -/
def isMiniKey (privKey : Bytes) : Bool :=
  (privKey.length = 30 ∨ privKey.length = 22) ∧ privKey.getD 0 0 = 83

def hexChars : Bytes := "0123456789ABCDEFabcdef".toList.map fun c => UInt8.ofNat c.toNat

def strspn (str accept : Bytes) : ℕ := (str.takeWhile fun c => c ∈ accept).length

def hexDigit (c : UInt8) : Option UInt8 :=
  if 48 ≤ c ∧ c ≤ 57 then some (c - 48)
  else if 65 ≤ c ∧ c ≤ 70 then some (c - 55)
  else if 97 ≤ c ∧ c ≤ 102 then some (c - 87)
  else none

/-- What `sscanf` reads with `%2hhx`: behind white space up to two characters, which are digits or a
    sign and a digit.  Of `0x` it reads the 0. -/
def scanHex (str : Bytes) : Option UInt8 :=
  match str.dropWhile isSpace with
  | [] => none
  | c :: rest =>
    match hexDigit c, rest.head?.bind hexDigit with
    | some d, some e => some (16 * d + e)
    | some d, none => some d
    | none, some e => if c = 43 then some e else if c = 45 then some (-e) else none
    | none, none => none

/-- What is scanned at the first two characters. -/
def scanPair (str : Bytes) : Option UInt8 := if str.length < 2 then none else scanHex str

/-- What is scanned at the first `n` pairs of characters. -/
def scans : ℕ → Bytes → Option Bytes
  | 0, _ => some []
  | n + 1, str => (scanPair str).bind fun b => (scans n (str.drop 2)).map (b :: ·)

/-- At most `n` bytes, each scanned at two characters. -/
def hexBytes : ℕ → Bytes → Bytes
  | n + 1, c :: d :: rest =>
    match scanHex (c :: d :: rest) with
    | some b => b :: hexBytes n rest
    | none => []
  | _, _ => []

section
variable (H : Hashes) (sha256 : Bytes → Bytes)

/-- `BRPrivKeyIsValid`. -/
def privKeyIsValid (privKey : Bytes) : Bool :=
  let data := base58CheckDecode H 34 privKey
  if data.length = 33 ∨ data.length = 34 then data.getD 0 0 = RAVENCOIN_PRIVKEY
  -- a question mark is added
  else if isMiniKey privKey then (sha256 (privKey ++ [63])).getD 0 0 = 0
  else strspn privKey hexChars = 64

/-- The bytes that the import reads from a string that is no mini key: base58 with a checksum, or
    without one, or hex digits. -/
def privKeyData (privKey : Bytes) : Bytes :=
  let data := base58CheckDecode H 34 privKey
  let data := if data.length = 0 ∨ data.length = 28 then base58Decode 34 privKey else data
  if data.length < 32 ∨ data.length > 32 + 2 then hexBytes 34 privKey else data

namespace SecretKey

/-- `BRKeySetPrivKey`. -/
def setPrivKey (key : SecretKey) (privKey : Bytes) : SecretKey × Bool :=
  if isMiniKey privKey then
    if privKeyIsValid H sha256 privKey then setSecret (sha256 privKey) 0 else (key, false)
  else
    let data := privKeyData H privKey
    if (data.length = 32 + 1 ∨ data.length = 32 + 2) ∧ data.getD 0 0 = RAVENCOIN_PRIVKEY then
      setSecret ((data.drop 1).take 32) (if data.length = 32 + 2 then 1 else 0)
    else if data.length = 32 then setSecret data 0
    else (key, false)

/-- The bytes that are written for a key. -/
def privKeyBytes (key : SecretKey) : Bytes :=
  RAVENCOIN_PRIVKEY :: (key.secret ++ if key.compressed ≠ 0 then [1] else [])

/-- `BRKeyPrivKey` into a buffer of `pkLen` characters. -/
def privKey (key : SecretKey) (pkLen : ℕ) : Bytes :=
  if seckeyVerify key.secret then base58CheckEncode H pkLen key.privKeyBytes else []

/-- What `BRKeyPrivKey` returns. -/
def privKeySize (key : SecretKey) (pkLen : Option ℕ) : ℕ :=
  if seckeyVerify key.secret then
    base58EncodeSize pkLen (key.privKeyBytes ++ (H.sha256_2 key.privKeyBytes).take 4)
  else 0

end SecretKey

/-! ## Wallet import format -/

theorem length_base58Digits (str : Bytes) (buf : List ℕ) :
    (base58Digits buf str).length = buf.length := by
  induction str generalizing buf with
  | nil => rfl
  | cons c str ih =>
    rw [base58Digits]
    cases base58Digit c with
    | none => rfl
    | some d => exact (ih _).trans (length_mulAdd buf _ (by decide))

theorem length_base58Bytes (str : Bytes) : (base58Bytes str).length ≤ str.length + 1 := by
  have hsplit := congrArg List.length
    (List.takeWhile_append_dropWhile (p := fun c : UInt8 => decide (c = 49)) (l := str))
  rw [List.length_append] at hsplit
  have hbytes := (List.dropWhile_sublist (fun d => decide (d = 0)) (l := base58Digits
    (List.replicate ((str.dropWhile fun c => decide (c = 49)).length * 733 / 1000 + 1) 0)
    (str.dropWhile fun c => decide (c = 49)))).length_le
  rw [length_base58Digits, List.length_replicate] at hbytes
  simp only [base58Bytes, List.length_append, List.length_replicate, List.length_map]
  omega

theorem length_base58CheckDecode (dataLen : ℕ) (str : Bytes) :
    (base58CheckDecode H dataLen str).length ≤ str.length - 3 := by
  have hbytes := length_base58Bytes str
  have hle : (base58Decode str.length str).length ≤ str.length + 1 := by
    rw [base58Decode]
    split_ifs
    · exact hbytes
    · exact Nat.zero_le _
  unfold base58CheckDecode
  dsimp only
  split_ifs
  · rw [List.length_take]
    omega
  · exact Nat.zero_le _
  · exact Nat.zero_le _

namespace SecretKey
variable {H} {key : SecretKey}

theorem length_privKeyBytes (hlen : key.secret.length = 32) :
    key.privKeyBytes.length = if key.compressed ≠ 0 then 34 else 33 := by
  rw [privKeyBytes, List.length_cons, List.length_append, hlen]
  split_ifs <;> rfl

/-- The string of a valid secret, and what it is decoded to. -/
theorem privKey_spec (hlen : key.secret.length = 32) (hvalid : seckeyVerify key.secret = true)
    (m : ℕ) : 36 ≤ (key.privKey H (key.privKeySize H none + m)).length ∧
      base58CheckDecode H 34 (key.privKey H (key.privKeySize H none + m)) = key.privKeyBytes := by
  set str := base58String (key.privKeyBytes ++ (H.sha256_2 key.privKeyBytes).take 4) with hstr
  have hstring : key.privKey H (key.privKeySize H none + m) = str := by
    rw [privKey, privKeySize, if_pos hvalid, if_pos hvalid]
    exact if_pos (Nat.le_add_right _ m)
  have henlarged : base58CheckEncode H (60 + str.length) key.privKeyBytes = str :=
    if_pos (by rw [← hstr]; omega)
  have hsize := length_privKeyBytes hlen
  rw [privKeyBytes] at hsize hstr henlarged
  rw [hstring]
  set data := key.secret ++ if key.compressed ≠ 0 then [1] else [] with hdata
  have hrange : 32 ≤ data.length ∧ data.length ≤ 33 := by
    rw [List.length_cons] at hsize
    split_ifs at hsize <;> omega
  constructor
  · have hlow := (length_base58String (data ++ (H.sha256_2 (RAVENCOIN_PRIVKEY :: data)).take 4)
      (b := RAVENCOIN_PRIVKEY) (by decide)).1
    rw [List.length_append, List.length_take, H.length_sha256_2] at hlow
    rw [hstr, List.cons_append]
    omega
  · rw [← henlarged]
    exact base58CheckDecode_encode H (by decide) (by rw [List.length_cons]; omega) (by omega)

/-- What is written for a secret is valid, and gives it back. -/
theorem setPrivKey_privKey (hlen : key.secret.length = 32) (hvalid : seckeyVerify key.secret = true)
    (old : SecretKey) (m : ℕ) :
    privKeyIsValid H sha256 (key.privKey H (key.privKeySize H none + m)) = true ∧
      old.setPrivKey H sha256 (key.privKey H (key.privKeySize H none + m)) =
        (⟨key.secret, if key.compressed ≠ 0 then 1 else 0⟩, true) := by
  obtain ⟨hlong, hdecode⟩ := privKey_spec (H := H) hlen hvalid m
  set str := key.privKey H (key.privKeySize H none + m) with hstr
  have hsize := length_privKeyBytes hlen
  have hsizes : key.privKeyBytes.length = 33 ∨ key.privKeyBytes.length = 34 := by
    rw [hsize]
    split_ifs <;> simp
  have hmini : isMiniKey str = false := by
    rw [isMiniKey, decide_eq_false_iff_not]
    omega
  have hdata : privKeyData H str = key.privKeyBytes := by
    have hcheck : ¬ (key.privKeyBytes.length = 0 ∨ key.privKeyBytes.length = 28) := by omega
    have hrange : ¬ (key.privKeyBytes.length < 32 ∨ key.privKeyBytes.length > 32 + 2) := by omega
    rw [privKeyData, hdecode, if_neg hcheck, if_neg hrange]
  constructor
  · rw [privKeyIsValid, hdecode, if_pos hsizes]
    rfl
  · have hsecret : (key.privKeyBytes.drop 1).take 32 = key.secret := by
      rw [privKeyBytes, List.drop_one, List.tail_cons, ← hlen, List.take_left]
    rw [setPrivKey, hmini, hdata, if_neg (by decide), if_pos ⟨hsizes, rfl⟩, hsecret, setSecret,
      hvalid, hsize]
    by_cases hc : key.compressed ≠ 0
    · rw [if_pos hc, if_pos hc, if_pos rfl]
    · rw [if_neg hc, if_neg hc, if_neg (by decide)]

end SecretKey

/-! ## Hex digits -/

def hexChar (d : UInt8) : UInt8 := if d < 10 then d + 48 else d + 87

/-- The two digits of a byte. -/
def hexPair (b : UInt8) : Bytes := [hexChar (b >>> 4), hexChar (b &&& 15)]

theorem hexChar_mem : ∀ d : Fin 16, hexChar (UInt8.ofNat d) ∈ hexChars := by decide +kernel

theorem hexPair_digits (b : UInt8) : hexDigit (hexChar (b >>> 4)) = some (b >>> 4) ∧
    hexDigit (hexChar (b &&& 15)) = some (b &&& 15) ∧ (16 : UInt8) * (b >>> 4) + (b &&& 15) = b ∧
      isSpace (hexChar (b >>> 4)) = false :=
  forall_uint8 (P := fun b => hexDigit (hexChar (b >>> 4)) = some (b >>> 4) ∧
    hexDigit (hexChar (b &&& 15)) = some (b &&& 15) ∧ (16 : UInt8) * (b >>> 4) + (b &&& 15) = b ∧
      isSpace (hexChar (b >>> 4)) = false) (by decide +kernel) b

theorem hexPair_lt (b : UInt8) : (b >>> 4).toNat < 16 ∧ (b &&& 15).toNat < 16 :=
  forall_uint8 (P := fun b => (b >>> 4).toNat < 16 ∧ (b &&& 15).toNat < 16) (by decide +kernel) b

theorem hexPair_spec (b : UInt8) : hexDigit (hexChar (b >>> 4)) = some (b >>> 4) ∧
    hexDigit (hexChar (b &&& 15)) = some (b &&& 15) ∧ (16 : UInt8) * (b >>> 4) + (b &&& 15) = b ∧
      isSpace (hexChar (b >>> 4)) = false ∧ ∀ c ∈ hexPair b, c ∈ hexChars := by
  obtain ⟨hhigh, hlow, hsum, hspace⟩ := hexPair_digits b
  refine ⟨hhigh, hlow, hsum, hspace, fun c hc => ?_⟩
  rw [hexPair, List.mem_pair] at hc
  obtain rfl | rfl := hc
  · have hmem := hexChar_mem ⟨(b >>> 4).toNat, (hexPair_lt b).1⟩
    rwa [UInt8.ofNat_toNat] at hmem
  · have hmem := hexChar_mem ⟨(b &&& 15).toNat, (hexPair_lt b).2⟩
    rwa [UInt8.ofNat_toNat] at hmem

theorem scanHex_hexPair (b : UInt8) (rest : Bytes) : scanHex (hexPair b ++ rest) = some b := by
  obtain ⟨hhigh, hlow, hsum, hspace, -⟩ := hexPair_spec b
  have hdrop : (hexPair b ++ rest).dropWhile isSpace =
      hexChar (b >>> 4) :: hexChar (b &&& 15) :: rest :=
    List.dropWhile_cons_of_neg (by rw [hspace]; decide)
  rw [scanHex, hdrop]
  simp only [List.head?_cons, Option.bind_some, hhigh, hlow, hsum]

theorem hexBytes_flatMap {n : ℕ} {bytes : Bytes} (h : bytes.length ≤ n) :
    hexBytes n (bytes.flatMap hexPair) = bytes := by
  induction bytes generalizing n with
  | nil => cases n <;> rfl
  | cons b bytes ih =>
    cases n with
    | zero => exact absurd h (Nat.not_succ_le_zero _)
    | succ n =>
      have hscan := scanHex_hexPair b (bytes.flatMap hexPair)
      rw [List.flatMap_cons]
      rw [hexPair, List.cons_append, List.cons_append, List.nil_append] at hscan ⊢
      rw [hexBytes, hscan, ih (Nat.succ_le_succ_iff.1 h)]

theorem length_hexString (bytes : Bytes) : (bytes.flatMap hexPair).length = 2 * bytes.length := by
  rw [List.length_flatMap]
  show (bytes.map fun _ => 2).sum = _
  rw [List.map_const', List.sum_replicate_nat, Nat.mul_comm]

theorem strspn_flatMap (bytes : Bytes) :
    strspn (bytes.flatMap hexPair) hexChars = 2 * bytes.length := by
  have hall : ∀ c ∈ bytes.flatMap hexPair, c ∈ hexChars := by
    intro c hc
    obtain ⟨b, -, hb⟩ := List.mem_flatMap.1 hc
    exact (hexPair_spec b).2.2.2.2 c hb
  have htake : (bytes.flatMap hexPair).takeWhile (fun c => c ∈ hexChars) =
      bytes.flatMap hexPair := List.takeWhile_eq_self_iff.2 fun c hc => decide_eq_true (hall c hc)
  rw [strspn, htake, length_hexString]

variable {H}

/-- The number that hex digits stand for. -/
def hexNumber (digits : Bytes) : ℕ :=
  value 16 (digits.map fun c => ((hexDigit c).getD 0).toNat)

/-- The number of a secret. -/
def IsSecret (n : ℕ) : Prop := 0 < n ∧ n < SECP256K1_N

theorem seckeyVerify_iff (bytes : Bytes) : seckeyVerify bytes = true ↔ IsSecret (ofBE bytes) := by
  rw [seckeyVerify, decide_eq_true_iff, IsSecret]

theorem hexBytes_succ (n : ℕ) (str : Bytes) : hexBytes (n + 1) str =
    (scanPair str).elim [] fun b => b :: hexBytes n (str.drop 2) := by
  match str with
  | [] => rfl
  | [c] => rfl
  | c :: d :: rest =>
    rw [hexBytes, scanPair, if_neg (by simp)]
    cases scanHex (c :: d :: rest) with
    | none => rfl
    | some b => rfl

/-- The bytes that the import reads start with those that are scanned. -/
theorem hexBytes_of_scans {n : ℕ} (m : ℕ) {str bytes : Bytes} (h : scans n str = some bytes) :
    bytes.length = n ∧ hexBytes (n + m) str = bytes ++ hexBytes m (str.drop (2 * n)) := by
  induction n generalizing str bytes with
  | zero =>
    obtain rfl := Option.some.inj h
    rw [Nat.zero_add, Nat.mul_zero, List.drop_zero]
    exact ⟨rfl, rfl⟩
  | succ n ih =>
    obtain ⟨b, hb, h⟩ := Option.bind_eq_some_iff.1 h
    obtain ⟨rest, hrest, rfl⟩ := Option.map_eq_some_iff.1 h
    obtain ⟨hlen, hread⟩ := ih hrest
    refine ⟨congrArg (· + 1) hlen, ?_⟩
    rw [show n + 1 + m = n + m + 1 by omega, hexBytes_succ, hb, Option.elim_some, hread,
      List.drop_drop, List.cons_append, show 2 + 2 * n = 2 * (n + 1) by omega]

theorem length_hexBytes_of_scans {n : ℕ} (m : ℕ) {str : Bytes} (h : scans n str = none) :
    (hexBytes m str).length < n := by
  induction n generalizing str m with
  | zero => cases h
  | succ n ih =>
    cases m with
    | zero => cases str <;> exact Nat.zero_lt_succ n
    | succ m =>
      rw [hexBytes_succ]
      cases hb : scanPair str with
      | none => exact Nat.zero_lt_succ n
      | some b =>
        rw [scans, hb, Option.bind_some, Option.map_eq_none_iff] at h
        exact Nat.succ_lt_succ (ih m h)

theorem hexDigit_chars : ∀ c ∈ hexChars, isSpace c = false ∧ (hexDigit c).isSome ∧
    ((hexDigit c).getD 0).toNat < 16 := by decide +kernel

/-- Two digits are scanned as their number. -/
theorem scanPair_digits {c d : UInt8} (rest : Bytes) (hc : c ∈ hexChars) (hd : d ∈ hexChars) :
    ∃ b, scanPair (c :: d :: rest) = some b ∧ b.toNat = hexNumber [c, d] := by
  obtain ⟨hspace, hcdigit, hclt⟩ := hexDigit_chars c hc
  obtain ⟨-, hddigit, hdlt⟩ := hexDigit_chars d hd
  obtain ⟨x, hx⟩ := Option.isSome_iff_exists.1 hcdigit
  obtain ⟨y, hy⟩ := Option.isSome_iff_exists.1 hddigit
  rw [hx, Option.getD_some] at hclt
  rw [hy, Option.getD_some] at hdlt
  have hdrop : (c :: d :: rest).dropWhile isSpace = c :: d :: rest :=
    List.dropWhile_cons_of_neg (by rw [hspace]; decide)
  refine ⟨16 * x + y, ?_, ?_⟩
  · rw [scanPair, if_neg (by simp), scanHex, hdrop]
    simp only [List.head?_cons, Option.bind_some, hx, hy]
  · rw [hexNumber, List.map_cons, List.map_cons, List.map_nil, value_cons, value_cons, value_nil,
      hx, hy, UInt8.toNat_add, UInt8.toNat_mul]
    simp
    omega

theorem hexNumber_append (digits rest : Bytes) : hexNumber (digits ++ rest) =
    hexNumber digits * 16 ^ rest.length + hexNumber rest := by
  induction digits with
  | nil => simp [hexNumber]
  | cons c digits ih =>
    rw [List.cons_append, hexNumber, List.map_cons, value_cons]
    rw [hexNumber, List.map_cons, value_cons]
    rw [hexNumber] at ih
    rw [ih, List.length_map, List.length_map, List.length_append, pow_add, hexNumber]
    ring

/-- Hex digits are scanned as their number. -/
theorem scans_digits {n : ℕ} (str : Bytes) (hlen : 2 * n ≤ str.length)
    (h : ∀ c ∈ str.take (2 * n), c ∈ hexChars) :
    ∃ bytes, scans n str = some bytes ∧ ofBE bytes = hexNumber (str.take (2 * n)) := by
  induction n generalizing str with
  | zero => exact ⟨[], rfl, rfl⟩
  | succ n ih =>
    obtain ⟨c, str, rfl⟩ := List.exists_cons_of_length_pos (l := str) (by omega)
    obtain ⟨d, str, rfl⟩ := List.exists_cons_of_length_pos (l := str) (by
      rw [List.length_cons] at hlen
      omega)
    rw [List.length_cons, List.length_cons] at hlen
    rw [show 2 * (n + 1) = 2 * n + 1 + 1 by omega, List.take_succ_cons, List.take_succ_cons] at h ⊢
    obtain ⟨b, hb, hnumber⟩ := scanPair_digits str (h c List.mem_cons_self)
      (h d (List.mem_cons_of_mem _ List.mem_cons_self))
    obtain ⟨bytes, hbytes, hrest⟩ := ih str (by omega) fun e he =>
      h e (List.mem_cons_of_mem _ (List.mem_cons_of_mem _ he))
    have hlength := (hexBytes_of_scans 0 hbytes).1
    refine ⟨b :: bytes, ?_, ?_⟩
    · rw [scans, hb, Option.bind_some, List.drop_succ_cons, List.drop_succ_cons, List.drop_zero,
        hbytes, Option.map_some]
    · rw [ofBE_cons, hnumber, hrest, hlength,
        show c :: d :: str.take (2 * n) = [c, d] ++ str.take (2 * n) from rfl, hexNumber_append,
        List.length_take_of_le (by omega), pow_mul]
      rfl

/-- A string whose base58 digits are not as long as a key is read by its hex digits. -/
theorem privKeyData_eq_hexBytes (str : Bytes)
    (h : (base58Bytes str).length < 32 ∨ 38 < (base58Bytes str).length) :
    (base58CheckDecode H 34 str).length < 32 ∧ privKeyData H str = hexBytes 34 str := by
  have hchecked : (base58CheckDecode H 34 str).length < 32 := by
    by_cases hroom : (base58Bytes str).length ≤ str.length
    · rw [base58CheckDecode, base58Decode, if_pos hroom]
      dsimp only
      split_ifs with hfour hsum
      · rw [List.length_take] at hsum ⊢
        omega
      · exact Nat.zero_lt_succ _
      · exact Nat.zero_lt_succ _
    · rw [base58CheckDecode, base58Decode, if_neg hroom]
      exact Nat.zero_lt_succ _
  have hplain : (base58Decode 34 str).length < 32 := by
    rw [base58Decode]
    split_ifs with hle
    · omega
    · exact Nat.zero_lt_succ _
  refine ⟨hchecked, ?_⟩
  unfold privKeyData
  dsimp only
  rw [if_pos (Or.inl (by split_ifs <;> assumption))]

/-- The hex digits of a secret give it back, unless they are also read as base58. -/
theorem setPrivKey_hexString (secret : Bytes) (hlen : secret.length = 32)
    (hb : (base58Bytes (secret.flatMap hexPair)).length < 32 ∨
      38 < (base58Bytes (secret.flatMap hexPair)).length) (old : SecretKey) :
    privKeyIsValid H sha256 (secret.flatMap hexPair) = true ∧
      old.setPrivKey H sha256 (secret.flatMap hexPair) = SecretKey.setSecret secret 0 := by
  obtain ⟨hchecked, hdata⟩ := privKeyData_eq_hexBytes (H := H) (secret.flatMap hexPair) hb
  have hsize := length_hexString secret
  have hmini : isMiniKey (secret.flatMap hexPair) = false := by
    rw [isMiniKey, decide_eq_false_iff_not]
    omega
  constructor
  · rw [privKeyIsValid, if_neg (by omega), hmini, if_neg (by decide), strspn_flatMap, hlen]
    rfl
  · rw [SecretKey.setPrivKey, hmini, if_neg (by decide), hdata, hexBytes_flatMap (by omega),
      if_neg (by omega), if_pos hlen]

/-! ## Agreement -/

/-- A secret in the range, alone or between the version and at most one more byte. -/
def Importable (data : Bytes) : Prop :=
  data.length = 32 ∧ seckeyVerify data = true ∨
    (data.length = 33 ∨ data.length = 34) ∧ data.getD 0 0 = RAVENCOIN_PRIVKEY ∧
      seckeyVerify ((data.drop 1).take 32) = true

variable (H)

/-- The bytes of a string in base58: behind a checksum, or without one if they are as many as in an
    address, or none. -/
def base58Reading (privKey : Bytes) : Bytes :=
  let data := base58CheckDecode H 34 privKey
  if data.length = 0 ∨ data.length = 28 then base58Decode 34 privKey else data

/-- A string that starts with 64 hex digits and is not read as base58: their number is that of a
    secret.  If a byte is scanned behind them, the first two are the version, and the others are a
    secret with that byte. -/
def DigitsAgree (privKey : Bytes) : Prop :=
  (scanPair (privKey.drop 64) = none → IsSecret (hexNumber (privKey.take 64))) ∧
  ∀ b, scanPair (privKey.drop 64) = some b → hexNumber (privKey.take 2) = RAVENCOIN_PRIVKEY.toNat ∧
    IsSecret (hexNumber ((privKey.take 64).drop 2) * 256 + b.toNat)

/-- A string that does not start with exactly 64 hex digits and is not read as base58: if 32 bytes
    are scanned from its pairs of characters all the same, they are no secret, neither alone nor with
    the version and one more byte. -/
def PairsAgree (privKey : Bytes) : Prop :=
  ∀ bytes, scans 32 privKey = some bytes →
    (scanPair (privKey.drop 64) = none → ¬ IsSecret (ofBE bytes)) ∧
    ∀ b, scanPair (privKey.drop 64) = some b → bytes.head? = some RAVENCOIN_PRIVKEY →
      ¬ IsSecret (ofBE bytes.tail * 256 + b.toNat)

/-- The secret of a mini key with the right checksum, or of a string in wallet import format, is in
    the range.  Of the other strings, those that start with exactly 64 hex digits stand for a secret,
    in base58 if they are read so, and else by their digits, and the others do not. -/
def PrivKeyAgrees (privKey : Bytes) : Prop :=
  let data := base58CheckDecode H 34 privKey
  if isMiniKey privKey then
    (sha256 (privKey ++ [63])).getD 0 0 = 0 → seckeyVerify (sha256 privKey) = true
  else if data.length = 33 ∨ data.length = 34 then
    data.getD 0 0 = RAVENCOIN_PRIVKEY → seckeyVerify ((data.drop 1).take 32) = true
  else if 32 ≤ (base58Reading H privKey).length then
    if strspn privKey hexChars = 64 then Importable (base58Reading H privKey)
    else ¬ Importable (base58Reading H privKey)
  else if strspn privKey hexChars = 64 then DigitsAgree privKey
  else PairsAgree privKey

theorem length_base58Reading (privKey : Bytes) : (base58Reading H privKey).length ≤ 34 := by
  rw [base58Reading]
  split_ifs
  · rw [base58Decode]
    split_ifs with hle
    · exact hle
    · exact Nat.zero_le _
  · rw [base58CheckDecode]
    dsimp only
    split_ifs with hfour hsum
    · exact hsum.2
    · exact Nat.zero_le _
    · exact Nat.zero_le _

/-- A string is read as base58, or by its pairs of characters. -/
theorem privKeyData_eq (privKey : Bytes) : privKeyData H privKey =
    if 32 ≤ (base58Reading H privKey).length then base58Reading H privKey
    else hexBytes 34 privKey := by
  have hlength := length_base58Reading H privKey
  have hdata : privKeyData H privKey = if (base58Reading H privKey).length < 32 ∨
      (base58Reading H privKey).length > 32 + 2 then hexBytes 34 privKey
      else base58Reading H privKey := rfl
  rw [hdata]
  by_cases hlow : 32 ≤ (base58Reading H privKey).length
  · rw [if_pos hlow, if_neg (by omega)]
  · rw [if_neg hlow, if_pos (by omega)]

/-- Of 32 bytes that are scanned, and at most two more, the import takes a secret. -/
theorem importable_hexBytes {privKey bytes : Bytes} (h : scans 32 privKey = some bytes) :
    Importable (hexBytes 34 privKey) ↔
      (scanPair (privKey.drop 64) = none ∧ IsSecret (ofBE bytes)) ∨
      ∃ b, scanPair (privKey.drop 64) = some b ∧ bytes.head? = some RAVENCOIN_PRIVKEY ∧
        IsSecret (ofBE bytes.tail * 256 + b.toNat) := by
  obtain ⟨hlen, hread⟩ := hexBytes_of_scans 2 h
  rw [hread, hexBytes_succ]
  cases scanPair (privKey.drop (2 * 32)) with
  | none =>
    rw [Option.elim_none, List.append_nil]
    constructor
    · rintro (⟨-, hverify⟩ | ⟨hlen', -⟩)
      · exact Or.inl ⟨rfl, (seckeyVerify_iff bytes).1 hverify⟩
      · omega
    · rintro (⟨-, hrange⟩ | ⟨b, hb, -⟩)
      · exact Or.inl ⟨hlen, (seckeyVerify_iff bytes).2 hrange⟩
      · cases hb
  | some b =>
    obtain ⟨c, tail, rfl⟩ := List.exists_cons_of_length_pos (l := bytes) (by omega)
    have htail : tail.length = 31 := Nat.succ.inj hlen
    rw [Option.elim_some]
    set more := hexBytes 1 ((privKey.drop (2 * 32)).drop 2) with hmore
    have hlast : more.length ≤ 1 := by
      rw [hmore, hexBytes_succ]
      cases scanPair ((privKey.drop (2 * 32)).drop 2) with
      | none => exact Nat.zero_le _
      | some _ => exact Nat.le_of_eq rfl
    have hlength : (c :: tail ++ b :: more).length = 33 + more.length := by
      rw [List.length_append, hlen, List.length_cons]
      omega
    -- the secret is what follows the version
    have hsecret : ofBE (((c :: tail ++ b :: more).drop 1).take 32) =
        ofBE tail * 256 + b.toNat := by
      rw [← ofBE_concat, List.cons_append, List.drop_one, List.tail_cons, List.take_append, htail,
        List.take_of_length_le (by omega)]
      rfl
    constructor
    · rintro (⟨hshort, -⟩ | ⟨-, hversion, hverify⟩)
      · omega
      · rw [seckeyVerify_iff, hsecret] at hverify
        exact Or.inr ⟨b, rfl, congrArg some hversion, hverify⟩
    · rintro (⟨hb, -⟩ | ⟨b', hb, hversion, hrange⟩)
      · cases hb
      · obtain rfl := Option.some.inj hb
        refine Or.inr ⟨by omega, Option.some.inj hversion, ?_⟩
        rw [seckeyVerify_iff, hsecret]
        exact hrange

theorem take_of_strspn {privKey : Bytes} (h : strspn privKey hexChars = 64) :
    64 ≤ privKey.length ∧ ∀ c ∈ privKey.take 64, c ∈ hexChars := by
  have hprefix := List.takeWhile_prefix (fun c => decide (c ∈ hexChars)) (l := privKey)
  have htake : privKey.takeWhile (fun c => decide (c ∈ hexChars)) = privKey.take 64 := by
    rw [← h]
    exact List.prefix_iff_eq_take.1 hprefix
  refine ⟨h ▸ hprefix.length_le, fun c hc => ?_⟩
  rw [← htake] at hc
  exact of_decide_eq_true (List.mem_takeWhile_imp (p := fun c => decide (c ∈ hexChars)) hc)

/-- 64 hex digits are imported exactly if they are those of a secret. -/
theorem importable_digits {privKey : Bytes} (h : strspn privKey hexChars = 64) :
    Importable (hexBytes 34 privKey) ↔ DigitsAgree privKey := by
  obtain ⟨hlen, hdigits⟩ := take_of_strspn h
  obtain ⟨bytes, hbytes, hnumber⟩ := scans_digits (n := 32) _ hlen hdigits
  obtain ⟨c, d, str, rfl⟩ : ∃ c d str, privKey = c :: d :: str := by
    match privKey, hlen with
    | c :: d :: str, _ => exact ⟨c, d, str, rfl⟩
  -- the first two digits are scanned as the first byte
  obtain ⟨b, hb, hfirst⟩ := scanPair_digits str (hdigits c List.mem_cons_self)
    (hdigits d (List.mem_cons_of_mem _ List.mem_cons_self))
  obtain ⟨tail, htail, hrest⟩ := scans_digits (n := 31) str
    (by rw [List.length_cons, List.length_cons] at hlen; omega)
    fun e he => hdigits e (List.mem_cons_of_mem _ (List.mem_cons_of_mem _ he))
  have hscans : scans 32 (c :: d :: str) = some (b :: tail) := by
    rw [scans, hb, Option.bind_some]
    exact congrArg (Option.map (b :: ·)) htail
  obtain rfl := Option.some.inj (hscans.symm.trans hbytes)
  have hversion : (b :: tail).head? = some RAVENCOIN_PRIVKEY ↔
      hexNumber ((c :: d :: str).take 2) = RAVENCOIN_PRIVKEY.toNat := by
    rw [List.head?_cons, Option.some.injEq, ← UInt8.toNat_inj, hfirst]
    rfl
  have hsecret : ofBE (b :: tail).tail = hexNumber (((c :: d :: str).take 64).drop 2) := hrest
  rw [importable_hexBytes hscans, DigitsAgree, hversion, hsecret, hnumber]
  cases scanPair ((c :: d :: str).drop 64) with
  | none =>
    constructor
    · rintro (⟨-, hrange⟩ | ⟨b, hb, -⟩)
      · exact ⟨fun _ => hrange, nofun⟩
      · cases hb
    · rintro ⟨hrange, -⟩
      exact Or.inl ⟨rfl, hrange rfl⟩
  | some b =>
    constructor
    · rintro (⟨hb, -⟩ | ⟨b', hb, hsecret⟩)
      · cases hb
      · exact ⟨nofun, fun c hc => Option.some.inj (hb.symm.trans hc) ▸ hsecret⟩
    · rintro ⟨-, hsecret⟩
      exact Or.inr ⟨b, rfl, hsecret b rfl⟩

/-- What does not start with 64 hex digits is imported unless its pairs of characters are no
    secret. -/
theorem not_importable_pairs (privKey : Bytes) :
    ¬ Importable (hexBytes 34 privKey) ↔ PairsAgree privKey := by
  cases hscans : scans 32 privKey with
  | none =>
    have hshort := length_hexBytes_of_scans 34 hscans
    refine iff_of_true ?_ ?_
    · rintro (⟨hlen, -⟩ | ⟨hlen, -⟩)
      · omega
      · omega
    · intro bytes hbytes
      rw [hscans] at hbytes
      cases hbytes
  | some bytes =>
    rw [importable_hexBytes hscans, not_or]
    constructor
    · rintro ⟨hnone, hsome⟩ bytes' hbytes
      obtain rfl := Option.some.inj (hscans.symm.trans hbytes)
      exact ⟨fun h hrange => hnone ⟨h, hrange⟩,
        fun b hb hversion hrange => hsome ⟨b, hb, hversion, hrange⟩⟩
    · intro hagree
      obtain ⟨hnone, hsome⟩ := hagree bytes hscans
      exact ⟨fun ⟨h, hrange⟩ => hnone h hrange,
        fun ⟨b, hb, hversion, hrange⟩ => hsome b hb hversion hrange⟩

theorem isMiniKey_decode {privKey : Bytes} (h : isMiniKey privKey = true) :
    ¬ ((base58CheckDecode H 34 privKey).length = 33 ∨
      (base58CheckDecode H 34 privKey).length = 34) := by
  have hlen := length_base58CheckDecode H 34 privKey
  have hmini := (of_decide_eq_true h).1
  omega

theorem setPrivKey_iff (key : SecretKey) {privKey : Bytes} (h : isMiniKey privKey = false) :
    (key.setPrivKey H sha256 privKey).2 = true ↔ Importable (privKeyData H privKey) := by
  rw [SecretKey.setPrivKey, h, if_neg (by decide)]
  dsimp only
  set data := privKeyData H privKey with hdata
  by_cases hwif : (data.length = 32 + 1 ∨ data.length = 32 + 2) ∧ data.getD 0 0 = RAVENCOIN_PRIVKEY
  · rw [if_pos hwif, SecretKey.setSecret_snd]
    constructor
    · exact fun hverify => Or.inr ⟨hwif.1, hwif.2, hverify⟩
    · rintro (⟨hlen, -⟩ | ⟨-, -, hverify⟩)
      · omega
      · exact hverify
  · rw [if_neg hwif]
    by_cases hlen : data.length = 32
    · rw [if_pos hlen, SecretKey.setSecret_snd]
      constructor
      · exact fun hverify => Or.inl ⟨hlen, hverify⟩
      · rintro (⟨-, hverify⟩ | ⟨hlen', hversion, -⟩)
        · exact hverify
        · exact absurd ⟨hlen', hversion⟩ hwif
    · rw [if_neg hlen]
      constructor
      · nofun
      · rintro (⟨hlen', -⟩ | ⟨hlen', hversion, -⟩)
        · exact absurd hlen' hlen
        · exact absurd ⟨hlen', hversion⟩ hwif

/-- Validation and import agree exactly on the strings that `PrivKeyAgrees` describes.  The string
    written for a valid secret gives back the secret, and whether it is compressed. -/
theorem privKey_agrees :
    (∀ (key : SecretKey) (privKey : Bytes),
      ((privKeyIsValid H sha256 privKey = true ↔ (key.setPrivKey H sha256 privKey).2 = true) ↔
        PrivKeyAgrees H sha256 privKey)) ∧
    ∀ (old key : SecretKey) (m : ℕ), key.secret.length = 32 → seckeyVerify key.secret = true →
      old.setPrivKey H sha256 (key.privKey H (key.privKeySize H none + m)) =
        (⟨key.secret, if key.compressed ≠ 0 then 1 else 0⟩, true) := by
  refine ⟨fun key privKey => ?_, fun old key m hlen hvalid =>
    (SecretKey.setPrivKey_privKey sha256 hlen hvalid old m).2⟩
  rw [PrivKeyAgrees]
  by_cases hmini : isMiniKey privKey = true
  · rw [if_pos hmini, SecretKey.setPrivKey, if_pos hmini, privKeyIsValid,
      if_neg (isMiniKey_decode H hmini), if_pos hmini]
    by_cases hsum : (sha256 (privKey ++ [63])).getD 0 0 = 0
    · rw [decide_eq_true hsum, if_pos rfl, SecretKey.setSecret_snd]
      exact ⟨fun h _ => h.1 rfl, fun h => ⟨fun _ => h hsum, fun _ => rfl⟩⟩
    · rw [decide_eq_false hsum, if_neg Bool.false_ne_true]
      exact ⟨fun _ h => absurd h hsum, fun _ => ⟨nofun, nofun⟩⟩
  · rw [if_neg hmini]
    have hmini' := eq_false_of_ne_true hmini
    by_cases hwif : (base58CheckDecode H 34 privKey).length = 33 ∨
        (base58CheckDecode H 34 privKey).length = 34
    · have hdata : privKeyData H privKey = base58CheckDecode H 34 privKey := by
        have hcheck : ¬ ((base58CheckDecode H 34 privKey).length = 0 ∨
            (base58CheckDecode H 34 privKey).length = 28) := by omega
        have hrange : ¬ ((base58CheckDecode H 34 privKey).length < 32 ∨
            (base58CheckDecode H 34 privKey).length > 32 + 2) := by omega
        rw [privKeyData, if_neg hcheck, if_neg hrange]
      rw [if_pos hwif, setPrivKey_iff H sha256 key hmini', privKeyIsValid, if_pos hwif,
        decide_eq_true_iff, hdata, Importable]
      constructor
      · intro h hversion
        rcases h.1 hversion with ⟨hlen, -⟩ | ⟨-, -, hverify⟩
        · omega
        · exact hverify
      · intro h
        refine ⟨fun hversion => Or.inr ⟨hwif, hversion, h hversion⟩, ?_⟩
        rintro (⟨hlen, -⟩ | ⟨-, hversion, -⟩)
        · omega
        · exact hversion
    · rw [if_neg hwif, setPrivKey_iff H sha256 key hmini', privKeyIsValid, if_neg hwif,
        if_neg hmini, decide_eq_true_iff, privKeyData_eq]
      by_cases hspan : strspn privKey hexChars = 64
      · rw [iff_true_left hspan, if_pos hspan, if_pos hspan]
        split_ifs
        · exact Iff.rfl
        · exact importable_digits hspan
      · rw [iff_false_left hspan, if_neg hspan, if_neg hspan]
        split_ifs
        · exact Iff.rfl
        · exact not_importable_pairs privKey

end

/-- 64 zeros are valid but are no secret; 66 digits with the version are a secret but not valid. -/
theorem not_privKey_agrees : ¬ ∃ (H : Hashes) (sha256 : Bytes → Bytes) (key : SecretKey),
    (∀ privKey, privKeyIsValid H sha256 privKey = true →
      (key.setPrivKey H sha256 privKey).2 = true) ∨
    ∀ privKey, (key.setPrivKey H sha256 privKey).2 = true →
      privKeyIsValid H sha256 privKey = true := by
  rintro ⟨H, sha256, key, h | h⟩
  · have hhead : ((List.replicate 32 (0 : UInt8)).flatMap hexPair).head? = some 48 := by rfl
    have hnone : base58Bytes ((List.replicate 32 (0 : UInt8)).flatMap hexPair) = [] :=
      base58Bytes_append [] fun c hc => by
        obtain rfl := Option.some.inj (hhead.symm.trans hc)
        decide
    obtain ⟨hvalid, hset⟩ := setPrivKey_hexString (H := H) sha256
      (List.replicate 32 0) (by decide) (by rw [hnone]; decide) key
    have himport := h _ hvalid
    rw [hset, SecretKey.setSecret_snd] at himport
    exact absurd himport (by decide)
  · set data : Bytes := RAVENCOIN_PRIVKEY :: (List.replicate 31 0 ++ [1]) with hdata
    have htail : (data.flatMap hexPair).drop 1 = 48 :: (data.flatMap hexPair).drop 2 := by rfl
    have hfirst : data.flatMap hexPair = base58String [7] ++ (data.flatMap hexPair).drop 1 := by rfl
    have hone : base58Bytes (data.flatMap hexPair) = [7] := by
      rw [hfirst]
      refine base58Bytes_append [7] fun c hc => ?_
      rw [htail] at hc
      obtain rfl := Option.some.inj hc
      decide
    obtain ⟨hchecked, hread⟩ := privKeyData_eq_hexBytes (H := H) (data.flatMap hexPair)
      (Or.inl (by rw [hone]; decide))
    have hmini : isMiniKey (data.flatMap hexPair) = false := by decide
    have hspan : strspn (data.flatMap hexPair) hexChars = 66 := strspn_flatMap data
    have himport : Importable data := by
      refine Or.inr ⟨by decide, rfl, by decide⟩
    have hvalid := h (data.flatMap hexPair) ((setPrivKey_iff H sha256 key hmini).2 (by
      rw [hread, hexBytes_flatMap (by decide)]
      exact himport))
    rw [privKeyIsValid, if_neg (by omega), hmini, if_neg (by decide), hspan] at hvalid
    exact absurd hvalid (by decide)

end RavenWallet
