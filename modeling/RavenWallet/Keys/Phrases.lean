/-
  Which recovery phrases are accepted (BRBIP39Mnemonic.c).

  The indices of the words, 11 bits each, are the bits of the entropy and of as many
  bits of its hash as complete the last word.

  * `wordNumbers_decoded`, `decoded_wordNumbers`: indices and bytes have the same
    bits, both ways;
  * `encode_decode`, `decode_encode`: both directions of the round trip;
  * `phrase_encoded_iff`: the accepted phrases that are not encodings are the
    encodings with one space behind them.
-/
import RavenWallet.Keys.Mnemonic

namespace RavenWallet

variable {sha256 : Bytes → Bytes} {W : WordList}

/-! ## Bits -/

section
variable {buf data hash : Bytes} {idx : List ℕ} {i k n t : ℕ}

/-- The `n`-th bit of some bytes. -/
def byteBit (bytes : Bytes) (n : ℕ) : Bool := bitAt 8 (bytes.map UInt8.toNat) n

theorem map_toNat_lt (bytes : Bytes) : ∀ d ∈ bytes.map UInt8.toNat, d < 2 ^ 8 := by
  intro d hd
  obtain ⟨b, -, rfl⟩ := List.mem_map.1 hd
  exact b.toNat_lt

theorem byteBit_eq (bytes : Bytes) (n : ℕ) :
    byteBit bytes n = (bytes.getD (n / 8) 0).toNat.testBit (7 - n % 8) := by
  rw [byteBit, bitAt, List.getD_eq_getElem?_getD, List.getElem?_map, List.getD_eq_getElem?_getD]
  cases bytes[n / 8]? <;> rfl

theorem testBit_wordNumber (buf : Bytes) (i : ℕ) (ht : t < 11) :
    (wordNumber buf i).testBit (11 - 1 - t) = byteBit buf (11 * i + t) := by
  have hshift : 32 - (11 + i * 11 % 8) = 8 * (i * 11 / 8 + 4) - 11 * (i + 1) := by omega
  have hwindow : wordNumber buf i = window 8 (buf.map UInt8.toNat) (i * 11 / 8) 4
      (8 * (i * 11 / 8 + 4) - 11 * (i + 1)) 11 := by
    rw [wordNumber, hshift]
    rfl
  rw [hwindow, testBit_regroup (by decide) (map_toNat_lt buf) (by omega) (by rw [Nat.mul_comm]) ht,
    byteBit]

theorem wordNumber_lt (buf : Bytes) (i : ℕ) : wordNumber buf i < BIP39_WORDLIST_COUNT :=
  Nat.mod_lt _ (by decide)

theorem testBit_decodedByte (hidx : ∀ d ∈ idx, d < BIP39_WORDLIST_COUNT) (ht : t < 8) :
    (decodedByte idx i).toNat.testBit (8 - 1 - t) = bitAt 11 idx (8 * i + t) := by
  have hy : (if i * 8 / 11 + 1 < idx.length then idx.getD (i * 8 / 11 + 1) 0 else 0) =
      idx.getD (i * 8 / 11 + 1) 0 := by
    split_ifs with h
    · rfl
    · rw [List.getD_eq_getElem?_getD, List.getElem?_eq_none (Nat.le_of_not_lt h)]
      rfl
  have hpair : idx.getD (i * 8 / 11) 0 * BIP39_WORDLIST_COUNT + idx.getD (i * 8 / 11 + 1) 0 =
      value (2 ^ 11) (slice idx (i * 8 / 11) 2) := by
    have hslice : slice idx (i * 8 / 11) 2 =
        [idx.getD (i * 8 / 11) 0, idx.getD (i * 8 / 11 + 1) 0] := rfl
    rw [hslice, value_cons, value_cons]
    simp [BIP39_WORDLIST_COUNT]
  have hshift : (i * 8 / 11 + 2) * 11 - (i + 1) * 8 = 11 * (i * 8 / 11 + 2) - 8 * (i + 1) := by
    rw [Nat.mul_comm, Nat.mul_comm 8]
  have hwindow : (decodedByte idx i).toNat = window 11 idx (i * 8 / 11) 2
      (11 * (i * 8 / 11 + 2) - 8 * (i + 1)) 8 := by
    have hmask : ∀ m : ℕ, m &&& 0xff = m % 2 ^ 8 := fun m => Nat.and_two_pow_sub_one_eq_mod m 8
    rw [decodedByte, hy, hpair, hshift, hmask, UInt8.toNat_ofNat', Nat.mod_mod]
    rfl
  rw [hwindow, testBit_regroup (by decide) hidx (by omega) (by rw [Nat.mul_comm]) ht]

theorem length_decodedBytes : (decodedBytes idx).length = (idx.length * 11 + 7) / 8 := by
  simp [decodedBytes]

theorem length_wordNumbers : (wordNumbers sha256 data).length = data.length * 3 / 4 := by
  simp [wordNumbers]

/-- The bytes have the bits of the indices. -/
theorem byteBit_decodedBytes (hidx : ∀ d ∈ idx, d < BIP39_WORDLIST_COUNT)
    (hn : n < 8 * (decodedBytes idx).length) : byteBit (decodedBytes idx) n = bitAt 11 idx n := by
  have hk : n / 8 < (idx.length * 11 + 7) / 8 := by
    rw [length_decodedBytes] at hn
    omega
  have hget : (decodedBytes idx).getD (n / 8) 0 = decodedByte idx (n / 8) := by
    rw [decodedBytes, List.getD_eq_getElem?_getD, List.getElem?_map, List.getElem?_range hk]
    rfl
  have hbit := testBit_decodedByte (i := n / 8) hidx (Nat.mod_lt n (by decide))
  rw [Nat.div_add_mod] at hbit
  rw [byteBit_eq, hget, ← hbit]

/-- The indices have the bits of the entropy and its hash. -/
theorem bitAt_wordNumbers (hn : n < 11 * (data.length * 3 / 4)) :
    bitAt 11 (wordNumbers sha256 data) n = byteBit (data ++ sha256 data) n := by
  have hk : n / 11 < data.length * 3 / 4 := by omega
  have hget : (wordNumbers sha256 data).getD (n / 11) 0 =
      wordNumber (data ++ sha256 data) (n / 11) := by
    rw [wordNumbers, List.getD_eq_getElem?_getD, List.getElem?_map, List.getElem?_range hk]
    rfl
  have hbit := testBit_wordNumber (data ++ sha256 data) (n / 11) (Nat.mod_lt n (by decide))
  rw [Nat.div_add_mod] at hbit
  rw [bitAt, hget, hbit]

theorem byteBit_append_left (data hash : Bytes) (hn : n < 8 * data.length) :
    byteBit (data ++ hash) n = byteBit data n := by
  rw [byteBit, List.map_append, bitAt_append_left (by decide) (by rwa [List.length_map]), byteBit]

theorem byteBit_append_right (data hash : Bytes) (n : ℕ) :
    byteBit (data ++ hash) (8 * data.length + n) = byteBit hash n := by
  have h := bitAt_append_right (a := data.map UInt8.toNat) (b := hash.map UInt8.toNat) (n := n)
    (w := 8) (by decide)
  rwa [List.length_map, ← List.map_append] at h

theorem byteBit_take (hk : k ≤ buf.length) (hn : n < 8 * k) :
    byteBit (buf.take k) n = byteBit buf n := by
  have h := byteBit_append_left (buf.take k) (buf.drop k) (n := n)
    (by rwa [List.length_take_of_le hk])
  rwa [List.take_append_drop, eq_comm] at h

/-- Bytes with the same bits are the same. -/
theorem ext_byteBit {bytes bytes' : Bytes} (hlen : bytes.length = bytes'.length)
    (h : ∀ n < 8 * bytes.length, byteBit bytes n = byteBit bytes' n) : bytes = bytes' := by
  refine List.map_injective_iff.2 (fun a b h => UInt8.toNat_inj.1 h)
    (ext_bitAt (w := 8) (by decide) ?_ (map_toNat_lt _) (map_toNat_lt _) fun n hn => h n ?_)
  · rw [List.length_map, List.length_map, hlen]
  · rwa [List.length_map] at hn

/-- Two bytes agree in their high bits if their high parts are the same. -/
theorem shiftRight_eq_iff {a b : ℕ} (ha : a < 256) (hb : b < 256) (hk : k ≤ 8) :
    a >>> (8 - k) = b >>> (8 - k) ↔ ∀ t < k, a.testBit (7 - t) = b.testBit (7 - t) := by
  constructor
  · intro h t ht
    have hbit := congrArg (fun m => m.testBit (k - 1 - t)) h
    have hsum : 8 - k + (k - 1 - t) = 7 - t := by omega
    simpa only [Nat.testBit_shiftRight, hsum] using hbit
  · intro h
    refine Nat.eq_of_testBit_eq fun j => ?_
    rw [Nat.testBit_shiftRight, Nat.testBit_shiftRight]
    by_cases hj : 8 - k + j < 8
    · have hbit := h (7 - (8 - k + j)) (by omega)
      have hsub : 7 - (7 - (8 - k + j)) = 8 - k + j := by omega
      rwa [hsub] at hbit
    · have hpow : 2 ^ 8 ≤ 2 ^ (8 - k + j) := Nat.pow_le_pow_right (by decide) (by omega)
      rw [Nat.testBit_lt_two_pow (ha.trans_le hpow), Nat.testBit_lt_two_pow (hb.trans_le hpow)]

/-- The checksum of `3 * k` words is the first `k` bits of the hash. -/
theorem checksumHolds_iff (hlen : buf.length = 4 * k + 1) (hk : k ≤ 8) :
    checksumHolds (3 * k) buf hash ↔ ∀ t < k, byteBit buf (32 * k + t) = byteBit hash t := by
  have hlast : buf.getLastD 0 = buf.getD (4 * k) 0 := by
    rw [List.getLastD_eq_getLast?, List.getLast?_eq_getElem?, hlen, List.getD_eq_getElem?_getD]
    rfl
  have hhead : hash.headD 0 = hash.getD 0 0 := by
    cases hash <;> rfl
  have hcount : 8 - 3 * k / 3 = 8 - k := by omega
  rw [checksumHolds, hcount, hlast, hhead,
    shiftRight_eq_iff (UInt8.toNat_lt _) (UInt8.toNat_lt _) hk]
  refine forall₂_congr fun t ht => ?_
  have hdiv : (32 * k + t) / 8 = 4 * k := by omega
  have hmod : (32 * k + t) % 8 = t := by omega
  have hdiv' : t / 8 = 0 := by omega
  have hmod' : t % 8 = t := by omega
  rw [byteBit_eq, byteBit_eq, hdiv, hmod, hdiv', hmod']

/-- The indices are those for the bytes that are decoded from them, if the checksum is right. -/
theorem wordNumbers_decoded (hidx : ∀ d ∈ idx, d < BIP39_WORDLIST_COUNT)
    (hlen : idx.length = 3 * k) (hk : 0 < k ∧ k ≤ 8)
    (hsum : checksumHolds (3 * k) (decodedBytes idx)
      (sha256 ((decodedBytes idx).take (4 * k)))) :
    wordNumbers sha256 ((decodedBytes idx).take (4 * k)) = idx := by
  have hbuf : (decodedBytes idx).length = 4 * k + 1 := by
    rw [length_decodedBytes, hlen]
    omega
  have htake : ((decodedBytes idx).take (4 * k)).length = 4 * k :=
    List.length_take_of_le (by omega)
  have hcount : (wordNumbers sha256 ((decodedBytes idx).take (4 * k))).length = 3 * k := by
    rw [length_wordNumbers, htake]
    omega
  refine ext_bitAt (w := 11) (by decide) (hcount.trans hlen.symm) ?_ hidx fun n hn => ?_
  · intro d hd
    obtain ⟨i, -, rfl⟩ := List.mem_map.1 hd
    exact wordNumber_lt _ _
  · rw [hcount] at hn
    rw [bitAt_wordNumbers (by rw [htake]; omega)]
    by_cases hdata : n < 32 * k
    · rw [byteBit_append_left _ _ (by rw [htake]; omega), byteBit_take (by omega) (by omega),
        byteBit_decodedBytes hidx (by omega)]
    · obtain ⟨t, rfl⟩ := Nat.exists_eq_add_of_le (Nat.le_of_not_lt hdata)
      have hbits := byteBit_append_right ((decodedBytes idx).take (4 * k))
        (sha256 ((decodedBytes idx).take (4 * k))) t
      have hstart : 8 * ((decodedBytes idx).take (4 * k)).length = 32 * k := by
        rw [htake]
        omega
      rw [hstart] at hbits
      rw [hbits, ← (checksumHolds_iff hbuf hk.2).1 hsum t (by omega),
        byteBit_decodedBytes hidx (by omega)]

/-- The bytes are those that are decoded from their indices, and the checksum is right. -/
theorem decoded_wordNumbers (sha256 : Bytes → Bytes) (hlen : data.length = 4 * k)
    (hk : 0 < k ∧ k ≤ 8) :
    (decodedBytes (wordNumbers sha256 data)).take (4 * k) = data ∧
      checksumHolds (3 * k) (decodedBytes (wordNumbers sha256 data)) (sha256 data) := by
  have hidx : ∀ d ∈ wordNumbers sha256 data, d < BIP39_WORDLIST_COUNT := by
    intro d hd
    obtain ⟨i, -, rfl⟩ := List.mem_map.1 hd
    exact wordNumber_lt _ _
  have hbuf : (decodedBytes (wordNumbers sha256 data)).length = 4 * k + 1 := by
    rw [length_decodedBytes, length_wordNumbers, hlen]
    omega
  have hbits : ∀ n < 33 * k, byteBit (decodedBytes (wordNumbers sha256 data)) n =
      byteBit (data ++ sha256 data) n := by
    intro n hn
    rw [byteBit_decodedBytes hidx (by omega), bitAt_wordNumbers (by omega)]
  have htake : ((decodedBytes (wordNumbers sha256 data)).take (4 * k)).length = 4 * k :=
    List.length_take_of_le (by omega)
  constructor
  · refine ext_byteBit (htake.trans hlen.symm) fun n hn => ?_
    rw [htake] at hn
    rw [byteBit_take (by omega) (by omega), hbits n (by omega), byteBit_append_left _ _ (by omega)]
  · refine (checksumHolds_iff hbuf hk.2).2 fun t ht => ?_
    have hstart : 32 * k = 8 * data.length := by omega
    rw [hbits _ (by omega), hstart, byteBit_append_right]

end

/-! ## Round trips -/

section
variable {p data : Bytes}

/-- Entropy that has a phrase of at most 24 words. -/
def IsEntropy (data : Bytes) : Prop := ∃ k, data.length = 4 * k ∧ 0 < k ∧ k ≤ 8

theorem bip39Encode_eq (h : IsEntropy data) :
    bip39Encode sha256 W data = W.phraseOf (wordNumbers sha256 data) := by
  obtain ⟨k, hlen, -⟩ := h
  rw [bip39Encode, if_neg (by omega)]

/-- An accepted phrase is the encoding of what it decodes to, with perhaps a space behind it. -/
theorem encode_decode (h : phraseIsValid sha256 W p = true) : IsEntropy (bip39Decode sha256 W p) ∧
    ∃ rest, (rest = none ∨ rest = some []) ∧
      p = bip39Encode sha256 W (bip39Decode sha256 W p) ++ trail rest := by
  have hpos := of_decide_eq_true h
  cases hread : readWords W 24 (some p) with
  | mk idx rest =>
    simp only [bip39Decode, hread] at hpos ⊢
    split_ifs at hpos ⊢ with hok
    · obtain ⟨hmod, hend, hsum⟩ := hok
      obtain ⟨hle, hidx, hcase⟩ := readWords_some hread hend
      obtain ⟨k, hk⟩ : ∃ k, idx.length = 3 * k := ⟨idx.length / 3, by omega⟩
      have hcut : idx.length * 4 / 3 = 4 * k := by omega
      rw [hcut] at hpos hsum ⊢
      rw [hk] at hsum
      have hk8 : 0 < k ∧ k ≤ 8 := by
        refine ⟨Nat.pos_of_ne_zero ?_, by omega⟩
        rintro rfl
        rw [Nat.mul_zero, List.take_zero] at hpos
        exact absurd hpos (by decide)
      have hlen : ((decodedBytes idx).take (4 * k)).length = 4 * k := by
        refine List.length_take_of_le ?_
        rw [length_decodedBytes]
        omega
      have hentropy : IsEntropy ((decodedBytes idx).take (4 * k)) := ⟨k, hlen, hk8⟩
      refine ⟨hentropy, rest, hend, ?_⟩
      rw [bip39Encode_eq hentropy, wordNumbers_decoded hidx hk hk8 hsum]
      rcases hcase with ⟨rfl, -⟩ | ⟨-, hp⟩
      · rw [List.length_nil] at hk
        omega
      · exact hp
    · exact absurd hpos (by decide)

/-- A phrase decodes to what it is the encoding of, whether a space is behind it or not. -/
theorem decode_encode (h : IsEntropy data) {rest : Option Bytes}
    (hend : rest = none ∨ rest = some []) :
    bip39Decode sha256 W (bip39Encode sha256 W data ++ trail rest) = data := by
  obtain ⟨k, hlen, hk⟩ := h
  have hcount : (wordNumbers sha256 data).length = 3 * k := by
    rw [length_wordNumbers]
    omega
  have hidx : ∀ i ∈ wordNumbers sha256 data, i < BIP39_WORDLIST_COUNT := by
    intro i hi
    obtain ⟨j, -, rfl⟩ := List.mem_map.1 hi
    exact wordNumber_lt _ _
  have hne : wordNumbers sha256 data ≠ [] := by
    intro hnil
    rw [hnil, List.length_nil] at hcount
    omega
  obtain ⟨hdata, hsum⟩ := decoded_wordNumbers sha256 hlen hk
  have hcut : 3 * k * 4 / 3 = 4 * k := by omega
  rw [bip39Encode_eq ⟨k, hlen, hk⟩, bip39Decode,
    readWords_phraseOf hidx hne (by omega) hend]
  dsimp only
  rw [hcount, hcut, hdata, if_pos ⟨by omega, hend, hsum⟩]

/-- An accepted phrase is the encoding of what it decodes to. -/
def PhraseEncoded (sha256 : Bytes → Bytes) (W : WordList) (p : Bytes) : Prop :=
  phraseIsValid sha256 W p = true → p = bip39Encode sha256 W (bip39Decode sha256 W p)

/-- The encoding of some entropy, and one space. -/
def PhraseSpaced (sha256 : Bytes → Bytes) (W : WordList) (p : Bytes) : Prop :=
  ∃ data, IsEntropy data ∧ p = bip39Encode sha256 W data ++ [32]

/-- The accepted phrases that are not encodings are the encodings with one space behind them;
    without these, accepted phrases for one entropy are the same and derive the same seed. -/
theorem phrase_encoded_iff (sha256 : Bytes → Bytes) (W : WordList) :
    (∀ p, PhraseEncoded sha256 W p ↔ ¬ PhraseSpaced sha256 W p) ∧
      ∀ p ∈ {p | phraseIsValid sha256 W p = true ∧ ¬ PhraseSpaced sha256 W p},
      ∀ q ∈ {p | phraseIsValid sha256 W p = true ∧ ¬ PhraseSpaced sha256 W p},
        bip39Decode sha256 W p = bip39Decode sha256 W q → p = q ∧
          ∀ pbkdf2 passphrase, deriveKey pbkdf2 p passphrase = deriveKey pbkdf2 q passphrase := by
  have hiff : ∀ p, PhraseEncoded sha256 W p ↔ ¬ PhraseSpaced sha256 W p := by
    intro p
    constructor
    · rintro hp ⟨data, hdata, rfl⟩
      have hdecode : bip39Decode sha256 W (bip39Encode sha256 W data ++ [32]) = data :=
        decode_encode hdata (Or.inr rfl)
      have hvalid : phraseIsValid sha256 W (bip39Encode sha256 W data ++ [32]) = true := by
        obtain ⟨k, hlen, hk, -⟩ := hdata
        rw [phraseIsValid, hdecode, decide_eq_true_eq]
        omega
      have hlength := congrArg List.length (hp hvalid)
      rw [hdecode, List.length_append, List.length_singleton] at hlength
      omega
    · intro hspaced hvalid
      obtain ⟨hentropy, rest, rfl | rfl, hp⟩ := encode_decode hvalid
      · rw [trail, if_pos rfl, List.append_nil] at hp
        exact hp
      · exact absurd ⟨_, hentropy, hp⟩ hspaced
  refine ⟨hiff, ?_⟩
  rintro p ⟨hp, hp'⟩ q ⟨hq, hq'⟩ h
  have heq : p = q :=
    ((hiff p).2 hp' hp).trans ((congrArg _ h).trans ((hiff q).2 hq' hq).symm)
  exact ⟨heq, fun _ _ => by rw [heq]⟩

/-- The entropy whose bits are those of `3 * k` indices, less the checksum. -/
structure Carries (idx : List ℕ) (k : ℕ) (entropy : Bytes) : Prop where
  count : idx.length = 3 * k
  length : entropy.length = 4 * k
  bits : ∀ n < 32 * k, byteBit entropy n = bitAt 11 idx n

/-- The indices carry the bytes that are decoded from them, and no others. -/
theorem carries_iff {idx : List ℕ} {k : ℕ} {entropy : Bytes}
    (hidx : ∀ i ∈ idx, i < BIP39_WORDLIST_COUNT) (hlen : idx.length = 3 * k) :
    Carries idx k entropy ↔ entropy = (decodedBytes idx).take (4 * k) := by
  have hle : 4 * k ≤ (decodedBytes idx).length := by
    rw [length_decodedBytes, hlen]
    omega
  have htake : ((decodedBytes idx).take (4 * k)).length = 4 * k := List.length_take_of_le hle
  have hbits : ∀ n < 32 * k, byteBit ((decodedBytes idx).take (4 * k)) n = bitAt 11 idx n := by
    intro n hn
    rw [byteBit_take hle (by omega), byteBit_decodedBytes hidx (by omega)]
  constructor
  · intro h
    refine ext_byteBit (h.length.trans htake.symm) fun n hn => ?_
    rw [h.length] at hn
    exact (h.bits n (by omega)).trans (hbits n (by omega)).symm
  · rintro rfl
    exact ⟨hlen, htake, hbits⟩

/-- Entropy is decoded from its phrase; a phrase whose checksum is not that of its entropy
    decodes to nothing. -/
theorem bip39_roundTrip (sha256 : Bytes → Bytes) (W : WordList) :
    (∀ data, IsEntropy data → bip39Decode sha256 W (bip39Encode sha256 W data) = data) ∧
    ∀ k idx, 0 < k → k ≤ 8 → idx.length = 3 * k → (∀ i ∈ idx, i < BIP39_WORDLIST_COUNT) →
      (∃ entropy, Carries idx k entropy) ∧ ∀ entropy, Carries idx k entropy →
        (∃ t < k, bitAt 11 idx (32 * k + t) ≠ byteBit (sha256 entropy) t) →
          ∀ rest, rest = none ∨ rest = some [] →
            bip39Decode sha256 W (W.phraseOf idx ++ trail rest) = [] := by
  constructor
  · intro data hdata
    have h : bip39Decode sha256 W (bip39Encode sha256 W data ++ trail none) = data :=
      decode_encode hdata (Or.inl rfl)
    rwa [trail, if_pos rfl, List.append_nil] at h
  · intro k idx hk hk8 hlen hidx
    refine ⟨⟨_, (carries_iff hidx hlen).2 rfl⟩, ?_⟩
    rintro entropy hentropy ⟨t, ht, hne⟩ rest hrest
    obtain rfl := (carries_iff hidx hlen).1 hentropy
    have hnil : idx ≠ [] := by
      rintro rfl
      rw [List.length_nil] at hlen
      omega
    have hbuf : (decodedBytes idx).length = 4 * k + 1 := by
      rw [length_decodedBytes, hlen]
      omega
    have hcut : 3 * k * 4 / 3 = 4 * k := by omega
    have hsum : ¬ checksumHolds (3 * k) (decodedBytes idx)
        (sha256 ((decodedBytes idx).take (4 * k))) := by
      intro hsum
      have hbit := (checksumHolds_iff hbuf hk8).1 hsum t ht
      rw [byteBit_decodedBytes hidx (by omega)] at hbit
      exact hne hbit
    rw [bip39Decode, readWords_phraseOf hidx hnil (by omega) hrest]
    dsimp only
    rw [hlen, hcut, if_neg fun h => hsum h.2.2]

/-- A word list: two characters that count to 2048. -/
def sampleWords : WordList where
  words := (List.range 2048).map fun i => [UInt8.ofNat (64 + i / 64), UInt8.ofNat (64 + i % 64)]
  count := by simp [BIP39_WORDLIST_COUNT]
  nodup := by
    refine (List.nodup_map_iff_inj_on List.nodup_range).2 fun i hi j hj h => ?_
    rw [List.mem_range] at hi hj
    simp only [List.cons.injEq, and_true] at h
    have hhigh := congrArg UInt8.toNat h.1
    have hlow := congrArg UInt8.toNat h.2
    rw [UInt8.toNat_ofNat', UInt8.toNat_ofNat'] at hhigh hlow
    omega
  ne_nil := by simp
  spaceFree := by
    intro w hw h
    obtain ⟨i, hi, rfl⟩ := List.mem_map.1 hw
    rw [List.mem_range] at hi
    simp only [List.mem_cons, List.not_mem_nil, or_false] at h
    rcases h with h | h
    all_goals
      have hnat := congrArg UInt8.toNat h
      rw [UInt8.toNat_ofNat'] at hnat
      have h32 : (32 : UInt8).toNat = 32 := rfl
      omega

theorem bip39_roundTrip_sample :
    bip39Decode (fun _ => []) sampleWords
      (bip39Encode (fun _ => []) sampleWords [1, 2, 3, 4]) = [1, 2, 3, 4] ∧
    bip39Decode (fun _ => []) sampleWords (sampleWords.phraseOf [0, 0, 1]) = [] := by
  obtain ⟨hdecode, hreject⟩ := bip39_roundTrip (fun _ => []) sampleWords
  refine ⟨hdecode _ ⟨1, rfl, by decide, by decide⟩, ?_⟩
  obtain ⟨⟨entropy, hentropy⟩, hnothing⟩ :=
    hreject 1 [0, 0, 1] (by decide) (by decide) rfl (by decide)
  have h := hnothing entropy hentropy ⟨0, by decide, by decide⟩ none (Or.inl rfl)
  rwa [trail, if_pos rfl, List.append_nil] at h

/-- A phrase of three words and a space is accepted, whatever the hash function is. -/
theorem not_phrase_encoded : ¬ ∃ sha256 : Bytes → Bytes, ∀ (W : WordList) (p : Bytes),
    PhraseEncoded sha256 W p := by
  rintro ⟨sha256, h⟩
  have hspaced : PhraseSpaced sha256 sampleWords
      (bip39Encode sha256 sampleWords [1, 2, 3, 4] ++ [32]) :=
    ⟨[1, 2, 3, 4], ⟨1, rfl, by decide, by decide⟩, rfl⟩
  exact ((phrase_encoded_iff sha256 sampleWords).1 _).1 (h _ _) hspaced

end

end RavenWallet
