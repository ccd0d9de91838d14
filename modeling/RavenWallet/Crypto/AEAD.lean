/-
  The authenticated encryption with ChaCha20 and Poly1305 (BRCrypto.c).

  `out` is the output buffer, none if it is `NULL`; a copy outside of a buffer and a lost
  carry are `none`.

  * `aeadMac_eq`: the tag is that of Poly1305 for the associated data and the ciphertext,
    each padded to whole blocks, and their lengths;
  * `differs_eq_zero`: the one comparison tells any two tags apart;
  * `aead_round_trip`: what is encrypted is decrypted, and nothing else.
-/
import Mathlib.Data.LawfulXor.Basic
import RavenWallet.Crypto.Poly1305

namespace RavenWallet

/-! ## The code -/

/-- The data is absorbed in its whole blocks and, if there is a rest, in the block `pad`. -/
def aeadAbsorb (h : Limbs5) (macKey data : Bytes) : Option Limbs5 := do
  let whole := data.length / 16 * 16
  let h ← poly1305Compress h macKey (data.take whole) false
  let pad ← poke (List.replicate 16 0) 0 (data.drop whole)
  if data.length % 16 ≠ 0 then poly1305Compress h macKey pad false else some h

/-- The words of the tag for the associated data and the ciphertext. -/
def aeadMac (macKey ad ciphertext : Bytes) : Option Limbs5 := do
  let h ← aeadAbsorb ⟨0, 0, 0, 0, 0⟩ macKey ad
  let h ← aeadAbsorb h macKey ciphertext
  poly1305Compress h macKey (toLE 8 ad.length ++ toLE 8 ciphertext.length) true

/-- `Chacha20Poly1305AEADEncrypt`: what it returns, and the output buffer. -/
def Chacha20Poly1305AEADEncrypt (out : Option Bytes) (key32 nonce12 data ad : Bytes) :
    Option (ℕ × Option Bytes) :=
  match out with
  | none => some (data.length + 16, none)
  | some out =>
    if out.length < data.length + 16 ∨ data.length / 64 ≥ UINT32_MAX.toNat then some (0, some out)
    else do
      let macKey := aeadMacKey key32 nonce12
      let out ← poke out 0 (aeadCiphertext key32 nonce12 data)
      let ciphertext ← peek out 0 data.length
      let h ← aeadMac macKey ad ciphertext
      let out ← poke out data.length h.mac
      some (data.length + 16, some out)

/-- `(mac[0] ^ h[0]) | (mac[1] ^ h[1]) | (mac[2] ^ h[2]) | (mac[3] ^ h[3]) != 0`, where only the
    last word is compared with 0. -/
def differs (mac : Bytes) (h : Limbs5) : ℕ :=
  (polyWord mac 0 ^^^ h.l0) ||| (polyWord mac 1 ^^^ h.l1) ||| (polyWord mac 2 ^^^ h.l2) |||
    if polyWord mac 3 ^^^ h.l3 ≠ 0 then 1 else 0

/-- `Chacha20Poly1305AEADDecrypt`: what it returns, and the output buffer. -/
def Chacha20Poly1305AEADDecrypt (out : Option Bytes) (key32 nonce12 data ad : Bytes) :
    Option (ℕ × Option Bytes) :=
  match out with
  | none => some (if data.length < 16 then 0 else data.length - 16, none)
  | some out =>
    if data.length < 16 ∨ (data.length - 16) / 64 ≥ UINT32_MAX.toNat ∨
        out.length + 16 < data.length then some (0, some out)
    else do
      let outLen := data.length - 16
      let macKey := aeadMacKey key32 nonce12
      let h ← aeadMac macKey ad (data.take outLen)
      let mac ← peek data outLen 16
      let outLen := if differs mac h ≠ 0 then 0 else outLen
      let out ← poke out 0 (chacha20 key32 (nonce12.drop 4) (data.take outLen)
        (aeadCounter nonce12 + 1))
      some (outLen, some out)

/-! ## The tag -/

/-- `data` with zeros up to whole blocks. -/
def pad16 (data : Bytes) : Bytes := data ++ List.replicate ((16 - data.length % 16) % 16) 0

theorem length_pad16 (data : Bytes) : 16 ∣ (pad16 data).length := by
  rw [pad16, List.length_append, List.length_replicate]
  omega

section
variable {macKey : Bytes}

/-- The padded data is absorbed. -/
theorem aeadAbsorb_eq (hkey : macKey.length = 32) (h : Limbs5) (data : Bytes) :
    aeadAbsorb h macKey data =
      (piecesOf 16 (pad16 data)).foldlM (clampedKey macKey).absorb h := by
  set whole := data.length / 16 * 16 with hwhole
  have hle : whole ≤ data.length := Nat.div_mul_le_self _ _
  have htake : (data.take whole).length = whole := List.length_take_of_le hle
  have hdvd : 16 ∣ (data.take whole).length := by omega
  have hrest : (data.drop whole).length = data.length % 16 := by
    rw [List.length_drop]
    omega
  have hpoke : poke (List.replicate 16 0) 0 (data.drop whole) =
      some (data.drop whole ++ List.replicate (16 - data.length % 16) 0) := by
    rw [poke, List.length_replicate, if_pos (by omega), List.take_zero, List.nil_append,
      Nat.zero_add, List.drop_replicate, hrest]
  rw [aeadAbsorb, ← hwhole, poly1305Compress_eq hkey, hpoke]
  simp only [Bool.false_eq_true, if_false, Option.bind_eq_bind, Option.bind_fun_some,
    Option.bind_some]
  by_cases hrem : data.length % 16 = 0
  · have hpad : pad16 data = data.take whole := by
      have hnil : data.drop whole = [] := List.eq_nil_of_length_eq_zero (by omega)
      rw [pad16, hrem, Nat.sub_zero, Nat.mod_self, List.replicate_zero, List.append_nil]
      conv_lhs => rw [← List.take_append_drop whole data, hnil, List.append_nil]
    simp only [hrem, ne_eq, not_true_eq_false, if_false, Option.bind_fun_some, hpad]
  · have hpad : pad16 data = data.take whole ++
        (data.drop whole ++ List.replicate (16 - data.length % 16) 0) := by
      rw [pad16, Nat.mod_eq_of_lt (a := 16 - data.length % 16) (by omega), ← List.append_assoc,
        List.take_append_drop]
    rw [hpad, piecesOf_append (by decide) hdvd, List.foldlM_append]
    refine congrArg _ (funext fun h' => ?_)
    rw [if_pos hrem, poly1305Compress_eq hkey]
    simp only [Bool.false_eq_true, if_false, Option.bind_fun_some]

/-- The tag is that of Poly1305. -/
theorem aeadMac_eq (hkey : macKey.length = 32) (ad ciphertext : Bytes) :
    (aeadMac macKey ad ciphertext).map Limbs5.mac =
      Poly1305 macKey (pad16 ad ++ (pad16 ciphertext ++
        (toLE 8 ad.length ++ toLE 8 ciphertext.length))) := by
  rw [aeadMac, Poly1305, poly1305Compress_eq hkey, piecesOf_append (by decide) (length_pad16 _),
    piecesOf_append (by decide) (length_pad16 _)]
  simp only [List.foldlM_append, aeadAbsorb_eq hkey, poly1305Compress_eq hkey,
    Option.bind_eq_bind, Option.bind_assoc]

/-- There is always a tag. -/
theorem aeadMac_some (hkey : macKey.length = 32) (ad ciphertext : Bytes) :
    ∃ h, aeadMac macKey ad ciphertext = some h := by
  have hmac := aeadMac_eq hkey ad ciphertext
  rw [poly1305_eq hkey] at hmac
  obtain ⟨h, hh, -⟩ := Option.map_eq_some_iff.1 hmac
  exact ⟨h, hh⟩

end

/-! ## The comparison -/

/-- The words of a tag. -/
structure Limbs5.Words (h : Limbs5) : Prop where
  l0_lt : h.l0 < 2 ^ 32
  l1_lt : h.l1 < 2 ^ 32
  l2_lt : h.l2 < 2 ^ 32
  l3_lt : h.l3 < 2 ^ 32

theorem finish_words {h h' : Limbs5} {key32 : Bytes} (hfinish : h.finish key32 = some h') :
    h'.Words := by
  rw [Limbs5.finish] at hfinish
  obtain ⟨a, -, hfinish⟩ := Option.bind_eq_some_iff.1 hfinish
  obtain ⟨t, -, hfinish⟩ := Option.bind_eq_some_iff.1 hfinish
  rw [Limbs5.addPad] at hfinish
  obtain ⟨d0, -, hfinish⟩ := Option.bind_eq_some_iff.1 hfinish
  obtain ⟨d1, -, hfinish⟩ := Option.bind_eq_some_iff.1 hfinish
  obtain ⟨d2, -, hfinish⟩ := Option.bind_eq_some_iff.1 hfinish
  obtain ⟨d3, -, hfinish⟩ := Option.bind_eq_some_iff.1 hfinish
  obtain rfl := Option.some.inj hfinish
  refine ⟨?_, ?_, ?_, ?_⟩ <;> exact Nat.mod_lt _ (by norm_num)

theorem aeadMac_words {macKey ad ciphertext : Bytes} {h : Limbs5}
    (hmac : aeadMac macKey ad ciphertext = some h) : h.Words := by
  rw [aeadMac] at hmac
  obtain ⟨a, -, hmac⟩ := Option.bind_eq_some_iff.1 hmac
  obtain ⟨c, -, hmac⟩ := Option.bind_eq_some_iff.1 hmac
  rw [poly1305Compress] at hmac
  obtain ⟨h', -, hmac⟩ := Option.bind_eq_some_iff.1 hmac
  rw [if_pos rfl] at hmac
  exact finish_words hmac

theorem length_mac (h : Limbs5) : h.mac.length = 16 := by
  simp [Limbs5.mac]

/-- The comparison is of all bytes, although only the last word is compared with 0. -/
theorem differs_eq_zero {mac : Bytes} {h : Limbs5} (hlength : mac.length = 16) (hh : h.Words) :
    differs mac h = 0 ↔ mac = h.mac := by
  obtain ⟨b0, b1, b2, b3⟩ := hh
  have w0 := polyWord_lt mac 0
  have w1 := polyWord_lt mac 1
  have w2 := polyWord_lt mac 2
  have w3 := polyWord_lt mac 3
  set n := h.l0 + 2 ^ 32 * h.l1 + 2 ^ 64 * h.l2 + 2 ^ 96 * h.l3 with hn
  have hmac : h.mac = toLE 16 n := toLE_words (by omega) (by omega) (by omega) (by omega)
  have hbytes : mac = h.mac ↔ ofLE mac = n := by
    rw [hmac]
    constructor
    · intro heq
      rw [heq, ofLE_toLE (by omega)]
    · intro heq
      rw [← heq, ← hlength, toLE_ofLE]
  rw [hbytes, ofLE_words hlength, differs, Nat.or_eq_zero_iff, Nat.or_eq_zero_iff,
    Nat.or_eq_zero_iff, xor_eq_zero_iff, xor_eq_zero_iff, xor_eq_zero_iff]
  have hlast : (if polyWord mac 3 ^^^ h.l3 ≠ 0 then 1 else 0) = 0 ↔ polyWord mac 3 = h.l3 := by
    split_ifs with hne
    · exact iff_of_false (by decide) fun heq => hne (xor_eq_zero_iff.2 heq)
    · exact iff_of_true rfl (xor_eq_zero_iff.1 (not_not.1 hne))
  rw [hlast]
  omega

/-! ## Encryption and decryption -/

section
variable {key32 nonce12 : Bytes}

theorem length_chacha20 (key32 iv8 data : Bytes) (counter : UInt64) :
    (chacha20 key32 iv8 data counter).length = data.length := List.length_mapIdx

/-- The key stream is taken away by adding it again. -/
theorem chacha20_chacha20 (key32 iv8 data : Bytes) (counter : UInt64) :
    chacha20 key32 iv8 (chacha20 key32 iv8 data counter) counter = data := by
  refine List.ext_getElem? fun i => ?_
  rw [chacha20, chacha20, List.getElem?_mapIdx, List.getElem?_mapIdx, Option.map_map]
  cases data[i]? with
  | none => rfl
  | some b =>
    rw [Option.map_some, Function.comp_apply, UInt8.xor_assoc, UInt8.xor_self, UInt8.xor_zero]

theorem length_aeadMacKey (key32 nonce12 : Bytes) : (aeadMacKey key32 nonce12).length = 32 := by
  rw [aeadMacKey, length_chacha20, List.length_replicate]

/-- The tag that an encryption computes for its ciphertext. -/
def aeadTag (key32 nonce12 ad ciphertext : Bytes) : Option Bytes :=
  (aeadMac (aeadMacKey key32 nonce12) ad ciphertext).map Limbs5.mac

theorem aeadTag_some (key32 nonce12 ad ciphertext : Bytes) : ∃ h,
    aeadMac (aeadMacKey key32 nonce12) ad ciphertext = some h ∧ h.Words ∧
      aeadTag key32 nonce12 ad ciphertext = some h.mac := by
  obtain ⟨h, hh⟩ := aeadMac_some (length_aeadMacKey key32 nonce12) ad ciphertext
  exact ⟨h, hh, aeadMac_words hh, by rw [aeadTag, hh, Option.map_some]⟩

/-- An encryption writes the ciphertext and the tag. -/
theorem encrypt_eq {data ad out tag : Bytes} (hdata : data.length < 64 * (2 ^ 32 - 1))
    (hout : data.length + 16 ≤ out.length)
    (htag : aeadTag key32 nonce12 ad (aeadCiphertext key32 nonce12 data) = some tag) :
    Chacha20Poly1305AEADEncrypt (some out) key32 nonce12 data ad =
      some (data.length + 16, some (aeadCiphertext key32 nonce12 data ++ tag ++
        out.drop (data.length + 16))) := by
  have hmax : UINT32_MAX.toNat = 2 ^ 32 - 1 := rfl
  set c := aeadCiphertext key32 nonce12 data with hc
  have hlength : c.length = data.length := length_chacha20 _ _ _ _
  obtain ⟨h, hh, hmac⟩ := Option.map_eq_some_iff.1 htag
  have hpoke : poke out 0 c = some (c ++ out.drop data.length) := by
    rw [poke, if_pos (by omega), List.take_zero, List.nil_append, Nat.zero_add, hlength]
  have hpeek : peek (c ++ out.drop data.length) 0 data.length = some c :=
    peek_parts (a := []) rfl rfl hlength
  have hsplit : out.drop data.length =
      (out.drop data.length).take 16 ++ out.drop (data.length + 16) := by
    rw [← List.drop_drop, List.take_append_drop]
  have hlast : poke (c ++ out.drop data.length) data.length h.mac =
      some (c ++ (h.mac ++ out.drop (data.length + 16))) := by
    refine poke_parts (b := (out.drop data.length).take 16) ?_ hlength ?_
    · rw [← hsplit]
    · rw [List.length_take_of_le (by rw [List.length_drop]; omega), length_mac]
  unfold Chacha20Poly1305AEADEncrypt
  dsimp only
  simp only [Option.bind_eq_bind]
  rw [if_neg (by omega), ← hc, hpoke, Option.bind_some, hpeek, Option.bind_some, hh,
    Option.bind_some, hlast, Option.bind_some, hmac, List.append_assoc]

/-- A decryption that gets to the comparison. -/
theorem decrypt_eq {data ad out : Bytes} {h : Limbs5} (hdata : 16 ≤ data.length)
    (hmax : (data.length - 16) / 64 < 2 ^ 32 - 1) (hout : data.length ≤ out.length + 16)
    (hmac : aeadMac (aeadMacKey key32 nonce12) ad (data.take (data.length - 16)) = some h) :
    Chacha20Poly1305AEADDecrypt (some out) key32 nonce12 data ad =
      if data.drop (data.length - 16) = h.mac then
        some (data.length - 16, some (aeadCiphertext key32 nonce12
          (data.take (data.length - 16)) ++ out.drop (data.length - 16)))
      else some (0, some out) := by
  have hbound : UINT32_MAX.toNat = 2 ^ 32 - 1 := rfl
  have hrest : (data.drop (data.length - 16)).length = 16 := by rw [List.length_drop]; omega
  have hpeek : peek data (data.length - 16) 16 = some (data.drop (data.length - 16)) := by
    rw [peek, if_pos (by omega), List.take_of_length_le hrest.le]
  have hiff := differs_eq_zero hrest (aeadMac_words hmac)
  unfold Chacha20Poly1305AEADDecrypt
  dsimp only
  simp only [Option.bind_eq_bind]
  rw [if_neg (by omega), hmac, Option.bind_some, hpeek, Option.bind_some]
  by_cases hsame : data.drop (data.length - 16) = h.mac
  · have htake : (data.take (data.length - 16)).length = data.length - 16 :=
      List.length_take_of_le (by omega)
    rw [if_neg (not_not.2 (hiff.2 hsame)), if_pos hsame, poke, length_chacha20, htake,
      if_pos (by omega), Option.bind_some, List.take_zero, List.nil_append, Nat.zero_add]
    rfl
  · rw [if_pos (fun hzero => hsame (hiff.1 hzero)), if_neg hsame, List.take_zero]
    rfl

/-- What is encrypted is decrypted; what does not end with its tag is rejected, and leaves the
    output buffer as it is. -/
theorem aead_round_trip (key32 nonce12 ad : Bytes) :
    (∀ data out out' : Bytes, data.length < 64 * (2 ^ 32 - 1) → data.length + 16 ≤ out.length →
      data.length ≤ out'.length → ∃ tag,
        aeadTag key32 nonce12 ad (aeadCiphertext key32 nonce12 data) = some tag ∧
        Chacha20Poly1305AEADEncrypt (some out) key32 nonce12 data ad =
          some (data.length + 16, some (aeadCiphertext key32 nonce12 data ++ tag ++
            out.drop (data.length + 16))) ∧
        Chacha20Poly1305AEADDecrypt (some out') key32 nonce12
          (aeadCiphertext key32 nonce12 data ++ tag) ad =
            some (data.length, some (data ++ out'.drop data.length))) ∧
    ∀ data out : Bytes, 16 ≤ data.length → ∃ tag,
      aeadTag key32 nonce12 ad (data.take (data.length - 16)) = some tag ∧
        (data.drop (data.length - 16) ≠ tag →
          Chacha20Poly1305AEADDecrypt (some out) key32 nonce12 data ad = some (0, some out)) := by
  constructor
  · intro data out out' hdata hout hout'
    obtain ⟨h, hmac, -, htag⟩ :=
      aeadTag_some key32 nonce12 ad (aeadCiphertext key32 nonce12 data)
    have hlength : (aeadCiphertext key32 nonce12 data).length = data.length :=
      length_chacha20 _ _ _ _
    have hsealed : (aeadCiphertext key32 nonce12 data ++ h.mac).length = data.length + 16 := by
      rw [List.length_append, hlength, length_mac]
    refine ⟨h.mac, htag, encrypt_eq hdata hout htag, ?_⟩
    rw [decrypt_eq (h := h) (by omega) (by omega) (by omega), hsealed, Nat.add_sub_cancel,
      List.drop_left' hlength, if_pos rfl, List.take_left' hlength]
    · rw [aeadCiphertext, aeadCiphertext, chacha20_chacha20]
    · rwa [hsealed, Nat.add_sub_cancel, List.take_left' hlength]
  · intro data out hdata
    obtain ⟨h, hmac, -, htag⟩ := aeadTag_some key32 nonce12 ad (data.take (data.length - 16))
    refine ⟨h.mac, htag, fun hne => ?_⟩
    by_cases hmax : (data.length - 16) / 64 < 2 ^ 32 - 1 ∧ data.length ≤ out.length + 16
    · rw [decrypt_eq hdata hmax.1 hmax.2 hmac, if_neg hne]
    · have hbound : UINT32_MAX.toNat = 2 ^ 32 - 1 := rfl
      unfold Chacha20Poly1305AEADDecrypt
      dsimp only
      rw [if_pos (by omega)]

end

/-- A message of three bytes is decrypted again; of two tags for the same ciphertext, one at least
    is rejected. -/
theorem aead_round_trip_three : (∃ tag,
    Chacha20Poly1305AEADDecrypt (some (List.replicate 5 7)) keyForum (List.replicate 12 1)
      (aeadCiphertext keyForum (List.replicate 12 1) [1, 2, 3] ++ tag) [4] =
        some (3, some [1, 2, 3, 7, 7])) ∧
    (Chacha20Poly1305AEADDecrypt (some (List.replicate 5 7)) keyForum (List.replicate 12 1)
        (List.replicate 3 0 ++ List.replicate 16 0) [4] = some (0, some (List.replicate 5 7)) ∨
      Chacha20Poly1305AEADDecrypt (some (List.replicate 5 7)) keyForum (List.replicate 12 1)
        (List.replicate 3 0 ++ List.replicate 16 1) [4] = some (0, some (List.replicate 5 7))) := by
  obtain ⟨hround, hreject⟩ := aead_round_trip keyForum (List.replicate 12 1) [4]
  constructor
  · obtain ⟨tag, -, -, hdecrypt⟩ := hround [1, 2, 3] (List.replicate 19 0) (List.replicate 5 7)
      (by decide) (by decide) (by decide)
    exact ⟨tag, hdecrypt⟩
  · obtain ⟨tag, htag, hzeros⟩ := hreject (List.replicate 3 0 ++ List.replicate 16 0)
      (List.replicate 5 7) (by decide)
    obtain ⟨tag', htag', hones⟩ := hreject (List.replicate 3 0 ++ List.replicate 16 1)
      (List.replicate 5 7) (by decide)
    have hsame : tag = tag' := Option.some.inj (htag.symm.trans htag')
    by_cases hzero : List.replicate 16 (0 : UInt8) = tag
    · refine Or.inr (hones fun hone => ?_)
      have hne : List.replicate 16 (1 : UInt8) ≠ List.replicate 16 0 := by decide
      exact hne (hone.trans (hsame.symm.trans hzero.symm))
    · exact Or.inl (hzeros hzero)

end RavenWallet
