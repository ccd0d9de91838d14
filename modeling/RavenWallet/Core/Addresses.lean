/-
  Addresses as strings (BRAddress.c): which of them are valid, and which of the
  valid ones are what the encoder writes.

  * `decode_append`: the decoder reads an address up to the first character that is
    no digit;
  * `address_encoded_iff`: the valid strings that are not encodings are the encodings with
    something behind them.
-/
import RavenWallet.Core.Script

namespace RavenWallet

namespace BRAddress

section
variable {H : Hashes} {s : BRAddress} {data : Bytes}

/-- A version byte of the currency and a hash. -/
def IsAddressData (data : Bytes) : Prop :=
  data.length = 21 ∧
    (data.headD 0 = RAVENCOIN_PUBKEY_ADDRESS ∨ data.headD 0 = RAVENCOIN_SCRIPT_ADDRESS)

theorem isValid_iff : isValid H s = true ↔ IsAddressData (decode H s) := by
  simp [isValid, IsAddressData]

theorem IsAddressData.cons (h : IsAddressData data) :
    ∃ v h20, data = v :: h20 ∧ v ≠ 0 ∧ h20.length = 20 := by
  obtain ⟨hlen, hv⟩ := h
  cases data with
  | nil => cases hlen
  | cons v h20 =>
    rw [List.headD_cons] at hv
    refine ⟨v, h20, rfl, ?_, Nat.succ.inj hlen⟩
    rintro rfl
    exact absurd hv (by decide)

/-- The checksum of `data`. -/
def checksum (H : Hashes) (data : Bytes) : Bytes := (H.sha256_2 data).take 4

theorem length_checksum : (checksum H data).length = 4 :=
  List.length_take_of_le (by rw [H.length_sha256_2]; decide)

/-- The string of an address fits into a `BRAddress`, and has at least as many characters as the
    address has bytes. -/
theorem IsAddressData.encode_eq (h : IsAddressData data) :
    base58CheckEncode H ADDRESS_SIZE data = base58String (data ++ checksum H data) ∧
      25 ≤ (base58String (data ++ checksum H data)).length := by
  obtain ⟨v, h20, rfl, hv, hlen⟩ := h.cons
  have hsize : (h20 ++ checksum H (v :: h20)).length = 24 := by
    rw [List.length_append, hlen, length_checksum]
  obtain ⟨hlow, hhigh⟩ := length_base58String (h20 ++ checksum H (v :: h20)) hv
  rw [hsize] at hlow hhigh
  refine ⟨if_pos ?_, hlow⟩
  exact (Nat.succ_le_succ hhigh).trans (by decide)

/-- What decodes to an address has the bytes of the address and their checksum. -/
theorem base58Bytes_of_decode (h : (decode H s).length = 21) :
    base58Bytes s = decode H s ++ checksum H (decode H s) := by
  unfold decode base58CheckDecode base58Decode at h ⊢
  dsimp only at h ⊢
  split_ifs at h ⊢ with hlen hsize hsum
  · nth_rewrite 1 [← List.take_append_drop ((base58Bytes s).length - 4) (base58Bytes s)]
    rw [hsum.1, checksum]
  all_goals cases h

/-- The decoder reads an address up to the first character that is no digit. -/
theorem decode_append (h : IsAddressData data) {u : Bytes}
    (hu : ∀ c, u.head? = some c → base58Digit c = none) :
    decode H (base58CheckEncode H ADDRESS_SIZE data ++ u) = data := by
  obtain ⟨henc, hlong⟩ := h.encode_eq (H := H)
  have hbytes : base58Bytes (base58CheckEncode H ADDRESS_SIZE data ++ u) =
      data ++ checksum H data := by
    rw [henc, base58Bytes_append _ hu]
  have hsize : (data ++ checksum H data).length = 25 := by
    rw [List.length_append, h.1, length_checksum]
  have hbuf : base58Decode (base58CheckEncode H ADDRESS_SIZE data ++ u).length
      (base58CheckEncode H ADDRESS_SIZE data ++ u) = data ++ checksum H data := by
    rw [base58Decode, hbytes, if_pos]
    rw [hsize, List.length_append, henc]
    omega
  have hcut : 25 - 4 = data.length := by rw [h.1]
  rw [decode, base58CheckDecode, hbuf]
  dsimp only
  rw [hsize, hcut, List.take_left, List.drop_left, if_pos (by decide), if_pos ⟨rfl, h.1.le⟩]

/-- A valid string is the encoding of its address, over the alphabet. -/
def Encoded (H : Hashes) (s : BRAddress) : Prop :=
  isValid H s = true →
    s = base58CheckEncode H ADDRESS_SIZE (decode H s) ∧ ∀ c ∈ s, (base58Digit c).isSome

/-- Behind the encoding of an address there is something that starts with no digit. -/
def Trailed (H : Hashes) (s : BRAddress) : Prop :=
  ∃ data c u, IsAddressData data ∧ base58Digit c = none ∧
    s = base58CheckEncode H ADDRESS_SIZE data ++ c :: u

/-- A valid string starts with the encoding of its address, and no digit follows. -/
theorem exists_trailing (h : isValid H s = true) : ∃ u : Bytes,
    s = base58CheckEncode H ADDRESS_SIZE (decode H s) ++ u ∧
      (∀ c ∈ base58CheckEncode H ADDRESS_SIZE (decode H s), (base58Digit c).isSome) ∧
      ∀ c, u.head? = some c → base58Digit c = none := by
  have haddr := isValid_iff.1 h
  set t := s.takeWhile fun c => (base58Digit c).isSome with ht
  set u := s.dropWhile fun c => (base58Digit c).isSome with hu
  have hs : t ++ u = s := List.takeWhile_append_dropWhile
  have hdigits : ∀ c ∈ t, (base58Digit c).isSome := by
    intro c hc
    exact List.all_eq_true.1 (List.all_takeWhile (p := fun c => (base58Digit c).isSome)) c hc
  have hhead : ∀ c, u.head? = some c → base58Digit c = none := by
    intro c hc
    have hnot := List.head?_dropWhile_not (fun c => (base58Digit c).isSome) s
    rw [← hu, hc] at hnot
    exact Option.isSome_eq_false_iff.1 hnot |> Option.isNone_iff_eq_none.1
  have hbytes : base58Bytes t = decode H s ++ checksum H (decode H s) := by
    rw [← base58Bytes_of_decode haddr.1]
    have happend := base58Bytes_append (base58Bytes t) hhead
    rw [base58String_base58Bytes hdigits, hs] at happend
    exact happend.symm
  have htext : t = base58CheckEncode H ADDRESS_SIZE (decode H s) := by
    rw [haddr.encode_eq.1, ← hbytes, base58String_base58Bytes hdigits]
  rw [← htext]
  exact ⟨u, hs.symm, hdigits, hhead⟩

theorem encoded_of_not_trailed (h : ¬ Trailed H s) : Encoded H s := by
  intro hvalid
  obtain ⟨u, hs, hdigits, hhead⟩ := exists_trailing hvalid
  cases u with
  | nil =>
    rw [List.append_nil] at hs
    exact ⟨hs, hs ▸ hdigits⟩
  | cons c u => exact absurd ⟨_, c, u, isValid_iff.1 hvalid, hhead c rfl, hs⟩ h

theorem not_encoded_of_trailed (h : Trailed H s) : ¬ Encoded H s := by
  rintro hencoded
  obtain ⟨data, c, u, hdata, hc, rfl⟩ := h
  have hdecode : decode H (base58CheckEncode H ADDRESS_SIZE data ++ c :: u) = data :=
    decode_append hdata fun c' hc' => by rwa [← Option.some.inj hc']
  have hvalid := isValid_iff.2 (hdecode.symm ▸ hdata)
  have hdigit := (hencoded hvalid).2 c (List.mem_append_right _ List.mem_cons_self)
  rw [hc] at hdigit
  cases hdigit

/-- The valid strings that are not encodings are the encodings with something behind them; without
    these, no two valid strings denote one address. -/
theorem address_encoded_iff (H : Hashes) : (∀ s, Encoded H s ↔ ¬ Trailed H s) ∧
    Set.InjOn (decode H) {s | isValid H s = true ∧ ¬ Trailed H s} := by
  refine ⟨fun s => ⟨fun h ht => not_encoded_of_trailed ht h, encoded_of_not_trailed⟩, ?_⟩
  intro s hs t ht hst
  have hstring : ∀ {s}, isValid H s = true ∧ ¬ Trailed H s →
      s = base58CheckEncode H ADDRESS_SIZE (decode H s) :=
    fun hs => (encoded_of_not_trailed hs.2 hs.1).1
  exact (hstring hs).trans ((congrArg _ hst).trans (hstring ht).symm)

/-- An address and a space are accepted, whatever the hash functions are. -/
theorem not_address_encoded : ¬ ∃ H : Hashes, ∀ s : BRAddress, Encoded H s := by
  rintro ⟨H, h⟩
  have htrailed : Trailed H (base58CheckEncode H ADDRESS_SIZE
      (RAVENCOIN_PUBKEY_ADDRESS :: List.replicate 20 0) ++ [32]) :=
    ⟨_, 32, [], ⟨by decide, Or.inl rfl⟩, by decide, rfl⟩
  exact not_encoded_of_trailed htrailed (h _)

end

end BRAddress

end RavenWallet
