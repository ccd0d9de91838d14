/-
  Recovery phrases (BRBIP39Mnemonic.c).

  Words and phrases are the bytes before the terminating NUL, `SHA256` and `PBKDF2`
  are parameters.

  * `readWords_some`, `readWords_phraseOf`: the words that the decoder finds are
    those that the phrase is made of.
-/
import Mathlib.Data.List.TakeWhile
import RavenWallet.Lib.Regroup
import RavenWallet.Core.Types

namespace RavenWallet

def BIP39_WORDLIST_COUNT : ℕ := 2048

/-- A word list. -/
structure WordList where
  words : List Bytes
  count : words.length = BIP39_WORDLIST_COUNT
  nodup : words.Nodup
  ne_nil : ∀ w ∈ words, w ≠ []
  spaceFree : ∀ w ∈ words, 32 ∉ w

variable (sha256 : Bytes → Bytes) (W : WordList)

namespace WordList

/-- The word with an index. -/
def word (i : ℕ) : Bytes := W.words.getD i []

/-- The words with the indices `idx`, with spaces between them. -/
def phraseOf (idx : List ℕ) : Bytes := [32].intercalate (idx.map W.word)

end WordList

/-! ## Encoding -/

/-- `UInt32GetBE`. -/
def getBE32 (buf : Bytes) (off : ℕ) : ℕ := value 256 (slice (buf.map UInt8.toNat) off 4)

/-- The index of the `i`-th word for the entropy and its checksum in `buf`. -/
def wordNumber (buf : Bytes) (i : ℕ) : ℕ :=
  (getBE32 buf (i * 11 / 8) >>> (32 - (11 + i * 11 % 8))) % BIP39_WORDLIST_COUNT

/-- The indices of the words for `data`. -/
def wordNumbers (data : Bytes) : List ℕ :=
  (List.range (data.length * 3 / 4)).map (wordNumber (data ++ sha256 data))

/-- `BRBIP39Encode` into a buffer with room for the phrase. -/
def bip39Encode (data : Bytes) : Bytes :=
  if data.length % 4 ≠ 0 then [] else W.phraseOf (wordNumbers sha256 data)

/-! ## Decoding -/

/-- The text starts with the word, and a space or the end follows. -/
def startsWith (text word : Bytes) : Bool :=
  word.isPrefixOf text && (text.drop word.length).head?.all fun c => c = 32

/-- The index of the first word of the list that the text starts with. -/
def wordIndex (text : Bytes) : Option ℕ := W.words.findIdx? (startsWith text)

/-- What follows the next space (`strchr`); `none` for `NULL`. -/
def afterSpace (text : Bytes) : Option Bytes :=
  match text.dropWhile fun c => c ≠ 32 with
  | [] => none
  | _ :: rest => some rest

/-- The indices of at most so many words, and the text where the loop ends. -/
def readWords : ℕ → Option Bytes → List ℕ × Option Bytes
  | 0, text => ([], text)
  | _ + 1, none => ([], none)
  | _ + 1, some [] => ([], some [])
  | n + 1, some text =>
    match wordIndex W text with
    | none => ([], some text)
    | some i =>
      let r := readWords n (afterSpace text)
      (i :: r.1, r.2)

/-- The `i`-th byte of the entropy and its checksum. -/
def decodedByte (idx : List ℕ) (i : ℕ) : UInt8 :=
  let x := idx.getD (i * 8 / 11) 0
  let y := if i * 8 / 11 + 1 < idx.length then idx.getD (i * 8 / 11 + 1) 0 else 0
  UInt8.ofNat ((x * BIP39_WORDLIST_COUNT + y) >>> ((i * 8 / 11 + 2) * 11 - (i + 1) * 8) &&& 0xff)

def decodedBytes (idx : List ℕ) : Bytes :=
  (List.range ((idx.length * 11 + 7) / 8)).map (decodedByte idx)

/-- The last byte agrees with the hash in as many high bits as there are bits of checksum. -/
def checksumHolds (count : ℕ) (buf hash : Bytes) : Prop :=
  (buf.getLastD 0).toNat >>> (8 - count / 3) = (hash.headD 0).toNat >>> (8 - count / 3)

instance (count : ℕ) (buf hash : Bytes) : Decidable (checksumHolds count buf hash) :=
  inferInstanceAs (Decidable (_ = _))

/-- `BRBIP39Decode` into a buffer with room for the data; empty if there are none. -/
def bip39Decode (phrase : Bytes) : Bytes :=
  let (idx, text) := readWords W 24 (some phrase)
  let buf := decodedBytes idx
  let data := buf.take (idx.length * 4 / 3)
  if idx.length % 3 = 0 ∧ (text = none ∨ text = some []) ∧
      checksumHolds idx.length buf (sha256 data) then data
  else []

/-- `BRBIP39PhraseIsValid`. -/
def phraseIsValid (phrase : Bytes) : Bool := decide ((bip39Decode sha256 W phrase).length > 0)

/-- `BRBIP39DeriveKey`. -/
def deriveKey (pbkdf2 : Bytes → Bytes → Bytes) (phrase passphrase : Bytes) : Bytes :=
  pbkdf2 phrase (("mnemonic".toList.map fun c => UInt8.ofNat c.toNat) ++ passphrase)

/-! ## Words -/

section
variable {W} {i n : ℕ} {idx : List ℕ} {word text text' tail : Bytes}

/-- Without a space in it, the word is what the text starts with before the first space. -/
theorem startsWith_iff (h : 32 ∉ word) :
    startsWith text word = true ↔ word = text.takeWhile fun c => c ≠ 32 := by
  have hword : ∀ c ∈ word, decide (c ≠ 32) = true := fun c hc =>
    decide_eq_true fun heq => h (heq ▸ hc)
  constructor
  · intro hs
    obtain ⟨hstart, hhead⟩ := Bool.and_eq_true_iff.1 hs
    obtain ⟨rest, rfl⟩ := List.isPrefixOf_iff_prefix.1 hstart
    rw [List.drop_left] at hhead
    rw [List.takeWhile_append_of_pos hword]
    cases rest with
    | nil => simp
    | cons c rest =>
      obtain rfl : c = 32 := by simpa using hhead
      simp
  · intro hw
    have htext : word ++ (text.dropWhile fun c => c ≠ 32) = text := by
      rw [hw, List.takeWhile_append_dropWhile]
    have hhead := List.head?_dropWhile_not (fun c => decide (c ≠ (32 : UInt8))) text
    rw [startsWith, Bool.and_eq_true_iff]
    refine ⟨List.isPrefixOf_iff_prefix.2 ⟨_, htext⟩, ?_⟩
    rw [← htext, List.drop_left]
    cases hd : (text.dropWhile fun c => c ≠ 32).head? with
    | none => rfl
    | some c =>
      rw [hd] at hhead
      simpa using hhead

theorem WordList.word_mem (h : i < BIP39_WORDLIST_COUNT) : W.word i ∈ W.words := by
  rw [← W.count] at h
  rw [WordList.word, List.getD_eq_getElem?_getD, List.getElem?_eq_getElem h, Option.getD_some]
  exact List.getElem_mem h

/-- The index is that of the word before the first space. -/
theorem wordIndex_eq_some : wordIndex W text = some i ↔
    i < BIP39_WORDLIST_COUNT ∧ W.word i = text.takeWhile fun c => c ≠ 32 := by
  have hiff : ∀ k (hk : k < W.words.length),
      startsWith text W.words[k] = true ↔ W.word k = text.takeWhile fun c => c ≠ 32 := by
    intro k hk
    rw [startsWith_iff (W.spaceFree _ (List.getElem_mem hk)), WordList.word,
      List.getD_eq_getElem?_getD, List.getElem?_eq_getElem hk, Option.getD_some]
  rw [wordIndex, List.findIdx?_eq_some_iff_getElem, ← W.count]
  constructor
  · rintro ⟨hi, hs, -⟩
    exact ⟨hi, (hiff i hi).1 hs⟩
  · rintro ⟨hi, hw⟩
    refine ⟨hi, (hiff i hi).2 hw, ?_⟩
    intro k hk hs
    have hkn : k < W.words.length := hk.trans hi
    have hwk := (hiff k hkn).1 hs
    have hget : W.words[k] = W.words[i] := by
      have hword := hwk.trans hw.symm
      simp only [WordList.word, List.getD_eq_getElem?_getD, List.getElem?_eq_getElem hkn,
        List.getElem?_eq_getElem hi, Option.getD_some] at hword
      exact hword
    have heq := (W.nodup.getElem_inj_iff).1 hget
    omega

theorem afterSpace_append (h : 32 ∉ word) : afterSpace word = none ∧
    ∀ rest, afterSpace (word ++ 32 :: rest) = some rest := by
  have hword : ∀ c ∈ word, decide (c ≠ 32) = true := fun c hc =>
    decide_eq_true fun heq => h (heq ▸ hc)
  refine ⟨?_, ?_⟩
  · rw [afterSpace, List.dropWhile_eq_nil_iff.2 hword]
  · intro rest
    rw [afterSpace, List.dropWhile_append_of_pos hword, List.dropWhile_cons_of_neg (by simp)]

/-- A text is its first word, or that, a space and what follows. -/
theorem text_cases (text : Bytes) : afterSpace text = none ∧ text = text.takeWhile (fun c => c ≠ 32) ∨
    ∃ rest, afterSpace text = some rest ∧ text = text.takeWhile (fun c => c ≠ 32) ++ 32 :: rest := by
  have htext := List.takeWhile_append_dropWhile (p := fun c => decide (c ≠ (32 : UInt8))) (l := text)
  have hhead := List.head?_dropWhile_not (fun c => decide (c ≠ (32 : UInt8))) text
  rw [afterSpace]
  cases hd : text.dropWhile fun c => c ≠ 32 with
  | nil =>
    rw [hd, List.append_nil] at htext
    exact Or.inl ⟨rfl, htext.symm⟩
  | cons c rest =>
    rw [hd] at htext hhead
    obtain rfl : c = 32 := by simpa using hhead
    exact Or.inr ⟨rest, rfl, htext.symm⟩

theorem phraseOf_singleton (i : ℕ) : W.phraseOf [i] = W.word i := by
  simp [WordList.phraseOf, List.intercalate]

theorem phraseOf_cons (i : ℕ) (h : idx ≠ []) :
    W.phraseOf (i :: idx) = W.word i ++ 32 :: W.phraseOf idx := by
  obtain ⟨j, idx, rfl⟩ := List.exists_cons_of_ne_nil h
  simp [WordList.phraseOf, List.intercalate]

theorem readWords_succ (h : text ≠ []) : readWords W (n + 1) (some text) =
    match wordIndex W text with
    | none => ([], some text)
    | some i => (i :: (readWords W n (afterSpace text)).1, (readWords W n (afterSpace text)).2) := by
  cases text with
  | nil => exact absurd rfl h
  | cons c text => rfl

/-- What is behind the last word, if the decoder reads a text to its end. -/
def trail (rest : Option Bytes) : Bytes := if rest = none then [] else [32]

/-- A text that is read to its end is made of the words found, with perhaps a space behind them. -/
theorem readWords_some {rest : Option Bytes} (h : readWords W n (some text) = (idx, rest))
    (hend : rest = none ∨ rest = some []) :
    idx.length ≤ n ∧ (∀ i ∈ idx, i < BIP39_WORDLIST_COUNT) ∧
      (idx = [] ∧ text = [] ∨ idx ≠ [] ∧ text = W.phraseOf idx ++ trail rest) := by
  induction n generalizing text idx with
  | zero =>
    obtain ⟨rfl, rfl⟩ := Prod.mk.inj h
    rcases hend with hend | hend
    · cases hend
    · cases hend
      exact ⟨le_refl _, by simp, Or.inl ⟨rfl, rfl⟩⟩
  | succ n ih =>
    cases text with
    | nil =>
      obtain ⟨rfl, rfl⟩ := Prod.mk.inj h
      exact ⟨Nat.zero_le _, by simp, Or.inl ⟨rfl, rfl⟩⟩
    | cons c text =>
      rw [readWords_succ (List.cons_ne_nil _ _)] at h
      cases hi : wordIndex W (c :: text) with
      | none =>
        rw [hi] at h
        obtain ⟨rfl, rfl⟩ := Prod.mk.inj h
        rcases hend with hend | hend <;> cases hend
      | some i =>
        rw [hi] at h
        obtain ⟨hlt, hword⟩ := wordIndex_eq_some.1 hi
        rcases text_cases (c :: text) with ⟨hafter, htext⟩ | ⟨more, hafter, htext⟩
        · have hread : readWords W n none = ([], none) := by cases n <;> rfl
          simp only [hafter, hread, Prod.mk.injEq] at h
          obtain ⟨rfl, rfl⟩ := h
          refine ⟨Nat.succ_le_succ (Nat.zero_le _), by simpa using hlt, Or.inr ⟨by simp, ?_⟩⟩
          rw [phraseOf_singleton, hword, ← htext]
          exact (List.append_nil _).symm
        · cases hread : readWords W n (some more) with
          | mk idx' rest' =>
            simp only [hafter, hread, Prod.mk.injEq] at h
            obtain ⟨rfl, rfl⟩ := h
            obtain ⟨hlen, hall, hcase⟩ := ih hread
            refine ⟨Nat.succ_le_succ hlen, List.forall_mem_cons.2 ⟨hlt, hall⟩,
              Or.inr ⟨by simp, ?_⟩⟩
            rcases hcase with ⟨rfl, rfl⟩ | ⟨hne, hmore⟩
            · -- the text ends with the space
              have hnil : readWords W n (some []) = ([], some []) := by cases n <;> rfl
              obtain ⟨-, rfl⟩ := Prod.mk.inj (hnil.symm.trans hread)
              rw [phraseOf_singleton, hword]
              exact htext
            · rw [phraseOf_cons i hne, hword, List.append_assoc, List.cons_append, ← hmore]
              exact htext

/-- The words of a phrase are found, whether a space follows them or not. -/
theorem readWords_phraseOf (hidx : ∀ i ∈ idx, i < BIP39_WORDLIST_COUNT) (hne : idx ≠ [])
    (hlen : idx.length ≤ n) {rest : Option Bytes} (hend : rest = none ∨ rest = some []) :
    readWords W n (some (W.phraseOf idx ++ trail rest)) = (idx, rest) := by
  induction idx generalizing n with
  | nil => exact absurd rfl hne
  | cons i idx ih =>
    obtain ⟨n, rfl⟩ := Nat.exists_eq_add_of_le' (Nat.lt_of_lt_of_le (Nat.succ_pos _) hlen)
    obtain ⟨hi, hidx⟩ := List.forall_mem_cons.1 hidx
    have hmem := W.word_mem hi
    have hfree := W.spaceFree _ hmem
    have htake : ∀ tail : Bytes, (W.word i ++ 32 :: tail).takeWhile (fun c => c ≠ 32) = W.word i ∧
        (W.word i).takeWhile (fun c => c ≠ 32) = W.word i := by
      intro tail
      have hword : ∀ c ∈ W.word i, decide (c ≠ 32) = true := fun c hc =>
        decide_eq_true fun heq => hfree (heq ▸ hc)
      refine ⟨?_, List.takeWhile_eq_self_iff.2 hword⟩
      rw [List.takeWhile_append_of_pos hword, List.takeWhile_cons_of_neg (by simp), List.append_nil]
    obtain ⟨c, word, hc⟩ := List.exists_cons_of_ne_nil (W.ne_nil _ hmem)
    -- one round of the loop on a text that starts with the word
    have hround : ∀ text : Bytes, text.takeWhile (fun c => c ≠ 32) = W.word i →
        readWords W (n + 1) (some text) =
          (i :: (readWords W n (afterSpace text)).1, (readWords W n (afterSpace text)).2) := by
      intro text htext
      cases text with
      | nil => rw [hc] at htext; cases htext
      | cons d text => rw [readWords_succ (List.cons_ne_nil _ _), wordIndex_eq_some.2 ⟨hi, htext.symm⟩]
    by_cases hnil : idx = []
    · subst hnil
      rw [phraseOf_singleton]
      rcases hend with rfl | rfl
      · rw [trail, if_pos rfl, List.append_nil, hround _ (htake []).2, (afterSpace_append hfree).1]
        cases n <;> rfl
      · rw [trail, if_neg (by simp), hround _ (htake []).1, (afterSpace_append hfree).2]
        cases n <;> rfl
    · rw [phraseOf_cons i hnil, List.append_assoc, List.cons_append, hround _ (htake _).1,
        (afterSpace_append hfree).2, ih hidx hnil (Nat.le_of_succ_le_succ hlen)]

end

end RavenWallet
