/-
  The names of assets (AssetValidator.swift).

  A string is the list of its Unicode scalars.  `count` says how many characters it has
  for Swift, which may be fewer; a regular expression is given so many of its UTF-16
  units.  A pattern that does not compile finds nothing.

  `Grammar` says which names there are to be, and of which types, over the UTF-16 units
  of a name.  `Seen` is what the checks make of a name: each of its parts up to its
  count of units, and without a line break at the end.

  * `isAssetNameValid_iff`: what is accepted is what is seen to be a name;
  * `assetName_iff`: which names are accepted just if they are in the grammar;
  * `isAssetNameAnOwner_codes`: the names of owners among the strings of the database.
-/
import RavenWallet.Database.Assets
import RavenWallet.Lib.Regex

namespace RavenWallet

namespace AssetNames

open Regex

inductive AssetType where
  | UNIQUE
  | CHANNEL
  | OWNER
  | ROOT
  | SUB
  | INVALID
  deriving DecidableEq, Repr

def MAX_NAME_LENGTH : ℕ := 30

/-! ## Patterns -/

-- patterns are compiled by their equations below, never by unfolding
@[irreducible] def compiled (pattern : String) : Option (List (List Atom)) := compile pattern.toList

def ROOT_NAME_CHARACTERS := compiled "^[A-Z0-9._]\x7b3,\x7d$"
def SUB_NAME_CHARACTERS := compiled "^[A-Z0-9._]+$"
def UNIQUE_TAG_CHARACTERS := compiled "^[-A-Za-z0-9@$%&*()[\\]\x7b\x7d_.?:]+$"
def MSG_CHANNEL_TAG_CHARACTERS := compiled "^[A-Za-z0-9_]+$"

def DOUBLE_PUNCTUATION := compiled "^.*[._]\x7b2,\x7d.*$"
def LEADING_PUNCTUATION := compiled "^[._].*$"
def TRAILING_PUNCTUATION := compiled "^.*[._]$"

def SUB_NAME_DELIMITER : Char := '/'
def UNIQUE_TAG_DELIMITER : Char := '#'
def MSG_CHANNEL_TAG_DELIMITER : Char := '~'

def UNIQUE_INDICATOR := compiled "^[^^~#!]+#[^~#!\\/]+$"
def MSG_CHANNEL_INDICATOR := compiled "^[^^~#!]+~[^~#!\\/]+$"
def OWNER_INDICATOR := compiled "^[^^~#!]+!$"

def RAVEN_NAMES := compiled "^RVN$|^RAVEN$|^RAVENCOIN$|^RAVENC0IN$|^RAVENCO1N$|^RAVENC01N$"

/-! ## Strings -/

def utf16 (s : List Char) : List ℕ :=
  s.flatMap fun c =>
    if c.toNat < 0x10000 then [c.toNat]
    else [0xd800 + (c.toNat - 0x10000) / 0x400, 0xdc00 + (c.toNat - 0x10000) % 0x400]

/-- `substring(with:)`, of the first units; half of a character becomes the replacement
    character. -/
def substring (n : ℕ) : List Char → List Char
  | [] => []
  | c :: s =>
    if n = 0 then []
    else if c.toNat < 0x10000 then c :: substring (n - 1) s
    else if n = 1 then [Char.ofNat 0xfffd]
    else c :: substring (n - 2) s

variable (count : List Char → ℕ)

/-- The units that a regular expression is given. -/
def region (s : List Char) : List ℕ := (utf16 s).take (count s)

/-- `firstMatch(in:options:range:) != nil` -/
def matched (pattern : Option (List (List Atom))) (s : List Char) : Bool :=
  pattern.any fun branches => found branches (region count s)

/-! ## The checks -/

/-- The check of characters and punctuation that root names, sub names and channel tags share. -/
def partValid (characters : Option (List (List Atom))) (s : List Char) : Bool :=
  let res1 := matched count characters s
  let res2 := matched count DOUBLE_PUNCTUATION s
  let res3 := matched count LEADING_PUNCTUATION s
  let res4 := matched count TRAILING_PUNCTUATION s
  res1 && !res2 && !res3 && !res4

def isRootNameValid (name : List Char) : Bool :=
  partValid count ROOT_NAME_CHARACTERS name && !matched count RAVEN_NAMES name

def isSubNameValid (name : List Char) : Bool := partValid count SUB_NAME_CHARACTERS name

def isUniqueTagValid (tag : List Char) : Bool := matched count UNIQUE_TAG_CHARACTERS tag

def isChannelTagValid (tag : List Char) : Bool := partValid count MSG_CHANNEL_TAG_CHARACTERS tag

def isNameValidBeforeTag (name : List Char) : Bool :=
  let parts := name.splitOn SUB_NAME_DELIMITER
  if !isRootNameValid count (parts.headD []) then false
  else if parts.length > 1 then parts.all (isSubNameValid count)
  else true

def isAssetNameASubasset (name : List Char) : Bool :=
  let parts := name.splitOn SUB_NAME_DELIMITER
  if !isRootNameValid count (parts.headD []) then false
  else parts.length > 1

def isAssetNameValid (name : List Char) : Bool × AssetType :=
  if matched count UNIQUE_INDICATOR name then
    if count name > MAX_NAME_LENGTH then (false, .INVALID)
    else
      let parts := name.splitOn UNIQUE_TAG_DELIMITER
      let valid := isNameValidBeforeTag count (parts.headD []) &&
        isUniqueTagValid count (parts.getLastD [])
      if !valid then (false, .INVALID) else (true, .UNIQUE)
  else if matched count MSG_CHANNEL_INDICATOR name then
    if count name > MAX_NAME_LENGTH then (false, .INVALID)
    else
      let parts := name.splitOn MSG_CHANNEL_TAG_DELIMITER
      let valid := isNameValidBeforeTag count (parts.headD []) &&
        isChannelTagValid count (parts.getLastD [])
      if !valid then (false, .INVALID) else (true, .CHANNEL)
  else if matched count OWNER_INDICATOR name then
    if count name > MAX_NAME_LENGTH then (false, .INVALID)
    else
      let valid := isNameValidBeforeTag count (substring (count name - 1) name)
      if !valid then (false, .INVALID) else (true, .OWNER)
  else
    if count name > MAX_NAME_LENGTH then (false, .INVALID)
    else
      let valid := isNameValidBeforeTag count name
      if !valid then (false, .INVALID)
      else (true, if isAssetNameASubasset count name then .SUB else .ROOT)

def isAssetNameAnOwner (name : List Char) : Bool :=
  let isOwnerIndicator := matched count OWNER_INDICATOR name
  (isAssetNameValid count name).1 && isOwnerIndicator

/-! ## The grammar -/

/-- `[._]` -/
def Punctuation (u : ℕ) : Prop := u = '.'.toNat ∨ u = '_'.toNat

def Upper (u : ℕ) : Prop := 'A'.toNat ≤ u ∧ u ≤ 'Z'.toNat

def Lower (u : ℕ) : Prop := 'a'.toNat ≤ u ∧ u ≤ 'z'.toNat

def Digit (u : ℕ) : Prop := '0'.toNat ≤ u ∧ u ≤ '9'.toNat

/-- `[A-Z0-9._]` -/
def NameUnit (u : ℕ) : Prop := Upper u ∨ Digit u ∨ Punctuation u

/-- `[A-Za-z0-9_]` -/
def ChannelUnit (u : ℕ) : Prop := Upper u ∨ Lower u ∨ Digit u ∨ u = '_'.toNat

/-- The letters, the digits and `-@$%&*()[]{}_.?:`. -/
def UniqueUnit (u : ℕ) : Prop :=
  Upper u ∨ Lower u ∨ Digit u ∨
    u ∈ utf16 ['-', '@', '$', '%', '&', '*', '(', ')', '[', ']', '{', '}', '_', '.', '?', ':']

instance : DecidablePred Punctuation := fun u => inferInstanceAs (Decidable (u = _ ∨ u = _))

instance : DecidablePred NameUnit := fun u =>
  inferInstanceAs (Decidable ((_ ≤ u ∧ u ≤ _) ∨ (_ ≤ u ∧ u ≤ _) ∨ (u = _ ∨ u = _)))

instance : DecidablePred UniqueUnit := fun u =>
  inferInstanceAs (Decidable ((_ ≤ u ∧ u ≤ _) ∨ (_ ≤ u ∧ u ≤ _) ∨ (_ ≤ u ∧ u ≤ _) ∨ u ∈ utf16 _))

/-- Units of a kind, so many at least, without punctuation at either end or twice in a row. -/
structure Part (P : ℕ → Prop) (min : ℕ) (w : List ℕ) : Prop where
  long : min ≤ w.length
  units : ∀ u ∈ w, P u
  adjacent : ∀ u v, [u, v] <:+: w → Punctuation u → ¬ Punctuation v
  leading : ∀ u ∈ w.head?, ¬ Punctuation u
  trailing : ∀ u ∈ w.getLast?, ¬ Punctuation u

def ravenNames : List (List ℕ) :=
  ["RVN", "RAVEN", "RAVENCOIN", "RAVENC0IN", "RAVENCO1N", "RAVENC01N"].map fun s => utf16 s.toList

def RootName (w : List ℕ) : Prop := Part NameUnit 3 w ∧ w ∉ ravenNames

def SubName (w : List ℕ) : Prop := Part NameUnit 1 w

def ChannelTag (w : List ℕ) : Prop := Part ChannelUnit 1 w

def UniqueTag (w : List ℕ) : Prop := w ≠ [] ∧ ∀ u ∈ w, UniqueUnit u

/-- A root name, and sub names below it. -/
def Path : List (List ℕ) → Prop
  | [] => False
  | root :: subs => RootName root ∧ ∀ sub ∈ subs, SubName sub

def joined (path : List (List ℕ)) : List ℕ := [SUB_NAME_DELIMITER.toNat].intercalate path

inductive Form : List ℕ → AssetType → Prop
  | root {root : List ℕ} (h : Path [root]) : Form (joined [root]) .ROOT
  | sub {path : List (List ℕ)} (h : Path path) (hsub : path.length > 1) : Form (joined path) .SUB
  | unique {path : List (List ℕ)} {tag : List ℕ} (h : Path path) (htag : UniqueTag tag) :
    Form (joined path ++ UNIQUE_TAG_DELIMITER.toNat :: tag) .UNIQUE
  | channel {path : List (List ℕ)} {tag : List ℕ} (h : Path path) (htag : ChannelTag tag) :
    Form (joined path ++ MSG_CHANNEL_TAG_DELIMITER.toNat :: tag) .CHANNEL
  | owner {path : List (List ℕ)} (h : Path path) : Form (joined path ++ ['!'.toNat]) .OWNER

/-- **The names of a type.** -/
def Grammar (name : List Char) (type : AssetType) : Prop :=
  count name ≤ MAX_NAME_LENGTH ∧ Form (utf16 name) type

/-! ## What is seen of a name -/

/-- The units of a part that the checks of its characters see. -/
def visible (s : List Char) : List ℕ := beforeBreak (region count s)

def pathOf (s : List Char) : List (List ℕ) := (s.splitOn SUB_NAME_DELIMITER).map (visible count)

inductive Seen where
  | unique
  | channel (path : List (List ℕ)) (tag : List ℕ)
  | owner (path : List (List ℕ))
  | plain (path : List (List ℕ))

/-- The form that the indicators give a name, with what is seen of its parts. -/
def seen (name : List Char) : Seen :=
  if matched count UNIQUE_INDICATOR name then .unique
  else if matched count MSG_CHANNEL_INDICATOR name then
    let parts := name.splitOn MSG_CHANNEL_TAG_DELIMITER
    .channel (pathOf count (parts.headD [])) (visible count (parts.getLastD []))
  else if matched count OWNER_INDICATOR name then
    .owner (pathOf count (substring (count name - 1) name))
  else .plain (pathOf count name)

namespace Seen

/-- What is seen is a name; the tags of unique assets are not seen. -/
def Valid : Seen → Prop
  | unique => False
  | channel path tag => Path path ∧ ChannelTag tag
  | owner path | plain path => Path path

def text : Seen → List ℕ
  | unique => []
  | channel path tag => joined path ++ MSG_CHANNEL_TAG_DELIMITER.toNat :: tag
  | owner path => joined path ++ ['!'.toNat]
  | plain path => joined path

def type : Seen → AssetType
  | unique => .UNIQUE
  | channel _ _ => .CHANNEL
  | owner _ => .OWNER
  | plain path => if path.length > 1 then .SUB else .ROOT

theorem form {s : Seen} (h : s.Valid) : Form s.text s.type := by
  cases s with
  | unique => exact h.elim
  | channel path tag => exact .channel h.1 h.2
  | owner path => exact .owner h
  | plain path =>
    rw [text, type]
    split
    · next hsub => exact .sub h hsub
    · next hroot =>
      match path, h with
      | [root], h => exact .root h
      | _ :: _ :: _, _ => simp at hroot

theorem type_ne_unique {s : Seen} (h : s.Valid) : s.type ≠ .UNIQUE := by
  cases s with
  | unique => exact h.elim
  | channel | owner => nofun
  | plain path =>
    rw [type]
    split <;> nofun

end Seen

/-! ## What the patterns find -/

def punctuationSet : CharSet := .union (.union .empty (.char '.')) (.char '_')

def nameSet : CharSet :=
  .union (.union (.union (.union .empty (.range 'A'.toNat 'Z'.toNat)) (.range '0'.toNat '9'.toNat))
    (.char '.')) (.char '_')

def channelSet : CharSet :=
  .union (.union (.union (.union .empty (.range 'A'.toNat 'Z'.toNat)) (.range 'a'.toNat 'z'.toNat))
    (.range '0'.toNat '9'.toNat)) (.char '_')

/-- `[^^~#!]` -/
def beforeTagSet : CharSet :=
  .compl (.union (.union (.union (.union .empty (.char '^')) (.char '~')) (.char '#')) (.char '!'))

/-- `[^~#!\/]` -/
def tagSet : CharSet :=
  .compl (.union (.union (.union (.union .empty (.char '~')) (.char '#')) (.char '!')) (.char '/'))

theorem mem_punctuationSet (u : ℕ) : punctuationSet.mem u ↔ Punctuation u := by
  simp [punctuationSet, Punctuation]

theorem mem_nameSet (u : ℕ) : nameSet.mem u ↔ NameUnit u := by
  simp [nameSet, NameUnit, Upper, Digit, Punctuation, or_assoc]

theorem mem_channelSet (u : ℕ) : channelSet.mem u ↔ ChannelUnit u := by
  simp [channelSet, ChannelUnit, Upper, Lower, Digit, or_assoc]

theorem ROOT_NAME_CHARACTERS_eq : ROOT_NAME_CHARACTERS = some [anchored [.rep nameSet 3]] := by
  rw [ROOT_NAME_CHARACTERS, compiled]
  simp only [String.reduceToList]
  rfl

theorem SUB_NAME_CHARACTERS_eq : SUB_NAME_CHARACTERS = some [anchored [.rep nameSet 1]] := by
  rw [SUB_NAME_CHARACTERS, compiled]
  simp only [String.reduceToList]
  rfl

theorem MSG_CHANNEL_TAG_CHARACTERS_eq :
    MSG_CHANNEL_TAG_CHARACTERS = some [anchored [.rep channelSet 1]] := by
  rw [MSG_CHANNEL_TAG_CHARACTERS, compiled]
  simp only [String.reduceToList]
  rfl

/-- The second bracket opens a set within the set, and only that one is closed. -/
theorem UNIQUE_TAG_CHARACTERS_eq : UNIQUE_TAG_CHARACTERS = none := by
  rw [UNIQUE_TAG_CHARACTERS, compiled]
  simp only [String.reduceToList]
  rfl

theorem DOUBLE_PUNCTUATION_eq :
    DOUBLE_PUNCTUATION = some [anchored [.rep .dot 0, .rep punctuationSet 2, .rep .dot 0]] := by
  rw [DOUBLE_PUNCTUATION, compiled]
  simp only [String.reduceToList]
  rfl

theorem LEADING_PUNCTUATION_eq :
    LEADING_PUNCTUATION = some [anchored [.one punctuationSet, .rep .dot 0]] := by
  rw [LEADING_PUNCTUATION, compiled]
  simp only [String.reduceToList]
  rfl

theorem TRAILING_PUNCTUATION_eq :
    TRAILING_PUNCTUATION = some [anchored [.rep .dot 0, .one punctuationSet]] := by
  rw [TRAILING_PUNCTUATION, compiled]
  simp only [String.reduceToList]
  rfl

theorem UNIQUE_INDICATOR_eq :
    UNIQUE_INDICATOR = some [anchored [.rep beforeTagSet 1, .one (.char '#'), .rep tagSet 1]] := by
  rw [UNIQUE_INDICATOR, compiled]
  simp only [String.reduceToList]
  rfl

theorem MSG_CHANNEL_INDICATOR_eq :
    MSG_CHANNEL_INDICATOR =
      some [anchored [.rep beforeTagSet 1, .one (.char '~'), .rep tagSet 1]] := by
  rw [MSG_CHANNEL_INDICATOR, compiled]
  simp only [String.reduceToList]
  rfl

theorem OWNER_INDICATOR_eq :
    OWNER_INDICATOR = some [anchored [.rep beforeTagSet 1, .one (.char '!')]] := by
  rw [OWNER_INDICATOR, compiled]
  simp only [String.reduceToList]
  rfl

theorem RAVEN_NAMES_eq : RAVEN_NAMES = some (ravenNames.map fun w => anchored (literal w)) := by
  rw [RAVEN_NAMES, compiled]
  simp only [String.reduceToList]
  rfl

theorem matched_anchored {pattern : Option (List (List Atom))} {branch : List Atom}
    (hpattern : pattern = some [anchored branch]) (h : plain branch)
    (hbreak : ∀ a ∈ branch, ∀ u, a.set.mem u → ¬ CharSet.lineTerminator.mem u) (s : List Char) :
    matched count pattern s ↔ Spells branch (visible count s) := by
  rw [hpattern]
  exact found_anchored_iff h hbreak _

theorem not_break_of_mem {set : CharSet} {P : ℕ → Prop} (hset : ∀ u, set.mem u ↔ P u)
    (hP : ∀ u, P u → 0x20 ≤ u ∧ u ≤ 0x7e) (u : ℕ) (hu : set.mem u) :
    ¬ CharSet.lineTerminator.mem u := by
  have := hP u ((hset u).1 hu)
  simp only [CharSet.lineTerminator, CharSet.mem_union, CharSet.mem_range]
  omega

theorem Punctuation.printable {u : ℕ} (h : Punctuation u) : 0x20 ≤ u ∧ u ≤ 0x7e := by
  rcases h with rfl | rfl <;> decide

theorem NameUnit.printable {u : ℕ} (h : NameUnit u) : 0x20 ≤ u ∧ u ≤ 0x7e := by
  rcases h with h | h | h
  · simp only [Upper, Char.reduceToNat] at h
    omega
  · simp only [Digit, Char.reduceToNat] at h
    omega
  · exact h.printable

theorem ChannelUnit.printable {u : ℕ} (h : ChannelUnit u) : 0x20 ≤ u ∧ u ≤ 0x7e := by
  simp only [ChannelUnit, Upper, Lower, Digit, Char.reduceToNat] at h
  omega

/-- The pattern finds two marks side by side. -/
theorem spells_double {w : List ℕ} (hw : ∀ u ∈ w, CharSet.dot.mem u) :
    Spells [.rep .dot 0, .rep punctuationSet 2, .rep .dot 0] w ↔
      ∃ u v, [u, v] <:+: w ∧ Punctuation u ∧ Punctuation v := by
  constructor
  · rintro ⟨a, b, rfl, -, -, p, c, rfl, hlen, hp, -⟩
    match p, hlen, hp with
    | u :: v :: p, _, hp =>
      exact ⟨u, v, ⟨a, p ++ c, by simp⟩, (mem_punctuationSet u).1 (hp u (by simp)),
        (mem_punctuationSet v).1 (hp v (by simp))⟩
  · rintro ⟨u, v, ⟨a, c, rfl⟩, hu, hv⟩
    refine ⟨a, [u, v] ++ c, by simp, Nat.zero_le _, fun x hx => hw x (by simp [hx]),
      [u, v], c, rfl, le_rfl, ?_, ?_⟩
    · intro x hx
      rcases List.mem_pair.1 hx with rfl | rfl
      · exact (mem_punctuationSet x).2 hu
      · exact (mem_punctuationSet x).2 hv
    · exact (spells_rep ..).2 ⟨Nat.zero_le _, fun x hx => hw x (by simp [hx])⟩

theorem spells_leading {w : List ℕ} (hw : ∀ u ∈ w, CharSet.dot.mem u) :
    Spells [.one punctuationSet, .rep .dot 0] w ↔ ∃ u ∈ w.head?, Punctuation u := by
  constructor
  · rintro ⟨u, b, rfl, hu, -⟩
    exact ⟨u, rfl, (mem_punctuationSet u).1 hu⟩
  · rintro ⟨u, hhead, hu⟩
    obtain ⟨b, rfl⟩ := List.head?_eq_some_iff.1 hhead
    exact ⟨u, b, rfl, (mem_punctuationSet u).2 hu,
      (spells_rep ..).2 ⟨Nat.zero_le _, fun x hx => hw x (by simp [hx])⟩⟩

theorem spells_trailing {w : List ℕ} (hw : ∀ u ∈ w, CharSet.dot.mem u) :
    Spells [.rep .dot 0, .one punctuationSet] w ↔ ∃ u ∈ w.getLast?, Punctuation u := by
  constructor
  · rintro ⟨a, b, rfl, -, -, u, c, rfl, hu, rfl⟩
    exact ⟨u, by simp, (mem_punctuationSet u).1 hu⟩
  · rintro ⟨u, hlast, hu⟩
    obtain ⟨a, rfl⟩ := List.getLast?_eq_some_iff.1 hlast
    exact ⟨a, [u], rfl, Nat.zero_le _, fun x hx => hw x (by simp [hx]),
      u, [], rfl, (mem_punctuationSet u).2 hu, rfl⟩

/-- **The check of a part** is that of what is seen of it. -/
theorem partValid_iff {characters : Option (List (List Atom))} {set : CharSet} {min : ℕ}
    {P : ℕ → Prop} (hpattern : characters = some [anchored [.rep set min]])
    (hset : ∀ u, set.mem u ↔ P u) (hP : ∀ u, P u → 0x20 ≤ u ∧ u ≤ 0x7e) (s : List Char) :
    partValid count characters s ↔ Part P min (visible count s) := by
  have hdot (u : ℕ) (hu : CharSet.dot.mem u) : ¬ CharSet.lineTerminator.mem u :=
    (CharSet.mem_compl _ _).1 hu
  have hpunctuation := not_break_of_mem mem_punctuationSet fun u => Punctuation.printable
  have hchars : matched count characters s ↔
      min ≤ (visible count s).length ∧ ∀ u ∈ visible count s, P u := by
    rw [matched_anchored count hpattern rfl
      (List.forall_mem_singleton.2 (not_break_of_mem hset hP)), spells_rep]
    simp only [hset]
  by_cases hres1 : matched count characters s
  · obtain ⟨hlen, hunits⟩ := hchars.1 hres1
    have hw : ∀ u ∈ visible count s, CharSet.dot.mem u := fun u hu =>
      (CharSet.mem_compl _ _).2 (not_break_of_mem hset hP u ((hset u).2 (hunits u hu)))
    have hdouble := (matched_anchored count DOUBLE_PUNCTUATION_eq rfl
      (List.forall_mem_cons.2 ⟨hdot, List.forall_mem_cons.2
        ⟨hpunctuation, List.forall_mem_singleton.2 hdot⟩⟩) s).trans (spells_double hw)
    have hleading := (matched_anchored count LEADING_PUNCTUATION_eq rfl
      (List.forall_mem_cons.2 ⟨hpunctuation, List.forall_mem_singleton.2 hdot⟩) s).trans
        (spells_leading hw)
    have htrailing := (matched_anchored count TRAILING_PUNCTUATION_eq rfl
      (List.forall_mem_cons.2 ⟨hdot, List.forall_mem_singleton.2 hpunctuation⟩) s).trans
        (spells_trailing hw)
    simp only [partValid, hres1, Bool.true_and, Bool.and_eq_true, Bool.not_eq_true',
      ← Bool.not_eq_true, hdouble, hleading, htrailing]
    constructor
    · rintro ⟨⟨hno₁, hno₂⟩, hno₃⟩
      exact ⟨hlen, hunits, fun u v hwithin hu hv => hno₁ ⟨u, v, hwithin, hu, hv⟩,
        fun u hu hp => hno₂ ⟨u, hu, hp⟩, fun u hu hp => hno₃ ⟨u, hu, hp⟩⟩
    · rintro ⟨-, -, hadjacent, hhead, hlast⟩
      refine ⟨⟨?_, ?_⟩, ?_⟩
      · rintro ⟨u, v, hwithin, hu, hv⟩
        exact hadjacent u v hwithin hu hv
      · rintro ⟨u, hu, hp⟩
        exact hhead u hu hp
      · rintro ⟨u, hu, hp⟩
        exact hlast u hu hp
  · constructor
    · intro h
      simp only [partValid, Bool.and_eq_true] at h
      exact absurd h.1.1.1 hres1
    · intro h
      exact absurd (hchars.2 ⟨h.long, h.units⟩) hres1

theorem matched_RAVEN_NAMES (s : List Char) :
    matched count RAVEN_NAMES s ↔ visible count s ∈ ravenNames := by
  have hprintable : ∀ w ∈ ravenNames, ∀ u ∈ w, 0x20 ≤ u ∧ u ≤ 0x7e := by decide
  have hfound : ∀ w ∈ ravenNames,
      (found [anchored (literal w)] (region count s) ↔ visible count s = w) := by
    intro w hw
    rw [found_anchored_iff (plain_literal w), spells_literal]
    · rfl
    · intro a ha u hu
      obtain ⟨v, hv, rfl⟩ := List.mem_map.1 ha
      have hrange := hprintable w hw v hv
      simp only [Atom.set, CharSet.mem_range, CharSet.lineTerminator, CharSet.mem_union] at hu ⊢
      omega
  rw [matched, RAVEN_NAMES_eq, Option.any_some, found_iff]
  constructor
  · rintro ⟨_, hbranch, h⟩
    obtain ⟨w, hw, rfl⟩ := List.mem_map.1 hbranch
    rwa [(hfound w hw).1 h]
  · intro hmem
    exact ⟨_, List.mem_map_of_mem hmem, (hfound _ hmem).2 rfl⟩

theorem isRootNameValid_iff (s : List Char) :
    isRootNameValid count s ↔ RootName (visible count s) := by
  rw [isRootNameValid, Bool.and_eq_true, Bool.not_eq_true', ← Bool.not_eq_true,
    matched_RAVEN_NAMES, partValid_iff count ROOT_NAME_CHARACTERS_eq mem_nameSet
      fun u => NameUnit.printable]
  rfl

theorem isSubNameValid_iff (s : List Char) :
    isSubNameValid count s ↔ SubName (visible count s) :=
  partValid_iff count SUB_NAME_CHARACTERS_eq mem_nameSet (fun _ => NameUnit.printable) s

theorem isChannelTagValid_iff (s : List Char) :
    isChannelTagValid count s ↔ ChannelTag (visible count s) :=
  partValid_iff count MSG_CHANNEL_TAG_CHARACTERS_eq mem_channelSet
    (fun _ => ChannelUnit.printable) s

theorem isUniqueTagValid_eq_false (s : List Char) : isUniqueTagValid count s = false := by
  rw [isUniqueTagValid, matched, UNIQUE_TAG_CHARACTERS_eq]
  rfl

theorem RootName.subName {w : List ℕ} (h : RootName w) : SubName w :=
  ⟨(by decide : 1 ≤ 3).trans h.1.long, h.1.units, h.1.adjacent, h.1.leading, h.1.trailing⟩

theorem Path.subName {path : List (List ℕ)} (h : Path path) : ∀ w ∈ path, SubName w := by
  match path, h with
  | root :: subs, ⟨hroot, hsubs⟩ =>
    intro w hw
    rcases List.mem_cons.1 hw with rfl | hw
    · exact hroot.subName
    · exact hsubs w hw

/-- **The check of the parts in front of a tag** is that of the path that is seen. -/
theorem isNameValidBeforeTag_iff (s : List Char) :
    isNameValidBeforeTag count s ↔ Path (pathOf count s) := by
  obtain ⟨first, rest, hparts⟩ := List.exists_cons_of_ne_nil
    (List.splitOn_ne_nil SUB_NAME_DELIMITER s)
  simp only [isNameValidBeforeTag, pathOf, hparts, List.headD_cons, List.map_cons, Path]
  by_cases hroot : isRootNameValid count first
  · have hroot' := (isRootNameValid_iff count first).1 hroot
    have hfirst : isSubNameValid count first :=
      (isSubNameValid_iff count first).2 hroot'.subName
    simp only [hroot, hroot', Bool.not_true, Bool.false_eq_true, if_false, true_and,
      List.all_cons, hfirst, Bool.true_and, List.length_cons, List.mem_map,
      forall_exists_index, and_imp, forall_apply_eq_imp_iff₂, ← isSubNameValid_iff]
    cases rest with
    | nil => simp
    | cons second rest => simp
  · have hroot' : ¬ RootName (visible count first) := fun h =>
      hroot ((isRootNameValid_iff count first).2 h)
    simp [hroot, hroot']

theorem isAssetNameASubasset_eq {s : List Char} (h : Path (pathOf count s)) :
    isAssetNameASubasset count s = decide ((pathOf count s).length > 1) := by
  obtain ⟨first, rest, hparts⟩ := List.exists_cons_of_ne_nil
    (List.splitOn_ne_nil SUB_NAME_DELIMITER s)
  simp only [pathOf, hparts, List.map_cons, Path] at h
  have hroot := (isRootNameValid_iff count first).2 h.1
  simp [isAssetNameASubasset, pathOf, hparts, hroot]

/-- **What is accepted**, and with which type: a name that is seen as one in the grammar. -/
theorem isAssetNameValid_iff (name : List Char) (type : AssetType) :
    isAssetNameValid count name = (true, type) ↔
      count name ≤ MAX_NAME_LENGTH ∧ (seen count name).Valid ∧ (seen count name).type = type := by
  by_cases hlong : count name > MAX_NAME_LENGTH
  · have hinvalid : isAssetNameValid count name = (false, .INVALID) := by
      simp only [isAssetNameValid, hlong, if_true, ite_self]
    simp only [hinvalid, Prod.mk.injEq, Bool.false_eq_true, false_and, false_iff]
    omega
  · simp only [isAssetNameValid, hlong, if_false, Nat.not_lt.1 hlong, true_and, seen,
      isUniqueTagValid_eq_false, Bool.and_false, Bool.not_false, if_true]
    by_cases hunique : matched count UNIQUE_INDICATOR name
    · simp [hunique, Seen.Valid]
    · by_cases hchannel : matched count MSG_CHANNEL_INDICATOR name
      · simp only [hunique, hchannel, Seen.Valid, Seen.type, if_true, Bool.false_eq_true, if_false,
          ← isNameValidBeforeTag_iff, ← isChannelTagValid_iff]
        cases isNameValidBeforeTag count ((name.splitOn MSG_CHANNEL_TAG_DELIMITER).headD []) <;>
          cases isChannelTagValid count ((name.splitOn MSG_CHANNEL_TAG_DELIMITER).getLastD []) <;>
          simp
      · by_cases howner : matched count OWNER_INDICATOR name
        · simp only [hunique, hchannel, howner, Seen.Valid, Seen.type, if_true,
            Bool.false_eq_true, if_false, ← isNameValidBeforeTag_iff]
          cases isNameValidBeforeTag count (substring (count name - 1) name) <;> simp
        · simp only [hunique, hchannel, howner, Seen.Valid, Seen.type, Bool.false_eq_true,
            if_false]
          by_cases hpath : Path (pathOf count name)
          · have hvalid := (isNameValidBeforeTag_iff count name).2 hpath
            simp [hvalid, hpath, isAssetNameASubasset_eq count hpath]
          · have hinvalid : isNameValidBeforeTag count name = false :=
              Bool.eq_false_iff.2 fun h => hpath ((isNameValidBeforeTag_iff count name).1 h)
            simp [hinvalid, hpath]

/-! ## Names in the grammar -/

theorem Path.units {path : List (List ℕ)} (h : Path path) :
    ∀ u ∈ joined path, NameUnit u ∨ u = SUB_NAME_DELIMITER.toNat := by
  intro u hu
  rcases mem_intercalate hu with ⟨w, hw, hmem⟩ | hslash
  · exact Or.inl ((h.subName w hw).units u hmem)
  · exact Or.inr hslash

theorem Path.splitOn_joined {path : List (List ℕ)} (h : Path path) :
    (joined path).splitOn SUB_NAME_DELIMITER.toNat = path := by
  refine List.splitOn_intercalate _ (fun w hw hmem => ?_) ?_
  · have := (h.subName w hw).units _ hmem
    simp [NameUnit, Upper, Digit, Punctuation, SUB_NAME_DELIMITER] at this
  · rintro rfl
    exact h

theorem Path.joined_ne_nil {path : List (List ℕ)} (h : Path path) : joined path ≠ [] := by
  match path, h with
  | root :: subs, ⟨hroot, _⟩ =>
    intro hnil
    have hlong := hroot.1.long
    cases subs with
    | nil =>
      rw [joined, List.intercalate_singleton] at hnil
      rw [hnil] at hlong
      simp at hlong
    | cons sub subs =>
      rw [joined, List.intercalate_cons_cons] at hnil
      simp at hnil

theorem UniqueUnit.printable {u : ℕ} (h : UniqueUnit u) : 0x20 ≤ u ∧ u ≤ 0x7e := by
  have hmarks : ∀ v ∈ utf16 ['-', '@', '$', '%', '&', '*', '(', ')', '[', ']', '{', '}', '_', '.',
      '?', ':'], 0x20 ≤ v ∧ v ≤ 0x7e := by decide
  simp only [UniqueUnit, Upper, Lower, Digit, Char.reduceToNat] at h
  rcases h with h | h | h | h
  · omega
  · omega
  · omega
  · exact hmarks u h

theorem Path.printable {path : List (List ℕ)} (h : Path path) :
    ∀ u ∈ joined path, 0x20 ≤ u ∧ u ≤ 0x7e := by
  intro u hu
  rcases h.units u hu with hname | rfl
  · exact hname.printable
  · decide

/-- **A name in the grammar** has only ASCII characters. -/
theorem Form.printable {w : List ℕ} {type : AssetType} (h : Form w type) :
    ∀ u ∈ w, 0x20 ≤ u ∧ u ≤ 0x7e := by
  intro u hu
  cases h with
  | root h => exact h.printable u hu
  | sub h => exact h.printable u hu
  | unique h htag =>
    rcases List.mem_append.1 hu with hu | hu
    · exact h.printable u hu
    · rcases List.mem_cons.1 hu with rfl | hu
      · decide
      · exact (htag.2 u hu).printable
  | channel h htag =>
    rcases List.mem_append.1 hu with hu | hu
    · exact h.printable u hu
    · rcases List.mem_cons.1 hu with rfl | hu
      · decide
      · exact (htag.units u hu).printable
  | owner h =>
    rcases List.mem_append.1 hu with hu | hu
    · exact h.printable u hu
    · rw [List.mem_singleton.1 hu]
      decide

theorem mem_beforeTagSet (u : ℕ) :
    beforeTagSet.mem u ↔ u ≠ '^'.toNat ∧ u ≠ '~'.toNat ∧ u ≠ '#'.toNat ∧ u ≠ '!'.toNat := by
  simp only [beforeTagSet, CharSet.mem_compl, CharSet.mem_union, CharSet.mem_char,
    CharSet.mem_empty, Bool.false_eq_true, false_or, not_or]
  tauto

theorem mem_tagSet (u : ℕ) :
    tagSet.mem u ↔ u ≠ '~'.toNat ∧ u ≠ '#'.toNat ∧ u ≠ '!'.toNat ∧ u ≠ '/'.toNat := by
  simp only [tagSet, CharSet.mem_compl, CharSet.mem_union, CharSet.mem_char,
    CharSet.mem_empty, Bool.false_eq_true, false_or, not_or]
  tauto

theorem Path.beforeTag {path : List (List ℕ)} (h : Path path) :
    ∀ u ∈ joined path, beforeTagSet.mem u := by
  intro u hu
  have hunit := h.units u hu
  simp only [NameUnit, Upper, Digit, Punctuation, SUB_NAME_DELIMITER, Char.reduceToNat] at hunit
  simp only [mem_beforeTagSet, Char.reduceToNat]
  omega

theorem mem_of_spells_indicator {d : Char} {w : List ℕ} {rest : List Atom}
    (h : Spells (.rep beforeTagSet 1 :: .one (.char d) :: rest) w) : d.toNat ∈ w := by
  obtain ⟨a, _, rfl, -, -, u, b, rfl, hu, -⟩ := h
  rw [CharSet.mem_char] at hu
  simp [hu]

theorem Path.spells_indicator {path : List (List ℕ)} (h : Path path) {d : Char}
    {rest : List Atom} {tag : List ℕ} (htag : Spells rest tag) :
    Spells (.rep beforeTagSet 1 :: .one (.char d) :: rest) (joined path ++ d.toNat :: tag) :=
  ⟨joined path, _, rfl, List.length_pos_iff.2 h.joined_ne_nil, h.beforeTag,
    d.toNat, tag, rfl, (CharSet.mem_char d _).2 rfl, htag⟩

/-! ## Printable names -/

def Printable (s : List Char) : Prop := ∀ c ∈ s, ' ' ≤ c ∧ c ≤ '~'

theorem Printable.toNat {s : List Char} (h : Printable s) :
    ∀ c ∈ s, 0x20 ≤ c.toNat ∧ c.toNat ≤ 0x7e := fun c hc => h c hc

theorem utf16_eq_map {s : List Char} (h : Printable s) : utf16 s = s.map Char.toNat := by
  induction s with
  | nil => rfl
  | cons c s ih =>
    have hc := (h.toNat c List.mem_cons_self).2
    rw [utf16, List.flatMap_cons, if_pos (by omega), List.map_cons, List.singleton_append,
      ← ih fun d hd => h d (List.mem_cons_of_mem c hd)]
    rfl

/-- A string is printable if its units are. -/
theorem printable_of_utf16 {s : List Char} (h : ∀ u ∈ utf16 s, 0x20 ≤ u ∧ u ≤ 0x7e) :
    Printable s := by
  intro c hc
  by_cases hplane : c.toNat < 0x10000
  · exact h c.toNat (List.mem_flatMap.2 ⟨c, hc, by rw [if_pos hplane]; simp⟩)
  · have := (h _ (List.mem_flatMap.2 ⟨c, hc, by rw [if_neg hplane]; exact List.mem_cons_self⟩)).2
    omega

theorem substring_eq_take {s : List Char} (h : Printable s) (n : ℕ) :
    substring n s = s.take n := by
  induction s generalizing n with
  | nil => simp [substring]
  | cons c s ih =>
    cases n with
    | zero => rfl
    | succ n =>
      have hc := (h.toNat c List.mem_cons_self).2
      rw [substring, if_neg n.succ_ne_zero, if_pos (by omega), List.take_succ_cons,
        Nat.add_sub_cancel, ih fun d hd => h d (List.mem_cons_of_mem c hd)]

theorem utf16_splitOn {s : List Char} (h : Printable s) (c : Char) :
    (utf16 s).splitOn c.toNat = (s.splitOn c).map utf16 := by
  have hpieces : ∀ p ∈ s.splitOn c, utf16 p = p.map Char.toNat := fun p hp =>
    utf16_eq_map fun d hd => h d (mem_splitOn hp d hd).1
  rw [utf16_eq_map h, splitOn_map fun c d h => Char.toNat_inj.1 h, List.map_congr_left hpieces]

section
variable (hcount : ∀ s, Printable s → count s = s.length)
include hcount

theorem visible_eq {s : List Char} (h : Printable s) : visible count s = utf16 s := by
  have hunits := utf16_eq_map h
  rw [visible, region, hcount s h, hunits, List.take_of_length_le (by rw [List.length_map])]
  refine beforeBreak_eq_self fun u hu => ?_
  obtain ⟨c, hc, rfl⟩ := List.mem_map.1 hu
  have := h.toNat c hc
  simp only [CharSet.lineTerminator, CharSet.mem_union, CharSet.mem_range]
  omega

theorem pathOf_eq {s : List Char} (h : Printable s) :
    pathOf count s = (utf16 s).splitOn SUB_NAME_DELIMITER.toNat := by
  rw [utf16_splitOn h, pathOf]
  exact List.map_congr_left fun p hp =>
    visible_eq count hcount fun d hd => h d (mem_splitOn hp d hd).1

theorem matched_iff {pattern : Option (List (List Atom))} {branch : List Atom}
    (hpattern : pattern = some [anchored branch]) (hplain : plain branch) {s : List Char}
    (h : Printable s) : matched count pattern s ↔ Spells branch (utf16 s) := by
  have hvisible := visible_eq count hcount h
  have hregion : region count s = utf16 s := by
    rw [region, hcount s h, utf16_eq_map h, List.take_of_length_le (by rw [List.length_map])]
  rw [visible, hregion] at hvisible
  rw [hpattern, matched, Option.any_some, found_anchored hplain, hregion, hvisible, or_self]

theorem matched_eq_false {pattern : Option (List (List Atom))} {d : Char} {rest : List Atom}
    (hpattern : pattern = some [anchored (.rep beforeTagSet 1 :: .one (.char d) :: rest)])
    (hplain : plain rest) {s : List Char} (h : Printable s) (hd : d.toNat ∉ utf16 s) :
    matched count pattern s = false :=
  Bool.eq_false_iff.2 fun hmatched =>
    hd (mem_of_spells_indicator ((matched_iff count hcount hpattern hplain h).1 hmatched))

theorem seen_plain {name : List Char} {path : List (List ℕ)} (h : Path path)
    (hname : utf16 name = joined path) : seen count name = .plain path := by
  have hprintable : Printable name := printable_of_utf16 (hname ▸ h.printable)
  have hno : ∀ d : Char, ¬ beforeTagSet.mem d.toNat → d.toNat ∉ utf16 name := fun d hd hmem =>
    hd (h.beforeTag _ (hname ▸ hmem))
  have hunique := matched_eq_false count hcount UNIQUE_INDICATOR_eq rfl hprintable
    (hno '#' (by decide))
  have hchannel := matched_eq_false count hcount MSG_CHANNEL_INDICATOR_eq rfl hprintable
    (hno '~' (by decide))
  have howner := matched_eq_false count hcount OWNER_INDICATOR_eq rfl hprintable
    (hno '!' (by decide))
  simp only [seen, hunique, hchannel, howner, Bool.false_eq_true, if_false,
    pathOf_eq count hcount hprintable, hname, h.splitOn_joined]

theorem seen_channel {name : List Char} {path : List (List ℕ)} {tag : List ℕ} (h : Path path)
    (htag : ChannelTag tag)
    (hname : utf16 name = joined path ++ MSG_CHANNEL_TAG_DELIMITER.toNat :: tag) :
    seen count name = .channel path tag := by
  have hprintable : Printable name :=
    printable_of_utf16 (hname ▸ (Form.channel h htag).printable)
  have htagUnits : ∀ u ∈ tag, tagSet.mem u ∧ u ≠ '~'.toNat ∧ u ≠ '#'.toNat := by
    intro u hu
    have hunit := htag.units u hu
    simp only [ChannelUnit, Upper, Lower, Digit, Char.reduceToNat] at hunit
    simp only [mem_tagSet, Char.reduceToNat]
    omega
  have hno : '#'.toNat ∉ utf16 name := by
    rw [hname, List.mem_append, List.mem_cons]
    rintro (hmem | hmem | hmem)
    · exact absurd (h.beforeTag _ hmem) (by decide)
    · exact absurd hmem (by decide)
    · exact (htagUnits _ hmem).2.2 rfl
  have hunique := matched_eq_false count hcount UNIQUE_INDICATOR_eq rfl hprintable hno
  have hchannel : matched count MSG_CHANNEL_INDICATOR name := by
    rw [matched_iff count hcount MSG_CHANNEL_INDICATOR_eq rfl hprintable, hname]
    exact h.spells_indicator ((spells_rep ..).2 ⟨htag.long, fun u hu => (htagUnits u hu).1⟩)
  have hparts : (name.splitOn MSG_CHANNEL_TAG_DELIMITER).map utf16 = [joined path, tag] := by
    rw [← utf16_splitOn hprintable, hname, List.splitOn_append_cons_self_of_not_mem,
      List.splitOn_eq_singleton]
    · exact fun hmem => (htagUnits _ hmem).2.1 rfl
    · exact fun hmem => absurd (h.beforeTag _ hmem) (by decide)
  obtain ⟨base, rest, hsplit, hbase, hrest⟩ := List.map_eq_cons_iff.1 hparts
  obtain ⟨last, hsplit', hlast⟩ := List.map_eq_singleton_iff.1 hrest
  rw [hsplit'] at hsplit
  have hpieces : ∀ piece ∈ [base, last], Printable piece := fun piece hpiece c hc =>
    hprintable c (mem_splitOn (hsplit ▸ hpiece) c hc).1
  simp only [seen, hunique, hchannel, Bool.false_eq_true, if_false, if_true, hsplit,
    List.headD_cons, List.getLastD_cons, List.getLastD_nil,
    pathOf_eq count hcount (hpieces base (by simp)),
    visible_eq count hcount (hpieces last (by simp)), hbase, hlast, h.splitOn_joined]

theorem seen_of_owner {name : List Char} (h : Printable name)
    (hspells : Spells [.rep beforeTagSet 1, .one (.char '!')] (utf16 name)) :
    seen count name = .owner ((utf16 name).dropLast.splitOn SUB_NAME_DELIMITER.toNat) := by
  have howner := (matched_iff count hcount OWNER_INDICATOR_eq rfl h).2 hspells
  obtain ⟨base, _, hname, -, hbase, mark, _, rfl, hmark, rfl⟩ := hspells
  rw [CharSet.mem_char] at hmark
  subst hmark
  have hno : ∀ d : Char, ¬ beforeTagSet.mem d.toNat → d ≠ '!' → d.toNat ∉ utf16 name := by
    intro d hd hne
    rw [hname, List.mem_append, List.mem_singleton]
    rintro (hmem | hmem)
    · exact hd (hbase _ hmem)
    · exact hne (Char.toNat_inj.1 hmem)
  have hunique := matched_eq_false count hcount UNIQUE_INDICATOR_eq rfl h
    (hno '#' (by decide) (by decide))
  have hchannel := matched_eq_false count hcount MSG_CHANNEL_INDICATOR_eq rfl h
    (hno '~' (by decide) (by decide))
  have hfront : Printable name.dropLast := fun c hc => h c (List.mem_of_mem_dropLast hc)
  have hsubstring : substring (count name - 1) name = name.dropLast := by
    rw [substring_eq_take h, hcount name h, List.dropLast_eq_take]
  have hunits : utf16 name.dropLast = (utf16 name).dropLast := by
    rw [utf16_eq_map hfront, List.map_dropLast, ← utf16_eq_map h]
  simp only [seen, hunique, hchannel, howner, Bool.false_eq_true, if_false, if_true, hsubstring,
    pathOf_eq count hcount hfront, hunits]

theorem seen_owner {name : List Char} {path : List (List ℕ)} (h : Path path)
    (hname : utf16 name = joined path ++ ['!'.toNat]) : seen count name = .owner path := by
  have hprintable : Printable name := printable_of_utf16 (hname ▸ (Form.owner h).printable)
  have hspells : Spells [.rep beforeTagSet 1, .one (.char '!')] (utf16 name) :=
    hname ▸ h.spells_indicator rfl
  rw [seen_of_owner count hcount hprintable hspells, hname, List.dropLast_concat,
    h.splitOn_joined]

/-- **A name in the grammar** is seen as what it is, if it is not that of a unique asset. -/
theorem seen_of_form {name : List Char} {type : AssetType} (h : Form (utf16 name) type)
    (htype : type ≠ .UNIQUE) :
    (seen count name).Valid ∧ (seen count name).type = type ∧
      (seen count name).text = utf16 name := by
  generalize hname : utf16 name = w at h
  cases h with
  | root h =>
    rw [seen_plain count hcount h hname]
    exact ⟨h, rfl, rfl⟩
  | sub h hsub =>
    rw [seen_plain count hcount h hname]
    exact ⟨h, if_pos hsub, rfl⟩
  | unique => exact absurd rfl htype
  | channel h htag =>
    rw [seen_channel count hcount h htag hname]
    exact ⟨⟨h, htag⟩, rfl, rfl⟩
  | owner h =>
    rw [seen_owner count hcount h hname]
    exact ⟨h, rfl, rfl⟩

/-- **The names that are judged by the grammar**: a name is accepted, and with its type, just if it
    is in the grammar, if it is not the name of a unique asset and if it is not another name that
    the checks see in it.  Swift counts the characters of a printable string one by one. -/
theorem assetName_iff (name : List Char) :
    (∀ type, isAssetNameValid count name = (true, type) ↔ Grammar count name type) ↔
      ¬ Grammar count name .UNIQUE ∧
        (count name ≤ MAX_NAME_LENGTH → (seen count name).Valid →
          (seen count name).text = utf16 name) := by
  constructor
  · intro hjudged
    constructor
    · intro hunique
      obtain ⟨-, hvalid, htype⟩ :=
        (isAssetNameValid_iff count name .UNIQUE).1 ((hjudged .UNIQUE).2 hunique)
      exact Seen.type_ne_unique hvalid htype
    · intro hcountName hvalid
      have haccepted := (isAssetNameValid_iff count name _).2 ⟨hcountName, hvalid, rfl⟩
      have hgrammar := (hjudged _).1 haccepted
      exact (seen_of_form count hcount hgrammar.2 (Seen.type_ne_unique hvalid)).2.2
  · rintro ⟨hunique, hseen⟩ type
    rw [isAssetNameValid_iff]
    constructor
    · rintro ⟨hcountName, hvalid, rfl⟩
      refine ⟨hcountName, ?_⟩
      rw [← hseen hcountName hvalid]
      exact Seen.form hvalid
    · rintro ⟨hcountName, hform⟩
      have htype : type ≠ .UNIQUE := by
        rintro rfl
        exact hunique ⟨hcountName, hform⟩
      obtain ⟨hvalid, hsame, -⟩ := seen_of_form count hcount hform htype
      exact ⟨hcountName, hvalid, hsame⟩

/-- **The names of owners**, among printable strings. -/
theorem isAssetNameAnOwner_iff {name : List Char} (h : Printable name) :
    isAssetNameAnOwner count name ↔
      name.length ≤ MAX_NAME_LENGTH ∧
        Path ((utf16 name).dropLast.splitOn SUB_NAME_DELIMITER.toNat) ∧
          Spells [.rep beforeTagSet 1, .one (.char '!')] (utf16 name) := by
  have hvalid : (isAssetNameValid count name).1 ↔
      ∃ type, isAssetNameValid count name = (true, type) := by
    constructor
    · intro h
      exact ⟨_, Prod.ext h rfl⟩
    · rintro ⟨type, h⟩
      rw [h]
  rw [isAssetNameAnOwner, Bool.and_eq_true, hvalid,
    matched_iff count hcount OWNER_INDICATOR_eq rfl h]
  simp only [isAssetNameValid_iff, hcount name h]
  constructor
  · rintro ⟨⟨type, hlong, hseen, -⟩, hspells⟩
    rw [seen_of_owner count hcount h hspells] at hseen
    exact ⟨hlong, hseen, hspells⟩
  · rintro ⟨hlong, hpath, hspells⟩
    rw [seen_of_owner count hcount h hspells]
    exact ⟨⟨.OWNER, hlong, hpath, rfl⟩, hspells⟩

end

/-! ## Names without punctuation -/

theorem part_of_no_punctuation {P : ℕ → Prop} {min : ℕ} {w : List ℕ} (hlong : min ≤ w.length)
    (hunits : ∀ u ∈ w, P u) (hno : ∀ u ∈ w, ¬ Punctuation u) : Part P min w where
  long := hlong
  units := hunits
  adjacent u _ hwithin hu := absurd hu (hno u (hwithin.subset List.mem_cons_self))
  leading u hu := hno u (List.mem_of_mem_head? hu)
  trailing u hu := hno u (List.mem_of_mem_getLast? hu)

theorem path_ABC : Path [utf16 ['A', 'B', 'C']] :=
  ⟨⟨part_of_no_punctuation (by decide) (by decide) (by decide), by decide⟩, nofun⟩

theorem Form.mem_of_unique {w : List ℕ} (h : Form w .UNIQUE) : UNIQUE_TAG_DELIMITER.toNat ∈ w := by
  cases h
  simp

/-- The name of a root asset is judged by the grammar, and accepted. -/
theorem assetName_iff_root :
    (∀ type, isAssetNameValid List.length ['A', 'B', 'C'] = (true, type) ↔
      Grammar List.length ['A', 'B', 'C'] type) ∧
    isAssetNameValid List.length ['A', 'B', 'C'] = (true, .ROOT) := by
  have hjudged := (assetName_iff List.length (fun _ _ => rfl) ['A', 'B', 'C']).2
  have hseen : ∀ type, isAssetNameValid List.length ['A', 'B', 'C'] = (true, type) ↔
      Grammar List.length ['A', 'B', 'C'] type := by
    refine hjudged ⟨?_, ?_⟩
    · rintro ⟨-, hform⟩
      exact absurd hform.mem_of_unique (by decide)
    · intro _ _
      rw [seen_plain List.length (fun _ _ => rfl) path_ABC rfl]
      rfl
  exact ⟨hseen, (hseen .ROOT).2 ⟨by decide, Form.root path_ABC⟩⟩

/-- The name of a unique asset is refused. -/
theorem not_assetName :
    isAssetNameValid List.length "ABC#TAG".toList ≠ (true, .UNIQUE) ∧
      Grammar List.length "ABC#TAG".toList .UNIQUE := by
  constructor
  · intro haccepted
    obtain ⟨-, hvalid, htype⟩ := (isAssetNameValid_iff List.length _ _).1 haccepted
    exact Seen.type_ne_unique hvalid htype
  · have htag : UniqueTag (utf16 ['T', 'A', 'G']) := ⟨by decide, by decide⟩
    exact ⟨by decide, Form.unique path_ABC htag⟩

/-! ## The names of the database -/

section
variable (w : Bytes)

theorem isPunctuation_iff (b : UInt8) :
    AssetValidator.isPunctuation b ↔ Punctuation b.toNat := by
  simp [AssetValidator.isPunctuation, AssetValidator.codes, Punctuation, ← UInt8.toNat_inj]

theorem isNameCharacter_iff (b : UInt8) :
    AssetValidator.isNameCharacter b ↔ NameUnit b.toNat := by
  simp only [AssetValidator.isNameCharacter, Bool.or_eq_true, isPunctuation_iff, NameUnit]
  simp [AssetValidator.isUpper, AssetValidator.isDigit, Upper, Digit, UInt8.le_iff_toNat_le,
    or_assoc]

theorem mem_zip_tail {α : Type} {a b : α} {l : List α} :
    (a, b) ∈ l.zip l.tail ↔ [a, b] <:+: l := by
  induction l with
  | nil => simp
  | cons x l ih =>
    rw [List.infix_cons_iff, List.cons_prefix_cons]
    cases l with
    | nil => simp
    | cons y l =>
      rw [List.tail_cons, List.zip_cons_cons, List.mem_cons, Prod.mk.injEq]
      rw [List.tail_cons] at ih
      rw [ih, List.cons_prefix_cons]
      simp

theorem punctuated_iff :
    AssetValidator.punctuated w ↔
      (∀ u v, [u, v] <:+: w.map UInt8.toNat → Punctuation u → ¬ Punctuation v) ∧
        (∀ u ∈ (w.map UInt8.toNat).head?, ¬ Punctuation u) ∧
          ∀ u ∈ (w.map UInt8.toNat).getLast?, ¬ Punctuation u := by
  have hpunctuated : AssetValidator.punctuated w =
      (!((w.zip w.tail).any fun pair =>
          AssetValidator.isPunctuation pair.1 && AssetValidator.isPunctuation pair.2) &&
        !(w.head?.any AssetValidator.isPunctuation) &&
        !(w.getLast?.any AssetValidator.isPunctuation)) := rfl
  have hadjacent : ((w.zip w.tail).any fun pair =>
      AssetValidator.isPunctuation pair.1 && AssetValidator.isPunctuation pair.2) = false ↔
        ∀ u v, [u, v] <:+: w.map UInt8.toNat → Punctuation u → ¬ Punctuation v := by
    rw [List.any_eq_false]
    constructor
    · intro hno u v hwithin hu hv
      obtain ⟨pair, hpair, heq⟩ := List.infix_map_iff.1 hwithin
      obtain ⟨a, rest, rfl, rfl, hrest⟩ := List.map_eq_cons_iff.1 heq.symm
      obtain ⟨b, rfl, rfl⟩ := List.map_eq_singleton_iff.1 hrest
      refine hno (a, b) (mem_zip_tail.2 hpair) ?_
      rw [Bool.and_eq_true, isPunctuation_iff, isPunctuation_iff]
      exact ⟨hu, hv⟩
    · rintro hno ⟨a, b⟩ hmem hmarks
      simp only [Bool.and_eq_true, isPunctuation_iff] at hmarks
      exact hno _ _ ((mem_zip_tail.1 hmem).map UInt8.toNat) hmarks.1 hmarks.2
  have hmark (o : Option UInt8) : o.any AssetValidator.isPunctuation = false ↔
      ∀ u ∈ o.map UInt8.toNat, ¬ Punctuation u := by
    cases o with
    | none => simp
    | some b => simp [← isPunctuation_iff]
  simp only [hpunctuated, Bool.and_eq_true, Bool.not_eq_true', hadjacent, hmark,
    List.head?_map, List.getLast?_map, and_assoc]

theorem part_iff (min : ℕ) :
    (AssetValidator.repeats AssetValidator.isNameCharacter min w && AssetValidator.punctuated w) ↔
      Part NameUnit min (w.map UInt8.toNat) := by
  simp only [AssetValidator.repeats, Bool.and_eq_true, decide_eq_true_eq, List.all_eq_true,
    isNameCharacter_iff, punctuated_iff]
  constructor
  · rintro ⟨⟨hlong, hunits⟩, hadjacent, hleading, htrailing⟩
    exact ⟨by simpa using hlong, by simpa using hunits, hadjacent, hleading, htrailing⟩
  · intro h
    exact ⟨⟨by simpa using h.long, by simpa using h.units⟩, h.adjacent, h.leading, h.trailing⟩

theorem rootName_iff : AssetValidator.isRootNameValid w ↔ RootName (w.map UInt8.toNat) := by
  have hnames : ravenNames = AssetValidator.ravenNames.map (List.map UInt8.toNat) := by decide
  have hinj : Function.Injective (List.map UInt8.toNat) :=
    List.map_injective_iff.2 fun a b h => UInt8.toNat_inj.1 h
  rw [AssetValidator.isRootNameValid, Bool.and_eq_true, part_iff, RootName, hnames,
    List.mem_map_of_injective hinj]
  simp

/-- **The byte strings of the database**: their names are the paths of the grammar. -/
theorem path_iff :
    AssetValidator.isNameValidBeforeTag w ↔
      Path ((w.map UInt8.toNat).splitOn SUB_NAME_DELIMITER.toNat) := by
  have hsplit : (w.map UInt8.toNat).splitOn SUB_NAME_DELIMITER.toNat =
      (w.splitOn 0x2f).map (List.map UInt8.toNat) :=
    splitOn_map (fun a b h => UInt8.toNat_inj.1 h) 0x2f w
  obtain ⟨first, rest, hparts⟩ := List.exists_cons_of_ne_nil (List.splitOn_ne_nil 0x2f w)
  rw [hsplit, hparts, AssetValidator.isNameValidBeforeTag, hparts]
  simp only [List.headD_cons, List.map_cons, Path, Bool.and_eq_true, rootName_iff]
  refine and_congr_right fun hroot => ?_
  have hfirst : AssetValidator.isSubNameValid first := (part_iff first 1).2 hroot.subName
  have hsub (piece : Bytes) : AssetValidator.isSubNameValid piece ↔
      SubName (piece.map UInt8.toNat) := part_iff piece 1
  cases rest with
  | nil => simp
  | cons second rest => simp [hfirst, hsub]

theorem ownerIndicator_iff :
    AssetValidator.ownerIndicator w ↔
      Spells [.rep beforeTagSet 1, .one (.char '!')] (w.map UInt8.toNat) := by
  have hbefore (b : UInt8) : AssetValidator.isBeforeTag b ↔ beforeTagSet.mem b.toNat := by
    rw [mem_beforeTagSet]
    simp [AssetValidator.isBeforeTag, AssetValidator.codes, ← UInt8.toNat_inj]
  simp only [AssetValidator.ownerIndicator, AssetValidator.repeats, Bool.and_eq_true,
    decide_eq_true_eq, List.all_eq_true, hbefore]
  constructor
  · rintro ⟨hlast, hlong, hbase⟩
    obtain ⟨base, rfl⟩ := List.getLast?_eq_some_iff.1 hlast
    rw [List.dropLast_concat] at hlong hbase
    refine ⟨base.map UInt8.toNat, ['!'.toNat], by simp, by simpa using hlong, ?_, ?_⟩
    · simpa using hbase
    · exact ⟨_, [], rfl, (CharSet.mem_char '!' _).2 rfl, rfl⟩
  · rintro ⟨base, _, hw, hlong, hbase, mark, _, rfl, hmark, rfl⟩
    obtain ⟨front, last, rfl, rfl, hlast⟩ := List.map_eq_append_iff.1 hw
    obtain ⟨b, rfl, rfl⟩ := List.map_eq_singleton_iff.1 hlast
    have hb : b = 0x21 := UInt8.toNat_inj.1 ((CharSet.mem_char '!' _).1 hmark)
    rw [List.dropLast_concat]
    exact ⟨by rw [List.getLast?_concat, hb], by simpa using hlong, by simpa using hbase⟩

/-- **The names of owners in the database** are the names of owners. -/
theorem isAssetNameAnOwner_codes (hcount : ∀ s, Printable s → count s = s.length)
    {name : List Char} (h : Printable name) :
    AssetValidator.isAssetNameAnOwner (AssetValidator.codes name) =
      isAssetNameAnOwner count name := by
  have hcodes : (AssetValidator.codes name).map UInt8.toNat = utf16 name := by
    rw [utf16_eq_map h, AssetValidator.codes, List.map_map]
    refine List.map_congr_left fun c hc => ?_
    have hlt := (h.toNat c hc).2
    rw [Function.comp_apply, UInt8.toNat_ofNat_of_lt' (by simp only [UInt8.size]; omega)]
  rw [Bool.eq_iff_iff, isAssetNameAnOwner_iff count hcount h, AssetValidator.isAssetNameAnOwner,
    Bool.and_eq_true, Bool.and_eq_true, decide_eq_true_eq, path_iff, ownerIndicator_iff,
    List.map_dropLast, hcodes, and_assoc, AssetValidator.codes, List.length_map]
  rfl

end

end AssetNames

end RavenWallet
