/-
  Which scripts pay to the hash of a public key (`BRAddressFromScriptPubKey` of
  BRAddress.c).

  A script has such an address if it is the template, or the template and three
  elements behind it, whatever they are; or if it pays to the public key itself.

  * `isP2PKH_fromScriptPubKey`: which scripts have such an address;
  * `receivesStrictly_iff`: when a script with such an address is the template,
    alone or before asset data.
-/
import RavenWallet.Core.AssetScripts

namespace RavenWallet

/-- The opcodes of the elements of a script. -/
def scriptOps (script : Bytes) : Bytes := (scriptElements script).map fun e => e.headD 0

/-- A single element that pushes data. -/
def IsPush (push : Bytes) : Prop :=
  ∃ op data, push = op :: data ∧ op ≤ OP_PUSHDATA4 ∧
    (elementSize op data).1 + (elementSize op data).2 = data.length

namespace BRAddress

/-- The opcodes of the template. -/
def p2pkhOps : Bytes := [OP_DUP, OP_HASH160, 20, OP_EQUALVERIFY, OP_CHECKSIG]

/-- The template, alone or before the data of an asset. -/
def IsTemplate (script : Bytes) : Prop :=
  ∃ h20 : Bytes, h20.length = 20 ∧ (script = p2pkh h20 ∨
    ∃ push, IsPush push ∧ script = p2pkh h20 ++ OP_RVN_ASSET :: (push ++ [OP_DROP]))

/-- A script is paid to the hash of a public key only if it is the template. -/
def ReceivesStrictly (H : Hashes) (script : Bytes) : Prop :=
  IsP2PKH H (fromScriptPubKey H script) → IsTemplate script

/-- The three elements behind the template are those of an asset. -/
def AssetOps (ops : Bytes) : Prop :=
  ∃ op, op ≤ OP_PUSHDATA4 ∧ ops = [OP_RVN_ASSET, op, OP_DROP]

/-- Behind the template there are no three elements other than those of an asset, and the script
    does not pay to a public key. -/
def StrictOps (script : Bytes) : Prop :=
  script.length ≤ MAX_SCRIPT_LENGTH →
    (∀ ops, scriptOps script = p2pkhOps ++ ops → ops.length = 3 → AssetOps ops) ∧
    scriptOps script ≠ [65, OP_CHECKSIG] ∧ scriptOps script ≠ [33, OP_CHECKSIG]

/-! ## Elements -/

section
variable {H : Hashes} {script h20 ops : Bytes} {elems : List Bytes} {fuel : ℕ}

theorem elements_of_ops (h : scriptOps script ≠ []) :
    ∃ elems, elements script.length script = some elems ∧
      scriptElements script = elems ∧ elems.map (fun e => e.headD 0) = scriptOps script := by
  rw [scriptOps, scriptElements] at *
  cases helems : elements script.length script with
  | none =>
    rw [helems] at h
    exact absurd rfl h
  | some elems => exact ⟨elems, rfl, rfl, rfl⟩

/-- An opcode without data. -/
theorem elements_head_op {op : UInt8} (hop : op > OP_PUSHDATA4)
    (h : elements fuel script = some elems)
    (hops : elems.map (fun e => e.headD 0) = op :: ops) :
    ∃ rest elems' fuel', script = op :: rest ∧ elems = (op :: rest) :: elems' ∧
      elements fuel' rest = some elems' ∧ elems'.map (fun e => e.headD 0) = ops := by
  obtain ⟨rest, elems', fuel', rfl, rfl, -, helems, hrest⟩ := elements_head h hops
  rw [elementSize_op hop] at helems
  exact ⟨rest, elems', fuel', rfl, rfl, helems, hrest⟩

/-- A script with the opcodes of the template starts with it. -/
theorem p2pkh_of_ops (h : elements fuel script = some elems)
    (hops : elems.map (fun e => e.headD 0) = p2pkhOps ++ ops) :
    ∃ h20 rest elems' fuel', h20.length = 20 ∧ script = p2pkh h20 ++ rest ∧
      elements fuel' rest = some elems' ∧ elems'.map (fun e => e.headD 0) = ops := by
  obtain ⟨r₁, e₁, f₁, rfl, -, h₁, o₁⟩ := elements_head_op (by decide) h hops
  obtain ⟨r₂, e₂, f₂, rfl, -, h₂, o₂⟩ := elements_head_op (by decide) h₁ o₁
  obtain ⟨r₃, e₃, f₃, rfl, -, hfits, h₃, o₃⟩ := elements_head h₂ o₂
  have hsize : elementSize 20 r₃ = (0, 20) := elementSize_push (n := 20) (by decide) r₃
  rw [hsize] at hfits h₃
  obtain ⟨r₄, e₄, f₄, hr₄, -, h₄, o₄⟩ := elements_head_op (by decide) h₃ o₃
  obtain ⟨rest, elems', f₅, rfl, -, h₅, o₅⟩ := elements_head_op (by decide) h₄ o₄
  have hlen : (r₃.take 20).length = 20 := List.length_take_of_le (by omega)
  refine ⟨r₃.take 20, rest, elems', f₅, hlen, ?_, h₅, o₅⟩
  have hsplit : r₃.take 20 ++ r₃.drop (0 + 20) = r₃ := List.take_append_drop 20 r₃
  rw [hr₄] at hsplit
  have happend : p2pkh (r₃.take 20) ++ rest = OP_DUP :: OP_HASH160 :: 20 ::
      (r₃.take 20 ++ OP_EQUALVERIFY :: OP_CHECKSIG :: rest) := by simp [p2pkh]
  rw [happend, hsplit]

theorem elementSize_fst (op : UInt8) (rest rest' : Bytes) :
    (elementSize op rest).1 = (elementSize op rest').1 := by
  unfold elementSize
  split_ifs <;> rfl

/-- The size is in the bytes of the length. -/
theorem elementSize_take {op : UInt8} {rest : Bytes} {n : ℕ} (h : (elementSize op rest).1 ≤ n) :
    elementSize op (rest.take n) = elementSize op rest := by
  unfold elementSize at h ⊢
  split_ifs at h ⊢
  · rw [List.take_take, Nat.min_eq_left h]
  · rw [List.take_take, Nat.min_eq_left h]
  · rw [List.take_take, Nat.min_eq_left h]
  · rfl
  · rfl

theorem elements_eq_nil (h : elements fuel script = some []) : script = [] := by
  cases script with
  | nil => rfl
  | cons op rest =>
    cases fuel with
    | zero => cases h
    | succ fuel =>
      simp only [elements, Option.bind_eq_bind] at h
      split_ifs at h
      obtain ⟨elems, -, he⟩ := Option.bind_eq_some_iff.1 h
      cases he

/-- Three elements with the opcodes of an asset. -/
theorem asset_of_ops {op : UInt8} (hop : op ≤ OP_PUSHDATA4)
    (h : elements fuel script = some elems)
    (hops : elems.map (fun e => e.headD 0) = [OP_RVN_ASSET, op, OP_DROP]) :
    ∃ push, IsPush push ∧ script = OP_RVN_ASSET :: (push ++ [OP_DROP]) := by
  obtain ⟨r₁, e₁, f₁, rfl, -, h₁, o₁⟩ := elements_head_op (by decide) h hops
  obtain ⟨r₂, e₂, f₂, rfl, -, hfits, h₂, o₂⟩ := elements_head h₁ o₁
  obtain ⟨r₃, e₃, f₃, hr₃, -, h₃, o₃⟩ := elements_head_op (by decide) h₂ o₂
  obtain rfl : e₃ = [] := List.map_eq_nil_iff.1 o₃
  obtain rfl := elements_eq_nil h₃
  have hsplit := List.take_append_drop ((elementSize op r₂).1 + (elementSize op r₂).2) r₂
  rw [hr₃] at hsplit
  refine ⟨op :: r₂.take ((elementSize op r₂).1 + (elementSize op r₂).2),
    ⟨op, _, rfl, hop, ?_⟩, ?_⟩
  · rw [elementSize_take (Nat.le_add_right _ _), List.length_take_of_le hfits]
  · rw [List.cons_append, hsplit]

/-- The elements of the template, alone or before the data of an asset. -/
theorem scriptOps_template (h : IsTemplate script) :
    scriptOps script = p2pkhOps ∨ ∃ ops, AssetOps ops ∧ scriptOps script = p2pkhOps ++ ops := by
  have hfrom : ∀ {h20 rest : Bytes} {elems : List Bytes} {fuel : ℕ}, h20.length = 20 →
      elements fuel rest = some elems → fuel ≤ rest.length →
      scriptOps (p2pkh h20 ++ rest) = p2pkhOps ++ elems.map fun e => e.headD 0 := by
    intro h20 rest elems fuel hlen helems hle
    have hlength : (p2pkh h20 ++ rest).length = 25 + rest.length := by
      rw [List.length_append, length_p2pkh hlen]
    rw [scriptOps, scriptElements_eq (by omega) (elements_p2pkh hlen helems), List.map_append]
    rfl
  obtain ⟨h20, hlen, rfl | ⟨push, ⟨op, data, rfl, hop, hsize⟩, rfl⟩⟩ := h
  · refine Or.inl ?_
    have hnil : elements 0 [] = some [] := rfl
    have hops := hfrom hlen hnil (Nat.zero_le _)
    rwa [List.append_nil] at hops
  · refine Or.inr ⟨[OP_RVN_ASSET, op, OP_DROP], ⟨op, hop, rfl⟩, ?_⟩
    have hdrop : elements 1 [OP_DROP] = some [[OP_DROP]] := elements_op (by decide) rfl
    have hdata : (data ++ [OP_DROP]).take data.length = data := List.take_left
    have hpush : elementSize op (data ++ [OP_DROP]) = elementSize op data := by
      have hle : (elementSize op (data ++ [OP_DROP])).1 ≤ data.length := by
        rw [elementSize_fst op _ data]
        omega
      rw [← elementSize_take hle, hdata]
    have helems : elements 2 (op :: (data ++ [OP_DROP])) =
        some [op :: (data ++ [OP_DROP]), [OP_DROP]] := by
      cases hs : elementSize op data with
      | mk n len =>
        rw [hs] at hsize
        refine elements_cons (hpush.trans hs) ?_ ?_
        · rw [hsize, List.length_append]
          exact Nat.le_add_right _ _
        · rw [hsize, List.drop_left]
          exact hdrop
    have hop : OP_RVN_ASSET > OP_PUSHDATA4 := by decide
    have hasset := elements_op hop helems
    have hops := hfrom hlen hasset (by
      rw [List.length_cons, List.length_cons, List.length_append, List.length_singleton]
      omega)
    exact hops

/-! ## Addresses -/

/-- Hashes of public keys and of scripts have different addresses. -/
theorem isP2PKH_encode {v : UInt8} (hv : v ≠ 0) (hlen : h20.length = 20) :
    IsP2PKH H (base58CheckEncode H ADDRESS_SIZE (v :: h20)) ↔ v = RAVENCOIN_PUBKEY_ADDRESS := by
  have hdecode : decode H (base58CheckEncode H ADDRESS_SIZE (v :: h20)) = v :: h20 :=
    base58CheckDecode_encode H hv (by rw [List.length_cons, hlen]) (by rw [hlen]; decide)
  rw [IsP2PKH, isValid, hdecode, List.headD_cons]
  constructor
  · rintro ⟨-, h⟩
    exact h
  · rintro rfl
    have hlength : (RAVENCOIN_PUBKEY_ADDRESS :: h20).length = 21 := by rw [List.length_cons, hlen]
    rw [hlength]
    exact ⟨rfl, rfl⟩

theorem not_isP2PKH_nil : ¬ IsP2PKH H [] := by
  rintro ⟨h, -⟩
  have hno : isValid H [] = false := rfl
  exact Bool.false_ne_true (hno.symm.trans h)

/-- The scripts with the address of the hash of a public key. -/
def PaysKeyHash (script : Bytes) : Prop :=
  script ≠ [] ∧ script.length ≤ MAX_SCRIPT_LENGTH ∧
    ((∃ ops, scriptOps script = p2pkhOps ++ ops ∧ (ops.length = 0 ∨ ops.length = 3)) ∨
      scriptOps script = [65, OP_CHECKSIG] ∨ scriptOps script = [33, OP_CHECKSIG])

/-- The data of the third element of the template. -/
theorem p2pkh_data (h : scriptOps script = p2pkhOps ++ ops) :
    (((scriptElements script)[2]?.bind scriptData).getD []).length = 20 := by
  have hne : scriptOps script ≠ [] := by
    rw [h]
    exact List.cons_ne_nil _ _
  obtain ⟨elems, helems, hscript, hops⟩ := elements_of_ops hne
  rw [h] at hops
  obtain ⟨h20, rest, elems', fuel', hlen, rfl, hrest, -⟩ := p2pkh_of_ops helems hops
  obtain rfl := elements_unique helems (elements_p2pkh hlen hrest)
  rw [hscript]
  change ((scriptData (20 :: (h20 ++ _))).getD []).length = 20
  rw [scriptData_hash hlen]
  exact hlen

/-- The data of the second element of a script that pays to the hash of a script. -/
theorem p2sh_data (h : scriptOps script = [OP_HASH160, 20, OP_EQUAL]) :
    (((scriptElements script)[1]?.bind scriptData).getD []).length = 20 := by
  have hne : scriptOps script ≠ [] := by
    rw [h]
    exact List.cons_ne_nil _ _
  obtain ⟨elems, helems, hscript, hops⟩ := elements_of_ops hne
  rw [h] at hops
  obtain ⟨r₁, e₁, f₁, rfl, rfl, h₁, o₁⟩ := elements_head_op (by decide) helems hops
  obtain ⟨r₂, e₂, f₂, rfl, rfl, hfits, -, -⟩ := elements_head h₁ o₁
  have hsize : elementSize 20 r₂ = (0, 20) := elementSize_push (n := 20) (by decide) r₂
  rw [hsize] at hfits
  have hlen : (r₂.take 20).length = 20 := List.length_take_of_le (by omega)
  have hdata := scriptData_hash hlen (r₂.drop 20)
  rw [List.take_append_drop] at hdata
  rw [hscript]
  change ((scriptData (20 :: r₂)).getD []).length = 20
  rw [hdata]
  exact hlen

/-- The first five opcodes, and none or three behind them. -/
theorem take_p2pkhOps {ops : Bytes} :
    (ops.length = 5 ∨ ops.length = 8) ∧ ops.take 5 = p2pkhOps ↔
      ∃ ops', ops = p2pkhOps ++ ops' ∧ (ops'.length = 0 ∨ ops'.length = 3) := by
  constructor
  · rintro ⟨hlen, htake⟩
    refine ⟨ops.drop 5, ?_, ?_⟩
    · rw [← htake, List.take_append_drop]
    · rw [List.length_drop]
      omega
  · rintro ⟨ops', rfl, hlen⟩
    have hfive : p2pkhOps.length = 5 := rfl
    refine ⟨?_, List.take_left' hfive⟩
    rw [List.length_append, hfive]
    omega

theorem fromScriptPubKey_eq (hne : ¬ (script = [] ∨ script.length > MAX_SCRIPT_LENGTH)) :
    fromScriptPubKey H script =
      if ((scriptOps script).length = 5 ∨ (scriptOps script).length = 8) ∧
          (scriptOps script).take 5 = p2pkhOps then
        base58CheckEncode H ADDRESS_SIZE
          (RAVENCOIN_PUBKEY_ADDRESS :: ((scriptElements script)[2]?.bind scriptData).getD [])
      else if scriptOps script = [OP_HASH160, 20, OP_EQUAL] then
        base58CheckEncode H ADDRESS_SIZE
          (RAVENCOIN_SCRIPT_ADDRESS :: ((scriptElements script)[1]?.bind scriptData).getD [])
      else if scriptOps script = [65, OP_CHECKSIG] ∨ scriptOps script = [33, OP_CHECKSIG] then
        base58CheckEncode H ADDRESS_SIZE (RAVENCOIN_PUBKEY_ADDRESS ::
          H.hash160 (((scriptElements script)[0]?.bind scriptData).getD []))
      else [] := by
  rw [fromScriptPubKey, if_neg hne]
  rfl

theorem isP2PKH_fromScriptPubKey : IsP2PKH H (fromScriptPubKey H script) ↔ PaysKeyHash script := by
  by_cases hne : script = [] ∨ script.length > MAX_SCRIPT_LENGTH
  · rw [fromScriptPubKey, if_pos hne]
    constructor
    · exact fun h => absurd h not_isP2PKH_nil
    · rintro ⟨h0, hmax, -⟩
      rcases hne with rfl | hlong
      · exact absurd rfl h0
      · exact absurd hmax (Nat.not_le.2 hlong)
  · have h0 : script ≠ [] := fun h => hne (Or.inl h)
    have hmax : script.length ≤ MAX_SCRIPT_LENGTH := Nat.not_lt.1 fun h => hne (Or.inr h)
    rw [fromScriptPubKey_eq hne]
    split_ifs with hkeyHash hscriptHash hkey
    · obtain ⟨ops, hops, hlen⟩ := take_p2pkhOps.1 hkeyHash
      exact iff_of_true ((isP2PKH_encode (by decide) (p2pkh_data hops)).2 rfl)
        ⟨h0, hmax, Or.inl ⟨ops, hops, hlen⟩⟩
    · refine iff_of_false ?_ ?_
      · rw [isP2PKH_encode (by decide) (p2sh_data hscriptHash)]
        decide
      · rintro ⟨-, -, hops | hops | hops⟩
        · exact hkeyHash (take_p2pkhOps.2 hops)
        · exact absurd (hscriptHash.symm.trans hops) (by decide)
        · exact absurd (hscriptHash.symm.trans hops) (by decide)
    · exact iff_of_true ((isP2PKH_encode (by decide) (H.length_hash160 _)).2 rfl)
        ⟨h0, hmax, Or.inr hkey⟩
    · refine iff_of_false not_isP2PKH_nil ?_
      rintro ⟨-, -, hops | hops⟩
      · exact hkeyHash (take_p2pkhOps.2 hops)
      · exact hkey hops

/-- What is paid to the hash of a public key is the template, unless there are other elements behind
    it, or a public key is paid. -/
theorem receivesStrictly_iff (H : Hashes) (script : Bytes) :
    ReceivesStrictly H script ↔ StrictOps script := by
  rw [ReceivesStrictly, isP2PKH_fromScriptPubKey]
  constructor
  · intro h hmax
    have hpays : ∀ {ops : Bytes}, scriptOps script = ops → ops ≠ [] →
        ((∃ ops', ops = p2pkhOps ++ ops' ∧ (ops'.length = 0 ∨ ops'.length = 3)) ∨
          ops = [65, OP_CHECKSIG] ∨ ops = [33, OP_CHECKSIG]) → IsTemplate script := by
      rintro ops rfl hne hops
      refine h ⟨?_, hmax, hops⟩
      rintro rfl
      exact hne rfl
    refine ⟨?_, ?_, ?_⟩
    · intro ops hops hlen
      rcases scriptOps_template (hpays hops (List.cons_ne_nil _ _)
        (Or.inl ⟨ops, rfl, Or.inr hlen⟩)) with h' | ⟨ops', hasset, h'⟩
      · rw [h'] at hops
        have hlength := congrArg List.length hops
        rw [List.length_append] at hlength
        omega
      · rw [hops] at h'
        rwa [List.append_cancel_left h']
    · intro hops
      rcases scriptOps_template (hpays hops (List.cons_ne_nil _ _) (Or.inr (Or.inl rfl)))
        with h' | ⟨ops', -, h'⟩
      · exact absurd (hops.symm.trans h') (by decide)
      · exact absurd (List.cons.inj (hops.symm.trans h')).1 (by decide)
    · intro hops
      rcases scriptOps_template (hpays hops (List.cons_ne_nil _ _) (Or.inr (Or.inr rfl)))
        with h' | ⟨ops', -, h'⟩
      · exact absurd (hops.symm.trans h') (by decide)
      · exact absurd (List.cons.inj (hops.symm.trans h')).1 (by decide)
  · rintro hstrict ⟨-, hmax, ⟨ops, hops, hlen⟩ | hops | hops⟩
    · obtain ⟨hasset, -, -⟩ := hstrict hmax
      have hne : scriptOps script ≠ [] := by
        rw [hops]
        exact List.cons_ne_nil _ _
      obtain ⟨elems, helems, -, heq⟩ := elements_of_ops hne
      rw [hops] at heq
      obtain ⟨h20, rest, elems', fuel', hlen20, rfl, hrest, hops'⟩ := p2pkh_of_ops helems heq
      rcases hlen with h0 | h3
      · obtain rfl := List.eq_nil_of_length_eq_zero h0
        obtain rfl := List.map_eq_nil_iff.1 hops'
        obtain rfl := elements_eq_nil hrest
        exact ⟨h20, hlen20, Or.inl (List.append_nil _)⟩
      · obtain ⟨op, hop, rfl⟩ := hasset ops hops h3
        obtain ⟨push, hpush, rfl⟩ := asset_of_ops hop hrest hops'
        exact ⟨h20, hlen20, Or.inr ⟨push, hpush, rfl⟩⟩
    · exact absurd hops (hstrict hmax).2.1
    · exact absurd hops (hstrict hmax).2.2

/-- The template, and three more opcodes. -/
def trailingScript : Bytes := p2pkh (List.replicate 20 0) ++ [OP_CHECKSIG, OP_CHECKSIG, OP_CHECKSIG]

theorem not_receivesStrictly : ¬ ∀ (H : Hashes) (script : Bytes), ReceivesStrictly H script := by
  intro h
  have haddress : IsP2PKH sampleHashes (fromScriptPubKey sampleHashes trailingScript) := by
    decide +kernel
  obtain ⟨h20, hlen, heq | ⟨push, -, heq⟩⟩ := h sampleHashes trailingScript haddress
  · have hlength := congrArg List.length heq
    rw [length_p2pkh hlen] at hlength
    exact absurd hlength (by decide)
  · have hlast := congrArg List.getLast? heq
    rw [List.getLast?_append_cons, ← List.cons_append, List.getLast?_concat] at hlast
    exact absurd hlast (by decide)

end

end BRAddress

end RavenWallet
