/-
  The nonces of the key-value store (`genNonce` of Extensions.swift, which `encrypt`
  of BRReplicatedKVStore.swift calls).

  * `genNonce_inj`: a nonce determines the microseconds of the clock, and only these;
  * `unshared_iff`: values share neither nonces nor key stream when the microseconds
    of their times all differ.
-/
import RavenWallet.Crypto.Chacha20

namespace RavenWallet

/-- A reading of the clock (`gettimeofday`). -/
structure Timeval where
  tv_sec : ℤ
  tv_usec : ℕ
  tv_usec_lt : tv_usec < 1000000

namespace KV

/-- The number in a nonce. -/
def nonceTime (tv : Timeval) : ℕ := tv.tv_usec * 1000000 + tv.tv_usec

/-- `genNonce`. -/
def genNonce (tv : Timeval) : Bytes := List.replicate 4 0 ++ toLE 8 (nonceTime tv)

section
variable {tv tv' : Timeval}

/-- The checked arithmetic on a `UInt64` does not overflow. -/
theorem nonceTime_lt (tv : Timeval) : nonceTime tv < 256 ^ 8 := by
  have h := tv.tv_usec_lt
  unfold nonceTime
  omega

theorem length_genNonce (tv : Timeval) : (genNonce tv).length = 12 := by
  simp [genNonce]

theorem drop_genNonce (tv : Timeval) : (genNonce tv).drop 4 = toLE 8 (nonceTime tv) :=
  List.drop_left' (by simp)

/-- What follows the first four bytes determines the microseconds. -/
theorem usec_of_drop (h : (genNonce tv).drop 4 = (genNonce tv').drop 4) :
    tv.tv_usec = tv'.tv_usec := by
  rw [drop_genNonce, drop_genNonce] at h
  have htime : nonceTime tv = nonceTime tv' := by
    rw [← ofLE_toLE (nonceTime_lt tv), h, ofLE_toLE (nonceTime_lt tv')]
  unfold nonceTime at htime
  omega

/-- A nonce determines the microseconds, and they determine the nonce. -/
theorem genNonce_inj : genNonce tv = genNonce tv' ↔ tv.tv_usec = tv'.tv_usec := by
  constructor
  · intro h
    exact usec_of_drop (by rw [h])
  · intro h
    rw [genNonce, genNonce, nonceTime, nonceTime, h]

/-- No two of the values, encrypted with one key at the times beside them, share a nonce, or a state
    from which their key streams and MAC keys are computed. -/
structure Unshared (key : Bytes) (values : List (Timeval × Bytes)) : Prop where
  nonces : (values.map fun v => genNonce v.1).Nodup
  states : values.Pairwise fun v w => List.Disjoint
    (aeadStates key (genNonce v.1) v.2.length) (aeadStates key (genNonce w.1) w.2.length)

/-- Values share nothing if and only if the microseconds of their times all differ. -/
theorem unshared_iff (key : Bytes) (values : List (Timeval × Bytes)) :
    Unshared key values ↔ (values.map fun v => v.1.tv_usec).Nodup := by
  constructor
  · rintro ⟨hnonces, -⟩
    rw [List.Nodup, List.pairwise_map] at hnonces ⊢
    exact hnonces.imp fun hne h => hne (genNonce_inj.2 h)
  · intro h
    rw [List.Nodup, List.pairwise_map] at h
    refine ⟨?_, ?_⟩
    · rw [List.Nodup, List.pairwise_map]
      exact h.imp fun hne heq => hne (genNonce_inj.1 heq)
    · refine h.imp fun hne s hs hs' => ?_
      exact hne (usec_of_drop
        (iv_of_mem_aeadStates (length_genNonce _) (length_genNonce _) hs hs'))

/-- Two times a second apart. -/
def secondApart : List (Timeval × Bytes) :=
  [(⟨0, 5, by decide⟩, [1]), (⟨1, 5, by decide⟩, [2])]

/-- At different times the nonces may be the same. -/
theorem not_unshared : ¬ ∀ (key : Bytes) (values : List (Timeval × Bytes)),
    (values.map fun v => (v.1.tv_sec, v.1.tv_usec)).Nodup → Unshared key values := by
  intro h
  have hunshared := h [] secondApart (by decide)
  exact absurd ((unshared_iff _ _).1 hunshared) (by decide)

end

end KV

end RavenWallet
