import MlDsa.Sign

/-!
# Verification

Algorithm 8 of FIPS 204 and the entry points `verify` and `hash_ml_dsa_verify`:
inputs of the wrong length, and the domain separation of the message
representatives.
-/

namespace MlDsa

set_option autoImplicit false

/-- Algorithm 8, `ML-DSA.Verify_internal(pk, M', sigma)`; `x << d` is `x * 2^d`. -/
def verifyInternal (p : Params) (H : HashModel) (pk mp sig : Bytes) (fuel : ℕ) : Except Fault Bool := do
  let (rho, t1) ← pkDecode p pk
  let (ct, z, h) ← sigDecode p sig
  match h with
  | none => pure false
  | some h =>
    let ah ← expandA p H rho fuel
    let tr := H.h pk 64
    let mu := H.h (tr ++ mp) 64
    let c ← sampleInBall p H ct fuel
    let zh := z.map ntt
    let wp := matrixVectorNtt p ah zh
    let th := t1.map fun t1i => ntt (t1i.map fun x => x * 2 ^ p.d)
    let ch := ntt c
    let th := th.map fun thi => mulNtt ch thi
    let wp := (List.range p.k).map fun i => nttInverse (subPoly (wp.getD i []) (th.getD i []))
    let w1p ← useHint p h wp
    let ctp := H.h (mu ++ w1Encode p w1p) (p.lam / 4)
    let zNorm := infNorm z
    pure (decide (zNorm < p.gam1 - p.beta) && ct == ctp)

/-- Algorithm 3, `ML-DSA.Verify(pk, M, sigma, ctx)`: a context over 255 bytes
raises `ValueError`. -/
def verify (p : Params) (H : HashModel) (pk m sig ctx : Bytes) (fuel : ℕ) : Except Fault Bool :=
  if ctx.length > 255 then .error (.valueError "The length of the context is greater than 255.")
  else verifyInternal p H pk (pureMessage m ctx) sig fuel

/-- Algorithm 5, `HashML-DSA.Verify(pk, M, sigma, ctx, PH)`: `None` for a context
over 255 bytes, `False` for an unsupported `ph`. -/
def hashMlDsaVerify (p : Params) (H : HashModel) (pk m sig ctx : Bytes) (ph : String) (fuel : ℕ) :
    Except Fault (Option Bool) :=
  if ctx.length > 255 then pure none
  else
    match preHash H ph m with
    | none => pure (some false)
    | some (oid, phm) => some <$> verifyInternal p H pk (preHashMessage ctx oid phm) sig fuel

/-- What `verify_internal` returns once both decodings, the matrix and the challenge
succeed and `use_hint` returns `w1'`. -/
theorem verifyInternal_eq {p : Params} {H : HashModel} {pk mp sig : Bytes} {fuel : ℕ} {rho ct : Bytes}
    {t1 z A' : List (List ℤ)} {A : List (List (List ℤ))} {h : List (List ℕ)} {c : List ℤ}
    (hpk : pkDecode p pk = .ok (rho, t1)) (hsig : sigDecode p sig = .ok (ct, z, some h))
    (hA : expandA p H rho fuel = .ok A) (hc : sampleInBall p H ct fuel = .ok c)
    (hu : useHint p h ((List.range p.k).map fun i => nttInverse (subPoly ((matrixVectorNtt p A (z.map ntt)).getD i [])
      (((t1.map fun t1i => ntt (t1i.map fun x => x * 2 ^ p.d)).map fun thi => mulNtt (ntt c) thi).getD i []))) =
      .ok A') :
    verifyInternal p H pk mp sig fuel =
      .ok (decide (infNorm z < p.gam1 - p.beta) && ct == H.h (H.h (H.h pk 64 ++ mp) 64 ++ w1Encode p A') (p.lam / 4)) := by
  simp only [verifyInternal, hpk, hsig, hA, hc, ok_bind]
  rw [hu]
  rfl

theorem pkDecode_nil (ps : ParamSet) : pkDecode (mlDsaParam ps) [] = .error .indexError := by
  cases ps <;> rfl

/-- `verify` raises `IndexError` on the empty public key, whatever the signature. -/
theorem verify_nil_pk (ps : ParamSet) (H : HashModel) (m sig ctx : Bytes) (fuel : ℕ)
    (hctx : ctx.length ≤ 255) : verify (mlDsaParam ps) H [] m sig ctx fuel = .error .indexError := by
  rw [verify, if_neg (by omega), verifyInternal, pkDecode_nil]
  rfl

theorem verify_nil_pk_empty_ctx :
    ([] : Bytes).length ≤ 255 ∧
      verify (mlDsaParam .mlDsa44) (constHash 0) [] [] [] [] 0 = .error .indexError :=
  ⟨by decide, verify_nil_pk .mlDsa44 (constHash 0) [] [] [] 0 (by decide)⟩

def sigLength (p : Params) : ℕ := p.lam / 4 + 32 * (1 + bitLength (p.gam1 - 1)) * p.ell + p.omega + p.k

theorem sigDecode_append (p : Params) {sig : Bytes} (extra : Bytes) (hs : sigLength p ≤ sig.length) :
    sigDecode p (sig ++ extra) = sigDecode p sig := by
  have hz : ∀ i ∈ List.range p.ell, p.lam / 4 + 32 * (1 + bitLength (p.gam1 - 1)) * (i + 1) ≤ sig.length :=
    fun i hi => le_trans (Nat.add_le_add_left (Nat.mul_le_mul_left _ (List.mem_range.mp hi)) _)
      (by unfold sigLength at hs; omega)
  simp only [sigDecode]
  rw [slice_append_left _ _ (by unfold sigLength at hs; omega),
    slice_append_left _ _ (by unfold sigLength at hs; omega),
    mapM_congr_of_mem _ fun i hi => by rw [slice_append_left _ _ (hz i hi)]]

theorem verifyInternal_append (p : Params) (H : HashModel) (pk mp : Bytes) {sig : Bytes} (extra : Bytes)
    (fuel : ℕ) (hs : sigLength p ≤ sig.length) :
    verifyInternal p H pk mp (sig ++ extra) fuel = verifyInternal p H pk mp sig fuel := by
  simp only [verifyInternal, sigDecode_append p extra hs]

/-- Neither `verify` nor `hash_ml_dsa_verify` checks that a signature ends where
`sig_decode` stops reading: bytes appended to a signature of at least the signature
length never change the verdict, so every accepted signature has accepted
extensions of every length. -/
theorem verify_append (p : Params) (H : HashModel) (pk m ctx : Bytes) {sig : Bytes} (extra : Bytes) (ph : String)
    (fuel : ℕ) (hs : sigLength p ≤ sig.length) :
    verify p H pk m (sig ++ extra) ctx fuel = verify p H pk m sig ctx fuel ∧
      hashMlDsaVerify p H pk m (sig ++ extra) ctx ph fuel = hashMlDsaVerify p H pk m sig ctx ph fuel := by
  simp only [verify, hashMlDsaVerify, verifyInternal_append p H _ _ extra fuel hs, and_self]

theorem verify_append_keygen :
    ∃ pk sk, keygenInternal (mlDsaParam .mlDsa44) (constHash 0x55) (List.replicate 32 0) 256 = .ok (pk, sk) ∧
      sigLength (mlDsaParam .mlDsa44) ≤ (List.replicate 2420 (0 : UInt8)).length ∧
      (verify (mlDsaParam .mlDsa44) (constHash 0x55) pk [] (List.replicate 2420 0 ++ [1]) [] 256 =
          verify (mlDsaParam .mlDsa44) (constHash 0x55) pk [] (List.replicate 2420 0) [] 256 ∧
        hashMlDsaVerify (mlDsaParam .mlDsa44) (constHash 0x55) pk [] (List.replicate 2420 0 ++ [1]) []
            "SHA-256" 256 =
          hashMlDsaVerify (mlDsaParam .mlDsa44) (constHash 0x55) pk [] (List.replicate 2420 0) [] "SHA-256" 256) := by
  obtain ⟨pk, sk, hk⟩ := keygenInternal_constHash_ok (p := mlDsaParam .mlDsa44) (b := 0x55) (v := 2)
    (List.replicate 32 0) le_rfl (by decide) (by decide)
  have hs : sigLength (mlDsaParam .mlDsa44) ≤ (List.replicate 2420 (0 : UInt8)).length := by
    rw [List.length_replicate]; decide
  exact ⟨pk, sk, hk, hs, verify_append _ _ pk [] [] [1] "SHA-256" 256 hs⟩

/-- Both `sign_internal` and `verify_internal` hash `w1_encode(w1)`, and the hashed bytes
determine `w1`. -/
theorem w1_encoding_injective (ps : ParamSet) :
    (∀ (h : List (List ℕ)) (r : List (List ℤ)), h.length = (mlDsaParam ps).k → r.length = (mlDsaParam ps).k →
      (∀ row ∈ h, row.length = 256) → (∀ row ∈ r, row.length = 256) →
      ∃ w1, useHint (mlDsaParam ps) h r = .ok w1 ∧ w1.length = (mlDsaParam ps).k ∧
        ∀ row ∈ w1, row.length = 256 ∧ ∀ x ∈ row, 0 ≤ x ∧ x < (mlDsaQ - 1) / (2 * (mlDsaParam ps).gam2)) ∧
    (∀ r : List (List ℤ), ∀ row ∈ highBits (mlDsaParam ps) r, ∀ x ∈ row,
      0 ≤ x ∧ x < (mlDsaQ - 1) / (2 * (mlDsaParam ps).gam2)) ∧
    ∀ a a' : List (List ℤ),
      (∀ row ∈ a, row.length = 256 ∧ ∀ x ∈ row, 0 ≤ x ∧ x < (mlDsaQ - 1) / (2 * (mlDsaParam ps).gam2)) →
      (∀ row ∈ a', row.length = 256 ∧ ∀ x ∈ row, 0 ≤ x ∧ x < (mlDsaQ - 1) / (2 * (mlDsaParam ps).gam2)) →
      w1Encode (mlDsaParam ps) a = w1Encode (mlDsaParam ps) a' → a = a' := by
  have hg := gam2_mlDsaParam ps
  refine ⟨fun h r hh hr hhr hrr => ?_, fun r row hrow x hx => ?_, fun a a' ha ha' e => ?_⟩
  · -- the shapes `hint_bit_unpack` and `w'_approx` have
    have hk : 0 < (mlDsaParam ps).k := by cases ps <;> decide
    refine ⟨_, useHint_eq _ (List.ne_nil_of_length_pos (by omega)) (by omega) fun i hi =>
      ⟨(hhr _ (getD_mem hi)).ge, (hrr _ (getD_mem (by omega))).ge⟩, by simp [hh], fun row hrow => ?_⟩
    obtain ⟨i, -, rfl⟩ := List.mem_map.mp hrow
    refine ⟨by simp [useHintPoly], fun x hx => ?_⟩
    obtain ⟨t, -, rfl⟩ := List.mem_map.mp hx
    exact useHintCoeff_mem _ hg _ _
  · obtain ⟨rr, -, rfl⟩ := List.mem_map.mp hrow
    obtain ⟨rx, -, rfl⟩ := List.mem_map.mp hx
    exact decompose_fst_mem _ hg rx
  · -- the packing bound `b = m - 1` of `w1_encode`, as an integer
    have hb : (((mlDsaQ - 1).toNat / (2 * (mlDsaParam ps).gam2) - 1 : ℕ) : ℤ) =
        (mlDsaQ - 1) / (2 * (mlDsaParam ps).gam2) - 1 := by cases ps <;> decide
    have hrows : ∀ v : List (List ℤ), (∀ row ∈ v, row.length = 256 ∧ ∀ x ∈ row,
        0 ≤ x ∧ x < (mlDsaQ - 1) / (2 * (mlDsaParam ps).gam2)) → ∀ row ∈ v, row.length = 256 ∧
        ∀ x ∈ row, 0 ≤ x ∧ x ≤ ((mlDsaQ - 1).toNat / (2 * (mlDsaParam ps).gam2) - 1 : ℕ) :=
      fun v hv row hrow => ⟨(hv row hrow).1, fun x hx => by have := (hv row hrow).2 x hx; omega⟩
    exact w1Encode_inj _ (by cases ps <;> decide) (hrows a ha) (hrows a' ha') e

theorem w1_encoding_injective_zero :
    ∃ w1, useHint (mlDsaParam .mlDsa44) (List.replicate 4 (List.replicate 256 0))
        (List.replicate 4 (List.replicate 256 0)) = .ok w1 ∧
      (∀ row ∈ w1, row.length = 256 ∧ ∀ x ∈ row, 0 ≤ x ∧ x < (mlDsaQ - 1) / (2 * (mlDsaParam .mlDsa44).gam2)) ∧
      (w1Encode (mlDsaParam .mlDsa44) w1 = w1Encode (mlDsaParam .mlDsa44) w1 → w1 = w1) := by
  obtain ⟨w1, hw, -, hr⟩ := (w1_encoding_injective .mlDsa44).1 _ _ (List.length_replicate _ _)
    (List.length_replicate _ _) (fun row h => by rw [List.eq_of_mem_replicate h, List.length_replicate])
    (fun row h => by rw [List.eq_of_mem_replicate h, List.length_replicate])
  exact ⟨w1, hw, hr, (w1_encoding_injective .mlDsa44).2.2 _ _ hr hr⟩

theorem integerToBytes_length_one {ctx : Bytes} (h : ctx.length ≤ 255) :
    integerToBytes ctx.length 1 = [UInt8.ofNat ctx.length] := by
  rw [integerToBytes_one (by omega) (by omega)]
  rfl

theorem ctx_eq_of_append_eq {ctx ctx' r r' : Bytes} (h : ctx.length ≤ 255) (h' : ctx'.length ≤ 255)
    (e : integerToBytes ctx.length 1 ++ (ctx ++ r) = integerToBytes ctx'.length 1 ++ (ctx' ++ r')) :
    ctx = ctx' ∧ r = r' := by
  rw [integerToBytes_length_one h, integerToBytes_length_one h', List.singleton_append,
    List.singleton_append, List.cons.injEq] at e
  have hl : ctx.length = ctx'.length := by
    have := congrArg UInt8.toNat e.1
    rwa [UInt8.toNat_ofNat_of_lt (by simp only [UInt8.size]; omega),
      UInt8.toNat_ofNat_of_lt (by simp only [UInt8.size]; omega)] at this
  exact List.append_inj e.2 hl

theorem preHash_eq_some {H : HashModel} {ph : String} {m oid phm : Bytes}
    (h : preHash H ph m = some (oid, phm)) :
    (ph = "SHA-256" ∧ oid = [0x06, 0x09, 0x60, 0x86, 0x48, 0x01, 0x65, 0x03, 0x04, 0x02, 0x01]) ∨
      (ph = "SHA-512" ∧ oid = [0x06, 0x09, 0x60, 0x86, 0x48, 0x01, 0x65, 0x03, 0x04, 0x02, 0x03]) ∨
      (ph = "SHAKE128" ∧ oid = [0x06, 0x09, 0x60, 0x86, 0x48, 0x01, 0x65, 0x03, 0x04, 0x02, 0x0B]) := by
  unfold preHash at h
  split_ifs at h with h1 h2 h3 <;> simp only [Option.some.injEq, Prod.mk.injEq, reduceCtorEq] at h
  · exact .inl ⟨h1, h.1.symm⟩
  · exact .inr (.inl ⟨h2, h.1.symm⟩)
  · exact .inr (.inr ⟨h3, h.1.symm⟩)

theorem message_domain_separation (H : HashModel) :
    (∀ m m' ctx ctx' : Bytes, ctx.length ≤ 255 → ctx'.length ≤ 255 →
      pureMessage m ctx = pureMessage m' ctx' → ctx = ctx' ∧ m = m') ∧
    (∀ (m ctx ctx' oid phm : Bytes), pureMessage m ctx ≠ preHashMessage ctx' oid phm) ∧
    (∀ (m m' ctx ctx' oid oid' phm phm' : Bytes) (ph ph' : String), ctx.length ≤ 255 → ctx'.length ≤ 255 →
      preHash H ph m = some (oid, phm) → preHash H ph' m' = some (oid', phm') →
      preHashMessage ctx oid phm = preHashMessage ctx' oid' phm' → ctx = ctx' ∧ ph = ph' ∧ phm = phm') := by
  refine ⟨fun m m' ctx ctx' hc hc' e => ?_, fun m ctx ctx' oid phm e => ?_,
    fun m m' ctx ctx' oid oid' phm phm' ph ph' hc hc' hp hp' e => ?_⟩
  · simp only [pureMessage, List.append_assoc, List.append_cancel_left_eq] at e
    exact ctx_eq_of_append_eq hc hc' e
  · have := congrArg List.head? e
    simp [pureMessage, preHashMessage, integerToBytes] at this
  · simp only [preHashMessage, List.append_assoc, List.append_cancel_left_eq] at e
    obtain ⟨rfl, e2⟩ := ctx_eq_of_append_eq hc hc' e
    have hl : oid.length = oid'.length := by
      rcases preHash_eq_some hp with ⟨-, rfl⟩ | ⟨-, rfl⟩ | ⟨-, rfl⟩ <;>
        rcases preHash_eq_some hp' with ⟨-, rfl⟩ | ⟨-, rfl⟩ | ⟨-, rfl⟩ <;> rfl
    obtain ⟨rfl, rfl⟩ := List.append_inj e2 hl
    refine ⟨rfl, ?_, rfl⟩
    rcases preHash_eq_some hp with ⟨rfl, rfl⟩ | ⟨rfl, rfl⟩ | ⟨rfl, rfl⟩ <;>
      rcases preHash_eq_some hp' with ⟨rfl, h⟩ | ⟨rfl, h⟩ | ⟨rfl, h⟩ <;>
      first | rfl | exact absurd h (by decide)

theorem message_domain_separation_empty :
    preHash (constHash 0) "SHA-256" [] =
        some ([0x06, 0x09, 0x60, 0x86, 0x48, 0x01, 0x65, 0x03, 0x04, 0x02, 0x01], []) ∧
      (([] : Bytes) = [] ∧ ([] : Bytes) = []) ∧
      pureMessage [] [] ≠ preHashMessage [] [0x06, 0x09, 0x60, 0x86, 0x48, 0x01, 0x65, 0x03, 0x04, 0x02, 0x01] [] ∧
      (([] : Bytes) = [] ∧ "SHA-256" = "SHA-256" ∧ ([] : Bytes) = []) := by
  have hp : preHash (constHash 0) "SHA-256" [] =
      some ([0x06, 0x09, 0x60, 0x86, 0x48, 0x01, 0x65, 0x03, 0x04, 0x02, 0x01], []) := rfl
  exact ⟨hp, (message_domain_separation (constHash 0)).1 [] [] [] [] (by decide) (by decide) rfl,
    (message_domain_separation (constHash 0)).2.1 [] [] [] _ [],
    (message_domain_separation (constHash 0)).2.2 [] [] [] [] _ _ [] [] "SHA-256" "SHA-256" (by decide)
      (by decide) hp hp rfl⟩

end MlDsa
