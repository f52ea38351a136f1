import MlDsa.KeyGen

/-!
# Signing

Algorithm 7 of FIPS 204 and the entry points `sign` and `hash_ml_dsa_sign`. The
rejection loop runs at most `fuel` passes; one pass is `signAttempt`.
-/

namespace MlDsa

set_option autoImplicit false

/-- One pass of the `while (z, h) == (None, None)` loop of `sign_internal` at
`kappa`: `some (c~, z, h)` when both checks pass, `none` when the loop goes on. -/
def signAttempt (p : Params) (H : HashModel) (fuel : ℕ) (ah : List (List (List ℤ)))
    (s1h s2h t0h : List (List ℤ)) (mu rhopp : Bytes) (kappa : ℕ) :
    Except Fault (Option (Bytes × List (List ℤ) × List (List ℕ))) := do
  let y ← expandMask p H rhopp kappa
  let yh := y.map ntt
  let w := matrixVectorNtt p ah yh
  let w := w.map nttInverse
  let w1 := highBits p w
  let w1t := w1Encode p w1
  let ct := H.h (mu ++ w1t) (p.lam / 4)
  let c ← sampleInBall p H ct fuel
  let ch := ntt c
  let cs1 := s1h.map fun s1i => nttInverse (mulNtt ch s1i)
  let cs2 := s2h.map fun s2i => nttInverse (mulNtt ch s2i)
  let z := (List.range p.ell).map fun i => addPoly (y.getD i []) (cs1.getD i [])
  let r0 := (List.range p.k).map fun i => subPoly (w.getD i []) (cs2.getD i [])
  let r0 := lowBits p r0
  if infNorm z ≥ p.gam1 - p.beta ∨ infNorm r0 ≥ p.gam2 - p.beta then pure none
  else
    let ct0 := t0h.map fun t0i => nttInverse (mulNtt ch t0i)
    let ct0n := ct0.map negPoly
    let hr := (List.range p.k).map fun i =>
      addPoly (subPoly (w.getD i []) (cs2.getD i [])) (ct0.getD i [])
    let h := makeHint p ct0n hr
    if infNorm ct0 ≥ p.gam2 ∨ weight h > p.omega then pure none
    else pure (some (ct, z, h))

/-- The `while` loop of `sign_internal` from `kappa`, for at most `n` passes;
`kappa += ell` after each. -/
def signLoop (p : Params) (H : HashModel) (fuel : ℕ) (ah : List (List (List ℤ)))
    (s1h s2h t0h : List (List ℤ)) (mu rhopp : Bytes) :
    ℕ → ℕ → Except Fault (Bytes × List (List ℤ) × List (List ℕ))
  | 0, _ => .error .outOfFuel
  | n + 1, kappa => do
    match ← signAttempt p H fuel ah s1h s2h t0h mu rhopp kappa with
    | some r => pure r
    | none => signLoop p H fuel ah s1h s2h t0h mu rhopp n (kappa + p.ell)

/-- Algorithm 7, `ML-DSA.Sign_internal(sk, M', rnd)`. -/
def signInternal (p : Params) (H : HashModel) (sk mp rnd : Bytes) (fuel : ℕ) : Except Fault Bytes := do
  let (rho, kk, tr, s1, s2, t0) ← skDecode p sk
  let s1h := s1.map ntt
  let s2h := s2.map ntt
  let t0h := t0.map ntt
  let ah ← expandA p H rho fuel
  let mu := H.h (tr ++ mp) 64
  let rhopp := H.h (kk ++ rnd ++ mu) 64
  let (ct, z, h) ← signLoop p H fuel ah s1h s2h t0h mu rhopp fuel 0
  let z := z.map fun zi => zi.map fun x => modpm x mlDsaQ
  pure (sigEncode p ct z h)

/-- The representative `M'` of `sign` and `verify`: `IntegerToBytes(0, 1)`,
the length of `ctx` in one byte, `ctx`, then `M`. -/
def pureMessage (m ctx : Bytes) : Bytes :=
  integerToBytes 0 1 ++ integerToBytes ctx.length 1 ++ ctx ++ m

/-- The `if ph == ...` chain of `hash_ml_dsa_sign` and `hash_ml_dsa_verify`: the
DER encoding of the hash function's OID and the digest `PH(M)`, or `none` for
an unsupported `ph`. -/
def preHash (H : HashModel) (ph : String) (m : Bytes) : Option (Bytes × Bytes) :=
  if ph = "SHA-256" then
    some ([0x06, 0x09, 0x60, 0x86, 0x48, 0x01, 0x65, 0x03, 0x04, 0x02, 0x01], H.sha256 m)
  else if ph = "SHA-512" then
    some ([0x06, 0x09, 0x60, 0x86, 0x48, 0x01, 0x65, 0x03, 0x04, 0x02, 0x03], H.sha512 m)
  else if ph = "SHAKE128" then
    some ([0x06, 0x09, 0x60, 0x86, 0x48, 0x01, 0x65, 0x03, 0x04, 0x02, 0x0B],
      readBytes (H.shake128 m) 0 (256 / 8))
  else none

/-- The representative `M'` of `hash_ml_dsa_sign` and `hash_ml_dsa_verify`. -/
def preHashMessage (ctx oid phm : Bytes) : Bytes :=
  integerToBytes 1 1 ++ integerToBytes ctx.length 1 ++ ctx ++ oid ++ phm

/-- Algorithm 2, `ML-DSA.Sign(sk, M, ctx, rnd_in)`: `None` for a context over 255
bytes; `rnd` defaults to 32 zero bytes. -/
def sign (p : Params) (H : HashModel) (sk m ctx : Bytes) (rndIn : Option Bytes) (fuel : ℕ) :
    Except Fault (Option Bytes) :=
  if ctx.length > 255 then pure none
  else
    let rnd := rndIn.getD (List.replicate 32 0)
    some <$> signInternal p H sk (pureMessage m ctx) rnd fuel

/-- Algorithm 4, `HashML-DSA.Sign(sk, M, ctx, PH, rnd_in)`: `None` for a context
over 255 bytes or an unsupported `ph`. -/
def hashMlDsaSign (p : Params) (H : HashModel) (sk m ctx : Bytes) (ph : String) (rndIn : Option Bytes)
    (fuel : ℕ) : Except Fault (Option Bytes) :=
  if ctx.length > 255 then pure none
  else
    let rnd := rndIn.getD (List.replicate 32 0)
    match preHash H ph m with
    | none => pure none
    | some (oid, phm) => some <$> signInternal p H sk (preHashMessage ctx oid phm) rnd fuel

section Inversion

variable {p : Params} {H : HashModel} {fuel : ℕ} {ah : List (List (List ℤ))}
  {s1h s2h t0h : List (List ℤ)} {mu rhopp : Bytes}

/-- A pass of the loop that returns: the values it computed and the four checks
it passed. -/
theorem signAttempt_eq_some {kappa : ℕ} {ct : Bytes} {z : List (List ℤ)} {h : List (List ℕ)}
    (hs : signAttempt p H fuel ah s1h s2h t0h mu rhopp kappa = .ok (some (ct, z, h))) :
    ∃ y c, expandMask p H rhopp kappa = .ok y ∧
      ct = H.h (mu ++ w1Encode p (highBits p ((matrixVectorNtt p ah (y.map ntt)).map nttInverse)))
        (p.lam / 4) ∧
      sampleInBall p H ct fuel = .ok c ∧
      let w := (matrixVectorNtt p ah (y.map ntt)).map nttInverse
      let cs1 := s1h.map fun s1i => nttInverse (mulNtt (ntt c) s1i)
      let cs2 := s2h.map fun s2i => nttInverse (mulNtt (ntt c) s2i)
      let ct0 := t0h.map fun t0i => nttInverse (mulNtt (ntt c) t0i)
      z = (List.range p.ell).map (fun i => addPoly (y.getD i []) (cs1.getD i [])) ∧
      h = makeHint p (ct0.map negPoly) ((List.range p.k).map fun i =>
        addPoly (subPoly (w.getD i []) (cs2.getD i [])) (ct0.getD i [])) ∧
      infNorm z < p.gam1 - p.beta ∧
      infNorm (lowBits p ((List.range p.k).map fun i => subPoly (w.getD i []) (cs2.getD i []))) <
        p.gam2 - p.beta ∧
      infNorm ct0 < p.gam2 ∧ weight h ≤ p.omega := by
  rw [signAttempt] at hs
  obtain ⟨y, hy, hs⟩ := bind_eq_ok hs
  obtain ⟨c, hc, hs⟩ := bind_eq_ok hs
  refine ⟨y, c, hy, ?_⟩
  dsimp only at hs
  split_ifs at hs with h1 h2
  · cases hs
  · cases hs
  · cases hs
    push_neg at h1 h2
    exact ⟨rfl, hc, rfl, rfl, h1.1, h1.2, h2.1, h2.2⟩

theorem signLoop_eq_ok {r : Bytes × List (List ℤ) × List (List ℕ)} :
    ∀ {n kappa : ℕ}, signLoop p H fuel ah s1h s2h t0h mu rhopp n kappa = .ok r →
      ∃ kappa', signAttempt p H fuel ah s1h s2h t0h mu rhopp kappa' = .ok (some r)
  | 0, _, h => by cases h
  | n + 1, kappa, h => by
    rw [signLoop] at h
    obtain ⟨o, ho, h⟩ := bind_eq_ok h
    cases o with
    | some r' => cases h; exact ⟨kappa, ho⟩
    | none => exact signLoop_eq_ok h

end Inversion

/-- A signature returned by `sign_internal`: the decoded key, the matrix, the
pass of the loop that returned, and the centred `z` that was encoded. -/
theorem signInternal_eq_ok {p : Params} {H : HashModel} {sk mp rnd : Bytes} {fuel : ℕ} {sig : Bytes}
    (hs : signInternal p H sk mp rnd fuel = .ok sig) :
    ∃ rho kk tr s1 s2 t0 ah kappa ct z h,
      skDecode p sk = .ok (rho, kk, tr, s1, s2, t0) ∧ expandA p H rho fuel = .ok ah ∧
      signAttempt p H fuel ah (s1.map ntt) (s2.map ntt) (t0.map ntt) (H.h (tr ++ mp) 64)
        (H.h (kk ++ rnd ++ H.h (tr ++ mp) 64) 64) kappa = .ok (some (ct, z, h)) ∧
      sig = sigEncode p ct (z.map fun zi => zi.map fun x => modpm x mlDsaQ) h := by
  rw [signInternal] at hs
  obtain ⟨⟨rho, kk, tr, s1, s2, t0⟩, hd, hs⟩ := bind_eq_ok hs
  obtain ⟨ah, hA, hs⟩ := bind_eq_ok hs
  obtain ⟨⟨ct, z, h⟩, hl, hs⟩ := bind_eq_ok hs
  obtain ⟨kappa, hk⟩ := signLoop_eq_ok hl
  cases hs
  exact ⟨rho, kk, tr, s1, s2, t0, ah, kappa, ct, z, h, hd, hA, hk, rfl⟩

end MlDsa
