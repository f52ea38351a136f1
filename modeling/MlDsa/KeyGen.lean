import MlDsa.Sample
import MlDsa.Ntt

/-!
# Key generation

Algorithm 6 of FIPS 204 and the invariant of every key pair it returns: the secret
key decodes into the samplers' ranges, its `tr` hashes the public key, and
`t1 * 2^d + t0 ≡ A s1 + s2` modulo `q`.
-/

namespace MlDsa

set_option autoImplicit false

/-- Algorithm 6, `ML-DSA.KeyGen_internal(xi)`. -/
def keygenInternal (p : Params) (H : HashModel) (xi : Bytes) (fuel : ℕ) : Except Fault (Bytes × Bytes) := do
  let se := H.h (xi ++ integerToBytes p.k 1 ++ integerToBytes p.ell 1) 128
  let rho := slice se 0 32
  let rhop := slice se 32 96
  let kk := slice se 96 128
  let ah ← expandA p H rho fuel
  let (s1, s2) ← expandS p H rhop fuel
  let s1h := s1.map ntt
  let t := matrixVectorNtt p ah s1h
  let t := (List.range p.k).map fun i => addPoly (nttInverse (t.getD i [])) (s2.getD i [])
  let (t1, t0) := power2round p t
  let pk := pkEncode p rho t1
  let tr := H.h pk 64
  let sk := skEncode p rho kk tr s1 s2 t0
  pure (pk, sk)

section Power2Round

variable (p : Params) (hd : p.d = 13)
include hd

/-- `power2round` splits `r mod q` into `r1 * 2^d + r0` with `r0` centred and `r1`
below `2^(bitlen(q - 1) - d)`. -/
theorem power2roundCoeff_spec (r : ℤ) :
    (power2roundCoeff p r).1 * 2 ^ p.d + (power2roundCoeff p r).2 = r % mlDsaQ ∧
      -2 ^ (p.d - 1) + 1 ≤ (power2roundCoeff p r).2 ∧ (power2roundCoeff p r).2 ≤ 2 ^ (p.d - 1) ∧
      0 ≤ (power2roundCoeff p r).1 ∧ (power2roundCoeff p r).1 ≤ 2 ^ (23 - p.d) - 1 := by
  simp only [power2roundCoeff, modpm, hd, mlDsaQ, Nat.cast_ofNat, Nat.reduceSub, Int.reducePow,
    Int.reduceDiv, Int.reduceNeg]
  omega

theorem power2round_rows {n : ℕ} {t : List (List ℤ)} (ht : RowsIn n (fun x => 0 ≤ x ∧ x < mlDsaQ) t) :
    RowsIn n (fun x => 0 ≤ x ∧ x ≤ 2 ^ (23 - p.d) - 1) (power2round p t).1 ∧
      RowsIn n (fun x => -2 ^ (p.d - 1) + 1 ≤ x ∧ x ≤ 2 ^ (p.d - 1)) (power2round p t).2 := by
  refine ⟨⟨by simp [power2round, ht.1], fun row hrow => ?_⟩, ⟨by simp [power2round, ht.1], fun row hrow => ?_⟩⟩
  all_goals
    obtain ⟨rr, hrr, rfl⟩ := List.mem_map.mp hrow
    refine ⟨by simp [(ht.2 rr hrr).1], fun x hx => ?_⟩
    obtain ⟨rx, -, rfl⟩ := List.mem_map.mp hx
    have := power2roundCoeff_spec p hd rx
  · exact ⟨this.2.2.2.1, this.2.2.2.2⟩
  · exact ⟨this.2.1, this.2.2.1⟩

omit hd in
theorem getD_power2round {t : List (List ℤ)} {i j : ℕ} (hi : i < t.length) (hj : j < (t.getD i []).length) :
    ((power2round p t).1.getD i []).getD j 0 = (power2roundCoeff p ((t.getD i []).getD j 0)).1 ∧
      ((power2round p t).2.getD i []).getD j 0 = (power2roundCoeff p ((t.getD i []).getD j 0)).2 := by
  simp only [power2round]
  rw [getD_map_of_lt _ hi [], getD_map_of_lt _ hj 0, getD_map_of_lt _ hi [], getD_map_of_lt _ hj 0]
  exact ⟨rfl, rfl⟩

end Power2Round

theorem t1Width_eq (ps : ParamSet) : t1Width (mlDsaParam ps) = 23 - (mlDsaParam ps).d := by
  cases ps <;> decide

theorem d_mlDsaParam (ps : ParamSet) : (mlDsaParam ps).d = 13 := by cases ps <;> rfl

theorem rowsIn_keygen_t (p : Params) (v s2 : List (List ℤ)) :
    RowsIn p.k (fun x => 0 ≤ x ∧ x < mlDsaQ)
      ((List.range p.k).map fun i => addPoly (nttInverse (v.getD i [])) (s2.getD i [])) := by
  refine ⟨by simp, fun row hrow => ?_⟩
  obtain ⟨i, -, rfl⟩ := List.mem_map.mp hrow
  refine ⟨by simp [nttInverse], fun x hx => ?_⟩
  obtain ⟨j, hj⟩ := List.mem_iff_getElem.mp hx
  rw [← hj.2, getElem_addPoly]
  exact addCoeff_mem _ _

/-- What a successful run of `keygen_internal` computed. -/
theorem keygenInternal_eq_ok {p : Params} {H : HashModel} {xi : Bytes} {fuel : ℕ} {pk sk : Bytes}
    (h : keygenInternal p H xi fuel = .ok (pk, sk)) :
    let se := H.h (xi ++ integerToBytes p.k 1 ++ integerToBytes p.ell 1) 128
    ∃ A s1 s2, expandA p H (slice se 0 32) fuel = .ok A ∧ expandS p H (slice se 32 96) fuel = .ok (s1, s2) ∧
      let t := (List.range p.k).map fun i =>
        addPoly (nttInverse ((matrixVectorNtt p A (s1.map ntt)).getD i [])) (s2.getD i [])
      pk = pkEncode p (slice se 0 32) (power2round p t).1 ∧
      sk = skEncode p (slice se 0 32) (slice se 96 128) (H.h pk 64) s1 s2 (power2round p t).2 := by
  intro se
  rw [keygenInternal] at h
  obtain ⟨A, hA, h⟩ := bind_eq_ok h
  obtain ⟨⟨s1, s2⟩, hS, h⟩ := bind_eq_ok h
  cases h
  exact ⟨A, s1, s2, hA, hS, rfl, rfl⟩

/-- The invariant of a key pair: the secret key decodes to `(rho, K, tr, s1, s2, t0)`
and the public key to `(rho, t1)` with the same `rho`, `tr` is the hash of the public
key, the coefficients lie in the ranges of the samplers and of `power2round`, and
`t1 * 2^d + t0` is `A s1 + s2` modulo `q`, with `A = expand_a(rho)`. -/
def KeyPairInv (p : Params) (H : HashModel) (fuel : ℕ) (pk sk : Bytes) : Prop :=
  ∃ (rho K tr : Bytes) (s1 s2 t0 t1 : List (List ℤ)) (A : List (List (List ℤ))),
    skDecode p sk = .ok (rho, K, tr, s1, s2, t0) ∧ pkDecode p pk = .ok (rho, t1) ∧
    tr = H.h pk 64 ∧
    RowsIn p.ell (fun x => -(p.eta : ℤ) ≤ x ∧ x ≤ p.eta) s1 ∧
    RowsIn p.k (fun x => -(p.eta : ℤ) ≤ x ∧ x ≤ p.eta) s2 ∧
    RowsIn p.k (fun x => -2 ^ (p.d - 1) + 1 ≤ x ∧ x ≤ 2 ^ (p.d - 1)) t0 ∧
    RowsIn p.k (fun x => 0 ≤ x ∧ x ≤ 2 ^ t1Width p - 1) t1 ∧
    expandA p H rho fuel = .ok A ∧
    ∀ i < p.k, ∀ j < 256,
      ((t1.getD i []).getD j 0 * 2 ^ p.d + (t0.getD i []).getD j 0) % mlDsaQ =
        ((nttInverse ((matrixVectorNtt p A (s1.map ntt)).getD i [])).getD j 0 +
          (s2.getD i []).getD j 0) % mlDsaQ

section Invariant

variable {p : Params} (W : CodecWidths p) (hd : p.d = 13) (ht1 : t1Width p = 23 - p.d)
include W hd ht1

/-- Every key pair returned for a parameter set whose codec widths agree has the invariant. -/
theorem keygenInternal_invariant {H : HashModel} {xi : Bytes} {fuel : ℕ} {pk sk : Bytes}
    (hk : keygenInternal p H xi fuel = .ok (pk, sk)) : KeyPairInv p H fuel pk sk := by
  obtain ⟨A, s1, s2, hA, hS, hpk, hsk⟩ := keygenInternal_eq_ok hk
  set t := (List.range p.k).map fun i =>
    addPoly (nttInverse ((matrixVectorNtt p A (s1.map ntt)).getD i [])) (s2.getD i []) with ht
  have hT := rowsIn_keygen_t p (matrixVectorNtt p A (s1.map ntt)) s2
  obtain ⟨h1, h0⟩ := power2round_rows p hd hT
  obtain ⟨hs1, hs2⟩ := expandS_spec hS
  rw [KeyPairInv, ht1]
  refine ⟨_, slice (H.h (xi ++ integerToBytes p.k 1 ++ integerToBytes p.ell 1) 128) 96 128, H.h pk 64, s1, s2, _, _, A, ?_, ?_, rfl, hs1, hs2, h0, h1, hA, fun i hi j hj => ?_⟩
  · rw [hsk]
    exact skDecode_skEncode p W.t0 _ _ _ s1 s2 _ (by simp) (by simp) (by simp) hs1.1 hs2.1 h0.1 hs1.2
      hs2.2 h0.2
  · rw [hpk]
    exact pkDecode_pkEncode p W.t1 _ _ (by simp) h1.1 (ht1 ▸ h1.2)
  have hti : t.getD i [] =
      addPoly (nttInverse ((matrixVectorNtt p A (s1.map ntt)).getD i [])) (s2.getD i []) := by
    rw [ht, List.getD_eq_getElem _ _ (by simpa using hi), List.getElem_map, List.getElem_range]
  have hj' : j < (t.getD i []).length := by rw [hti]; simpa using hj
  obtain ⟨e1, e0⟩ := getD_power2round p (t := t) (by simpa [ht] using hi) hj'
  rw [e1, e0, (power2roundCoeff_spec p hd _).1, hti, getD_addPoly _ _ (by simpa using hj), addCoeff,
    Int.emod_emod, Int.emod_emod]

end Invariant

theorem keygen_invariant (ps : ParamSet) (H : HashModel) (xi : Bytes) (fuel : ℕ) (pk sk : Bytes)
    (hk : keygenInternal (mlDsaParam ps) H xi fuel = .ok (pk, sk)) : KeyPairInv (mlDsaParam ps) H fuel pk sk :=
  keygenInternal_invariant (codecWidths_mlDsaParam ps) (d_mlDsaParam ps) (t1Width_eq ps) hk

/-- Key generation returns on every seed when the streams accept every candidate. -/
theorem keygenInternal_constHash_ok {p : Params} {b : UInt8} {v : ℤ} (xi : Bytes) {fuel : ℕ} (hf : 256 ≤ fuel)
    (hlo : coeffFromHalfByte p (b.toNat % 16) = some v) (hhi : coeffFromHalfByte p (b.toNat / 16) = some v) :
    ∃ pk sk, keygenInternal p (constHash b) xi fuel = .ok (pk, sk) := by
  rw [keygenInternal, expandA_const hf fun _ _ => by simp only [constHash_shake128]; exact coeffFromThreeBytes_zero,
    ok_bind, expandS_const (by omega) (fun _ _ => by rw [constHash_shake256]; exact hlo)
      (fun _ _ => by rw [constHash_shake256]; exact hhi), ok_bind]
  exact ⟨_, _, rfl⟩

theorem keygen_invariant_constHash :
    ∃ pk sk, keygenInternal (mlDsaParam .mlDsa44) (constHash 0x55) (List.replicate 32 0) 256 = .ok (pk, sk) ∧
      KeyPairInv (mlDsaParam .mlDsa44) (constHash 0x55) 256 pk sk := by
  obtain ⟨pk, sk, hk⟩ := keygenInternal_constHash_ok (p := mlDsaParam .mlDsa44) (b := 0x55) (v := 2)
    (List.replicate 32 0) le_rfl (by decide) (by decide)
  exact ⟨pk, sk, hk, keygen_invariant .mlDsa44 (constHash 0x55) (List.replicate 32 0) 256 pk sk hk⟩

end MlDsa
