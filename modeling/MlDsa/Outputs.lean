import MlDsa.Correctness

/-!
# What the scheme returns

Keys and signatures have the byte lengths of their parameter set, whatever the
seed, key or hash, and a signature decodes with a hint and passes the norm check.
The signing loop reads its mask counter modulo `2^16`, so it can run forever.
-/

namespace MlDsa

set_option autoImplicit false

theorem keygenInternal_key_sizes (ps : ParamSet) (H : HashModel) (xi : Bytes) (fuel : ℕ) (pk sk : Bytes)
    (hk : keygenInternal (mlDsaParam ps) H xi fuel = .ok (pk, sk)) :
    pk.length = 32 + 32 * t1Width (mlDsaParam ps) * (mlDsaParam ps).k ∧
      sk.length = 128 + 32 * (((mlDsaParam ps).ell + (mlDsaParam ps).k) * bitLength (2 * (mlDsaParam ps).eta) +
        (mlDsaParam ps).k * (mlDsaParam ps).d) := by
  have W := codecWidths_mlDsaParam ps
  obtain ⟨A, s1, s2, -, hS, hpk, hsk⟩ := keygenInternal_eq_ok hk
  obtain ⟨h1, h0⟩ := power2round_rows (mlDsaParam ps) (d_mlDsaParam ps)
    (rowsIn_keygen_t (mlDsaParam ps) (matrixVectorNtt (mlDsaParam ps) A (s1.map ntt)) s2)
  obtain ⟨hs1, hs2⟩ := expandS_spec hS
  refine ⟨?_, ?_⟩
  · rw [hpk, length_pkEncode _ W.t1, length_slice, length_h, h1.1]
    omega
  · rw [hsk, length_skEncode _ W.t0 _ _ _ _ _ _ (fun r hr => (hs1.2 r hr).1) (fun r hr => (hs2.2 r hr).1)
      (fun r hr => (h0.2 r hr).1), length_slice, length_slice, length_h, length_h, hs1.1, hs2.1, h0.1]
    omega

example : [.mlDsa44, .mlDsa65, .mlDsa87].map (fun ps =>
    (32 + 32 * t1Width (mlDsaParam ps) * (mlDsaParam ps).k,
      128 + 32 * (((mlDsaParam ps).ell + (mlDsaParam ps).k) * bitLength (2 * (mlDsaParam ps).eta) +
        (mlDsaParam ps).k * (mlDsaParam ps).d))) = [(1312, 2560), (1952, 4032), (2592, 4896)] := by
  decide

theorem keygenInternal_key_sizes_constHash :
    ∃ pk sk, keygenInternal (mlDsaParam .mlDsa44) (constHash 0x55) (List.replicate 32 0) 256 = .ok (pk, sk) ∧
      pk.length = 32 + 32 * t1Width (mlDsaParam .mlDsa44) * (mlDsaParam .mlDsa44).k ∧
      sk.length = 128 + 32 * (((mlDsaParam .mlDsa44).ell + (mlDsaParam .mlDsa44).k) *
        bitLength (2 * (mlDsaParam .mlDsa44).eta) + (mlDsaParam .mlDsa44).k * (mlDsaParam .mlDsa44).d) := by
  obtain ⟨pk, sk, hk⟩ := keygenInternal_constHash_ok (p := mlDsaParam .mlDsa44) (b := 0x55) (v := 2)
    (List.replicate 32 0) le_rfl (by decide) (by decide)
  exact ⟨pk, sk, hk, keygenInternal_key_sizes .mlDsa44 _ _ _ _ _ hk⟩

/-- A signature returned by `sign_internal`, under any secret key and hash model, is
`sigLength` bytes long, decodes to a hint that is not `None`, and its `z` is below
`gam1 - beta` and its hint has at most `omega` ones. -/
theorem signInternal_sig_format (ps : ParamSet) (H : HashModel) (sk mp rnd : Bytes) (fuel : ℕ) (sig : Bytes)
    (hs : signInternal (mlDsaParam ps) H sk mp rnd fuel = .ok sig) :
    sig.length = sigLength (mlDsaParam ps) ∧
      ∃ ct z h, sigDecode (mlDsaParam ps) sig = .ok (ct, z, some h) ∧
        infNorm z < (mlDsaParam ps).gam1 - (mlDsaParam ps).beta ∧ weight h ≤ (mlDsaParam ps).omega := by
  have S := schemeParams_mlDsaParam ps
  obtain ⟨rho, kk, tr, s1, s2, t0, ah, kappa, ct, z, h, -, -, hatt, rfl⟩ := signInternal_eq_ok hs
  obtain ⟨y, c, hy, hct, -, hz, hh, hzn, -, -, hwt⟩ := signAttempt_eq_some hatt
  obtain ⟨hyl, hyr⟩ := expandMask_rows hy
  have hB : (0 : ℤ) < (mlDsaParam ps).gam1 - (mlDsaParam ps).beta := by have := S.beta_lt_gam1; omega
  obtain ⟨hzcn, hzcb⟩ := centred_z hB hzn
  -- the rows of `z`, and of the centred `z` that is encoded
  have hzl : z.length = (mlDsaParam ps).ell := by rw [hz, List.length_map, List.length_range]
  have hzr : ∀ r ∈ z, r.length = 256 := fun r hr => by
    rw [hz] at hr
    obtain ⟨j, hj, rfl⟩ := List.mem_map.mp hr
    rw [length_addPoly, hyr _ (getD_mem (by rw [hyl]; exact List.mem_range.mp hj))]
  have hzc : ∀ r ∈ z.map (fun zi => zi.map fun x => modpm x mlDsaQ), r.length = 256 ∧
      ∀ x ∈ r, -(((mlDsaParam ps).gam1 - 1 : ℕ) : ℤ) ≤ x ∧ x ≤ (mlDsaParam ps).gam1 := fun r hr => by
    refine ⟨?_, fun x hx => ?_⟩
    · obtain ⟨zi, hzi, rfl⟩ := List.mem_map.mp hr
      rw [List.length_map, hzr zi hzi]
    · have := abs_lt.mp (hzcb r hr x hx)
      have := S.widths.gam1_pos
      omega
  -- the rows of the hint
  have hmv : (matrixVectorNtt (mlDsaParam ps) ah (y.map ntt)).length = (mlDsaParam ps).k := by
    rw [matrixVectorNtt, List.length_map, List.length_range]
  have cw : ∀ i < (mlDsaParam ps).k,
      (((matrixVectorNtt (mlDsaParam ps) ah (y.map ntt)).map nttInverse).getD i []).length = 256 := fun i hi => by
    rw [getD_map_of_lt _ (by rw [hmv]; exact hi) [], length_nttInverse]
  obtain ⟨hhl, hhr⟩ := makeHint_rows (mlDsaParam ps) _ (fun row hrow => (rows_addPoly_subPoly cw row hrow).1)
  have hk : h.length = (mlDsaParam ps).k := by rw [hh, hhl, List.length_map, List.length_range]
  have hrow : ∀ row ∈ h, row.length = 256 ∧ ∀ x ∈ row, x ≤ 1 := by rw [hh]; exact hhr
  have hctl : ct.length = (mlDsaParam ps).lam / 4 := by rw [hct, length_h]
  refine ⟨?_, ct, _, h, sigDecode_sigEncode _ S.widths.z ct _ h S.widths.omega_lt hctl
    (by rw [List.length_map, hzl]) hzc hk hrow hwt, hzcn, hwt⟩
  rw [length_sigEncode _ S.widths.z ct _ h (by rw [List.length_map, hzl]) (fun r hr => (hzc r hr).1)
    (length_hintIdx_le hk (fun r hr => (hrow r hr).1) hwt), hctl, sigLength, Nat.mul_right_comm]

example : [.mlDsa44, .mlDsa65, .mlDsa87].map (fun ps => sigLength (mlDsaParam ps)) = [2420, 3309, 4627] := by
  decide

theorem signInternal_sig_format_constHash :
    ∃ pk sk sig, keygenInternal (mlDsaParam .mlDsa44) (constHash 0x55) (List.replicate 32 0) 256 = .ok (pk, sk) ∧
      signInternal (mlDsaParam .mlDsa44) (constHash 0x55) sk [] [] 256 = .ok sig ∧
      sig.length = sigLength (mlDsaParam .mlDsa44) ∧
      ∃ ct z h, sigDecode (mlDsaParam .mlDsa44) sig = .ok (ct, z, some h) ∧
        infNorm z < (mlDsaParam .mlDsa44).gam1 - (mlDsaParam .mlDsa44).beta ∧
        weight h ≤ (mlDsaParam .mlDsa44).omega := by
  obtain ⟨pk, sk, hk⟩ := keygenInternal_constHash_ok (p := mlDsaParam .mlDsa44) (b := 0x55) (v := 2)
    (List.replicate 32 0) le_rfl (by decide) (by decide)
  obtain ⟨sig, hs⟩ := signInternal_constHash_ok le_rfl hk [] []
  exact ⟨pk, sk, sig, hk, hs, signInternal_sig_format .mlDsa44 _ _ _ _ _ _ hs⟩

section Loop

variable {p : Params} {H : HashModel} {fuel : ℕ} {ah : List (List (List ℤ))}
  {s1h s2h t0h : List (List ℤ)} {mu rhopp : Bytes}

theorem signAttempt_add_two_pow (kappa : ℕ) :
    signAttempt p H fuel ah s1h s2h t0h mu rhopp (kappa + 2 ^ 16) =
      signAttempt p H fuel ah s1h s2h t0h mu rhopp kappa := by
  simp only [signAttempt, expandMask_add_two_pow]

theorem signAttempt_add_mul_two_pow (kappa : ℕ) : ∀ c : ℕ,
    signAttempt p H fuel ah s1h s2h t0h mu rhopp (kappa + 2 ^ 16 * c) =
      signAttempt p H fuel ah s1h s2h t0h mu rhopp kappa
  | 0 => rfl
  | c + 1 => by rw [Nat.mul_succ, ← Nat.add_assoc, signAttempt_add_two_pow, signAttempt_add_mul_two_pow kappa c]

theorem signLoop_of_rejected : ∀ (n kappa : ℕ),
    (∀ j, signAttempt p H fuel ah s1h s2h t0h mu rhopp (kappa + j * p.ell) = .ok none) →
      signLoop p H fuel ah s1h s2h t0h mu rhopp n kappa = .error .outOfFuel
  | 0, _, _ => rfl
  | n + 1, kappa, h => by
    have h0 := h 0
    rw [Nat.zero_mul, Nat.add_zero] at h0
    rw [signLoop, h0, ok_bind]
    exact signLoop_of_rejected n _ fun j => by
      rw [Nat.add_assoc, Nat.add_comm p.ell, ← Nat.succ_mul]
      exact h (j + 1)

/-- The pass at counter `kappa + 2^16` is the pass at `kappa`; so when the first `N`
passes fail and `N * ell` is a multiple of `2^16`, every later pass repeats one of
them and the loop never returns, whatever its fuel. -/
theorem signLoop_mask_counter_wraps :
    (∀ kappa, signAttempt p H fuel ah s1h s2h t0h mu rhopp (kappa + 2 ^ 16) =
      signAttempt p H fuel ah s1h s2h t0h mu rhopp kappa) ∧
    ∀ (N kappa : ℕ), 0 < N → 2 ^ 16 ∣ N * p.ell →
      (∀ j < N, signAttempt p H fuel ah s1h s2h t0h mu rhopp (kappa + j * p.ell) = .ok none) →
      ∀ n, signLoop p H fuel ah s1h s2h t0h mu rhopp n kappa = .error .outOfFuel := by
  refine ⟨signAttempt_add_two_pow, fun N kappa hN ⟨t, ht⟩ hrej n => signLoop_of_rejected n kappa fun j => ?_⟩
  -- pass `j` reads the counter of pass `j % N`, moved by a multiple of `2^16`
  have hj : kappa + j * p.ell = kappa + j % N * p.ell + 2 ^ 16 * (t * (j / N)) := by
    conv_lhs => rw [← Nat.mod_add_div j N]
    rw [Nat.add_mul, Nat.mul_right_comm, ht, Nat.mul_assoc, Nat.add_assoc]
  rw [hj, signAttempt_add_mul_two_pow]
  exact hrej _ (Nat.mod_lt _ hN)

end Loop

/-- Under the all-zero hash every mask coefficient is `gam1`, while `‖c s1‖ ≤ 2 * 39`
for secrets in `[-2, 2]`, so `z` fails its norm check at every counter. -/
theorem signAttempt_constHash_zero {s1 : List (List ℤ)}
    (hs1 : RowsIn 4 (fun x => -((2 : ℕ) : ℤ) ≤ x ∧ x ≤ (2 : ℕ)) s1) (fuel : ℕ) (ah : List (List (List ℤ)))
    (s2h t0h : List (List ℤ)) (mu rhopp : Bytes) (kappa : ℕ) :
    signAttempt (mlDsaParam .mlDsa44) (constHash 0) fuel ah (s1.map ntt) s2h t0h mu rhopp kappa = .ok none := by
  obtain ⟨c, hc⟩ : ∃ c, sampleInBall (mlDsaParam .mlDsa44) (constHash 0) [] fuel = .ok c :=
    sampleInBall_ok_of_le fun _ => by rw [constHash_shake256]; decide
  have hc' : ∀ rho, sampleInBall (mlDsaParam .mlDsa44) (constHash 0) rho fuel = .ok c := fun _ => hc
  obtain ⟨hcl, -, habs⟩ := sampleInBall_spec (by decide) hc
  rw [signAttempt, expandMask_constHash_zero, ok_bind]
  dsimp only
  rw [hc', ok_bind, if_pos (Or.inl ?_)]
  · rfl
  -- coefficient `0` of row `0` of `z` is `131072 + (c s1)[0][0]`
  have hcs : infNorm ((s1.map ntt).map fun x => nttInverse (mulNtt (ntt c) x)) ≤ 78 := by
    have := infNorm_mulNtt_le hcl hs1 (by rw [habs]; decide)
    rwa [habs] at this
  have key : ∀ x : ℤ, infNormCoeff x ≤ 78 → 130994 ≤ infNormCoeff (addCoeff 131072 x) := fun x h => by
    simp only [infNormCoeff, addCoeff, modpm, mlDsaQ, abs_le] at h ⊢
    exact le_abs.mpr (Or.inl (by omega))
  refine le_trans (by decide) ((key _ (infNormCoeff_getD_le (by norm_num) hcs 0 0)).trans
    ((le_of_eq ?_).trans (infNormCoeff_getD_le ((foldl_max_le_iff _ _ _ 0).mp le_rfl).1 le_rfl 0 0)))
  rw [getD_map_range _ (by decide), getD_replicate_of_lt _ _ (by decide),
    getD_addPoly _ _ (by rw [List.length_replicate]; decide), getD_replicate_of_lt _ _ (by decide)]

/-- A decoded ML-DSA-44 key under the all-zero hash: `keygen_internal` returns, and
every pass of the signing loop on its key rejects, so the loop never returns. -/
theorem signLoop_mask_counter_wraps_constHash :
    let p := mlDsaParam .mlDsa44
    let H := constHash 0
    ∃ (pk sk rho kk tr mu rhopp : Bytes) (s1 s2 t0 : List (List ℤ)) (A : List (List (List ℤ))),
      keygenInternal p H (List.replicate 32 0) 256 = .ok (pk, sk) ∧
      skDecode p sk = .ok (rho, kk, tr, s1, s2, t0) ∧ expandA p H rho 256 = .ok A ∧
      mu = H.h (tr ++ []) 64 ∧ rhopp = H.h (kk ++ List.replicate 32 0 ++ mu) 64 ∧
      signAttempt p H 256 A (s1.map ntt) (s2.map ntt) (t0.map ntt) mu rhopp (0 + 2 ^ 16) =
        signAttempt p H 256 A (s1.map ntt) (s2.map ntt) (t0.map ntt) mu rhopp 0 ∧
      0 < 16384 ∧ 2 ^ 16 ∣ 16384 * p.ell ∧
      (∀ j < 16384, signAttempt p H 256 A (s1.map ntt) (s2.map ntt) (t0.map ntt) mu rhopp (0 + j * p.ell) =
        .ok none) ∧
      signLoop p H 256 A (s1.map ntt) (s2.map ntt) (t0.map ntt) mu rhopp 16384 0 = .error .outOfFuel := by
  intro p H
  obtain ⟨pk, sk, hk⟩ := keygenInternal_constHash_ok (p := p) (b := 0) (v := 2) (List.replicate 32 0) le_rfl
    (by decide) (by decide)
  obtain ⟨rho, kk, tr, hsk⟩ := keygenInternal_constHash_sk (by decide) (by decide) le_rfl hk
  have hA : expandA p H rho 256 = .ok (List.replicate p.k (List.replicate p.ell (List.replicate 256 0))) :=
    expandA_const le_rfl fun _ _ => by simp only [H, constHash_shake128]; exact coeffFromThreeBytes_zero
  have hs1 : RowsIn 4 (fun x => -((2 : ℕ) : ℤ) ≤ x ∧ x ≤ (2 : ℕ)) (List.replicate 4 (List.replicate 256 2)) :=
    ⟨List.length_replicate _ _, forall_mem_replicate_rows (v := 2) (by decide) 4⟩
  exact ⟨pk, sk, rho, kk, tr, _, _, _, _, _, _, hk, hsk, hA, rfl, rfl, signLoop_mask_counter_wraps.1 0,
    by decide, by decide, fun _ _ => signAttempt_constHash_zero hs1 _ _ _ _ _ _ _,
    signLoop_mask_counter_wraps.2 16384 0 (by decide) (by decide)
      (fun _ _ => signAttempt_constHash_zero hs1 _ _ _ _ _ _ _) 16384⟩

end MlDsa
