import MlDsa.Verify
import MlDsa.NttAlgebra

/-!
# Completeness

Every signature that `sign_internal` returns under a key pair of `keygen_internal`
is accepted by `verify_internal`, and so through the public entry points. The
proof follows FIPS 204: the verifier's `w'_approx` is the signer's
`w - c s2 + c t0`, and the hint turns it back into `high_bits(w)`.
-/

namespace MlDsa

set_option autoImplicit false

open Finset

theorem modpm_emod_q (x : ℤ) : modpm x mlDsaQ % mlDsaQ = x % mlDsaQ := by
  simp only [modpm, mlDsaQ]
  omega

theorem modpm_negCoeff (x : ℤ) : modpm (negCoeff x) mlDsaQ = -modpm x mlDsaQ := by
  simp only [negCoeff, modpm, mlDsaQ]
  omega

theorem infNormCoeff_negCoeff (x : ℤ) : infNormCoeff (negCoeff x) = infNormCoeff x := by
  rw [infNormCoeff, infNormCoeff, modpm_negCoeff, abs_neg]

theorem getD_negPoly (a : List ℤ) {t : ℕ} (ht : t < a.length) :
    (negPoly a).getD t 0 = negCoeff (a.getD t 0) := by
  rw [negPoly, List.getD_eq_getElem _ _ (by simpa using ht), List.getElem_map, List.getElem_range]

theorem toZq_map_modpm (w : List ℤ) (t : ℕ) : toZq (w.map fun x => modpm x mlDsaQ) t = toZq w t := by
  simp only [toZq, List.getD_eq_getElem?_getD, List.getElem?_map]
  cases w[t]? with
  | none => rfl
  | some x => rw [Option.map_some', Option.getD_some, Option.getD_some, ← intCast_emod_q, modpm_emod_q,
      intCast_emod_q]

theorem addPoly_subPoly {u : List ℤ} (v : List ℤ) (cu : ∀ x ∈ u, x % mlDsaQ = x) :
    addPoly (subPoly u v) v = u := by
  refine List.ext_getElem (by simp) fun t h1 h2 => ?_
  have e := cu _ (List.getElem_mem h2)
  rw [getElem_addPoly, getD_subPoly _ _ (by simpa using h1), List.getD_eq_getElem _ _ h2]
  simp only [addCoeff, subCoeff, mlDsaQ] at e ⊢
  omega

theorem addPoly_addPoly_negPoly {u v : List ℤ} (hl : u.length = v.length) (cu : ∀ x ∈ u, x % mlDsaQ = x) :
    addPoly (addPoly u v) (negPoly v) = u := by
  refine List.ext_getElem (by simp) fun t h1 h2 => ?_
  have e := cu _ (List.getElem_mem h2)
  rw [getElem_addPoly, getD_addPoly _ _ (by simpa using h1), getD_negPoly _ (by simp at h1; omega),
    List.getD_eq_getElem _ _ h2]
  simp only [addCoeff, negCoeff, mlDsaQ] at e ⊢
  omega

theorem emod_subPoly (a b : List ℤ) : ∀ x ∈ subPoly a b, x % mlDsaQ = x := by
  intro x hx
  obtain ⟨j, hj, rfl⟩ := List.getElem_of_mem hx
  rw [← List.getD_eq_getElem _ 0 hj, getD_subPoly _ _ (by simpa using hj), subCoeff, Int.emod_emod]

theorem mem_range_of_emod {x : ℤ} (h : x % mlDsaQ = x) : 0 ≤ x ∧ x < mlDsaQ := by
  simp only [mlDsaQ] at *
  omega

theorem getD_map_mulNtt (c : List ℤ) {s : List (List ℤ)} {i : ℕ} (hi : i < s.length) :
    ((s.map ntt).map fun x => nttInverse (mulNtt (ntt c) x)).getD i [] =
      nttInverse (mulNtt (ntt c) (ntt (s.getD i []))) := by
  rw [getD_map_of_lt _ (by simpa using hi) [], getD_map_of_lt _ hi []]

theorem infNorm_mulNtt_le {c : List ℤ} (hc : c.length = 256) {n eta : ℕ} {s : List (List ℤ)}
    (hs : RowsIn n (fun x => -(eta : ℤ) ≤ x ∧ x ≤ eta) s) (hB : (eta : ℤ) * absSum c < mlDsaQ / 2) :
    infNorm ((s.map ntt).map fun x => nttInverse (mulNtt (ntt c) x)) ≤ eta * absSum c := by
  refine infNorm_le_of_forall (mul_nonneg (Int.natCast_nonneg _)
    (Finset.sum_nonneg fun _ _ => abs_nonneg _)) fun row hrow a ha => ?_
  obtain ⟨x, hx, rfl⟩ := List.mem_map.mp hrow
  obtain ⟨v, hv, rfl⟩ := List.mem_map.mp hx
  rw [nttInverse_mulNtt_ntt hc (hs.2 v hv).1] at ha
  exact infNormCoeff_negacyclicMul (fun l => getD_le_of_forall (P := fun x => |x| ≤ (eta : ℤ))
    (fun x hx => abs_le.mpr ((hs.2 v hv).2 x hx)) (by simp)) hB a ha

theorem infNorm_map_negPoly_le {v : List (List ℤ)} {B : ℤ} (hB : 0 ≤ B) (h : infNorm v ≤ B) :
    infNorm (v.map negPoly) ≤ B := by
  refine infNorm_le_of_forall hB fun row hrow a ha => ?_
  obtain ⟨r, hr, rfl⟩ := List.mem_map.mp hrow
  obtain ⟨t, ht, rfl⟩ := List.mem_map.mp ha
  rw [infNormCoeff_negCoeff]
  exact infNormCoeff_le_of_infNorm_le h r hr _ (getD_mem (by simpa using ht))

theorem centred_z {z : List (List ℤ)} {B : ℤ} (hB : 0 < B) (h : infNorm z < B) :
    infNorm (z.map fun zi => zi.map fun x => modpm x mlDsaQ) < B ∧
      ∀ row ∈ z.map (fun zi => zi.map fun x => modpm x mlDsaQ), ∀ x ∈ row, |x| < B := by
  have e : ∀ row ∈ z.map (fun zi => zi.map fun x => modpm x mlDsaQ), ∀ x ∈ row,
      infNormCoeff x < B ∧ |x| < B := by
    intro row hrow a ha
    obtain ⟨zi, hzi, rfl⟩ := List.mem_map.mp hrow
    obtain ⟨x, hx, rfl⟩ := List.mem_map.mp ha
    have := infNormCoeff_lt_of_infNorm_lt h zi hzi x hx
    rw [infNormCoeff, modpm_modpm]
    exact ⟨this, this⟩
  exact ⟨infNorm_lt_of_forall hB fun row hrow x hx => (e row hrow x hx).1,
    fun row hrow x hx => (e row hrow x hx).2⟩

theorem makeHint_rows (p : Params) (z : List (List ℤ)) {u : List (List ℤ)} (hu : ∀ row ∈ u, row.length = 256) :
    (makeHint p z u).length = u.length ∧ ∀ row ∈ makeHint p z u, row.length = 256 ∧ ∀ x ∈ row, x ≤ 1 := by
  refine ⟨by simp [makeHint, neq], fun row hrow => ?_⟩
  unfold makeHint neq at hrow
  obtain ⟨i, hi, rfl⟩ := List.getElem_of_mem hrow
  have hi' : i < u.length := by simpa using hi
  rw [getElem_zipIdx]
  refine ⟨by rw [neqPoly, length_zipIdx, getD_highBits p hi', List.length_map, hu _ (getD_mem hi')],
    fun x hx => ?_⟩
  unfold neqPoly at hx
  obtain ⟨j, hj, rfl⟩ := List.getElem_of_mem hx
  rw [getElem_zipIdx, neqCoeff]
  split_ifs <;> omega

theorem rows_addPoly_subPoly {k : ℕ} {w cs2 ct0 : List (List ℤ)}
    (cw : ∀ i < k, (w.getD i []).length = 256) :
    ∀ row ∈ (List.range k).map (fun i => addPoly (subPoly (w.getD i []) (cs2.getD i [])) (ct0.getD i [])),
      row.length = 256 ∧ ∀ x ∈ row, 0 ≤ x ∧ x < mlDsaQ := by
  intro row hrow
  obtain ⟨i, hi, rfl⟩ := List.mem_map.mp hrow
  exact ⟨by rw [length_addPoly, length_subPoly, cw i (List.mem_range.mp hi)],
    fun x hx => mem_range_of_emod (emod_addPoly _ _ x hx)⟩

/-- The signer's hint: when `‖c s2‖ ≤ beta`, `‖c t0‖ < gam2` and the low bits of
`w - c s2` are below `gam2 - beta`, `use_hint` on `w - c s2 + c t0` gives back
`high_bits(w)`. -/
theorem useHint_makeHint_highBits (p : Params) (hg : p.gam2 = 95232 ∨ p.gam2 = 261888) (hk : 0 < p.k)
    {w cs2 ct0 : List (List ℤ)} (hw : w.length = p.k)
    (cw : ∀ i < p.k, (w.getD i []).length = 256 ∧ ∀ x ∈ w.getD i [], x % mlDsaQ = x)
    (hct0 : ct0.length = p.k ∧ ∀ i < p.k, (ct0.getD i []).length = 256)
    (hcs2 : infNorm cs2 ≤ p.beta) (hct0n : infNorm ct0 < p.gam2)
    (hlow : infNorm (lowBits p ((List.range p.k).map fun i => subPoly (w.getD i []) (cs2.getD i []))) <
      p.gam2 - p.beta) :
    let u := (List.range p.k).map fun i => addPoly (subPoly (w.getD i []) (cs2.getD i [])) (ct0.getD i [])
    useHint p (makeHint p (ct0.map negPoly) u) u = .ok (highBits p w) := by
  intro u
  set r := (List.range p.k).map fun i => subPoly (w.getD i []) (cs2.getD i []) with hr
  have hr_rows : ∀ row ∈ r, ∀ x ∈ row, 0 ≤ x ∧ x < mlDsaQ := by
    intro row hrow x hx
    obtain ⟨i, -, rfl⟩ := List.mem_map.mp hrow
    exact mem_range_of_emod (emod_subPoly _ _ x hx)
  -- `u - c t0 = r` and `r + c s2 = w`, row by row
  have hadd1 : add u (ct0.map negPoly) = r := by
    refine eq_of_getD [] (by simp [u, r]) fun i hi => ?_
    have hi' : i < p.k := by simpa [u] using hi
    rw [getD_add _ _ (by simpa [u] using hi'), getD_map_range _ hi', getD_map_range _ hi',
      getD_map_of_lt negPoly (by rw [hct0.1]; exact hi') []]
    exact addPoly_addPoly_negPoly (by rw [length_subPoly, (cw i hi').1, hct0.2 i hi']) (emod_subPoly _ _)
  have hadd2 : add r cs2 = w := by
    refine eq_of_getD [] (by simp [r, hw]) fun i hi => ?_
    have hi' : i < p.k := by simpa [r] using hi
    rw [getD_add _ _ (by rw [hr, List.length_map, List.length_range]; exact hi'), getD_map_range _ hi',
      addPoly_subPoly _ (cw i hi').2]
  rw [useHint_makeHint p hg _ (List.ne_nil_of_length_pos (by simp [u, hk]))
      (rows_addPoly_subPoly fun i hi => (cw i hi).1) (infNorm_map_negPoly_le (Int.natCast_nonneg _) hct0n.le),
    hadd1, ← highBits_add_of_low p hg cs2 hr_rows hcs2 hlow, hadd2]

section Approx

variable {p : Params} {A : List (List (List ℤ))} {c : List ℤ}

/-- Row `i` of `w'_approx = NTT⁻¹(Â NTT(z) - NTT(c) NTT(t1 2^d))` is the signer's
`w - c s2 + c t0` when `z ≡ y + c s1` and `t1 2^d + t0 ≡ A s1 + s2` modulo `q`. -/
theorem nttInverse_wApprox {i : ℕ} (hi : i < p.k) {y z s1 : List (List ℤ)} {s2i t0i t1i : List ℤ}
    (hy : RowsIn p.ell (fun _ => True) y) (hz : RowsIn p.ell (fun _ => True) z)
    (hs1 : RowsIn p.ell (fun _ => True) s1) (hs2 : s2i.length = 256) (ht0 : t0i.length = 256)
    (ht1 : t1i.length = 256)
    (hzy : ∀ j < p.ell, ∀ t < 256, toZq (z.getD j []) t =
      toZq (y.getD j []) t + toZq (nttInverse (mulNtt (ntt c) (ntt (s1.getD j [])))) t)
    (ht : ∀ t < 256, toZq (t1i.map fun x => x * 2 ^ p.d) t + toZq t0i t =
      toZq (nttInverse ((matrixVectorNtt p A (s1.map ntt)).getD i [])) t + toZq s2i t) :
    nttInverse (subPoly ((matrixVectorNtt p A (z.map ntt)).getD i [])
        (mulNtt (ntt c) (ntt (t1i.map fun x => x * 2 ^ p.d)))) =
      addPoly (subPoly (nttInverse ((matrixVectorNtt p A (y.map ntt)).getD i []))
        (nttInverse (mulNtt (ntt c) (ntt s2i)))) (nttInverse (mulNtt (ntt c) (ntt t0i))) := by
  have row : ∀ {v : List (List ℤ)}, RowsIn p.ell (fun _ => True) v → ∀ j < p.ell,
      (v.map ntt).getD j [] = ntt (v.getD j []) ∧ (v.getD j []).length = 256 := fun hv j hj =>
    ⟨getD_map_of_lt _ (by rw [hv.1]; exact hj) [], (hv.2 _ (getD_mem (by rw [hv.1]; exact hj))).1⟩
  have ht1' : (t1i.map fun x => x * 2 ^ p.d).length = 256 := by rw [List.length_map, ht1]
  refine nttInverse_eq_of_toZq (by simp) (emod_addPoly _ _)
    (by rw [length_subPoly, getD_matrixVectorNtt p _ _ hi, length_rowAccum]) fun k hk => ?_
  set ch := toZq (ntt c) k
  -- the NTT-domain value of row `i` of `A v`, for `v = y` and `v = s1`
  set Ay := ∑ j ∈ range p.ell, toZq ((A.getD i []).getD j []) k * toZq (ntt (y.getD j [])) k
  set As1 := ∑ j ∈ range p.ell, toZq ((A.getD i []).getD j []) k * toZq (ntt (s1.getD j [])) k
  have hAv : ∀ {v : List (List ℤ)}, RowsIn p.ell (fun _ => True) v →
      toZq ((matrixVectorNtt p A (v.map ntt)).getD i []) k =
        ∑ j ∈ range p.ell, toZq ((A.getD i []).getD j []) k * toZq (ntt (v.getD j [])) k := fun hv => by
    rw [getD_matrixVectorNtt p _ _ hi, toZq_rowAccum _ _ _ hk]
    exact Finset.sum_congr rfl fun j hj => by rw [(row hv j (Finset.mem_range.mp hj)).1]
  have hprod : ∀ {u : List ℤ}, u.length = 256 →
      toZq (ntt (nttInverse (mulNtt (ntt c) (ntt u)))) k = ch * toZq (ntt u) k := fun hu => by
    rw [toZq_ntt_nttInverse (by simp [mulNtt]), toZq_mulNtt, if_neg (by omega)]
  -- `NTT(z) = NTT(y) + NTT(c) NTT(s1)`
  have hAz : toZq ((matrixVectorNtt p A (z.map ntt)).getD i []) k = Ay + ch * As1 := by
    rw [hAv hz, Finset.mul_sum, ← Finset.sum_add_distrib]
    refine Finset.sum_congr rfl fun j hj => ?_
    have hj' := Finset.mem_range.mp hj
    rw [toZq_ntt (row hz j hj').2, nttZ_congr hk (hzy j hj'), nttZ_add hk,
      ← toZq_ntt (row hy j hj').2, ← toZq_ntt (length_nttInverse _), hprod (row hs1 j hj').2]
    ring
  -- `NTT(t1 2^d) = NTT(A s1) + NTT(s2) - NTT(t0)`
  have hT : toZq (ntt (t1i.map fun x => x * 2 ^ p.d)) k = As1 + toZq (ntt s2i) k - toZq (ntt t0i) k := by
    have e : ∀ t < 256, toZq (t1i.map fun x => x * 2 ^ p.d) t =
        toZq (nttInverse ((matrixVectorNtt p A (s1.map ntt)).getD i [])) t + toZq s2i t - toZq t0i t :=
      fun t htt => eq_sub_of_add_eq (ht t htt)
    rw [toZq_ntt ht1', nttZ_congr hk e, nttZ_sub hk, nttZ_add hk, ← toZq_ntt (length_nttInverse _),
      ← toZq_ntt hs2, ← toZq_ntt ht0, toZq_ntt_nttInverse (by rw [getD_matrixVectorNtt p _ _ hi,
        length_rowAccum]), hAv hs1]
  have hW : (subPoly (nttInverse ((matrixVectorNtt p A (y.map ntt)).getD i []))
      (nttInverse (mulNtt (ntt c) (ntt s2i)))).length = 256 := by simp
  rw [toZq_subPoly _ (by rw [getD_matrixVectorNtt p _ _ hi, length_rowAccum]; exact hk), hAz,
    toZq_mulNtt, if_neg (by omega), hT, toZq_ntt_addPoly hW (length_nttInverse _) hk,
    toZq_ntt_subPoly (length_nttInverse _) (length_nttInverse _) hk, hprod hs2, hprod ht0,
    toZq_ntt_nttInverse (by rw [getD_matrixVectorNtt p _ _ hi, length_rowAccum]), hAv hy]
  ring

end Approx

/-- The facts about a parameter set that completeness rests on. -/
structure SchemeParams (p : Params) : Prop where
  widths : CodecWidths p
  d_eq : p.d = 13
  t1Width_eq : t1Width p = 23 - p.d
  gam2_eq : p.gam2 = 95232 ∨ p.gam2 = 261888
  tau_le : p.tau ≤ 256
  beta_eq : (p.beta : ℤ) = p.eta * p.tau
  beta_lt : (p.eta : ℤ) * p.tau < mlDsaQ / 2
  beta_lt_gam1 : p.beta < p.gam1
  k_pos : 0 < p.k

theorem schemeParams_mlDsaParam (ps : ParamSet) : SchemeParams (mlDsaParam ps) := by
  cases ps <;> exact ⟨codecWidths_mlDsaParam _, rfl, by decide, by decide, by decide, by decide, by decide,
    by decide, by decide⟩

section Complete

variable {p : Params} (S : SchemeParams p) {H : HashModel} {fuel : ℕ}
include S

theorem verifyInternal_signInternal {xi pk sk mp rnd sig : Bytes}
    (hk : keygenInternal p H xi fuel = .ok (pk, sk)) (hs : signInternal p H sk mp rnd fuel = .ok sig) :
    verifyInternal p H pk mp sig fuel = .ok true := by
  obtain ⟨rho, K, tr, s1, s2, t0, t1, A, hskd, hpkd, htr, hs1, hs2, ht0, ht1, hA, hcong⟩ :=
    keygenInternal_invariant S.widths S.d_eq S.t1Width_eq hk
  obtain ⟨rho', kk, tr', s1', s2', t0', ah, kappa, ct, z, h, hskd', hA', hatt, rfl⟩ := signInternal_eq_ok hs
  rw [hskd] at hskd'
  simp only [Except.ok.injEq, Prod.mk.injEq] at hskd'
  obtain ⟨rfl, rfl, rfl, rfl, rfl, rfl⟩ := hskd'
  rw [hA, Except.ok.injEq] at hA'
  subst hA'
  obtain ⟨y, c, hy, hct, hc, hz, hh, hzn, hr0n, hct0n, hwt⟩ := signAttempt_eq_some hatt
  obtain ⟨hcl, -, habs⟩ := sampleInBall_spec S.tau_le hc
  obtain ⟨hyl, hyr⟩ := expandMask_rows hy
  have hmv : ∀ v : List (List ℤ), (matrixVectorNtt p A v).length = p.k := fun v => by
    rw [matrixVectorNtt, List.length_map, List.length_range]
  set w := (matrixVectorNtt p A (y.map ntt)).map nttInverse with hw
  have hwi : ∀ i < p.k, w.getD i [] = nttInverse ((matrixVectorNtt p A (y.map ntt)).getD i []) :=
    fun i hi => getD_map_of_lt _ (by rw [hmv]; exact hi) []
  have cw : ∀ i < p.k, (w.getD i []).length = 256 ∧ ∀ x ∈ w.getD i [], x % mlDsaQ = x := fun i hi => by
    rw [hwi i hi]; exact ⟨length_nttInverse _, emod_nttInverse _⟩
  set cs2 := (s2.map ntt).map fun s2i => nttInverse (mulNtt (ntt c) s2i) with hcs2
  set ct0 := (t0.map ntt).map fun t0i => nttInverse (mulNtt (ntt c) t0i) with hct0
  set u := (List.range p.k).map fun i =>
    addPoly (subPoly (w.getD i []) (cs2.getD i [])) (ct0.getD i []) with hu
  set zc := z.map fun zi => zi.map fun x => modpm x mlDsaQ with hzc
  -- the norms
  have hcs2b : infNorm cs2 ≤ p.beta := by
    have := infNorm_mulNtt_le hcl hs2 (by rw [habs]; exact S.beta_lt)
    rwa [habs, ← S.beta_eq] at this
  have hB : (0 : ℤ) < p.gam1 - p.beta := by have := S.beta_lt_gam1; omega
  obtain ⟨hzcn, hzcb⟩ := centred_z hB hzn
  have hzl : z.length = p.ell := by rw [hz, List.length_map, List.length_range]
  have hzr : ∀ j < p.ell, (z.getD j []).length = 256 := fun j hj => by
    rw [hz, getD_map_range _ hj, length_addPoly, hyr _ (getD_mem (by rw [hyl]; exact hj))]
  -- the hint
  have hint : useHint p h u = .ok (highBits p w) := by
    rw [hh]
    exact useHint_makeHint_highBits p S.gam2_eq S.k_pos (by rw [hw, List.length_map, hmv]) cw
      ⟨by rw [hct0, List.length_map, List.length_map, ht0.1], fun i hi => by
        rw [hct0, getD_map_mulNtt c (by rw [ht0.1]; exact hi), length_nttInverse]⟩ hcs2b hct0n hr0n
  -- the verifier's `w'_approx`
  have hwp : ((List.range p.k).map fun i => nttInverse (subPoly ((matrixVectorNtt p A (zc.map ntt)).getD i [])
      (((t1.map fun t1i => ntt (t1i.map fun x => x * 2 ^ p.d)).map fun thi => mulNtt (ntt c) thi).getD i []))) =
      u := by
    refine List.map_congr_left fun i hi => ?_
    have hi' := List.mem_range.mp hi
    have ht1i : (t1.getD i []).length = 256 := (ht1.2 _ (getD_mem (by rw [ht1.1]; exact hi'))).1
    rw [getD_map_of_lt _ (by simpa [ht1.1] using hi') [], getD_map_of_lt _ (by rw [ht1.1]; exact hi') [],
      hwi i hi', getD_map_mulNtt c (by rw [hs2.1]; exact hi'), getD_map_mulNtt c (by rw [ht0.1]; exact hi')]
    refine nttInverse_wApprox hi' ⟨hyl, fun row hrow => ⟨hyr row hrow, fun _ _ => trivial⟩⟩
      ⟨by rw [List.length_map, hzl], fun row hrow => ?_⟩
      ⟨hs1.1, fun row hrow => ⟨(hs1.2 row hrow).1, fun _ _ => trivial⟩⟩
      (hs2.2 _ (getD_mem (by rw [hs2.1]; exact hi'))).1 (ht0.2 _ (getD_mem (by rw [ht0.1]; exact hi'))).1
      ht1i (fun j hj t ht => ?_) (fun t ht => ?_)
    · obtain ⟨zi, hzi, rfl⟩ := List.mem_map.mp hrow
      obtain ⟨j, hj, rfl⟩ := List.getElem_of_mem hzi
      exact ⟨by rw [List.length_map, ← List.getD_eq_getElem _ [] hj, hzr j (by omega)], fun _ _ => trivial⟩
    · rw [getD_map_of_lt _ (by rw [hzl]; exact hj) [], toZq_map_modpm, hz, getD_map_range _ hj,
        toZq_addPoly _ (by rw [hyr _ (getD_mem (by rw [hyl]; exact hj))]; exact ht),
        getD_map_mulNtt c (by rw [hs1.1]; exact hj)]
    · have e := congrArg (fun x : ℤ => (x : Zq)) (hcong i hi' t ht)
      simp only [intCast_emod_q, Int.cast_add] at e
      rw [toZq, getD_map_of_lt _ (by rw [ht1i]; exact ht) 0]
      exact e
  have hsd : sigDecode p (sigEncode p ct zc h) = .ok (ct, zc, some h) := by
    obtain ⟨hhl, hhr⟩ := makeHint_rows p (ct0.map negPoly)
      (fun row hrow => (rows_addPoly_subPoly (fun i hi => (cw i hi).1) row hrow).1)
    refine sigDecode_sigEncode p S.widths.z ct zc h S.widths.omega_lt (by rw [hct, length_h])
      (by rw [List.length_map, hzl]) (fun row hrow => ⟨?_, fun x hx => ?_⟩) (by rw [hh, hhl]; simp [u])
      (by rw [hh]; exact hhr) hwt
    · obtain ⟨zi, hzi, rfl⟩ := List.mem_map.mp hrow
      obtain ⟨j, hj, rfl⟩ := List.getElem_of_mem hzi
      rw [List.length_map, ← List.getD_eq_getElem _ [] hj, hzr j (by omega)]
    · have := abs_lt.mp (hzcb row hrow x hx)
      have := S.widths.gam1_pos
      omega
  rw [verifyInternal_eq hpkd hsd hA hc (by rw [hwp]; exact hint), ← htr, ← hct]
  simp [hzcn]

end Complete

theorem map_some_eq_ok {α : Type} {x : Except Fault α} {a : α} (h : (some <$> x) = .ok (some a)) :
    x = .ok a := by
  cases x with
  | error e => cases h
  | ok b => cases h; rfl

theorem keygenInternal_constHash_sk {b : UInt8} (hlo : coeffFromHalfByte (mlDsaParam .mlDsa44) (b.toNat % 16) = some 2)
    (hhi : coeffFromHalfByte (mlDsaParam .mlDsa44) (b.toNat / 16) = some 2) {xi pk sk : Bytes} {fuel : ℕ}
    (hf : 256 ≤ fuel) (hk : keygenInternal (mlDsaParam .mlDsa44) (constHash b) xi fuel = .ok (pk, sk)) :
    ∃ rho kk tr, skDecode (mlDsaParam .mlDsa44) sk =
      .ok (rho, kk, tr, List.replicate (mlDsaParam .mlDsa44).ell (List.replicate 256 2),
        List.replicate (mlDsaParam .mlDsa44).k (List.replicate 256 2),
        List.replicate (mlDsaParam .mlDsa44).k (List.replicate 256 2)) := by
  obtain ⟨A, s1, s2, hA, hS, -, hsk⟩ := keygenInternal_eq_ok hk
  rw [expandA_const hf fun _ _ => by simp only [constHash_shake128]; exact coeffFromThreeBytes_zero,
    Except.ok.injEq] at hA
  rw [expandS_const (v := 2) (by omega) (fun _ _ => by rw [constHash_shake256]; exact hlo)
    (fun _ _ => by rw [constHash_shake256]; exact hhi), Except.ok.injEq, Prod.mk.injEq] at hS
  obtain ⟨rfl, rfl⟩ := hS
  subst hA
  have ht : ((List.range (mlDsaParam .mlDsa44).k).map fun i => addPoly (nttInverse ((matrixVectorNtt
      (mlDsaParam .mlDsa44) (List.replicate (mlDsaParam .mlDsa44).k (List.replicate (mlDsaParam .mlDsa44).ell
        (List.replicate 256 0))) ((List.replicate (mlDsaParam .mlDsa44).ell (List.replicate 256 2)).map ntt)).getD
          i [])) ((List.replicate (mlDsaParam .mlDsa44).k (List.replicate 256 2)).getD i [])) =
      List.replicate (mlDsaParam .mlDsa44).k (List.replicate 256 2) := by
    have e : addPoly (List.replicate 256 0) (List.replicate 256 2) = List.replicate 256 2 :=
      eq_of_getD 0 (by rw [length_addPoly, List.length_replicate, List.length_replicate]) fun t ht => by
        rw [length_addPoly, List.length_replicate] at ht
        rw [getD_addPoly _ _ (by rw [List.length_replicate]; exact ht), getD_replicate_of_lt _ _ ht,
          getD_replicate_of_lt _ _ ht]
        rfl
    rw [List.map_congr_left fun i hi => by
      rw [nttInverse_matrixVectorNtt_zero _ _ (List.mem_range.mp hi), getD_replicate_of_lt _ _ (List.mem_range.mp hi),
        e], List.map_const', List.length_range]
  rw [ht, power2round] at hsk
  simp only [List.map_replicate, show (power2roundCoeff (mlDsaParam .mlDsa44) 2).2 = 2 by decide] at hsk
  subst hsk
  have hR : ∀ n, ∀ r ∈ List.replicate n (List.replicate 256 (2 : ℤ)), r.length = 256 ∧ ∀ x ∈ r,
      -((mlDsaParam .mlDsa44).eta : ℤ) ≤ x ∧ x ≤ (mlDsaParam .mlDsa44).eta := fun n =>
    forall_mem_replicate_rows (by decide) n
  exact ⟨_, _, _, skDecode_skEncode _ (codecWidths_mlDsaParam _).t0 _ _ _ _ _ _ (by simp) (by simp) (by simp)
    (List.length_replicate _ _) (List.length_replicate _ _) (List.length_replicate _ _) (hR _) (hR _)
    (forall_mem_replicate_rows (by decide) _)⟩

theorem signAttempt_constHash_ok (fuel : ℕ) (mu rhopp : Bytes) :
    ∃ r, signAttempt (mlDsaParam .mlDsa44) (constHash 0x55) fuel
      (List.replicate (mlDsaParam .mlDsa44).k
        (List.replicate (mlDsaParam .mlDsa44).ell (List.replicate 256 0)))
      ((List.replicate (mlDsaParam .mlDsa44).ell (List.replicate 256 2)).map ntt)
      ((List.replicate (mlDsaParam .mlDsa44).k (List.replicate 256 2)).map ntt)
      ((List.replicate (mlDsaParam .mlDsa44).k (List.replicate 256 2)).map ntt) mu rhopp 0 = .ok (some r) := by
  obtain ⟨c, hc⟩ : ∃ c, sampleInBall (mlDsaParam .mlDsa44) (constHash 0x55)
      (List.replicate ((mlDsaParam .mlDsa44).lam / 4) 0x55) fuel = .ok c :=
    sampleInBall_ok_of_le fun pos => by rw [constHash_shake256]; decide
  rw [signAttempt, expandMask_constHash, ok_bind]
  dsimp only
  rw [map_nttInverse_matrixVectorNtt_zero (mlDsaParam .mlDsa44), constHash_h, hc, ok_bind]
  obtain ⟨hcl, -, habs⟩ := sampleInBall_spec (by decide) hc
  have hg : (mlDsaParam .mlDsa44).gam2 = 95232 ∨ (mlDsaParam .mlDsa44).gam2 = 261888 := Or.inl rfl
  -- `‖c s‖ ≤ 2 * 39` for the constant secrets
  have hcs : ∀ n, infNorm (((List.replicate n (List.replicate 256 2)).map ntt).map
      fun x => nttInverse (mulNtt (ntt c) x)) ≤ 78 := fun n => by
    have hs : RowsIn n (fun x => -((2 : ℕ) : ℤ) ≤ x ∧ x ≤ (2 : ℕ)) (List.replicate n (List.replicate 256 2)) :=
      ⟨List.length_replicate _ _, forall_mem_replicate_rows (v := 2) (by decide) n⟩
    have := infNorm_mulNtt_le hcl hs (by rw [habs]; decide)
    rwa [habs] at this
  have hcs' : ∀ n i t, infNormCoeff ((((List.replicate n (List.replicate 256 2)).map ntt).map
      fun x => nttInverse (mulNtt (ntt c) x)).getD i [] |>.getD t 0) ≤ 78 :=
    fun n i t => infNormCoeff_getD_le (by norm_num) (hcs n) i t
  have hw0 : ∀ n i t, infNormCoeff (((List.replicate n (List.replicate 256 (0 : ℤ))).getD i []).getD t 0) ≤ 0 :=
    fun n i t => infNormCoeff_getD_le le_rfl ((infNorm_replicate_le _ _ _).trans infNormCoeff_zero.le) i t
  have hy : ∀ i t, infNormCoeff (((List.replicate 4 (List.replicate 256 (43691 : ℤ))).getD i []).getD t 0) ≤
      43691 := fun i t => infNormCoeff_getD_le (by norm_num) ((infNorm_replicate_le _ _ _).trans (by decide)) i t
  split_ifs with h1 h2
  · exfalso
    rcases h1 with h1 | h1
    · exact absurd h1 (not_le.mpr ((infNorm_map_range_le (by norm_num)
        (fun i t => getD_addPoly_le (hy i) (hcs' _ i) t) _).trans_lt (by decide)))
    · exact absurd h1 (not_le.mpr ((infNorm_lowBits_le _ hg (by decide) (infNorm_map_range_le (by norm_num)
        (fun i t => getD_subPoly_le (hw0 _ i) (hcs' _ i) t) _) (by norm_num)).trans_lt (by decide)))
  · exfalso
    rcases h2 with h2 | h2
    · exact absurd ((hcs _).trans_lt (by decide)) (not_lt.mpr h2)
    · rw [makeHint_of_low _ hg _ (fun row hrow => ?_) (infNorm_map_negPoly_le (by norm_num)
        ((hcs _).trans (by decide))) ((infNorm_lowBits_le _ hg (by decide) (infNorm_map_range_le (by norm_num)
          (fun i t => getD_addPoly_le (getD_subPoly_le (hw0 _ i) (hcs' _ i)) (hcs' _ i) t) _)
          (by norm_num)).trans_lt (by decide)), weight_replicate_zero] at h2
      · exact absurd h2 (by decide)
      · obtain ⟨i, hi, rfl⟩ := List.mem_map.mp hrow
        exact ⟨by rw [length_addPoly, length_subPoly, getD_replicate_of_lt _ _ (List.mem_range.mp hi),
          List.length_replicate], fun x hx => mem_range_of_emod (emod_addPoly _ _ x hx)⟩
  · exact ⟨_, rfl⟩

/-- Under `constHash 0x55` and ML-DSA-44 the first pass of the signing loop
returns, so `sign_internal` returns a signature for every key pair, message and
`rnd`. -/
theorem signInternal_constHash_ok {xi pk sk : Bytes} {fuel : ℕ} (hf : 256 ≤ fuel)
    (hk : keygenInternal (mlDsaParam .mlDsa44) (constHash 0x55) xi fuel = .ok (pk, sk)) (mp rnd : Bytes) :
    ∃ sig, signInternal (mlDsaParam .mlDsa44) (constHash 0x55) sk mp rnd fuel = .ok sig := by
  obtain ⟨rho, kk, tr, hsk⟩ := keygenInternal_constHash_sk (by decide) (by decide) hf hk
  obtain ⟨n, rfl⟩ : ∃ n, fuel = n + 1 := ⟨fuel - 1, by omega⟩
  obtain ⟨r, hr⟩ := signAttempt_constHash_ok (n + 1) ((constHash 0x55).h (tr ++ mp) 64)
    ((constHash 0x55).h (kk ++ rnd ++ (constHash 0x55).h (tr ++ mp) 64) 64)
  rw [signInternal, hsk, ok_bind]
  dsimp only
  rw [expandA_const hf fun _ _ => by simp only [constHash_shake128]; exact coeffFromThreeBytes_zero, ok_bind,
    signLoop, hr, ok_bind]
  exact ⟨_, rfl⟩

theorem ml_dsa_complete (ps : ParamSet) (H : HashModel) (xi : Bytes) (fuel : ℕ) (pk sk : Bytes)
    (hk : keygenInternal (mlDsaParam ps) H xi fuel = .ok (pk, sk)) :
    (∀ mp rnd sig : Bytes, signInternal (mlDsaParam ps) H sk mp rnd fuel = .ok sig →
      verifyInternal (mlDsaParam ps) H pk mp sig fuel = .ok true) ∧
    (∀ (m ctx : Bytes) (rnd : Option Bytes) (sig : Bytes),
      sign (mlDsaParam ps) H sk m ctx rnd fuel = .ok (some sig) →
      verify (mlDsaParam ps) H pk m sig ctx fuel = .ok true) ∧
    (∀ (m ctx : Bytes) (ph : String) (rnd : Option Bytes) (sig : Bytes),
      hashMlDsaSign (mlDsaParam ps) H sk m ctx ph rnd fuel = .ok (some sig) →
      hashMlDsaVerify (mlDsaParam ps) H pk m sig ctx ph fuel = .ok (some true)) := by
  have S := schemeParams_mlDsaParam ps
  refine ⟨fun mp rnd sig hs => verifyInternal_signInternal S hk hs, fun m ctx rnd sig hs => ?_,
    fun m ctx ph rnd sig hs => ?_⟩
  · unfold sign at hs
    split_ifs at hs with hc
    · cases hs
    rw [verify, if_neg hc]
    exact verifyInternal_signInternal S hk (map_some_eq_ok hs)
  · unfold hashMlDsaSign at hs
    split_ifs at hs with hc
    · cases hs
    rw [hashMlDsaVerify, if_neg hc]
    cases hp : preHash H ph m with
    | none => rw [hp] at hs; cases hs
    | some op =>
      obtain ⟨oid, phm⟩ := op
      rw [hp] at hs
      dsimp only at hs ⊢
      rw [verifyInternal_signInternal S hk (map_some_eq_ok hs)]
      rfl

theorem ml_dsa_complete_constHash :
    ∃ pk sk sig sig' sig'' : Bytes,
      keygenInternal (mlDsaParam .mlDsa44) (constHash 0x55) (List.replicate 32 0) 256 = .ok (pk, sk) ∧
      signInternal (mlDsaParam .mlDsa44) (constHash 0x55) sk [] [] 256 = .ok sig ∧
      verifyInternal (mlDsaParam .mlDsa44) (constHash 0x55) pk [] sig 256 = .ok true ∧
      sign (mlDsaParam .mlDsa44) (constHash 0x55) sk [] [] none 256 = .ok (some sig') ∧
      verify (mlDsaParam .mlDsa44) (constHash 0x55) pk [] sig' [] 256 = .ok true ∧
      hashMlDsaSign (mlDsaParam .mlDsa44) (constHash 0x55) sk [] [] "SHA-256" none 256 = .ok (some sig'') ∧
      hashMlDsaVerify (mlDsaParam .mlDsa44) (constHash 0x55) pk [] sig'' [] "SHA-256" 256 = .ok (some true) := by
  obtain ⟨pk, sk, hk⟩ := keygenInternal_constHash_ok (p := mlDsaParam .mlDsa44) (b := 0x55) (v := 2)
    (List.replicate 32 0) le_rfl (by decide) (by decide)
  obtain ⟨h1, h2, h3⟩ := ml_dsa_complete .mlDsa44 (constHash 0x55) (List.replicate 32 0) 256 pk sk hk
  obtain ⟨sig, hs⟩ := signInternal_constHash_ok le_rfl hk [] []
  obtain ⟨sig', hs'⟩ := signInternal_constHash_ok le_rfl hk (pureMessage [] []) (List.replicate 32 0)
  obtain ⟨sig'', hs''⟩ := signInternal_constHash_ok le_rfl hk
    (preHashMessage [] [0x06, 0x09, 0x60, 0x86, 0x48, 0x01, 0x65, 0x03, 0x04, 0x02, 0x01]
      ((constHash 0x55).sha256 [])) (List.replicate 32 0)
  have e' : sign (mlDsaParam .mlDsa44) (constHash 0x55) sk [] [] none 256 = .ok (some sig') := by
    rw [sign, if_neg (by decide)]
    dsimp only
    rw [Option.getD_none, hs']
    rfl
  have e'' : hashMlDsaSign (mlDsaParam .mlDsa44) (constHash 0x55) sk [] [] "SHA-256" none 256 = .ok (some sig'') := by
    rw [hashMlDsaSign, if_neg (by decide), preHash, if_pos rfl]
    dsimp only
    rw [Option.getD_none, hs'']
    rfl
  exact ⟨pk, sk, sig, sig', sig'', hk, hs, h1 _ _ _ hs, e', h2 _ _ _ _ e', e'', h3 _ _ _ _ _ e''⟩

end MlDsa
