import MlDsa.NttMul
import MlDsa.Sample
import Mathlib.Algebra.Order.BigOperators.Group.Finset

/-!
# The transforms as linear maps

Over `ℤ_q`, `ntt` is evaluation at the roots of `X^256 + 1`, so `matrix_vector_ntt`
on transformed vectors is the product over `ℤ_q[X]/(X^256 + 1)`; and the bound
`‖c s‖ ≤ tau eta` for a challenge `c` and a short `s`.
-/

namespace MlDsa

set_option autoImplicit false

open Finset

section Eval

variable {k : ℕ} (hk : k < 256)
include hk

theorem nttZ_congr {f g : ℕ → Zq} (h : ∀ t < 256, f t = g t) : nttZ f k = nttZ g k := by
  rw [nttZ_eq_sum f hk, nttZ_eq_sum g hk]
  exact Finset.sum_congr rfl fun t ht => by rw [h t (Finset.mem_range.mp ht)]

theorem nttZ_add (f g : ℕ → Zq) : nttZ (fun t => f t + g t) k = nttZ f k + nttZ g k := by
  simp only [nttZ_eq_sum _ hk, add_mul, Finset.sum_add_distrib]

theorem nttZ_sub (f g : ℕ → Zq) : nttZ (fun t => f t - g t) k = nttZ f k - nttZ g k := by
  simp only [nttZ_eq_sum _ hk, sub_mul, Finset.sum_sub_distrib]

end Eval

theorem toZq_addPoly {a : List ℤ} (b : List ℤ) {t : ℕ} (ht : t < a.length) :
    toZq (addPoly a b) t = toZq a t + toZq b t := by
  rw [toZq, getD_addPoly _ _ ht, addCoeff, intCast_emod_q, Int.cast_add]
  rfl

theorem toZq_subPoly {a : List ℤ} (b : List ℤ) {t : ℕ} (ht : t < a.length) :
    toZq (subPoly a b) t = toZq a t - toZq b t := by
  rw [toZq, getD_subPoly _ _ ht, subCoeff, intCast_emod_q, Int.cast_sub]
  rfl

theorem emod_addPoly (a b : List ℤ) : ∀ x ∈ addPoly a b, x % mlDsaQ = x := by
  intro x hx
  obtain ⟨j, hj, rfl⟩ := List.getElem_of_mem hx
  rw [getElem_addPoly, addCoeff, Int.emod_emod]

section Linear

variable {a b : List ℤ} (ha : a.length = 256) (hb : b.length = 256) {k : ℕ} (hk : k < 256)
include ha hb hk

theorem toZq_ntt_addPoly : toZq (ntt (addPoly a b)) k = toZq (ntt a) k + toZq (ntt b) k := by
  rw [toZq_ntt (by rw [length_addPoly, ha]), nttZ_congr hk fun t ht => toZq_addPoly b (by rw [ha]; exact ht),
    nttZ_add hk, ← toZq_ntt ha, ← toZq_ntt hb]

theorem toZq_ntt_subPoly : toZq (ntt (subPoly a b)) k = toZq (ntt a) k - toZq (ntt b) k := by
  rw [toZq_ntt (by rw [length_subPoly, ha]), nttZ_congr hk fun t ht => toZq_subPoly b (by rw [ha]; exact ht),
    nttZ_sub hk, ← toZq_ntt ha, ← toZq_ntt hb]

end Linear

theorem toZq_map_emod (w : List ℤ) : toZq (w.map (· % mlDsaQ)) = toZq w := by
  funext t
  simp only [toZq, List.getD_eq_getElem?_getD, List.getElem?_map]
  cases w[t]? <;> simp

theorem toZq_ntt_nttInverse {w : List ℤ} (hw : w.length = 256) : toZq (ntt (nttInverse w)) = toZq w := by
  rw [ntt_nttInverse hw, toZq_map_emod]

theorem nttInverse_eq_of_toZq {u w : List ℤ} (hu : u.length = 256) (cu : ∀ x ∈ u, x % mlDsaQ = x)
    (hw : w.length = 256) (h : ∀ k < 256, toZq w k = toZq (ntt u) k) : nttInverse w = u := by
  have e : toZq w = toZq (ntt u) := funext fun k => by
    by_cases hk : k < 256
    · exact h k hk
    · rw [toZq, toZq, List.getD_eq_default _ _ (by omega),
        List.getD_eq_default _ _ (by rw [length_ntt hu]; omega)]
  have e2 : nttInverse w = nttInverse (ntt u) :=
    eq_of_toZq (length_nttInverse _) (length_nttInverse _) (emod_nttInverse _) (emod_nttInverse _)
      (by rw [toZq_nttInverse hw, toZq_nttInverse (length_ntt hu), e])
  rw [e2, nttInverse_ntt hu]
  exact (List.map_congr_left cu).trans (List.map_id u)

section MatrixVector

variable (p : Params) (m : List (List (List ℤ))) (v : List (List ℤ)) (i : ℕ)

/-- The inner loop `w[i] = add(w[i], mul_ntt(m[i][j], v[j]))` over `j < n`. -/
def rowAccum (n : ℕ) : List ℤ :=
  (List.range n).foldl (fun wi j => addPoly wi (mulNtt ((m.getD i []).getD j []) (v.getD j [])))
    (List.replicate 256 0)

theorem rowAccum_succ (n : ℕ) :
    rowAccum m v i (n + 1) = addPoly (rowAccum m v i n) (mulNtt ((m.getD i []).getD n []) (v.getD n [])) := by
  rw [rowAccum, List.range_succ, List.foldl_append]
  rfl

theorem length_rowAccum (n : ℕ) : (rowAccum m v i n).length = 256 := by
  induction n with
  | zero => exact List.length_replicate 256 0
  | succ n ih => rw [rowAccum_succ, length_addPoly, ih]

theorem toZq_rowAccum {k : ℕ} (hk : k < 256) (n : ℕ) :
    toZq (rowAccum m v i n) k = ∑ j ∈ range n, toZq ((m.getD i []).getD j []) k * toZq (v.getD j []) k := by
  induction n with
  | zero =>
    show ((List.replicate 256 (0 : ℤ)).getD k 0 : Zq) = _
    rw [getD_replicate_zero, Finset.sum_range_zero, Int.cast_zero]
  | succ n ih =>
    rw [rowAccum_succ, toZq_addPoly _ (by rw [length_rowAccum]; exact hk), ih, toZq_mulNtt,
      if_neg (by omega), Finset.sum_range_succ]

theorem getD_matrixVectorNtt {i : ℕ} (hi : i < p.k) :
    (matrixVectorNtt p m v).getD i [] = rowAccum m v i p.ell := by
  rw [matrixVectorNtt, List.getD_eq_getElem _ _ (by rw [List.length_map, List.length_range]; exact hi),
    List.getElem_map, List.getElem_range]
  rfl

end MatrixVector

theorem toZq_replicate_zero (n : ℕ) : toZq (List.replicate n 0) = 0 :=
  funext fun t => by rw [toZq, getD_replicate_zero, Int.cast_zero]; rfl

theorem nttInverse_matrixVectorNtt_zero (p : Params) (v : List (List ℤ)) {i : ℕ} (hi : i < p.k) :
    nttInverse ((matrixVectorNtt p (List.replicate p.k (List.replicate p.ell (List.replicate 256 0))) v).getD
      i []) = List.replicate 256 0 := by
  have hz : ∀ j k, toZq (((List.replicate p.k (List.replicate p.ell (List.replicate 256 0))).getD i []).getD
      j []) k = 0 :=
    fun j k => getD_le_of_forall (P := fun l : List ℤ => toZq l k = 0)
      (getD_le_of_forall (P := fun row => ∀ l ∈ row, toZq l k = 0)
        (fun row hrow l hl => by
          rw [List.eq_of_mem_replicate hrow] at hl
          rw [List.eq_of_mem_replicate hl, toZq_replicate_zero]; rfl)
        (fun _ h => absurd h (List.not_mem_nil _)))
      (show toZq [] k = 0 by simp [toZq])
  refine nttInverse_eq_of_toZq (List.length_replicate _ _)
    (fun x hx => by rw [List.eq_of_mem_replicate hx]; rfl)
    (by rw [getD_matrixVectorNtt p _ _ hi, length_rowAccum]) fun k hk => ?_
  rw [getD_matrixVectorNtt p _ _ hi, toZq_rowAccum _ _ _ hk, toZq_ntt (List.length_replicate _ _),
    toZq_replicate_zero, nttZ_eq_sum _ hk, Finset.sum_eq_zero fun j _ => by rw [hz, zero_mul],
    Finset.sum_eq_zero fun t _ => by rw [Pi.zero_apply, zero_mul]]

theorem map_nttInverse_matrixVectorNtt_zero (p : Params) (v : List (List ℤ)) :
    (matrixVectorNtt p (List.replicate p.k (List.replicate p.ell (List.replicate 256 0))) v).map nttInverse =
      List.replicate p.k (List.replicate 256 0) := by
  refine eq_of_getD [] (by rw [List.length_map, matrixVectorNtt, List.length_map, List.length_range,
    List.length_replicate]) fun i hi => ?_
  have hi' : i < p.k := by rwa [List.length_map, matrixVectorNtt, List.length_map, List.length_range] at hi
  rw [getD_map_of_lt nttInverse (by rwa [List.length_map] at hi) [], nttInverse_matrixVectorNtt_zero p v hi',
    getD_replicate_of_lt _ _ hi']

section Ring

variable (A : List (List (List ℤ))) (v : List (List ℤ)) (i : ℕ)

/-- Row `i` of the product `A v` over the ring, `Σ_(j < n) A[i][j] v[j]`, summed with
`add` from zero. -/
def ringRowAccum (n : ℕ) : List ℤ :=
  (List.range n).foldl (fun wi j => addPoly wi (negacyclicMul ((A.getD i []).getD j []) (v.getD j [])))
    (List.replicate 256 0)

/-- The product `A v` of a `k × ell` matrix with a vector over the ring. -/
def ringMatrixVector (p : Params) : List (List ℤ) :=
  (List.range p.k).map fun i => ringRowAccum A v i p.ell

theorem ringRowAccum_succ (n : ℕ) :
    ringRowAccum A v i (n + 1) =
      addPoly (ringRowAccum A v i n) (negacyclicMul ((A.getD i []).getD n []) (v.getD n [])) := by
  rw [ringRowAccum, List.range_succ, List.foldl_append]
  rfl

theorem length_ringRowAccum (n : ℕ) : (ringRowAccum A v i n).length = 256 := by
  cases n with
  | zero => exact List.length_replicate 256 0
  | succ n => rw [ringRowAccum_succ, length_addPoly, length_ringRowAccum]

theorem emod_ringRowAccum (n : ℕ) : ∀ x ∈ ringRowAccum A v i n, x % mlDsaQ = x := by
  cases n with
  | zero => exact fun x hx => by rw [List.eq_of_mem_replicate hx]; rfl
  | succ n => rw [ringRowAccum_succ]; exact emod_addPoly _ _

theorem toZq_ntt_ringRowAccum {k : ℕ} (hk : k < 256) (n : ℕ)
    (hA : ∀ j < n, ((A.getD i []).getD j []).length = 256) (hv : ∀ j < n, (v.getD j []).length = 256) :
    toZq (ntt (ringRowAccum A v i n)) k =
      ∑ j ∈ range n, toZq (ntt ((A.getD i []).getD j [])) k * toZq (ntt (v.getD j [])) k := by
  induction n with
  | zero =>
    show toZq (ntt (List.replicate 256 0)) k = _
    rw [toZq_ntt (List.length_replicate _ _), toZq_replicate_zero, nttZ_eq_sum _ hk, Finset.sum_range_zero,
      Finset.sum_eq_zero fun t _ => by rw [Pi.zero_apply, zero_mul]]
  | succ n ih =>
    have hAn := hA n (Nat.lt_succ_self n)
    have hvn := hv n (Nat.lt_succ_self n)
    rw [ringRowAccum_succ, toZq_ntt_addPoly (length_ringRowAccum ..) (length_negacyclicMul ..) hk,
      ih (fun j hj => hA j (by omega)) (fun j hj => hv j (by omega)), ← toZq_mulNtt_ntt hAn hvn,
      toZq_mulNtt, if_neg (by omega), Finset.sum_range_succ]

end Ring

/-- `matrix_vector_ntt` on the transforms of a vector, followed by `ntt_inverse` row by
row, is the product over `ℤ_q[X]/(X^256 + 1)` of the vector with the matrix whose
entries are the inverse transforms of `Â`: the `A s1` of `keygen_internal` and the
`A y` of `sign_internal`. -/
theorem matrixVectorNtt_ring_product (p : Params) (Ah : List (List (List ℤ))) (v : List (List ℤ))
    (hA : ∀ i < p.k, ∀ j < p.ell, ((Ah.getD i []).getD j []).length = 256)
    (hv : ∀ j < p.ell, (v.getD j []).length = 256) :
    (matrixVectorNtt p Ah (v.map ntt)).map nttInverse =
      ringMatrixVector (Ah.map fun row => row.map nttInverse) v p := by
  have hl : (matrixVectorNtt p Ah (v.map ntt)).length = p.k := by
    rw [matrixVectorNtt, List.length_map, List.length_range]
  refine eq_of_getD [] (by rw [List.length_map, hl, ringMatrixVector, List.length_map, List.length_range])
    fun i hi => ?_
  rw [List.length_map, hl] at hi
  -- the entries that the two sides read
  have eA : ∀ j < p.ell, (((Ah.map fun row => row.map nttInverse).getD i []).getD j []) =
      nttInverse ((Ah.getD i []).getD j []) := fun j hj => by
    rw [show ((Ah.map fun row => row.map nttInverse).getD i []) = (Ah.getD i []).map nttInverse from
      List.getD_map Ah [] fun row => row.map nttInverse,
      getD_map_of_lt _ (lt_length_of_getD_ne_nil fun h => absurd (hA i hi j hj) (by rw [h]; decide)) []]
  rw [getD_map_of_lt _ (by rw [hl]; exact hi) [], getD_matrixVectorNtt p _ _ hi, ringMatrixVector,
    getD_map_range _ hi]
  refine nttInverse_eq_of_toZq (length_ringRowAccum ..) (emod_ringRowAccum _ _ _ _) (length_rowAccum ..)
    fun k hk => ?_
  rw [toZq_rowAccum _ _ _ hk, toZq_ntt_ringRowAccum _ _ _ hk _ (fun j hj => by rw [eA j hj, length_nttInverse]) hv]
  refine Finset.sum_congr rfl fun j hj => ?_
  have hj := Finset.mem_range.mp hj
  rw [eA j hj, toZq_ntt_nttInverse (hA i hi j hj),
    getD_map_of_lt _ (lt_length_of_getD_ne_nil fun h => absurd (hv j hj) (by rw [h]; decide)) []]

theorem matrixVectorNtt_ring_product_ones :
    (∀ i < (mlDsaParam .mlDsa44).k, ∀ j < (mlDsaParam .mlDsa44).ell,
        (((List.replicate 4 (List.replicate 4 (List.replicate 256 (1 : ℤ)))).getD i []).getD j []).length = 256) ∧
      (∀ j < (mlDsaParam .mlDsa44).ell, ((List.replicate 4 (List.replicate 256 (1 : ℤ))).getD j []).length = 256) ∧
      (matrixVectorNtt (mlDsaParam .mlDsa44) (List.replicate 4 (List.replicate 4 (List.replicate 256 1)))
          ((List.replicate 4 (List.replicate 256 1)).map ntt)).map nttInverse =
        ringMatrixVector ((List.replicate 4 (List.replicate 4 (List.replicate 256 1))).map fun row =>
          row.map nttInverse) (List.replicate 4 (List.replicate 256 1)) (mlDsaParam .mlDsa44) := by
  have hA : ∀ i < (mlDsaParam .mlDsa44).k, ∀ j < (mlDsaParam .mlDsa44).ell,
      (((List.replicate 4 (List.replicate 4 (List.replicate 256 (1 : ℤ)))).getD i []).getD j []).length = 256 :=
    fun i hi j hj => by
      rw [getD_replicate_of_lt _ _ (show i < 4 from hi), getD_replicate_of_lt _ _ (show j < 4 from hj),
        List.length_replicate]
  have hv : ∀ j < (mlDsaParam .mlDsa44).ell, ((List.replicate 4 (List.replicate 256 (1 : ℤ))).getD j []).length =
      256 := fun j hj => by rw [getD_replicate_of_lt _ _ (show j < 4 from hj), List.length_replicate]
  exact ⟨hA, hv, matrixVectorNtt_ring_product _ _ _ hA hv⟩

theorem sum_ite_add_eq (f : ℕ → ℤ) (i m : ℕ) :
    ∑ l ∈ range 256, (if i + l = m then f l else 0) = if i ≤ m ∧ m - i < 256 then f (m - i) else 0 := by
  split_ifs with h
  · rw [Finset.sum_eq_single (m - i) (fun l _ hl => if_neg (by omega))
      (fun hn => absurd (Finset.mem_range.mpr h.2) hn), if_pos (by omega)]
  · exact Finset.sum_eq_zero fun l hl => if_neg (by have := Finset.mem_range.mp hl; omega)

section Short

variable {c s : List ℤ} {eta : ℤ} (hs : ∀ l, |s.getD l 0| ≤ eta)
include hs

theorem abs_negacyclic_term_le (i j : ℕ) :
    |∑ l ∈ range 256, (if i + l = j then c.getD i 0 * s.getD l 0 else 0) -
      ∑ l ∈ range 256, (if i + l = j + 256 then c.getD i 0 * s.getD l 0 else 0)| ≤
      |c.getD i 0| * eta := by
  have hb : ∀ l, |c.getD i 0 * s.getD l 0| ≤ |c.getD i 0| * eta := fun l => by
    rw [abs_mul]; exact mul_le_mul_of_nonneg_left (hs l) (abs_nonneg _)
  rw [sum_ite_add_eq (fun l => c.getD i 0 * s.getD l 0), sum_ite_add_eq (fun l => c.getD i 0 * s.getD l 0)]
  split_ifs with h1 h2 h2
  · omega
  · rw [sub_zero]; exact hb _
  · rw [zero_sub, abs_neg]; exact hb _
  · rw [sub_zero, abs_zero]; exact (abs_nonneg _).trans (hb 0)

theorem abs_negacyclic_coeff_le (j : ℕ) :
    |∑ i ∈ range 256, ∑ l ∈ range 256, (if i + l = j then c.getD i 0 * s.getD l 0 else 0) -
      ∑ i ∈ range 256, ∑ l ∈ range 256, (if i + l = j + 256 then c.getD i 0 * s.getD l 0 else 0)| ≤
      eta * absSum c := by
  rw [← Finset.sum_sub_distrib, absSum, Finset.mul_sum]
  calc _ ≤ ∑ i ∈ range 256, |∑ l ∈ range 256, (if i + l = j then c.getD i 0 * s.getD l 0 else 0) -
          ∑ l ∈ range 256, (if i + l = j + 256 then c.getD i 0 * s.getD l 0 else 0)| :=
        Finset.abs_sum_le_sum_abs _ _
    _ ≤ ∑ i ∈ range 256, eta * |c.getD i 0| :=
        Finset.sum_le_sum fun i _ => (abs_negacyclic_term_le hs i j).trans_eq (mul_comm _ _)

theorem infNormCoeff_negacyclicMul (hB : eta * absSum c < mlDsaQ / 2) :
    ∀ x ∈ negacyclicMul c s, infNormCoeff x ≤ eta * absSum c := by
  intro x hx
  obtain ⟨j, hj, rfl⟩ := List.mem_map.mp hx
  have hS := abs_negacyclic_coeff_le (c := c) hs j
  rw [infNormCoeff, modpm_emod, modpm_of_small (by rw [abs_le] at hS; omega) (by rw [abs_le] at hS; omega)]
  exact hS

end Short

end MlDsa
