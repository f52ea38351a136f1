import MlDsa.NttRoundTrip
import Mathlib.Algebra.BigOperators.Ring
import Mathlib.Algebra.Ring.Parity

/-!
# The convolution theorem

After the layers down to block size `B`, entry `k` of `ntt` holds its input modulo
`X^B - c(k / B)`; so `mul_ntt` of two transforms is the transform of the
negacyclic product.
-/

namespace MlDsa

set_option autoImplicit false

open Finset

/-- Entry `k` holds `Σ_{t < N} f (k % B + t B) c(k / B)^t`, the reduction of `f`
modulo `X^B - c(k / B)`, for every `k < 256`. -/
def StageEq (f g : ℕ → Zq) (B N : ℕ) (c : ℕ → Zq) : Prop :=
  ∀ k < 256, g k = ∑ t ∈ range N, f (k % B + t * B) * c (k / B) ^ t

theorem sum_range_two_mul (f : ℕ → Zq) (N : ℕ) :
    ∑ t ∈ range (2 * N), f t = ∑ t ∈ range N, (f (2 * t) + f (2 * t + 1)) := by
  induction N with
  | zero => simp
  | succ N ih =>
    rw [Nat.mul_succ, Finset.sum_range_succ, Finset.sum_range_succ, ih, Finset.sum_range_succ]
    ring

section Step

variable {le N : ℕ} (hle : 0 < le) (hB : 2 * le * N = 256) {f g : ℕ → Zq} {c z : ℕ → Zq}
  (hg : StageEq f g (2 * le) N c) (hz : ∀ j < N, z j ^ 2 = c j)
include hle hB hg hz

theorem stageEq_fwdLayerZ :
    StageEq f (fwdLayerZ le z g) le (2 * N) fun i => if i % 2 = 0 then z (i / 2) else -z (i / 2) := by
  intro k hk
  obtain ⟨hb, hblk⟩ := block_lt hB hk
  have h := Nat.div_add_mod k (2 * le)
  have hr := Nat.mod_lt k (show 2 * le > 0 by omega)
  generalize hbk : k / (2 * le) = b at hb hblk h
  generalize hrk : k % (2 * le) = r at hr h
  have hz2 : ∀ t : ℕ, z b ^ (2 * t) = c b ^ t := fun t => by rw [pow_mul, hz b hb]
  have hlb : le * (2 * b) = 2 * le * b := by ring
  have ht : ∀ t : ℕ, 2 * t * le = t * (2 * le) := fun t => by ring
  rw [fwdLayerZ, if_neg (by omega), sum_range_two_mul, hrk]
  split_ifs with hlo
  · -- `k` is in the first half: block `2 b` of size `le`, constant `z b`
    obtain ⟨hd, hm⟩ := div_mod_of_block (B := le) (b := 2 * b) (k := k) (by omega) (by omega)
    obtain ⟨hd', hm'⟩ := div_mod_of_block (B := 2 * le) (b := b) (k := k + le) (by omega) (by omega)
    rw [hg k hk, hg (k + le) (by omega), hd, hm, hd', hm', hbk, hrk, Finset.mul_sum,
      ← Finset.sum_add_distrib]
    refine Finset.sum_congr rfl fun t _ => ?_
    dsimp only
    rw [if_pos (by omega), show 2 * b / 2 = b by omega, pow_succ, hz2,
      show k - le * (2 * b) + 2 * t * le = r + t * (2 * le) by rw [ht]; omega,
      show k - le * (2 * b) + (2 * t + 1) * le = k + le - 2 * le * b + t * (2 * le) by
        rw [Nat.add_mul, ht]; omega]
    ring
  · -- `k` is in the second half: block `2 b + 1` of size `le`, constant `-z b`
    have hlb' : le * (2 * b + 1) = 2 * le * b + le := by rw [Nat.mul_succ, hlb]
    obtain ⟨hd, hm⟩ := div_mod_of_block (B := le) (b := 2 * b + 1) (k := k) (by omega) (by omega)
    obtain ⟨hd', hm'⟩ := div_mod_of_block (B := 2 * le) (b := b) (k := k - le) (by omega) (by omega)
    rw [hg k hk, hg (k - le) (by omega), hd, hm, hd', hm', hbk, hrk, Finset.mul_sum,
      ← Finset.sum_sub_distrib]
    refine Finset.sum_congr rfl fun t _ => ?_
    dsimp only
    rw [if_neg (by omega), show (2 * b + 1) / 2 = b by omega, Even.neg_pow ⟨t, by ring⟩,
      Odd.neg_pow ⟨t, rfl⟩, pow_succ, hz2,
      show k - le * (2 * b + 1) + 2 * t * le = k - le - 2 * le * b + t * (2 * le) by rw [ht]; omega,
      show k - le * (2 * b + 1) + (2 * t + 1) * le = r + t * (2 * le) by rw [Nat.add_mul, ht]; omega]
    ring

end Step

def stageConst : ℕ → ℕ → Zq
  | 0, _ => -1
  | s + 1, i => if i % 2 = 0 then (zeta (2 ^ s + i / 2) : Zq) else -(zeta (2 ^ s + i / 2) : Zq)

/-- `ML_DSA_ZETAS[m]² ≡ ± ML_DSA_ZETAS[m / 2]` (the sign is that of `m`'s parity), and
`ML_DSA_ZETAS[1]² ≡ -1`. -/
def zetaTreeOk : Bool :=
  (List.range 255).all fun i =>
    zeta (i + 1) * zeta (i + 1) % mlDsaQ =
      (if i = 0 then -1 else if (i + 1) % 2 = 0 then zeta ((i + 1) / 2) else -zeta ((i + 1) / 2)) % mlDsaQ

def squaresHalve : List ℤ → List ℤ → Bool
  | a :: b :: rest, c :: cs =>
    (a * a % mlDsaQ = c % mlDsaQ && b * b % mlDsaQ = -c % mlDsaQ) && squaresHalve rest cs
  | _, _ => true

theorem squaresHalve_sound : ∀ (l ps : List ℤ) (j : ℕ), squaresHalve l ps = true →
    2 * j + 1 < l.length → j < ps.length →
    l.getD (2 * j) 0 * l.getD (2 * j) 0 % mlDsaQ = ps.getD j 0 % mlDsaQ ∧
      l.getD (2 * j + 1) 0 * l.getD (2 * j + 1) 0 % mlDsaQ = -ps.getD j 0 % mlDsaQ
  | _ :: _ :: _, _ :: _, 0, h, _, _ => by
    simp only [squaresHalve, Bool.and_eq_true, decide_eq_true_eq] at h
    exact h.1
  | _ :: _ :: rest, _ :: cs, j + 1, h, hl, hp => by
    simp only [squaresHalve, Bool.and_eq_true] at h
    simp only [List.length_cons] at hl hp
    rw [show 2 * (j + 1) = 2 * j + 1 + 1 by omega]
    exact squaresHalve_sound rest cs j h.2 (by omega) (by omega)
  | [], _, _, _, hl, _ | [_], _, _, _, hl, _ => by simp at hl
  | _ :: _ :: _, [], _, _, _, hp => by simp at hp

theorem zetaTreeOk_eq_true : zetaTreeOk = true := by
  have hs : squaresHalve (mlDsaZetas.drop 2) (mlDsaZetas.drop 1) = true := by decide
  refine List.all_eq_true.mpr fun i hi => decide_eq_true ?_
  rw [List.mem_range] at hi
  rcases Nat.eq_zero_or_pos i with rfl | hi0
  · decide
  obtain ⟨j, r, hr, rfl⟩ : ∃ j r, r < 2 ∧ i = 2 * j + 1 + r :=
    ⟨(i - 1) / 2, (i - 1) % 2, Nat.mod_lt _ (by omega), by omega⟩
  have h := squaresHalve_sound _ _ j hs (by simp only [List.length_drop, length_mlDsaZetas]; omega)
    (by simp only [List.length_drop, length_mlDsaZetas]; omega)
  simp only [List.getD_eq_getElem?_getD, List.getElem?_drop] at h
  simp only [zeta, List.getD_eq_getElem?_getD, if_neg (show 2 * j + 1 + r ≠ 0 by omega),
    show (2 * j + 1 + r + 1) / 2 = 1 + j by omega]
  rcases (by omega : r = 0 ∨ r = 1) with rfl | rfl
  · rw [if_pos (by omega), show 2 * j + 1 + 0 + 1 = 2 + 2 * j by omega]
    exact h.1
  · rw [if_neg (by omega), show 2 * j + 1 + 1 + 1 = 2 + (2 * j + 1) by omega]
    exact h.2

theorem zeta_sq_stageConst {s j : ℕ} (hs : s < 8) (hj : j < 2 ^ s) :
    (zeta (2 ^ s + j) : Zq) ^ 2 = stageConst s j := by
  have hm : 2 ^ s + j - 1 < 255 := by
    have := Nat.pow_le_pow_right (show 0 < 2 by omega) (show s ≤ 7 by omega)
    have : 2 ^ 7 = 128 := rfl
    omega
  have h := List.all_eq_true.mp zetaTreeOk_eq_true _ (List.mem_range.mpr hm)
  simp only [decide_eq_true_eq, show 2 ^ s + j - 1 + 1 = 2 ^ s + j by
    have := Nat.one_le_two_pow (n := s); omega] at h
  have e := congrArg (fun x : ℤ => (x : Zq)) h
  simp only [intCast_emod_q, Int.cast_mul] at e
  rw [sq, e]
  cases s with
  | zero => simp [stageConst, show j = 0 by simpa using hj]
  | succ s =>
    have h2 : 2 ^ (s + 1) = 2 * 2 ^ s := Nat.pow_succ'
    rw [if_neg (by omega), stageConst, show (2 ^ (s + 1) + j) / 2 = 2 ^ s + j / 2 by omega]
    by_cases hj2 : j % 2 = 0
    · rw [if_pos (by omega), if_pos hj2]
    · rw [if_neg (by omega), if_neg hj2, Int.cast_neg]

theorem stageConst_pow : ∀ s i, s ≤ 8 → i < 2 ^ s → stageConst s i ^ 2 ^ s = -1
  | 0, _, _, _ => by simp [stageConst]
  | s + 1, i, hs, hi => by
    have hsq : stageConst (s + 1) i ^ 2 = stageConst s (i / 2) := by
      rw [← zeta_sq_stageConst (s := s) (j := i / 2) (by omega) (by rw [Nat.pow_succ] at hi; omega)]
      simp only [stageConst]
      split_ifs
      · rfl
      · exact Even.neg_pow even_two _
    rw [Nat.pow_succ', pow_mul, hsq, stageConst_pow s (i / 2) (by omega)
      (by rw [Nat.pow_succ] at hi; omega)]

theorem layer_arith {s : ℕ} (hs : s < 8) :
    nttLens[s]? = some (2 ^ (7 - s)) ∧ 2 ^ (8 - s) = 2 * 2 ^ (7 - s) ∧
      2 * 2 ^ (7 - s) * 2 ^ s = 256 ∧ 2 ^ s - 1 + 128 / 2 ^ (7 - s) = 2 ^ (s + 1) - 1 ∧
      8 - (s + 1) = 7 - s ∧ 1 ≤ 2 ^ s := by
  revert s
  decide

theorem stageEq_take_nttLens (f : ℕ → Zq) : ∀ s ≤ 8,
    ((nttLens.take s).foldl nttStepZ (0, f)).1 = 2 ^ s - 1 ∧
      StageEq f ((nttLens.take s).foldl nttStepZ (0, f)).2 (2 ^ (8 - s)) (2 ^ s) (stageConst s)
  | 0, _ => ⟨rfl, fun k hk => by simp [stageConst, Nat.mod_eq_of_lt hk]⟩
  | s + 1, hs => by
    obtain ⟨h1, h2⟩ := stageEq_take_nttLens f s (by omega)
    obtain ⟨hget, hB, hN, hcnt, hsub, hpos⟩ := layer_arith (show s < 8 by omega)
    rw [List.take_succ, hget, List.foldl_append]
    simp only [Option.toList, List.foldl_cons, List.foldl_nil, nttStepZ, h1, hcnt, true_and]
    rw [hB] at h2
    have e := stageEq_fwdLayerZ (Nat.pos_pow_of_pos _ (by omega)) hN h2
      (z := fun b => (zeta (2 ^ s - 1 + b + 1) : Zq)) fun j hj => by
        dsimp only
        rw [show 2 ^ s - 1 + j + 1 = 2 ^ s + j by omega]; exact zeta_sq_stageConst (by omega) hj
    have hc : stageConst (s + 1) = fun i => if i % 2 = 0 then (zeta (2 ^ s - 1 + i / 2 + 1) : Zq)
        else -(zeta (2 ^ s - 1 + i / 2 + 1) : Zq) := by
      funext i
      rw [stageConst, show 2 ^ s - 1 + i / 2 + 1 = 2 ^ s + i / 2 by omega]
    rw [hsub, Nat.pow_succ', hc]
    exact e

/-- Entry `k < 256` of `ntt` over `ℤ_q` is the evaluation at `stageConst 8 k`. -/
theorem nttZ_eq_sum (f : ℕ → Zq) {k : ℕ} (hk : k < 256) :
    nttZ f k = ∑ t ∈ range 256, f t * stageConst 8 k ^ t := by
  have e := (stageEq_take_nttLens f 8 le_rfl).2 k hk
  rw [List.take_of_length_le (by decide), show 8 - 8 = 0 from rfl, pow_zero, Nat.mod_one,
    Nat.div_one] at e
  simpa only [mul_one, zero_add] using e

/-- The product in `ℤ_q[X]/(X^256 + 1)` as the specification states it: coefficient `j`
is `Σ_{i+l=j} a_i b_l - Σ_{i+l=j+256} a_i b_l mod q`. -/
def negacyclicMul (a b : List ℤ) : List ℤ :=
  (List.range 256).map fun j =>
    (∑ i ∈ range 256, ∑ l ∈ range 256, (if i + l = j then a.getD i 0 * b.getD l 0 else 0) -
      ∑ i ∈ range 256, ∑ l ∈ range 256,
        (if i + l = j + 256 then a.getD i 0 * b.getD l 0 else 0)) % mlDsaQ

theorem pow_eq_sum_negacyclic {x : Zq} (hx : x ^ 256 = -1) {i l : ℕ} (hi : i < 256) (hl : l < 256) :
    x ^ (i + l) = ∑ j ∈ range 256,
      ((if i + l = j then 1 else 0) - (if i + l = j + 256 then 1 else 0)) * x ^ j := by
  simp only [sub_mul, Finset.sum_sub_distrib, ite_mul, one_mul, zero_mul, Finset.sum_ite_eq,
    Finset.mem_range]
  have e2 : ∑ j ∈ range 256, (if i + l = j + 256 then x ^ j else 0) =
      if 256 ≤ i + l then x ^ (i + l - 256) else 0 := by
    rw [Finset.sum_eq_single (i + l - 256) (fun j _ hj => if_neg (by omega)) (fun h => if_neg (by
      simp only [Finset.mem_range] at h; omega))]
    split_ifs with h1 h2 h2
    · rfl
    · omega
    · omega
    · rfl
  rw [e2]
  split_ifs with h1 h2 h2
  · omega
  · rw [sub_zero]
  · rw [zero_sub, ← neg_one_mul, ← hx, ← pow_add, Nat.add_sub_cancel' h2]
  · omega

theorem sum_mul_sum_negacyclic (A B : ℕ → Zq) {x : Zq} (hx : x ^ 256 = -1) :
    (∑ i ∈ range 256, A i * x ^ i) * (∑ l ∈ range 256, B l * x ^ l) =
      ∑ j ∈ range 256, (∑ i ∈ range 256, ∑ l ∈ range 256, (if i + l = j then A i * B l else 0) -
        ∑ i ∈ range 256, ∑ l ∈ range 256, (if i + l = j + 256 then A i * B l else 0)) * x ^ j := by
  have e : ∀ i ∈ range 256, ∀ l ∈ range 256, A i * x ^ i * (B l * x ^ l) =
      ∑ j ∈ range 256, ((if i + l = j then A i * B l else 0) -
        (if i + l = j + 256 then A i * B l else 0)) * x ^ j := by
    intro i hi l hl
    rw [show A i * x ^ i * (B l * x ^ l) = A i * B l * x ^ (i + l) by ring,
      pow_eq_sum_negacyclic hx (Finset.mem_range.mp hi) (Finset.mem_range.mp hl), Finset.mul_sum]
    refine Finset.sum_congr rfl fun j _ => ?_
    split_ifs <;> ring
  calc (∑ i ∈ range 256, A i * x ^ i) * (∑ l ∈ range 256, B l * x ^ l)
      = ∑ i ∈ range 256, ∑ l ∈ range 256, ∑ j ∈ range 256, ((if i + l = j then A i * B l else 0) -
          (if i + l = j + 256 then A i * B l else 0)) * x ^ j := by
        rw [Finset.sum_mul_sum]
        exact Finset.sum_congr rfl fun i hi => Finset.sum_congr rfl (e i hi)
    _ = ∑ i ∈ range 256, ∑ j ∈ range 256, ∑ l ∈ range 256, ((if i + l = j then A i * B l else 0) -
          (if i + l = j + 256 then A i * B l else 0)) * x ^ j :=
        Finset.sum_congr rfl fun i _ => Finset.sum_comm
    _ = ∑ j ∈ range 256, ∑ i ∈ range 256, ∑ l ∈ range 256, ((if i + l = j then A i * B l else 0) -
          (if i + l = j + 256 then A i * B l else 0)) * x ^ j := Finset.sum_comm
    _ = _ := by simp only [Finset.sum_mul, sub_mul, Finset.sum_sub_distrib]

theorem toZq_mulNtt (a b : List ℤ) (k : ℕ) :
    toZq (mulNtt a b) k = if 256 ≤ k then 0 else toZq a k * toZq b k := by
  rw [mulNtt, toZq_map_range]
  split_ifs <;> simp [toZq]

theorem length_negacyclicMul (a b : List ℤ) : (negacyclicMul a b).length = 256 := by
  simp [negacyclicMul]

theorem emod_negacyclicMul (a b : List ℤ) : ∀ x ∈ negacyclicMul a b, x % mlDsaQ = x := by
  intro x hx
  obtain ⟨k, -, rfl⟩ := List.mem_map.mp hx
  exact Int.emod_emod _ _

theorem toZq_negacyclicMul (a b : List ℤ) {j : ℕ} (hj : j < 256) :
    toZq (negacyclicMul a b) j =
      ∑ i ∈ range 256, ∑ l ∈ range 256, (if i + l = j then toZq a i * toZq b l else 0) -
        ∑ i ∈ range 256, ∑ l ∈ range 256, (if i + l = j + 256 then toZq a i * toZq b l else 0) := by
  rw [negacyclicMul, toZq_map_range, if_neg (by omega)]
  push_cast [intCast_emod_q, Int.cast_sum, Int.cast_ite]
  rfl

/-- `mul_ntt` of two transforms is the transform of the negacyclic product, over `ℤ_q`. -/
theorem toZq_mulNtt_ntt {a b : List ℤ} (ha : a.length = 256) (hb : b.length = 256) :
    toZq (mulNtt (ntt a) (ntt b)) = toZq (ntt (negacyclicMul a b)) := by
  have hP := length_negacyclicMul a b
  funext k
  rw [toZq_mulNtt]
  split_ifs with hk
  · rw [toZq, List.getD_eq_default _ _ (by rw [length_ntt hP]; exact hk), Int.cast_zero]
  have hk' : k < 256 := by omega
  have hx : stageConst 8 k ^ 256 = -1 := stageConst_pow 8 k le_rfl hk'
  rw [toZq_ntt ha, toZq_ntt hb, toZq_ntt hP, nttZ_eq_sum _ hk', nttZ_eq_sum _ hk',
    nttZ_eq_sum _ hk', sum_mul_sum_negacyclic _ _ hx]
  exact Finset.sum_congr rfl fun j hj => by rw [toZq_negacyclicMul a b (Finset.mem_range.mp hj)]

theorem eq_of_toZq {u v : List ℤ} (hu : u.length = 256) (hv : v.length = 256)
    (cu : ∀ x ∈ u, x % mlDsaQ = x) (cv : ∀ x ∈ v, x % mlDsaQ = x) (h : toZq u = toZq v) : u = v := by
  rw [eq_map_emod_of_toZq (by rw [hu, hv]) cu fun j _ => congrFun h j]
  exact (List.map_congr_left cv).trans (List.map_id v)

theorem nttInverse_mulNtt_ntt {a b : List ℤ} (ha : a.length = 256) (hb : b.length = 256) :
    nttInverse (mulNtt (ntt a) (ntt b)) = negacyclicMul a b := by
  have hP := length_negacyclicMul a b
  have e : nttInverse (mulNtt (ntt a) (ntt b)) = nttInverse (ntt (negacyclicMul a b)) :=
    eq_of_toZq (length_nttInverse _) (length_nttInverse _) (emod_nttInverse _) (emod_nttInverse _)
      (by rw [toZq_nttInverse (by simp [mulNtt]), toZq_nttInverse (length_ntt hP),
        toZq_mulNtt_ntt ha hb])
  rw [e, nttInverse_ntt hP]
  exact (List.map_congr_left (emod_negacyclicMul a b)).trans (List.map_id _)

theorem ntt_addPoly {a b : List ℤ} (ha : a.length = 256) (hb : b.length = 256) :
    ntt (addPoly a b) = addPoly (ntt a) (ntt b) := by
  have hs : (addPoly a b).length = 256 := by rw [length_addPoly, ha]
  refine eq_of_toZq (length_ntt hs) (by rw [length_addPoly, length_ntt ha]) (emod_ntt hs)
    (fun x hx => ?_) (funext fun k => ?_)
  · obtain ⟨j, hj⟩ := List.mem_iff_getElem.mp hx
    rw [← hj.2, getElem_addPoly, addCoeff, Int.emod_emod]
  by_cases hk : k < 256
  · rw [toZq_ntt hs, nttZ_eq_sum _ hk, toZq, getD_addPoly _ _ (by rw [length_ntt ha]; exact hk),
      addCoeff, intCast_emod_q, Int.cast_add, ← toZq, ← toZq, toZq_ntt ha, toZq_ntt hb,
      nttZ_eq_sum _ hk, nttZ_eq_sum _ hk, ← Finset.sum_add_distrib]
    refine Finset.sum_congr rfl fun t ht => ?_
    rw [toZq, getD_addPoly _ _ (by rw [ha]; exact Finset.mem_range.mp ht), addCoeff, intCast_emod_q,
      Int.cast_add, add_mul]
    rfl
  · rw [toZq, toZq, List.getD_eq_default _ _ (by rw [length_ntt hs]; omega),
      List.getD_eq_default _ _ (by rw [length_addPoly, length_ntt ha]; omega)]

/-- The convolution theorem: through the transforms, `mul_ntt` multiplies in
`ℤ_q[X]/(X^256 + 1)`, and `ntt` commutes with `add`. -/
theorem ntt_convolution (a b : List ℤ) (ha : a.length = 256) (hb : b.length = 256) :
    nttInverse (mulNtt (ntt a) (ntt b)) = negacyclicMul a b ∧
      ntt (addPoly a b) = addPoly (ntt a) (ntt b) :=
  ⟨nttInverse_mulNtt_ntt ha hb, ntt_addPoly ha hb⟩

theorem ntt_convolution_zero :
    (List.replicate 256 (0 : ℤ)).length = 256 ∧
      (nttInverse (mulNtt (ntt (List.replicate 256 0)) (ntt (List.replicate 256 0))) =
          negacyclicMul (List.replicate 256 0) (List.replicate 256 0) ∧
        ntt (addPoly (List.replicate 256 0) (List.replicate 256 0)) =
          addPoly (ntt (List.replicate 256 0)) (ntt (List.replicate 256 0))) :=
  ⟨List.length_replicate _ _, ntt_convolution _ _ (List.length_replicate _ _) (List.length_replicate _ _)⟩

end MlDsa
