import MlDsa.Basic
import Mathlib.Algebra.Order.Ring.Int
import Mathlib.Algebra.Order.Group.Abs
import Mathlib.Data.List.GetD

/-!
# Rounding and the elementwise operations

Algorithms 35–40 of FIPS 204 and the source's own helpers. The source dispatches on
`isinstance(x, list)`; the model has one definition per level.
-/

namespace MlDsa

set_option autoImplicit false

/-- `modpm(m, alpha)`: the representative of `m` in `(-alpha/2, alpha/2]`. -/
def modpm (m alpha : ℤ) : ℤ := -((alpha / 2 - m) % alpha) + alpha / 2

/-- The loop `[f(a[i], b[i]) for i in range(len(a))]` of `add`, `sub` and `neq`;
every caller passes `b` of the shape of `a`. -/
def zipIdx {α β γ : Type} (f : α → β → γ) (da : α) (db : β) (a : List α) (b : List β) : List γ :=
  (List.range a.length).map fun i => f (a.getD i da) (b.getD i db)

def addCoeff (a b : ℤ) : ℤ := (a + b) % mlDsaQ

def subCoeff (a b : ℤ) : ℤ := (a - b) % mlDsaQ

def negCoeff (a : ℤ) : ℤ := (-a) % mlDsaQ

def neqCoeff (a b : ℤ) : ℕ := if a = b then 0 else 1

def addPoly : List ℤ → List ℤ → List ℤ := zipIdx addCoeff 0 0

/-- `add(a, b)` on vectors of polynomials. -/
def add : List (List ℤ) → List (List ℤ) → List (List ℤ) := zipIdx addPoly [] []

def subPoly : List ℤ → List ℤ → List ℤ := zipIdx subCoeff 0 0

/-- `sub(a, b)` on vectors of polynomials. -/
def sub : List (List ℤ) → List (List ℤ) → List (List ℤ) := zipIdx subPoly [] []

def negPoly (a : List ℤ) : List ℤ := (List.range a.length).map fun i => negCoeff (a.getD i 0)

/-- `neg(a)` on vectors of polynomials. -/
def neg (a : List (List ℤ)) : List (List ℤ) := (List.range a.length).map fun i => negPoly (a.getD i [])

def neqPoly : List ℤ → List ℤ → List ℕ := zipIdx neqCoeff 0 0

/-- `neq(a, b)` on vectors of polynomials. -/
def neq : List (List ℤ) → List (List ℤ) → List (List ℕ) := zipIdx neqPoly [] []

def infNormCoeff (x : ℤ) : ℤ := |modpm x mlDsaQ|

def infNormPoly (x : List ℤ) : ℤ := x.foldl (fun y xi => max y (infNormCoeff xi)) 0

/-- `inf_norm` of a vector of polynomials. -/
def infNorm (x : List (List ℤ)) : ℤ := x.foldl (fun y xi => max y (infNormPoly xi)) 0

/-- Algorithm 35 on one coefficient: `rp = r % q`, `r0 = modpm(rp, 1 << d)`,
`r1 = (rp - r0) >> d`. -/
def power2roundCoeff (p : Params) (r : ℤ) : ℤ × ℤ :=
  let rp := r % mlDsaQ
  let r0 := modpm rp (2 ^ p.d)
  ((rp - r0) / 2 ^ p.d, r0)

/-- `power2round(r)`: the pair `(r1vv, r0vv)` of a vector. -/
def power2round (p : Params) (r : List (List ℤ)) : List (List ℤ) × List (List ℤ) :=
  (r.map fun rr => rr.map fun rx => (power2roundCoeff p rx).1,
    r.map fun rr => rr.map fun rx => (power2roundCoeff p rx).2)

/-- Algorithm 36, `decompose(r)`, with the correction at `rp - r0 = q - 1`. -/
def decompose (p : Params) (r : ℤ) : ℤ × ℤ :=
  let rp := r % mlDsaQ
  let r0 := modpm rp (2 * p.gam2)
  if rp - r0 = mlDsaQ - 1 then (0, r0 - 1) else ((rp - r0) / (2 * p.gam2), r0)

/-- Algorithm 37, `high_bits(r)` on a vector. -/
def highBits (p : Params) (r : List (List ℤ)) : List (List ℤ) :=
  r.map fun rr => rr.map fun rx => (decompose p rx).1

/-- Algorithm 38, `low_bits(r)` on a vector. -/
def lowBits (p : Params) (r : List (List ℤ)) : List (List ℤ) :=
  r.map fun rr => rr.map fun rx => (decompose p rx).2

/-- Algorithm 39, `make_hint(z, r)`. -/
def makeHint (p : Params) (z r : List (List ℤ)) : List (List ℕ) :=
  neq (highBits p r) (highBits p (add r z))

/-- The body of `use_hint` for one coefficient: `m = (q - 1) // (2 gam2)`. -/
def useHintCoeff (p : Params) (h : ℕ) (r : ℤ) : ℤ :=
  let m := (mlDsaQ - 1) / (2 * p.gam2)
  let (r1, r0) := decompose p r
  let r1 := if h = 1 ∧ r0 > 0 then (r1 + 1) % m else r1
  if h = 1 ∧ r0 ≤ 0 then (r1 - 1) % m else r1

/-- Algorithm 40 on a polynomial, the branch of `use_hint` where `h[0]` is a number:
`r[i]` and `h[i]` for `i in range(256)`. -/
def useHintRow (p : Params) (h : List ℕ) (r : List ℤ) : Except Fault (List ℤ) := do
  let _ ← pyGet h 0
  (List.range 256).mapM fun i => do
    let ri ← pyGet r i
    let hi ← pyGet h i
    pure (useHintCoeff p hi ri)

/-- Algorithm 40, `use_hint(h, r)` on a vector: `h[0]` is a list, so the result is
`[use_hint(h[i], r[i]) for i in range(len(h))]`. -/
def useHint (p : Params) (h : List (List ℕ)) (r : List (List ℤ)) : Except Fault (List (List ℤ)) := do
  let _ ← pyGet h 0
  (List.range h.length).mapM fun i => do
    let hi ← pyGet h i
    let ri ← pyGet r i
    useHintRow p hi ri

/-- What `use_hint` computes on a row of at least 256 entries. -/
def useHintPoly (p : Params) (h : List ℕ) (r : List ℤ) : List ℤ :=
  (List.range 256).map fun i => useHintCoeff p (h.getD i 0) (r.getD i 0)

@[simp] theorem length_zipIdx {α β γ : Type} (f : α → β → γ) (da : α) (db : β) (a : List α)
    (b : List β) : (zipIdx f da db a b).length = a.length := by
  simp [zipIdx]

theorem getElem_zipIdx {α β γ : Type} (f : α → β → γ) (da : α) (db : β) (a : List α) (b : List β)
    {i : ℕ} (hi : i < (zipIdx f da db a b).length) :
    (zipIdx f da db a b)[i] = f (a.getD i da) (b.getD i db) := by
  simp [zipIdx]

theorem getD_zipIdx {α β γ : Type} (f : α → β → γ) (da : α) (db : β) (dc : γ) (a : List α)
    (b : List β) {i : ℕ} (hi : i < a.length) :
    (zipIdx f da db a b).getD i dc = f (a.getD i da) (b.getD i db) := by
  rw [List.getD_eq_getElem _ _ (by simpa using hi), getElem_zipIdx]

@[simp] theorem length_addPoly (a b : List ℤ) : (addPoly a b).length = a.length := length_zipIdx ..

@[simp] theorem length_subPoly (a b : List ℤ) : (subPoly a b).length = a.length := length_zipIdx ..

@[simp] theorem length_add (a b : List (List ℤ)) : (add a b).length = a.length := length_zipIdx ..

theorem getElem_addPoly (a b : List ℤ) {j : ℕ} (hj : j < (addPoly a b).length) :
    (addPoly a b)[j] = addCoeff (a.getD j 0) (b.getD j 0) := getElem_zipIdx ..

theorem getD_addPoly (a b : List ℤ) {j : ℕ} (hj : j < a.length) :
    (addPoly a b).getD j 0 = addCoeff (a.getD j 0) (b.getD j 0) := getD_zipIdx _ _ _ _ _ _ hj

theorem getD_subPoly (a b : List ℤ) {j : ℕ} (hj : j < a.length) :
    (subPoly a b).getD j 0 = subCoeff (a.getD j 0) (b.getD j 0) := getD_zipIdx _ _ _ _ _ _ hj

theorem getElem_add (a b : List (List ℤ)) {i : ℕ} (hi : i < (add a b).length) :
    (add a b)[i] = addPoly (a.getD i []) (b.getD i []) := getElem_zipIdx ..

theorem getD_add (a b : List (List ℤ)) {i : ℕ} (hi : i < a.length) :
    (add a b).getD i [] = addPoly (a.getD i []) (b.getD i []) := getD_zipIdx _ _ _ _ _ _ hi

theorem getD_neqPoly (a b : List ℤ) {j : ℕ} (hj : j < a.length) :
    (neqPoly a b).getD j 0 = neqCoeff (a.getD j 0) (b.getD j 0) := getD_zipIdx _ _ _ _ _ _ hj

theorem getD_neq (a b : List (List ℤ)) {i : ℕ} (hi : i < a.length) :
    (neq a b).getD i [] = neqPoly (a.getD i []) (b.getD i []) := getD_zipIdx _ _ _ _ _ _ hi

@[simp] theorem length_neq (a b : List (List ℤ)) : (neq a b).length = a.length := length_zipIdx ..

theorem neqPoly_self (a : List ℤ) : neqPoly a a = List.replicate a.length 0 := by
  rw [neqPoly, zipIdx, List.map_congr_left fun i _ =>
    show neqCoeff (a.getD i 0) (a.getD i 0) = 0 from if_pos rfl, List.map_const', List.length_range]

theorem neq_self {a : List (List ℤ)} {m : ℕ} (ha : ∀ row ∈ a, row.length = m) :
    neq a a = List.replicate a.length (List.replicate m 0) := by
  rw [neq, zipIdx, List.map_congr_left fun i hi => by
      rw [neqPoly_self, ha _ (getD_mem (List.mem_range.mp hi))], List.map_const', List.length_range]

theorem modpm_emod (x : ℤ) : modpm (x % mlDsaQ) mlDsaQ = modpm x mlDsaQ := by
  simp only [modpm, mlDsaQ]
  omega

theorem modpm_of_small {x : ℤ} (h1 : -(mlDsaQ / 2) < x) (h2 : x ≤ mlDsaQ / 2) :
    modpm x mlDsaQ = x := by
  simp only [modpm, mlDsaQ] at *
  omega

theorem modpm_modpm (x : ℤ) : modpm (modpm x mlDsaQ) mlDsaQ = modpm x mlDsaQ := by
  simp only [modpm, mlDsaQ]
  omega

theorem infNormCoeff_zero : infNormCoeff 0 = 0 := by decide

theorem infNormCoeff_addCoeff_le (a b : ℤ) : infNormCoeff (addCoeff a b) ≤ infNormCoeff a + infNormCoeff b := by
  simp only [infNormCoeff, addCoeff, modpm, mlDsaQ, abs_eq_max_neg]
  omega

theorem infNormCoeff_subCoeff_le (a b : ℤ) : infNormCoeff (subCoeff a b) ≤ infNormCoeff a + infNormCoeff b := by
  simp only [infNormCoeff, subCoeff, modpm, mlDsaQ, abs_eq_max_neg]
  omega

theorem foldl_max_le_iff {α : Type} (f : α → ℤ) (B : ℤ) :
    ∀ (l : List α) (b : ℤ), l.foldl (fun y a => max y (f a)) b ≤ B ↔ b ≤ B ∧ ∀ a ∈ l, f a ≤ B
  | [], b => by simp
  | a :: l, b => by
    rw [List.foldl_cons, foldl_max_le_iff f B l, max_le_iff, List.forall_mem_cons, and_assoc]

theorem foldl_max_lt_iff {α : Type} (f : α → ℤ) (B : ℤ) :
    ∀ (l : List α) (b : ℤ), l.foldl (fun y a => max y (f a)) b < B ↔ b < B ∧ ∀ a ∈ l, f a < B
  | [], b => by simp
  | a :: l, b => by
    rw [List.foldl_cons, foldl_max_lt_iff f B l, max_lt_iff, List.forall_mem_cons, and_assoc]

theorem infNormCoeff_le_of_infNorm_le {x : List (List ℤ)} {B : ℤ} (h : infNorm x ≤ B) :
    ∀ row ∈ x, ∀ a ∈ row, infNormCoeff a ≤ B := fun row hrow a ha =>
  ((foldl_max_le_iff _ B row 0).mp (((foldl_max_le_iff _ B x 0).mp h).2 row hrow)).2 a ha

theorem infNormCoeff_lt_of_infNorm_lt {x : List (List ℤ)} {B : ℤ} (h : infNorm x < B) :
    ∀ row ∈ x, ∀ a ∈ row, infNormCoeff a < B := fun row hrow a ha =>
  ((foldl_max_lt_iff _ B row 0).mp (((foldl_max_lt_iff _ B x 0).mp h).2 row hrow)).2 a ha

theorem infNorm_le_of_forall {x : List (List ℤ)} {B : ℤ} (hB : 0 ≤ B)
    (h : ∀ row ∈ x, ∀ a ∈ row, infNormCoeff a ≤ B) : infNorm x ≤ B :=
  (foldl_max_le_iff _ B x 0).mpr ⟨hB, fun row hrow => (foldl_max_le_iff _ B row 0).mpr ⟨hB, h row hrow⟩⟩

theorem infNorm_lt_of_forall {x : List (List ℤ)} {B : ℤ} (hB : 0 < B)
    (h : ∀ row ∈ x, ∀ a ∈ row, infNormCoeff a < B) : infNorm x < B :=
  (foldl_max_lt_iff _ B x 0).mpr ⟨hB, fun row hrow => (foldl_max_lt_iff _ B row 0).mpr ⟨hB, h row hrow⟩⟩

theorem infNormCoeff_getD_le {v : List (List ℤ)} {B : ℤ} (hB : 0 ≤ B) (h : infNorm v ≤ B) (i t : ℕ) :
    infNormCoeff ((v.getD i []).getD t 0) ≤ B :=
  getD_le_of_forall (P := fun x => infNormCoeff x ≤ B)
    (getD_le_of_forall (P := fun row : List ℤ => ∀ x ∈ row, infNormCoeff x ≤ B)
      (infNormCoeff_le_of_infNorm_le h) (fun _ h => absurd h (List.not_mem_nil _)))
    (show infNormCoeff 0 ≤ B by rw [infNormCoeff_zero]; exact hB)

theorem infNorm_replicate_le (n m : ℕ) (v : ℤ) : infNorm (List.replicate n (List.replicate m v)) ≤ infNormCoeff v :=
  infNorm_le_of_forall (abs_nonneg _) fun row hrow a ha => by
    rw [List.eq_of_mem_replicate hrow] at ha
    rw [List.eq_of_mem_replicate ha]

theorem infNorm_map_range_le {F : ℕ → List ℤ} {B : ℤ} (hB : 0 ≤ B)
    (h : ∀ i t, infNormCoeff ((F i).getD t 0) ≤ B) (n : ℕ) : infNorm ((List.range n).map F) ≤ B :=
  infNorm_le_of_forall hB fun row hrow a ha => by
    obtain ⟨i, -, rfl⟩ := List.mem_map.mp hrow
    obtain ⟨t, ht, rfl⟩ := List.getElem_of_mem ha
    rw [← List.getD_eq_getElem _ 0 ht]
    exact h i t

theorem nonneg_of_getD_le {a : List ℤ} {B : ℤ} (ha : ∀ t, infNormCoeff (a.getD t 0) ≤ B) : 0 ≤ B := by
  have h := ha a.length
  rwa [List.getD_eq_default _ _ le_rfl, infNormCoeff_zero] at h

theorem getD_addPoly_le {a b : List ℤ} {Ba Bb : ℤ} (ha : ∀ t, infNormCoeff (a.getD t 0) ≤ Ba)
    (hb : ∀ t, infNormCoeff (b.getD t 0) ≤ Bb) (t : ℕ) : infNormCoeff ((addPoly a b).getD t 0) ≤ Ba + Bb := by
  by_cases ht : t < a.length
  · rw [getD_addPoly _ _ ht]
    exact (infNormCoeff_addCoeff_le _ _).trans (add_le_add (ha t) (hb t))
  · rw [List.getD_eq_default _ _ (by rw [length_addPoly]; omega), infNormCoeff_zero]
    exact add_nonneg (nonneg_of_getD_le ha) (nonneg_of_getD_le hb)

theorem getD_subPoly_le {a b : List ℤ} {Ba Bb : ℤ} (ha : ∀ t, infNormCoeff (a.getD t 0) ≤ Ba)
    (hb : ∀ t, infNormCoeff (b.getD t 0) ≤ Bb) (t : ℕ) : infNormCoeff ((subPoly a b).getD t 0) ≤ Ba + Bb := by
  by_cases ht : t < a.length
  · rw [getD_subPoly _ _ ht]
    exact (infNormCoeff_subCoeff_le _ _).trans (add_le_add (ha t) (hb t))
  · rw [List.getD_eq_default _ _ (by rw [length_subPoly]; omega), infNormCoeff_zero]
    exact add_nonneg (nonneg_of_getD_le ha) (nonneg_of_getD_le hb)

/-- `(r1, r0)` splits `rp ∈ [0, q)` for `gam2 = g`: `rp = r1 * 2g + r0` with `r0`
centred and `r1 < (q - 1) / 2g`, or the bucket at `q - 1`, where `r1 = 0` and
`rp = q + r0`. -/
def Decomposed (g rp r1 r0 : ℤ) : Prop :=
  (rp = r1 * (2 * g) + r0 ∧ -g < r0 ∧ r0 ≤ g ∧ 0 ≤ r1 ∧ r1 < (mlDsaQ - 1) / (2 * g)) ∨
    (r1 = 0 ∧ rp = mlDsaQ + r0 ∧ -g ≤ r0 ∧ r0 ≤ 0)

theorem addCoeff_wrap {r : ℤ} (z : ℤ) (hr : 0 ≤ r ∧ r < mlDsaQ) :
    addCoeff r z = r + modpm z mlDsaQ ∨ addCoeff r z = r + modpm z mlDsaQ - mlDsaQ ∨
      addCoeff r z = r + modpm z mlDsaQ + mlDsaQ := by
  simp only [addCoeff, modpm, mlDsaQ] at *
  omega

theorem addCoeff_mem (r z : ℤ) : 0 ≤ addCoeff r z ∧ addCoeff r z < mlDsaQ :=
  ⟨Int.emod_nonneg _ (by decide), Int.emod_lt_of_pos _ (by decide)⟩

theorem gam2_mlDsaParam (ps : ParamSet) :
    (mlDsaParam ps).gam2 = 95232 ∨ (mlDsaParam ps).gam2 = 261888 := by
  cases ps <;> decide

section Decompose

variable (p : Params) (hg : p.gam2 = 95232 ∨ p.gam2 = 261888)
include hg

theorem decompose_spec (r : ℤ) :
    Decomposed p.gam2 (r % mlDsaQ) (decompose p r).1 (decompose p r).2 := by
  rcases hg with hg | hg <;>
  · simp only [Decomposed, decompose, modpm, hg, mlDsaQ, Nat.cast_ofNat, Int.reduceMul,
      Int.reduceDiv, Int.reduceSub]
    split_ifs <;> simp only [true_and] <;> omega

theorem decompose_spec_of_mem {r : ℤ} (hr : 0 ≤ r ∧ r < mlDsaQ) :
    Decomposed p.gam2 r (decompose p r).1 (decompose p r).2 := by
  have h := decompose_spec p hg r
  rwa [Int.emod_eq_of_lt hr.1 hr.2] at h

theorem decompose_of_small {r : ℤ} (hr : infNormCoeff r < p.gam2) : decompose p r = (0, modpm r mlDsaQ) := by
  have hs := decompose_spec p hg r
  have hm : modpm r mlDsaQ = r % mlDsaQ ∨ modpm r mlDsaQ = r % mlDsaQ - mlDsaQ := by
    simp only [modpm, mlDsaQ]
    omega
  rw [infNormCoeff, abs_lt] at hr
  rw [Prod.ext_iff]
  simp only [Decomposed, mlDsaQ] at hs hm hr ⊢
  rcases hg with hg | hg <;> rw [hg] at hs hr <;> omega

theorem infNorm_lowBits_le {r : List (List ℤ)} {B : ℤ} (hB : B < p.gam2) (h : infNorm r ≤ B)
    (hB0 : 0 ≤ B) : infNorm (lowBits p r) ≤ B := by
  refine infNorm_le_of_forall hB0 fun row hrow a ha => ?_
  obtain ⟨rr, hrr, rfl⟩ := List.mem_map.mp hrow
  obtain ⟨x, hx, rfl⟩ := List.mem_map.mp ha
  have hxB := infNormCoeff_le_of_infNorm_le h rr hrr x hx
  rw [decompose_of_small p hg (by omega), infNormCoeff, modpm_modpm]
  exact hxB

end Decompose

theorem useHint_bucket (g r w z r1 r0 r1' r0' : ℤ) (hg : g = 95232 ∨ g = 261888)
    (hr : 0 ≤ r ∧ r < mlDsaQ) (hw : w = r + z ∨ w = r + z - mlDsaQ ∨ w = r + z + mlDsaQ)
    (hz : -g ≤ z ∧ z ≤ g) (s1 : Decomposed g r r1 r0) (s2 : Decomposed g w r1' r0')
    (hne : r1 ≠ r1') :
    (if r0 > 0 then (r1 + 1) % ((mlDsaQ - 1) / (2 * g)) else (r1 - 1) % ((mlDsaQ - 1) / (2 * g))) =
      r1' := by
  simp only [Decomposed, mlDsaQ] at *
  rcases hg with rfl | rfl <;> simp only [Int.reduceMul, Int.reduceSub, Int.reduceDiv] at s1 s2 ⊢ <;>
    split_ifs <;> omega

theorem highBits_bucket (g beta r w s r1 r0 r1' r0' : ℤ) (hg : g = 95232 ∨ g = 261888)
    (hr : 0 ≤ r ∧ r < mlDsaQ) (hw : w = r + s ∨ w = r + s - mlDsaQ ∨ w = r + s + mlDsaQ)
    (hs : -beta ≤ s ∧ s ≤ beta) (hlow : -(g - beta) < r0 ∧ r0 < g - beta)
    (s1 : Decomposed g r r1 r0) (s2 : Decomposed g w r1' r0') : r1' = r1 := by
  simp only [Decomposed, mlDsaQ] at *
  rcases hg with rfl | rfl <;> simp only [Int.reduceMul, Int.reduceSub, Int.reduceDiv] at s1 s2 <;> omega

theorem useHintCoeff_eq (p : Params) (h : ℕ) (r : ℤ) :
    useHintCoeff p h r = if h = 1 then
      (if (decompose p r).2 > 0 then ((decompose p r).1 + 1) % ((mlDsaQ - 1) / (2 * p.gam2))
        else ((decompose p r).1 - 1) % ((mlDsaQ - 1) / (2 * p.gam2)))
      else (decompose p r).1 := by
  simp only [useHintCoeff]
  by_cases h1 : h = 1 <;> by_cases h0 : (decompose p r).2 > 0 <;> simp [h1, h0]

section Coeff

variable (p : Params) (hg : p.gam2 = 95232 ∨ p.gam2 = 261888)
include hg

theorem decompose_fst_mem (r : ℤ) :
    0 ≤ (decompose p r).1 ∧ (decompose p r).1 < (mlDsaQ - 1) / (2 * p.gam2) := by
  have hs := decompose_spec p hg r
  generalize decompose p r = d at hs ⊢
  rcases hg with hg | hg <;> simp only [Decomposed, hg, mlDsaQ] at hs ⊢ <;> omega

theorem useHintCoeff_mem (h : ℕ) (r : ℤ) :
    0 ≤ useHintCoeff p h r ∧ useHintCoeff p h r < (mlDsaQ - 1) / (2 * p.gam2) := by
  have hd := decompose_fst_mem p hg r
  have hm : 0 < (mlDsaQ - 1) / (2 * (p.gam2 : ℤ)) := by rcases hg with hg | hg <;> rw [hg] <;> decide
  rw [useHintCoeff_eq]
  split_ifs
  · exact ⟨Int.emod_nonneg _ hm.ne', Int.emod_lt_of_pos _ hm⟩
  · exact ⟨Int.emod_nonneg _ hm.ne', Int.emod_lt_of_pos _ hm⟩
  · exact hd

theorem useHintCoeff_makeHint {r : ℤ} (z : ℤ) (hr : 0 ≤ r ∧ r < mlDsaQ)
    (hz : |modpm z mlDsaQ| ≤ p.gam2) :
    useHintCoeff p (neqCoeff (decompose p r).1 (decompose p (addCoeff r z)).1) r =
      (decompose p (addCoeff r z)).1 := by
  have s1 := decompose_spec_of_mem p hg hr
  have s2 := decompose_spec_of_mem p hg (addCoeff_mem r z)
  have hw := addCoeff_wrap z hr
  rw [useHintCoeff_eq, neqCoeff]
  by_cases he : (decompose p r).1 = (decompose p (addCoeff r z)).1
  · rw [if_pos he, if_neg (by decide), he]
  · rw [if_neg he, if_pos rfl]
    exact useHint_bucket _ _ _ _ _ _ _ _ (by exact_mod_cast hg) hr hw (abs_le.mp hz) s1 s2 he

theorem decompose_addCoeff_of_low {r : ℤ} (s : ℤ) (hr : 0 ≤ r ∧ r < mlDsaQ)
    (hs : |modpm s mlDsaQ| ≤ p.beta) (hlow : |(decompose p r).2| < p.gam2 - p.beta) :
    (decompose p (addCoeff r s)).1 = (decompose p r).1 :=
  highBits_bucket _ _ _ _ _ _ _ _ _ (by exact_mod_cast hg) hr (addCoeff_wrap s hr)
    (abs_le.mp hs) (abs_lt.mp hlow) (decompose_spec_of_mem p hg hr)
    (decompose_spec_of_mem p hg (addCoeff_mem r s))

theorem useHintPoly_makeHint {row : List ℤ} (zr : List ℤ) (hlen : row.length = 256)
    (hr : ∀ x ∈ row, 0 ≤ x ∧ x < mlDsaQ) (hz : ∀ a ∈ zr, infNormCoeff a ≤ p.gam2) :
    useHintPoly p (neqPoly (row.map fun x => (decompose p x).1)
        ((addPoly row zr).map fun x => (decompose p x).1)) row =
      (addPoly row zr).map fun x => (decompose p x).1 := by
  apply List.ext_getElem (by simp [useHintPoly, hlen])
  intro j h1 _
  have hj : j < 256 := by simpa [useHintPoly] using h1
  simp only [useHintPoly, List.getElem_map, List.getElem_range]
  rw [getD_neqPoly _ _ (by simp [hlen, hj]), getD_map_of_lt _ (by simp [hlen, hj]) 0,
    getD_map_of_lt _ (by simp [hlen, hj]) 0, getD_addPoly _ _ (by omega), getElem_addPoly]
  have hrj : 0 ≤ row.getD j 0 ∧ row.getD j 0 < mlDsaQ := hr _ (getD_mem (by omega))
  have hzj : infNormCoeff (zr.getD j 0) ≤ p.gam2 :=
    getD_le_of_forall hz (by simp [infNormCoeff, modpm, mlDsaQ, Int.natCast_nonneg])
  exact useHintCoeff_makeHint p hg _ hrj hzj

theorem abs_low_lt {r B : ℤ} (hr : 0 ≤ r ∧ r < mlDsaQ) (h : infNormCoeff (decompose p r).2 < B) :
    |(decompose p r).2| < B := by
  have s := decompose_spec_of_mem p hg hr
  have hb : -(mlDsaQ / 2) < (decompose p r).2 ∧ (decompose p r).2 ≤ mlDsaQ / 2 := by
    simp only [Decomposed, mlDsaQ] at s ⊢
    rcases hg with hg | hg <;> rw [hg] at s <;> omega
  rwa [infNormCoeff, modpm_of_small hb.1 hb.2] at h

theorem highBits_addPoly_of_low {row : List ℤ} (sr : List ℤ) (hr : ∀ x ∈ row, 0 ≤ x ∧ x < mlDsaQ)
    (hs : ∀ a ∈ sr, infNormCoeff a ≤ p.beta)
    (hlow : ∀ x ∈ row, infNormCoeff (decompose p x).2 < p.gam2 - p.beta) :
    (addPoly row sr).map (fun x => (decompose p x).1) = row.map fun x => (decompose p x).1 := by
  apply List.ext_getElem (by simp)
  intro j h1 _
  have hj : j < row.length := by simpa using h1
  have hrj := hr _ (getD_mem (d := 0) hj)
  simp only [List.getElem_map]
  have hsj : infNormCoeff (sr.getD j 0) ≤ p.beta :=
    getD_le_of_forall hs (by simp [infNormCoeff, modpm, mlDsaQ, Int.natCast_nonneg])
  rw [getElem_addPoly, decompose_addCoeff_of_low p hg _ hrj hsj
      (abs_low_lt p hg hrj (hlow _ (getD_mem hj))), List.getD_eq_getElem _ _ hj]

end Coeff

@[simp] theorem length_highBits (p : Params) (r : List (List ℤ)) : (highBits p r).length = r.length := by
  simp [highBits]

theorem getD_highBits (p : Params) {r : List (List ℤ)} {i : ℕ} (hi : i < r.length) :
    (highBits p r).getD i [] = (r.getD i []).map fun x => (decompose p x).1 :=
  getD_map_of_lt _ hi []

theorem getElem_highBits (p : Params) (r : List (List ℤ)) {i : ℕ} (hi : i < (highBits p r).length) :
    (highBits p r)[i] = (r.getD i []).map fun x => (decompose p x).1 := by
  rw [← getD_highBits p (by simpa using hi), List.getD_eq_getElem]

theorem useHintRow_eq (p : Params) {h : List ℕ} {r : List ℤ} (hh : 256 ≤ h.length) (hr : 256 ≤ r.length) :
    useHintRow p h r = .ok (useHintPoly p h r) := by
  rw [useHintRow, pyGet_eq_ok (by omega), ok_bind]
  exact mapM_eq_ok _ fun i hi => by
    have hi := List.mem_range.mp hi
    rw [pyGet_eq_getD 0 (by omega), ok_bind, pyGet_eq_getD 0 (by omega), ok_bind]
    rfl

/-- `use_hint` does not raise on a nonempty `h` with rows of at least 256 entries
and an `r` at least as long with such rows. -/
theorem useHint_eq (p : Params) {h : List (List ℕ)} {r : List (List ℤ)} (hne : h ≠ [])
    (hrl : h.length ≤ r.length)
    (hrows : ∀ i < h.length, 256 ≤ (h.getD i []).length ∧ 256 ≤ (r.getD i []).length) :
    useHint p h r = .ok ((List.range h.length).map fun i => useHintPoly p (h.getD i []) (r.getD i [])) := by
  rw [useHint, pyGet_eq_ok (List.length_pos.mpr hne), ok_bind]
  exact mapM_eq_ok _ fun i hi => by
    have hi := List.mem_range.mp hi
    rw [pyGet_eq_getD [] hi, ok_bind, pyGet_eq_getD [] (by omega), ok_bind,
      useHintRow_eq p (hrows i hi).1 (hrows i hi).2]

section Vector

variable (p : Params) (hg : p.gam2 = 95232 ∨ p.gam2 = 261888)
include hg

/-- `use_hint(make_hint(z, r), r) = high_bits(add(r, z))` on a nonempty vector. -/
theorem useHint_makeHint {r : List (List ℤ)} (z : List (List ℤ)) (hne : r ≠ [])
    (hr : ∀ row ∈ r, row.length = 256 ∧ ∀ x ∈ row, 0 ≤ x ∧ x < mlDsaQ) (hz : infNorm z ≤ p.gam2) :
    useHint p (makeHint p z r) r = .ok (highBits p (add r z)) := by
  have hz' := infNormCoeff_le_of_infNorm_le hz
  have hlen : (makeHint p z r).length = r.length := by simp [makeHint, neq]
  have hrow : ∀ i < r.length, ((makeHint p z r).getD i []).length = 256 := fun i hi => by
    rw [makeHint, getD_neq _ _ (by simpa using hi), neqPoly, length_zipIdx, getD_highBits p hi, List.length_map,
      (hr _ (getD_mem hi)).1]
  rw [useHint_eq p (List.ne_nil_of_length_pos (hlen ▸ List.length_pos.mpr hne)) hlen.le fun i hi => by
    rw [hlen] at hi
    exact ⟨(hrow i hi).ge, (hr _ (getD_mem hi)).1.ge⟩]
  refine congrArg Except.ok (List.ext_getElem (by simp [hlen]) fun i h1 _ => ?_)
  have hi : i < r.length := by simpa [hlen] using h1
  simp only [List.getElem_map, List.getElem_range]
  rw [getElem_highBits, makeHint, getD_neq _ _ (by simpa using hi), getD_highBits p hi,
    getD_highBits p (by simpa using hi), getD_add _ _ hi]
  exact useHintPoly_makeHint p hg _ (hr _ (getD_mem hi)).1 (hr _ (getD_mem hi)).2
    (getD_le_of_forall (P := fun row => ∀ a ∈ row, infNormCoeff a ≤ p.gam2) hz' (by simp))

/-- `high_bits(add(r, s)) = high_bits(r)` on a vector whose low parts are below
`gam2 - beta`, for `inf_norm(s) ≤ beta`. -/
theorem highBits_add_of_low {r : List (List ℤ)} (s : List (List ℤ))
    (hr : ∀ row ∈ r, ∀ x ∈ row, 0 ≤ x ∧ x < mlDsaQ) (hs : infNorm s ≤ p.beta)
    (hlow : infNorm (lowBits p r) < p.gam2 - p.beta) :
    highBits p (add r s) = highBits p r := by
  have hs' := infNormCoeff_le_of_infNorm_le hs
  have hlow' := infNormCoeff_lt_of_infNorm_lt hlow
  apply List.ext_getElem (by simp)
  intro i h1 _
  have hi : i < r.length := by simpa using h1
  rw [getElem_highBits, getElem_highBits, getD_add _ _ hi]
  refine highBits_addPoly_of_low p hg _ (hr _ (getD_mem hi))
    (getD_le_of_forall (P := fun row => ∀ a ∈ row, infNormCoeff a ≤ p.beta) hs' (by simp))
    (fun x hx => hlow' _ (getD_mem (d := []) (by simpa [lowBits] using hi)) _ ?_)
  rw [lowBits, getD_map_of_lt _ hi []]
  exact List.mem_map_of_mem _ hx

theorem makeHint_of_low {r : List (List ℤ)} (z : List (List ℤ))
    (hr : ∀ row ∈ r, row.length = 256 ∧ ∀ x ∈ row, 0 ≤ x ∧ x < mlDsaQ) (hz : infNorm z ≤ p.beta)
    (hlow : infNorm (lowBits p r) < p.gam2 - p.beta) :
    makeHint p z r = List.replicate r.length (List.replicate 256 0) := by
  rw [makeHint, highBits_add_of_low p hg z (fun row h => (hr row h).2) hz hlow, neq_self, length_highBits]
  intro row hrow
  obtain ⟨rr, hrr, rfl⟩ := List.mem_map.mp hrow
  rw [List.length_map, (hr rr hrr).1]

end Vector

theorem useHint_makeHint_eq_highBits (ps : ParamSet) (r z : List (List ℤ)) (hne : r ≠ [])
    (hr : ∀ row ∈ r, row.length = 256 ∧ ∀ x ∈ row, 0 ≤ x ∧ x < mlDsaQ)
    (hz : infNorm z ≤ (mlDsaParam ps).gam2) :
    useHint (mlDsaParam ps) (makeHint (mlDsaParam ps) z r) r = .ok (highBits (mlDsaParam ps) (add r z)) :=
  useHint_makeHint _ (gam2_mlDsaParam ps) z hne hr hz

theorem useHint_makeHint_eq_highBits_zero :
    [List.replicate 256 (0 : ℤ)] ≠ [] ∧
    (∀ row ∈ [List.replicate 256 (0 : ℤ)], row.length = 256 ∧ ∀ x ∈ row, 0 ≤ x ∧ x < mlDsaQ) ∧
    infNorm [List.replicate 256 0] ≤ (mlDsaParam .mlDsa44).gam2 ∧
    useHint (mlDsaParam .mlDsa44) (makeHint (mlDsaParam .mlDsa44) [List.replicate 256 0]
        [List.replicate 256 0]) [List.replicate 256 0] =
      .ok (highBits (mlDsaParam .mlDsa44) (add [List.replicate 256 0] [List.replicate 256 0])) := by
  have hr := forall_mem_replicate_rows (P := fun x : ℤ => 0 ≤ x ∧ x < mlDsaQ) (v := 0) (by decide) 1
  have hz : infNorm [List.replicate 256 0] ≤ (mlDsaParam .mlDsa44).gam2 :=
    infNorm_le_of_forall (by decide) fun row hrow a ha => by
      rw [(forall_mem_replicate_rows (P := fun x : ℤ => x = 0) rfl 1 row hrow).2 a ha]; decide
  exact ⟨List.cons_ne_nil _ _, hr, hz,
    useHint_makeHint_eq_highBits .mlDsa44 _ _ (List.cons_ne_nil _ _) hr hz⟩

theorem highBits_stable (ps : ParamSet) :
    let p := mlDsaParam ps
    (∀ r s : ℤ, 0 ≤ r ∧ r < mlDsaQ → |modpm s mlDsaQ| ≤ p.beta →
      |(decompose p r).2| < p.gam2 - p.beta → (decompose p ((r + s) % mlDsaQ)).1 = (decompose p r).1) ∧
    (∀ r s : List (List ℤ), (∀ row ∈ r, ∀ x ∈ row, 0 ≤ x ∧ x < mlDsaQ) → infNorm s ≤ p.beta →
      infNorm (lowBits p r) < p.gam2 - p.beta → highBits p (add r s) = highBits p r) :=
  ⟨fun _ s hr hs hlow => decompose_addCoeff_of_low _ (gam2_mlDsaParam ps) s hr hs hlow,
    fun _ s hr hs hlow => highBits_add_of_low _ (gam2_mlDsaParam ps) s hr hs hlow⟩

theorem highBits_stable_neg_beta :
    ((0 ≤ (0 : ℤ) ∧ (0 : ℤ) < mlDsaQ) ∧ |modpm (-78) mlDsaQ| ≤ (mlDsaParam .mlDsa44).beta ∧
      |(decompose (mlDsaParam .mlDsa44) 0).2| < (mlDsaParam .mlDsa44).gam2 - (mlDsaParam .mlDsa44).beta ∧
      (decompose (mlDsaParam .mlDsa44) ((0 + -78) % mlDsaQ)).1 = (decompose (mlDsaParam .mlDsa44) 0).1) ∧
    ((∀ row ∈ List.replicate 4 (List.replicate 256 (0 : ℤ)), ∀ x ∈ row, 0 ≤ x ∧ x < mlDsaQ) ∧
      infNorm (List.replicate 4 (List.replicate 256 (-78))) ≤ (mlDsaParam .mlDsa44).beta ∧
      infNorm (lowBits (mlDsaParam .mlDsa44) (List.replicate 4 (List.replicate 256 0))) <
        (mlDsaParam .mlDsa44).gam2 - (mlDsaParam .mlDsa44).beta ∧
      highBits (mlDsaParam .mlDsa44) (add (List.replicate 4 (List.replicate 256 0))
        (List.replicate 4 (List.replicate 256 (-78)))) =
        highBits (mlDsaParam .mlDsa44) (List.replicate 4 (List.replicate 256 0))) := by
  have hr : ∀ row ∈ List.replicate 4 (List.replicate 256 (0 : ℤ)), ∀ x ∈ row, 0 ≤ x ∧ x < mlDsaQ :=
    fun row hrow =>
      (forall_mem_replicate_rows (P := fun x : ℤ => 0 ≤ x ∧ x < mlDsaQ) (v := 0) (by decide) 4 row hrow).2
  have hs : infNorm (List.replicate 4 (List.replicate 256 (-78))) ≤ (mlDsaParam .mlDsa44).beta :=
    infNorm_le_of_forall (by decide) fun row hrow a ha => by
      rw [(forall_mem_replicate_rows (P := fun x : ℤ => x = -78) rfl 4 row hrow).2 a ha]; decide
  have hlow : infNorm (lowBits (mlDsaParam .mlDsa44) (List.replicate 4 (List.replicate 256 0))) <
      (mlDsaParam .mlDsa44).gam2 - (mlDsaParam .mlDsa44).beta := by
    refine infNorm_lt_of_forall (by decide) fun row hrow a ha => ?_
    rw [lowBits, List.map_replicate, List.map_replicate] at hrow
    rw [List.eq_of_mem_replicate hrow] at ha
    rw [List.eq_of_mem_replicate ha]
    decide
  exact ⟨⟨by decide, by decide, by decide, (highBits_stable .mlDsa44).1 0 (-78) (by decide) (by decide) (by decide)⟩,
    hr, hs, hlow, (highBits_stable .mlDsa44).2 _ _ hr hs hlow⟩

end MlDsa
