import MlDsa.NttLayers
import Mathlib.Data.ZMod.Basic
import Mathlib.Tactic.LinearCombination

/-!
# The round trip of the transforms

`ML_DSA_ZETAS` pairs each forward constant with the inverse one the reversed loop
reads, so the inverse layers undo the forward ones up to `2^8`, and `f = 8347681`
is `256⁻¹` modulo `q`.
-/

namespace MlDsa

set_option autoImplicit false

/-- The residues modulo `q`. -/
abbrev Zq : Type := ZMod 8380417

def toZq (w : List ℤ) (k : ℕ) : Zq := (w.getD k 0 : Zq)

@[simp] theorem intCast_emod_q (x : ℤ) : ((x % mlDsaQ : ℤ) : Zq) = (x : Zq) :=
  ZMod.intCast_mod x 8380417

theorem emod_q_eq_of_cast_eq {a b : ℤ} (h : (a : Zq) = (b : Zq)) : a % mlDsaQ = b % mlDsaQ :=
  (ZMod.intCast_eq_intCast_iff' a b 8380417).mp h

theorem toZq_map_range {g : ℕ → ℤ} (k : ℕ) :
    toZq ((List.range 256).map g) k = if 256 ≤ k then 0 else (g k : Zq) := by
  unfold toZq
  split_ifs with hk
  · rw [List.getD_eq_default _ _ (by simp; omega), Int.cast_zero]
  · rw [getD_map_of_lt g (by simp; omega) 0, List.getD_eq_getElem _ _ (by simp; omega),
      List.getElem_range]

def Trunc (f : ℕ → Zq) : Prop := ∀ k, 256 ≤ k → f k = 0

def fwdLayerZ (le : ℕ) (c : ℕ → Zq) (f : ℕ → Zq) (k : ℕ) : Zq :=
  if 256 ≤ k then 0
  else if k % (2 * le) < le then f k + c (k / (2 * le)) * f (k + le)
  else f (k - le) - c (k / (2 * le)) * f k

def invLayerZ (le : ℕ) (c : ℕ → Zq) (f : ℕ → Zq) (k : ℕ) : Zq :=
  if 256 ≤ k then 0
  else if k % (2 * le) < le then f k + f (k + le)
  else c (k / (2 * le)) * (f (k - le) - f k)

theorem toZq_nttLayerOut (le : ℕ) (c : ℕ → ℤ) (w : List ℤ) :
    toZq ((List.range 256).map (nttLayerOut le c w)) = fwdLayerZ le (fun b => (c b : Zq)) (toZq w) := by
  funext k
  rw [toZq_map_range, fwdLayerZ]
  split_ifs <;> simp [nttLayerOut, toZq, *]

theorem toZq_invLayerOut (le : ℕ) (c : ℕ → ℤ) (w : List ℤ) :
    toZq ((List.range 256).map (invLayerOut le c w)) = invLayerZ le (fun b => (c b : Zq)) (toZq w) := by
  funext k
  rw [toZq_map_range, invLayerZ]
  split_ifs <;> simp [invLayerOut, toZq, *]

theorem trunc_fwdLayerZ (le : ℕ) (c f : ℕ → Zq) : Trunc (fwdLayerZ le c f) :=
  fun _ hk => if_pos hk

theorem trunc_invLayerZ (le : ℕ) (c f : ℕ → Zq) : Trunc (invLayerZ le c f) :=
  fun _ hk => if_pos hk

theorem fwdLayerZ_smul (le : ℕ) (c f : ℕ → Zq) (a : Zq) :
    fwdLayerZ le c (fun k => a * f k) = fun k => a * fwdLayerZ le c f k := by
  funext k
  simp only [fwdLayerZ]
  split_ifs <;> ring

theorem invLayerZ_smul (le : ℕ) (c f : ℕ → Zq) (a : Zq) :
    invLayerZ le c (fun k => a * f k) = fun k => a * invLayerZ le c f k := by
  funext k
  simp only [invLayerZ]
  split_ifs <;> ring

section Pair

variable {le nb : ℕ} (hle : 0 < le) (hB : 2 * le * nb = 256) {c c' : ℕ → Zq}
  (hc : ∀ b < nb, c' b * c b = 1) {f : ℕ → Zq} (hf : Trunc f)
include hB

theorem block_lt {k : ℕ} (hk : k < 256) :
    k / (2 * le) < nb ∧ 2 * le * (k / (2 * le)) + 2 * le ≤ 256 := by
  have h := Nat.div_add_mod k (2 * le)
  have hb : k / (2 * le) < nb := Nat.lt_of_mul_lt_mul_left (a := 2 * le) (by omega)
  have := Nat.mul_le_mul_left (2 * le) (Nat.succ_le_of_lt hb)
  rw [Nat.mul_succ] at this
  exact ⟨hb, by omega⟩

include hle hc hf

theorem invLayerZ_fwdLayerZ : invLayerZ le c' (fwdLayerZ le c f) = fun k => 2 * f k := by
  funext k
  by_cases hk : 256 ≤ k
  · rw [invLayerZ, if_pos hk, hf k hk, mul_zero]
  obtain ⟨hb, hblk⟩ := block_lt hB (Nat.lt_of_not_le hk)
  have h := Nat.div_add_mod k (2 * le)
  have hr := Nat.mod_lt k (show 2 * le > 0 by omega)
  rw [invLayerZ, if_neg hk]
  split_ifs with hlo
  · obtain ⟨hd, hm⟩ := div_mod_of_block (B := 2 * le) (b := k / (2 * le)) (k := k + le)
      (by omega) (by omega)
    rw [fwdLayerZ, fwdLayerZ, if_neg hk, if_pos hlo, if_neg (by omega), if_neg (by omega), hd,
      Nat.add_sub_cancel]
    ring
  · obtain ⟨hd, hm⟩ := div_mod_of_block (B := 2 * le) (b := k / (2 * le)) (k := k - le)
      (by omega) (by omega)
    rw [fwdLayerZ, fwdLayerZ, if_neg hk, if_neg hlo, if_neg (by omega), if_pos (by omega), hd,
      Nat.sub_add_cancel (by omega)]
    linear_combination (2 * f k) * hc _ hb

theorem fwdLayerZ_invLayerZ : fwdLayerZ le c (invLayerZ le c' f) = fun k => 2 * f k := by
  funext k
  by_cases hk : 256 ≤ k
  · rw [fwdLayerZ, if_pos hk, hf k hk, mul_zero]
  obtain ⟨hb, hblk⟩ := block_lt hB (Nat.lt_of_not_le hk)
  have h := Nat.div_add_mod k (2 * le)
  have hr := Nat.mod_lt k (show 2 * le > 0 by omega)
  rw [fwdLayerZ, if_neg hk]
  split_ifs with hlo
  · obtain ⟨hd, hm⟩ := div_mod_of_block (B := 2 * le) (b := k / (2 * le)) (k := k + le)
      (by omega) (by omega)
    rw [invLayerZ, invLayerZ, if_neg hk, if_pos hlo, if_neg (by omega), if_neg (by omega), hd,
      Nat.add_sub_cancel]
    linear_combination (f k - f (k + le)) * hc _ hb
  · obtain ⟨hd, hm⟩ := div_mod_of_block (B := 2 * le) (b := k / (2 * le)) (k := k - le)
      (by omega) (by omega)
    rw [invLayerZ, invLayerZ, if_neg hk, if_neg hlo, if_neg (by omega), if_pos (by omega),
      Nat.sub_add_cancel (by omega)]
    linear_combination (f k - f (k - le)) * hc _ hb

end Pair

def nttStepZ (st : ℕ × (ℕ → Zq)) (le : ℕ) : ℕ × (ℕ → Zq) :=
  (st.1 + 128 / le, fwdLayerZ le (fun b => (zeta (st.1 + b + 1) : Zq)) st.2)

def invStepZ (st : ℕ × (ℕ → Zq)) (le : ℕ) : ℕ × (ℕ → Zq) :=
  (st.1 - 128 / le, invLayerZ le (fun b => ((-zeta (st.1 - b - 1) : ℤ) : Zq)) st.2)

def zqState (st : ℕ × List ℤ) : ℕ × (ℕ → Zq) := (st.1, toZq st.2)

theorem zqState_foldl_nttLayerMap (Ls : List ℕ) (st : ℕ × List ℤ) :
    zqState (Ls.foldl nttLayerMap st) = Ls.foldl nttStepZ (zqState st) :=
  (List.foldl_hom zqState nttLayerMap nttStepZ Ls st fun st le => by
    simp only [zqState, nttStepZ, nttLayerMap, toZq_nttLayerOut]).symm

theorem zqState_foldl_invLayerMap (Ls : List ℕ) (st : ℕ × List ℤ) :
    zqState (Ls.foldl invLayerMap st) = Ls.foldl invStepZ (zqState st) :=
  (List.foldl_hom zqState invLayerMap invStepZ Ls st fun st le => by
    simp only [zqState, invStepZ, invLayerMap, toZq_invLayerOut]).symm

def blockCount (Ls : List ℕ) : ℕ := (Ls.map (128 / ·)).sum

theorem foldl_invStepZ_fst (Ls : List ℕ) (st : ℕ × (ℕ → Zq)) :
    (Ls.foldl invStepZ st).1 = st.1 - blockCount Ls := by
  induction Ls generalizing st with
  | nil => simp [blockCount]
  | cons le Ls ih => simp only [List.foldl_cons, ih, invStepZ, blockCount, List.map_cons,
      List.sum_cons]; omega

theorem blockCount_reverse (Ls : List ℕ) : blockCount Ls.reverse = blockCount Ls := by
  simp [blockCount, List.map_reverse, List.sum_reverse]

theorem trunc_foldl_invStepZ (Ls : List ℕ) (st : ℕ × (ℕ → Zq)) (h : Trunc st.2) :
    Trunc (Ls.foldl invStepZ st).2 := by
  induction Ls generalizing st with
  | nil => exact h
  | cons le Ls ih => exact ih _ (by simp only [invStepZ]; exact trunc_invLayerZ _ _ _)

theorem foldl_nttStepZ_smul (a : Zq) (Ls : List ℕ) (m : ℕ) (f : ℕ → Zq) :
    (Ls.foldl nttStepZ (m, fun k => a * f k)).2 = fun k => a * (Ls.foldl nttStepZ (m, f)).2 k := by
  induction Ls generalizing m f with
  | nil => rfl
  | cons le Ls ih => simp only [List.foldl_cons, nttStepZ, fwdLayerZ_smul, ih]

/-- `ML_DSA_ZETAS` pairs the forward constants of a run of layers entered at counter
`m` with the inverse ones: `zetas[m + b + 1] * zetas[m + N - b] ≡ -1` for each of the
`N = 128 / le` blocks of each layer. -/
def pairedRun : ℕ → List ℕ → Bool
  | _, [] => true
  | m, le :: Ls => ((List.range (128 / le)).all fun b =>
      zeta (m + b + 1) * zeta (m + 128 / le - b) % mlDsaQ = mlDsaQ - 1) &&
      pairedRun (m + 128 / le) Ls

def mirrorPairsInv (S : List ℤ) : Bool :=
  (List.zipWith (· * ·) S S.reverse).all fun x => x % mlDsaQ = mlDsaQ - 1

theorem mirrorPairsInv_sound {S : List ℤ} (h : mirrorPairsInv S = true) {b : ℕ} (hb : b < S.length) :
    S.getD b 0 * S.getD (S.length - 1 - b) 0 % mlDsaQ = mlDsaQ - 1 := by
  have hz : b < (List.zipWith (· * ·) S S.reverse).length := by simp [hb]
  have hm := List.all_eq_true.mp h _ (List.getElem_mem hz)
  rw [List.getElem_zipWith, List.getElem_reverse] at hm
  rw [List.getD_eq_getElem _ _ hb, List.getD_eq_getElem _ _ (by omega)]
  simpa using hm

def pairedSlices : ℕ → List ℕ → Bool
  | _, [] => true
  | m, le :: Ls => (decide (m + 128 / le < 256) &&
      mirrorPairsInv (slice mlDsaZetas (m + 1) (m + 1 + 128 / le))) && pairedSlices (m + 128 / le) Ls

theorem pairedRun_of_pairedSlices : ∀ (m : ℕ) (Ls : List ℕ), pairedSlices m Ls = true → pairedRun m Ls = true
  | _, [] => fun _ => rfl
  | m, le :: Ls => by
    intro h
    simp only [pairedSlices, pairedRun, Bool.and_eq_true, decide_eq_true_eq, List.all_eq_true,
      List.mem_range] at h ⊢
    generalize 128 / le = N at h ⊢
    obtain ⟨⟨hN, hS⟩, hr⟩ := h
    refine ⟨fun b hb => ?_, pairedRun_of_pairedSlices _ Ls hr⟩
    have hl : (slice mlDsaZetas (m + 1) (m + 1 + N)).length = N := by
      rw [length_slice, length_mlDsaZetas]; omega
    have e := mirrorPairsInv_sound hS (b := b) (by omega)
    rwa [hl, getD_slice _ (by omega), getD_slice _ (by omega),
      show m + 1 + (N - 1 - b) = m + N - b by omega, Nat.add_right_comm] at e

theorem pairedRun_nttLens : pairedRun 0 nttLens = true := pairedRun_of_pairedSlices 0 nttLens (by decide)

theorem pair_inv_mul {x y : ℤ} (h : x * y % mlDsaQ = mlDsaQ - 1) :
    ((-y : ℤ) : Zq) * (x : Zq) = 1 := by
  have e : ((x * y : ℤ) : Zq) = -1 := by rw [← intCast_emod_q, h]; decide
  push_cast at e ⊢
  linear_combination -e

theorem pairedRun_cons {m le : ℕ} {Ls : List ℕ} (h : pairedRun m (le :: Ls) = true) :
    (∀ b < 128 / le, ((-zeta (m + 128 / le + 1 - b - 1) : ℤ) : Zq) * (zeta (m + b + 1) : Zq) = 1) ∧
      pairedRun (m + 128 / le) Ls = true := by
  simp only [pairedRun, Bool.and_eq_true, List.all_eq_true, List.mem_range, decide_eq_true_eq] at h
  refine ⟨fun b hb => ?_, h.2⟩
  rw [show m + 128 / le + 1 - b - 1 = m + 128 / le - b by omega]
  exact pair_inv_mul (h.1 b hb)

section Run

variable (Ls : List ℕ) (hLs : ∀ le ∈ Ls, le ∈ nttLens)
include hLs

theorem foldl_invStepZ_nttStepZ : ∀ (m : ℕ) (f : ℕ → Zq), Trunc f → pairedRun m Ls = true →
    (Ls.reverse.foldl invStepZ (m + blockCount Ls + 1, (Ls.foldl nttStepZ (m, f)).2)).2 =
      fun k => 2 ^ Ls.length * f k := by
  induction Ls with
  | nil => intro m f _ _; simp
  | cons le Ls ih =>
    intro m f hf hp
    obtain ⟨hpos, hB⟩ := mem_nttLens (hLs le (List.mem_cons_self le Ls))
    obtain ⟨hc, hp'⟩ := pairedRun_cons hp
    -- the last inverse layer, entered at `m + N + 1`, undoes the first forward one
    have last : ∀ X : ℕ × (ℕ → Zq), X.1 = m + 128 / le + 1 →
        X.2 = (fun k => 2 ^ Ls.length * fwdLayerZ le (fun b => (zeta (m + b + 1) : Zq)) f k) →
        (invStepZ X le).2 = fun k => 2 ^ (Ls.length + 1) * f k := by
      rintro ⟨x1, x2⟩ rfl rfl
      simp only [invStepZ, invLayerZ_smul, invLayerZ_fwdLayerZ hpos hB hc hf, pow_succ]
      funext k
      ring
    have hcount : m + blockCount (le :: Ls) + 1 = m + 128 / le + blockCount Ls + 1 := by
      simp only [blockCount, List.map_cons, List.sum_cons]; omega
    rw [List.reverse_cons, List.foldl_append, List.foldl_cons, List.foldl_cons, List.foldl_nil,
      hcount]
    exact last _ (by rw [foldl_invStepZ_fst, blockCount_reverse, Nat.add_right_comm _ (blockCount Ls),
        Nat.add_sub_cancel])
      (ih (fun l hl => hLs l (List.mem_cons_of_mem le hl)) _ _ (trunc_fwdLayerZ _ _ _) hp')

theorem foldl_nttStepZ_invStepZ : ∀ (m : ℕ) (f : ℕ → Zq), Trunc f → pairedRun m Ls = true →
    (Ls.foldl nttStepZ (m, (Ls.reverse.foldl invStepZ (m + blockCount Ls + 1, f)).2)).2 =
      fun k => 2 ^ Ls.length * f k := by
  induction Ls with
  | nil => intro m f _ _; simp
  | cons le Ls ih =>
    intro m f hf hp
    obtain ⟨hpos, hB⟩ := mem_nttLens (hLs le (List.mem_cons_self le Ls))
    obtain ⟨hc, hp'⟩ := pairedRun_cons hp
    -- the first forward layer undoes the last inverse one, entered at `m + N + 1`
    have first : ∀ X : ℕ × (ℕ → Zq), X.1 = m + 128 / le + 1 → Trunc X.2 →
        (Ls.foldl nttStepZ (m + 128 / le, X.2)).2 = (fun k => 2 ^ Ls.length * f k) →
        (Ls.foldl nttStepZ (nttStepZ (m, (invStepZ X le).2) le)).2 =
          fun k => 2 ^ (Ls.length + 1) * f k := by
      rintro ⟨x1, x2⟩ rfl hx h
      simp only [invStepZ, nttStepZ, fwdLayerZ_invLayerZ hpos hB hc hx, foldl_nttStepZ_smul]
      rw [h, pow_succ]
      funext k
      ring
    have hcount : m + blockCount (le :: Ls) + 1 = m + 128 / le + blockCount Ls + 1 := by
      simp only [blockCount, List.map_cons, List.sum_cons]; omega
    rw [List.reverse_cons, List.foldl_append, hcount]
    simp only [List.foldl_cons, List.foldl_nil, List.length_cons]
    exact first _ (by rw [foldl_invStepZ_fst, blockCount_reverse, Nat.add_right_comm _ (blockCount Ls),
        Nat.add_sub_cancel]) (trunc_foldl_invStepZ _ _ hf)
      (ih (fun l hl => hLs l (List.mem_cons_of_mem le hl)) _ _ hf hp')

end Run

/-- `ntt` over `ℤ_q`. -/
def nttZ (f : ℕ → Zq) : ℕ → Zq := (nttLens.foldl nttStepZ (0, f)).2

def invLayersZ (f : ℕ → Zq) : ℕ → Zq := (nttLens.reverse.foldl invStepZ (256, f)).2

theorem blockCount_nttLens : blockCount nttLens = 255 := by decide

theorem invLayersZ_nttZ {f : ℕ → Zq} (hf : Trunc f) : invLayersZ (nttZ f) = fun k => 256 * f k := by
  have e := foldl_invStepZ_nttStepZ nttLens (fun _ h => h) 0 f hf pairedRun_nttLens
  rw [blockCount_nttLens] at e
  exact e

theorem nttZ_invLayersZ {f : ℕ → Zq} (hf : Trunc f) : nttZ (invLayersZ f) = fun k => 256 * f k := by
  have e := foldl_nttStepZ_invStepZ nttLens (fun _ h => h) 0 f hf pairedRun_nttLens
  rw [blockCount_nttLens] at e
  exact e

theorem trunc_toZq {w : List ℤ} (hw : w.length = 256) : Trunc (toZq w) := fun k hk => by
  rw [toZq, List.getD_eq_default _ _ (by omega), Int.cast_zero]

theorem toZq_ntt {w : List ℤ} (hw : w.length = 256) : toZq (ntt w) = nttZ (toZq w) := by
  rw [ntt_eq_foldl hw]
  exact congrArg Prod.snd (zqState_foldl_nttLayerMap nttLens (0, w))

theorem toZq_nttInverse {w : List ℤ} (hw : w.length = 256) :
    toZq (nttInverse w) = fun k => 8347681 * invLayersZ (toZq w) k := by
  have e := congrArg Prod.snd (zqState_foldl_invLayerMap nttLens.reverse (256, w))
  funext k
  rw [nttInverse_eq_foldl hw, toZq_map_range]
  split_ifs with hk
  · rw [invLayersZ, trunc_foldl_invStepZ _ _ (trunc_toZq hw) k hk, mul_zero]
  · simp only [zqState] at e
    rw [invLayersZ, ← e, intCast_emod_q, Int.cast_mul, toZq, Int.cast_ofNat]

theorem eq_map_emod_of_toZq {u w : List ℤ} (hl : u.length = w.length)
    (hu : ∀ x ∈ u, x % mlDsaQ = x) (h : ∀ j < w.length, toZq u j = toZq w j) :
    u = w.map (· % mlDsaQ) := by
  refine List.ext_getElem (by simp [hl]) fun j h1 h2 => ?_
  have e := h j (by omega)
  rw [toZq, toZq, List.getD_eq_getElem _ _ h1, List.getD_eq_getElem _ _ (by omega)] at e
  rw [List.getElem_map, ← hu _ (List.getElem_mem h1)]
  exact emod_q_eq_of_cast_eq e

theorem inv256_mul_256 : (8347681 * 256 : Zq) = 1 := by decide

theorem emod_nttInverse (w : List ℤ) : ∀ x ∈ nttInverse w, x % mlDsaQ = x := by
  intro x hx
  obtain ⟨k, -, rfl⟩ := List.mem_map.mp hx
  exact Int.emod_emod _ _

theorem nttInverse_ntt {w : List ℤ} (hw : w.length = 256) :
    nttInverse (ntt w) = w.map (· % mlDsaQ) := by
  refine eq_map_emod_of_toZq (by simp [hw]) (emod_nttInverse _) fun j _ => ?_
  rw [toZq_nttInverse (length_ntt hw), toZq_ntt hw, invLayersZ_nttZ (trunc_toZq hw)]
  dsimp only
  rw [← mul_assoc, inv256_mul_256, one_mul]

theorem ntt_nttInverse {w : List ℤ} (hw : w.length = 256) :
    ntt (nttInverse w) = w.map (· % mlDsaQ) := by
  have hi := length_nttInverse w
  refine eq_map_emod_of_toZq (by rw [length_ntt hi, hw]) (emod_ntt hi) fun j _ => ?_
  rw [toZq_ntt hi, toZq_nttInverse hw, nttZ, foldl_nttStepZ_smul, ← nttZ,
    nttZ_invLayersZ (trunc_toZq hw)]
  dsimp only
  rw [← mul_assoc, inv256_mul_256, one_mul]

/-- `ntt_inverse` undoes `ntt` and `ntt` undoes `ntt_inverse`, on every list of 256
integers, up to reduction modulo `q`. -/
theorem ntt_round_trip (w : List ℤ) (hw : w.length = 256) :
    nttInverse (ntt w) = w.map (· % mlDsaQ) ∧ ntt (nttInverse w) = w.map (· % mlDsaQ) :=
  ⟨nttInverse_ntt hw, ntt_nttInverse hw⟩

theorem ntt_round_trip_zero :
    (List.replicate 256 (0 : ℤ)).length = 256 ∧
      (nttInverse (ntt (List.replicate 256 0)) = (List.replicate 256 (0 : ℤ)).map (· % mlDsaQ) ∧
        ntt (nttInverse (List.replicate 256 0)) = (List.replicate 256 (0 : ℤ)).map (· % mlDsaQ)) :=
  ⟨List.length_replicate _ _, ntt_round_trip _ (List.length_replicate _ _)⟩

end MlDsa
