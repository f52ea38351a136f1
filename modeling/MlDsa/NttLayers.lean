import MlDsa.Ntt
import Mathlib.Data.List.GetD

/-!
# The transforms as layer maps

Each pass of the outer loop of `ntt` and `ntt_inverse` is one butterfly layer, so
both transforms are eight explicit layer maps.
-/

namespace MlDsa

set_option autoImplicit false

theorem div_mod_of_block {B b k : ℕ} (h1 : B * b ≤ k) (h2 : k < B * b + B) :
    k / B = b ∧ k % B = k - B * b := by
  have hd : k / B = b :=
    Nat.div_eq_of_lt_le (by rw [Nat.mul_comm]; exact h1) (by rw [Nat.succ_mul, Nat.mul_comm]; exact h2)
  have := Nat.div_add_mod k B
  rw [hd] at this
  exact ⟨hd, by omega⟩

section Butterfly

variable (z : ℤ) {le : ℕ} {w : List ℤ} {j : ℕ}

@[simp] theorem length_nttButterfly : (nttButterfly z le w j).length = w.length := by
  simp [nttButterfly]

@[simp] theorem length_invButterfly : (invButterfly z le w j).length = w.length := by
  simp [invButterfly]

theorem length_foldl_nttButterfly (L : List ℕ) (w : List ℤ) :
    (L.foldl (nttButterfly z le) w).length = w.length := by
  induction L generalizing w with
  | nil => rfl
  | cons j L ih => rw [List.foldl_cons, ih, length_nttButterfly]

theorem length_foldl_invButterfly (L : List ℕ) (w : List ℤ) :
    (L.foldl (invButterfly z le) w).length = w.length := by
  induction L generalizing w with
  | nil => rfl
  | cons j L ih => rw [List.foldl_cons, ih, length_invButterfly]

variable (hle : 0 < le) (hj : j + le < w.length)
include hle hj

theorem getD_nttButterfly (k : ℕ) :
    (nttButterfly z le w j).getD k 0 =
      if k = j then (w.getD j 0 + z * w.getD (j + le) 0 % mlDsaQ) % mlDsaQ
      else if k = j + le then (w.getD j 0 - z * w.getD (j + le) 0 % mlDsaQ) % mlDsaQ
      else w.getD k 0 := by
  simp (disch := (try simp only [List.length_set]); omega) only [nttButterfly, getD_set_self_or]
  split_ifs <;> (try subst_vars) <;> omega

theorem getD_invButterfly (k : ℕ) :
    (invButterfly z le w j).getD k 0 =
      if k = j then (w.getD j 0 + w.getD (j + le) 0) % mlDsaQ
      else if k = j + le then z * ((w.getD j 0 - w.getD (j + le) 0) % mlDsaQ) % mlDsaQ
      else w.getD k 0 := by
  simp (disch := (try simp only [List.length_set]); omega) only [invButterfly, getD_set_self_or]
  split_ifs <;> (try subst_vars) <;> omega

end Butterfly

section Block

variable (z : ℤ) {le : ℕ} (hle : 0 < le) (st : ℕ) {w : List ℤ} (hw : st + 2 * le ≤ w.length)
include hle hw

theorem getD_foldl_nttButterfly :
    ∀ n, n ≤ le → ∀ k, ((List.range' st n).foldl (nttButterfly z le) w).getD k 0 =
      if st ≤ k ∧ k < st + n then (w.getD k 0 + z * w.getD (k + le) 0 % mlDsaQ) % mlDsaQ
      else if st + le ≤ k ∧ k < st + le + n then
        (w.getD (k - le) 0 - z * w.getD k 0 % mlDsaQ) % mlDsaQ
      else w.getD k 0
  | 0, _, k => by
    rw [List.range'_zero, List.foldl_nil, if_neg (by omega), if_neg (by omega)]
  | n + 1, hn, k => by
    have ih := getD_foldl_nttButterfly n (by omega)
    -- the two entries the new butterfly reads are still those of `w`
    have hj : ((List.range' st n).foldl (nttButterfly z le) w).getD (st + n) 0 = w.getD (st + n) 0 := by
      rw [ih, if_neg (by omega), if_neg (by omega)]
    have hjl : ((List.range' st n).foldl (nttButterfly z le) w).getD (st + n + le) 0 =
        w.getD (st + n + le) 0 := by
      rw [ih, if_neg (by omega), if_neg (by omega)]
    rw [List.range'_concat, List.foldl_append, List.foldl_cons, List.foldl_nil, Nat.one_mul,
      getD_nttButterfly z hle (by rw [length_foldl_nttButterfly]; omega), hj, hjl]
    by_cases h1 : k = st + n
    · rw [if_pos h1, if_pos (by omega), h1]
    by_cases h2 : k = st + n + le
    · rw [if_neg h1, if_pos h2, if_neg (by omega), if_pos (by omega), h2, Nat.add_sub_cancel]
    rw [if_neg h1, if_neg h2, ih]
    split_ifs <;> first | rfl | omega

theorem getD_foldl_invButterfly :
    ∀ n, n ≤ le → ∀ k, ((List.range' st n).foldl (invButterfly z le) w).getD k 0 =
      if st ≤ k ∧ k < st + n then (w.getD k 0 + w.getD (k + le) 0) % mlDsaQ
      else if st + le ≤ k ∧ k < st + le + n then
        z * ((w.getD (k - le) 0 - w.getD k 0) % mlDsaQ) % mlDsaQ
      else w.getD k 0
  | 0, _, k => by
    rw [List.range'_zero, List.foldl_nil, if_neg (by omega), if_neg (by omega)]
  | n + 1, hn, k => by
    have ih := getD_foldl_invButterfly n (by omega)
    have hj : ((List.range' st n).foldl (invButterfly z le) w).getD (st + n) 0 = w.getD (st + n) 0 := by
      rw [ih, if_neg (by omega), if_neg (by omega)]
    have hjl : ((List.range' st n).foldl (invButterfly z le) w).getD (st + n + le) 0 =
        w.getD (st + n + le) 0 := by
      rw [ih, if_neg (by omega), if_neg (by omega)]
    rw [List.range'_concat, List.foldl_append, List.foldl_cons, List.foldl_nil, Nat.one_mul,
      getD_invButterfly z hle (by rw [length_foldl_invButterfly]; omega), hj, hjl]
    by_cases h1 : k = st + n
    · rw [if_pos h1, if_pos (by omega), h1]
    by_cases h2 : k = st + n + le
    · rw [if_neg h1, if_pos h2, if_neg (by omega), if_pos (by omega), h2, Nat.add_sub_cancel]
    rw [if_neg h1, if_neg h2, ih]
    split_ifs <;> first | rfl | omega

end Block

def nttLayerOut (le : ℕ) (c : ℕ → ℤ) (w : List ℤ) (k : ℕ) : ℤ :=
  if k % (2 * le) < le then (w.getD k 0 + c (k / (2 * le)) * w.getD (k + le) 0 % mlDsaQ) % mlDsaQ
  else (w.getD (k - le) 0 - c (k / (2 * le)) * w.getD k 0 % mlDsaQ) % mlDsaQ

def invLayerOut (le : ℕ) (c : ℕ → ℤ) (w : List ℤ) (k : ℕ) : ℤ :=
  if k % (2 * le) < le then (w.getD k 0 + w.getD (k + le) 0) % mlDsaQ
  else c (k / (2 * le)) * ((w.getD (k - le) 0 - w.getD k 0) % mlDsaQ) % mlDsaQ

def nttLayerMap (st : ℕ × List ℤ) (le : ℕ) : ℕ × List ℤ :=
  (st.1 + 128 / le, (List.range 256).map (nttLayerOut le (fun b => zeta (st.1 + b + 1)) st.2))

def invLayerMap (st : ℕ × List ℤ) (le : ℕ) : ℕ × List ℤ :=
  (st.1 - 128 / le, (List.range 256).map (invLayerOut le (fun b => -zeta (st.1 - b - 1)) st.2))

section Layer

variable {le : ℕ} (hle : 0 < le) {w : List ℤ} (hw : w.length = 256) (m : ℕ)
include hle hw

theorem nttBlock_run : ∀ n, 2 * le * n ≤ 256 →
    ((List.range n).foldl (nttBlock le) (m, w)).1 = m + n ∧
    ((List.range n).foldl (nttBlock le) (m, w)).2.length = 256 ∧
    ∀ k, ((List.range n).foldl (nttBlock le) (m, w)).2.getD k 0 =
      if k < 2 * le * n then nttLayerOut le (fun b => zeta (m + b + 1)) w k else w.getD k 0
  | 0, _ => ⟨rfl, hw, fun k => by simp⟩
  | n + 1, hn => by
    rw [Nat.mul_succ] at hn
    obtain ⟨h1, h2, h3⟩ := nttBlock_run n (by omega)
    rw [List.range_succ, List.foldl_append, List.foldl_cons, List.foldl_nil]
    refine ⟨by simp only [nttBlock, h1]; omega, by simp [nttBlock, length_foldl_nttButterfly, h2], fun k => ?_⟩
    simp only [nttBlock, h1]
    rw [getD_foldl_nttButterfly _ hle _ (by omega) le le_rfl, h3, h3, h3, Nat.mul_succ]
    by_cases hk : k < 2 * le * n
    · rw [if_neg (by omega), if_neg (by omega), if_pos hk, if_pos (by omega)]
    by_cases hk2 : k < 2 * le * n + 2 * le
    · obtain ⟨hd, hm⟩ := div_mod_of_block (Nat.le_of_not_lt hk) hk2
      rw [if_pos hk2, nttLayerOut, hd, hm]
      by_cases hh : k - 2 * le * n < le
      · rw [if_pos (show 2 * le * n ≤ k ∧ k < 2 * le * n + le by omega), if_neg hk,
          if_neg (show ¬k + le < 2 * le * n by omega), if_pos hh]
      · rw [if_neg (show ¬(2 * le * n ≤ k ∧ k < 2 * le * n + le) by omega),
          if_pos (show 2 * le * n + le ≤ k ∧ k < 2 * le * n + le + le by omega), if_neg hk,
          if_neg (show ¬k - le < 2 * le * n by omega), if_neg hh]
    · rw [if_neg (by omega), if_neg (by omega), if_neg hk, if_neg hk2]

theorem invBlock_run : ∀ n, 2 * le * n ≤ 256 →
    ((List.range n).foldl (invBlock le) (m, w)).1 = m - n ∧
    ((List.range n).foldl (invBlock le) (m, w)).2.length = 256 ∧
    ∀ k, ((List.range n).foldl (invBlock le) (m, w)).2.getD k 0 =
      if k < 2 * le * n then invLayerOut le (fun b => -zeta (m - b - 1)) w k else w.getD k 0
  | 0, _ => ⟨rfl, hw, fun k => by simp⟩
  | n + 1, hn => by
    rw [Nat.mul_succ] at hn
    obtain ⟨h1, h2, h3⟩ := invBlock_run n (by omega)
    rw [List.range_succ, List.foldl_append, List.foldl_cons, List.foldl_nil]
    refine ⟨by simp [invBlock, h1]; omega, by simp [invBlock, length_foldl_invButterfly, h2],
      fun k => ?_⟩
    simp only [invBlock, h1]
    rw [getD_foldl_invButterfly _ hle _ (by omega) le le_rfl, h3, h3, h3, Nat.mul_succ]
    by_cases hk : k < 2 * le * n
    · rw [if_neg (by omega), if_neg (by omega), if_pos hk, if_pos (by omega)]
    by_cases hk2 : k < 2 * le * n + 2 * le
    · obtain ⟨hd, hm⟩ := div_mod_of_block (Nat.le_of_not_lt hk) hk2
      rw [if_pos hk2, invLayerOut, hd, hm, Nat.sub_sub]
      by_cases hh : k - 2 * le * n < le
      · rw [if_pos (show 2 * le * n ≤ k ∧ k < 2 * le * n + le by omega), if_neg hk,
          if_neg (show ¬k + le < 2 * le * n by omega), if_pos hh]
      · rw [if_neg (show ¬(2 * le * n ≤ k ∧ k < 2 * le * n + le) by omega),
          if_pos (show 2 * le * n + le ≤ k ∧ k < 2 * le * n + le + le by omega), if_neg hk,
          if_neg (show ¬k - le < 2 * le * n by omega), if_neg hh]
    · rw [if_neg (by omega), if_neg (by omega), if_neg hk, if_neg hk2]

end Layer

theorem eq_map_range_of_getD {w : List ℤ} (hw : w.length = 256) {g : ℕ → ℤ}
    (h : ∀ k < 256, w.getD k 0 = g k) : w = (List.range 256).map g :=
  List.ext_getElem (by simp [hw]) fun k hk _ => by
    rw [List.getElem_map, List.getElem_range, ← h k (by omega), List.getD_eq_getElem _ _ hk]

theorem mem_nttLens {le : ℕ} (h : le ∈ nttLens) : 0 < le ∧ 2 * le * (128 / le) = 256 := by
  revert le
  decide

section LayerEq

variable {le : ℕ} (hle : le ∈ nttLens) {w : List ℤ} (hw : w.length = 256) (m : ℕ)
include hle hw

theorem nttLayer_eq : nttLayer (m, w) le = nttLayerMap (m, w) le := by
  obtain ⟨hpos, hB⟩ := mem_nttLens hle
  have hn : 256 / (2 * le) = 128 / le := Nat.div_eq_of_eq_mul_right (by omega) hB.symm
  obtain ⟨h1, h2, h3⟩ := nttBlock_run hpos hw m (128 / le) hB.le
  rw [nttLayer, hn]
  refine Prod.ext h1 (eq_map_range_of_getD h2 fun k hk => ?_)
  rw [h3, hB, if_pos hk]

theorem invLayer_eq : invLayer (m, w) le = invLayerMap (m, w) le := by
  obtain ⟨hpos, hB⟩ := mem_nttLens hle
  have hn : 256 / (2 * le) = 128 / le := Nat.div_eq_of_eq_mul_right (by omega) hB.symm
  obtain ⟨h1, h2, h3⟩ := invBlock_run hpos hw m (128 / le) hB.le
  rw [invLayer, hn]
  refine Prod.ext h1 (eq_map_range_of_getD h2 fun k hk => ?_)
  rw [h3, hB, if_pos hk]

end LayerEq

theorem foldl_congr_of_inv {α β : Type} {f g : β → α → β} (I : β → Prop) (l : List α)
    (hfg : ∀ a ∈ l, ∀ b, I b → f b a = g b a) (hI : ∀ a ∈ l, ∀ b, I b → I (g b a)) :
    ∀ b, I b → l.foldl f b = l.foldl g b := by
  induction l with
  | nil => exact fun _ _ => rfl
  | cons a l ih =>
    intro b hb
    rw [List.foldl_cons, List.foldl_cons, hfg a (List.mem_cons_self a l) b hb]
    exact ih (fun a' ha' => hfg a' (List.mem_cons_of_mem a ha'))
      (fun a' ha' => hI a' (List.mem_cons_of_mem a ha')) _ (hI a (List.mem_cons_self a l) b hb)

theorem length_foldl_nttLayerMap (Ls : List ℕ) (st : ℕ × List ℤ) (h : st.2.length = 256) :
    (Ls.foldl nttLayerMap st).2.length = 256 := by
  induction Ls generalizing st with
  | nil => exact h
  | cons le Ls ih => exact ih _ (by simp [nttLayerMap])

theorem emod_nttLayerMap (st : ℕ × List ℤ) (le : ℕ) :
    ∀ x ∈ (nttLayerMap st le).2, x % mlDsaQ = x := by
  intro x hx
  obtain ⟨k, -, rfl⟩ := List.mem_map.mp hx
  unfold nttLayerOut
  split_ifs <;> exact Int.emod_emod _ _

theorem emod_foldl_nttLayerMap (Ls : List ℕ) (st : ℕ × List ℤ) (h : ∀ x ∈ st.2, x % mlDsaQ = x) :
    ∀ x ∈ (Ls.foldl nttLayerMap st).2, x % mlDsaQ = x := by
  induction Ls generalizing st with
  | nil => exact h
  | cons le Ls ih => exact ih _ (emod_nttLayerMap st le)

/-- `ntt` is the eight forward layer maps. -/
theorem ntt_eq_foldl {w : List ℤ} (hw : w.length = 256) :
    ntt w = (nttLens.foldl nttLayerMap (0, w)).2 := by
  rw [ntt, foldl_congr_of_inv (fun st : ℕ × List ℤ => st.2.length = 256) nttLens
    (fun le hle st hst => nttLayer_eq hle hst st.1) (fun _ _ _ _ => by simp [nttLayerMap]) _ hw]

theorem length_ntt {w : List ℤ} (hw : w.length = 256) : (ntt w).length = 256 := by
  rw [ntt_eq_foldl hw]
  exact length_foldl_nttLayerMap _ _ hw

theorem emod_ntt {w : List ℤ} (hw : w.length = 256) : ∀ x ∈ ntt w, x % mlDsaQ = x := by
  rw [ntt_eq_foldl hw, show nttLens = 128 :: [64, 32, 16, 8, 4, 2, 1] from rfl, List.foldl_cons]
  exact emod_foldl_nttLayerMap _ _ (emod_nttLayerMap _ _)

/-- `ntt_inverse` is the eight inverse layer maps, then the factor `f = 8347681`. -/
theorem nttInverse_eq_foldl {w : List ℤ} (hw : w.length = 256) :
    nttInverse w = (List.range 256).map fun j =>
      8347681 * (nttLens.reverse.foldl invLayerMap (256, w)).2.getD j 0 % mlDsaQ := by
  rw [nttInverse, foldl_congr_of_inv (fun st : ℕ × List ℤ => st.2.length = 256) nttLens.reverse
    (fun le hle st hst => invLayer_eq (List.mem_reverse.mp hle) hst st.1)
    (fun _ _ _ _ => by simp [invLayerMap]) _ hw]

end MlDsa
