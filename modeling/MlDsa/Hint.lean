import MlDsa.Pack
import Mathlib.Data.List.Sort
import Mathlib.Data.List.Chain
import Mathlib.Data.List.GetD

/-!
# Hint packing

Algorithms 20 and 21 of FIPS 204. A hint is `k` rows of 256 entries `0`/`1`,
packed as the positions of the ones, zero padding to `omega` bytes, and the `k`
running counts.
-/

namespace MlDsa

set_option autoImplicit false

/-- `weight(h)`: the number of nonzero entries of a hint. -/
def weight (h : List (List ℕ)) : ℕ :=
  h.foldl (fun w row => w + row.foldl (fun w x => w + if x = 0 then 0 else 1) 0) 0

/-- Algorithm 20, `HintBitPack(h)`: the `for i … for j` loops on the state
`(idx, y)`. The writes `y[idx] = j` and `y[omega + i] = idx` stay inside `y`
and below 256 when the weight is at most `omega`, which `sign_internal`
checks before encoding. -/
def hintBitPack (p : Params) (h : List (List ℕ)) : Bytes :=
  ((List.range p.k).foldl (fun (st : ℕ × Bytes) i =>
      let st := (List.range 256).foldl (fun (st : ℕ × Bytes) j =>
          if (h.getD i []).getD j 0 ≠ 0 then (st.1 + 1, st.2.set st.1 (UInt8.ofNat j)) else st) st
      (st.1, st.2.set (p.omega + i) (UInt8.ofNat st.1)))
    (0, List.replicate (p.omega + p.k) 0)).2

/-- The `while idx < y[omega + i]` loop of `hint_bit_unpack`, `n` more times
from `idx`, writing ones into `row`; `none` is the source's `return None`. -/
def hintRowLoop (y : Bytes) (first : ℕ) : ℕ → ℕ → List ℕ → Except Fault (Option (List ℕ))
  | 0, _, row => .ok (some row)
  | n + 1, idx, row => do
    if idx > first then
      if (← pyGet y (idx - 1)) ≥ (← pyGet y idx) then
        return none
    let j ← pyGet y idx
    hintRowLoop y first n (idx + 1) (row.set j.toNat 1)

/-- The rows `is` of `hint_bit_unpack` (the `for i in range(self.k)` loop) from
the running `idx`: each row starts as `[0] * 256`. -/
def hintRows (p : Params) (y : Bytes) : List ℕ → ℕ → Except Fault (Option (ℕ × List (List ℕ)))
  | [], idx => .ok (some (idx, []))
  | i :: is, idx => do
    let stop ← pyGet y (p.omega + i)
    if stop.toNat < idx ∨ stop.toNat > p.omega then return none
    match ← hintRowLoop y idx (stop.toNat - idx) idx (List.replicate 256 0) with
    | none => return none
    | some row =>
      match ← hintRows p y is stop.toNat with
      | none => return none
      | some (idx', rows) => return some (idx', row :: rows)

/-- Algorithm 21, `HintBitUnpack(y)`: the rows, then `y[i] == 0` for
`i in range(idx, self.omega)`. -/
def hintBitUnpack (p : Params) (y : Bytes) : Except Fault (Option (List (List ℕ))) := do
  match ← hintRows p y (List.range p.k) 0 with
  | none => return none
  | some (idx, h) =>
    if ← (List.range' idx (p.omega - idx)).allM (fun i => do return (← pyGet y i) == 0) then
      return some h
    else return none

/-- The positions `j < 256` with `row[j] ≠ 0`, in increasing order. -/
def onesOf (row : List ℕ) : List ℕ := (List.range 256).filter fun j => row.getD j 0 ≠ 0

def hintRowIdx (h : List (List ℕ)) (i : ℕ) : List ℕ := onesOf (h.getD i [])

/-- The positions of the ones of rows `0, …, m - 1`, row after row. -/
def hintIdx (h : List (List ℕ)) (m : ℕ) : List ℕ := (List.range m).flatMap (hintRowIdx h)

theorem hintIdx_succ (h : List (List ℕ)) (m : ℕ) :
    hintIdx h (m + 1) = hintIdx h m ++ hintRowIdx h m := by
  simp [hintIdx, List.range_succ, List.flatMap_append]

theorem length_hintIdx_mono (h : List (List ℕ)) {m m' : ℕ} (hm : m ≤ m') :
    (hintIdx h m).length ≤ (hintIdx h m').length := by
  induction hm with
  | refl => exact le_rfl
  | step _ ih => rw [hintIdx_succ, List.length_append]; omega

theorem hintIdx_prefix (h : List (List ℕ)) {m m' : ℕ} (hm : m ≤ m') :
    ∃ r, hintIdx h m' = hintIdx h m ++ r := by
  induction hm with
  | refl => exact ⟨[], (List.append_nil _).symm⟩
  | step _ ih =>
    obtain ⟨r, hr⟩ := ih
    exact ⟨r ++ hintRowIdx h _, by rw [hintIdx_succ, hr, List.append_assoc]⟩

theorem lt_of_mem_onesOf {row : List ℕ} {j : ℕ} (hj : j ∈ onesOf row) : j < 256 :=
  List.mem_range.mp (List.mem_filter.mp hj).1

theorem onesOf_sorted (row : List ℕ) : (onesOf row).Sorted (· < ·) :=
  (List.pairwise_lt_range 256).filter _

theorem mem_onesOf {row : List ℕ} {j : ℕ} (hj : j < 256) : j ∈ onesOf row ↔ row.getD j 0 ≠ 0 := by
  simp [onesOf, hj]

theorem foldl_count_ne_zero (l : List ℕ) (a : ℕ) :
    l.foldl (fun w x => w + if x = 0 then 0 else 1) a = a + l.countP (· ≠ 0) := by
  induction l generalizing a with
  | nil => simp
  | cons x l ih => rw [List.foldl_cons, ih, List.countP_cons]; by_cases hx : x = 0 <;> simp [hx]; omega

theorem length_filter_range_getD (l : List ℕ) :
    ((List.range l.length).filter fun j => l.getD j 0 ≠ 0).length = l.countP (· ≠ 0) := by
  induction l with
  | nil => rfl
  | cons a l ih =>
    rw [List.length_cons, List.range_succ_eq_map, List.filter_cons, List.filter_map, List.countP_cons]
    by_cases ha : a = 0 <;> simpa [ha, Function.comp_def] using ih

theorem length_onesOf {row : List ℕ} (hlen : row.length = 256) :
    (onesOf row).length = row.countP (· ≠ 0) := by
  rw [← length_filter_range_getD, hlen]; rfl

theorem hintIdx_cons (a : List ℕ) (h : List (List ℕ)) (n : ℕ) :
    hintIdx (a :: h) (n + 1) = onesOf a ++ hintIdx h n := by
  simp only [hintIdx, List.range_succ_eq_map, List.flatMap_cons, List.flatMap_map]
  rfl

theorem weight_eq_length_hintIdx (h : List (List ℕ)) (hrow : ∀ row ∈ h, row.length = 256) :
    weight h = (hintIdx h h.length).length := by
  suffices ∀ a, h.foldl (fun w row => w + row.foldl (fun w x => w + if x = 0 then 0 else 1) 0) a =
      a + (hintIdx h h.length).length from (this 0).trans (Nat.zero_add _)
  induction h with
  | nil => intro a; rfl
  | cons r h ih =>
    intro a
    rw [List.foldl_cons, ih (fun row hr => hrow row (List.mem_cons_of_mem r hr)), List.length_cons,
      hintIdx_cons, List.length_append, length_onesOf (hrow r (List.mem_cons_self r h)),
      foldl_count_ne_zero]
    omega

@[simp] theorem weight_replicate_zero (n m : ℕ) : weight (List.replicate n (List.replicate m 0)) = 0 := by
  suffices ∀ a, (List.replicate n (List.replicate m 0)).foldl
      (fun w row => w + row.foldl (fun w x => w + if x = 0 then 0 else 1) 0) a = a from this 0
  induction n with
  | zero => intro a; rfl
  | succ n ih =>
    intro a
    rw [List.replicate_succ, List.foldl_cons, foldl_count_ne_zero, List.countP_replicate, ih]
    simp

theorem length_hintIdx_le {h : List (List ℕ)} {k omega : ℕ} (hk : h.length = k)
    (hrow : ∀ row ∈ h, row.length = 256) (hwt : weight h ≤ omega) : (hintIdx h k).length ≤ omega := by
  rw [← hk, ← weight_eq_length_hintIdx h hrow]; exact hwt

theorem chain'_range' {f : ℕ → ℕ} : ∀ (s n : ℕ), (∀ t, s < t → t < s + n → f (t - 1) < f t) →
    (List.range' s n).Chain' (fun a b => f a < f b)
  | _, 0, _ => List.chain'_nil
  | s, n + 1, h => by
    rw [List.range'_succ, List.chain'_cons']
    refine ⟨fun b hb => ?_, chain'_range' (s + 1) n (fun t h1 h2 => h t (by omega) (by omega))⟩
    cases n with
    | zero => simp at hb
    | succ n =>
      rw [List.range'_succ, List.head?_cons, Option.mem_some_iff] at hb
      subst hb
      exact h (s + 1) (by omega) (by omega)

theorem sorted_map_range' {f : ℕ → ℕ} (s n : ℕ) (h : ∀ t, s < t → t < s + n → f (t - 1) < f t) :
    ((List.range' s n).map f).Sorted (· < ·) :=
  List.chain'_iff_pairwise.mp ((List.chain'_map f).mpr (chain'_range' s n h))

def packedHint (p : Params) (w c : List ℕ) : Bytes :=
  w.map UInt8.ofNat ++ List.replicate (p.omega - w.length) 0 ++ c.map UInt8.ofNat ++
    List.replicate (p.k - c.length) 0

theorem set_middle {α : Type} (A B : List α) (x v : α) :
    (A ++ x :: B).set A.length v = A ++ v :: B := by
  rw [List.set_append_right _ _ le_rfl, Nat.sub_self]
  rfl

section Pack

variable (p : Params) (h : List (List ℕ))

theorem packedHint_set_pos (w c : List ℕ) (j : ℕ) (hw : w.length < p.omega) :
    (packedHint p w c).set w.length (UInt8.ofNat j) = packedHint p (w ++ [j]) c := by
  obtain ⟨n, hn⟩ : ∃ n, p.omega - w.length = n + 1 := ⟨p.omega - w.length - 1, by omega⟩
  have hn' : p.omega - (w ++ [j]).length = n := by simp; omega
  simp only [packedHint, hn, hn', List.replicate_succ, List.append_assoc, List.cons_append]
  rw [← List.length_map w UInt8.ofNat, set_middle]
  simp

theorem packedHint_set_count (w c : List ℕ) (hw : w.length ≤ p.omega) (hc : c.length < p.k) :
    (packedHint p w c).set (p.omega + c.length) (UInt8.ofNat w.length) =
      packedHint p w (c ++ [w.length]) := by
  obtain ⟨n, hn⟩ : ∃ n, p.k - c.length = n + 1 := ⟨p.k - c.length - 1, by omega⟩
  have hn' : p.k - (c ++ [w.length]).length = n := by simp; omega
  have hpos : p.omega + c.length =
      (w.map UInt8.ofNat ++ List.replicate (p.omega - w.length) 0 ++ c.map UInt8.ofNat).length := by
    simp; omega
  simp only [packedHint, hn, hn', List.replicate_succ]
  rw [hpos, set_middle]
  simp

theorem hintPack_row_loop (i : ℕ) (c : List ℕ) :
    ∀ (J w : List ℕ), (w ++ J.filter fun j => (h.getD i []).getD j 0 ≠ 0).length ≤ p.omega →
      J.foldl (fun (st : ℕ × Bytes) j =>
          if (h.getD i []).getD j 0 ≠ 0 then (st.1 + 1, st.2.set st.1 (UInt8.ofNat j)) else st)
        (w.length, packedHint p w c) =
      ((w ++ J.filter fun j => (h.getD i []).getD j 0 ≠ 0).length,
        packedHint p (w ++ J.filter fun j => (h.getD i []).getD j 0 ≠ 0) c)
  | [], w, _ => by simp
  | j :: J, w, hle => by
    by_cases hj : (h.getD i []).getD j 0 ≠ 0
    · have hf : (j :: J).filter (fun j => (h.getD i []).getD j 0 ≠ 0) =
          j :: J.filter (fun j => (h.getD i []).getD j 0 ≠ 0) :=
        List.filter_cons_of_pos (decide_eq_true hj)
      rw [hf] at hle ⊢
      have hlt : w.length < p.omega := by
        simp only [List.length_append, List.length_cons] at hle; omega
      have ih := hintPack_row_loop i c J (w ++ [j])
        (by rw [List.append_assoc, List.singleton_append]; exact hle)
      rw [List.foldl_cons, if_pos hj, packedHint_set_pos p w c j hlt,
        show w.length + 1 = (w ++ [j]).length by simp, ih, List.append_assoc, List.singleton_append]
    · have hf : (j :: J).filter (fun j => (h.getD i []).getD j 0 ≠ 0) =
          J.filter (fun j => (h.getD i []).getD j 0 ≠ 0) :=
        List.filter_cons_of_neg (by simpa using hj)
      rw [hf] at hle ⊢
      rw [List.foldl_cons, if_neg hj, hintPack_row_loop i c J w hle]

def hintCounts (m : ℕ) : List ℕ := (List.range m).map fun i => (hintIdx h (i + 1)).length

theorem hintPack_rows (hw : (hintIdx h p.k).length ≤ p.omega) :
    ∀ m, m ≤ p.k →
      (List.range m).foldl (fun (st : ℕ × Bytes) i =>
          let st := (List.range 256).foldl (fun (st : ℕ × Bytes) j =>
              if (h.getD i []).getD j 0 ≠ 0 then (st.1 + 1, st.2.set st.1 (UInt8.ofNat j))
              else st) st
          (st.1, st.2.set (p.omega + i) (UInt8.ofNat st.1)))
        (0, List.replicate (p.omega + p.k) 0) =
      ((hintIdx h m).length, packedHint p (hintIdx h m) (hintCounts h m))
  | 0, _ => by
    rw [List.range_zero, List.foldl_nil]
    simp only [hintIdx, hintCounts, List.range_zero, List.flatMap_nil, List.map_nil, packedHint,
      List.length_nil, Nat.sub_zero, List.nil_append, List.append_nil, List.replicate_add]
  | m + 1, hm => by
    have hle : (hintIdx h (m + 1)).length ≤ p.omega :=
      (length_hintIdx_mono h (by omega)).trans hw
    rw [List.range_succ m, List.foldl_append, hintPack_rows hw m (by omega), List.foldl_cons,
      List.foldl_nil]
    have hrow := hintPack_row_loop p h m (hintCounts h m) (List.range 256) (hintIdx h m)
      (by rw [hintIdx_succ] at hle; exact hle)
    simp only at hrow ⊢
    have e : (List.range 256).filter (fun j => (h.getD m []).getD j 0 ≠ 0) = hintRowIdx h m := rfl
    rw [hrow, e, ← hintIdx_succ]
    have hc : (hintCounts h m).length = m := by simp [hintCounts]
    rw [show p.omega + m = p.omega + (hintCounts h m).length by rw [hc],
      packedHint_set_count p _ _ hle (by omega)]
    simp [hintCounts, List.range_succ]

/-- `HintBitPack` in closed form: positions, zero padding, counts. -/
theorem hintBitPack_eq (hw : (hintIdx h p.k).length ≤ p.omega) :
    hintBitPack p h = (hintIdx h p.k).map UInt8.ofNat ++
      List.replicate (p.omega - (hintIdx h p.k).length) 0 ++ (hintCounts h p.k).map UInt8.ofNat := by
  rw [hintBitPack, hintPack_rows p h hw p.k le_rfl]
  simp [packedHint, hintCounts]

end Pack

def rowOf (L : List ℕ) : List ℕ := L.foldl (fun r j => r.set j 1) (List.replicate 256 0)

theorem foldl_set_one_getD (L row : List ℕ) (j : ℕ) (hj : j < row.length) :
    (L.foldl (fun r j => r.set j 1) row).getD j 0 = if j ∈ L then 1 else row.getD j 0 := by
  induction L generalizing row with
  | nil => simp
  | cons a L ih =>
    rw [List.foldl_cons, ih _ (by simpa using hj)]
    by_cases hjL : j ∈ L
    · simp [hjL]
    · by_cases ha : a = j
      · subst ha; simp [List.getD_eq_getElem?_getD, List.getElem?_set, hj]
      · simp [hjL, Ne.symm ha, List.getD_eq_getElem?_getD, List.getElem?_set, ha]

theorem length_foldl_set (L row : List ℕ) :
    (L.foldl (fun r j => r.set j 1) row).length = row.length := by
  induction L generalizing row with
  | nil => rfl
  | cons a L ih => rw [List.foldl_cons, ih, List.length_set]

@[simp] theorem length_rowOf (L : List ℕ) : (rowOf L).length = 256 := by
  rw [rowOf, length_foldl_set, List.length_replicate]

theorem rowOf_getD (L : List ℕ) {j : ℕ} (hj : j < 256) :
    (rowOf L).getD j 0 = if j ∈ L then 1 else 0 := by
  rw [rowOf, foldl_set_one_getD _ _ _ (by rw [List.length_replicate]; exact hj),
    List.getD_eq_getElem?_getD, List.getElem?_replicate_of_lt hj, Option.getD_some]

theorem onesOf_rowOf {L : List ℕ} (hs : L.Sorted (· < ·)) (hL : ∀ j ∈ L, j < 256) :
    onesOf (rowOf L) = L := by
  apply List.eq_of_perm_of_sorted _ (onesOf_sorted _) hs
  apply (List.perm_ext_iff_of_nodup ((List.nodup_range 256).filter _) hs.nodup).mpr
  intro j
  show j ∈ onesOf (rowOf L) ↔ j ∈ L
  by_cases hj : j < 256
  · rw [mem_onesOf hj, rowOf_getD L hj]
    by_cases hjL : j ∈ L <;> simp [hjL]
  · exact iff_of_false (fun h => hj (lt_of_mem_onesOf h)) (fun h => hj (hL j h))

theorem rowOf_onesOf {row : List ℕ} (hlen : row.length = 256) (hbit : ∀ x ∈ row, x ≤ 1) :
    rowOf (onesOf row) = row := by
  apply List.ext_getElem (by simp [hlen])
  intro j hj _
  rw [length_rowOf] at hj
  have e1 := rowOf_getD (onesOf row) hj
  have hmem : j ∈ onesOf row ↔ row.getD j 0 ≠ 0 := mem_onesOf hj
  rw [List.getD_eq_getElem?_getD, List.getElem?_eq_getElem (by simpa using hj), Option.getD_some]
    at e1
  rw [List.getD_eq_getElem?_getD, List.getElem?_eq_getElem (by omega), Option.getD_some] at hmem
  have hx := hbit _ (List.getElem_mem (by omega : j < row.length))
  rw [e1]
  by_cases h0 : row[j] = 0
  · rw [if_neg (by rw [hmem]; simpa using h0), h0]
  · rw [if_pos (hmem.mpr h0)]; omega

section Unpack

variable (p : Params) (y : Bytes)

def hintStart : ℕ → ℕ
  | 0 => 0
  | i + 1 => (y.getD (p.omega + i) 0).toNat

/-- The checks of `hint_bit_unpack` on row `i` pass. -/
def HintRowOk (i : ℕ) : Prop :=
  hintStart p y i ≤ hintStart p y (i + 1) ∧ hintStart p y (i + 1) ≤ p.omega ∧
    ∀ t ∈ List.range' (hintStart p y i) (hintStart p y (i + 1) - hintStart p y i),
      hintStart p y i < t → y.getD (t - 1) 0 < y.getD t 0

instance (i : ℕ) : Decidable (HintRowOk p y i) := inferInstanceAs (Decidable (_ ∧ _ ∧ _))

def hintRowPos (i : ℕ) : List ℕ :=
  (List.range' (hintStart p y i) (hintStart p y (i + 1) - hintStart p y i)).map
    fun t => (y.getD t 0).toNat

/-- Every check of `hint_bit_unpack` passes: the rows, then the zero padding. -/
def HintCanonical : Prop :=
  (∀ i ∈ List.range p.k, HintRowOk p y i) ∧
    ∀ t ∈ List.range' (hintStart p y p.k) (p.omega - hintStart p y p.k), y.getD t 0 = 0

instance : Decidable (HintCanonical p y) := inferInstanceAs (Decidable (_ ∧ _))

theorem hintRowLoop_eq (first : ℕ) : ∀ (n idx : ℕ) (row : List ℕ), idx + n ≤ y.length →
    hintRowLoop y first n idx row =
      if ∀ t ∈ List.range' idx n, first < t → y.getD (t - 1) 0 < y.getD t 0 then
        .ok (some ((List.range' idx n).foldl (fun r t => r.set (y.getD t 0).toNat 1) row))
      else .ok none
  | 0, idx, row, _ => by simp [hintRowLoop]
  | n + 1, idx, row, hle => by
    have ih := hintRowLoop_eq first n (idx + 1) (row.set (y.getD idx 0).toNat 1) (by omega)
    have hget : pyGet y idx = .ok (y.getD idx 0) := pyGet_eq_getD 0 (by omega)
    simp only [List.range'_succ, List.forall_mem_cons, List.foldl_cons]
    by_cases hf : idx > first
    · have hget' : pyGet y (idx - 1) = .ok (y.getD (idx - 1) 0) := pyGet_eq_getD 0 (by omega)
      simp only [hintRowLoop, if_pos hf, hget, hget', ok_bind]
      by_cases hlt : y.getD (idx - 1) 0 < y.getD idx 0
      · have hge : ¬ (y.getD (idx - 1) 0 ≥ y.getD idx 0) := UInt8.not_le.mpr hlt
        simp only [hge, if_false, pure_bind, ok_bind]
        rw [ih]
        by_cases hA : ∀ t ∈ List.range' (idx + 1) n, first < t → y.getD (t - 1) 0 < y.getD t 0
        · rw [if_pos hA, if_pos ⟨fun _ => hlt, hA⟩]
        · rw [if_neg hA, if_neg (fun h => hA h.2)]
      · have hge : y.getD (idx - 1) 0 ≥ y.getD idx 0 := UInt8.not_lt.mp hlt
        simp only [hge, if_true]
        rw [if_neg (fun h => hlt (h.1 hf))]
        rfl
    · simp only [hintRowLoop, if_neg hf, hget, pure_bind, ok_bind]
      rw [ih]
      by_cases hA : ∀ t ∈ List.range' (idx + 1) n, first < t → y.getD (t - 1) 0 < y.getD t 0
      · rw [if_pos hA, if_pos ⟨fun h => absurd h hf, hA⟩]
      · rw [if_neg hA, if_neg (fun h => hA h.2)]

theorem foldl_set_positions (i : ℕ) :
    (List.range' (hintStart p y i) (hintStart p y (i + 1) - hintStart p y i)).foldl
      (fun r t => r.set (y.getD t 0).toNat 1) (List.replicate 256 0) = rowOf (hintRowPos p y i) := by
  rw [rowOf, hintRowPos, List.foldl_map]

theorem hintRows_eq (hy : p.omega + p.k ≤ y.length) : ∀ n i, i + n = p.k →
    hintRows p y (List.range' i n) (hintStart p y i) =
      if ∀ i' ∈ List.range' i n, HintRowOk p y i' then
        .ok (some (hintStart p y p.k, (List.range' i n).map fun i' => rowOf (hintRowPos p y i')))
      else .ok none
  | 0, i, hi => by
    subst hi
    simp [hintRows]
  | n + 1, i, hi => by
    have ih := hintRows_eq hy n (i + 1) (by omega)
    have hget : pyGet y (p.omega + i) = .ok (y.getD (p.omega + i) 0) := pyGet_eq_getD 0 (by omega)
    have hstop : (y.getD (p.omega + i) 0).toNat = hintStart p y (i + 1) := rfl
    simp only [List.range'_succ, List.forall_mem_cons, List.map_cons]
    simp only [hintRows, hget, ok_bind, hstop]
    by_cases hc : hintStart p y (i + 1) < hintStart p y i ∨ hintStart p y (i + 1) > p.omega
    · have hno : ¬ HintRowOk p y i := fun h => by unfold HintRowOk at h; omega
      simp only [hc, if_true, hno, false_and, if_false]
      rfl
    · simp only [hc, if_false, pure_bind]
      rw [hintRowLoop_eq y _ _ _ _ (by omega)]
      by_cases hrow : ∀ t ∈ List.range' (hintStart p y i) (hintStart p y (i + 1) - hintStart p y i),
          hintStart p y i < t → y.getD (t - 1) 0 < y.getD t 0
      · have hok : HintRowOk p y i := ⟨by omega, by omega, hrow⟩
        rw [if_pos hrow, foldl_set_positions]
        simp only [ok_bind]
        rw [ih]
        by_cases hrest : ∀ i' ∈ List.range' (i + 1) n, HintRowOk p y i'
        · rw [if_pos hrest, if_pos ⟨hok, hrest⟩]; rfl
        · rw [if_neg hrest, if_neg (fun h => hrest h.2)]; rfl
      · rw [if_neg hrow, if_neg (fun h => hrow h.1.2.2)]
        rfl

/-- `HintBitUnpack` on a byte string of the right length: the rows when every
check passes, `None` otherwise. It never raises. -/
theorem hintBitUnpack_eq (hy : y.length = p.omega + p.k) :
    hintBitUnpack p y =
      if HintCanonical p y then .ok (some ((List.range p.k).map fun i => rowOf (hintRowPos p y i)))
      else .ok none := by
  have hrows := hintRows_eq p y (by omega) p.k 0 (by omega)
  rw [← List.range_eq_range'] at hrows
  change hintRows p y (List.range p.k) 0 = _ at hrows
  have hall : (List.range' (hintStart p y p.k) (p.omega - hintStart p y p.k)).allM
      (fun i => do return (← pyGet y i) == 0) =
      .ok ((List.range' (hintStart p y p.k) (p.omega - hintStart p y p.k)).all
        fun t => y.getD t 0 == 0) := by
    apply allM_eq_ok
    intro t ht
    rw [List.mem_range'_1] at ht
    rw [pyGet_eq_getD 0 (by omega)]
    rfl
  rw [hintBitUnpack, hrows]
  by_cases hr : ∀ i' ∈ List.range p.k, HintRowOk p y i'
  · rw [if_pos hr, ok_bind]
    simp only
    rw [hall, ok_bind]
    by_cases hz : ∀ t ∈ List.range' (hintStart p y p.k) (p.omega - hintStart p y p.k),
        y.getD t 0 = 0
    · have hall' : ((List.range' (hintStart p y p.k) (p.omega - hintStart p y p.k)).all
          fun t => y.getD t 0 == 0) = true :=
        List.all_eq_true.mpr (fun t ht => by simpa using hz t ht)
      rw [if_pos hall', if_pos ⟨hr, hz⟩]
      rfl
    · have hall' : ¬ ((List.range' (hintStart p y p.k) (p.omega - hintStart p y p.k)).all
          fun t => y.getD t 0 == 0) = true :=
        fun h => hz (fun t ht => by simpa using List.all_eq_true.mp h t ht)
      rw [if_neg hall', if_neg (fun h => hz h.2)]
      rfl
  · rw [if_neg hr, if_neg (fun h => hr h.1)]
    rfl

theorem hintStart_le_omega {i : ℕ} (hi : i ≤ p.k) (hok : ∀ i ∈ List.range p.k, HintRowOk p y i) :
    hintStart p y i ≤ p.omega := by
  cases i with
  | zero => exact Nat.zero_le _
  | succ i => exact (hok i (List.mem_range.mpr (by omega))).2.1

theorem onesOf_rowOf_hintRowPos {i : ℕ} (hok : HintRowOk p y i) :
    onesOf (rowOf (hintRowPos p y i)) = hintRowPos p y i := by
  apply onesOf_rowOf
  · exact sorted_map_range' _ _ (fun t h1 h2 => hok.2.2 t (List.mem_range'_1.mpr ⟨by omega, by omega⟩) h1)
  · intro j hj
    obtain ⟨t, -, rfl⟩ := List.mem_map.mp hj
    exact UInt8.toNat_lt_size _

theorem hintIdx_hintRows (hok : ∀ i ∈ List.range p.k, HintRowOk p y i) :
    ∀ m, m ≤ p.k → hintIdx ((List.range p.k).map fun i => rowOf (hintRowPos p y i)) m =
      (List.range' 0 (hintStart p y m)).map fun t => (y.getD t 0).toNat
  | 0, _ => rfl
  | m + 1, hm => by
    have hokm := hok m (List.mem_range.mpr (by omega))
    have hrow : hintRowIdx ((List.range p.k).map fun i => rowOf (hintRowPos p y i)) m =
        hintRowPos p y m := by
      rw [hintRowIdx, List.getD_eq_getElem _ _ (by simp; omega), List.getElem_map,
        List.getElem_range, onesOf_rowOf_hintRowPos p y hokm]
    have e := List.range'_append_1 0 (hintStart p y m) (hintStart p y (m + 1) - hintStart p y m)
    rw [Nat.zero_add, Nat.sub_add_cancel hokm.1] at e
    rw [hintIdx_succ, hintIdx_hintRows hok m (by omega), hrow, hintRowPos, ← List.map_append, e]

theorem hintBitPack_hintBitUnpack (hy : y.length = p.omega + p.k) {h : List (List ℕ)}
    (hdec : hintBitUnpack p y = .ok (some h)) : hintBitPack p h = y := by
  rw [hintBitUnpack_eq p y hy] at hdec
  have hc : HintCanonical p y := by
    by_contra hc
    rw [if_neg hc] at hdec
    cases hdec
  rw [if_pos hc] at hdec
  cases hdec
  obtain ⟨hok, hpad⟩ := hc
  have hidx := hintIdx_hintRows p y hok p.k le_rfl
  have hsk := hintStart_le_omega p y (le_refl p.k) hok
  have hw : (hintIdx ((List.range p.k).map fun i => rowOf (hintRowPos p y i)) p.k).length ≤ p.omega := by
    rw [hidx, List.length_map, List.length_range']; exact hsk
  have hcounts : (hintCounts ((List.range p.k).map fun i => rowOf (hintRowPos p y i)) p.k).map
      UInt8.ofNat = (List.range' p.omega p.k).map fun t => y.getD t 0 := by
    rw [hintCounts, List.range'_eq_map_range, List.map_map, List.map_map]
    apply List.map_congr_left
    intro i hi
    rw [List.mem_range] at hi
    simp only [Function.comp_apply]
    rw [hintIdx_hintRows p y hok (i + 1) hi, List.length_map, List.length_range']
    exact ofNat_toNat _
  have hzero : List.replicate (p.omega - hintStart p y p.k) (0 : UInt8) =
      (List.range' (hintStart p y p.k) (p.omega - hintStart p y p.k)).map fun t => y.getD t 0 := by
    refine (List.eq_replicate_iff.mpr ⟨by simp, fun b hb => ?_⟩).symm
    obtain ⟨t, ht, rfl⟩ := List.mem_map.mp hb
    exact hpad t ht
  rw [hintBitPack_eq _ _ hw, hidx, hcounts, List.length_map, List.length_range', hzero, List.map_map]
  have e1 := List.range'_append_1 0 (hintStart p y p.k) (p.omega - hintStart p y p.k)
  have e2 := List.range'_append_1 0 p.omega p.k
  rw [Nat.zero_add, Nat.sub_add_cancel hsk] at e1
  rw [Nat.zero_add, Nat.add_comm] at e2
  conv_rhs => rw [← map_getD_range y 0, hy, List.range_eq_range', ← e2, ← e1]
  simp only [List.map_append, Function.comp_def, ofNat_toNat]
theorem hintBitUnpack_rows (hy : y.length = p.omega + p.k) {h : List (List ℕ)}
    (hdec : hintBitUnpack p y = .ok (some h)) :
    h.length = p.k ∧ (∀ row ∈ h, row.length = 256 ∧ ∀ x ∈ row, x ≤ 1) ∧ weight h ≤ p.omega := by
  rw [hintBitUnpack_eq p y hy] at hdec
  split_ifs at hdec with hc <;> cases hdec
  have hrow : ∀ row ∈ (List.range p.k).map (fun i => rowOf (hintRowPos p y i)),
      row.length = 256 ∧ ∀ x ∈ row, x ≤ 1 := by
    intro row hr
    obtain ⟨i, -, rfl⟩ := List.mem_map.mp hr
    refine ⟨length_rowOf _, fun x hx => ?_⟩
    obtain ⟨j, hj, rfl⟩ := List.getElem_of_mem hx
    rw [← List.getD_eq_getElem _ 0 hj, rowOf_getD _ (by rwa [length_rowOf] at hj)]
    split <;> omega
  refine ⟨by rw [List.length_map, List.length_range], hrow, ?_⟩
  rw [weight_eq_length_hintIdx _ fun r hr => (hrow r hr).1, List.length_map, List.length_range,
    hintIdx_hintRows p y hc.1 p.k le_rfl, List.length_map, List.length_range']
  exact hintStart_le_omega p y le_rfl hc.1

end Unpack

section RoundTrip
variable (p : Params) (h : List (List ℕ)) (hw : (hintIdx h p.k).length ≤ p.omega)
include hw

theorem getD_hintBitPack_pos {t : ℕ} (ht : t < (hintIdx h p.k).length) :
    (hintBitPack p h).getD t 0 = UInt8.ofNat ((hintIdx h p.k).getD t 0) := by
  rw [hintBitPack_eq p h hw, List.append_assoc, List.getD_append _ _ _ _ (by simpa using ht),
    List.getD_eq_getElem _ _ (by simpa using ht), List.getD_eq_getElem _ _ ht, List.getElem_map]

theorem getD_hintBitPack_pad {t : ℕ} (h1 : (hintIdx h p.k).length ≤ t) (h2 : t < p.omega) :
    (hintBitPack p h).getD t 0 = 0 := by
  rw [hintBitPack_eq p h hw, List.append_assoc, List.getD_append_right _ _ _ _ (by simpa using h1),
    List.getD_append _ _ _ _ (by simp; omega), List.getD_eq_getElem?_getD, List.getElem?_getD_replicate_default_eq]

theorem getD_hintBitPack_count {i : ℕ} (hi : i < p.k) :
    (hintBitPack p h).getD (p.omega + i) 0 = UInt8.ofNat (hintIdx h (i + 1)).length := by
  have e : p.omega + i - (List.map UInt8.ofNat (hintIdx h p.k) ++
      List.replicate (p.omega - (hintIdx h p.k).length) 0).length = i := by simp; omega
  rw [hintBitPack_eq p h hw, List.getD_append_right _ _ _ _ (by simp; omega), e]
  simp [hintCounts, hi]

theorem length_hintBitPack : (hintBitPack p h).length = p.omega + p.k := by
  rw [hintBitPack_eq p h hw]; simp [hintCounts]; omega

variable {p h}

theorem hintStart_hintBitPack (hω : p.omega < 256) {i : ℕ} (hi : i ≤ p.k) :
    hintStart p (hintBitPack p h) i = (hintIdx h i).length := by
  cases i with
  | zero => rfl
  | succ i =>
    have hlt : (hintIdx h (i + 1)).length < UInt8.size :=
      lt_of_le_of_lt ((length_hintIdx_mono h hi).trans hw) hω
    rw [hintStart, getD_hintBitPack_count p h hw (by omega), UInt8.toNat_ofNat_of_lt hlt]

theorem getD_hintBitPack_row {i j : ℕ} (hi : i < p.k) (hj : j < (hintRowIdx h i).length) :
    (hintBitPack p h).getD ((hintIdx h i).length + j) 0 = UInt8.ofNat ((hintRowIdx h i).getD j 0) := by
  obtain ⟨r, hr⟩ := hintIdx_prefix h (Nat.succ_le_of_lt hi)
  rw [hintIdx_succ] at hr
  have ht : (hintIdx h i).length + j < (hintIdx h p.k).length := by
    rw [hr]; simp only [List.length_append]; omega
  rw [getD_hintBitPack_pos p h hw ht, hr, List.append_assoc,
    List.getD_append_right _ _ _ _ (Nat.le_add_right _ _), Nat.add_sub_cancel_left,
    List.getD_append _ _ _ _ hj]

theorem toNat_getD_hintBitPack_row {i j : ℕ} (hi : i < p.k)
    (hj : j < (hintRowIdx h i).length) :
    ((hintBitPack p h).getD ((hintIdx h i).length + j) 0).toNat = (hintRowIdx h i).getD j 0 := by
  rw [getD_hintBitPack_row hw hi hj, UInt8.toNat_ofNat_of_lt]
  rw [List.getD_eq_getElem _ _ hj]
  exact lt_of_mem_onesOf (List.getElem_mem hj)

theorem hintRowPos_hintBitPack (hω : p.omega < 256) {i : ℕ} (hi : i < p.k) :
    hintRowPos p (hintBitPack p h) i = hintRowIdx h i := by
  rw [hintRowPos, hintStart_hintBitPack hw hω hi.le, hintStart_hintBitPack hw hω hi, hintIdx_succ,
    List.length_append, Nat.add_sub_cancel_left, List.range'_eq_map_range, List.map_map]
  conv_rhs => rw [← map_getD_range (hintRowIdx h i) 0]
  exact List.map_congr_left fun j hj => toNat_getD_hintBitPack_row hw hi (List.mem_range.mp hj)

theorem hintRowOk_hintBitPack (hω : p.omega < 256) {i : ℕ} (hi : i < p.k) :
    HintRowOk p (hintBitPack p h) i := by
  have hs := hintStart_hintBitPack hw hω hi.le
  have hs' : hintStart p (hintBitPack p h) (i + 1) =
      (hintIdx h i).length + (hintRowIdx h i).length := by
    rw [hintStart_hintBitPack hw hω hi, hintIdx_succ, List.length_append]
  have hle : (hintIdx h (i + 1)).length ≤ p.omega := (length_hintIdx_mono h hi).trans hw
  rw [hintIdx_succ, List.length_append] at hle
  refine ⟨by omega, by omega, ?_⟩
  intro t ht hlt
  rw [List.mem_range'_1, hs, hs'] at ht
  rw [hs] at hlt
  obtain ⟨a, rfl⟩ : ∃ a, t = (hintIdx h i).length + (a + 1) := ⟨t - (hintIdx h i).length - 1, by omega⟩
  show ((hintBitPack p h).getD (_ - 1) 0).toNat < ((hintBitPack p h).getD _ 0).toNat
  rw [show (hintIdx h i).length + (a + 1) - 1 = (hintIdx h i).length + a by omega,
    toNat_getD_hintBitPack_row hw hi (by omega), toNat_getD_hintBitPack_row hw hi (by omega),
    List.getD_eq_getElem _ _ (by omega), List.getD_eq_getElem _ _ (by omega)]
  exact List.pairwise_iff_getElem.mp (onesOf_sorted _) _ _ _ _ (Nat.lt_succ_self a)

theorem hintCanonical_hintBitPack (hω : p.omega < 256) : HintCanonical p (hintBitPack p h) := by
  refine ⟨fun i hi => hintRowOk_hintBitPack hw hω (List.mem_range.mp hi), fun t ht => ?_⟩
  rw [hintStart_hintBitPack hw hω le_rfl, List.mem_range'_1] at ht
  exact getD_hintBitPack_pad p h hw ht.1 (by omega)

end RoundTrip

theorem hintBitUnpack_hintBitPack (p : Params) (h : List (List ℕ)) (hω : p.omega < 256)
    (hk : h.length = p.k) (hrow : ∀ row ∈ h, row.length = 256 ∧ ∀ x ∈ row, x ≤ 1)
    (hwt : weight h ≤ p.omega) : hintBitUnpack p (hintBitPack p h) = .ok (some h) := by
  have hw := length_hintIdx_le hk (fun r hr => (hrow r hr).1) hwt
  rw [hintBitUnpack_eq p _ (length_hintBitPack p h hw), if_pos (hintCanonical_hintBitPack hw hω)]
  congr 2
  conv_rhs => rw [← map_getD_range h [], hk]
  refine List.map_congr_left fun i hi => ?_
  have hi : i < p.k := List.mem_range.mp hi
  have hmem : h.getD i [] ∈ h := by
    rw [List.getD_eq_getElem _ _ (by omega)]; exact List.getElem_mem _
  rw [hintRowPos_hintBitPack hw hω hi, hintRowIdx, rowOf_onesOf (hrow _ hmem).1 (hrow _ hmem).2]

end MlDsa
