import Mathlib.Data.Int.Defs
import Mathlib.Order.Basic
import Mathlib.Data.List.GetD
import Mathlib.Algebra.Group.Nat.Basic

/-!
# Parameter sets, Python faults and byte strings

The constants and the parameter table of `fips204.py`, the constructor of `ML_DSA`,
and Python's list indexing and slicing. Code that can raise returns `Except Fault`;
a `while` loop the code does not bound runs on fuel and raises `outOfFuel`.
-/

namespace MlDsa

set_option autoImplicit false

/-- `ML_DSA_Q`, the prime modulus. -/
def mlDsaQ : ℤ := 8380417

def mlDsaN : ℕ := 256

abbrev Bytes := List UInt8

/-- The exceptions a modelled function can end with. `outOfFuel` is not a
Python exception: it says that a `while` loop did not exit within the fuel. -/
inductive Fault where
  | indexError
  | valueError (msg : String)
  | outOfFuel
deriving DecidableEq, Repr

@[simp] theorem ok_bind {α β : Type} (a : α) (f : α → Except Fault β) :
    (Except.ok a >>= f) = f a := rfl

@[simp] theorem error_bind {α β : Type} (e : Fault) (f : α → Except Fault β) :
    (Except.error e >>= f) = Except.error e := rfl

theorem bind_eq_ok {α β : Type} {x : Except Fault α} {f : α → Except Fault β} {b : β}
    (h : x >>= f = .ok b) : ∃ a, x = .ok a ∧ f a = .ok b := by
  cases x with
  | error e => cases h
  | ok a => exact ⟨a, rfl, h⟩

/-- Python `l[i]` for `0 ≤ i`: `IndexError` past the end. -/
def pyGet {α : Type} (l : List α) (i : ℕ) : Except Fault α :=
  match l[i]? with
  | some a => .ok a
  | none => .error .indexError

/-- Python `l[i:j]` for `0 ≤ i ≤ j`; slicing never raises. -/
def slice {α : Type} (l : List α) (i j : ℕ) : List α := (l.take j).drop i

theorem pyGet_eq_ok {α : Type} {l : List α} {i : ℕ} (h : i < l.length) :
    pyGet l i = .ok l[i] := by
  simp [pyGet, h]

theorem pyGet_eq_getD {α : Type} {l : List α} {i : ℕ} (d : α) (h : i < l.length) :
    pyGet l i = .ok (l.getD i d) := by
  simp [pyGet, h, List.getD_eq_getElem?_getD]

@[simp] theorem pyGet_cons_zero {α : Type} (a : α) (l : List α) : pyGet (a :: l) 0 = .ok a := by
  simp [pyGet]

@[simp] theorem pyGet_cons_succ {α : Type} (a : α) (l : List α) (i : ℕ) :
    pyGet (a :: l) (i + 1) = pyGet l i := by
  simp [pyGet]

@[simp] theorem pyGet_nil {α : Type} (i : ℕ) : pyGet ([] : List α) i = .error .indexError := by
  simp [pyGet]

@[simp] theorem length_slice {α : Type} (l : List α) (i j : ℕ) :
    (slice l i j).length = min j l.length - i := by
  simp [slice]

theorem slice_append_left {α : Type} (l r : List α) {i j : ℕ} (hj : j ≤ l.length) :
    slice (l ++ r) i j = slice l i j := by
  simp [slice, List.take_append_eq_append_take, Nat.sub_eq_zero_of_le hj]

theorem slice_append_right {α : Type} (l r : List α) (i j : ℕ) :
    slice (l ++ r) (l.length + i) (l.length + j) = slice r i j := by
  simp [slice, List.take_append_eq_append_take, List.drop_append_eq_append_drop]

theorem slice_append_slice {α : Type} (l : List α) {i j k : ℕ} (hij : i ≤ j) (hjk : j ≤ k) :
    slice l i j ++ slice l j k = slice l i k := by
  have hm : l.take j = (l.take k).take j := by rw [List.take_take, Nat.min_eq_left hjk]
  rw [slice, slice, slice, hm]
  by_cases hj : j ≤ (l.take k).length
  · rw [← List.drop_append_of_le_length (by rw [List.length_take]; omega), List.take_append_drop]
  · have h1 : (l.take k).take j = l.take k := List.take_of_length_le (by omega)
    have h2 : (l.take k).drop j = [] := List.drop_of_length_le (by omega)
    rw [h1, h2, List.append_nil]

theorem getD_slice {α : Type} {l : List α} {i j k : ℕ} (d : α) (h : i + k < j) :
    (slice l i j).getD k d = l.getD (i + k) d := by
  simp only [slice, List.getD_eq_getElem?_getD, List.getElem?_drop, List.getElem?_take_of_lt h]

theorem getD_set_self_or {α : Type} {w : List α} {i : ℕ} {d : α} (v : α) (hi : i < w.length)
    (k : ℕ) : (w.set i v).getD k d = if k = i then v else w.getD k d := by
  by_cases hk : k = i
  · subst hk; simp [List.getD_eq_getElem?_getD, List.getElem?_set, hi]
  · simp [List.getD_eq_getElem?_getD, List.getElem?_set, hk, Ne.symm hk]

theorem foldlM_congr {m : Type → Type} [Monad m] {α β : Type} {f g : β → α → m β}
    (l : List α) (h : ∀ a ∈ l, ∀ b, f b a = g b a) (b : β) :
    l.foldlM f b = l.foldlM g b := by
  induction l generalizing b with
  | nil => rfl
  | cons a l ih =>
    simp only [List.foldlM_cons, h a (List.mem_cons_self a l)]
    congr 1
    funext b'
    exact ih (fun a' ha' => h a' (List.mem_cons_of_mem a ha')) b'

theorem foldlM_ok_of_forall {α β : Type} {f : β → α → Except Fault β} :
    ∀ (l : List α), (∀ b, ∀ a ∈ l, ∃ b', f b a = .ok b') → ∀ b, ∃ r, l.foldlM f b = .ok r
  | [], _, b => ⟨b, rfl⟩
  | a :: l, h, b => by
    obtain ⟨b', hb'⟩ := h b a (List.mem_cons_self a l)
    rw [List.foldlM_cons, hb', ok_bind]
    exact foldlM_ok_of_forall l (fun b a ha => h b a (List.mem_cons_of_mem _ ha)) b'

theorem mapM_eq_ok {α β : Type} {f : α → Except Fault β} {g : α → β} :
    ∀ l : List α, (∀ a ∈ l, f a = .ok (g a)) → l.mapM f = .ok (l.map g)
  | [], _ => rfl
  | a :: l, h => by
    rw [List.mapM_cons, h a (List.mem_cons_self a l),
      mapM_eq_ok l (fun b hb => h b (List.mem_cons_of_mem a hb))]
    rfl

theorem mapM_congr_of_mem {α β : Type} {f g : α → Except Fault β} :
    ∀ l : List α, (∀ a ∈ l, f a = g a) → l.mapM f = l.mapM g
  | [], _ => rfl
  | a :: l, h => by
    rw [List.mapM_cons, List.mapM_cons, h a (List.mem_cons_self a l),
      mapM_congr_of_mem l (fun b hb => h b (List.mem_cons_of_mem a hb))]

theorem mapM_eq_error {α β : Type} {f : α → Except Fault β} {e : Fault} :
    ∀ l : List α, (∃ a ∈ l, f a = .error e) → (∀ a ∈ l, ∀ e', f a = .error e' → e' = e) →
      l.mapM f = .error e
  | [], ⟨_, ha, _⟩, _ => absurd ha (List.not_mem_nil _)
  | a :: l, ⟨b, hb, hfb⟩, h => by
    rw [List.mapM_cons]
    cases hfa : f a with
    | error e' => rw [h a (List.mem_cons_self a l) e' hfa]; rfl
    | ok v =>
      have hb' : b ∈ l := by
        rcases List.mem_cons.mp hb with rfl | hb
        · rw [hfa] at hfb; cases hfb
        · exact hb
      rw [mapM_eq_error l ⟨b, hb', hfb⟩ (fun c hc => h c (List.mem_cons_of_mem a hc))]
      rfl

theorem mapM_ok_forall {α β : Type} {f : α → Except Fault β} {P : β → Prop} :
    ∀ {l : List α} {r : List β}, l.mapM f = .ok r → (∀ a ∈ l, ∀ b, f a = .ok b → P b) →
      r.length = l.length ∧ ∀ b ∈ r, P b
  | [], r, h, _ => by cases h; exact ⟨rfl, fun _ hb => absurd hb (List.not_mem_nil _)⟩
  | a :: l, r, h, hP => by
    rw [List.mapM_cons] at h
    cases hfa : f a with
    | error e => rw [hfa] at h; cases h
    | ok b =>
      rw [hfa] at h
      cases hl : l.mapM f with
      | error e => rw [hl] at h; cases h
      | ok r' =>
        rw [hl] at h
        cases h
        obtain ⟨h1, h2⟩ := mapM_ok_forall hl fun a' ha' => hP a' (List.mem_cons_of_mem a ha')
        refine ⟨by simp [h1], fun b' hb' => ?_⟩
        rcases List.mem_cons.mp hb' with rfl | hb'
        · exact hP a (List.mem_cons_self a l) _ hfa
        · exact h2 b' hb'

theorem allM_eq_ok {α : Type} {f : α → Except Fault Bool} {g : α → Bool} :
    ∀ l : List α, (∀ a ∈ l, f a = .ok (g a)) → l.allM f = .ok (l.all g)
  | [], _ => rfl
  | a :: l, h => by
    simp only [List.allM, h a (List.mem_cons_self a l), List.all_cons]
    cases g a
    · rfl
    · exact allM_eq_ok l (fun b hb => h b (List.mem_cons_of_mem a hb))

theorem slice_eq_self {α : Type} (l : List α) : slice l 0 l.length = l := by
  simp [slice]

theorem slice_prefix {α : Type} (A C : List α) : slice (A ++ C) 0 A.length = A := by
  rw [slice_append_left _ _ le_rfl, slice_eq_self]

theorem slice_middle {α : Type} (A B C : List α) :
    slice (A ++ B ++ C) A.length (A.length + B.length) = B := by
  have e := slice_append_right A (B ++ C) 0 B.length
  rw [Nat.add_zero] at e
  rw [List.append_assoc, e, slice_prefix]

theorem forall_mem_replicate_rows {α : Type} {P : α → Prop} {v : α} (hv : P v) (n : ℕ) :
    ∀ r ∈ List.replicate n (List.replicate 256 v), r.length = 256 ∧ ∀ x ∈ r, P x := by
  intro r hr
  rw [List.eq_of_mem_replicate hr]
  exact ⟨List.length_replicate _ _, fun x hx => by rw [List.eq_of_mem_replicate hx]; exact hv⟩

theorem getD_map_of_lt {α β : Type} (f : α → β) {l : List α} {j : ℕ} (hj : j < l.length)
    (d' : α) {d : β} : (l.map f).getD j d = f (l.getD j d') := by
  rw [List.getD_eq_getElem _ _ (by simpa using hj), List.getElem_map, List.getD_eq_getElem _ _ hj]

theorem getD_map_range {β : Type} (f : ℕ → β) {n i : ℕ} (hi : i < n) (d : β) :
    ((List.range n).map f).getD i d = f i := by
  rw [List.getD_eq_getElem _ _ (by simpa using hi), List.getElem_map, List.getElem_range]

theorem eq_of_getD {α : Type} {l l' : List α} (d : α) (hl : l.length = l'.length)
    (h : ∀ i < l.length, l.getD i d = l'.getD i d) : l = l' :=
  List.ext_getElem hl fun i h1 h2 => by
    rw [← List.getD_eq_getElem _ d h1, ← List.getD_eq_getElem _ d h2, h i h1]

theorem getD_mem {α : Type} {l : List α} {j : ℕ} {d : α} (hj : j < l.length) : l.getD j d ∈ l := by
  rw [List.getD_eq_getElem _ _ hj]; exact List.getElem_mem hj

theorem lt_length_of_getD_ne_nil {α : Type} {l : List (List α)} {j : ℕ} (h : l.getD j [] ≠ []) :
    j < l.length := by
  by_contra hj
  exact h (List.getD_eq_default _ _ (by omega))

theorem getD_le_of_forall {α : Type} {P : α → Prop} {l : List α} {j : ℕ} {d : α}
    (h : ∀ a ∈ l, P a) (hd : P d) : P (l.getD j d) := by
  by_cases hj : j < l.length
  · exact h _ (getD_mem hj)
  · rw [List.getD_eq_default _ _ (by omega)]; exact hd

theorem getD_replicate_of_lt {α : Type} {n t : ℕ} (a d : α) (ht : t < n) :
    (List.replicate n a).getD t d = a := by
  rw [List.getD_eq_getElem _ _ (by simpa using ht), List.getElem_replicate]

structure Params where
  d : ℕ
  tau : ℕ
  lam : ℕ
  gam1 : ℕ
  gam2 : ℕ
  k : ℕ
  ell : ℕ
  eta : ℕ
  beta : ℕ
  omega : ℕ
deriving DecidableEq, Repr

/-- The keys of `ML_DSA_PARAM`. -/
inductive ParamSet where
  | mlDsa44
  | mlDsa65
  | mlDsa87
deriving DecidableEq, Repr

def ParamSet.name : ParamSet → String
  | .mlDsa44 => "ml-dsa-44"
  | .mlDsa65 => "ml-dsa-65"
  | .mlDsa87 => "ml-dsa-87"

/-- `ML_DSA_PARAM`, FIPS 204 Table 1. -/
def mlDsaParam : ParamSet → Params
  | .mlDsa44 => ⟨13, 39, 128, 2 ^ 17, (8380417 - 1) / 88, 4, 4, 2, 78, 80⟩
  | .mlDsa65 => ⟨13, 49, 192, 2 ^ 19, (8380417 - 1) / 32, 6, 5, 4, 196, 55⟩
  | .mlDsa87 => ⟨13, 60, 256, 2 ^ 19, (8380417 - 1) / 32, 8, 7, 2, 120, 75⟩

/-- `ML_DSA.__init__(param)`: the row of `param.lower()`, or `ValueError`. -/
def mlDsaInit (param : String) : Except Fault Params :=
  let param := param.toLower
  match [ParamSet.mlDsa44, .mlDsa65, .mlDsa87].find? (·.name == param) with
  | some ps => .ok (mlDsaParam ps)
  | none => .error (.valueError ("The parameter set is not supported.: " ++ param ++
      ".Supported parameter sets are: dict_keys([\x27ml-dsa-44\x27, \x27ml-dsa-65\x27, \x27ml-dsa-87\x27])"))

end MlDsa
