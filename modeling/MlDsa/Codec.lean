import MlDsa.Hint

/-!
# Key and signature encodings

Algorithms 22–28 of FIPS 204. A decoder cuts its input at fixed offsets or with a
running offset; slicing never raises, so a short input fails only in an unpacker.
-/

namespace MlDsa

set_option autoImplicit false

def t1Width (p : Params) : ℕ := bitLength (mlDsaQ - 1).toNat - p.d

/-- Algorithm 22, `pkEncode(rho, t1)`: `rho`, then `SimpleBitPack(t1[i], 2^bitlen_b - 1)`. -/
def pkEncode (p : Params) (rho : Bytes) (t1 : List (List ℤ)) : Bytes :=
  rho ++ t1.flatMap fun t1i => simpleBitPack t1i (2 ^ t1Width p - 1)

/-- Algorithm 23, `pkDecode(pk)`. -/
def pkDecode (p : Params) (pk : Bytes) : Except Fault (Bytes × List (List ℤ)) := do
  let rho := slice pk 0 32
  let bitlenB := t1Width p
  let t1 ← (List.range p.k).mapM fun i =>
    simpleBitUnpack (slice pk (32 + 32 * bitlenB * i) (32 + 32 * bitlenB * (i + 1))) (2 ^ bitlenB - 1)
  pure (rho, t1)

/-- Algorithm 24, `skEncode(rho, K, tr, s1, s2, t0)`. -/
def skEncode (p : Params) (rho kk tr : Bytes) (s1 s2 t0 : List (List ℤ)) : Bytes :=
  rho ++ kk ++ tr ++ s1.flatMap (fun s1i => bitPack s1i p.eta p.eta) ++
    s2.flatMap (fun s2i => bitPack s2i p.eta p.eta) ++
    t0.flatMap fun t0i => bitPack t0i (2 ^ (p.d - 1) - 1) (2 ^ (p.d - 1))

/-- The loop `yi = sk[pt : pt + len]; pt += len; s += [unpack(yi)]`, run `n` times
from `pt`; it returns the rows and the final `pt`. -/
def unpackFrom (sk : Bytes) (len : ℕ) (unpack : Bytes → Except Fault (List ℤ)) :
    ℕ → ℕ → Except Fault (List (List ℤ) × ℕ)
  | 0, pt => .ok ([], pt)
  | n + 1, pt => do
    let x ← unpack (slice sk pt (pt + len))
    let (xs, pt') ← unpackFrom sk len unpack n (pt + len)
    pure (x :: xs, pt')

/-- Algorithm 25, `skDecode(sk)`. -/
def skDecode (p : Params) (sk : Bytes) :
    Except Fault (Bytes × Bytes × Bytes × List (List ℤ) × List (List ℤ) × List (List ℤ)) := do
  let rho := slice sk 0 32
  let kk := slice sk 32 64
  let tr := slice sk 64 128
  let le := 32 * bitLength (2 * p.eta)
  let (s1, pt) ← unpackFrom sk le (fun yi => bitUnpack yi p.eta p.eta) p.ell 128
  let (s2, pt) ← unpackFrom sk le (fun zi => bitUnpack zi p.eta p.eta) p.k pt
  let ld := 32 * p.d
  let (t0, _) ← unpackFrom sk ld (fun wi => bitUnpack wi (2 ^ (p.d - 1) - 1) (2 ^ (p.d - 1))) p.k pt
  pure (rho, kk, tr, s1, s2, t0)

/-- Algorithm 26, `sigEncode(c~, z, h)`: `for i in range(ell)`, `BitPack(z[i], gam1 - 1, gam1)`.
Every caller passes `ell` rows, so `z[i]` never raises. -/
def sigEncode (p : Params) (ct : Bytes) (z : List (List ℤ)) (h : List (List ℕ)) : Bytes :=
  ct ++ (List.range p.ell).flatMap (fun i => bitPack (z.getD i []) (p.gam1 - 1) p.gam1) ++
    hintBitPack p h

/-- Algorithm 27, `sigDecode(sig)`: the hint is `None` when `hint_bit_unpack` rejects. -/
def sigDecode (p : Params) (sig : Bytes) :
    Except Fault (Bytes × List (List ℤ) × Option (List (List ℕ))) := do
  let bl := 32 * (1 + bitLength (p.gam1 - 1))
  let cl := p.lam / 4
  let ct := slice sig 0 cl
  let z ← (List.range p.ell).mapM fun i =>
    bitUnpack (slice sig (cl + bl * i) (cl + bl * (i + 1))) (p.gam1 - 1) p.gam1
  let y := slice sig (cl + bl * p.ell) (cl + bl * p.ell + p.omega + p.k)
  let h ← hintBitUnpack p y
  pure (ct, z, h)

/-- Algorithm 28, `w1Encode(w1)`: `SimpleBitPack(w1[i], (q - 1) / (2 gam2) - 1)`. -/
def w1Encode (p : Params) (w1 : List (List ℤ)) : Bytes :=
  w1.flatMap fun w1i => simpleBitPack w1i ((mlDsaQ - 1).toNat / (2 * p.gam2) - 1)

theorem w1Encode_inj (p : Params) (hb : 0 < (mlDsaQ - 1).toNat / (2 * p.gam2) - 1) {a a' : List (List ℤ)}
    (ha : ∀ row ∈ a, row.length = 256 ∧ ∀ x ∈ row, 0 ≤ x ∧ x ≤ ((mlDsaQ - 1).toNat / (2 * p.gam2) - 1 : ℕ))
    (ha' : ∀ row ∈ a', row.length = 256 ∧ ∀ x ∈ row, 0 ≤ x ∧ x ≤ ((mlDsaQ - 1).toNat / (2 * p.gam2) - 1 : ℕ))
    (h : w1Encode p a = w1Encode p a') : a = a' := by
  have hL : 0 < 32 * bitLength ((mlDsaQ - 1).toNat / (2 * p.gam2) - 1) := by
    have := lt_two_pow_bitLength ((mlDsaQ - 1).toNat / (2 * p.gam2) - 1)
    by_contra h0
    rw [show bitLength ((mlDsaQ - 1).toNat / (2 * p.gam2) - 1) = 0 by omega] at this
    omega
  exact flatMap_inj_of_length hL (fun w _ => length_simpleBitPack w _) (fun _ _ => simpleBitPack_inj) a a' ha ha' h

section Rows

variable (enc : List ℤ → Bytes) (dec : Bytes → Except Fault (List ℤ)) (L : ℕ)

theorem mapM_range'_slice (s : Bytes) (base : ℕ) : ∀ n i,
    (List.range' i n).mapM (fun j => dec (slice s (base + L * j) (base + L * (j + 1)))) =
      Prod.fst <$> unpackFrom s L dec n (base + L * i)
  | 0, _ => rfl
  | n + 1, i => by
    rw [List.range'_succ, List.mapM_cons, unpackFrom, mapM_range'_slice s base n (i + 1),
      show base + L * (i + 1) = base + L * i + L by rw [Nat.mul_succ, Nat.add_assoc]]
    cases dec (slice s (base + L * i) (base + L * i + L)) with
    | error e => rfl
    | ok x => cases unpackFrom s L dec n (base + L * i + L) <;> rfl

theorem unpackFrom_flatMap (suf : Bytes) : ∀ (rows : List (List ℤ)) (pre : Bytes),
    (∀ x ∈ rows, (enc x).length = L) → (∀ x ∈ rows, dec (enc x) = .ok x) →
      unpackFrom (pre ++ rows.flatMap enc ++ suf) L dec rows.length pre.length =
        .ok (rows, pre.length + L * rows.length)
  | [], pre, _, _ => by simp [unpackFrom]
  | x :: rows, pre, hlen, hdec => by
    have hx := hlen x (List.mem_cons_self x rows)
    have ih := unpackFrom_flatMap suf rows (pre ++ enc x)
      (fun y hy => hlen y (List.mem_cons_of_mem x hy)) (fun y hy => hdec y (List.mem_cons_of_mem x hy))
    have hs : slice (pre ++ (x :: rows).flatMap enc ++ suf) pre.length (pre.length + L) = enc x := by
      rw [List.flatMap_cons, ← List.append_assoc, List.append_assoc (pre ++ enc x), ← hx, slice_middle]
    rw [List.length_cons, unpackFrom, hs, hdec x (List.mem_cons_self x rows), ok_bind,
      show pre.length + L = (pre ++ enc x).length by rw [List.length_append, hx],
      show pre ++ (x :: rows).flatMap enc ++ suf = pre ++ enc x ++ rows.flatMap enc ++ suf by simp, ih]
    simp only [List.length_append, hx, Nat.mul_succ]
    rw [Nat.add_assoc, Nat.add_comm L]
    rfl

theorem unpackFrom_eq_ok {s pre suf : Bytes} {rows : List (List ℤ)} {n pt : ℕ}
    (hs : s = pre ++ rows.flatMap enc ++ suf) (hpt : pt = pre.length) (hn : n = rows.length)
    (hlen : ∀ x ∈ rows, (enc x).length = L) (hdec : ∀ x ∈ rows, dec (enc x) = .ok x) :
    unpackFrom s L dec n pt = .ok (rows, pt + L * n) := by
  subst hs hpt hn
  exact unpackFrom_flatMap enc dec L suf rows pre hlen hdec

theorem mapM_range_slice (s : Bytes) (base n : ℕ) :
    (List.range n).mapM (fun j => dec (slice s (base + L * j) (base + L * (j + 1)))) =
      Prod.fst <$> unpackFrom s L dec n base := by
  rw [List.range_eq_range', mapM_range'_slice, Nat.mul_zero, Nat.add_zero]

/-- On an input long enough, a decoder that inverts `enc` on every slice of length `L`
decodes every row, and the rows encode back to the bytes read. -/
theorem unpackFrom_exists (s : Bytes)
    (hdec : ∀ v : Bytes, v.length = L → ∃ w, dec v = .ok w ∧ enc w = v) : ∀ n pt,
    pt + L * n ≤ s.length → ∃ ws, unpackFrom s L dec n pt = .ok (ws, pt + L * n) ∧
      ws.length = n ∧ ws.flatMap enc = slice s pt (pt + L * n)
  | 0, pt, _ => ⟨[], rfl, rfl, by simp [slice]⟩
  | n + 1, pt, hs => by
    obtain ⟨w, hw, hwe⟩ := hdec (slice s pt (pt + L)) (by rw [length_slice]; rw [Nat.mul_succ] at hs; omega)
    obtain ⟨ws, hws, hlen, hwse⟩ := unpackFrom_exists s hdec n (pt + L) (by rw [Nat.mul_succ] at hs; omega)
    refine ⟨w :: ws, ?_, by rw [List.length_cons, hlen], ?_⟩
    · rw [unpackFrom, hw, ok_bind, hws, ok_bind, Nat.mul_succ, Nat.add_comm (L * n) L, Nat.add_assoc]
      rfl
    · rw [List.flatMap_cons, hwe, hwse, Nat.mul_succ, Nat.add_comm (L * n) L, ← Nat.add_assoc,
        slice_append_slice]
      all_goals omega

end Rows

section PublicKey

variable (p : Params) (hb : bitLength (2 ^ t1Width p - 1) = t1Width p)
include hb

theorem length_pkEncode (rho : Bytes) (t1 : List (List ℤ)) :
    (pkEncode p rho t1).length = rho.length + 32 * t1Width p * t1.length := by
  rw [pkEncode, List.length_append,
    length_flatMap_of_length _ (32 * t1Width p) _ (fun _ _ => by rw [length_simpleBitPack, hb])]
  rw [Nat.mul_comm t1.length]

theorem pkDecode_pkEncode (rho : Bytes) (t1 : List (List ℤ)) (hrho : rho.length = 32)
    (ht1 : t1.length = p.k) (hr : ∀ r ∈ t1, r.length = 256 ∧ ∀ x ∈ r, 0 ≤ x ∧ x ≤ 2 ^ t1Width p - 1) :
    pkDecode p (pkEncode p rho t1) = .ok (rho, t1) := by
  have hrho' : slice (pkEncode p rho t1) 0 32 = rho := by
    rw [pkEncode, ← hrho, slice_prefix]
  have hrows : unpackFrom (pkEncode p rho t1) (32 * t1Width p)
      (fun v => simpleBitUnpack v (2 ^ t1Width p - 1)) p.k 32 =
      .ok (t1, 32 + 32 * t1Width p * p.k) :=
    unpackFrom_eq_ok (fun r => simpleBitPack r (2 ^ t1Width p - 1)) _ _
      (by rw [pkEncode, List.append_nil]) hrho.symm ht1.symm
      (fun _ _ => by rw [length_simpleBitPack, hb])
      (fun r hr' => simpleBitUnpack_simpleBitPack r _ (hr r hr').1 (fun x hx => by
        have := (hr r hr').2 x hx; push_cast [Nat.one_le_two_pow] at this ⊢; omega))
  rw [pkDecode, mapM_range_slice (fun v => simpleBitUnpack v (2 ^ t1Width p - 1)), hrows, hrho']
  rfl

theorem pkEncode_pkDecode (b : Bytes) (hlen : b.length = 32 + 32 * t1Width p * p.k) :
    ∃ rho t1, pkDecode p b = .ok (rho, t1) ∧ pkEncode p rho t1 = b := by
  obtain ⟨ws, hws, -, hwse⟩ := unpackFrom_exists (fun r => simpleBitPack r (2 ^ t1Width p - 1))
    (fun v => simpleBitUnpack v (2 ^ t1Width p - 1)) (32 * t1Width p) b
    (fun v hv => simpleBitPack_simpleBitUnpack v _ (by rw [hv, hb])) p.k 32 (by omega)
  refine ⟨slice b 0 32, ws, ?_, ?_⟩
  · rw [pkDecode, mapM_range_slice (fun v => simpleBitUnpack v (2 ^ t1Width p - 1)), hws]
    rfl
  · rw [pkEncode, hwse, slice_append_slice _ (Nat.zero_le _) (by omega), ← hlen, slice_eq_self]

end PublicKey

section SecretKey

variable (p : Params)

theorem length_bitPack_eta {w : List ℤ} (hw : w.length = 256) :
    (bitPack w p.eta p.eta).length = 32 * bitLength (2 * p.eta) := by
  rw [length_bitPack, hw, two_mul]; omega

theorem bitUnpack_eta (v : Bytes) (hv : v.length = 32 * bitLength (2 * p.eta)) :
    ∃ w, bitUnpack v p.eta p.eta = .ok w ∧ bitPack w p.eta p.eta = v :=
  bitPack_bitUnpack v _ _ (by rw [hv, two_mul])

variable (hd : bitLength (2 ^ (p.d - 1) - 1 + 2 ^ (p.d - 1)) = p.d)
include hd

theorem length_bitPack_t0 {w : List ℤ} (hw : w.length = 256) :
    (bitPack w (2 ^ (p.d - 1) - 1) (2 ^ (p.d - 1))).length = 32 * p.d := by
  rw [length_bitPack, hw, hd]; omega

theorem length_skEncode (rho kk tr : Bytes) (s1 s2 t0 : List (List ℤ))
    (hs1 : ∀ r ∈ s1, r.length = 256) (hs2 : ∀ r ∈ s2, r.length = 256) (ht0 : ∀ r ∈ t0, r.length = 256) :
    (skEncode p rho kk tr s1 s2 t0).length = rho.length + kk.length + tr.length +
      32 * ((s1.length + s2.length) * bitLength (2 * p.eta) + t0.length * p.d) := by
  simp only [skEncode, List.length_append,
    length_flatMap_of_length _ _ s1 (fun r hr => length_bitPack_eta p (hs1 r hr)),
    length_flatMap_of_length _ _ s2 (fun r hr => length_bitPack_eta p (hs2 r hr)),
    length_flatMap_of_length _ _ t0 (fun r hr => length_bitPack_t0 p hd (ht0 r hr))]
  rw [Nat.mul_add, Nat.add_mul, Nat.mul_add, Nat.mul_left_comm s1.length, Nat.mul_left_comm s2.length,
    Nat.mul_left_comm t0.length]
  omega

theorem skDecode_skEncode (rho kk tr : Bytes) (s1 s2 t0 : List (List ℤ))
    (hrho : rho.length = 32) (hkk : kk.length = 32) (htr : tr.length = 64)
    (hs1 : s1.length = p.ell) (hs2 : s2.length = p.k) (ht0 : t0.length = p.k)
    (hr1 : ∀ r ∈ s1, r.length = 256 ∧ ∀ x ∈ r, -(p.eta : ℤ) ≤ x ∧ x ≤ p.eta)
    (hr2 : ∀ r ∈ s2, r.length = 256 ∧ ∀ x ∈ r, -(p.eta : ℤ) ≤ x ∧ x ≤ p.eta)
    (hr0 : ∀ r ∈ t0, r.length = 256 ∧ ∀ x ∈ r, -(2 : ℤ) ^ (p.d - 1) + 1 ≤ x ∧ x ≤ 2 ^ (p.d - 1)) :
    skDecode p (skEncode p rho kk tr s1 s2 t0) = .ok (rho, kk, tr, s1, s2, t0) := by
  set S1 := s1.flatMap fun s1i => bitPack s1i p.eta p.eta
  set S2 := s2.flatMap fun s2i => bitPack s2i p.eta p.eta
  set T0 := t0.flatMap fun t0i => bitPack t0i (2 ^ (p.d - 1) - 1) (2 ^ (p.d - 1))
  have hS1 : S1.length = 32 * bitLength (2 * p.eta) * p.ell := by
    rw [length_flatMap_of_length _ _ s1 (fun r hr => length_bitPack_eta p (hr1 r hr).1), hs1,
      Nat.mul_comm]
  have hS2 : S2.length = 32 * bitLength (2 * p.eta) * p.k := by
    rw [length_flatMap_of_length _ _ s2 (fun r hr => length_bitPack_eta p (hr2 r hr).1), hs2,
      Nat.mul_comm]
  have e1 : unpackFrom (skEncode p rho kk tr s1 s2 t0) (32 * bitLength (2 * p.eta))
      (fun yi => bitUnpack yi p.eta p.eta) p.ell 128 =
      .ok (s1, 128 + 32 * bitLength (2 * p.eta) * p.ell) :=
    unpackFrom_eq_ok _ _ _ (show _ = rho ++ kk ++ tr ++ S1 ++ (S2 ++ T0) by simp [skEncode, S1, S2, T0])
      (by simp [hrho, hkk, htr]) hs1.symm (fun r hr => length_bitPack_eta p (hr1 r hr).1)
      (fun r hr => bitUnpack_bitPack r _ _ (hr1 r hr).1 (hr1 r hr).2)
  have e2 : unpackFrom (skEncode p rho kk tr s1 s2 t0) (32 * bitLength (2 * p.eta))
      (fun zi => bitUnpack zi p.eta p.eta) p.k (128 + 32 * bitLength (2 * p.eta) * p.ell) =
      .ok (s2, 128 + 32 * bitLength (2 * p.eta) * p.ell + 32 * bitLength (2 * p.eta) * p.k) :=
    unpackFrom_eq_ok _ _ _ (show _ = rho ++ kk ++ tr ++ S1 ++ S2 ++ T0 by simp [skEncode, S1, S2, T0])
      (by simp [hrho, hkk, htr, hS1]; omega) hs2.symm (fun r hr => length_bitPack_eta p (hr2 r hr).1)
      (fun r hr => bitUnpack_bitPack r _ _ (hr2 r hr).1 (hr2 r hr).2)
  have e3 : unpackFrom (skEncode p rho kk tr s1 s2 t0) (32 * p.d)
      (fun wi => bitUnpack wi (2 ^ (p.d - 1) - 1) (2 ^ (p.d - 1))) p.k
      (128 + 32 * bitLength (2 * p.eta) * p.ell + 32 * bitLength (2 * p.eta) * p.k) =
      .ok (t0, 128 + 32 * bitLength (2 * p.eta) * p.ell + 32 * bitLength (2 * p.eta) * p.k +
        32 * p.d * p.k) :=
    unpackFrom_eq_ok _ _ _ (show _ = rho ++ kk ++ tr ++ S1 ++ S2 ++ T0 ++ [] by simp [skEncode, S1, S2, T0])
      (by simp [hrho, hkk, htr, hS1, hS2]; omega) ht0.symm
      (fun r hr => length_bitPack_t0 p hd (hr0 r hr).1)
      (fun r hr => bitUnpack_bitPack r _ _ (hr0 r hr).1 (fun x hx => by
        have := (hr0 r hr).2 x hx; push_cast [Nat.one_le_two_pow]; omega))
  have hsl : slice (skEncode p rho kk tr s1 s2 t0) 0 32 = rho ∧
      slice (skEncode p rho kk tr s1 s2 t0) 32 64 = kk ∧
      slice (skEncode p rho kk tr s1 s2 t0) 64 128 = tr := by
    have eA : skEncode p rho kk tr s1 s2 t0 = rho ++ (kk ++ tr ++ S1 ++ S2 ++ T0) := by
      simp [skEncode, S1, S2, T0]
    have eB : skEncode p rho kk tr s1 s2 t0 = rho ++ kk ++ (tr ++ S1 ++ S2 ++ T0) := by
      simp [skEncode, S1, S2, T0]
    have eC : skEncode p rho kk tr s1 s2 t0 = rho ++ kk ++ tr ++ (S1 ++ S2 ++ T0) := by
      simp [skEncode, S1, S2, T0]
    refine ⟨?_, ?_, ?_⟩
    · rw [eA, ← hrho, slice_prefix]
    · rw [eB, show (32 : ℕ) = rho.length by rw [hrho], show (64 : ℕ) = rho.length + kk.length by
        rw [hrho, hkk], slice_middle]
    · rw [eC, show (64 : ℕ) = (rho ++ kk).length by simp [hrho, hkk],
        show (128 : ℕ) = (rho ++ kk).length + tr.length by simp [hrho, hkk, htr], slice_middle]
  simp only [skDecode, e1, e2, e3, ok_bind, hsl]
  rfl

theorem skEncode_skDecode (b : Bytes)
    (hlen : b.length = 128 + 32 * ((p.ell + p.k) * bitLength (2 * p.eta) + p.k * p.d)) :
    ∃ rho kk tr s1 s2 t0, skDecode p b = .ok (rho, kk, tr, s1, s2, t0) ∧
      skEncode p rho kk tr s1 s2 t0 = b := by
  have hlen' : b.length = 128 + 32 * bitLength (2 * p.eta) * p.ell +
      32 * bitLength (2 * p.eta) * p.k + 32 * p.d * p.k := by
    rw [hlen, Nat.add_mul, Nat.mul_add, Nat.mul_add, Nat.mul_assoc, Nat.mul_assoc, Nat.mul_assoc,
      Nat.mul_comm p.ell, Nat.mul_comm p.k, Nat.mul_comm p.k p.d]
    omega
  obtain ⟨w1, h1, -, hw1⟩ := unpackFrom_exists (fun r => bitPack r p.eta p.eta)
    (fun yi => bitUnpack yi p.eta p.eta) _ b (bitUnpack_eta p) p.ell 128 (by omega)
  obtain ⟨w2, h2, -, hw2⟩ := unpackFrom_exists (fun r => bitPack r p.eta p.eta)
    (fun zi => bitUnpack zi p.eta p.eta) _ b (bitUnpack_eta p) p.k
    (128 + 32 * bitLength (2 * p.eta) * p.ell) (by omega)
  obtain ⟨w0, h0, -, hw0⟩ := unpackFrom_exists (fun r => bitPack r (2 ^ (p.d - 1) - 1) (2 ^ (p.d - 1)))
    (fun wi => bitUnpack wi (2 ^ (p.d - 1) - 1) (2 ^ (p.d - 1))) (32 * p.d) b
    (fun v hv => bitPack_bitUnpack v _ _ (by rw [hv, hd])) p.k
    (128 + 32 * bitLength (2 * p.eta) * p.ell + 32 * bitLength (2 * p.eta) * p.k) (by omega)
  refine ⟨slice b 0 32, slice b 32 64, slice b 64 128, w1, w2, w0, ?_, ?_⟩
  · simp only [skDecode, h1, h2, h0, ok_bind]
    rfl
  · rw [skEncode, hw1, hw2, hw0, slice_append_slice b (by omega) (by omega),
      slice_append_slice b (by omega) (by omega), slice_append_slice b (by omega) (by omega),
      slice_append_slice b (by omega) (by omega), slice_append_slice b (by omega) (by omega), ← hlen',
      slice_eq_self]

end SecretKey

section Signature

variable (p : Params) (hz : bitLength (p.gam1 - 1 + p.gam1) = 1 + bitLength (p.gam1 - 1))
include hz

theorem length_bitPack_z {w : List ℤ} (hw : w.length = 256) :
    (bitPack w (p.gam1 - 1) p.gam1).length = 32 * (1 + bitLength (p.gam1 - 1)) := by
  rw [length_bitPack, hw, hz]; omega

omit hz in
theorem sigEncode_eq_flatMap (ct : Bytes) (z : List (List ℤ)) (h : List (List ℕ)) (hzl : z.length = p.ell) :
    sigEncode p ct z h = ct ++ z.flatMap (fun zi => bitPack zi (p.gam1 - 1) p.gam1) ++ hintBitPack p h := by
  conv_rhs => rw [← map_getD_range z [], List.flatMap_map, hzl]
  rfl

theorem length_sigEncode (ct : Bytes) (z : List (List ℤ)) (h : List (List ℕ)) (hzl : z.length = p.ell)
    (hzr : ∀ r ∈ z, r.length = 256) (hw : (hintIdx h p.k).length ≤ p.omega) :
    (sigEncode p ct z h).length =
      ct.length + 32 * p.ell * (1 + bitLength (p.gam1 - 1)) + p.omega + p.k := by
  rw [sigEncode_eq_flatMap p ct z h hzl, List.length_append, List.length_append,
    length_flatMap_of_length _ _ z (fun r hr => length_bitPack_z p hz (hzr r hr)), length_hintBitPack p h hw,
    hzl]
  rw [Nat.mul_left_comm, ← Nat.mul_assoc]
  omega

theorem sigDecode_sigEncode (ct : Bytes) (z : List (List ℤ)) (h : List (List ℕ)) (hω : p.omega < 256)
    (hct : ct.length = p.lam / 4) (hzl : z.length = p.ell)
    (hzr : ∀ r ∈ z, r.length = 256 ∧ ∀ x ∈ r, -((p.gam1 - 1 : ℕ) : ℤ) ≤ x ∧ x ≤ p.gam1)
    (hk : h.length = p.k) (hrow : ∀ row ∈ h, row.length = 256 ∧ ∀ x ∈ row, x ≤ 1)
    (hwt : weight h ≤ p.omega) :
    sigDecode p (sigEncode p ct z h) = .ok (ct, z, some h) := by
  have hw := length_hintIdx_le hk (fun r hr => (hrow r hr).1) hwt
  set Z := z.flatMap fun zi => bitPack zi (p.gam1 - 1) p.gam1
  have hZ : Z.length = 32 * (1 + bitLength (p.gam1 - 1)) * p.ell := by
    rw [length_flatMap_of_length _ _ z (fun r hr => length_bitPack_z p hz (hzr r hr).1), hzl,
      Nat.mul_comm]
  have he := sigEncode_eq_flatMap p ct z h hzl
  have hrows : unpackFrom (sigEncode p ct z h) (32 * (1 + bitLength (p.gam1 - 1)))
      (fun v => bitUnpack v (p.gam1 - 1) p.gam1) p.ell (p.lam / 4) =
      .ok (z, p.lam / 4 + 32 * (1 + bitLength (p.gam1 - 1)) * p.ell) :=
    unpackFrom_eq_ok _ _ _ (show _ = ct ++ Z ++ hintBitPack p h from he) hct.symm hzl.symm
      (fun r hr => length_bitPack_z p hz (hzr r hr).1)
      (fun r hr => bitUnpack_bitPack r _ _ (hzr r hr).1 (hzr r hr).2)
  have hy : slice (sigEncode p ct z h) (p.lam / 4 + 32 * (1 + bitLength (p.gam1 - 1)) * p.ell)
      (p.lam / 4 + 32 * (1 + bitLength (p.gam1 - 1)) * p.ell + p.omega + p.k) = hintBitPack p h := by
    have e1 : p.lam / 4 + 32 * (1 + bitLength (p.gam1 - 1)) * p.ell = (ct ++ Z).length := by
      rw [List.length_append, hct, hZ]
    have e2 : p.lam / 4 + 32 * (1 + bitLength (p.gam1 - 1)) * p.ell + p.omega + p.k =
        (ct ++ Z).length + (hintBitPack p h).length := by
      rw [e1, length_hintBitPack p h hw, Nat.add_assoc]
    rw [he, ← List.append_nil (ct ++ Z ++ hintBitPack p h), e2, e1, slice_middle]
  have hct' : slice (sigEncode p ct z h) 0 (p.lam / 4) = ct := by
    rw [he, List.append_assoc, ← hct, slice_prefix]
  simp only [sigDecode]
  rw [mapM_range_slice (fun v => bitUnpack v (p.gam1 - 1) p.gam1), hrows, hct']
  simp only [Functor.map, Except.map, ok_bind]
  rw [hy, hintBitUnpack_hintBitPack p h hω hk hrow hwt]
  rfl

/-- On a byte string of the signature length the rows of `z` always unpack, and what
`sig_decode` returns is decided by `hint_bit_unpack` on the last `omega + k` bytes. -/
theorem sigDecode_eq (s : Bytes)
    (hs : s.length = p.lam / 4 + 32 * p.ell * (1 + bitLength (p.gam1 - 1)) + p.omega + p.k) :
    ∃ ws : List (List ℤ), ws.length = p.ell ∧
      ws.flatMap (fun r => bitPack r (p.gam1 - 1) p.gam1) =
        slice s (p.lam / 4) (p.lam / 4 + 32 * (1 + bitLength (p.gam1 - 1)) * p.ell) ∧
      sigDecode p s = (do
        let h ← hintBitUnpack p (slice s (p.lam / 4 + 32 * (1 + bitLength (p.gam1 - 1)) * p.ell)
          (p.lam / 4 + 32 * (1 + bitLength (p.gam1 - 1)) * p.ell + p.omega + p.k))
        pure (slice s 0 (p.lam / 4), ws, h)) := by
  have hs' := Nat.mul_right_comm 32 p.ell (1 + bitLength (p.gam1 - 1))
  obtain ⟨ws, hws, hwl, hwse⟩ := unpackFrom_exists (fun r => bitPack r (p.gam1 - 1) p.gam1)
    (fun v => bitUnpack v (p.gam1 - 1) p.gam1) _ s (fun v hv => bitPack_bitUnpack v _ _ (by rw [hv, hz]))
    p.ell (p.lam / 4) (by omega)
  refine ⟨ws, hwl, hwse, ?_⟩
  simp only [sigDecode]
  rw [mapM_range_slice (fun v => bitUnpack v (p.gam1 - 1) p.gam1), hws]
  simp only [Functor.map, Except.map, ok_bind]

theorem sigEncode_sigDecode (s : Bytes)
    (hs : s.length = p.lam / 4 + 32 * p.ell * (1 + bitLength (p.gam1 - 1)) + p.omega + p.k)
    {ct : Bytes} {z : List (List ℤ)} {h : List (List ℕ)} (hdec : sigDecode p s = .ok (ct, z, some h)) :
    sigEncode p ct z h = s := by
  have hs' : s.length = p.lam / 4 + 32 * (1 + bitLength (p.gam1 - 1)) * p.ell + p.omega + p.k := by
    rw [hs, Nat.mul_right_comm]
  obtain ⟨ws, hwl, hwse, hd⟩ := sigDecode_eq p hz s hs
  rw [hd] at hdec
  obtain ⟨r, hr, hdec⟩ := bind_eq_ok hdec
  simp only [pure, Except.pure, Except.ok.injEq, Prod.mk.injEq] at hdec
  obtain ⟨rfl, rfl, rfl⟩ := hdec
  rw [sigEncode_eq_flatMap p _ _ _ hwl, hwse, hintBitPack_hintBitUnpack p _ (by rw [length_slice]; omega) hr,
    slice_append_slice s (Nat.zero_le _) (by omega), slice_append_slice s (by omega) (by omega), ← hs',
    slice_eq_self]

end Signature

theorem sigDecode_rows (p : Params) (s : Bytes)
    (hs : s.length = p.lam / 4 + 32 * p.ell * (1 + bitLength (p.gam1 - 1)) + p.omega + p.k)
    {ct : Bytes} {z : List (List ℤ)} {h : List (List ℕ)} (hdec : sigDecode p s = .ok (ct, z, some h)) :
    ct.length = p.lam / 4 ∧ z.length = p.ell ∧
      (∀ r ∈ z, r.length = 256 ∧
        ∀ x ∈ r, (p.gam1 : ℤ) - (2 ^ bitLength (p.gam1 - 1 + p.gam1) - 1) ≤ x ∧ x ≤ p.gam1) ∧
      h.length = p.k ∧ (∀ row ∈ h, row.length = 256 ∧ ∀ x ∈ row, x ≤ 1) ∧ weight h ≤ p.omega := by
  obtain ⟨zs, hzs, hdec⟩ := bind_eq_ok hdec
  obtain ⟨r, hr, hdec⟩ := bind_eq_ok hdec
  simp only [pure, Except.pure, Except.ok.injEq, Prod.mk.injEq] at hdec
  obtain ⟨rfl, rfl, rfl⟩ := hdec
  obtain ⟨hzl, hzr⟩ := mapM_ok_forall (P := fun w : List ℤ => w.length = 256 ∧
      ∀ x ∈ w, (p.gam1 : ℤ) - (2 ^ bitLength (p.gam1 - 1 + p.gam1) - 1) ≤ x ∧ x ≤ p.gam1) hzs
    fun _ _ w hw => ⟨length_of_unpackChunks hw, bitUnpack_mem hw⟩
  have e := Nat.mul_right_comm 32 p.ell (1 + bitLength (p.gam1 - 1))
  obtain ⟨hk, hrow, hwt⟩ := hintBitUnpack_rows p _ (by rw [length_slice]; omega) hr
  exact ⟨by rw [length_slice]; omega, by rw [hzl, List.length_range], hzr, hk, hrow, hwt⟩

/-- The facts about a parameter set that the codecs rely on: the widths the decoders
cut at agree with the widths the packers write, and the hint counts fit in a byte. -/
structure CodecWidths (p : Params) : Prop where
  t1 : bitLength (2 ^ t1Width p - 1) = t1Width p
  t0 : bitLength (2 ^ (p.d - 1) - 1 + 2 ^ (p.d - 1)) = p.d
  z : bitLength (p.gam1 - 1 + p.gam1) = 1 + bitLength (p.gam1 - 1)
  omega_lt : p.omega < 256
  gam1_pos : 1 ≤ p.gam1

theorem codecWidths_mlDsaParam (ps : ParamSet) : CodecWidths (mlDsaParam ps) := by
  cases ps <;> exact ⟨by decide, by decide, by decide, by decide, by decide⟩

theorem sig_codec_bijective (ps : ParamSet) :
    let p := mlDsaParam ps
    (∀ (ct : Bytes) (z : List (List ℤ)) (h : List (List ℕ)), ct.length = p.lam / 4 →
      z.length = p.ell → (∀ r ∈ z, r.length = 256 ∧ ∀ x ∈ r, -(p.gam1 : ℤ) + 1 ≤ x ∧ x ≤ p.gam1) →
      h.length = p.k → (∀ row ∈ h, row.length = 256 ∧ ∀ x ∈ row, x ≤ 1) → weight h ≤ p.omega →
      (sigEncode p ct z h).length =
          p.lam / 4 + 32 * p.ell * (1 + bitLength (p.gam1 - 1)) + p.omega + p.k ∧
        sigDecode p (sigEncode p ct z h) = .ok (ct, z, some h)) ∧
    (∀ (s ct : Bytes) (z : List (List ℤ)) (h : List (List ℕ)),
      s.length = p.lam / 4 + 32 * p.ell * (1 + bitLength (p.gam1 - 1)) + p.omega + p.k →
      sigDecode p s = .ok (ct, z, some h) → sigEncode p ct z h = s) := by
  intro p
  have W : CodecWidths p := codecWidths_mlDsaParam ps
  refine ⟨fun ct z h hct hzl hzr hk hrow hwt => ⟨?_, ?_⟩, fun s ct z h hs hdec => ?_⟩
  · rw [length_sigEncode _ W.z ct z h hzl (fun r hr => (hzr r hr).1)
      (length_hintIdx_le hk (fun r hr => (hrow r hr).1) hwt), hct]
  · refine sigDecode_sigEncode _ W.z ct z h W.omega_lt hct hzl
      (fun r hr => ⟨(hzr r hr).1, fun x hx => ?_⟩) hk hrow hwt
    have := (hzr r hr).2 x hx
    push_cast [W.gam1_pos]
    omega
  · exact sigEncode_sigDecode _ W.z s hs hdec

theorem sig_codec_bijective_zero :
    let p := mlDsaParam .mlDsa44
    let z : List (List ℤ) := List.replicate 4 (List.replicate 256 0)
    let h : List (List ℕ) := List.replicate 4 (List.replicate 256 0)
    ((sigEncode p (List.replicate 32 0) z h).length =
        p.lam / 4 + 32 * p.ell * (1 + bitLength (p.gam1 - 1)) + p.omega + p.k ∧
      sigDecode p (sigEncode p (List.replicate 32 0) z h) = .ok (List.replicate 32 0, z, some h)) ∧
    sigEncode p (List.replicate 32 0) z h = sigEncode p (List.replicate 32 0) z h := by
  intro p z h
  have a := (sig_codec_bijective .mlDsa44).1 (List.replicate 32 0) z h rfl rfl
    (forall_mem_replicate_rows (by decide) 4) rfl (forall_mem_replicate_rows (by decide) 4)
    (by rw [weight_replicate_zero]; decide)
  exact ⟨a, (sig_codec_bijective .mlDsa44).2 _ _ z h a.1 a.2⟩

/-- Every signature string that `sig_decode` accepts with a hint decodes to a tuple
that `sig_encode` takes: with the first part of the signature codec, the accepted
strings of the signature length and the in-range tuples are in bijection. -/
theorem sigDecode_well_formed (ps : ParamSet) (s : Bytes) {ct : Bytes} {z : List (List ℤ)}
    {h : List (List ℕ)} (hs : s.length = (mlDsaParam ps).lam / 4 +
      32 * (mlDsaParam ps).ell * (1 + bitLength ((mlDsaParam ps).gam1 - 1)) + (mlDsaParam ps).omega +
        (mlDsaParam ps).k)
    (hdec : sigDecode (mlDsaParam ps) s = .ok (ct, z, some h)) :
    ct.length = (mlDsaParam ps).lam / 4 ∧ z.length = (mlDsaParam ps).ell ∧
      (∀ r ∈ z, r.length = 256 ∧ ∀ x ∈ r, -((mlDsaParam ps).gam1 : ℤ) + 1 ≤ x ∧ x ≤ (mlDsaParam ps).gam1) ∧
      h.length = (mlDsaParam ps).k ∧ (∀ row ∈ h, row.length = 256 ∧ ∀ x ∈ row, x ≤ 1) ∧
      weight h ≤ (mlDsaParam ps).omega := by
  have e : (2 : ℤ) ^ bitLength ((mlDsaParam ps).gam1 - 1 + (mlDsaParam ps).gam1) = 2 * (mlDsaParam ps).gam1 := by
    cases ps <;> decide
  obtain ⟨h1, h2, h3, h4⟩ := sigDecode_rows (mlDsaParam ps) s hs hdec
  refine ⟨h1, h2, fun r hr => ⟨(h3 r hr).1, fun x hx => ?_⟩, h4⟩
  have hx := (h3 r hr).2 x hx
  rw [e] at hx
  omega

theorem sigDecode_well_formed_zero :
    ∃ ct z h, sigDecode (mlDsaParam .mlDsa44) (sigEncode (mlDsaParam .mlDsa44) (List.replicate 32 0)
        (List.replicate 4 (List.replicate 256 0)) (List.replicate 4 (List.replicate 256 0))) = .ok (ct, z, some h) ∧
      ct.length = (mlDsaParam .mlDsa44).lam / 4 ∧ z.length = (mlDsaParam .mlDsa44).ell ∧
      (∀ r ∈ z, r.length = 256 ∧
        ∀ x ∈ r, -((mlDsaParam .mlDsa44).gam1 : ℤ) + 1 ≤ x ∧ x ≤ (mlDsaParam .mlDsa44).gam1) ∧
      h.length = (mlDsaParam .mlDsa44).k ∧ (∀ row ∈ h, row.length = 256 ∧ ∀ x ∈ row, x ≤ 1) ∧
      weight h ≤ (mlDsaParam .mlDsa44).omega := by
  have W := codecWidths_mlDsaParam .mlDsa44
  have hrow := forall_mem_replicate_rows (P := fun x : ℕ => x ≤ 1) (v := 0) (by decide) 4
  have hwt : weight (List.replicate 4 (List.replicate 256 0)) ≤ (mlDsaParam .mlDsa44).omega := by
    rw [weight_replicate_zero]; decide
  have hdec := sigDecode_sigEncode _ W.z (List.replicate 32 0) (List.replicate 4 (List.replicate 256 0))
    (List.replicate 4 (List.replicate 256 0)) W.omega_lt rfl rfl (forall_mem_replicate_rows (by decide) 4) rfl hrow hwt
  have hs := length_sigEncode _ W.z (List.replicate 32 0) (List.replicate 4 (List.replicate 256 0))
    (List.replicate 4 (List.replicate 256 0)) rfl (fun r hr => (forall_mem_replicate_rows (P := fun x : ℤ => x = 0) rfl 4 r hr).1)
    (length_hintIdx_le rfl (fun r hr => (hrow r hr).1) hwt)
  exact ⟨_, _, _, hdec, sigDecode_well_formed .mlDsa44 _ hs hdec⟩

theorem key_codecs_bijective (ps : ParamSet) :
    let p := mlDsaParam ps
    (∀ (rho : Bytes) (t1 : List (List ℤ)), rho.length = 32 → t1.length = p.k →
      (∀ r ∈ t1, r.length = 256 ∧ ∀ x ∈ r, 0 ≤ x ∧ x ≤ 2 ^ (bitLength (mlDsaQ - 1).toNat - p.d) - 1) →
      pkDecode p (pkEncode p rho t1) = .ok (rho, t1) ∧
        (pkEncode p rho t1).length = 32 + 32 * p.k * (bitLength (mlDsaQ - 1).toNat - p.d)) ∧
    (∀ (rho kk tr : Bytes) (s1 s2 t0 : List (List ℤ)), rho.length = 32 → kk.length = 32 →
      tr.length = 64 → s1.length = p.ell → s2.length = p.k → t0.length = p.k →
      (∀ r ∈ s1, r.length = 256 ∧ ∀ x ∈ r, -(p.eta : ℤ) ≤ x ∧ x ≤ p.eta) →
      (∀ r ∈ s2, r.length = 256 ∧ ∀ x ∈ r, -(p.eta : ℤ) ≤ x ∧ x ≤ p.eta) →
      (∀ r ∈ t0, r.length = 256 ∧ ∀ x ∈ r, -(2 : ℤ) ^ (p.d - 1) + 1 ≤ x ∧ x ≤ 2 ^ (p.d - 1)) →
      skDecode p (skEncode p rho kk tr s1 s2 t0) = .ok (rho, kk, tr, s1, s2, t0) ∧
        (skEncode p rho kk tr s1 s2 t0).length =
          128 + 32 * ((p.ell + p.k) * bitLength (2 * p.eta) + p.k * p.d)) ∧
    (∀ b : Bytes, b.length = 32 + 32 * p.k * (bitLength (mlDsaQ - 1).toNat - p.d) →
      ∃ rho t1, pkDecode p b = .ok (rho, t1) ∧ pkEncode p rho t1 = b) ∧
    (∀ b : Bytes, b.length = 128 + 32 * ((p.ell + p.k) * bitLength (2 * p.eta) + p.k * p.d) →
      ∃ rho kk tr s1 s2 t0, skDecode p b = .ok (rho, kk, tr, s1, s2, t0) ∧
        skEncode p rho kk tr s1 s2 t0 = b) := by
  intro p
  have W : CodecWidths p := codecWidths_mlDsaParam ps
  refine ⟨fun rho t1 hrho ht1 hr => ⟨pkDecode_pkEncode _ W.t1 rho t1 hrho ht1 hr, ?_⟩,
    fun rho kk tr s1 s2 t0 hrho hkk htr hs1 hs2 ht0 hr1 hr2 hr0 =>
      ⟨skDecode_skEncode _ W.t0 rho kk tr s1 s2 t0 hrho hkk htr hs1 hs2 ht0 hr1 hr2 hr0, ?_⟩,
    fun b hlen => pkEncode_pkDecode _ W.t1 b (by rw [hlen, t1Width, Nat.mul_right_comm]),
    fun b hlen => skEncode_skDecode _ W.t0 b hlen⟩
  · rw [length_pkEncode _ W.t1, hrho, ht1, Nat.mul_right_comm]
    rfl
  · rw [length_skEncode _ W.t0 rho kk tr s1 s2 t0 (fun r hr => (hr1 r hr).1) (fun r hr => (hr2 r hr).1)
      (fun r hr => (hr0 r hr).1), hrho, hkk, htr, hs1, hs2, ht0]

theorem key_codecs_bijective_zero :
    let p := mlDsaParam .mlDsa44
    let zero : List (List ℤ) := List.replicate 4 (List.replicate 256 0)
    let pk := pkEncode p (List.replicate 32 0) zero
    let sk := skEncode p (List.replicate 32 0) (List.replicate 32 0) (List.replicate 64 0) zero zero zero
    (pkDecode p pk = .ok (List.replicate 32 0, zero) ∧
      pk.length = 32 + 32 * p.k * (bitLength (mlDsaQ - 1).toNat - p.d)) ∧
    (skDecode p sk = .ok (List.replicate 32 0, List.replicate 32 0, List.replicate 64 0, zero, zero, zero) ∧
      sk.length = 128 + 32 * ((p.ell + p.k) * bitLength (2 * p.eta) + p.k * p.d)) ∧
    (∃ rho t1, pkDecode p pk = .ok (rho, t1) ∧ pkEncode p rho t1 = pk) ∧
    (∃ rho kk tr s1 s2 t0, skDecode p sk = .ok (rho, kk, tr, s1, s2, t0) ∧
      skEncode p rho kk tr s1 s2 t0 = sk) := by
  intro p zero pk sk
  have hpk := (key_codecs_bijective .mlDsa44).1 (List.replicate 32 0) zero rfl rfl
    (forall_mem_replicate_rows (by decide) 4)
  have hsk := (key_codecs_bijective .mlDsa44).2.1 (List.replicate 32 0) (List.replicate 32 0)
    (List.replicate 64 0) zero zero zero rfl rfl rfl rfl rfl rfl (forall_mem_replicate_rows (by decide) 4)
    (forall_mem_replicate_rows (by decide) 4) (forall_mem_replicate_rows (by decide) 4)
  exact ⟨hpk, hsk, (key_codecs_bijective .mlDsa44).2.2.1 pk hpk.2,
    (key_codecs_bijective .mlDsa44).2.2.2 sk hsk.2⟩

end MlDsa
