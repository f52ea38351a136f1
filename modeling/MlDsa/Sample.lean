import MlDsa.Codec
import MlDsa.Rounding
import Mathlib.Algebra.BigOperators.Group.Finset

/-!
# Hashing and sampling

Algorithms 14, 15 and 29–34 of FIPS 204. The hash functions come from a module the
repository does not contain, so they are a parameter (`HashModel`), and every
theorem holds for every such model. The rejection loops run on fuel.
-/

namespace MlDsa

set_option autoImplicit false

open Finset

/-- The hash functions the module calls. -/
structure HashModel where
  /-- The `SHAKE128` output stream of a byte string. -/
  shake128 : Bytes → ℕ → UInt8
  /-- The `SHAKE256` output stream of a byte string. -/
  shake256 : Bytes → ℕ → UInt8
  /-- `_compute_hash("sha256", m)`. -/
  sha256 : Bytes → Bytes
  /-- `_compute_hash("sha512", m)`. -/
  sha512 : Bytes → Bytes

/-- `n` bytes of a stream from position `pos`: `xof.read(n)`. -/
def readBytes (xof : ℕ → UInt8) (pos n : ℕ) : Bytes := (List.range n).map fun i => xof (pos + i)

/-- `h(s, length)`: `SHAKE256(s)` with `length` bytes of output. -/
def HashModel.h (H : HashModel) (s : Bytes) (length : ℕ) : Bytes := readBytes (H.shake256 s) 0 length

@[simp] theorem length_readBytes (xof : ℕ → UInt8) (pos n : ℕ) : (readBytes xof pos n).length = n := by
  simp [readBytes]

@[simp] theorem length_h (H : HashModel) (s : Bytes) (length : ℕ) : (H.h s length).length = length :=
  length_readBytes _ _ _

/-- A hash model for runs on fixed inputs: `SHAKE128` streams zero bytes, every
`SHAKE256` stream repeats the byte `b`, and the digests are empty. -/
def constHash (b : UInt8) : HashModel := ⟨fun _ _ => 0, fun _ _ => b, fun _ => [], fun _ => []⟩

@[simp] theorem constHash_shake128 (b : UInt8) (s : Bytes) (pos : ℕ) : (constHash b).shake128 s pos = 0 := rfl

@[simp] theorem constHash_shake256 (b : UInt8) (s : Bytes) (pos : ℕ) : (constHash b).shake256 s pos = b := rfl

theorem constHash_h (b : UInt8) (s : Bytes) (n : ℕ) : (constHash b).h s n = List.replicate n b := by
  rw [HashModel.h, readBytes, List.map_congr_left fun i _ => constHash_shake256 b s (0 + i), List.map_const',
    List.length_range]

/-- Algorithm 14, `CoeffFromThreeBytes(b0, b1, b2)`: `None` is the rejection. -/
def coeffFromThreeBytes (b0 b1 b2 : UInt8) : Option ℤ :=
  let b2 := if b2.toNat > 127 then b2.toNat - 128 else b2.toNat
  let z : ℕ := b2 * 2 ^ 16 + b1.toNat * 2 ^ 8 + b0.toNat
  if (z : ℤ) < mlDsaQ then some z else none

/-- Algorithm 15, `CoeffFromHalfByte(b)`. -/
def coeffFromHalfByte (p : Params) (b : ℕ) : Option ℤ :=
  if p.eta = 2 ∧ b < 15 then some (2 - (b % 5 : ℕ))
  else if p.eta = 4 ∧ b < 9 then some (4 - b)
  else none

theorem coeffFromThreeBytes_mem {b0 b1 b2 : UInt8} {c : ℤ} (h : coeffFromThreeBytes b0 b1 b2 = some c) :
    0 ≤ c ∧ c < mlDsaQ := by
  simp only [coeffFromThreeBytes] at h
  generalize ((if b2.toNat > 127 then b2.toNat - 128 else b2.toNat) * 2 ^ 16 + b1.toNat * 2 ^ 8 +
    b0.toNat) = z at h
  split_ifs at h with hq
  exact Option.some.inj h ▸ ⟨Int.natCast_nonneg _, hq⟩

theorem coeffFromThreeBytes_zero : coeffFromThreeBytes 0 0 0 = some 0 := by decide

theorem coeffFromHalfByte_mem {p : Params} {b : ℕ} {c : ℤ} (h : coeffFromHalfByte p b = some c) :
    -(p.eta : ℤ) ≤ c ∧ c ≤ p.eta := by
  unfold coeffFromHalfByte at h
  split_ifs at h with h2 h4 <;> cases h
  · rw [h2.1]; omega
  · rw [h4.1]; omega

/-- `a[j] = c; j += 1` when the candidate `c` is accepted (not `None`). -/
def acceptCoeff (a : List ℤ) : Option ℤ → List ℤ
  | some c => a ++ [c]
  | none => a

/-- The `while j < 256` loop of `rej_ntt_poly` from stream position `pos`, with
the coefficients accepted so far (`a[:j]`). A rejected candidate writes `None`
to `a[j]`, which the next accepted one overwrites, so only accepted values
are kept. -/
def rejNttLoop (g : ℕ → UInt8) : ℕ → ℕ → List ℤ → Except Fault (List ℤ)
  | 0, _, a => if a.length < 256 then .error .outOfFuel else .ok a
  | fuel + 1, pos, a =>
    if a.length < 256 then
      rejNttLoop g fuel (pos + 3) (acceptCoeff a (coeffFromThreeBytes (g pos) (g (pos + 1)) (g (pos + 2))))
    else .ok a

/-- Algorithm 30, `RejNTTPoly(rho)`, on the `SHAKE128` stream of `rho`. -/
def rejNttPoly (H : HashModel) (rho : Bytes) (fuel : ℕ) : Except Fault (List ℤ) :=
  rejNttLoop (H.shake128 rho) fuel 0 []

/-- The `while j < 256` loop of `rej_bounded_poly`: each byte `z` gives up to two
coefficients, from `z % 16` and then, while `j < 256`, from `z // 16`. -/
def rejBoundedLoop (p : Params) (h : ℕ → UInt8) : ℕ → ℕ → List ℤ → Except Fault (List ℤ)
  | 0, _, a => if a.length < 256 then .error .outOfFuel else .ok a
  | fuel + 1, pos, a =>
    if a.length < 256 then
      let z := (h pos).toNat
      let a := acceptCoeff a (coeffFromHalfByte p (z % 16))
      let a := if a.length < 256 then acceptCoeff a (coeffFromHalfByte p (z / 16)) else a
      rejBoundedLoop p h fuel (pos + 1) a
    else .ok a

/-- Algorithm 31, `RejBoundedPoly(rho)`, on the `SHAKE256` stream of `rho`. -/
def rejBoundedPoly (p : Params) (H : HashModel) (rho : Bytes) (fuel : ℕ) : Except Fault (List ℤ) :=
  rejBoundedLoop p (H.shake256 rho) fuel 0 []

section Loops

variable {P : ℤ → Prop}

theorem mem_acceptCoeff {a : List ℤ} {o : Option ℤ} (ha : ∀ x ∈ a, P x)
    (ho : ∀ c, o = some c → P c) : ∀ x ∈ acceptCoeff a o, P x := by
  cases o with
  | none => exact ha
  | some c =>
    intro x hx
    rcases List.mem_append.mp hx with hx | hx
    · exact ha x hx
    · rw [List.mem_singleton.mp hx]; exact ho c rfl

theorem length_acceptCoeff_le (a : List ℤ) (o : Option ℤ) : (acceptCoeff a o).length ≤ a.length + 1 := by
  cases o <;> simp [acceptCoeff]

theorem rejNttLoop_spec (g : ℕ → UInt8) :
    ∀ (fuel pos : ℕ) (a a' : List ℤ), a.length ≤ 256 → (∀ x ∈ a, 0 ≤ x ∧ x < mlDsaQ) →
      rejNttLoop g fuel pos a = .ok a' → a'.length = 256 ∧ ∀ x ∈ a', 0 ≤ x ∧ x < mlDsaQ
  | 0, pos, a, a', hl, ha, h => by
    unfold rejNttLoop at h
    split_ifs at h with hlt
    cases h
    exact ⟨by omega, ha⟩
  | fuel + 1, pos, a, a', hl, ha, h => by
    unfold rejNttLoop at h
    split_ifs at h with hlt
    · have hl' := length_acceptCoeff_le a (coeffFromThreeBytes (g pos) (g (pos + 1)) (g (pos + 2)))
      exact rejNttLoop_spec g fuel (pos + 3) _ a' (by omega)
        (mem_acceptCoeff ha fun _ hc => coeffFromThreeBytes_mem hc) h
    · cases h
      exact ⟨by omega, ha⟩

theorem rejBoundedLoop_spec (p : Params) (h : ℕ → UInt8) :
    ∀ (fuel pos : ℕ) (a a' : List ℤ), a.length ≤ 256 →
      (∀ x ∈ a, -(p.eta : ℤ) ≤ x ∧ x ≤ p.eta) → rejBoundedLoop p h fuel pos a = .ok a' →
      a'.length = 256 ∧ ∀ x ∈ a', -(p.eta : ℤ) ≤ x ∧ x ≤ p.eta
  | 0, pos, a, a', hl, ha, hr => by
    unfold rejBoundedLoop at hr
    split_ifs at hr with hlt
    cases hr
    exact ⟨by omega, ha⟩
  | fuel + 1, pos, a, a', hl, ha, hr => by
    unfold rejBoundedLoop at hr
    split_ifs at hr with hlt
    · simp only at hr
      have h0 : ∀ x ∈ acceptCoeff a (coeffFromHalfByte p ((h pos).toNat % 16)),
          -(p.eta : ℤ) ≤ x ∧ x ≤ p.eta := mem_acceptCoeff ha fun _ hc => coeffFromHalfByte_mem hc
      have l0 := length_acceptCoeff_le a (coeffFromHalfByte p ((h pos).toNat % 16))
      split_ifs at hr with h1
      · exact rejBoundedLoop_spec p h fuel (pos + 1) _ a'
          (by have := length_acceptCoeff_le (acceptCoeff a (coeffFromHalfByte p ((h pos).toNat % 16)))
                (coeffFromHalfByte p ((h pos).toNat / 16))
              omega)
          (mem_acceptCoeff h0 fun _ hc => coeffFromHalfByte_mem hc) hr
      · exact rejBoundedLoop_spec p h fuel (pos + 1) _ a' (by omega) h0 hr
    · cases hr
      exact ⟨by omega, ha⟩

end Loops

theorem rejNttPoly_spec {H : HashModel} {rho : Bytes} {fuel : ℕ} {a : List ℤ}
    (h : rejNttPoly H rho fuel = .ok a) : a.length = 256 ∧ ∀ x ∈ a, 0 ≤ x ∧ x < mlDsaQ :=
  rejNttLoop_spec _ fuel 0 [] a (by simp) (by simp) h

theorem rejBoundedPoly_spec {p : Params} {H : HashModel} {rho : Bytes} {fuel : ℕ} {a : List ℤ}
    (h : rejBoundedPoly p H rho fuel = .ok a) :
    a.length = 256 ∧ ∀ x ∈ a, -(p.eta : ℤ) ≤ x ∧ x ≤ p.eta :=
  rejBoundedLoop_spec p _ fuel 0 [] a (by simp) (by simp) h

/-- The values a candidate stream `f` accepts among its first `m` candidates,
in order: the list a rejection loop builds. -/
def acceptedOf (f : ℕ → List ℤ) (m : ℕ) : List ℤ := (List.range m).flatMap f

def acceptedTriples (g : ℕ → UInt8) : ℕ → List ℤ :=
  acceptedOf fun i => (coeffFromThreeBytes (g (3 * i)) (g (3 * i + 1)) (g (3 * i + 2))).toList

def acceptedNibbles (p : Params) (h : ℕ → UInt8) : ℕ → List ℤ :=
  acceptedOf fun i => (coeffFromHalfByte p ((h i).toNat % 16)).toList ++
    (coeffFromHalfByte p ((h i).toNat / 16)).toList

theorem acceptCoeff_eq (a : List ℤ) (o : Option ℤ) : acceptCoeff a o = a ++ o.toList := by
  cases o <;> simp [acceptCoeff]

theorem acceptedOf_succ (f : ℕ → List ℤ) (m : ℕ) : acceptedOf f (m + 1) = acceptedOf f m ++ f m := by
  rw [acceptedOf, List.range_succ, List.flatMap_append, ← acceptedOf, List.flatMap_singleton]

theorem acceptedOf_extends (f : ℕ → List ℤ) (m : ℕ) : ∀ n, ∃ t, acceptedOf f (m + n) = acceptedOf f m ++ t
  | 0 => ⟨[], by simp⟩
  | n + 1 => by
    obtain ⟨t, ht⟩ := acceptedOf_extends f m n
    exact ⟨_, by rw [← Nat.add_assoc, acceptedOf_succ, ht, List.append_assoc]⟩

theorem acceptedTriples_succ (g : ℕ → UInt8) (m : ℕ) : acceptedTriples g (m + 1) =
    acceptedTriples g m ++ (coeffFromThreeBytes (g (3 * m)) (g (3 * m + 1)) (g (3 * m + 2))).toList :=
  acceptedOf_succ _ m

theorem acceptedNibbles_succ (p : Params) (h : ℕ → UInt8) (m : ℕ) : acceptedNibbles p h (m + 1) =
    acceptedNibbles p h m ++
      ((coeffFromHalfByte p ((h m).toNat % 16)).toList ++ (coeffFromHalfByte p ((h m).toNat / 16)).toList) :=
  acceptedOf_succ _ m

theorem acceptedTriples_extends (g : ℕ → UInt8) (m n : ℕ) :
    ∃ t, acceptedTriples g (m + n) = acceptedTriples g m ++ t :=
  acceptedOf_extends _ m n

theorem acceptedNibbles_extends (p : Params) (h : ℕ → UInt8) (m n : ℕ) :
    ∃ t, acceptedNibbles p h (m + n) = acceptedNibbles p h m ++ t :=
  acceptedOf_extends _ m n

theorem take_256_of_extends {l l' : List ℤ} (hl : 256 ≤ l.length) (h : ∃ t, l' = l ++ t) :
    256 ≤ l'.length ∧ l'.take 256 = l.take 256 := by
  obtain ⟨t, rfl⟩ := h
  exact ⟨by simp; omega, List.take_append_of_le_length hl⟩

/-- From stream position `3 i` with the accepted prefix of `i` triples, the loop
returns the first 256 accepted candidates of the first `i + fuel` triples. -/
theorem rejNttLoop_eq (g : ℕ → UInt8) : ∀ fuel i, (acceptedTriples g i).length ≤ 256 →
    rejNttLoop g fuel (3 * i) (acceptedTriples g i) =
      if 256 ≤ (acceptedTriples g (i + fuel)).length then .ok ((acceptedTriples g (i + fuel)).take 256)
      else .error .outOfFuel
  | 0, i, hl => by
    rw [rejNttLoop, Nat.add_zero]
    by_cases h : (acceptedTriples g i).length < 256
    · rw [if_pos h, if_neg (by omega)]
    · rw [if_neg h, if_pos (by omega), List.take_of_length_le (by omega)]
  | fuel + 1, i, hl => by
    rw [rejNttLoop]
    by_cases h : (acceptedTriples g i).length < 256
    · have hs : acceptedTriples g (i + 1) = acceptCoeff (acceptedTriples g i)
          (coeffFromThreeBytes (g (3 * i)) (g (3 * i + 1)) (g (3 * i + 2))) := by
        rw [acceptCoeff_eq, acceptedTriples_succ]
      have hl' : (acceptedTriples g (i + 1)).length ≤ 256 := by
        have := length_acceptCoeff_le (acceptedTriples g i) (coeffFromThreeBytes (g (3 * i)) (g (3 * i + 1)) (g (3 * i + 2)))
        rw [hs]; omega
      rw [if_pos h, ← hs, show 3 * i + 3 = 3 * (i + 1) by omega, rejNttLoop_eq g fuel (i + 1) hl',
        Nat.add_right_comm, Nat.add_assoc]
    · obtain ⟨h1, h2⟩ := take_256_of_extends (by omega) (acceptedTriples_extends g i (fuel + 1))
      rw [if_neg h, if_pos h1, h2, List.take_of_length_le (by omega)]

theorem length_toList_le (o : Option ℤ) : o.toList.length ≤ 1 := by
  cases o <;> simp

theorem acceptNibbles_eq_take {A : List ℤ} (c0 c1 : Option ℤ) (hA : A.length < 256) :
    (if (acceptCoeff A c0).length < 256 then acceptCoeff (acceptCoeff A c0) c1 else acceptCoeff A c0) =
      (A ++ (c0.toList ++ c1.toList)).take 256 := by
  have h0 := length_toList_le c0
  have h1 := length_toList_le c1
  simp only [acceptCoeff_eq, ← List.append_assoc, List.length_append]
  split_ifs with hc
  · rw [List.take_of_length_le (by simp only [List.length_append]; omega)]
  · rw [List.take_append_of_le_length (by simp only [List.length_append]; omega),
      List.take_of_length_le (by simp only [List.length_append]; omega)]

/-- The loop at byte `i`, holding the first 256 accepted nibbles of the first `i`
bytes, returns the first 256 accepted nibbles of the first `i + fuel` bytes. -/
theorem rejBoundedLoop_eq (p : Params) (h : ℕ → UInt8) : ∀ fuel i,
    rejBoundedLoop p h fuel i ((acceptedNibbles p h i).take 256) =
      if 256 ≤ (acceptedNibbles p h (i + fuel)).length then .ok ((acceptedNibbles p h (i + fuel)).take 256)
      else .error .outOfFuel
  | 0, i => by
    rw [rejBoundedLoop, Nat.add_zero, List.length_take]
    by_cases hl : (acceptedNibbles p h i).length < 256
    · rw [if_pos (by omega), if_neg (by omega)]
    · rw [if_neg (by omega), if_pos (by omega)]
  | fuel + 1, i => by
    rw [rejBoundedLoop]
    by_cases hl : (acceptedNibbles p h i).length < 256
    · have ht : (acceptedNibbles p h i).take 256 = acceptedNibbles p h i := List.take_of_length_le (by omega)
      rw [if_pos (by rw [ht]; exact hl), ht]
      dsimp only
      rw [acceptNibbles_eq_take _ _ hl, ← acceptedNibbles_succ, rejBoundedLoop_eq p h fuel (i + 1), Nat.add_right_comm,
        Nat.add_assoc]
    · obtain ⟨h1, h2⟩ := take_256_of_extends (by omega) (acceptedNibbles_extends p h i (fuel + 1))
      rw [if_neg (by rw [List.length_take]; omega), if_pos h1, h2]

theorem rejection_samplers_take_accepted (p : Params) (H : HashModel) (rho : Bytes) (fuel : ℕ) :
    rejNttPoly H rho fuel =
      (if 256 ≤ (acceptedTriples (H.shake128 rho) fuel).length then
        .ok ((acceptedTriples (H.shake128 rho) fuel).take 256) else .error .outOfFuel) ∧
    rejBoundedPoly p H rho fuel =
      (if 256 ≤ (acceptedNibbles p (H.shake256 rho) fuel).length then
        .ok ((acceptedNibbles p (H.shake256 rho) fuel).take 256) else .error .outOfFuel) := by
  have hn := rejNttLoop_eq (H.shake128 rho) fuel 0 (by simp [acceptedTriples, acceptedOf])
  have hb := rejBoundedLoop_eq p (H.shake256 rho) fuel 0
  rw [Nat.zero_add] at hn hb
  exact ⟨hn, hb⟩

section Constant

variable {v : ℤ}

theorem rejNttLoop_const {g : ℕ → UInt8}
    (hg : ∀ pos, coeffFromThreeBytes (g pos) (g (pos + 1)) (g (pos + 2)) = some v) :
    ∀ (fuel pos : ℕ) (a : List ℤ), a.length ≤ 256 → 256 ≤ a.length + fuel →
      rejNttLoop g fuel pos a = .ok (a ++ List.replicate (256 - a.length) v)
  | 0, pos, a, h1, h2 => by
    rw [rejNttLoop, if_neg (by omega), show 256 - a.length = 0 by omega, List.replicate_zero, List.append_nil]
  | fuel + 1, pos, a, h1, h2 => by
    rw [rejNttLoop]
    split_ifs with h
    · rw [hg, acceptCoeff, rejNttLoop_const hg fuel (pos + 3) (a ++ [v]) (by simp; omega) (by simp; omega),
        List.length_append, List.length_singleton, List.append_assoc,
        show 256 - a.length = 256 - (a.length + 1) + 1 by omega, List.replicate_succ]
      rfl
    · rw [show 256 - a.length = 0 by omega, List.replicate_zero, List.append_nil]

theorem rejBoundedLoop_const {p : Params} {h : ℕ → UInt8}
    (hlo : ∀ pos, coeffFromHalfByte p ((h pos).toNat % 16) = some v)
    (hhi : ∀ pos, coeffFromHalfByte p ((h pos).toNat / 16) = some v) :
    ∀ (fuel pos n : ℕ), n ≤ 256 → 256 ≤ n + 2 * fuel →
      rejBoundedLoop p h fuel pos (List.replicate n v) = .ok (List.replicate 256 v)
  | 0, pos, n, h1, h2 => by
    rw [rejBoundedLoop, List.length_replicate, if_neg (by omega), show n = 256 by omega]
  | fuel + 1, pos, n, h1, h2 => by
    rw [rejBoundedLoop, List.length_replicate]
    split_ifs with hn
    · dsimp only
      rw [hlo, acceptCoeff, ← List.replicate_succ', List.length_replicate]
      split_ifs with hn1
      · rw [hhi, acceptCoeff, ← List.replicate_succ']
        exact rejBoundedLoop_const hlo hhi fuel (pos + 1) (n + 1 + 1) (by omega) (by omega)
      · exact rejBoundedLoop_const hlo hhi fuel (pos + 1) (n + 1) (by omega) (by omega)
    · rw [show n = 256 by omega]

theorem rejNttPoly_const {H : HashModel} {rho : Bytes} {fuel : ℕ} (hf : 256 ≤ fuel)
    (hg : ∀ pos, coeffFromThreeBytes (H.shake128 rho pos) (H.shake128 rho (pos + 1))
      (H.shake128 rho (pos + 2)) = some v) :
    rejNttPoly H rho fuel = .ok (List.replicate 256 v) :=
  rejNttLoop_const hg fuel 0 [] (by simp) (by simpa using hf)

theorem rejBoundedPoly_const {p : Params} {H : HashModel} {rho : Bytes} {fuel : ℕ} (hf : 128 ≤ fuel)
    (hlo : ∀ pos, coeffFromHalfByte p ((H.shake256 rho pos).toNat % 16) = some v)
    (hhi : ∀ pos, coeffFromHalfByte p ((H.shake256 rho pos).toNat / 16) = some v) :
    rejBoundedPoly p H rho fuel = .ok (List.replicate 256 v) :=
  rejBoundedLoop_const hlo hhi fuel 0 0 (by omega) (by omega)

end Constant

/-- The `while j > i` loop of `sample_in_ball`: the first byte at or after
`pos` that is at most `i`, and the position after it. -/
def sampleSelect (xof : ℕ → UInt8) (i : ℕ) : ℕ → ℕ → Except Fault (ℕ × ℕ)
  | 0, pos => if (xof pos).toNat ≤ i then .ok ((xof pos).toNat, pos + 1) else .error .outOfFuel
  | fuel + 1, pos =>
    if (xof pos).toNat ≤ i then .ok ((xof pos).toNat, pos + 1) else sampleSelect xof i fuel (pos + 1)

/-- One pass of the `for i in range(256 - tau, 256)` loop of `sample_in_ball`
on `(c, position)`: `c[i] = c[j]; c[j] = (-1) ** h[i + tau - 256]`. -/
def sampleStep (p : Params) (xof : ℕ → UInt8) (hb : Bits) (fuel : ℕ) (st : List ℤ × ℕ) (i : ℕ) :
    Except Fault (List ℤ × ℕ) := do
  let (j, pos) ← sampleSelect xof i fuel st.2
  let c := st.1.set i (st.1.getD j 0)
  pure (c.set j (if hb.getD (i + p.tau - 256) false then -1 else 1), pos)

/-- Algorithm 29, `SampleInBall(rho)`: `s = xof.read(8)`, `h = BytesToBits(s)`,
then the loop from position 8. -/
def sampleInBall (p : Params) (H : HashModel) (rho : Bytes) (fuel : ℕ) : Except Fault (List ℤ) := do
  let xof := H.shake256 rho
  let hb := bytesToBits (readBytes xof 0 8)
  let st ← (List.range' (256 - p.tau) p.tau).foldlM (sampleStep p xof hb fuel)
    (List.replicate 256 0, 8)
  pure st.1

theorem sampleSelect_le {xof : ℕ → UInt8} {i : ℕ} :
    ∀ {fuel pos : ℕ} {r : ℕ × ℕ}, sampleSelect xof i fuel pos = .ok r → r.1 ≤ i
  | 0, pos, r, h => by
    unfold sampleSelect at h
    split_ifs at h with hi
    cases h
    exact hi
  | fuel + 1, pos, r, h => by
    unfold sampleSelect at h
    split_ifs at h with hi
    · cases h; exact hi
    · exact sampleSelect_le h

def absSum (c : List ℤ) : ℤ := ∑ k ∈ range 256, |c.getD k 0|

theorem getD_replicate_zero {n : ℕ} (k : ℕ) : (List.replicate n (0 : ℤ)).getD k 0 = 0 := by
  rw [List.getD_eq_getElem?_getD, List.getElem?_getD_replicate_default_eq]

/-- The invariant of the `sample_in_ball` loop before pass `i`: 256 coefficients
in `{-1, 0, 1}`, zero from `i` on, with absolute sum `i - (256 - tau)`. -/
structure BallInv (p : Params) (i : ℕ) (c : List ℤ) : Prop where
  length_eq : c.length = 256
  mem : ∀ x ∈ c, x = -1 ∨ x = 0 ∨ x = 1
  zero_ge : ∀ k, i ≤ k → c.getD k 0 = 0
  absSum_eq : absSum c = (i : ℤ) - (256 - p.tau : ℕ)

theorem absSum_set (c : List ℤ) {k : ℕ} (hk : k < c.length) (hc : c.length = 256) (v : ℤ) :
    absSum (c.set k v) = absSum c - |c.getD k 0| + |v| := by
  have hk' : k ∈ range 256 := Finset.mem_range.mpr (by omega)
  unfold absSum
  rw [← Finset.add_sum_erase _ _ hk', ← Finset.add_sum_erase _ _ hk',
    Finset.sum_congr rfl fun x hx => by rw [getD_set_self_or v hk, if_neg (Finset.ne_of_mem_erase hx)],
    getD_set_self_or v hk, if_pos rfl]
  omega

theorem sampleStep_spec {p : Params} {xof : ℕ → UInt8} {hb : Bits} {fuel i pos pos' : ℕ}
    {c c' : List ℤ} (hi : i < 256) (hl : c.length = 256) (hm : ∀ x ∈ c, x = -1 ∨ x = 0 ∨ x = 1)
    (hci : c.getD i 0 = 0) (h : sampleStep p xof hb fuel (c, pos) i = .ok (c', pos')) :
    c'.length = 256 ∧ (∀ x ∈ c', x = -1 ∨ x = 0 ∨ x = 1) ∧ absSum c' = absSum c + 1 ∧
      ∀ k, i < k → c'.getD k 0 = c.getD k 0 := by
  obtain ⟨⟨j, q⟩, hs, h⟩ := bind_eq_ok h
  cases h
  have hj : j ≤ i := sampleSelect_le hs
  have hl1 : (c.set i (c.getD j 0)).length = 256 := by rw [List.length_set, hl]
  have hcj : (c.set i (c.getD j 0)).getD j 0 = c.getD j 0 := by
    rw [getD_set_self_or _ (by rw [hl]; omega)]
    split_ifs with hji
    · rw [hji]
    · rfl
  refine ⟨by rw [List.length_set, hl1], fun x hx => ?_, ?_, fun k hk => ?_⟩
  · rcases List.mem_or_eq_of_mem_set hx with hx | rfl
    · rcases List.mem_or_eq_of_mem_set hx with hx | rfl
      · exact hm x hx
      · exact getD_le_of_forall hm (Or.inr (Or.inl rfl))
    · split_ifs <;> simp
  · rw [absSum_set _ (by rw [hl1]; omega) hl1, absSum_set _ (by rw [hl]; omega) hl, hcj, hci]
    split_ifs <;> simp only [abs_neg, abs_zero, show |(1 : ℤ)| = 1 from rfl] <;> omega
  · rw [getD_set_self_or _ (by rw [hl1]; omega), if_neg (by omega), getD_set_self_or _ (by rw [hl]; omega),
      if_neg (by omega)]

theorem ballInv_sampleStep {p : Params} {xof : ℕ → UInt8} {hb : Bits} {fuel i pos pos' : ℕ}
    {c c' : List ℤ} (hi : i < 256) (hc : BallInv p i c)
    (h : sampleStep p xof hb fuel (c, pos) i = .ok (c', pos')) : BallInv p (i + 1) c' := by
  obtain ⟨hl, hm, ha, hk⟩ := sampleStep_spec hi hc.length_eq hc.mem (hc.zero_ge i le_rfl) h
  refine ⟨hl, hm, fun k hki => by rw [hk k (by omega)]; exact hc.zero_ge k (by omega), ?_⟩
  rw [ha, hc.absSum_eq]
  push_cast
  omega

theorem ballInv_foldlM {p : Params} {xof : ℕ → UInt8} {hb : Bits} {fuel : ℕ} :
    ∀ (n s : ℕ) (c : List ℤ) (pos : ℕ) (r : List ℤ × ℕ), s + n ≤ 256 → BallInv p s c →
      (List.range' s n).foldlM (sampleStep p xof hb fuel) (c, pos) = .ok r → BallInv p (s + n) r.1
  | 0, s, c, pos, r, _, hc, h => by cases h; exact hc
  | n + 1, s, c, pos, r, hn, hc, h => by
    rw [List.range'_succ, List.foldlM_cons] at h
    cases hs : sampleStep p xof hb fuel (c, pos) s with
    | error e => rw [hs] at h; cases h
    | ok st =>
      rw [hs] at h
      have e := ballInv_foldlM n (s + 1) st.1 st.2 r (by omega)
        (ballInv_sampleStep (by omega) hc (by rw [hs])) h
      rwa [Nat.add_right_comm] at e

/-- `sample_in_ball` returns 256 coefficients in `{-1, 0, 1}` whose absolute
values sum to `tau`. -/
theorem sampleInBall_spec {p : Params} (htau : p.tau ≤ 256) {H : HashModel} {rho : Bytes} {fuel : ℕ}
    {c : List ℤ} (h : sampleInBall p H rho fuel = .ok c) :
    c.length = 256 ∧ (∀ x ∈ c, x = -1 ∨ x = 0 ∨ x = 1) ∧ absSum c = p.tau := by
  simp only [sampleInBall] at h
  cases hf : (List.range' (256 - p.tau) p.tau).foldlM
      (sampleStep p (H.shake256 rho) (bytesToBits (readBytes (H.shake256 rho) 0 8)) fuel)
      (List.replicate 256 0, 8) with
  | error e => rw [hf] at h; cases h
  | ok st =>
    rw [hf] at h
    cases h
    have h0 : BallInv p (256 - p.tau) (List.replicate 256 0) :=
      ⟨List.length_replicate _ _, fun x hx => Or.inr (Or.inl (List.eq_of_mem_replicate hx)),
        fun k _ => getD_replicate_zero k,
        by rw [absSum, Finset.sum_eq_zero fun k _ => by rw [getD_replicate_zero, abs_zero]]; omega⟩
    have e := ballInv_foldlM p.tau (256 - p.tau) _ 8 st (by omega) h0 hf
    rw [Nat.sub_add_cancel htau] at e
    exact ⟨e.length_eq, e.mem, by rw [e.absSum_eq]; omega⟩

theorem sampleSelect_ok_of_le {xof : ℕ → UInt8} {i : ℕ} (h : ∀ pos, (xof pos).toNat ≤ i) :
    ∀ fuel pos, sampleSelect xof i fuel pos = .ok ((xof pos).toNat, pos + 1)
  | 0, pos => if_pos (h pos)
  | _ + 1, pos => if_pos (h pos)

theorem sampleInBall_ok_of_le {p : Params} {H : HashModel} {rho : Bytes} {fuel : ℕ}
    (hb : ∀ pos, (H.shake256 rho pos).toNat ≤ 256 - p.tau) : ∃ c, sampleInBall p H rho fuel = .ok c := by
  have hstep : ∀ (st : List ℤ × ℕ), ∀ i ∈ List.range' (256 - p.tau) p.tau, ∃ st',
      sampleStep p (H.shake256 rho) (bytesToBits (readBytes (H.shake256 rho) 0 8)) fuel st i = .ok st' := by
    intro st i hi
    rw [sampleStep, sampleSelect_ok_of_le (fun pos => (hb pos).trans (List.mem_range'_1.mp hi).1), ok_bind]
    exact ⟨_, rfl⟩
  obtain ⟨st, hst⟩ := foldlM_ok_of_forall _ hstep (List.replicate 256 0, 8)
  rw [sampleInBall, hst]
  exact ⟨_, rfl⟩

theorem countP_ne_zero_eq_sum_abs : ∀ (c : List ℤ), (∀ x ∈ c, x = -1 ∨ x = 0 ∨ x = 1) →
    (c.countP (· ≠ 0) : ℤ) = ∑ k ∈ range c.length, |c.getD k 0|
  | [], _ => by simp
  | a :: c, h => by
    rw [List.countP_cons, List.length_cons, Finset.sum_range_succ', Nat.cast_add,
      countP_ne_zero_eq_sum_abs c fun x hx => h x (List.mem_cons_of_mem a hx)]
    simp only [List.getD_cons_succ, List.getD_cons_zero]
    rcases h a (List.mem_cons_self a c) with rfl | rfl | rfl <;> simp [show |(1 : ℤ)| = 1 from rfl]

theorem countP_ne_zero_eq_absSum {c : List ℤ} (hl : c.length = 256) (hm : ∀ x ∈ c, x = -1 ∨ x = 0 ∨ x = 1) :
    (c.countP (· ≠ 0) : ℤ) = absSum c := by
  rw [absSum, ← hl]
  exact countP_ne_zero_eq_sum_abs c hm

theorem sample_in_ball_shape :
    (∀ (ps : ParamSet) (H : HashModel) (rho : Bytes) (fuel : ℕ) (c : List ℤ),
      sampleInBall (mlDsaParam ps) H rho fuel = .ok c →
      c.length = 256 ∧ (∀ x ∈ c, x = -1 ∨ x = 0 ∨ x = 1) ∧ c.countP (· ≠ 0) = (mlDsaParam ps).tau) ∧
    (∀ (p : Params) (xof : ℕ → UInt8) (hb : Bits) (fuel i pos pos' : ℕ) (c c' : List ℤ),
      i < 256 → c.length = 256 → (∀ x ∈ c, x = -1 ∨ x = 0 ∨ x = 1) → c.getD i 0 = 0 →
      sampleStep p xof hb fuel (c, pos) i = .ok (c', pos') →
      c'.length = 256 ∧ (∀ x ∈ c', x = -1 ∨ x = 0 ∨ x = 1) ∧ c'.countP (· ≠ 0) = c.countP (· ≠ 0) + 1 ∧
        ∀ k, i < k → c'.getD k 0 = c.getD k 0) := by
  refine ⟨fun ps H rho fuel c h => ?_, fun p xof hb fuel i pos pos' c c' hi hl hm hci h => ?_⟩
  · obtain ⟨hl, hm, ha⟩ := sampleInBall_spec (by cases ps <;> decide) h
    have e := countP_ne_zero_eq_absSum hl hm
    rw [ha] at e
    exact ⟨hl, hm, by exact_mod_cast e⟩
  · obtain ⟨hl', hm', ha, hk⟩ := sampleStep_spec hi hl hm hci h
    have e : (c'.countP (· ≠ 0) : ℤ) = c.countP (· ≠ 0) + 1 := by
      rw [countP_ne_zero_eq_absSum hl hm, countP_ne_zero_eq_absSum hl' hm', ha]
    exact ⟨hl', hm', by exact_mod_cast e, hk⟩

theorem sample_in_ball_shape_constHash :
    (∃ c, sampleInBall (mlDsaParam .mlDsa44) (constHash 0x55) [] 0 = .ok c ∧
      c.length = 256 ∧ (∀ x ∈ c, x = -1 ∨ x = 0 ∨ x = 1) ∧ c.countP (· ≠ 0) = 39) ∧
    (∃ c' pos', sampleStep (mlDsaParam .mlDsa44) (fun _ => 0) [] 0 (List.replicate 256 0, 0) 255 =
        .ok (c', pos') ∧
      c'.length = 256 ∧ (∀ x ∈ c', x = -1 ∨ x = 0 ∨ x = 1) ∧ c'.countP (· ≠ 0) = 1 ∧
        ∀ k, 255 < k → c'.getD k 0 = 0) := by
  obtain ⟨c, hc⟩ : ∃ c, sampleInBall (mlDsaParam .mlDsa44) (constHash 0x55) [] 0 = .ok c :=
    sampleInBall_ok_of_le fun pos => by rw [constHash_shake256]; decide
  obtain ⟨c', pos', hst⟩ : ∃ c' pos', sampleStep (mlDsaParam .mlDsa44) (fun _ => 0) [] 0
      (List.replicate 256 0, 0) 255 = .ok (c', pos') := ⟨_, _, rfl⟩
  obtain ⟨hl', hm', hn, hk⟩ := sample_in_ball_shape.2 _ _ _ _ _ _ _ _ _ (by decide) (List.length_replicate _ _)
    (fun x hx => Or.inr (Or.inl (List.eq_of_mem_replicate hx))) (getD_replicate_zero _) hst
  refine ⟨⟨c, hc, sample_in_ball_shape.1 .mlDsa44 _ _ _ _ hc⟩, c', pos', hst, hl', hm', ?_,
    fun k hk' => by rw [hk k hk', getD_replicate_zero]⟩
  rw [hn, List.countP_replicate]
  rfl

/-- Algorithm 32, `ExpandA(rho)`: `a[r][s] = RejNTTPoly(rho || s || r)`. -/
def expandA (p : Params) (H : HashModel) (rho : Bytes) (fuel : ℕ) :
    Except Fault (List (List (List ℤ))) :=
  (List.range p.k).mapM fun (r : ℕ) => (List.range p.ell).mapM fun (s : ℕ) =>
    rejNttPoly H (rho ++ integerToBytes s 1 ++ integerToBytes r 1) fuel

/-- Algorithm 33, `ExpandS(rho)`: `s1[r] = RejBoundedPoly(rho || r)` for `r < ell`
and `s2[r] = RejBoundedPoly(rho || r + ell)` for `r < k`, with two-byte indices. -/
def expandS (p : Params) (H : HashModel) (rho : Bytes) (fuel : ℕ) :
    Except Fault (List (List ℤ) × List (List ℤ)) := do
  let s1 ← (List.range p.ell).mapM fun (r : ℕ) => rejBoundedPoly p H (rho ++ integerToBytes r 2) fuel
  let s2 ← (List.range p.k).mapM fun (r : ℕ) =>
    rejBoundedPoly p H (rho ++ integerToBytes (r + p.ell : ℕ) 2) fuel
  pure (s1, s2)

/-- Algorithm 34, `ExpandMask(rho, mu)`: `y[r] = BitUnpack(h(rho || mu + r, 32 c), gam1 - 1, gam1)`
with `c = 1 + bitlen(gam1 - 1)`. -/
def expandMask (p : Params) (H : HashModel) (rho : Bytes) (mu : ℕ) : Except Fault (List (List ℤ)) :=
  let c := 1 + bitLength (p.gam1 - 1)
  (List.range p.ell).mapM fun (r : ℕ) =>
    bitUnpack (H.h (rho ++ integerToBytes (mu + r : ℕ) 2) (32 * c)) (p.gam1 - 1) p.gam1

theorem expandMask_rows {p : Params} {H : HashModel} {rho : Bytes} {mu : ℕ} {y : List (List ℤ)}
    (h : expandMask p H rho mu = .ok y) : y.length = p.ell ∧ ∀ r ∈ y, r.length = 256 := by
  obtain ⟨l, m⟩ := mapM_ok_forall h fun _ _ _ hb => length_of_unpackChunks hb
  exact ⟨by simpa using l, m⟩

theorem expandMask_add_two_pow (p : Params) (H : HashModel) (rho : Bytes) (mu : ℕ) :
    expandMask p H rho (mu + 2 ^ 16) = expandMask p H rho mu := by
  dsimp only [expandMask]
  congr 1
  funext r
  rw [show ((mu + 2 ^ 16 + r : ℕ) : ℤ) = ((mu + r : ℕ) : ℤ) + 2 ^ 16 by omega, integerToBytes_add_two_pow]

def RowsIn (n : ℕ) (P : ℤ → Prop) (v : List (List ℤ)) : Prop :=
  v.length = n ∧ ∀ row ∈ v, row.length = 256 ∧ ∀ x ∈ row, P x

theorem expandS_spec {p : Params} {H : HashModel} {rho : Bytes} {fuel : ℕ}
    {s1 s2 : List (List ℤ)} (h : expandS p H rho fuel = .ok (s1, s2)) :
    RowsIn p.ell (fun x => -(p.eta : ℤ) ≤ x ∧ x ≤ p.eta) s1 ∧
      RowsIn p.k (fun x => -(p.eta : ℤ) ≤ x ∧ x ≤ p.eta) s2 := by
  unfold expandS at h
  cases h1 : (List.range p.ell).mapM fun (r : ℕ) => rejBoundedPoly p H (rho ++ integerToBytes r 2) fuel with
  | error e => rw [h1] at h; cases h
  | ok t1 =>
    cases h2 : (List.range p.k).mapM fun (r : ℕ) =>
        rejBoundedPoly p H (rho ++ integerToBytes (r + p.ell : ℕ) 2) fuel with
    | error e => rw [h1] at h; simp only [ok_bind, h2] at h; cases h
    | ok t2 =>
      rw [h1] at h
      simp only [ok_bind, h2, pure, Except.pure, Except.ok.injEq, Prod.mk.injEq] at h
      obtain ⟨rfl, rfl⟩ := h
      obtain ⟨l1, m1⟩ := mapM_ok_forall h1 fun _ _ _ hb => rejBoundedPoly_spec hb
      obtain ⟨l2, m2⟩ := mapM_ok_forall h2 fun _ _ _ hb => rejBoundedPoly_spec hb
      exact ⟨⟨by simpa using l1, m1⟩, ⟨by simpa using l2, m2⟩⟩

/-- `ExpandA` returns `k` rows of `ell` polynomials, each of 256 coefficients in `[0, q)`. -/
theorem expandA_spec {p : Params} {H : HashModel} {rho : Bytes} {fuel : ℕ} {A : List (List (List ℤ))}
    (h : expandA p H rho fuel = .ok A) :
    A.length = p.k ∧ ∀ row ∈ A, row.length = p.ell ∧ ∀ a ∈ row, a.length = 256 ∧ ∀ x ∈ a, 0 ≤ x ∧ x < mlDsaQ := by
  obtain ⟨l, m⟩ := mapM_ok_forall (P := fun row : List (List ℤ) => row.length = p.ell ∧
      ∀ a ∈ row, a.length = 256 ∧ ∀ x ∈ a, 0 ≤ x ∧ x < mlDsaQ) h fun _ _ row hrow => by
    obtain ⟨l', m'⟩ := mapM_ok_forall hrow fun _ _ a ha => rejNttPoly_spec ha
    exact ⟨by rw [l', List.length_range], m'⟩
  exact ⟨by rw [l, List.length_range], m⟩

/-- `expand_mask` never raises when the unpacking width is `1 + bitlen(gam1 - 1)`: each
hash output it unpacks is long enough. -/
theorem expandMask_ok (p : Params) (hz : bitLength (p.gam1 - 1 + p.gam1) = 1 + bitLength (p.gam1 - 1))
    (H : HashModel) (rho : Bytes) (mu : ℕ) : ∃ y, expandMask p H rho mu = .ok y :=
  ⟨_, mapM_eq_ok _ fun _ _ => unpackChunks_ok _ _ (by rw [length_h, hz]; omega)⟩

/-- `expand_mask` never raises for the three parameter sets: each of its `ell`
polynomials unpacks `32 * (1 + bitlen(gam1 - 1))` hash bytes with `a = gam1 - 1`,
`b = gam1`, and `2^bitlen(2 gam1 - 1) = 2 gam1`, so every coefficient lies in
`[-gam1 + 1, gam1]`. -/
theorem expandMask_in_range (ps : ParamSet) (H : HashModel) (rho : Bytes) (mu : ℕ) :
    ∃ y, expandMask (mlDsaParam ps) H rho mu = .ok y ∧
      RowsIn (mlDsaParam ps).ell (fun x => -((mlDsaParam ps).gam1 : ℤ) + 1 ≤ x ∧ x ≤ (mlDsaParam ps).gam1) y := by
  have h2 : (2 : ℤ) ^ bitLength ((mlDsaParam ps).gam1 - 1 + (mlDsaParam ps).gam1) = 2 * (mlDsaParam ps).gam1 := by
    cases ps <;> decide
  obtain ⟨y, hy⟩ := expandMask_ok (mlDsaParam ps) (codecWidths_mlDsaParam ps).z H rho mu
  obtain ⟨hl, hr⟩ := mapM_ok_forall hy fun _ _ w hw => And.intro (length_of_unpackChunks hw) (bitUnpack_mem hw)
  refine ⟨y, hy, by simpa using hl, fun r hr' => ⟨(hr r hr').1, fun x hx => ?_⟩⟩
  have hx' := (hr r hr').2 x hx
  rw [h2] at hx'
  omega

section Constant

variable {p : Params} {H : HashModel} {rho : Bytes} {fuel : ℕ} {v : ℤ}

theorem expandA_const (hf : 256 ≤ fuel)
    (hg : ∀ s pos, coeffFromThreeBytes (H.shake128 s pos) (H.shake128 s (pos + 1)) (H.shake128 s (pos + 2)) =
      some v) :
    expandA p H rho fuel = .ok (List.replicate p.k (List.replicate p.ell (List.replicate 256 v))) := by
  rw [expandA, mapM_eq_ok (g := fun _ => (List.range p.ell).map fun _ => List.replicate 256 v) _
    fun r _ => mapM_eq_ok _ fun s _ => rejNttPoly_const hf (hg _)]
  simp only [List.map_const', List.length_range]

theorem expandS_const (hf : 128 ≤ fuel)
    (hlo : ∀ s pos, coeffFromHalfByte p ((H.shake256 s pos).toNat % 16) = some v)
    (hhi : ∀ s pos, coeffFromHalfByte p ((H.shake256 s pos).toNat / 16) = some v) :
    expandS p H rho fuel =
      .ok (List.replicate p.ell (List.replicate 256 v), List.replicate p.k (List.replicate 256 v)) := by
  rw [expandS, mapM_eq_ok (g := fun _ => List.replicate 256 v) _
      fun r _ => rejBoundedPoly_const hf (hlo _) (hhi _), ok_bind,
    mapM_eq_ok (g := fun _ => List.replicate 256 v) _ fun r _ => rejBoundedPoly_const hf (hlo _) (hhi _),
    ok_bind]
  simp only [List.map_const', List.length_range]
  rfl

theorem bitUnpack_replicate_55 :
    bitUnpack (List.replicate 576 0x55) (2 ^ 17 - 1) (2 ^ 17) = .ok (List.replicate 256 43691) := by
  have h85 : ∀ m < 8, (85 : ℕ).testBit m = (85 : ℕ).testBit (m % 2) := by decide
  have hN : ∀ j < 18, (87381 : ℕ).testBit j = (85 : ℕ).testBit (j % 2) := by decide
  have hlen : (bytesToBits (List.replicate 576 (0x55 : UInt8))).length = 4608 := by
    rw [length_bytesToBits, List.length_replicate]
  have hchunk : ∀ i < 256, slice (bytesToBits (List.replicate 576 0x55)) (i * 18) ((i + 1) * 18) =
      (List.range 18).map (87381 : ℕ).testBit := fun i hi =>
    eq_of_getD false (by rw [length_slice, hlen, List.length_map, List.length_range]; omega) fun j hj => by
      have hj' : j < 18 := by rw [length_slice, hlen] at hj; omega
      rw [getD_slice _ (by omega), getD_bytesToBits _ (by rw [List.length_replicate]; omega),
        getD_replicate_of_lt _ _ (by omega), getD_map_range _ hj', hN j hj',
        show (0x55 : UInt8).toNat = 85 from rfl, h85 _ (Nat.mod_lt _ (by omega))]
      congr 1
      omega
  rw [bitUnpack, show bitLength (2 ^ 17 - 1 + 2 ^ 17) = 18 by decide,
    unpackChunks_ok _ _ (by rw [List.length_replicate])]
  refine congrArg Except.ok ?_
  rw [List.map_congr_left fun i hi => by rw [hchunk i (List.mem_range.mp hi), ofBits_testBit],
    List.map_const', List.length_range,
    show ((2 ^ 17 : ℕ) : ℤ) - ((87381 % 2 ^ 18 : ℕ) : ℤ) = 43691 by decide]

theorem expandMask_constHash (rho : Bytes) (mu : ℕ) :
    expandMask (mlDsaParam .mlDsa44) (constHash 0x55) rho mu =
      .ok (List.replicate 4 (List.replicate 256 43691)) := by
  rw [expandMask, mapM_eq_ok (g := fun _ => List.replicate 256 43691) _ fun r _ => by
    rw [constHash_h]; exact bitUnpack_replicate_55, List.map_const', List.length_range]
  rfl

theorem bitUnpack_replicate_zero :
    bitUnpack (List.replicate 576 0) (2 ^ 17 - 1) (2 ^ 17) = .ok (List.replicate 256 131072) := by
  rw [bitUnpack, show bitLength (2 ^ 17 - 1 + 2 ^ 17) = 18 by decide,
    unpackChunks_ok _ _ (by rw [List.length_replicate]), bytesToBits_replicate_zero]
  refine congrArg Except.ok ?_
  rw [List.map_congr_left fun i _ => by rw [slice, List.take_replicate, List.drop_replicate,
    ofBits_replicate_false], List.map_const', List.length_range]
  rfl

theorem expandMask_constHash_zero (rho : Bytes) (mu : ℕ) :
    expandMask (mlDsaParam .mlDsa44) (constHash 0) rho mu =
      .ok (List.replicate 4 (List.replicate 256 131072)) := by
  rw [expandMask, mapM_eq_ok (g := fun _ => List.replicate 256 131072) _ fun r _ => by
    rw [constHash_h]; exact bitUnpack_replicate_zero, List.map_const', List.length_range]
  rfl

end Constant

theorem rejection_samplers_in_range :
    (∀ (H : HashModel) (rho : Bytes) (fuel : ℕ) (a : List ℤ), rejNttPoly H rho fuel = .ok a →
      a.length = 256 ∧ ∀ x ∈ a, 0 ≤ x ∧ x < mlDsaQ) ∧
    (∀ (p : Params) (H : HashModel) (rho : Bytes) (fuel : ℕ) (a : List ℤ), rejBoundedPoly p H rho fuel = .ok a →
      a.length = 256 ∧ ∀ x ∈ a, -(p.eta : ℤ) ≤ x ∧ x ≤ p.eta) ∧
    (∀ (p : Params) (H : HashModel) (rho : Bytes) (fuel : ℕ) (A : List (List (List ℤ))),
      expandA p H rho fuel = .ok A →
      A.length = p.k ∧ ∀ row ∈ A, row.length = p.ell ∧ ∀ a ∈ row, a.length = 256 ∧ ∀ x ∈ a, 0 ≤ x ∧ x < mlDsaQ) ∧
    (∀ (p : Params) (H : HashModel) (rho : Bytes) (fuel : ℕ) (s1 s2 : List (List ℤ)),
      expandS p H rho fuel = .ok (s1, s2) →
      RowsIn p.ell (fun x => -(p.eta : ℤ) ≤ x ∧ x ≤ p.eta) s1 ∧
        RowsIn p.k (fun x => -(p.eta : ℤ) ≤ x ∧ x ≤ p.eta) s2) :=
  ⟨fun _ _ _ _ h => rejNttPoly_spec h, fun _ _ _ _ _ h => rejBoundedPoly_spec h,
    fun _ _ _ _ _ h => expandA_spec h, fun _ _ _ _ _ _ h => expandS_spec h⟩

theorem rejection_samplers_in_range_constHash :
    let p := mlDsaParam .mlDsa44
    let A := List.replicate p.k (List.replicate p.ell (List.replicate 256 (0 : ℤ)))
    let s1 := List.replicate p.ell (List.replicate 256 (2 : ℤ))
    let s2 := List.replicate p.k (List.replicate 256 (2 : ℤ))
    (rejNttPoly (constHash 0x55) [] 256 = .ok (List.replicate 256 0) ∧
      (List.replicate 256 (0 : ℤ)).length = 256 ∧ ∀ x ∈ List.replicate 256 (0 : ℤ), 0 ≤ x ∧ x < mlDsaQ) ∧
    (rejBoundedPoly p (constHash 0x55) [] 128 = .ok (List.replicate 256 2) ∧
      (List.replicate 256 (2 : ℤ)).length = 256 ∧ ∀ x ∈ List.replicate 256 (2 : ℤ), -(p.eta : ℤ) ≤ x ∧ x ≤ p.eta) ∧
    (expandA p (constHash 0x55) [] 256 = .ok A ∧ A.length = p.k ∧
      ∀ row ∈ A, row.length = p.ell ∧ ∀ a ∈ row, a.length = 256 ∧ ∀ x ∈ a, 0 ≤ x ∧ x < mlDsaQ) ∧
    (expandS p (constHash 0x55) [] 128 = .ok (s1, s2) ∧
      RowsIn p.ell (fun x => -(p.eta : ℤ) ≤ x ∧ x ≤ p.eta) s1 ∧ RowsIn p.k (fun x => -(p.eta : ℤ) ≤ x ∧ x ≤ p.eta) s2) := by
  intro p A s1 s2
  have h0 : ∀ s pos, coeffFromThreeBytes ((constHash 0x55).shake128 s pos) ((constHash 0x55).shake128 s (pos + 1))
      ((constHash 0x55).shake128 s (pos + 2)) = some 0 := fun _ _ => by
    simp only [constHash_shake128]; exact coeffFromThreeBytes_zero
  have h2 : ∀ s pos, coeffFromHalfByte p (((constHash 0x55).shake256 s pos).toNat % 16) = some 2 ∧
      coeffFromHalfByte p (((constHash 0x55).shake256 s pos).toNat / 16) = some 2 := fun _ _ => by
    rw [constHash_shake256]; decide
  have hN : rejNttPoly (constHash 0x55) [] 256 = .ok (List.replicate 256 0) := rejNttPoly_const le_rfl (h0 [])
  have hB : rejBoundedPoly p (constHash 0x55) [] 128 = .ok (List.replicate 256 2) :=
    rejBoundedPoly_const (le_refl 128) (fun pos => (h2 [] pos).1) fun pos => (h2 [] pos).2
  have hA : expandA p (constHash 0x55) [] 256 = .ok A := expandA_const le_rfl h0
  have hS : expandS p (constHash 0x55) [] 128 = .ok (s1, s2) :=
    expandS_const (le_refl 128) (fun s pos => (h2 s pos).1) fun s pos => (h2 s pos).2
  exact ⟨⟨hN, rejection_samplers_in_range.1 _ _ _ _ hN⟩, ⟨hB, rejection_samplers_in_range.2.1 _ _ _ _ _ hB⟩,
    ⟨hA, rejection_samplers_in_range.2.2.1 _ _ _ _ _ hA⟩, ⟨hS, rejection_samplers_in_range.2.2.2 _ _ _ _ _ _ hS⟩⟩

end MlDsa
