import MlDsa.Basic
import Mathlib.Algebra.Order.Ring.Int
import Mathlib.Data.List.Basic

/-!
# Conversion between integers, bits and bytes

Algorithms 9–13 of FIPS 204 and `int.bit_length`. Bits are little-endian; the
source's bit `bytearray`s, which hold only `0` and `1`, are `List Bool`.
-/

namespace MlDsa

set_option autoImplicit false

def bitLengthAux : ℕ → ℕ → ℕ
  | 0, _ => 0
  | fuel + 1, n => if n = 0 then 0 else bitLengthAux fuel (n / 2) + 1

/-- Python `int(n).bit_length()` for `0 ≤ n`. -/
def bitLength (n : ℕ) : ℕ := bitLengthAux n n

abbrev Bits := List Bool

/-- Algorithm 9, `IntegerToBits(x, alpha)`: `y[i] = x & 1; x >>= 1`. -/
def integerToBits (x : ℤ) : ℕ → Bits
  | 0 => []
  | alpha + 1 => decide (x % 2 = 1) :: integerToBits (x / 2) alpha

def ofBits : Bits → ℕ
  | [] => 0
  | b :: bs => b.toNat + 2 * ofBits bs

/-- Algorithm 10, `BitsToInteger(y, alpha)`: `x = 2 * x + y[alpha - i]` for
`i = 1, …, alpha`. -/
def bitsToInteger (y : Bits) (alpha : ℕ) : Except Fault ℕ :=
  (List.range' 1 alpha).foldlM (fun x i => do
    let b ← pyGet y (alpha - i)
    pure (2 * x + b.toNat)) 0

/-- Algorithm 11, `IntegerToBytes(x, alpha)`: `y[i] = x & 0xFF; x >>= 8`. -/
def integerToBytes (x : ℤ) : ℕ → Bytes
  | 0 => []
  | alpha + 1 => UInt8.ofNat (x % 256).toNat :: integerToBytes (x / 256) alpha

/-- Algorithm 12, `BitsToBytes(y)`: byte `i` is `Σ_j y[8i + j] << j`. The source
raises `IndexError` on a partial last group; every caller passes a multiple
of 8 bits. -/
def bitsToBytes : Bits → Bytes
  | b0 :: b1 :: b2 :: b3 :: b4 :: b5 :: b6 :: b7 :: y =>
      UInt8.ofNat (ofBits [b0, b1, b2, b3, b4, b5, b6, b7]) :: bitsToBytes y
  | _ => []

def byteBits (x : UInt8) : Bits := (List.range 8).map x.toNat.testBit

/-- Algorithm 13, `BytesToBits(z)`. -/
def bytesToBits (z : Bytes) : Bits := z.flatMap byteBits

theorem lt_two_pow_bitLengthAux : ∀ (fuel n : ℕ), n ≤ fuel → n < 2 ^ bitLengthAux fuel n
  | 0, n, h => by simp [bitLengthAux]; omega
  | fuel + 1, n, h => by
    by_cases hn : n = 0
    · simp [hn, bitLengthAux]
    · have ih := lt_two_pow_bitLengthAux fuel (n / 2) (by omega)
      simp only [bitLengthAux, hn, if_false, pow_succ]
      omega

theorem lt_two_pow_bitLength (n : ℕ) : n < 2 ^ bitLength n :=
  lt_two_pow_bitLengthAux n n le_rfl

@[simp] theorem length_integerToBits (x : ℤ) (alpha : ℕ) :
    (integerToBits x alpha).length = alpha := by
  induction alpha generalizing x <;> simp [integerToBits, *]

theorem ofBits_integerToBits (alpha : ℕ) (x : ℤ) (h0 : 0 ≤ x) (h1 : x < 2 ^ alpha) :
    (ofBits (integerToBits x alpha) : ℤ) = x := by
  induction alpha generalizing x with
  | zero => simp [integerToBits, ofBits]; omega
  | succ alpha ih =>
    have hp : (2 : ℤ) ^ (alpha + 1) = 2 * 2 ^ alpha := pow_succ' (2 : ℤ) alpha
    have hx := ih (x / 2) (by omega) (by omega)
    by_cases hb : x % 2 = 1 <;> simp [integerToBits, ofBits, hb, hx] <;> omega

theorem ofBits_lt (bs : Bits) : ofBits bs < 2 ^ bs.length := by
  induction bs with
  | nil => simp [ofBits]
  | cons b bs ih => cases b <;> simp [ofBits, pow_succ] <;> omega

theorem integerToBits_ofBits (bs : Bits) : integerToBits (ofBits bs) bs.length = bs := by
  induction bs with
  | nil => rfl
  | cons b bs ih =>
    have h2 : ((b.toNat + 2 * ofBits bs : ℕ) : ℤ) / 2 = ofBits bs := by cases b <;> simp; omega
    simp only [ofBits, List.length_cons, integerToBits, h2, ih]
    cases b <;> simp

theorem bitsToInteger_cons (b : Bool) (y : Bits) (alpha : ℕ) :
    bitsToInteger (b :: y) (alpha + 1) =
      (bitsToInteger y alpha).bind fun x => .ok (2 * x + b.toNat) := by
  have hbody : (List.range' 1 alpha).foldlM (fun x i => do
      let c ← pyGet (b :: y) (alpha + 1 - i); pure (2 * x + c.toNat)) 0 =
      bitsToInteger y alpha := by
    apply foldlM_congr
    intro i hi x
    rw [List.mem_range'_1] at hi
    rw [show alpha + 1 - i = (alpha - i) + 1 by omega, pyGet_cons_succ]
  rw [bitsToInteger, List.range'_concat, List.foldlM_append, hbody]
  cases bitsToInteger y alpha with
  | error e => rfl
  | ok x =>
    simp only [List.foldlM_cons, List.foldlM_nil, show alpha + 1 - (1 + 1 * alpha) = 0 by omega,
      pyGet_cons_zero]
    rfl

theorem bitsToInteger_nil (alpha : ℕ) :
    bitsToInteger [] (alpha + 1) = .error .indexError := by
  rw [bitsToInteger, List.range'_succ, List.foldlM_cons, Nat.add_sub_cancel, pyGet_nil]
  rfl

/-- `BitsToInteger(y, alpha)` reads the first `alpha` bits of `y`, and raises
`IndexError` when `y` is shorter. -/
theorem bitsToInteger_eq (y : Bits) (alpha : ℕ) :
    bitsToInteger y alpha =
      if alpha ≤ y.length then .ok (ofBits (y.take alpha)) else .error .indexError := by
  induction y generalizing alpha with
  | nil => cases alpha with
    | zero => rfl
    | succ alpha => simp [bitsToInteger_nil]
  | cons b y ih =>
    cases alpha with
    | zero => rfl
    | succ alpha =>
      rw [bitsToInteger_cons, ih]
      by_cases h : alpha ≤ y.length
      · simp [h, Except.bind, ofBits]; omega
      · simp [h, Except.bind]

theorem bitsToInteger_of_le {y : Bits} {alpha : ℕ} (h : alpha ≤ y.length) :
    bitsToInteger y alpha = .ok (ofBits (y.take alpha)) := by
  rw [bitsToInteger_eq, if_pos h]

theorem bitsToInteger_integerToBits (alpha : ℕ) (x : ℤ) (h0 : 0 ≤ x) (h1 : x < 2 ^ alpha) :
    bitsToInteger (integerToBits x alpha) alpha = .ok x.toNat := by
  rw [bitsToInteger_of_le (by simp), List.take_of_length_le (by simp)]
  congr 1
  have := ofBits_integerToBits alpha x h0 h1
  omega

theorem ofBits_testBit (k n : ℕ) : ofBits ((List.range k).map n.testBit) = n % 2 ^ k := by
  induction k generalizing n with
  | zero => simp [ofBits, Nat.mod_one]
  | succ k ih =>
    rw [List.range_succ_eq_map, List.map_cons, List.map_map, ofBits]
    have hf : (n.testBit ∘ Nat.succ) = (n / 2).testBit := by
      funext j; exact Nat.testBit_succ n j
    rw [hf, ih, Nat.testBit_zero, pow_succ', Nat.mod_mul]
    rcases Nat.mod_two_eq_zero_or_one n with h | h <;> simp [h]

theorem testBit_ofBits (bs : Bits) (j : ℕ) : (ofBits bs).testBit j = bs.getD j false := by
  induction bs generalizing j with
  | nil => simp [ofBits]
  | cons b bs ih =>
    cases j with
    | zero => cases b <;> simp [ofBits, Nat.add_mod]
    | succ j =>
      rw [Nat.testBit_succ, ofBits, show (b.toNat + 2 * ofBits bs) / 2 = ofBits bs by
        cases b <;> simp only [Bool.toNat_false, Bool.toNat_true] <;> omega, ih]
      rfl

@[simp] theorem length_byteBits (x : UInt8) : (byteBits x).length = 8 := by simp [byteBits]

@[simp] theorem length_bytesToBits (z : Bytes) : (bytesToBits z).length = 8 * z.length := by
  induction z with
  | nil => rfl
  | cons x z ih => simp [bytesToBits] at *; omega

theorem getD_bytesToBits : ∀ (z : Bytes) {t : ℕ}, t < 8 * z.length →
    (bytesToBits z).getD t false = (z.getD (t / 8) 0).toNat.testBit (t % 8)
  | [], t, ht => by simp at ht
  | x :: z, t, ht => by
    rw [bytesToBits, List.flatMap_cons]
    by_cases h8 : t < 8
    · rw [List.getD_append _ _ _ _ (by rw [length_byteBits]; exact h8), byteBits, getD_map_range _ h8,
        Nat.div_eq_of_lt h8, Nat.mod_eq_of_lt h8]
      rfl
    · obtain ⟨s, rfl⟩ : ∃ s, t = s + 8 := ⟨t - 8, by omega⟩
      rw [List.getD_append_right _ _ _ _ (by rw [length_byteBits]; omega), length_byteBits,
        Nat.add_sub_cancel, ← bytesToBits, getD_bytesToBits z (by simp at ht; omega),
        Nat.add_div_right _ (by omega), Nat.add_mod_right]
      rfl

theorem ofBits_byteBits (x : UInt8) : ofBits (byteBits x) = x.toNat := by
  have hx : x.toNat < 2 ^ 8 := x.toNat_lt_size
  rw [byteBits, ofBits_testBit, Nat.mod_eq_of_lt hx]

theorem bitsToBytes_eight_append (b0 b1 b2 b3 b4 b5 b6 b7 : Bool) (y : Bits) :
    bitsToBytes ([b0, b1, b2, b3, b4, b5, b6, b7] ++ y) =
      UInt8.ofNat (ofBits [b0, b1, b2, b3, b4, b5, b6, b7]) :: bitsToBytes y := rfl

theorem byteBits_eq (x : UInt8) : ∃ b0 b1 b2 b3 b4 b5 b6 b7 : Bool,
    byteBits x = [b0, b1, b2, b3, b4, b5, b6, b7] :=
  ⟨_, _, _, _, _, _, _, _, rfl⟩

theorem ofNat_toNat (x : UInt8) : UInt8.ofNat x.toNat = x := by
  apply UInt8.eq_of_toBitVec_eq
  simp [UInt8.ofNat, UInt8.toNat]

@[simp] theorem bitsToBytes_bytesToBits (z : Bytes) : bitsToBytes (bytesToBits z) = z := by
  induction z with
  | nil => rfl
  | cons x z ih =>
    obtain ⟨b0, b1, b2, b3, b4, b5, b6, b7, hx⟩ := byteBits_eq x
    have hv := ofBits_byteBits x
    rw [hx] at hv
    rw [bytesToBits, List.flatMap_cons, hx, bitsToBytes_eight_append, hv, ofNat_toNat]
    exact congrArg _ ih

theorem map_getD_range {α : Type} (l : List α) (d : α) :
    (List.range l.length).map (fun j => l.getD j d) = l := by
  induction l with
  | nil => rfl
  | cons b l ih =>
    rw [List.length_cons, List.range_succ_eq_map, List.map_cons, List.map_map]
    exact congrArg _ ih

theorem byteBits_ofNat_ofBits (b0 b1 b2 b3 b4 b5 b6 b7 : Bool) :
    byteBits (UInt8.ofNat (ofBits [b0, b1, b2, b3, b4, b5, b6, b7])) =
      [b0, b1, b2, b3, b4, b5, b6, b7] := by
  have hlt : ofBits [b0, b1, b2, b3, b4, b5, b6, b7] < UInt8.size := by
    simpa using ofBits_lt [b0, b1, b2, b3, b4, b5, b6, b7]
  rw [byteBits, UInt8.toNat_ofNat_of_lt hlt]
  have hf : (ofBits [b0, b1, b2, b3, b4, b5, b6, b7]).testBit =
      fun j => [b0, b1, b2, b3, b4, b5, b6, b7].getD j false := funext (testBit_ofBits _)
  rw [hf]
  exact map_getD_range [b0, b1, b2, b3, b4, b5, b6, b7] false

theorem bytesToBits_bitsToBytes :
    ∀ y : Bits, y.length % 8 = 0 → bytesToBits (bitsToBytes y) = y
  | b0 :: b1 :: b2 :: b3 :: b4 :: b5 :: b6 :: b7 :: y, h => by
    have ih := bytesToBits_bitsToBytes y (by simp only [List.length_cons] at h; omega)
    simp only [bitsToBytes, bytesToBits, List.flatMap_cons] at ih ⊢
    rw [byteBits_ofNat_ofBits, ih]
    rfl
  | [], _ => rfl
  | [_], h | [_, _], h | [_, _, _], h | [_, _, _, _], h | [_, _, _, _, _], h
  | [_, _, _, _, _, _], h | [_, _, _, _, _, _, _], h => by simp at h

@[simp] theorem length_bitsToBytes : ∀ y : Bits, (bitsToBytes y).length = y.length / 8
  | b0 :: b1 :: b2 :: b3 :: b4 :: b5 :: b6 :: b7 :: y => by
    simp only [bitsToBytes, List.length_cons, length_bitsToBytes y]
    omega
  | [] | [_] | [_, _] | [_, _, _] | [_, _, _, _] | [_, _, _, _, _] | [_, _, _, _, _, _]
  | [_, _, _, _, _, _, _] => by simp [bitsToBytes]

theorem bitsToBytes_append :
    ∀ y y' : Bits, y.length % 8 = 0 → bitsToBytes (y ++ y') = bitsToBytes y ++ bitsToBytes y'
  | b0 :: b1 :: b2 :: b3 :: b4 :: b5 :: b6 :: b7 :: y, y', h => by
    simp only [List.cons_append, bitsToBytes, List.append_eq,
      bitsToBytes_append y y' (by simp only [List.length_cons] at h; omega)]
  | [], _, _ => rfl
  | [_], _, h | [_, _], _, h | [_, _, _], _, h | [_, _, _, _], _, h | [_, _, _, _, _], _, h
  | [_, _, _, _, _, _], _, h | [_, _, _, _, _, _, _], _, h => by simp at h

theorem integerToBytes_one {x : ℤ} (h0 : 0 ≤ x) (h1 : x < 256) :
    integerToBytes x 1 = [UInt8.ofNat x.toNat] := by
  simp [integerToBytes, Int.emod_eq_of_lt h0 h1]

theorem integerToBytes_add_two_pow (x : ℤ) : integerToBytes (x + 2 ^ 16) 2 = integerToBytes x 2 := by
  simp only [integerToBytes, show (x + 2 ^ 16) % 256 = x % 256 by omega,
    show (x + 2 ^ 16) / 256 % 256 = x / 256 % 256 by omega]

theorem ofBits_replicate_false : ∀ k : ℕ, ofBits (List.replicate k false) = 0
  | 0 => rfl
  | k + 1 => by rw [List.replicate_succ, ofBits, ofBits_replicate_false k]; rfl

theorem bytesToBits_replicate_zero : ∀ n : ℕ, bytesToBits (List.replicate n 0) = List.replicate (8 * n) false
  | 0 => rfl
  | n + 1 => by
    rw [List.replicate_succ, bytesToBits, List.flatMap_cons, ← bytesToBits, bytesToBits_replicate_zero n,
      Nat.mul_succ, Nat.add_comm, List.replicate_add]
    rfl

end MlDsa
