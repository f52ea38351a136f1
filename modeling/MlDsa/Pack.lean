import MlDsa.Bits

/-!
# Bit packing of polynomials

Algorithms 16–19 of FIPS 204. The two unpackers share one loop, which reads
coefficient `i` from bits `i * c, …, (i + 1) * c - 1`.
-/

namespace MlDsa

set_option autoImplicit false

/-- Algorithm 16, `SimpleBitPack(w, b)`: `for i in range(256)`, the
`bit_length(b)` bits of `w[i]`. -/
def simpleBitPack (w : List ℤ) (b : ℕ) : Bytes :=
  bitsToBytes ((List.range 256).flatMap fun i => integerToBits (w.getD i 0) (bitLength b))

/-- Algorithm 17, `BitPack(w, a, b)`: `for wi in w`, the `bit_length(a + b)`
bits of `b - wi`. -/
def bitPack (w : List ℤ) (a b : ℕ) : Bytes :=
  bitsToBytes (w.flatMap fun wi => integerToBits (b - wi) (bitLength (a + b)))

/-- The loop of `simple_bit_unpack` and `bit_unpack`: coefficient `i` is
`g(BitsToInteger(z[i*c:(i+1)*c], c))` with `z = BytesToBits(v)`. -/
def unpackChunks (c : ℕ) (g : ℕ → ℤ) (v : Bytes) : Except Fault (List ℤ) :=
  let z := bytesToBits v
  (List.range 256).mapM fun i => do
    let x ← bitsToInteger (slice z (i * c) ((i + 1) * c)) c
    pure (g x)

/-- Algorithm 18, `SimpleBitUnpack(v, b)`. -/
def simpleBitUnpack (v : Bytes) (b : ℕ) : Except Fault (List ℤ) :=
  unpackChunks (bitLength b) (fun x => x) v

/-- Algorithm 19, `BitUnpack(v, a, b)`. -/
def bitUnpack (v : Bytes) (a b : ℕ) : Except Fault (List ℤ) :=
  unpackChunks (bitLength (a + b)) (fun x => b - x) v

section Chunks

variable {α β : Type} (f : α → List β) (c : ℕ)

theorem drop_flatMap_of_length (hf : ∀ a, (f a).length = c) :
    ∀ (L : List α) (i : ℕ), (L.flatMap f).drop (i * c) = (L.drop i).flatMap f
  | [], _ => by simp
  | _ :: _, 0 => by simp
  | a :: L, i + 1 => by
    have h1 : (f a ++ L.flatMap f).drop c = L.flatMap f := by rw [← hf a]; exact List.drop_left _ _
    rw [List.flatMap_cons, Nat.succ_mul, Nat.add_comm, ← List.drop_drop, h1,
      drop_flatMap_of_length hf L i]
    rfl

theorem take_flatMap_of_length (hf : ∀ a, (f a).length = c) :
    ∀ (L : List α) (i : ℕ), (L.flatMap f).take (i * c) = (L.take i).flatMap f
  | [], _ => by simp
  | _ :: _, 0 => by simp
  | a :: L, i + 1 => by
    rw [List.flatMap_cons, Nat.succ_mul, Nat.add_comm, List.take_append_eq_append_take,
      List.take_of_length_le (by rw [hf a]; omega), hf a, show c + i * c - c = i * c by omega,
      take_flatMap_of_length hf L i]
    rfl

theorem length_flatMap_of_length (L : List α) (hf : ∀ a ∈ L, (f a).length = c) :
    (L.flatMap f).length = L.length * c := by
  induction L with
  | nil => simp
  | cons a L ih =>
    rw [List.flatMap_cons, List.length_append, ih (fun b hb => hf b (List.mem_cons_of_mem a hb)),
      hf a (List.mem_cons_self a L), List.length_cons, Nat.succ_mul]
    omega

theorem slice_flatMap_of_length (hf : ∀ a, (f a).length = c) (L : List α) {i : ℕ}
    (hi : i < L.length) : slice (L.flatMap f) (i * c) ((i + 1) * c) = f L[i] := by
  rw [slice, take_flatMap_of_length f c hf, drop_flatMap_of_length f c hf, List.drop_take,
    Nat.add_sub_cancel_left, List.drop_eq_getElem_cons hi, List.take_succ_cons, List.take_zero,
    List.flatMap_cons, List.flatMap_nil, List.append_nil]

theorem flatMap_slice (z : List β) :
    ∀ n : ℕ, (List.range n).flatMap (fun i => slice z (i * c) ((i + 1) * c)) = z.take (n * c)
  | 0 => by simp
  | n + 1 => by
    have hs : slice z (n * c) ((n + 1) * c) = (z.drop (n * c)).take c := by
      rw [slice, List.drop_take, Nat.succ_mul, Nat.add_sub_cancel_left]
    rw [List.range_succ, List.flatMap_append, flatMap_slice z n, List.flatMap_singleton, hs,
      Nat.succ_mul, List.take_add]

end Chunks

theorem flatMap_inj_of_length {α β : Type} {f : α → List β} {P : α → Prop} {L : ℕ} (hL : 0 < L)
    (hlen : ∀ a, P a → (f a).length = L) (hinj : ∀ a b, P a → P b → f a = f b → a = b) :
    ∀ (as bs : List α), (∀ a ∈ as, P a) → (∀ b ∈ bs, P b) → as.flatMap f = bs.flatMap f → as = bs
  | [], [], _, _, _ => rfl
  | [], b :: _, _, hb, h => by
    have e := congrArg List.length h
    rw [List.flatMap_cons, List.length_append, hlen b (hb b (List.mem_cons_self _ _))] at e
    simp at e; omega
  | a :: _, [], ha, _, h => by
    have e := congrArg List.length h
    rw [List.flatMap_cons, List.length_append, hlen a (ha a (List.mem_cons_self _ _))] at e
    simp at e; omega
  | a :: as, b :: bs, ha, hb, h => by
    have pa := ha a (List.mem_cons_self _ _)
    have pb := hb b (List.mem_cons_self _ _)
    rw [List.flatMap_cons, List.flatMap_cons] at h
    obtain ⟨h1, h2⟩ := List.append_inj h (by rw [hlen a pa, hlen b pb])
    rw [hinj a b pa pb h1, flatMap_inj_of_length hL hlen hinj as bs (fun x hx => ha x (List.mem_cons_of_mem _ hx))
      (fun x hx => hb x (List.mem_cons_of_mem _ hx)) h2]

theorem length_slice_chunk {z : Bits} {c i n : ℕ} (hi : i < n) (hz : n * c ≤ z.length) :
    (slice z (i * c) ((i + 1) * c)).length = c := by
  have hle : (i + 1) * c ≤ n * c := Nat.mul_le_mul_right c (by omega)
  rw [length_slice, Nat.min_eq_left (by omega), Nat.succ_mul]
  omega

theorem unpackChunks_eq (c : ℕ) (g : ℕ → ℤ) (v : Bytes) :
    unpackChunks c g v =
      if 256 * c ≤ 8 * v.length then
        .ok ((List.range 256).map fun i => g (ofBits (slice (bytesToBits v) (i * c) ((i + 1) * c))))
      else .error .indexError := by
  by_cases h : 256 * c ≤ 8 * v.length
  · rw [if_pos h]
    apply mapM_eq_ok
    intro i hi
    have hs := length_slice_chunk (z := bytesToBits v) (c := c) (List.mem_range.mp hi)
      (by simpa using h)
    rw [bitsToInteger_of_le hs.ge, List.take_of_length_le hs.le]
    rfl
  · rw [if_neg h]
    apply mapM_eq_error
    · refine ⟨255, by simp, ?_⟩
      rw [bitsToInteger_eq, if_neg (by simp; omega)]
      rfl
    · intro i _ e he
      rw [bitsToInteger_eq] at he
      split at he <;> cases he
      rfl

theorem unpackChunks_ok (c : ℕ) (g : ℕ → ℤ) {v : Bytes} (hv : 256 * c ≤ 8 * v.length) :
    unpackChunks c g v =
      .ok ((List.range 256).map fun i => g (ofBits (slice (bytesToBits v) (i * c) ((i + 1) * c)))) := by
  rw [unpackChunks_eq, if_pos hv]

theorem length_of_unpackChunks {c : ℕ} {g : ℕ → ℤ} {v : Bytes} {w : List ℤ}
    (h : unpackChunks c g v = .ok w) : w.length = 256 := by
  rw [unpackChunks_eq] at h
  split_ifs at h
  cases h
  simp

theorem bitUnpack_mem {v : Bytes} {a b : ℕ} {w : List ℤ} (h : bitUnpack v a b = .ok w) :
    ∀ x ∈ w, (b : ℤ) - (2 ^ bitLength (a + b) - 1) ≤ x ∧ x ≤ b := by
  rw [bitUnpack, unpackChunks_eq] at h
  split_ifs at h with hv
  cases h
  intro x hx
  obtain ⟨i, hi, rfl⟩ := List.mem_map.mp hx
  have hs := length_slice_chunk (z := bytesToBits v) (c := bitLength (a + b)) (n := 256) (List.mem_range.mp hi)
    (by rw [length_bytesToBits]; omega)
  have hlt := ofBits_lt (slice (bytesToBits v) (i * bitLength (a + b)) ((i + 1) * bitLength (a + b)))
  rw [hs] at hlt
  have hlt' : ((ofBits (slice (bytesToBits v) (i * bitLength (a + b)) ((i + 1) * bitLength (a + b))) : ℕ) : ℤ) <
      2 ^ bitLength (a + b) := by exact_mod_cast hlt
  omega

theorem flatMap_unpacked (c : ℕ) (v : Bytes) (hv : 8 * v.length = 256 * c) :
    ((List.range 256).flatMap fun i =>
      integerToBits (ofBits (slice (bytesToBits v) (i * c) ((i + 1) * c))) c) = bytesToBits v := by
  calc ((List.range 256).flatMap fun i =>
        integerToBits (ofBits (slice (bytesToBits v) (i * c) ((i + 1) * c))) c)
      = (List.range 256).flatMap fun i => slice (bytesToBits v) (i * c) ((i + 1) * c) := by
        apply List.flatMap_congr
        intro i hi
        have hs := length_slice_chunk (z := bytesToBits v) (c := c) (n := 256)
          (List.mem_range.mp hi) (by simp; omega)
        conv_rhs => rw [← integerToBits_ofBits (slice (bytesToBits v) (i * c) ((i + 1) * c))]
        rw [hs]
    _ = bytesToBits v := by
        rw [flatMap_slice, List.take_of_length_le (by simp; omega)]

@[simp] theorem length_bitPack (w : List ℤ) (a b : ℕ) :
    (bitPack w a b).length = w.length * bitLength (a + b) / 8 := by
  rw [bitPack, length_bitsToBytes, length_flatMap_of_length _ _ _ (fun _ _ => length_integerToBits _ _)]

@[simp] theorem length_simpleBitPack (w : List ℤ) (b : ℕ) :
    (simpleBitPack w b).length = 32 * bitLength b := by
  rw [simpleBitPack, length_bitsToBytes,
    length_flatMap_of_length _ _ _ (fun _ _ => length_integerToBits _ _), List.length_range]
  omega

/-- `BitUnpack(BitPack(w, a, b), a, b) = w` for 256 coefficients in `[-a, b]`. -/
theorem bitUnpack_bitPack (w : List ℤ) (a b : ℕ) (hw : w.length = 256)
    (hr : ∀ x ∈ w, -(a : ℤ) ≤ x ∧ x ≤ b) : bitUnpack (bitPack w a b) a b = .ok w := by
  set c := bitLength (a + b)
  have hc : ((a + b : ℕ) : ℤ) < 2 ^ c := by exact_mod_cast lt_two_pow_bitLength (a + b)
  have hlen : ∀ x, (integerToBits ((b : ℤ) - x) c).length = c := fun x => length_integerToBits _ _
  have hbits : (w.flatMap fun wi => integerToBits (b - wi) c).length = 256 * c := by
    rw [length_flatMap_of_length _ _ _ (fun a _ => hlen a), hw]
  rw [bitUnpack, unpackChunks_ok _ _ (by rw [bitPack, length_bitsToBytes, hbits]; omega)]
  congr 1
  apply List.ext_getElem (by simp [hw])
  intro i hi _
  simp only [List.length_map, List.length_range] at hi
  rw [List.getElem_map, List.getElem_range, bitPack,
    bytesToBits_bitsToBytes _ (by rw [hbits]; omega),
    slice_flatMap_of_length _ c hlen w (by omega)]
  have hx := hr w[i] (List.getElem_mem _)
  have := ofBits_integerToBits c ((b : ℤ) - w[i]) (by omega) (by push_cast at hc; omega)
  omega

theorem bitPack_bitUnpack (v : Bytes) (a b : ℕ) (hv : v.length = 32 * bitLength (a + b)) :
    ∃ w, bitUnpack v a b = .ok w ∧ bitPack w a b = v := by
  refine ⟨_, unpackChunks_ok _ _ (by omega), ?_⟩
  rw [bitPack, List.flatMap_map]
  simp only [sub_sub_cancel]
  rw [flatMap_unpacked _ v (by omega), bitsToBytes_bytesToBits]

theorem simpleBitUnpack_simpleBitPack (w : List ℤ) (b : ℕ) (hw : w.length = 256)
    (hr : ∀ x ∈ w, 0 ≤ x ∧ x ≤ b) : simpleBitUnpack (simpleBitPack w b) b = .ok w := by
  set c := bitLength b
  have hc : (b : ℤ) < 2 ^ c := by exact_mod_cast lt_two_pow_bitLength b
  have hlen : ∀ i, (integerToBits (w.getD i 0) c).length = c := fun i => length_integerToBits _ _
  have hbits : ((List.range 256).flatMap fun i => integerToBits (w.getD i 0) c).length =
      256 * c := by
    rw [length_flatMap_of_length _ _ _ (fun a _ => hlen a), List.length_range]
  rw [simpleBitUnpack, unpackChunks_ok _ _ (by rw [simpleBitPack, length_bitsToBytes, hbits]; omega)]
  congr 1
  apply List.ext_getElem (by simp [hw])
  intro i hi _
  simp only [List.length_map, List.length_range] at hi
  rw [List.getElem_map, List.getElem_range, simpleBitPack,
    bytesToBits_bitsToBytes _ (by rw [hbits]; omega),
    slice_flatMap_of_length _ c hlen (List.range 256) (by simpa using hi), List.getElem_range,
    List.getD_eq_getElem?_getD, List.getElem?_eq_getElem (by omega), Option.getD_some]
  have hx := hr w[i] (List.getElem_mem _)
  exact ofBits_integerToBits c w[i] hx.1 (by omega)

theorem simpleBitPack_inj {w w' : List ℤ} {b : ℕ} (hw : w.length = 256 ∧ ∀ x ∈ w, 0 ≤ x ∧ x ≤ b)
    (hw' : w'.length = 256 ∧ ∀ x ∈ w', 0 ≤ x ∧ x ≤ b) (h : simpleBitPack w b = simpleBitPack w' b) : w = w' := by
  have e := simpleBitUnpack_simpleBitPack w b hw.1 hw.2
  rw [h, simpleBitUnpack_simpleBitPack w' b hw'.1 hw'.2] at e
  exact (Except.ok.inj e).symm

theorem simpleBitPack_simpleBitUnpack (v : Bytes) (b : ℕ) (hv : v.length = 32 * bitLength b) :
    ∃ w, simpleBitUnpack v b = .ok w ∧ simpleBitPack w b = v := by
  refine ⟨_, unpackChunks_ok _ _ (by omega), ?_⟩
  rw [simpleBitPack]
  conv_rhs => rw [← bitsToBytes_bytesToBits v, ← flatMap_unpacked (bitLength b) v (by omega)]
  apply congrArg bitsToBytes
  apply List.flatMap_congr
  intro i hi
  rw [List.mem_range] at hi
  rw [List.getD_eq_getElem?_getD,
    List.getElem?_eq_getElem (by rw [List.length_map, List.length_range]; exact hi),
    Option.getD_some, List.getElem_map, List.getElem_range]

theorem bit_packing_round_trips :
    (∀ (a b : ℕ) (w : List ℤ), w.length = 256 → (∀ x ∈ w, -(a : ℤ) ≤ x ∧ x ≤ b) →
      bitUnpack (bitPack w a b) a b = .ok w ∧ (bitPack w a b).length = 32 * bitLength (a + b)) ∧
    (∀ (b : ℕ) (w : List ℤ), w.length = 256 → (∀ x ∈ w, 0 ≤ x ∧ x ≤ b) →
      simpleBitUnpack (simpleBitPack w b) b = .ok w) ∧
    (∀ (a b : ℕ) (v : Bytes), v.length = 32 * bitLength (a + b) →
      ∃ w, bitUnpack v a b = .ok w ∧ bitPack w a b = v) ∧
    (∀ z : Bytes, bitsToBytes (bytesToBits z) = z) ∧
    (∀ y : Bits, y.length % 8 = 0 → bytesToBits (bitsToBytes y) = y) ∧
    (∀ (alpha : ℕ) (x : ℤ), 0 ≤ x → x < 2 ^ alpha → bitsToInteger (integerToBits x alpha) alpha = .ok x.toNat) :=
  ⟨fun a b w hw hr => ⟨bitUnpack_bitPack w a b hw hr, by rw [length_bitPack, hw]; omega⟩,
    fun b w hw hr => simpleBitUnpack_simpleBitPack w b hw hr, fun a b v hv => bitPack_bitUnpack v a b hv,
    bitsToBytes_bytesToBits, bytesToBits_bitsToBytes, fun alpha x h0 h1 => bitsToInteger_integerToBits alpha x h0 h1⟩

theorem bit_packing_round_trips_zero :
    (bitUnpack (bitPack (List.replicate 256 0) 2 2) 2 2 = .ok (List.replicate 256 0) ∧
      (bitPack (List.replicate 256 0) 2 2).length = 32 * bitLength (2 + 2)) ∧
    simpleBitUnpack (simpleBitPack (List.replicate 256 0) 1) 1 = .ok (List.replicate 256 0) ∧
    (∃ w, bitUnpack (List.replicate 96 0) 2 2 = .ok w ∧ bitPack w 2 2 = List.replicate 96 0) ∧
    bitsToBytes (bytesToBits []) = [] ∧ bytesToBits (bitsToBytes []) = [] ∧
    bitsToInteger (integerToBits 0 0) 0 = .ok 0 := by
  have hz : ∀ (P : ℤ → Prop), P 0 → ∀ x ∈ List.replicate 256 (0 : ℤ), P x :=
    fun P h0 x hx => by rw [List.eq_of_mem_replicate hx]; exact h0
  exact ⟨bit_packing_round_trips.1 2 2 _ (List.length_replicate _ _) (hz _ (by decide)),
    bit_packing_round_trips.2.1 1 _ (List.length_replicate _ _) (hz _ (by decide)),
    bit_packing_round_trips.2.2.1 2 2 _ (by rw [List.length_replicate]; decide),
    bit_packing_round_trips.2.2.2.1 [], bit_packing_round_trips.2.2.2.2.1 [] rfl,
    bit_packing_round_trips.2.2.2.2.2 0 0 le_rfl (by decide)⟩

end MlDsa
