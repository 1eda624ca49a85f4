import FreeRadius.Library.TwosComplement

/-!
# Bits, the highest first

Numbers as sequences of bits, and bytes as sequences of eight bits each, so that fields that do not
begin or end with a byte can be cut out and joined.
-/

namespace Library

open List

section Bits

/-- The lowest `n` bits of a number. -/
def bitsOf : ℕ → ℕ → List Bool
  | 0, _ => []
  | n + 1, v => v.testBit n :: bitsOf n v

/-- The number that a sequence of bits stands for. -/
def bitsValue (bits : List Bool) : ℕ := bits.foldl (fun acc b => 2 * acc + b.toNat) 0

@[simp] theorem length_bitsOf (n v : ℕ) : (bitsOf n v).length = n := by
  induction n with
  | zero => rfl
  | succ n ih => rw [bitsOf, length_cons, ih]

theorem foldl_bits (bits : List Bool) (acc : ℕ) :
    bits.foldl (fun acc b => 2 * acc + b.toNat) acc = acc * 2 ^ bits.length + bitsValue bits := by
  induction bits generalizing acc with
  | nil => simp [bitsValue]
  | cons b bits ih =>
    rw [bitsValue, foldl_cons, foldl_cons, ih, ih (2 * 0 + b.toNat), length_cons, pow_succ]
    ring

theorem bitsValue_cons (b : Bool) (bits : List Bool) :
    bitsValue (b :: bits) = b.toNat * 2 ^ bits.length + bitsValue bits := by
  rw [bitsValue, foldl_cons, foldl_bits, Nat.mul_zero, Nat.zero_add]

theorem bitsValue_append (a b : List Bool) :
    bitsValue (a ++ b) = bitsValue a * 2 ^ b.length + bitsValue b := by
  rw [bitsValue, foldl_append, foldl_bits]
  rfl

theorem bitsValue_lt (bits : List Bool) : bitsValue bits < 2 ^ bits.length := by
  induction bits with
  | nil => decide
  | cons b bits ih =>
    have hb : b.toNat ≤ 1 := Bool.toNat_le b
    rw [bitsValue_cons, length_cons, pow_succ]
    nlinarith

theorem bitsValue_append_div (a b : List Bool) :
    bitsValue (a ++ b) / 2 ^ b.length = bitsValue a := by
  rw [bitsValue_append, Nat.add_comm, Nat.add_mul_div_right _ _ (Nat.two_pow_pos _),
    Nat.div_eq_of_lt (bitsValue_lt b), Nat.zero_add]

theorem bitsValue_bitsOf (n v : ℕ) : bitsValue (bitsOf n v) = v % 2 ^ n := by
  induction n with
  | zero => simp [bitsOf, bitsValue, Nat.mod_one]
  | succ n ih =>
    have hbit : (v.testBit n).toNat = v / 2 ^ n % 2 := by
      rw [Nat.testBit_eq_decide_div_mod_eq]
      obtain h | h := Nat.mod_two_eq_zero_or_one (v / 2 ^ n) <;> simp [h]
    rw [bitsOf, bitsValue_cons, ih, length_bitsOf, hbit, Nat.mod_pow_succ]
    ring

theorem bitsValue_inj : ∀ {a b : List Bool}, a.length = b.length → bitsValue a = bitsValue b → a = b
  | [], [], _, _ => rfl
  | x :: a, y :: b, hlen, h => by
    have hlen' : a.length = b.length := Nat.succ.inj hlen
    rw [bitsValue_cons, bitsValue_cons, hlen'] at h
    have ha := bitsValue_lt a
    have hb := bitsValue_lt b
    rw [hlen'] at ha
    have hhead : x = y := by
      cases x <;> cases y <;> simp only [Bool.toNat_false, Bool.toNat_true] at h <;>
        first | rfl | omega
    subst hhead
    rw [bitsValue_inj hlen' (Nat.add_left_cancel h)]

theorem bitsValue_replicate_false (k : ℕ) : bitsValue (replicate k false) = 0 := by
  induction k with
  | zero => rfl
  | succ k ih => rw [replicate_succ, bitsValue_cons, ih, Bool.toNat_false, Nat.zero_mul]

theorem bitsValue_replicate_append (k : ℕ) (bits : List Bool) :
    bitsValue (replicate k false ++ bits) = bitsValue bits := by
  rw [bitsValue_append, bitsValue_replicate_false, Nat.zero_mul, Nat.zero_add]

theorem drop_bitsOf (k n v : ℕ) : (bitsOf (k + n) v).drop k = bitsOf n v := by
  induction k with
  | zero => rw [Nat.zero_add, drop_zero]
  | succ k ih => rw [Nat.succ_add, bitsOf, drop_succ_cons, ih]

theorem take_bitsOf (k n v : ℕ) : (bitsOf (k + n) v).take k = bitsOf k (v / 2 ^ n) := by
  induction k with
  | zero => rfl
  | succ k ih =>
    rw [Nat.succ_add, bitsOf, take_succ_cons, ih, bitsOf, Nat.testBit_div_two_pow]

theorem bitsOf_mod (k n v : ℕ) :
    bitsOf (k + n) (v % 2 ^ n) = replicate k false ++ bitsOf n v := by
  refine bitsValue_inj (by simp) ?_
  have hle : v % 2 ^ n < 2 ^ (k + n) :=
    (Nat.mod_lt v (Nat.two_pow_pos n)).trans_le (Nat.pow_le_pow_right (by decide) (by omega))
  rw [bitsValue_bitsOf, bitsValue_replicate_append, bitsValue_bitsOf, Nat.mod_eq_of_lt hle]

end Bits

section Bytes

/-- The bits of a sequence of bytes. -/
def byteBits (bytes : List UInt8) : List Bool := bytes.flatMap fun b => bitsOf 8 b.toNat

@[simp] theorem byteBits_nil : byteBits [] = [] := rfl

theorem byteBits_cons (b : UInt8) (bytes : List UInt8) :
    byteBits (b :: bytes) = bitsOf 8 b.toNat ++ byteBits bytes := rfl

theorem byteBits_append (a b : List UInt8) : byteBits (a ++ b) = byteBits a ++ byteBits b :=
  flatMap_append

@[simp] theorem length_byteBits (bytes : List UInt8) : (byteBits bytes).length = 8 * bytes.length := by
  induction bytes with
  | nil => rfl
  | cons b bytes ih =>
    rw [byteBits_cons, length_append, length_bitsOf, ih, length_cons]
    ring

theorem bitsValue_byteBits (bytes : List UInt8) : bitsValue (byteBits bytes) = nboValue bytes := by
  induction bytes using List.reverseRecOn with
  | nil => rfl
  | append_singleton bytes b ih =>
    have hb : b.toNat < 2 ^ 8 := b.toNat_lt
    rw [byteBits_append, bitsValue_append, ih, byteBits_cons, byteBits_nil, append_nil,
      bitsValue_bitsOf, length_bitsOf, Nat.mod_eq_of_lt hb, nboValue, nboValue, foldl_append]
    rfl

theorem byteBits_nboBytes {w v : ℕ} (h : v < 256 ^ w) :
    byteBits (nboBytes w v) = bitsOf (8 * w) v := by
  have hpow : 256 ^ w = 2 ^ (8 * w) := by rw [show 256 = 2 ^ 8 by rfl, pow_mul]
  refine bitsValue_inj (by simp) ?_
  rw [bitsValue_byteBits, nboValue_nboBytes h, bitsValue_bitsOf, Nat.mod_eq_of_lt (hpow ▸ h)]

/-- Whole bytes and the beginning of the next one. -/
theorem byteBits_take {bytes : List UInt8} {k : ℕ} (hk : k < bytes.length) {j : ℕ} (hj : j ≤ 8) :
    (byteBits bytes).take (8 * k + j) =
      byteBits (bytes.take k) ++ (bitsOf 8 (bytes.get ⟨k, hk⟩).toNat).take j := by
  induction bytes generalizing k with
  | nil => cases hk
  | cons b bytes ih =>
    cases k with
    | zero =>
      rw [byteBits_cons, take_append_of_le_length (by simpa using hj)]
      simp
    | succ k =>
      have hsplit : 8 * (k + 1) + j = (bitsOf 8 b.toNat).length + (8 * k + j) := by
        rw [length_bitsOf]
        ring
      rw [byteBits_cons, hsplit, take_length_add_append, ih (Nat.lt_of_succ_lt_succ hk),
        take_succ_cons, byteBits_cons, append_assoc]
      rfl

theorem byteBits_take_bytes (bytes : List UInt8) (k : ℕ) :
    byteBits (bytes.take k) = (byteBits bytes).take (8 * k) := by
  induction bytes generalizing k with
  | nil => simp
  | cons b bytes ih =>
    cases k with
    | zero => simp
    | succ k =>
      have hsplit : 8 * (k + 1) = (bitsOf 8 b.toNat).length + 8 * k := by
        rw [length_bitsOf]
        ring
      rw [take_succ_cons, byteBits_cons, byteBits_cons, hsplit, take_length_add_append, ih]

theorem byteBits_drop_bytes (bytes : List UInt8) (k : ℕ) :
    byteBits (bytes.drop k) = (byteBits bytes).drop (8 * k) := by
  refine (append_right_inj ((byteBits bytes).take (8 * k))).mp ?_
  rw [take_append_drop, ← byteBits_take_bytes, ← byteBits_append, take_append_drop]

theorem byteBits_inj {a b : List UInt8} (h : byteBits a = byteBits b) : a = b := by
  have hlen := congrArg List.length h
  rw [length_byteBits, length_byteBits] at hlen
  refine nboValue_inj (by omega) ?_
  rw [← bitsValue_byteBits, h, bitsValue_byteBits]

end Bytes

end Library
