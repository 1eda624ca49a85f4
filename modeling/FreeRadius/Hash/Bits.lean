import FreeRadius.Hash.Model

/-!
# Reversed keys and parents

Two keys agree in their low bits exactly when their reversals agree in the high
ones, so a chain sorted by reversed keys is grouped by masked keys, whatever
the mask. The parent of a bucket is the bucket without its highest bit.
-/

namespace FreeRadius.Hash

open Library List

variable {b key k a : ℕ}

theorem getD_of_all {table : List ℕ} {f : ℕ → ℕ → Bool} (hlen : table.length = 256)
    (h : ((List.range 256).zip table).all (fun e => f e.1 e.2) = true) :
    ∀ b < 256, f b (table.getD b 0) = true := by
  intro b hb
  rw [all_eq_true] at h
  apply h (b, table.getD b 0)
  apply mem_of_getElem? (i := b)
  rw [getElem?_zip_eq_some, getElem?_range hb, getElem?_eq_getElem (by omega)]
  simp [getD_eq_getElem?_getD, hlen, hb]

theorem reversedByte_check : ∀ b < 256, (decide (reversedByte.getD b 0 < 256) &&
    (List.range 8).all fun i => (reversedByte.getD b 0).testBit i == b.testBit (7 - i)) = true :=
  getD_of_all (f := fun b r => decide (r < 256) &&
    (List.range 8).all fun i => r.testBit i == b.testBit (7 - i)) (by decide +kernel) (by decide +kernel)

theorem reversedByte_testBit {i : ℕ} (hb : b < 256) (hi : i < 8) :
    (reversedByte.getD b 0).testBit i = b.testBit (7 - i) := by
  have h := reversedByte_check b hb
  rw [Bool.and_eq_true, all_eq_true] at h
  simpa using h.2 i (mem_range.mpr hi)

theorem reversedByte_lt (hb : b < 256) : reversedByte.getD b 0 < 256 := by
  have h := reversedByte_check b hb
  rw [Bool.and_eq_true] at h
  simpa using h.1

theorem and_byte (n : ℕ) : n &&& 0xff = n % 256 := Nat.and_two_pow_sub_one_eq_mod n 8

theorem reversedByte_shift_testBit (b s i : ℕ) :
    (reversedByte.getD (b % 256) 0 <<< s).testBit i =
      (decide (s ≤ i ∧ i < s + 8) && b.testBit (7 - (i - s))) := by
  have hb : b % 256 < 256 := Nat.mod_lt _ (by norm_num)
  rw [Nat.testBit_shiftLeft]
  by_cases hs : s ≤ i
  · by_cases hi : i < s + 8
    · have hbit := reversedByte_testBit hb (show i - s < 8 by omega)
      rw [hbit, show (256 : ℕ) = 2 ^ 8 by norm_num, Nat.testBit_mod_two_pow]
      simp [hs, hi, show 7 - (i - s) < 8 by omega]
    have hlt : reversedByte.getD (b % 256) 0 < 2 ^ (i - s) := by
      have hpow : 2 ^ 8 ≤ 2 ^ (i - s) := Nat.pow_le_pow_right (by norm_num) (by omega)
      exact lt_of_lt_of_le (reversedByte_lt hb) hpow
    rw [Nat.testBit_lt_two_pow hlt]
    simp [hi]
  · simp [hs]

/-- The last byte is shifted too, by nothing. -/
theorem reverse_eq (key : ℕ) : reverse key =
    reversedByte.getD (key % 256) 0 <<< 24 ||| reversedByte.getD ((key >>> 8) % 256) 0 <<< 16 |||
      reversedByte.getD ((key >>> 16) % 256) 0 <<< 8 |||
      reversedByte.getD ((key >>> 24) % 256) 0 <<< 0 := by
  simp only [reverse, and_byte]
  rfl

theorem reverse_testBit (key : ℕ) {i : ℕ} (hi : i < 32) :
    (reverse key).testBit i = key.testBit (31 - i) := by
  simp only [reverse_eq, Nat.testBit_or, reversedByte_shift_testBit, Nat.testBit_shiftRight]
  by_cases h24 : 24 ≤ i
  · simp [h24, hi, show ¬ i < 24 by omega, show ¬ i < 16 by omega, show ¬ i < 8 by omega,
      show 7 - (i - 24) = 31 - i by omega]
  by_cases h16 : 16 ≤ i
  · simp [h24, h16, show i < 24 by omega, show ¬ i < 16 by omega, show ¬ i < 8 by omega,
      show 8 + (7 - (i - 16)) = 31 - i by omega]
  by_cases h8 : 8 ≤ i
  · simp [h24, h16, h8, show i < 16 by omega, show ¬ i < 8 by omega,
      show 16 + (7 - (i - 8)) = 31 - i by omega]
  · simp [h24, h16, h8, show i < 8 by omega, show 24 + (7 - i) = 31 - i by omega]

theorem mod_two_pow_eq_iff :
    a % 2 ^ k = b % 2 ^ k ↔ ∀ i, i < k → a.testBit i = b.testBit i := by
  constructor
  · intro h i hi
    have hbit := congrArg (fun n => n.testBit i) h
    simpa [Nat.testBit_mod_two_pow, hi] using hbit
  intro h
  refine Nat.eq_of_testBit_eq fun i => ?_
  rw [Nat.testBit_mod_two_pow, Nat.testBit_mod_two_pow]
  by_cases hi : i < k
  · rw [h i hi]
  · simp [hi]

theorem reverse_lt (key : ℕ) : reverse key < 2 ^ 32 := by
  apply Nat.lt_pow_two_of_testBit
  intro i hi
  simp only [reverse_eq, Nat.testBit_or, reversedByte_shift_testBit]
  simp [show ¬ i < 24 + 8 by omega, show ¬ i < 16 + 8 by omega, show ¬ i < 8 + 8 by omega,
    show ¬ i < 0 + 8 by omega]

/-- The part of a reversed key that the low `k` bits of the key decide. -/
def reversedHigh (k reversed : ℕ) : ℕ := reversed / 2 ^ (32 - k)

theorem reversedHigh_mono (k : ℕ) (h : a ≤ b) : reversedHigh k a ≤ reversedHigh k b :=
  Nat.div_le_div_right h

/-- The high bits of the reversal are the low bits of the key. -/
theorem reversedHigh_reverse_eq_iff (hk : k ≤ 32) :
    reversedHigh k (reverse a) = reversedHigh k (reverse b) ↔ a % 2 ^ k = b % 2 ^ k := by
  have hlt : ∀ x, reversedHigh k (reverse x) < 2 ^ k := by
    intro x
    rw [reversedHigh, Nat.div_lt_iff_lt_mul (by positivity), ← pow_add,
      show k + (32 - k) = 32 by omega]
    exact reverse_lt x
  have hbit : ∀ x j, j < k → (reversedHigh k (reverse x)).testBit j = x.testBit (k - 1 - j) := by
    intro x j hj
    rw [reversedHigh, Nat.testBit_div_two_pow, reverse_testBit x (by omega)]
    congr 1
    omega
  rw [← Nat.mod_eq_of_lt (hlt a), ← Nat.mod_eq_of_lt (hlt b), mod_two_pow_eq_iff,
    mod_two_pow_eq_iff]
  constructor
  · intro h i hi
    have := h (k - 1 - i) (by omega)
    rwa [hbit a _ (by omega), hbit b _ (by omega), show k - 1 - (k - 1 - i) = i by omega] at this
  · intro h i hi
    rw [hbit a i hi, hbit b i hi, h _ (by omega)]

theorem reverse_inj (ha : a < 2 ^ 32) (hb : b < 2 ^ 32) (h : reverse a = reverse b) : a = b := by
  have hmod := (reversedHigh_reverse_eq_iff (a := a) (b := b) le_rfl).mp (by rw [h])
  rwa [Nat.mod_eq_of_lt ha, Nat.mod_eq_of_lt hb] at hmod

/-! ## Parents -/

theorem parentByte_eq (hb : b < 256) : parentByte.getD b 0 = b % 2 ^ Nat.log2 b := by
  have h := getD_of_all (f := fun b r => r == b % 2 ^ Nat.log2 b)
    (show parentByte.length = 256 by decide +kernel) (by decide +kernel) b hb
  simpa using h

theorem log2_add_mul {s h l : ℕ} (hh : h ≠ 0) (hl : l < 2 ^ s) :
    Nat.log2 (2 ^ s * h + l) = Nat.log2 h + s := by
  have hlow := Nat.log2_self_le hh
  have hhigh := Nat.lt_log2_self (n := h)
  rw [Nat.log2_eq_iff (by positivity)]
  constructor
  · rw [pow_add, Nat.mul_comm]
    exact le_trans (Nat.mul_le_mul_left _ hlow) (Nat.le_add_right _ _)
  have hstep : h + 1 ≤ 2 ^ (Nat.log2 h + 1) := hhigh
  calc 2 ^ s * h + l < 2 ^ s * h + 2 ^ s := by omega
    _ = 2 ^ s * (h + 1) := by ring
    _ ≤ 2 ^ s * 2 ^ (Nat.log2 h + 1) := Nat.mul_le_mul_left _ hstep
    _ = 2 ^ (Nat.log2 h + s + 1) := by rw [← pow_add]; congr 1; omega

theorem parentOf_case (s : ℕ) (hpos : key / 2 ^ s ≠ 0) (hbyte : key / 2 ^ s < 256) :
    (key &&& (2 ^ s - 1)) ||| parentByte.getD (key >>> s) 0 <<< s = key % 2 ^ Nat.log2 key := by
  have hl : key % 2 ^ s < 2 ^ s := Nat.mod_lt _ (by positivity)
  have hlog : Nat.log2 key = Nat.log2 (key / 2 ^ s) + s := by
    conv_lhs => rw [← Nat.div_add_mod key (2 ^ s)]
    exact log2_add_mul hpos hl
  rw [Nat.and_two_pow_sub_one_eq_mod, Nat.shiftRight_eq_div_pow, parentByte_eq hbyte,
    Nat.or_comm, Nat.shiftLeft_eq, Nat.mul_comm, ← Nat.two_pow_add_eq_or_of_lt hl, hlog,
    Nat.add_comm (Nat.log2 _) s, pow_add, Nat.mod_mul, Nat.add_comm]

theorem parentOf_eq (h : key < 2 ^ 32) : parentOf key = key % 2 ^ Nat.log2 key := by
  unfold parentOf
  split_ifs with h3 h2 h1
  · exact parentOf_case 24 (by omega) (by omega)
  · exact parentOf_case 16 (by omega) (by omega)
  · exact parentOf_case 8 (by omega) (by omega)
  · exact parentByte_eq (by omega)

theorem parentOf_lt (h : key < 2 ^ 32) (hpos : key ≠ 0) : parentOf key < key := by
  rw [parentOf_eq h]
  exact lt_of_lt_of_le (Nat.mod_lt _ (by positivity)) (Nat.log2_self_le hpos)

/-- Each turn to the parent takes one bit off. -/
theorem parentOf_lt_two_pow (h : key < 2 ^ 32) (hk : key < 2 ^ (k + 1)) : parentOf key < 2 ^ k := by
  rw [parentOf_eq h]
  by_cases hpos : key = 0
  · subst hpos
    simp
  · have hlog : Nat.log2 key < k + 1 := (Nat.log2_lt hpos).mpr hk
    exact lt_of_lt_of_le (Nat.mod_lt _ (by positivity))
      (Nat.pow_le_pow_right (by norm_num) (by omega))

/-- The buckets that a doubling adds have the old buckets as their parents. -/
theorem parentOf_add_two_pow {r : ℕ} (hr : r < 2 ^ k) (hk : k < 32) : parentOf (2 ^ k + r) = r := by
  have hlt : 2 ^ k + r < 2 ^ 32 := by
    have : 2 ^ (k + 1) ≤ 2 ^ 32 := Nat.pow_le_pow_right (by norm_num) hk
    rw [pow_succ] at this
    omega
  have hlog : Nat.log2 (2 ^ k + r) = k := by
    have := log2_add_mul (s := k) (h := 1) (l := r) (by norm_num) hr
    simpa [show Nat.log2 1 = 0 from rfl] using this
  rw [parentOf_eq hlt, hlog, Nat.add_mod_left, Nat.mod_eq_of_lt hr]

end FreeRadius.Hash
