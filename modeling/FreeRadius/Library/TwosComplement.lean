import FreeRadius.Library.Word

/-!
# Two's complement numbers

Signed numbers as any number of bytes, the highest first. A number has one shortest form: its
first byte does not just repeat the sign of the second one.
-/

namespace Library

open List

section Unsigned

theorem foldl_nbo (bytes : List UInt8) (acc : ℕ) :
    bytes.foldl (fun acc b => acc * 256 + b.toNat) acc = acc * 256 ^ bytes.length + nboValue bytes := by
  induction bytes generalizing acc with
  | nil => simp [nboValue]
  | cons b bytes ih =>
    rw [nboValue, foldl_cons, foldl_cons, ih, ih (0 * 256 + b.toNat), length_cons, pow_succ]
    ring

theorem nboValue_cons (b : UInt8) (bytes : List UInt8) :
    nboValue (b :: bytes) = b.toNat * 256 ^ bytes.length + nboValue bytes := by
  rw [nboValue, foldl_cons, foldl_nbo, Nat.zero_mul, Nat.zero_add]

theorem nboValue_lt (bytes : List UInt8) : nboValue bytes < 256 ^ bytes.length := by
  induction bytes with
  | nil => decide
  | cons b bytes ih =>
    have hb : b.toNat + 1 ≤ 256 := b.toNat_lt
    calc nboValue (b :: bytes) = b.toNat * 256 ^ bytes.length + nboValue bytes := nboValue_cons b bytes
      _ < (b.toNat + 1) * 256 ^ bytes.length := by rw [Nat.add_mul]; omega
      _ ≤ 256 * 256 ^ bytes.length := Nat.mul_le_mul_right _ hb
      _ = 256 ^ (b :: bytes).length := by rw [length_cons, pow_succ, Nat.mul_comm]

theorem nboValue_inj : ∀ {a b : List UInt8}, a.length = b.length → nboValue a = nboValue b → a = b
  | [], [], _, _ => rfl
  | x :: a, y :: b, hlen, h => by
    have hlen' : a.length = b.length := Nat.succ.inj hlen
    rw [nboValue_cons, nboValue_cons, hlen'] at h
    have ha := nboValue_lt a
    have hb := nboValue_lt b
    rw [hlen'] at ha
    have hdiv : ∀ u v : ℕ, v < 256 ^ b.length → (u * 256 ^ b.length + v) / 256 ^ b.length = u :=
      fun u v hv => by
        rw [Nat.add_comm, Nat.add_mul_div_right _ _ (Nat.pow_pos (by decide)),
          Nat.div_eq_of_lt hv, Nat.zero_add]
    have hfirst : x.toNat = y.toNat := by rw [← hdiv x.toNat _ ha, h, hdiv y.toNat _ hb]
    rw [hfirst] at h
    rw [UInt8.toNat.inj hfirst, nboValue_inj hlen' (Nat.add_left_cancel h)]

end Unsigned

section Signed

/-- A byte as a number from -128 to 127. -/
def signedByte (b : UInt8) : ℤ := if b < 0x80 then b.toNat else b.toNat - 256

/-- The number that bytes stand for in two's complement. -/
def twosValue : List UInt8 → ℤ
  | [] => 0
  | b :: bytes => signedByte b * 256 ^ bytes.length + nboValue bytes

/-- The bytes are not more than any others that stand for the same number. -/
def IsShortest (bytes : List UInt8) : Prop :=
  bytes ≠ [] ∧ ∀ other, other ≠ [] → twosValue other = twosValue bytes → bytes.length ≤ other.length

/-- The first byte says no more than the highest bit of the second one does. -/
def Redundant (a b : UInt8) : Prop := a = 0xff ∧ 0x80 ≤ b ∨ a = 0 ∧ b < 0x80

instance (a b : UInt8) : Decidable (Redundant a b) :=
  inferInstanceAs (Decidable (_ ∧ _ ∨ _ ∧ _))

/-- The bytes without the redundant ones at the beginning. -/
def shorten : List UInt8 → List UInt8
  | a :: b :: bytes => if Redundant a b then shorten (b :: bytes) else a :: b :: bytes
  | bytes => bytes

theorem signedByte_bounds (b : UInt8) : -128 ≤ signedByte b ∧ signedByte b ≤ 127 := by
  have hb := b.toNat_lt
  rw [signedByte]
  split
  · next h =>
    have : b.toNat < 128 := UInt8.lt_iff_toNat_lt.mp h
    omega
  · next h =>
    have : 128 ≤ b.toNat := UInt8.le_iff_toNat_le.mp (UInt8.not_lt.mp h)
    omega

variable {a b : UInt8} {bytes : List UInt8}

theorem signedByte_inj (h : signedByte a = signedByte b) : a = b := by
  have ha := a.toNat_lt
  have hb := b.toNat_lt
  have hcast : (a.toNat : ℤ) = b.toNat := by
    rw [signedByte, signedByte] at h
    split at h <;> split at h
    · exact h
    · next hlt hge =>
      omega
    · next hge hlt =>
      omega
    · omega
  exact UInt8.toNat.inj (Int.ofNat.inj hcast)

theorem twosValue_eq (b : UInt8) (bytes : List UInt8) :
    twosValue (b :: bytes) =
      if b < 0x80 then (nboValue (b :: bytes) : ℤ)
      else nboValue (b :: bytes) - 256 ^ (bytes.length + 1) := by
  rw [twosValue, signedByte, nboValue_cons]
  split
  · push_cast
    ring
  · push_cast
    ring

theorem twosValue_bounds (b : UInt8) (bytes : List UInt8) :
    -(128 * 256 ^ bytes.length) ≤ twosValue (b :: bytes) ∧
      twosValue (b :: bytes) < 128 * 256 ^ bytes.length := by
  obtain ⟨hmin, hmax⟩ := signedByte_bounds b
  have hlt : (nboValue bytes : ℤ) < 256 ^ bytes.length := by exact_mod_cast nboValue_lt bytes
  have hpos : (0 : ℤ) < 256 ^ bytes.length := by positivity
  rw [twosValue]
  constructor
  · have := mul_le_mul_of_nonneg_right hmin hpos.le
    linarith
  · have := mul_le_mul_of_nonneg_right hmax hpos.le
    linarith

theorem twosValue_redundant (h : Redundant a b) (bytes : List UInt8) :
    twosValue (a :: b :: bytes) = twosValue (b :: bytes) := by
  rw [twosValue, twosValue, nboValue_cons, length_cons, pow_succ]
  rcases h with ⟨rfl, hb⟩ | ⟨rfl, hb⟩
  · have hsign : signedByte 0xff = -1 := by decide
    rw [hsign, signedByte, if_neg (UInt8.not_lt.mpr hb)]
    push_cast
    ring
  · have hsign : signedByte 0 = 0 := by decide
    rw [hsign, signedByte, if_pos hb]
    push_cast
    ring

/-- A number whose first byte is not redundant does not fit into fewer bytes. -/
theorem twosValue_not_redundant (h : ¬Redundant a b) (bytes : List UInt8) :
    twosValue (a :: b :: bytes) < -(128 * 256 ^ bytes.length) ∨
      128 * 256 ^ bytes.length ≤ twosValue (a :: b :: bytes) := by
  have hlt : (nboValue bytes : ℤ) < 256 ^ bytes.length := by exact_mod_cast nboValue_lt bytes
  have hpos : (0 : ℤ) < 256 ^ bytes.length := by positivity
  have hb := b.toNat_lt
  have hvalue : twosValue (a :: b :: bytes) =
      (signedByte a * 256 + b.toNat) * 256 ^ bytes.length + nboValue bytes := by
    rw [twosValue, nboValue_cons, length_cons, pow_succ]
    push_cast
    ring
  -- the two first bytes are not between -128 and 127
  have hout : signedByte a * 256 + b.toNat ≤ -129 ∨ 128 ≤ signedByte a * 256 + b.toNat := by
    obtain ⟨hredundant, hredundant'⟩ := not_or.mp h
    rcases lt_trichotomy (signedByte a) (-1) with hs | hs | hs
    · omega
    · have ha : a = 0xff := signedByte_inj (hs.trans (by decide))
      have : b.toNat < 128 := UInt8.lt_iff_toNat_lt.mp (UInt8.not_le.mp fun hle => hredundant ⟨ha, hle⟩)
      omega
    · by_cases hzero : signedByte a = 0
      · have ha : a = 0 := signedByte_inj (hzero.trans (by decide))
        have : 128 ≤ b.toNat :=
          UInt8.le_iff_toNat_le.mp (UInt8.not_lt.mp fun hlt => hredundant' ⟨ha, hlt⟩)
        omega
      · omega
  rw [hvalue]
  rcases hout with hout | hout
  · have := mul_le_mul_of_nonneg_right hout hpos.le
    left
    linarith
  · have := mul_le_mul_of_nonneg_right hout hpos.le
    right
    linarith

/-- The bytes are the shortest form if and only if the first one is not redundant. -/
theorem isShortest_cons_cons : IsShortest (a :: b :: bytes) ↔ ¬Redundant a b := by
  constructor
  · rintro ⟨-, hshort⟩ hredundant
    have := hshort (b :: bytes) (cons_ne_nil _ _) (twosValue_redundant hredundant bytes).symm
    rw [length_cons, length_cons] at this
    omega
  intro hnot
  refine ⟨cons_ne_nil _ _, fun other hne heq => ?_⟩
  cases other with
  | nil => exact absurd rfl hne
  | cons c other =>
    by_contra hlen
    rw [length_cons, length_cons, length_cons] at hlen
    obtain ⟨hmin, hmax⟩ := twosValue_bounds c other
    have hpow : (256 : ℤ) ^ other.length ≤ 256 ^ bytes.length :=
      pow_le_pow_right₀ (by decide) (by omega)
    rcases twosValue_not_redundant hnot bytes with h | h <;> rw [← heq] at h <;> linarith

theorem isShortest_singleton (a : UInt8) : IsShortest [a] := by
  refine ⟨cons_ne_nil _ _, fun other hne _ => ?_⟩
  exact List.length_pos_iff.mpr hne

theorem isShortest_shorten (hne : bytes ≠ []) : IsShortest (shorten bytes) := by
  induction bytes using shorten.induct with
  | case1 a b bytes hredundant ih =>
    rw [shorten, if_pos hredundant]
    exact ih (cons_ne_nil _ _)
  | case2 a b bytes hredundant =>
    rw [shorten, if_neg hredundant]
    exact isShortest_cons_cons.mpr hredundant
  | case3 bytes hshort =>
    cases bytes with
    | nil => exact absurd rfl hne
    | cons a bytes =>
      cases bytes with
      | nil => exact isShortest_singleton a
      | cons b bytes => exact absurd rfl (hshort a b bytes)

theorem twosValue_shorten (bytes : List UInt8) : twosValue (shorten bytes) = twosValue bytes := by
  induction bytes using shorten.induct with
  | case1 a b bytes hredundant ih => rw [shorten, if_pos hredundant, ih, twosValue_redundant hredundant]
  | case2 a b bytes hredundant => rw [shorten, if_neg hredundant]
  | case3 bytes hshort => rw [shorten]; exact hshort

theorem length_shorten_le (bytes : List UInt8) : (shorten bytes).length ≤ bytes.length := by
  induction bytes using shorten.induct with
  | case1 a b bytes hredundant ih =>
    rw [shorten, if_pos hredundant]
    exact ih.trans (Nat.le_succ _)
  | case2 a b bytes hredundant => rw [shorten, if_neg hredundant]
  | case3 bytes hshort => rw [shorten]; exact hshort

theorem IsShortest.eq {a b : List UInt8} (ha : IsShortest a) (hb : IsShortest b)
    (h : twosValue a = twosValue b) : a = b := by
  have hlen : a.length = b.length :=
    Nat.le_antisymm (ha.2 b hb.1 h.symm) (hb.2 a ha.1 h)
  refine nboValue_inj hlen ?_
  have hlt : ∀ bytes : List UInt8, (nboValue bytes : ℤ) < 256 ^ bytes.length := fun bytes => by
    exact_mod_cast nboValue_lt bytes
  have hlta := hlt a
  have hltb := hlt b
  cases a with
  | nil => exact absurd rfl ha.1
  | cons x a =>
    cases b with
    | nil => exact absurd rfl hb.1
    | cons y b =>
      rw [twosValue_eq, twosValue_eq, Nat.succ.inj hlen] at h
      rw [hlen] at hlta
      rw [length_cons] at hlta hltb
      split at h <;> split at h <;> omega

end Signed

end Library
