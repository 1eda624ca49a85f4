import FreeRadius.Calc.Model
import Mathlib.Tactic.IntervalCases

/-!
# When integer arithmetic on value boxes is exact

The unsigned calculation is exact or fails. The signed one is not: the last cast of its result
compares it with the smallest number of the destination only, the remainder is taken by the second
operand as it was before its sign was extended, and the lowest number is divided by -1.
-/

namespace FreeRadius.Calc

open Box

section Values

variable {len : ℕ} {word : BitVec 64} {b : Box}

theorem lowBytes_of_lt (h : word.toNat < 2 ^ (8 * len)) : lowBytes len word = word := by
  apply BitVec.eq_of_toNat_eq
  rw [toNat_lowBytes, Nat.mod_eq_of_lt h]

theorem Box.value_unsigned (h : b.type.signed = false) : b.value = b.word.toNat := by
  simp [value, h]

theorem Box.value_signed (h : b.type.signed = true) :
    b.value = if 2 * b.word.toNat < 2 ^ (8 * b.type.size) then (b.word.toNat : ℤ)
      else b.word.toNat - 2 ^ (8 * b.type.size) := by
  rw [value, if_pos h, BitVec.toInt_eq_toNat_cond, BitVec.toNat_setWidth,
    Nat.mod_eq_of_lt b.clean]
  norm_cast

theorem IntType.min_neg_iff (t : IntType) : t.min < 0 ↔ t.signed = true := by
  cases t <;> decide

theorem IntType.size_cases (t : IntType) : t.size = 1 ∨ t.size = 2 ∨ t.size = 4 ∨ t.size = 8 := by
  cases t <;> decide

theorem signBitHigh_eq (hlen : len = 1 ∨ len = 2 ∨ len = 4 ∨ len = 8) (word : BitVec 64) :
    signBitHigh word len = word.toNat.testBit (8 * len - 1) := by
  have hpow : BitVec.twoPow 64 (8 * len - 1) ≠ 0#64 := by
    obtain rfl | rfl | rfl | rfl := hlen <;> decide
  rw [signBitHigh, ← BitVec.twoPow_eq, BitVec.twoPow_and, BitVec.testBit_toNat]
  cases word.getLsbD (8 * len - 1) with
  | false => rfl
  | true => simpa using hpow

theorem signBitHigh_iff (hlen : len = 1 ∨ len = 2 ∨ len = 4 ∨ len = 8)
    (h : word.toNat < 2 ^ (8 * len)) :
    signBitHigh word len = true ↔ ¬ 2 * word.toNat < 2 ^ (8 * len) := by
  rw [signBitHigh_eq hlen, Nat.testBit_eq_decide_div_mod_eq, decide_eq_true_iff]
  obtain rfl | rfl | rfl | rfl := hlen <;> norm_num at h ⊢ <;> omega

theorem toNat_signPromote (hlen : len = 1 ∨ len = 2 ∨ len = 4) (h : word.toNat < 2 ^ (8 * len)) :
    (signPromote word len).toNat = word.toNat + (2 ^ 64 - 2 ^ (8 * len)) := by
  have hmask : (~~~0#64 <<< (8 * len)).toNat = 2 ^ (8 * len) * (2 ^ (64 - 8 * len) - 1) := by
    obtain rfl | rfl | rfl := hlen <;> decide
  have hlt : len < 8 := by omega
  rw [signPromote, if_pos hlt, BitVec.toNat_or, hmask, Nat.or_comm,
    ← Nat.two_pow_add_eq_or_of_lt h]
  obtain rfl | rfl | rfl := hlen <;> norm_num <;> omega

theorem toInt_signPromote (hlen : len = 1 ∨ len = 2 ∨ len = 4 ∨ len = 8)
    (h : word.toNat < 2 ^ (8 * len)) (hsign : ¬ 2 * word.toNat < 2 ^ (8 * len)) :
    (signPromote word len).toInt = word.toNat - 2 ^ (8 * len) := by
  rw [BitVec.toInt_eq_toNat_cond]
  obtain hlen | hlen | hlen | rfl := hlen
  iterate 3
    rw [toNat_signPromote (by omega) h]
    subst hlen
    norm_num at h hsign ⊢
    omega
  norm_num [signPromote] at h hsign ⊢
  omega

theorem toInt_extended (h : b.type.signed = true) :
    (if signBitHigh (lowBytes b.type.size b.word) b.type.size then
        signPromote (lowBytes b.type.size b.word) b.type.size
      else lowBytes b.type.size b.word).toInt = b.value := by
  have hsize := b.type.size_cases
  rw [lowBytes_of_lt b.clean, value_signed h]
  by_cases hsign : 2 * b.word.toNat < 2 ^ (8 * b.type.size)
  · rw [if_neg ((signBitHigh_iff hsize b.clean).not.mpr (not_not.mpr hsign)), if_pos hsign,
      BitVec.toInt_eq_toNat_cond, if_pos]
    refine hsign.trans_le (Nat.pow_le_pow_right (by decide) ?_)
    omega
  · rw [if_pos ((signBitHigh_iff hsize b.clean).mpr hsign), if_neg hsign,
      toInt_signPromote hsize b.clean hsign]

end Values

variable {z : ℤ} {src b : Box} {dst : IntType}

section Casts

variable {t : IntType} {word : BitVec 64}

def IntType.Fits (t : IntType) (z : ℤ) : Prop := t.min ≤ z ∧ z ≤ t.max

/-- The number that the low bytes of a result stand for in a signed type. -/
def IntType.read (t : IntType) (z : ℤ) : ℤ := z.bmod (2 ^ (8 * t.size))

theorem value_ofWord_signed (h : t.signed = true) (word : BitVec 64) :
    (Box.ofWord t word).value = t.read word.toInt := by
  have hdvd : 2 ^ (8 * t.size) ∣ 2 ^ 64 :=
    Nat.pow_dvd_pow 2 (by have := t.size_cases; omega)
  have hvalue : (ofWord t word).value =
      ((lowBytes t.size word).setWidth (8 * t.size)).toInt := if_pos h
  rw [hvalue, BitVec.toInt_setWidth, toNat_lowBytes, IntType.read, BitVec.toInt_eq_toNat_bmod,
    Int.bmod_bmod_of_dvd hdvd]
  rw [Int.natCast_mod, Int.emod_bmod]

theorem value_ofWord_unsigned (h : t.signed = false) (hle : word.toNat ≤ t.max) :
    (Box.ofWord t word).value = word.toNat := by
  have hmax : t.max < 2 ^ (8 * t.size) := by cases t <;> decide
  rw [value_unsigned h, ofWord, toNat_lowBytes, Nat.mod_eq_of_lt (by omega)]

theorem IntType.range_signed (h : t.signed = true) :
    t.min = -((2 ^ (8 * t.size) : ℕ) / 2 : ℤ) ∧
      (t.max : ℤ) = ((2 ^ (8 * t.size) : ℕ) + 1 : ℤ) / 2 - 1 := by
  cases t <;> revert h <;> decide

theorem read_of_fits (h : t.signed = true) (hz : t.Fits z) : t.read z = z := by
  obtain ⟨hmin, hmax⟩ := IntType.range_signed h
  rw [IntType.Fits, hmin, hmax] at hz
  exact Int.bmod_eq_of_le hz.1 (by omega)

theorem fits_read (h : t.signed = true) (z : ℤ) : t.Fits (t.read z) := by
  have hpos : 0 < 2 ^ (8 * t.size) := Nat.two_pow_pos _
  obtain ⟨hmin, hmax⟩ := IntType.range_signed h
  have hlt := Int.bmod_lt (x := z) hpos
  rw [IntType.Fits, hmin, hmax, IntType.read]
  exact ⟨Int.le_bmod hpos, by omega⟩

theorem Box.fits (b : Box) : b.type.Fits b.value := by
  cases h : b.type.signed with
  | true =>
    have hread : b.value = b.type.read b.word.toNat := by
      rw [value, if_pos h, BitVec.toInt_setWidth, IntType.read]
    rw [hread]
    exact fits_read h _
  | false =>
    have hrange : b.type.min = 0 ∧ b.type.max + 1 = 2 ^ (8 * b.type.size) := by
      revert h
      cases b.type <;> decide
    have hclean := b.clean
    rw [value_unsigned h, IntType.Fits, hrange.1]
    omega

/-- A signed box is cast to another type when it is not below the smallest number of the type. -/
theorem cast_of_signed (h : src.type.signed = true) (hne : dst ≠ src.type) :
    (src.value < dst.min ∧ frValueBoxCast dst src = none) ∨
    (dst.min ≤ src.value ∧ ∃ word : BitVec 64, word.toInt = src.value ∧
      frValueBoxCast dst src = some (Box.ofWord dst word)) := by
  have hextended := toInt_extended h
  rw [frValueBoxCast, if_neg hne, frValueBoxCastIntegerToInteger]
  simp only [(IntType.min_neg_iff _).mpr h, if_true, hextended]
  by_cases hlt : src.value < dst.min
  · exact .inl ⟨hlt, if_pos hlt⟩
  · exact .inr ⟨not_lt.mp hlt, _, hextended, if_neg hlt⟩

/-- An unsigned box is cast to another type when it is not above the greatest number of the type. -/
theorem cast_of_unsigned (h : src.type.signed = false) (hne : dst ≠ src.type) :
    frValueBoxCast dst src =
      if src.word.toNat > dst.max then none else some (Box.ofWord dst src.word) := by
  have hmin : ¬ src.type.min < 0 := by
    rw [IntType.min_neg_iff, h]
    decide
  rw [frValueBoxCast, if_neg hne, frValueBoxCastIntegerToInteger]
  simp [hmin, lowBytes_of_lt src.clean]

theorem word_ofWord (h : t.size = 8) (word : BitVec 64) : (Box.ofWord t word).word = word := by
  have hlt : word.toNat < 2 ^ (8 * t.size) := by
    rw [h]
    exact word.isLt
  exact lowBytes_of_lt hlt

theorem IntType.int64_min_le (t : IntType) : IntType.int64.min ≤ t.min := by
  cases t <;> decide

theorem toNat_eq_toInt (h : 0 ≤ word.toInt) : (word.toNat : ℤ) = word.toInt := by
  rw [BitVec.toInt_eq_toNat_cond] at h ⊢
  split at h <;> split <;> omega

theorem coerce_uint64 (b : Box) :
    (b.value < 0 ∧ coerce b .uint64 = none) ∨
    ∃ b', coerce b .uint64 = some b' ∧ (b'.word.toNat : ℤ) = b.value := by
  by_cases htype : b.type = .uint64
  · refine .inr ⟨b, if_neg (not_not.mpr htype), ?_⟩
    rw [value_unsigned (by rw [htype]; rfl)]
  rw [coerce, if_pos htype]
  cases h : b.type.signed with
  | true =>
    obtain ⟨hlt, hcast⟩ | ⟨hle, word, hword, hcast⟩ := cast_of_signed h (Ne.symm htype)
    · exact .inl ⟨hlt, hcast⟩
    · refine .inr ⟨_, hcast, ?_⟩
      rw [word_ofWord rfl, toNat_eq_toInt (hword ▸ hle), hword]
  | false =>
    rw [cast_of_unsigned h (Ne.symm htype)]
    have hle : ¬ b.word.toNat > IntType.uint64.max := by
      simp only [IntType.max]
      omega
    refine .inr ⟨_, if_neg hle, ?_⟩
    rw [word_ofWord rfl, value_unsigned h]

theorem coerce_int64 (b : Box) :
    (2 ^ 63 ≤ b.value ∧ coerce b .int64 = none) ∨
    ∃ b', coerce b .int64 = some b' ∧ b'.word.toInt = b.value := by
  by_cases htype : b.type = .int64
  · refine .inr ⟨b, if_neg (not_not.mpr htype), ?_⟩
    obtain ⟨type, word, hclean⟩ := b
    cases htype
    simp [value, IntType.signed, IntType.size]
  rw [coerce, if_pos htype]
  cases h : b.type.signed with
  | true =>
    obtain ⟨hlt, -⟩ | ⟨-, word, hword, hcast⟩ := cast_of_signed h (Ne.symm htype)
    · exact absurd (b.type.int64_min_le.trans b.fits.1) (not_le.mpr hlt)
    · refine .inr ⟨_, hcast, ?_⟩
      rw [word_ofWord rfl, hword]
  | false =>
    rw [cast_of_unsigned h (Ne.symm htype)]
    by_cases hgt : b.word.toNat > IntType.int64.max
    · refine .inl ⟨?_, if_pos hgt⟩
      rw [value_unsigned h]
      simp only [IntType.max] at hgt
      omega
    · refine .inr ⟨_, if_neg hgt, ?_⟩
      rw [word_ofWord rfl, value_unsigned h, BitVec.toInt_eq_toNat_cond, if_pos]
      simp only [IntType.max] at hgt
      omega

theorem cast_result_unsigned (h : t.signed = false) (result : Box)
    (hresult : result.type = .uint64) :
    frValueBoxCast t result = none ∨
    ∃ r, frValueBoxCast t result = some r ∧ r.type = t ∧ r.value = result.word.toNat := by
  have hunsigned : result.type.signed = false := by rw [hresult]; rfl
  by_cases htype : t = result.type
  · exact .inr ⟨result, if_pos htype, htype.symm, value_unsigned hunsigned⟩
  rw [cast_of_unsigned hunsigned htype]
  by_cases hgt : result.word.toNat > t.max
  · exact .inl (if_pos hgt)
  · exact .inr ⟨_, if_neg hgt, rfl, value_ofWord_unsigned h (not_lt.mp hgt)⟩

theorem cast_result_signed (h : t.signed = true) (result : Box) (hresult : result.type = .int64) :
    (result.word.toInt < t.min ∧ frValueBoxCast t result = none) ∨ (t.min ≤ result.word.toInt ∧
      ∃ r, frValueBoxCast t result = some r ∧ r.type = t ∧ r.value = t.read result.word.toInt) := by
  have hvalue : result.value = result.word.toInt := by
    obtain ⟨type, word, hclean⟩ := result
    cases hresult
    simp [value, IntType.signed, IntType.size]
  by_cases htype : t = result.type
  · have hfits : t.Fits result.value := htype ▸ result.fits
    rw [← hvalue, read_of_fits h hfits]
    exact .inr ⟨hfits.1, result, if_pos htype, htype.symm, rfl⟩
  · rw [← hvalue]
    obtain hnone | ⟨hle, word, hword, hcast⟩ := cast_of_signed (by rw [hresult]; rfl) htype
    · exact .inl hnone
    · exact .inr ⟨hle, _, hcast, rfl, by rw [value_ofWord_signed h, hword]⟩

end Casts

section Specification

/-- The exact value of an operation; nothing can be divided by zero. -/
def exactValue : ArithOp → ℤ → ℤ → Option ℤ
  | .add, a, b => some (a + b)
  | .sub, a, b => some (a - b)
  | .mul, a, b => some (a * b)
  | .div, a, b => if b = 0 then none else some (a.tdiv b)
  | .mod, a, b => if b = 0 then none else some (a.tmod b)

/-- The type of the result: the one given, or the one that the types of the operands have in
common, if any. -/
def destination (hint : Option IntType) (a b : Box) : Option IntType :=
  hint.or ((upcastOp a.type b.type).or (upcastOp b.type a.type))

/-- The operation answers the exact value in the destination type or fails, and it fails whenever
there is no exact value or the destination type does not have it. -/
structure IsExact (hint : Option IntType) (a : Box) (op : ArithOp) (b : Box) : Prop where
  defined : frValueCalcBinaryOp hint a (.arith op) b ≠ .undefined
  exact : ∀ r, frValueCalcBinaryOp hint a (.arith op) b = .ok r →
    exactValue op a.value b.value = some r.value ∧ destination hint a b = some r.type
  fails : ∀ t, destination hint a b = some t →
    (∀ z, exactValue op a.value b.value = some z → ¬ t.Fits z) →
    ∃ e, frValueCalcBinaryOp hint a (.arith op) b = .error e

/-- When a calculation in 64 bits with a sign comes out right in a signed type: `b.word.toInt` is the
second operand without its sign extended. -/
def SoundSigned (t : IntType) (a b : Box) : ArithOp → Prop
  | .add => a.value + b.value ≤ t.max ∨ 2 ^ 63 ≤ a.value + b.value
  | .sub => a.value - b.value ≤ t.max ∨ 2 ^ 63 ≤ a.value - b.value
  | .mul => a.value * b.value ≤ t.max ∨ 2 ^ 63 ≤ a.value * b.value
  | .div => b.value ≠ 0 → a.value.tdiv b.value ≤ t.max
  | .mod => b.value ≠ 0 → ¬ (a.value = -2 ^ 63 ∧ b.word.toInt = -1) ∧
    (a.value.tmod b.word.toInt < t.min ∨
      t.read (a.value.tmod b.word.toInt) = a.value.tmod b.value)

/-- When the operation is exact: always for an unsigned destination. An operand of 2^63 or more is
refused for a signed one. -/
def Sound (hint : Option IntType) (a : Box) (op : ArithOp) (b : Box) : Prop :=
  ∀ t, destination hint a b = some t → t.signed = true → a.value < 2 ^ 63 → b.value < 2 ^ 63 →
    SoundSigned t a b op

def Outcome.Right (t : IntType) (z : Option ℤ) : Outcome Box → Prop
  | .ok r => r.type = t ∧ z = some r.value
  | .error _ => True
  | .undefined => False

theorem isExact_iff {hint : Option IntType} {a : Box} {op : ArithOp} :
    IsExact hint a op b ↔ ∀ t, destination hint a b = some t →
      (calcType t a (.arith op) b).Right t (exactValue op a.value b.value) := by
  cases ht : destination hint a b with
  | none =>
    have hguess : hint.or (guess a (.arith op) b) = none := ht
    have hcalc : frValueCalcBinaryOp hint a (.arith op) b = .error .failed := by
      rw [frValueCalcBinaryOp, hguess]
    refine ⟨fun _ t => nofun, fun _ => ⟨?_, ?_, ?_⟩⟩
    · rw [hcalc]
      nofun
    · rw [hcalc]
      nofun
    · rw [ht]
      nofun
  | some t =>
    have hguess : hint.or (guess a (.arith op) b) = some t := ht
    have hcalc : frValueCalcBinaryOp hint a (.arith op) b = calcType t a (.arith op) b := by
      rw [frValueCalcBinaryOp, hguess]
      rfl
    constructor
    · rintro hexact t' ⟨⟩
      rw [← hcalc]
      cases hout : frValueCalcBinaryOp hint a (.arith op) b with
      | ok r =>
        obtain ⟨hvalue, htype⟩ := hexact.exact r hout
        exact ⟨Option.some.inj (htype.symm.trans ht), hvalue⟩
      | error e => trivial
      | undefined => exact hexact.defined hout
    intro hright
    specialize hright t rfl
    rw [← hcalc] at hright
    cases hout : frValueCalcBinaryOp hint a (.arith op) b with
    | ok r =>
      rw [hout] at hright
      obtain ⟨htype, hvalue⟩ := hright
      refine ⟨fun hundefined => ?_, fun r' hr' => ?_, fun t' ht' hnot => ?_⟩
      · cases hout.symm.trans hundefined
      · cases hout.symm.trans hr'
        exact ⟨hvalue, htype ▸ ht⟩
      · cases ht.symm.trans ht'
        exact absurd (htype ▸ r.fits) (hnot r.value hvalue)
    | error e =>
      refine ⟨fun hundefined => ?_, fun r' hr' => ?_, fun t' _ _ => ⟨e, hout⟩⟩
      · cases hout.symm.trans hundefined
      · cases hout.symm.trans hr'
    | undefined =>
      rw [hout] at hright
      exact hright.elim

end Specification

section Unsigned

theorem Box.word_of_nonneg (h : 0 ≤ b.value) : (b.word.toNat : ℤ) = b.value := by
  cases hsigned : b.type.signed with
  | false => rw [value_unsigned hsigned]
  | true =>
    have hclean : (b.word.toNat : ℤ) < 2 ^ (8 * b.type.size) := by exact_mod_cast b.clean
    rw [value_signed hsigned] at h ⊢
    split at h
    · rw [if_pos ‹_›]
    · omega

theorem switchUint64_exact (op : ArithOp) (a b : BitVec 64) :
    (∃ e, switchUint64 (.arith op) a b b = .error e) ∨
    ∃ word, switchUint64 (.arith op) a b b = .ok word ∧
      exactValue op a.toNat b.toNat = some (word.toNat : ℤ) := by
  have hzero : b = 0 ↔ (b.toNat : ℤ) = 0 := by
    rw [Int.natCast_eq_zero]
    exact BitVec.toNat_eq (x := b) (y := 0)
  cases op with
  | add =>
    simp only [switchUint64, frAdd]
    split
    · exact .inl ⟨_, rfl⟩
    · next h => exact .inr ⟨_, rfl, by simp [exactValue, BitVec.toNat_add_of_not_uaddOverflow h]⟩
  | sub =>
    simp only [switchUint64, frSub]
    split
    · exact .inl ⟨_, rfl⟩
    next h =>
    have hle : b.toNat ≤ a.toNat := by simpa [BitVec.usubOverflow] using h
    refine .inr ⟨_, rfl, ?_⟩
    rw [exactValue, BitVec.toNat_sub_of_not_usubOverflow h, Nat.cast_sub hle]
  | mul =>
    simp only [switchUint64, frMultiply]
    split
    · exact .inl ⟨_, rfl⟩
    · next h => exact .inr ⟨_, rfl, by simp [exactValue, BitVec.toNat_mul_of_not_umulOverflow h]⟩
  | div =>
    simp only [switchUint64, exactValue, hzero]
    split
    · exact .inl ⟨_, rfl⟩
    · exact .inr ⟨_, rfl, by rw [BitVec.toNat_udiv]; rfl⟩
  | mod =>
    simp only [switchUint64, exactValue, hzero]
    split
    · exact .inl ⟨_, rfl⟩
    · exact .inr ⟨_, rfl, by rw [BitVec.toNat_umod]; rfl⟩

theorem calcUint64_right {t : IntType} (ht : t.signed = false) (a : Box) (op : ArithOp) (b : Box) :
    (calcUint64 t a (.arith op) b).Right t (exactValue op a.value b.value) := by
  obtain ⟨-, ha⟩ | ⟨a', ha, hvalue⟩ := coerce_uint64 a
  · simp only [calcUint64, calc64, ha, Outcome.Right]
  obtain ⟨-, hb⟩ | ⟨b', hb, hvalue'⟩ := coerce_uint64 b
  · simp only [calcUint64, calc64, ha, hb, Op.isShift, Outcome.Right, Bool.false_eq_true, if_false]
  -- the second input holds its number in its word, since the number is not negative
  have hword : b.word = b'.word := by
    apply BitVec.eq_of_toNat_eq
    have hnonneg : 0 ≤ b.value := hvalue' ▸ Int.natCast_nonneg _
    exact_mod_cast (b.word_of_nonneg hnonneg).trans hvalue'.symm
  simp only [calcUint64, calc64, ha, hb, Op.isShift, Bool.false_eq_true, if_false, hword]
  obtain ⟨e, he⟩ | ⟨word, hok, hexact⟩ := switchUint64_exact op a'.word b'.word
  · simp only [he, castResult, Outcome.Right]
  have hcast := cast_result_unsigned ht ⟨.uint64, word, word.isLt⟩ rfl
  obtain hnone | ⟨r, hr, htype, hr'⟩ := hcast
  · simp only [hok, castResult, hnone, Outcome.Right]
  · simp only [hok, castResult, hr, Outcome.Right]
    rw [← hvalue, ← hvalue', hexact, hr']
    exact ⟨htype, rfl⟩

end Unsigned

section Signed

variable {t : IntType} (ht : t.signed = true)

include ht

/-- The last cast, for a word that has been calculated: nothing compares it with the greatest number
of the destination. -/
theorem castResult_right_iff (word : BitVec 64) (z : Option ℤ) :
    (castResult .int64 rfl t (.ok word)).Right t z ↔
      word.toInt < t.min ∨ z = some (t.read word.toInt) := by
  have hcast := cast_result_signed ht ⟨.int64, word, word.isLt⟩ rfl
  obtain ⟨hlt, hnone⟩ | ⟨hle, r, hr, htype, hvalue⟩ := hcast
  · simp only [castResult, hnone, Outcome.Right, true_iff]
    exact .inl hlt
  · simp only [castResult, hr, Outcome.Right, htype, true_and, hvalue]
    exact ⟨.inr, fun hright => hright.resolve_left (not_lt.mpr hle)⟩

theorem read_eq_iff (z : ℤ) : z < t.min ∨ some z = some (t.read z) ↔ z ≤ t.max := by
  have hle : t.min ≤ t.max := by
    revert ht
    cases t <;> decide
  constructor
  · rintro (hlt | heq)
    · omega
    · rw [Option.some.inj heq]
      exact (fits_read ht z).2
  · intro hmax
    by_cases hlt : z < t.min
    · exact .inl hlt
    · exact .inr (by rw [read_of_fits ht ⟨not_lt.mp hlt, hmax⟩])

/-- An operation that is checked for an overflow of 64 bits. -/
theorem checked_right_iff {overflow : Bool} {word : BitVec 64} (e : CalcError)
    (hover : overflow → 2 ^ 63 ≤ z ∨ z < -2 ^ 63) (hword : ¬overflow → word.toInt = z) :
    (castResult .int64 rfl t (orError e (if overflow then none else some word))).Right t (some z) ↔
      z ≤ t.max ∨ 2 ^ 63 ≤ z := by
  split
  · next h =>
    have hrange := hover h
    simp only [orError, castResult, Outcome.Right, true_iff]
    omega
  next h =>
  obtain rfl := hword h
  rw [orError, castResult_right_iff ht, read_eq_iff ht]
  have hlt := BitVec.toInt_lt (x := word)
  norm_num at hlt
  omega

omit ht in
theorem eq_zero_iff (b : BitVec 64) : b = 0 ↔ b.toInt = 0 :=
  BitVec.toInt_inj.symm.trans (by rfl)

omit ht in
theorem divides_iff (a b : BitVec 64) :
    divides a b = true ↔ b.toInt ≠ 0 ∧ ¬ (a.toInt = -2 ^ 63 ∧ b.toInt = -1) := by
  have hone : b = -1 ↔ b.toInt = -1 := BitVec.toInt_inj.symm.trans (by rfl)
  have hmin : a = BitVec.intMin 64 ↔ a.toInt = -2 ^ 63 := BitVec.toInt_inj.symm.trans (by rfl)
  rw [divides, decide_eq_true_iff, ne_eq, eq_zero_iff, hone, hmin]

/-- The quotient: the lowest number by -1 is 2^63, which no signed type has. -/
theorem div_right_iff (a b in2 : BitVec 64) :
    (castResult .int64 rfl t (switchInt64 (.arith .div) a b in2)).Right t
        (exactValue .div a.toInt b.toInt) ↔
      (b.toInt ≠ 0 → a.toInt.tdiv b.toInt ≤ t.max) := by
  have hmax : t.max < 2 ^ 63 := by
    revert ht
    cases t <;> decide
  simp only [switchInt64, exactValue]
  by_cases hb : b.toInt = 0
  · rw [if_pos ((eq_zero_iff b).mpr hb)]
    exact iff_of_true trivial fun hne => absurd hb hne
  rw [if_neg ((eq_zero_iff b).not.mpr hb), if_neg hb, forall_prop_of_true hb]
  by_cases hdivides : divides a b = true
  · rw [if_pos hdivides, castResult_right_iff ht]
    have hne : a ≠ BitVec.intMin 64 ∨ b ≠ -1#64 := by
      simp only [divides, decide_eq_true_iff, not_and_or] at hdivides
      exact hdivides.2
    rw [BitVec.toInt_sdiv_of_ne_or_ne _ _ hne, read_eq_iff ht]
  rw [if_neg hdivides]
  simp only [castResult, Outcome.Right, false_iff, not_le]
  obtain ⟨ha, hb'⟩ : a.toInt = -2 ^ 63 ∧ b.toInt = -1 := by
    by_contra hnot
    exact hdivides ((divides_iff a b).mpr ⟨hb, hnot⟩)
  rw [ha, hb']
  have hquot : Int.tdiv (-2 ^ 63) (-1) = 2 ^ 63 := by decide
  rw [hquot]
  exact_mod_cast hmax

/-- The remainder is that of a division by the word of the second input. -/
theorem mod_right_iff (a b in2 : BitVec 64) (hin2 : b.toInt ≠ 0 → in2.toInt ≠ 0) :
    (castResult .int64 rfl t (switchInt64 (.arith .mod) a b in2)).Right t
        (exactValue .mod a.toInt b.toInt) ↔
      (b.toInt ≠ 0 → ¬ (a.toInt = -2 ^ 63 ∧ in2.toInt = -1) ∧
        (a.toInt.tmod in2.toInt < t.min ∨ t.read (a.toInt.tmod in2.toInt) = a.toInt.tmod b.toInt)) := by
  simp only [switchInt64, exactValue]
  by_cases hb : b.toInt = 0
  · rw [if_pos ((eq_zero_iff b).mpr hb)]
    exact iff_of_true trivial fun hne => absurd hb hne
  rw [if_neg ((eq_zero_iff b).not.mpr hb), if_neg hb, forall_prop_of_true hb]
  have hdefined := divides_iff a in2
  by_cases hdivides : divides a in2 = true
  · rw [if_pos hdivides, castResult_right_iff ht, BitVec.toInt_srem, Option.some_inj,
      eq_comm (a := a.toInt.tmod b.toInt)]
    exact ⟨fun h => ⟨(hdefined.mp hdivides).2, h⟩, fun h => h.2⟩
  · rw [if_neg hdivides]
    simp only [castResult, Outcome.Right, false_iff]
    exact fun h => hdivides (hdefined.mpr ⟨hin2 hb, h.1⟩)

theorem calcInt64_right_iff (a : Box) (op : ArithOp) (b : Box) :
    (calcInt64 t a (.arith op) b).Right t (exactValue op a.value b.value) ↔
      (a.value < 2 ^ 63 → b.value < 2 ^ 63 → SoundSigned t a b op) := by
  obtain ⟨hge, ha⟩ | ⟨a', ha, hvalue⟩ := coerce_int64 a
  · simp only [calcInt64, calc64, ha, Outcome.Right, true_iff]
    intro hlt
    omega
  obtain ⟨hge, hb⟩ | ⟨b', hb, hvalue'⟩ := coerce_int64 b
  · simp only [calcInt64, calc64, ha, hb, Op.isShift, Outcome.Right, Bool.false_eq_true, if_false,
      true_iff]
    intro _ hlt
    omega
  have hlt : a.value < 2 ^ 63 := hvalue ▸ BitVec.toInt_lt
  have hlt' : b.value < 2 ^ 63 := hvalue' ▸ BitVec.toInt_lt
  rw [forall_prop_of_true hlt, forall_prop_of_true hlt']
  simp only [calcInt64, calc64, ha, hb, Op.isShift, Bool.false_eq_true, if_false]
  cases op with
  | add =>
    rw [SoundSigned, ← hvalue, ← hvalue']
    exact checked_right_iff ht _ (by simp [BitVec.saddOverflow]) BitVec.toInt_add_of_not_saddOverflow
  | sub =>
    rw [SoundSigned, ← hvalue, ← hvalue']
    exact checked_right_iff ht _ (by simp [BitVec.ssubOverflow]) BitVec.toInt_sub_of_not_ssubOverflow
  | mul =>
    rw [SoundSigned, ← hvalue, ← hvalue']
    exact checked_right_iff ht _ (by simp [BitVec.smulOverflow]) BitVec.toInt_mul_of_not_smulOverflow
  | div =>
    rw [SoundSigned, ← hvalue, ← hvalue']
    exact div_right_iff ht _ _ _
  | mod =>
    have hin2 : b'.word.toInt ≠ 0 → b.word.toInt ≠ 0 := by
      intro hne hzero
      have hword : b.word = 0#64 := (eq_zero_iff b.word).mpr hzero
      refine hne (hvalue'.trans ?_)
      simp [value, hword]
    rw [SoundSigned, ← hvalue, ← hvalue']
    exact mod_right_iff ht _ _ _ hin2

end Signed

section Result

/-- Integer arithmetic on value boxes is exact, as far as it succeeds, just when the destination is
unsigned or the signed calculation is sound. -/
theorem frValueCalcBinaryOp_exact_iff (hint : Option IntType) (a : Box) (op : ArithOp) (b : Box) :
    IsExact hint a op b ↔ Sound hint a op b := by
  rw [isExact_iff, Sound]
  refine forall₂_congr fun t _ => ?_
  rw [calcType]
  cases ht : t.signed with
  | true => rw [if_pos rfl, calcInt64_right_iff ht, forall_prop_of_true rfl]
  | false =>
    simp only [Bool.false_eq_true, if_false, false_imp_iff, iff_true]
    exact calcUint64_right ht a op b

/-- 100 + 100 as an 8-bit signed number is -56. -/
theorem frValueCalcBinaryOp_int8 :
    frValueCalcBinaryOp (some .int8) ⟨.int8, 100, by decide⟩ (.arith .add) ⟨.int8, 100, by decide⟩ =
      .ok ⟨.int8, 200, by decide⟩ ∧
    (⟨.int8, 200, by decide⟩ : Box).value = -56 ∧
    ¬ IsExact (some .int8) ⟨.int8, 100, by decide⟩ .add ⟨.int8, 100, by decide⟩ := by
  have hcalc : frValueCalcBinaryOp (some .int8) ⟨.int8, 100, by decide⟩ (.arith .add)
      ⟨.int8, 100, by decide⟩ = .ok ⟨.int8, 200, by decide⟩ := by
    decide
  refine ⟨hcalc, by decide, fun hexact => ?_⟩
  exact absurd (hexact.exact _ hcalc).1 (by decide)

end Result

end FreeRadius.Calc
