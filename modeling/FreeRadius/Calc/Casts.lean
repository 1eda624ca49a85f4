import FreeRadius.Calc.Exact

/-!
# When casts between integers are exact

`fr_value_box_cast_to_integer` for bool and the integer types. A signed number is compared with the
smallest number of the destination only.
-/

namespace FreeRadius.Calc

/-- The types of `FR_TYPE_INTEGER` that are not times or sizes -/
inductive IntegerType where
  | bool
  | integer (type : IntType)
  deriving DecidableEq

/-- The integer type with the same field size and the same smallest number. -/
def IntegerType.field : IntegerType → IntType
  | bool => .uint8
  | integer type => type

/-- `fr_value_box_integer_max` -/
def IntegerType.max : IntegerType → ℕ
  | bool => 1
  | integer type => type.max

/-- A box of one of these types: a bool is 0 or 1. -/
structure IntegerBox where
  type : IntegerType
  box : Box
  box_type : box.type = type.field
  value_le : box.value ≤ type.max

def frValueBoxCastToInteger (dstType : IntegerType) (src : IntegerBox) : Option Box :=
  frValueBoxCastIntegerToInteger dstType.field dstType.max src.box

def IntegerType.Fits (t : IntegerType) (z : ℤ) : Prop := t.field.min ≤ z ∧ z ≤ t.max

/-- The cast succeeds if and only if the type has the number, and then it gives the number. -/
def ExactCast (dstType : IntegerType) (src : IntegerBox) : Prop :=
  ((frValueBoxCastToInteger dstType src).isSome = true ↔ dstType.Fits src.box.value) ∧
  ∀ dst, frValueBoxCastToInteger dstType src = some dst →
    dst.type = dstType.field ∧ dst.value = src.box.value

theorem IntegerType.min_nonpos (t : IntegerType) : t.field.min ≤ 0 := by
  obtain _ | t := t
  · decide
  · cases t <;> decide

theorem IntegerType.max_le (t : IntegerType) : t.max ≤ t.field.max := by
  cases t <;> simp [IntegerType.max, IntegerType.field, IntType.max]

variable {t : IntegerType} {word : BitVec 64}

theorem IntegerType.Fits.value_ofWord (h : t.Fits word.toInt) :
    (Box.ofWord t.field word).value = word.toInt := by
  have hfits : t.field.Fits word.toInt := ⟨h.1, h.2.trans (Int.ofNat_le.mpr t.max_le)⟩
  cases hsigned : t.field.signed with
  | true => rw [value_ofWord_signed hsigned, read_of_fits hsigned hfits]
  | false =>
    have hmin : ¬t.field.min < 0 := by
      rw [IntType.min_neg_iff, hsigned]
      decide
    have hword := toNat_eq_toInt ((not_lt.mp hmin).trans h.1)
    rw [← hword] at hfits ⊢
    exact value_ofWord_unsigned hsigned (Int.ofNat_le.mp hfits.2)

theorem IntegerType.value_ofWord_of_le (h : word.toNat ≤ t.max) :
    (Box.ofWord t.field word).value = word.toNat := by
  have hle := h.trans t.max_le
  rcases hsigned : t.field.signed with _ | _
  · exact value_ofWord_unsigned hsigned hle
  have hmax : t.field.max < 2 ^ 63 := by
    generalize t.field = field at hsigned
    cases field <;> revert hsigned <;> decide
  have hint : word.toInt = word.toNat := by
    rw [BitVec.toInt_eq_toNat_cond, if_pos (by omega)]
  have hmin := t.min_nonpos
  rw [← hint]
  exact IntegerType.Fits.value_ofWord ⟨by omega, by omega⟩

/-- A cast is exact unless its source is signed and greater than all numbers of the destination. -/
theorem exactCast_iff (dstType : IntegerType) (src : IntegerBox) :
    ExactCast dstType src ↔ (src.box.type.signed = true → src.box.value ≤ dstType.max) := by
  have hmin := dstType.min_nonpos
  rw [ExactCast, frValueBoxCastToInteger, frValueBoxCastIntegerToInteger, IntegerType.Fits]
  cases h : src.box.type.signed with
  | true =>
    have hword := toInt_extended h
    simp only [(IntType.min_neg_iff _).mpr h, if_true, hword, forall_const]
    by_cases hlt : src.box.value < dstType.field.min
    · simp only [hlt, if_true, Option.isSome_none]
      exact ⟨fun _ => by omega, fun _ => ⟨by simp; omega, by rintro _ ⟨⟩⟩⟩
    simp only [hlt, if_false, Option.isSome_some, true_iff, Option.some.injEq, forall_eq']
    refine ⟨fun hexact => hexact.1.2, fun hle => ⟨⟨not_lt.mp hlt, hle⟩, rfl, ?_⟩⟩
    rw [← hword] at hlt hle
    rw [IntegerType.Fits.value_ofWord ⟨not_lt.mp hlt, hle⟩, hword]
  | false =>
    have hsigned : ¬src.box.type.min < 0 := by rw [IntType.min_neg_iff, h]; decide
    simp only [hsigned, if_false, lowBytes_of_lt src.box.clean, Box.value_unsigned h]
    by_cases hgt : src.box.word.toNat > dstType.max
    · simp [hgt]
    · have hvalue := IntegerType.value_ofWord_of_le (not_lt.mp hgt)
      simp only [hgt, if_false, Option.isSome_some, true_iff, Option.some.injEq, forall_eq']
      exact ⟨by rintro - ⟨⟩, fun _ => ⟨by omega, rfl, hvalue⟩⟩

def threeHundred : IntegerBox where
  type := .integer .int16
  box := ⟨.int16, 300, by decide⟩
  box_type := rfl
  value_le := by decide

/-- 300 as a uint8 is 44. -/
theorem not_exactCast_threeHundred : ¬ExactCast (.integer .uint8) threeHundred ∧
    (frValueBoxCastToInteger (.integer .uint8) threeHundred).map Box.value = some 44 := by
  constructor
  · intro h
    have hfits := h.1.mp (by decide)
    exact absurd hfits.2 (by decide)
  · decide

end FreeRadius.Calc
