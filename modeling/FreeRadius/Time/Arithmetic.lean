import FreeRadius.Calc.Model
import Mathlib.Algebra.Order.Group.Abs
import Mathlib.Algebra.Order.Group.Int

/-!
# Arithmetic with times

The functions of `time.h` that add and subtract times. `fr_add` and `fr_sub` calculate the exact
result and fail if the type of `out` does not have it. And the remainder of `util/calc.c`.
-/

namespace FreeRadius.Time

/-- `fr_time_t`, `fr_time_delta_t` and `fr_unix_time_t` -/
inductive TimeType where
  | time
  | timeDelta
  | unixTime

namespace TimeType

def min : TimeType → ℤ
  | unixTime => 0
  | _ => -2 ^ 63

def max : TimeType → ℤ
  | unixTime => 2 ^ 64 - 1
  | _ => 2 ^ 63 - 1

/-- A wrapped integer. -/
def Value (t : TimeType) : Type := { value : ℤ // t.min ≤ value ∧ value ≤ t.max }

theorem min_lt_max (t : TimeType) : t.min < t.max := by
  cases t <;> decide

/-- What is wrapped: the end of the range that `ispos` tells if the result is not in it. -/
def wrap (out : TimeType) (ispos : Bool) (result : ℤ) : ℤ :=
  if out.min ≤ result ∧ result ≤ out.max then result
  else if ispos then out.max else out.min

theorem wrap_mem (out : TimeType) (ispos : Bool) (result : ℤ) :
    out.min ≤ out.wrap ispos result ∧ out.wrap ispos result ≤ out.max := by
  have hlt := out.min_lt_max
  rw [wrap]
  split
  · assumption
  · split
    · exact ⟨hlt.le, le_rfl⟩
    · exact ⟨le_rfl, hlt.le⟩

/-- A result is clamped to the range. -/
def clamp (out : TimeType) (result : ℤ) : ℤ := Max.max out.min (Min.min result out.max)

theorem wrap_eq_clamp_iff {out : TimeType} {ispos : Bool} {result : ℤ} :
    out.wrap ispos result = out.clamp result ↔
      (result < out.min → ispos = false) ∧ (out.max < result → ispos = true) := by
  have hlt := out.min_lt_max
  unfold wrap clamp
  cases ispos <;> grind

end TimeType

open TimeType

def frTimeOpIspos (a op b : Bool) : Bool := (a == op) == b

/-- What `fr_time_overflow_ispos` takes for the sign of an operand. -/
def isPos : {t : TimeType} → t.Value → Bool
  | .unixTime, _ => true
  | _, a => decide (0 ≤ a.1)

section Functions

variable {s t : TimeType}

def frTimeOverflowIspos (a : s.Value) (op : Bool) (b : t.Value) : Bool :=
  frTimeOpIspos (isPos a) op (isPos b)

/-- The exact sum or difference. -/
def exactResult (op : Bool) (a b : ℤ) : ℤ := if op then a + b else a - b

/-- `fr_add` or `fr_sub`, and the value for an overflow -/
def saturating (out : TimeType) (op : Bool) (a : s.Value) (b : t.Value) : out.Value :=
  ⟨out.wrap (frTimeOverflowIspos a op b) (exactResult op a.1 b.1), out.wrap_mem _ _⟩

theorem signed (ht : t ≠ unixTime) (a : t.Value) :
    isPos a = decide (0 ≤ a.1) ∧ t.min = -2 ^ 63 ∧ t.max = 2 ^ 63 - 1 := by
  cases t <;> first | exact absurd rfl ht | exact ⟨rfl, rfl, rfl⟩

section Signed

variable {out : TimeType} (hs : s ≠ unixTime) (ht : t ≠ unixTime) (hout : out ≠ unixTime)
  (a : s.Value) (b : t.Value)

include hs ht hout

/-- The operands of a sum that overflows have the same sign, those of a difference do not. That is
all that the formula tells, so it takes every overflow for one above the range. -/
theorem saturating_eq_clamp_iff (op : Bool) :
    (saturating out op a b).1 = out.clamp (exactResult op a.1 b.1) ↔
      -2 ^ 63 ≤ exactResult op a.1 b.1 := by
  obtain ⟨ha, hsmin, hsmax⟩ := signed hs a
  obtain ⟨hb, htmin, htmax⟩ := signed ht b
  obtain ⟨-, hmin, hmax⟩ := signed hout (saturating out op a b)
  refine wrap_eq_clamp_iff.trans ?_
  rw [frTimeOverflowIspos, frTimeOpIspos, ha, hb, hmin, hmax]
  cases op <;> simp only [exactResult] <;> grind

end Signed

end Functions

abbrev FrTime := time.Value
abbrev FrTimeDelta := timeDelta.Value
abbrev FrUnixTime := unixTime.Value

def frTimeAddTimeDelta : FrTime → FrTimeDelta → FrTime := saturating time true
def frTimeAddDeltaTime : FrTimeDelta → FrTime → FrTime := saturating time true
def frTimeSubTimeTime : FrTime → FrTime → FrTimeDelta := saturating timeDelta false
def frTimeSubTimeDelta : FrTime → FrTimeDelta → FrTime := saturating time false
def frTimeDeltaAdd : FrTimeDelta → FrTimeDelta → FrTimeDelta := saturating timeDelta true
def frTimeDeltaSub : FrTimeDelta → FrTimeDelta → FrTimeDelta := saturating timeDelta false
def frUnixTimeAddTimeDelta : FrUnixTime → FrTimeDelta → FrUnixTime := saturating unixTime true
def frUnixTimeAddDeltaTime : FrTimeDelta → FrUnixTime → FrUnixTime := saturating unixTime true
def frUnixTimeSubTimeTime : FrUnixTime → FrUnixTime → FrTimeDelta := saturating timeDelta false
def frUnixTimeSubTimeDelta : FrUnixTime → FrTimeDelta → FrUnixTime := saturating unixTime false

/-- The functions clamp the exact result, but a sum or difference below the range of a signed type
becomes its greatest value, and a difference of unix times above it the smallest one. -/
theorem timeArithmetic_iff (a b : FrTime) (d e : FrTimeDelta) (u v : FrUnixTime) :
    ((frTimeAddTimeDelta a d).1 = time.clamp (a.1 + d.1) ↔ -2 ^ 63 ≤ a.1 + d.1) ∧
    ((frTimeAddDeltaTime d a).1 = time.clamp (d.1 + a.1) ↔ -2 ^ 63 ≤ d.1 + a.1) ∧
    ((frTimeSubTimeTime a b).1 = timeDelta.clamp (a.1 - b.1) ↔ -2 ^ 63 ≤ a.1 - b.1) ∧
    ((frTimeSubTimeDelta a d).1 = time.clamp (a.1 - d.1) ↔ -2 ^ 63 ≤ a.1 - d.1) ∧
    ((frTimeDeltaAdd d e).1 = timeDelta.clamp (d.1 + e.1) ↔ -2 ^ 63 ≤ d.1 + e.1) ∧
    ((frTimeDeltaSub d e).1 = timeDelta.clamp (d.1 - e.1) ↔ -2 ^ 63 ≤ d.1 - e.1) ∧
    (frUnixTimeAddTimeDelta u d).1 = unixTime.clamp (u.1 + d.1) ∧
    (frUnixTimeAddDeltaTime d u).1 = unixTime.clamp (d.1 + u.1) ∧
    ((frUnixTimeSubTimeTime u v).1 = timeDelta.clamp (u.1 - v.1) ↔ u.1 - v.1 < 2 ^ 63) ∧
    (frUnixTimeSubTimeDelta u d).1 = unixTime.clamp (u.1 - d.1) := by
  have htime : time ≠ unixTime := nofun
  have hdelta : timeDelta ≠ unixTime := nofun
  refine ⟨saturating_eq_clamp_iff htime hdelta htime a d true,
    saturating_eq_clamp_iff hdelta htime htime d a true,
    saturating_eq_clamp_iff htime htime hdelta a b false,
    saturating_eq_clamp_iff htime hdelta htime a d false,
    saturating_eq_clamp_iff hdelta hdelta hdelta d e true,
    saturating_eq_clamp_iff hdelta hdelta hdelta d e false,
    wrap_eq_clamp_iff.mpr ?_, wrap_eq_clamp_iff.mpr ?_, wrap_eq_clamp_iff.trans ?_,
    wrap_eq_clamp_iff.mpr ?_⟩
  -- A unix time counts as positive, so the sign of the other operand decides.
  all_goals
    simp only [exactResult, frTimeOverflowIspos, frTimeOpIspos, isPos, TimeType.min,
      TimeType.max] at *
    grind

theorem timeArithmetic_wrong_end :
    (frTimeDeltaAdd ⟨-2 ^ 63, by decide⟩ ⟨-1, by decide⟩).1 = 2 ^ 63 - 1 ∧
    timeDelta.clamp (-2 ^ 63 + -1) = -2 ^ 63 ∧
    (frUnixTimeSubTimeTime ⟨2 ^ 63, by decide⟩ ⟨0, by decide⟩).1 = -2 ^ 63 ∧
    timeDelta.clamp (2 ^ 63 - 0) = 2 ^ 63 - 1 := by
  decide

section Remainder

open Calc

/-- A value box of one of the types `date` and `time_delta` -/
inductive TimeBox where
  | date (vb : FrUnixTime)
  | timeDelta (vb : FrTimeDelta)

def TimeBox.value : TimeBox → ℤ
  | .date vb => vb.1
  | .timeDelta vb => vb.1

/-- `fr_unix_time_unwrap(a->vb_date)`, which is unsigned, of a box of any type -/
def TimeBox.vbDate (a : TimeBox) : ℤ := a.value % 2 ^ 64

/-- `calc_time_delta`, the operator `T_MOD` -/
def calcTimeDeltaMod : TimeBox → TimeBox → Outcome ℤ
  | .date _, .date _ => .error .failed
  | _, .date _ => .error .invalid
  | a, .timeDelta b => if 0 < b.1 then .ok (a.vbDate % b.1) else .error .invalid

/-- `fr_value_calc_binary_op`, the operator `T_MOD` without a hint. A delta and a date are upcast to
a date, and `calc_date` has no remainder. -/
def frValueCalcMod : TimeBox → TimeBox → Outcome ℤ
  | .timeDelta _, .date _ => .error .invalid
  | a, b => calcTimeDeltaMod a b

/-- `r` is what is left of `a` after the division by `b` that rounds towards zero. -/
structure IsRemainder (a b r : ℤ) : Prop where
  lt : |r| < b
  dvd : b ∣ a - r
  sign : r = 0 ∨ r.sign = a.sign

theorem TimeBox.vbDate_of_nonneg {a : TimeBox} (h : 0 ≤ a.value) : a.vbDate = a.value := by
  refine Int.emod_eq_of_lt h ?_
  cases a with
  | date vb => exact Int.lt_of_le_sub_one vb.2.2
  | timeDelta vb => exact (Int.lt_of_le_sub_one vb.2.2).trans (by decide)

/-- A negative delta is taken for the number that is larger by `2 ^ 64`. -/
theorem TimeBox.vbDate_of_neg {a : TimeBox} (h : a.value < 0) : a.vbDate = a.value + 2 ^ 64 := by
  cases a with
  | date vb => exact absurd vb.2.1 (not_le.mpr h)
  | timeDelta vb =>
    have hmin : -2 ^ 63 ≤ vb.1 := vb.2.1
    rw [vbDate, ← Int.add_emod_right]
    exact Int.emod_eq_of_lt (by rw [value]; omega) (by omega)

theorem frValueCalcMod_isRemainder_iff (a : TimeBox) (b : FrTimeDelta) (hb : 0 < b.1) :
    (∀ r, frValueCalcMod a (.timeDelta b) = .ok r → IsRemainder a.value b.1 r) ↔
      0 ≤ a.value ∨ b.1 ∣ a.value ∧ b.1 ∣ 2 ^ 64 := by
  have hmod : frValueCalcMod a (.timeDelta b) = .ok (a.vbDate % b.1) := by
    cases a <;> exact if_pos hb
  have hnonneg := Int.emod_nonneg a.vbDate hb.ne'
  have hlt := Int.emod_lt_of_pos a.vbDate hb
  rw [hmod]
  constructor
  · intro hall
    obtain ⟨-, hdvd, hsign⟩ := hall _ rfl
    refine or_iff_not_imp_left.mpr fun hneg => ?_
    rw [not_le] at hneg
    have hzero : a.vbDate % b.1 = 0 := by
      rw [Int.sign_eq_neg_one_of_neg hneg, Int.sign_eq_neg_one_iff_neg] at hsign
      omega
    rw [hzero, Int.sub_zero] at hdvd
    rw [TimeBox.vbDate_of_neg hneg] at hzero
    exact ⟨hdvd, (Int.dvd_add_right hdvd).mp (Int.dvd_of_emod_eq_zero hzero)⟩
  · rintro h _ ⟨⟩
    rcases le_or_gt 0 a.value with hpos | hneg
    · rw [TimeBox.vbDate_of_nonneg hpos] at hnonneg hlt ⊢
      refine ⟨by rwa [abs_of_nonneg hnonneg], Int.dvd_self_sub_emod, ?_⟩
      rcases hpos.eq_or_lt with hzero | hpos
      · exact .inl (by rw [← hzero, Int.zero_emod])
      · rw [Int.sign_eq_one_of_pos hpos, Int.sign_eq_one_iff_pos]
        omega
    · obtain ⟨hdvd, hpow⟩ := h.resolve_left (not_le.mpr hneg)
      have hzero : a.vbDate % b.1 = 0 := by
        rw [TimeBox.vbDate_of_neg hneg]
        exact Int.emod_eq_zero_of_dvd (Int.dvd_add hdvd hpow)
      rw [hzero]
      exact ⟨by simpa using hb, by simpa using hdvd, .inl rfl⟩

theorem frValueCalcMod_seven :
    frValueCalcMod (.date ⟨7, by decide⟩) (.timeDelta ⟨3, by decide⟩) = .ok 1 ∧ IsRemainder 7 3 1 :=
  ⟨by decide, (frValueCalcMod_isRemainder_iff (.date ⟨7, by decide⟩) ⟨3, by decide⟩ (by decide)).mpr
    (.inl (by decide)) 1 (by decide)⟩

/-- The remainder of -5 ns by 3 ns is 2 ns. -/
theorem frValueCalcMod_negative :
    frValueCalcMod (.timeDelta ⟨-5, by decide⟩) (.timeDelta ⟨3, by decide⟩) = .ok 2 ∧
      ¬IsRemainder (-5) 3 2 :=
  ⟨by decide, fun h => absurd h.dvd (by decide)⟩

end Remainder

end FreeRadius.Time
