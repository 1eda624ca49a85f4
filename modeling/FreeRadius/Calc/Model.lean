import Mathlib.Algebra.Group.Nat.Defs
import Mathlib.Data.Int.Init

/-!
# Integer arithmetic on value boxes

`fr_value_calc_binary_op` of `util/calc.c` for boxes of the integer types, with the casts of
`util/value.c` between them, on a host whose numbers lie with the low byte first. A box is a type and
the eight bytes at the beginning of its `datum`, as one word: `fr_value_box_init` clears them, and
storing a number writes as many of them as the type has.
-/

namespace FreeRadius.Calc

section Types

/-- The integer types of `fr_type_t` -/
inductive IntType where
  | uint8 | uint16 | uint32 | uint64
  | int8 | int16 | int32 | int64
  deriving DecidableEq, Repr

namespace IntType

/-- `fr_value_box_field_sizes` -/
def size : IntType → ℕ
  | uint8 | int8 => 1
  | uint16 | int16 => 2
  | uint32 | int32 => 4
  | uint64 | int64 => 8

/-- `fr_type_is_signed` -/
def signed : IntType → Bool
  | uint8 | uint16 | uint32 | uint64 => false
  | int8 | int16 | int32 | int64 => true

/-- `fr_value_box_integer_max` -/
def max : IntType → ℕ
  | uint8 => 0xff
  | uint16 => 0xffff
  | uint32 => 0xffffffff
  | uint64 => 0xffffffffffffffff
  | int8 => 0x7f
  | int16 => 0x7fff
  | int32 => 0x7fffffff
  | int64 => 0x7fffffffffffffff

/-- `fr_value_box_integer_min` -/
def min : IntType → ℤ
  | uint8 | uint16 | uint32 | uint64 => 0
  | int8 => -0x80
  | int16 => -0x8000
  | int32 => -0x80000000
  | int64 => -0x8000000000000000

end IntType

/-- The bytes of a word that a number of `len` bytes takes, the others cleared. -/
def lowBytes (len : ℕ) (word : BitVec 64) : BitVec 64 := (word.setWidth (8 * len)).setWidth 64

theorem toNat_lowBytes (len : ℕ) (word : BitVec 64) :
    (lowBytes len word).toNat = word.toNat % 2 ^ (8 * len) := by
  rw [lowBytes, BitVec.toNat_setWidth, BitVec.toNat_setWidth]
  exact Nat.mod_eq_of_lt (Nat.lt_of_le_of_lt (Nat.mod_le _ _) word.isLt)

/-- An integer `fr_value_box_t`: `word` is `vb_uint64`, whatever the type is. -/
structure Box where
  type : IntType
  word : BitVec 64
  clean : word.toNat < 2 ^ (8 * type.size)
  deriving DecidableEq

def Box.value (b : Box) : ℤ :=
  if b.type.signed then (b.word.setWidth (8 * b.type.size)).toInt else b.word.toNat

def Box.ofWord (type : IntType) (word : BitVec 64) : Box where
  type := type
  word := lowBytes type.size word
  clean := by
    rw [toNat_lowBytes]
    exact Nat.mod_lt _ (Nat.two_pow_pos _)

/-- `T_ADD`, `T_SUB`, `T_MUL`, `T_DIV` and `T_MOD` -/
inductive ArithOp where
  | add | sub | mul | div | mod
  deriving DecidableEq, Repr

/-- The operators of `fr_token_t` that are not comparisons -/
inductive Op where
  | arith (op : ArithOp)
  | and | or | xor | rshift | lshift
  deriving DecidableEq, Repr

/-- `ERR_ZERO`, `ERR_UNDERFLOW`, `ERR_OVERFLOW`, `ERR_INVALID`, and the -1 of a failed cast or of
types that have no common one. -/
inductive CalcError where
  | zero | underflow | overflow | invalid | failed
  deriving DecidableEq, Repr

/-- What a calculation comes to: `undefined` is a division that C does not define. -/
inductive Outcome (α : Type) where
  | ok (a : α)
  | error (e : CalcError)
  | undefined
  deriving DecidableEq

end Types

section Casts

def signBitHigh (word : BitVec 64) (len : ℕ) : Bool := (1#64 <<< (8 * len - 1) &&& word) != 0#64

def signPromote (word : BitVec 64) (len : ℕ) : BitVec 64 :=
  if len < 8 then word ||| (~~~0#64 <<< (8 * len)) else word

/-- `fr_value_box_cast_integer_to_integer` to a type with this field and greatest number. -/
def frValueBoxCastIntegerToInteger (dstType : IntType) (dstMax : ℕ) (src : Box) : Option Box :=
  let len := src.type.size
  let tmp := lowBytes len src.word
  if src.type.min < 0 then
    let tmp := if signBitHigh tmp len then signPromote tmp len else tmp
    if tmp.toInt < dstType.min then none
    else some (Box.ofWord dstType tmp)
  else if tmp.toNat > dstMax then none
  else some (Box.ofWord dstType tmp)

def frValueBoxCast (dstType : IntType) (src : Box) : Option Box :=
  if dstType = src.type then some src
  else frValueBoxCastIntegerToInteger dstType dstType.max src

def coerce (src : Box) (type : IntType) : Option Box :=
  if src.type ≠ type then frValueBoxCast type src else some src

end Casts

section Operations

/-- `fr_add`, `fr_sub` and `fr_multiply` with the answers of the builtins, on unsigned words -/
def frAdd (a b : BitVec 64) : Option (BitVec 64) :=
  if BitVec.uaddOverflow a b then none else some (a + b)

def frSub (a b : BitVec 64) : Option (BitVec 64) :=
  if BitVec.usubOverflow a b then none else some (a - b)

def frMultiply (a b : BitVec 64) : Option (BitVec 64) :=
  if BitVec.umulOverflow a b then none else some (a * b)

def frAddSigned (a b : BitVec 64) : Option (BitVec 64) :=
  if BitVec.saddOverflow a b then none else some (a + b)

def frSubSigned (a b : BitVec 64) : Option (BitVec 64) :=
  if BitVec.ssubOverflow a b then none else some (a - b)

def frMultiplySigned (a b : BitVec 64) : Option (BitVec 64) :=
  if BitVec.smulOverflow a b then none else some (a * b)

def orError (e : CalcError) : Option (BitVec 64) → Outcome (BitVec 64)
  | none => .error e
  | some word => .ok word

def Op.isShift : Op → Bool
  | .rshift | .lshift => true
  | _ => false

/-- The `switch` of `calc_uint64`. The remainder is taken by the word of the second input as it was
before the cast. -/
def switchUint64 (op : Op) (a b in2 : BitVec 64) : Outcome (BitVec 64) :=
  match op with
  | .arith .add => orError .overflow (frAdd a b)
  | .arith .sub => orError .underflow (frSub a b)
  | .arith .mul => orError .overflow (frMultiply a b)
  | .arith .div => if b = 0 then .error .zero else .ok (a / b)
  | .arith .mod => if b = 0 then .error .zero else if in2 = 0 then .undefined else .ok (a % in2)
  | .and => .ok (a &&& b)
  | .or => .ok (a ||| b)
  | .xor => .ok (a ^^^ b)
  | .rshift => if (b.setWidth 32).toNat ≥ 64 then .error .underflow else .ok (a >>> b.setWidth 32)
  | .lshift => if (b.setWidth 32).toNat ≥ 64 then .error .overflow else .ok (a <<< b.setWidth 32)

/-- C leaves the quotient and the remainder of the lowest number by -1 undefined. -/
def divides (a b : BitVec 64) : Bool := b ≠ 0 ∧ ¬ (a = BitVec.intMin 64 ∧ b = -1)

def switchInt64 (op : Op) (a b in2 : BitVec 64) : Outcome (BitVec 64) :=
  match op with
  | .arith .add => orError .overflow (frAddSigned a b)
  | .arith .sub => orError .underflow (frSubSigned a b)
  | .arith .mul => orError .overflow (frMultiplySigned a b)
  | .arith .div =>
    if b = 0 then .error .zero
    else if divides a b then .ok (a.sdiv b) else .undefined
  | .arith .mod =>
    if b = 0 then .error .zero
    else if divides a in2 then .ok (a.srem in2) else .undefined
  | .and => .ok (a &&& b)
  | .or => .ok (a ||| b)
  | .xor => .ok (a ^^^ b)
  | .rshift =>
    if (b.setWidth 32).toNat ≥ 64 then .error .underflow
    else .ok (a.sshiftRight (b.setWidth 32).toNat)
  | .lshift => if (b.setWidth 32).toNat ≥ 64 then .error .overflow else .ok (a <<< b.setWidth 32)

/-- "Once we're done, cast the result to the final data type." -/
def castResult (type : IntType) (htype : type.size = 8) (dstType : IntType) :
    Outcome (BitVec 64) → Outcome Box
  | .error e => .error e
  | .undefined => .undefined
  | .ok word =>
    match frValueBoxCast dstType ⟨type, word, by rw [htype]; exact word.isLt⟩ with
    | none => .error .failed
    | some dst => .ok dst

/-- `calc_uint64` and `calc_int64`, which differ in the type that they calculate in and in the
`switch`. -/
def calc64 (type : IntType) (switch : Op → BitVec 64 → BitVec 64 → BitVec 64 → Outcome (BitVec 64))
    (htype : type.size = 8) (dstType : IntType) (in1 : Box) (op : Op) (in2 : Box) : Outcome Box :=
  match coerce in1 type with
  | none => .error .failed
  | some a =>
    match if op.isShift then some in2 else coerce in2 type with
    | none => .error .failed
    | some b => castResult type htype dstType (switch op a.word b.word in2.word)

def calcUint64 : IntType → Box → Op → Box → Outcome Box := calc64 .uint64 switchUint64 rfl

def calcInt64 : IntType → Box → Op → Box → Outcome Box := calc64 .int64 switchInt64 rfl

def calcType (dstType : IntType) : Box → Op → Box → Outcome Box :=
  if dstType.signed then calcInt64 dstType else calcUint64 dstType

end Operations

section Calculate

open IntType

/-- `upcast_op`, the entries of the integer types -/
def upcastOp : IntType → IntType → Option IntType
  | uint8, uint8 | uint8, uint16 | uint8, uint32 | uint8, uint64 => some uint64
  | uint8, int8 | uint8, int16 | uint8, int32 | uint8, int64 => some int64
  | uint16, uint16 | uint16, uint32 | uint16, uint64 => some uint64
  | uint16, int8 | uint16, int16 | uint16, int32 | uint16, int64 => some int64
  | uint32, uint32 | uint32, uint64 => some uint64
  | uint32, int8 | uint32, int16 | uint32, int32 | uint32, int64 => some int64
  | uint64, uint64 => some uint64
  | uint64, int64 => some int64
  | int8, int8 | int8, int16 | int8, int32 | int8, int64 => some int64
  | int16, int16 | int16, int32 | int16, int64 => some int64
  | int32, int64 => some int64
  | int64, int64 => some int64
  | _, _ => none

/-- The type of the result, when none is given. -/
def guess (a : Box) (op : Op) (b : Box) : Option IntType :=
  match op with
  | .lshift => some (if a.type.signed then int64 else uint64)
  | .rshift => some a.type
  | _ => (upcastOp a.type b.type).or (upcastOp b.type a.type)

def frValueCalcBinaryOp (hint : Option IntType) (a : Box) (op : Op) (b : Box) : Outcome Box :=
  match hint.or (guess a op b) with
  | none => .error .failed
  | some dstType =>
    match if op.isShift && b.type ≠ uint32 then frValueBoxCast uint32 b else some b with
    | none => .error .failed
    | some b => calcType dstType a op b

end Calculate

end FreeRadius.Calc
