import FreeRadius.Cbor.Model

/-!
# CBOR decoding

The decoding functions of `cbor.c`. A buffer is the bytes behind its position,
so a position further on is a shorter list.
-/

namespace FreeRadius.Cbor

open Library

/-- The conversions of C between a byte and the floating point types. -/
structure FloatOps where
  ofByte32 : UInt8 → BitVec 32
  ofByte64 : UInt8 → BitVec 64
  widen : BitVec 32 → BitVec 64
  narrow : BitVec 64 → BitVec 32

/-- For data without floating point numbers. -/
def FloatOps.unused : FloatOps := ⟨fun _ => 0, fun _ => 0, fun _ => 0, fun _ => 0⟩

/-- `major >>= 5` -/
def majorOf (byte : UInt8) : ℕ := byte.toNat >>> 5

/-- `info = major & 0x1f` -/
def infoOf (byte : UInt8) : ℕ := byte.toNat &&& 0x1f

/-- `cbor_decode_integer`. With an invalid `info` the output keeps the content
it had, which is `none` for a variable that has not been set. -/
def cborDecodeInteger (out : Option ℕ) (info : ℕ) (dbuff : List UInt8) :
    Except Failure (ℕ × List UInt8) :=
  if info < 24 then .ok (info, dbuff)
  else if info = cbor1Byte then decodeLong 1
  else if info = cbor2Byte then decodeLong 2
  else if info = cbor4Byte then decodeLong 4
  else if info = cbor8Byte then decodeLong 8
  else match out with
    | some value => .ok (value, dbuff)
    | none => .error ⟨0, some .notSet⟩
where
  /-- An integer of `w` bytes behind the header. -/
  decodeLong (w : ℕ) : Except Failure (ℕ × List UInt8) := do
    let (value, work) ← frDbuffOutInteger w dbuff
    frDbuffSetIn dbuff work value

def cborDecodeCount (out : Option ℕ) (expected : ℕ) (dbuff : List UInt8) :
    Except Failure (ℕ × List UInt8) := do
  let (byte, work) ← frDbuffOut dbuff
  if majorOf byte ≠ expected then .error ⟨-1, some (.expectedType expected (majorOf byte))⟩
  else
    let (value, work) ← returnIfNegative dbuff work (cborDecodeInteger out (infoOf byte) work)
    frDbuffSetIn dbuff work value

def cborDecodeOctetsMemcpy (dstMin dstMax : ℕ) (dbuff : List UInt8) :
    Except Failure (List UInt8 × List UInt8) := do
  let (value, work) ← returnIfNegative dbuff dbuff (cborDecodeCount (some 0) cborOctets dbuff)
  if value < dstMin then .error ⟨-1, some (.lengthBelow dstMin value)⟩
  else if dstMax < value then .error ⟨-1, some (.lengthAbove dstMax value)⟩
  else
    let (data, work) ← frDbuffOutMemcpy value work
    frDbuffSetIn dbuff work data

def cborDecodeEthernet (dbuff : List UInt8) : Except Failure (FrValueBox × List UInt8) := do
  let (addr, rest) ← cborDecodeOctetsMemcpy 6 6 dbuff
  .ok (.ethernet addr, rest)

/-- The array around an address that has a prefix or a scope: the number of its
elements, or zero if there is none. -/
def decodeInterface (dbuff : List UInt8) : Except Failure (ℕ × List UInt8) :=
  match dbuff with
  | [] => .error ⟨-1, none⟩
  | byte :: rest =>
    if majorOf byte = cborArray then
      if infoOf byte ≠ 2 ∧ infoOf byte ≠ 3 then .error ⟨-1, some (.interfaceArray byte)⟩
      else .ok (infoOf byte, rest)
    else .ok (0, dbuff)

variable (dbuff work : List UInt8)

/-- What follows the address in an array of `count`: the prefix, which has to
be `bits`, and the scope. -/
def decodeScope (count bits : ℕ) (ip : FrIpaddr)
    (invalid : ℕ → CborError) : Except Failure (FrIpaddr × List UInt8) := do
  let (value, work) ← returnUnlessPositive dbuff work (cborDecodeCount (some 0) cborInteger work)
  if value ≠ bits then .error ⟨-(dbuff.length - work.length), some (invalid value)⟩
  else if count = 2 then frDbuffSetIn dbuff work ip
  else
    let (value, work) ←
      returnUnlessPositive dbuff work (cborDecodeCount (some bits) cborInteger work)
    frDbuffSetIn dbuff work { ip with scopeId := value % 2 ^ 32 }

def cborDecodeIpv4Addr (dbuff : List UInt8) : Except Failure (FrIpaddr × List UInt8) := do
  let (count, work) ← decodeInterface dbuff
  let (addr, work) ← returnUnlessPositive dbuff work (cborDecodeOctetsMemcpy 4 4 work)
  let ip : FrIpaddr := ⟨false, addr, 32, 0⟩
  if count = 0 then frDbuffSetIn dbuff work ip
  else decodeScope dbuff work count 32 ip .ipv4Address

/-- Other than for IPv4, the address is read from `dbuff` and not from the copy
of it, which stays where it is. -/
def cborDecodeIpv6Addr (dbuff : List UInt8) : Except Failure (FrIpaddr × List UInt8) := do
  let (count, work) ← decodeInterface dbuff
  let (addr, dbuffRest) ← returnUnlessPositive dbuff dbuff (cborDecodeOctetsMemcpy 16 16 dbuff)
  let ip : FrIpaddr := ⟨true, addr, 128, 0⟩
  if count = 0 then frDbuffSetIn dbuffRest work ip
  else do
    let (ip, work) ← decodeScope dbuff work count 128 ip .ipv6Address
    frDbuffSetIn dbuffRest work ip

/-- `cbor_decode_ipv4_prefix` and `cbor_decode_ipv6_prefix`, for addresses of
so many bits. -/
def decodePrefix (v6 : Bool) (bits : ℕ) (dbuff : List UInt8) :
    Except Failure (FrIpaddr × List UInt8) := do
  let (byte, work) ← frDbuffOut dbuff
  if byte ≠ header cborArray 2 then .error ⟨-1, some (.prefixArray bits byte)⟩
  else
    let (value, work) ← returnUnlessPositive dbuff work (cborDecodeCount (some 0) cborInteger work)
    if bits < value then .error ⟨-1, some (.prefixLength bits value)⟩
    else
      let (data, work) ← returnUnlessPositive dbuff work (cborDecodeOctetsMemcpy 0 (bits / 8) work)
      -- the buffer is zero behind the octets that have been read
      let addr := data ++ List.replicate (bits / 8 - data.length) 0
      frDbuffSetIn dbuff work ⟨v6, addr, value, 0⟩

def cborDecodeIpv4Prefix (dbuff : List UInt8) : Except Failure (FrIpaddr × List UInt8) :=
  decodePrefix false 32 dbuff

def cborDecodeIpv6Prefix (dbuff : List UInt8) : Except Failure (FrIpaddr × List UInt8) :=
  decodePrefix true 128 dbuff

def cborDecodeInt64 (type : FrType) (dbuff : List UInt8) : Except Failure (ℤ × List UInt8) := do
  let (byte, work) ← frDbuffOut dbuff
  if majorOf byte = cborInteger then
    let (value, work) ← returnIfNegative dbuff work (cborDecodeInteger (some 0) (infoOf byte) work)
    if 2 ^ 63 ≤ value then .error ⟨-1, some (.tooLarge type)⟩
    else frDbuffSetIn dbuff work (value : ℤ)
  else if majorOf byte = cborNegative then
    let (value, work) ← returnIfNegative dbuff work (cborDecodeInteger (some 0) (infoOf byte) work)
    if 2 ^ 63 ≤ value then .error ⟨-1, some (.tooLarge type)⟩
    else frDbuffSetIn dbuff work (-(value : ℤ) - 1)
  else .error ⟨-1, some (.content (majorOf byte) type)⟩

def frUnixTimeFromSec (sec : ℤ) : ℕ :=
  if 0 ≤ sec * nsec ∧ sec * nsec < 2 ^ 64 then (sec * nsec).toNat
  else if 0 < sec then 2 ^ 64 - 1 else 0

/-- The number is read from `dbuff` and not from the copy of it, so that
`fr_dbuff_set` moves the buffer back. -/
def cborDecodeDate (dbuff : List UInt8) : Except Failure (FrValueBox × List UInt8) := do
  let (neg, dbuffRest) ← returnUnlessPositive dbuff dbuff (cborDecodeInt64 .date dbuff)
  frDbuffSetIn dbuffRest dbuff (.date (frUnixTimeFromSec neg))

/-- The number of fractions that a second has, from the key of the fraction. -/
def fractionScale : ℤ → Option ℤ
  | -3 => some msec
  | -6 => some usec
  | -9 => some nsec
  | _ => none

/-- The second entry of the map of a time delta: the scale and the fraction. -/
def decodeFraction : Except Failure ((ℤ × ℤ) × List UInt8) := do
  let (key, work) ← returnIfNegative dbuff work (cborDecodeInt64 .timeDelta work)
  match fractionScale key with
  | none => .error ⟨-(dbuff.length - work.length), some (.timeDeltaFraction key)⟩
  | some scale =>
    let (fraction, work) ← returnIfNegative dbuff work (cborDecodeInt64 .timeDelta work)
    .ok ((scale, if fraction < 0 ∨ scale < fraction then 0 else fraction), work)

def int64Max : ℤ := 2 ^ 63 - 1
def int64Min : ℤ := -2 ^ 63

/-- A time delta from its parts. -/
def timeDeltaOf (seconds scale fraction : ℤ) : ℤ :=
  if int64Max.tdiv scale < seconds then int64Max
  else if seconds < int64Min.tdiv scale then int64Min
  else if seconds * scale < 0 then seconds * scale - fraction
  else seconds * scale + fraction

def cborDecodeTimeDelta (dbuff : List UInt8) : Except Failure (FrValueBox × List UInt8) := do
  let (count, work) ← returnIfNegative dbuff dbuff (cborDecodeCount none cborMap dbuff)
  if count = 0 ∨ 2 < count then .error ⟨-1, some (.timeDeltaCount count)⟩
  else
    let (key, work) ← returnIfNegative dbuff work (cborDecodeInt64 .timeDelta work)
    if key ≠ 1 then .error ⟨-1, some (.timeDeltaKey key)⟩
    else
      let (seconds, work) ← returnIfNegative dbuff work (cborDecodeInt64 .timeDelta work)
      if 1 < count then do
        let ((scale, fraction), work) ← decodeFraction dbuff work
        frDbuffSetIn dbuff work (.timeDelta (timeDeltaOf seconds scale fraction))
      else frDbuffSetIn dbuff work (.timeDelta (timeDeltaOf seconds nsec 0))

/-- `cbor_decode_type`, for the types that have a tag. -/
def cborDecodeType (type : FrType) (dbuff : List UInt8) :
    Except Failure (FrValueBox × List UInt8) :=
  match type with
  | .ethernet => cborDecodeEthernet dbuff
  | .date => cborDecodeDate dbuff
  | .timeDelta => cborDecodeTimeDelta dbuff
  | .ip t => do
    let (ip, rest) ← (match t with
      | .ipv4Addr => cborDecodeIpv4Addr
      | .ipv6Addr => cborDecodeIpv6Addr
      | .ipv4Prefix => cborDecodeIpv4Prefix
      | .ipv6Prefix => cborDecodeIpv6Prefix) dbuff
    .ok (.ip t ip, rest)
  | _ => .error ⟨0, some .notSet⟩

/-- The type of an address from the byte behind its tag. -/
def guessIp (dbuff : List UInt8) (addr prefixType : IpType) : FrType :=
  match dbuff with
  | [] => .null
  | byte :: _ => if majorOf byte = cborArray then .ip prefixType else .ip addr

/-- `cbor_guess_type`; `FR_TYPE_NULL` if it has no idea. -/
def cborGuessType (dbuff : List UInt8) (pair : Bool) : FrType :=
  match dbuff with
  | [] => .null
  | byte :: work =>
    match majorOf byte with
    | 0 => .integer .uint64
    | 1 => .integer .uint64
    | 2 => .octets
    | 3 => .string
    | 4 => if pair then .null else .structural .group
    | 5 => .structural .tlv
    | 6 =>
      match cborDecodeInteger none (infoOf byte) work with
      | .error _ => .null
      | .ok (value, work) =>
        if value = 1 ∨ value = 1001 then .date
        else if value = 1002 then .timeDelta
        else if value = 48 then .ethernet
        else if value = 52 then guessIp work .ipv4Addr .ipv4Prefix
        else if value = 54 then guessIp work .ipv6Addr .ipv6Prefix
        else .null
    | _ =>
      if infoOf byte < 24 then if infoOf byte = 20 ∨ infoOf byte = 21 then .bool else .null
      else .float64

def IntType.max (t : IntType) : ℕ := if t.isSigned then 2 ^ (t.width - 1) - 1 else 2 ^ t.width - 1

def IntType.min (t : IntType) : ℤ := -2 ^ (t.width - 1)

/-- Combinations of major type and info that are never valid. -/
def isMalformed (byte : UInt8) : Bool :=
  (28 ≤ infoOf byte && infoOf byte ≤ 30) ||
    (infoOf byte = 31 && (majorOf byte = 0 || majorOf byte = 1 || majorOf byte = 6))

/-- The length and the bytes of a string, which may not be in chunks. -/
def decodeBytes (info : ℕ) :
    Except Failure (List UInt8 × List UInt8) := do
  if info = 31 then .error ⟨0, some .chunked⟩
  else
    let (value, work) ← returnIfNegative dbuff work (cborDecodeInteger none info work)
    if 2 ^ 20 < value then .error ⟨-1, some (.stringTooLong value)⟩
    else if value = 0 then .ok ([], work)
    else frDbuffOutMemcpy value work

/-- `fr_value_box_strdup_shallow`: the string ends at its first zero byte. -/
def strdupShallow (src : List UInt8) : FrValueBox := .string (src.takeWhile (· ≠ 0))

/-- `CBOR_STRING` of `fr_cbor_decode_value_box` -/
def decodeStringBox (type : FrType) (info : ℕ) :
    Except Failure (FrValueBox × List UInt8) := do
  if type ≠ .string then .error ⟨-1, some (.content cborString type)⟩
  else
    let (data, work) ← decodeBytes dbuff work info
    frDbuffSetIn dbuff work (strdupShallow data)

/-- `CBOR_OCTETS` of `fr_cbor_decode_value_box` -/
def decodeOctetsBox (type : FrType) (info : ℕ) :
    Except Failure (FrValueBox × List UInt8) := do
  if type ≠ .octets then .error ⟨-1, some (.content cborOctets type)⟩
  else
    let (data, work) ← decodeBytes dbuff work info
    frDbuffSetIn dbuff work (.octets data)

def integerBox (type : FrType) (value : ℕ) : Except Failure FrValueBox :=
  match type with
  | .bool =>
    if 1 < value then .error ⟨-(dbuff.length - work.length), some .notBoolean⟩
    else .ok (.bool (value = 1))
  | .integer t => if t.max < value then .error ⟨-1, some (.tooLarge type)⟩ else .ok (t.store value)
  | _ => .error ⟨-1, some (.integerType type)⟩

/-- `CBOR_INTEGER` of `fr_cbor_decode_value_box` -/
def decodeIntegerBox (type : FrType) (info : ℕ) :
    Except Failure (FrValueBox × List UInt8) := do
  let (value, work) ← returnIfNegative dbuff work (cborDecodeInteger none info work)
  let vb ← integerBox dbuff work type value
  frDbuffSetIn dbuff work vb

def negativeBox (type : FrType) (neg : ℤ) : Except Failure FrValueBox :=
  match type with
  | .integer t =>
    if t.isSigned = false then .error ⟨-1, some (.integerType type)⟩
    else if neg < t.min then .error ⟨-1, some (.tooLarge type)⟩
    else .ok (t.store neg)
  | _ => .error ⟨-1, some (.integerType type)⟩

/-- `CBOR_NEGATIVE` of `fr_cbor_decode_value_box` -/
def decodeNegativeBox (type : FrType) (info : ℕ) :
    Except Failure (FrValueBox × List UInt8) := do
  let (value, work) ← returnIfNegative dbuff work (cborDecodeInteger none info work)
  if 2 ^ 63 ≤ value then .error ⟨-1, some (.tooLarge type)⟩
  else
    let vb ← negativeBox type (-(value : ℤ) - 1)
    frDbuffSetIn dbuff work vb

/-- The box for a simple value. NULL is "nothing" for the types that can be
empty. -/
def simpleBox (type : FrType) (info : ℕ) : Except Failure FrValueBox :=
  match type with
  | .bool =>
    if info = 20 then .ok (.bool false)
    else if info = 21 then .ok (.bool true)
    else .error ⟨-(dbuff.length - work.length), some .notBoolean⟩
  | .octets | .string | .structural .tlv | .structural .vendor | .structural .group
  | .structural .struct =>
    if info = 22 then .ok (.init type)
    else .error ⟨-(dbuff.length - work.length), some (.simpleValue info)⟩
  | _ => .error ⟨-(dbuff.length - work.length), some (.simpleValue info)⟩

def floatBox (type : FrType) (bits32 : BitVec 32) (bits64 : BitVec 64) :
    Except Failure FrValueBox :=
  match type with
  | .float32 => .ok (.float32 bits32)
  | .float64 => .ok (.float64 bits64)
  | _ => .error ⟨-1, some (.floatType type)⟩

/-- `CBOR_FLOAT` of `fr_cbor_decode_value_box` -/
def decodeFloatBox (fl : FloatOps) (dbuff work : List UInt8) (type : FrType) (info : ℕ) :
    Except Failure (FrValueBox × List UInt8) := do
  if info < 24 then
    let vb ← simpleBox dbuff work type info
    frDbuffSetIn dbuff work vb
  else if info = cbor1Byte then
    let (data, work) ← frDbuffOut work
    let vb ← floatBox type (fl.ofByte32 data) (fl.ofByte64 data)
    frDbuffSetIn dbuff work vb
  else if info = cbor4Byte then
    let (data, work) ← frDbuffOutInteger 4 work
    let vb ← floatBox type (BitVec.ofNat 32 data) (fl.widen (BitVec.ofNat 32 data))
    frDbuffSetIn dbuff work vb
  else if info = cbor8Byte then
    let (data, work) ← frDbuffOutInteger 8 work
    let vb ← floatBox type (fl.narrow (BitVec.ofNat 64 data)) (BitVec.ofNat 64 data)
    frDbuffSetIn dbuff work vb
  else .error ⟨-1, some (.floatType type)⟩

/-- `CBOR_TAG` of `fr_cbor_decode_value_box` -/
def decodeTagBox (type : FrType) (info : ℕ) :
    Except Failure (FrValueBox × List UInt8) := do
  let (value, work) ← returnIfNegative dbuff work (cborDecodeInteger none info work)
  if cborTypeToTag type = 0 then
    .error ⟨-(dbuff.length - work.length), some (.unknownTag value type)⟩
  else if cborTypeToTag type ≠ value then
    .error ⟨-(dbuff.length - work.length), some (.invalidTag value type)⟩
  else
    let (vb, work) ← returnIfNegative dbuff work (cborDecodeType type work)
    frDbuffSetIn dbuff work vb

/-- The major types of `fr_cbor_decode_value_box` other than `CBOR_ARRAY`. -/
def decodeScalarBox (fl : FloatOps) (major : ℕ) (dbuff work : List UInt8) (type : FrType)
    (info : ℕ) : Except Failure (FrValueBox × List UInt8) :=
  match major with
  | 0 => decodeIntegerBox dbuff work type info
  | 1 => decodeNegativeBox dbuff work type info
  | 2 => decodeOctetsBox dbuff work type info
  | 3 => decodeStringBox dbuff work type info
  | 5 => .error ⟨-1, some (.valueBoxType type)⟩
  | 6 => decodeTagBox dbuff work type info
  | _ => decodeFloatBox fl dbuff work type info

/-- The number of elements of an array, and whether it ends with a break. -/
def arrayCount (out : Option ℕ) (info : ℕ) :
    Except Failure ((ℕ × Bool) × List UInt8) := do
  if info = 31 then .ok ((2 ^ 64 - 1, true), work)
  else
    let (value, work) ← returnIfNegative dbuff work (cborDecodeInteger out info work)
    .ok ((value, false), work)

mutual

/-- `fr_cbor_decode_value_box`; the fuel bounds the recursion and its loop. The
type is guessed from the byte behind the header. -/
def frCborDecodeValueBox (fl : FloatOps) :
    ℕ → List UInt8 → FrType → Except Failure (FrValueBox × List UInt8)
  | 0, _, _ => .error ⟨0, some .unfinished⟩
  | fuel + 1, dbuff, declared => do
    let (byte, work) ← frDbuffOut dbuff
    let type := if declared = .null then cborGuessType work false else declared
    if type = .null then .error ⟨0, some .noGuess⟩
    else if isMalformed byte then .error ⟨0, some .notWellFormed⟩
    else if majorOf byte = cborArray then
      if type ≠ .structural .group then .error ⟨-1, some (.valueBoxType type)⟩
      else do
        let ((value, indefinite), work) ← arrayCount dbuff work none (infoOf byte)
        let (members, work) ← decodeMembers fl fuel dbuff work value indefinite
        frDbuffSetIn dbuff work (.structural .group members)
    else decodeScalarBox fl (majorOf byte) dbuff work type (infoOf byte)

/-- The loop over the elements of an array, of which `value` remain. -/
def decodeMembers (fl : FloatOps) :
    ℕ → List UInt8 → List UInt8 → ℕ → Bool → Except Failure (List FrValueBox × List UInt8)
  | 0, _, _, _, _ => .error ⟨0, some .unfinished⟩
  | _ + 1, _, work, 0, _ => .ok ([], work)
  | fuel + 1, dbuff, work, value + 1, indefinite =>
    match work with
    | [] => .error ⟨-1, none⟩
    | byte :: rest =>
      if byte = 0xff then
        if indefinite then .ok ([], rest)
        else .error ⟨-(dbuff.length - work.length), some .unexpectedBreak⟩
      else do
        let (child, work) ← returnUnlessPositive dbuff work (frCborDecodeValueBox fl fuel work .null)
        let (members, work) ← decodeMembers fl fuel dbuff work value indefinite
        .ok (child :: members, work)

end

end FreeRadius.Cbor
