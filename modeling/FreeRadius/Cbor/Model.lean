import FreeRadius.Cbor.Dbuff

/-!
# CBOR encoding and decoding

The functions of `cbor.c` for value boxes and for pairs. Memory is always
granted. The flags `tainted` and `secret` and the enumeration of a box are left
out, because nothing here depends on them.
-/

namespace FreeRadius.Cbor

open Library

def cborInteger : ℕ := 0
def cborNegative : ℕ := 1
def cborOctets : ℕ := 2
def cborString : ℕ := 3
def cborArray : ℕ := 4
def cborMap : ℕ := 5
def cborTag : ℕ := 6
def cborFloat : ℕ := 7

def cbor1Byte : ℕ := 24
def cbor2Byte : ℕ := 25
def cbor4Byte : ℕ := 26
def cbor8Byte : ℕ := 27

/-- `fr_ipaddr_t`; `v6` is the address family. -/
structure FrIpaddr where
  v6 : Bool
  addr : List UInt8
  prefixLength : ℕ
  scopeId : ℕ
  deriving DecidableEq, Repr

/-- `fr_value_box_t`. The union member of an integer is the first eight bytes
of the union, as a 64-bit number of a little-endian host: `vb_uint64` is all of
it, and the narrower members are its low bits. -/
inductive FrValueBox where
  | null
  | bool (value : Bool)
  | integer (type : IntType) (vbUint64 : BitVec 64)
  | string (value : List UInt8)
  | octets (value : List UInt8)
  | ethernet (addr : List UInt8)
  | date (ns : ℕ)
  | timeDelta (ns : ℤ)
  | float32 (bits : BitVec 32)
  | float64 (bits : BitVec 64)
  | ip (type : IpType) (addr : FrIpaddr)
  | structural (type : StructType) (members : List FrValueBox)
  deriving Repr

namespace FrValueBox

def type : FrValueBox → FrType
  | null => .null
  | bool _ => .bool
  | integer t _ => .integer t
  | string _ => .string
  | octets _ => .octets
  | ethernet _ => .ethernet
  | date _ => .date
  | timeDelta _ => .timeDelta
  | float32 _ => .float32
  | float64 _ => .float64
  | ip t _ => .ip t
  | structural t _ => .structural t

/-- `fr_value_box_init`: everything that has no other default is zero. -/
def init : FrType → FrValueBox
  | .null => null
  | .bool => bool false
  | .integer t => integer t 0
  | .string => string []
  | .octets => octets []
  | .ethernet => ethernet (List.replicate 6 0)
  | .date => date 0
  | .timeDelta => timeDelta 0
  | .float32 => float32 0
  | .float64 => float64 0
  | .ip .ipv4Addr => ip .ipv4Addr ⟨false, List.replicate 4 0, 32, 0⟩
  | .ip .ipv4Prefix => ip .ipv4Prefix ⟨false, List.replicate 4 0, 0, 0⟩
  | .ip .ipv6Addr => ip .ipv6Addr ⟨true, List.replicate 16 0, 128, 0⟩
  | .ip .ipv6Prefix => ip .ipv6Prefix ⟨true, List.replicate 16 0, 0, 0⟩
  | .structural t => structural t []

end FrValueBox

def IntType.width : IntType → ℕ
  | .uint8 | .int8 => 8
  | .uint16 | .int16 => 16
  | .uint32 | .int32 => 32
  | .uint64 | .int64 => 64

def IntType.isSigned : IntType → Bool
  | .uint8 | .uint16 | .uint32 | .uint64 => false
  | .int8 | .int16 | .int32 | .int64 => true

/-- Assigning to the member of an integer type clears no other byte of the
union, and the bytes of an initialised box are zero. -/
def IntType.store (t : IntType) (value : ℤ) : FrValueBox :=
  .integer t ((BitVec.ofInt t.width value).setWidth 64)

/-- `cbor_type_to_tag`, zero for the types that have none. -/
def cborTypeToTag : FrType → ℕ
  | .date => 1
  | .ethernet => 48
  | .ip .ipv4Addr | .ip .ipv4Prefix => 52
  | .ip .ipv6Addr | .ip .ipv6Prefix => 54
  | .timeDelta => 1002
  | _ => 0

def nsec : ℤ := 1000000000
def usec : ℤ := 1000000
def msec : ℤ := 1000

section Encode

def header (type info : ℕ) : UInt8 := UInt8.ofNat (type <<< 5 ||| info)

/-- The bytes that `cbor_encode_integer` writes: the header, and the value
behind it if it is not in the header. -/
def integerBytes (type data : ℕ) : List UInt8 :=
  if data < 24 then [header type data]
  else if data < 2 ^ 8 then header type cbor1Byte :: nboBytes 1 data
  else if data < 2 ^ 16 then header type cbor2Byte :: nboBytes 2 data
  else if data < 2 ^ 32 then header type cbor4Byte :: nboBytes 4 data
  else header type cbor8Byte :: nboBytes 8 data

variable (dbuff : FrDbuff)

def cborEncodeInteger (type data : ℕ) : Except Failure (FrDbuff × ℕ) :=
  if data < 24 then do
    let work ← frDbuffIn (frDbuff dbuff) [header type data]
    .ok (frDbuffSet dbuff work)
  else if data < 2 ^ 8 then encodeLong cbor1Byte 1
  else if data < 2 ^ 16 then encodeLong cbor2Byte 2
  else if data < 2 ^ 32 then encodeLong cbor4Byte 4
  else encodeLong cbor8Byte 8
where
  /-- The header, and then the value as an integer of `w` bytes. -/
  encodeLong (info w : ℕ) : Except Failure (FrDbuff × ℕ) := do
    let work ← frDbuffIn (frDbuff dbuff) [header type info]
    let work ← frDbuffIn work (nboBytes w data)
    .ok (frDbuffSet dbuff work)

def cborEncodeArray (size : ℕ) : Except Failure (FrDbuff × ℕ) :=
  cborEncodeInteger dbuff cborArray size

/-- `cbor_encode_tag(_dbuff, cbor_type_to_tag[vb->type])` -/
def cborEncodeTag (type : FrType) : Except Failure (FrDbuff × ℕ) :=
  cborEncodeInteger dbuff cborTag (cborTypeToTag type)

/-- Bytes are copied only if there are any. -/
def frDbuffInSome (work : FrDbuff) (data : List UInt8) : Except Failure FrDbuff :=
  if 0 < data.length then frDbuffIn work data else .ok work

def cborEncodeOctets (data : List UInt8) : Except Failure (FrDbuff × ℕ) := do
  let work := frDbuff dbuff
  let work ← returnSlen work (cborEncodeInteger work cborOctets data.length)
  let work ← frDbuffInSome work data
  .ok (frDbuffSet dbuff work)

def cborEncodeInt64 (neg : ℤ) : Except Failure (FrDbuff × ℕ) := do
  let work := frDbuff dbuff
  let work ← returnSlen work
    (if 0 ≤ neg then cborEncodeInteger work cborInteger neg.toNat
      else cborEncodeInteger work cborNegative (-(neg + 1)).toNat)
  .ok (frDbuffSet dbuff work)

/-- The integer types of `fr_cbor_encode_value_box`. The 32-bit types read the
64-bit member of the union. -/
def encodeIntegerBox (t : IntType) (vbUint64 : BitVec 64) :
    Except Failure (FrDbuff × ℕ) :=
  match t with
  | .uint8 => cborEncodeInteger dbuff cborInteger (vbUint64.setWidth 8).toNat
  | .uint16 => cborEncodeInteger dbuff cborInteger (vbUint64.setWidth 16).toNat
  | .uint32 => cborEncodeInteger dbuff cborInteger vbUint64.toNat
  | .uint64 => cborEncodeInteger dbuff cborInteger vbUint64.toNat
  | .int8 => encodeNeg (vbUint64.setWidth 8).toInt
  | .int16 => encodeNeg (vbUint64.setWidth 16).toInt
  | .int32 => encodeNeg vbUint64.toInt
  | .int64 => encodeNeg vbUint64.toInt
where
  /-- The label `encode_neg`: the major type is the one of a negative number
  when the number is not negative. -/
  encodeNeg (neg : ℤ) : Except Failure (FrDbuff × ℕ) :=
    if 0 ≤ neg then cborEncodeInteger dbuff cborNegative neg.toNat
    else cborEncodeInteger dbuff cborInteger (-(neg + 1)).toNat

/-- The loop that drops the lower octets of an address that are zero: `end`
goes down from the last octet as long as it is not the first and is zero. -/
def trimEnd (addr : List UInt8) : ℕ → ℕ
  | 0 => 0
  | last + 1 => if addr[last + 1]? = some 0 then trimEnd addr last else last + 1

/-- The octets of a prefix that are encoded. -/
def trimmedAddr (addr : List UInt8) : List UInt8 :=
  let last := trimEnd addr (addr.length - 1)
  addr.take (last + if addr[last]? = some 0 then 0 else 1)

/-- `FR_TYPE_IPV4_PREFIX` and `FR_TYPE_IPV6_PREFIX` of `fr_cbor_encode_value_box`. -/
def encodePrefix (t : IpType) (ip : FrIpaddr) : Except Failure (FrDbuff × ℕ) := do
  let work := frDbuff dbuff
  let work ← returnSlen work (cborEncodeTag work (.ip t))
  let work ← returnSlen work (cborEncodeArray work 2)
  let work ← returnSlen work (cborEncodeInteger work cborInteger ip.prefixLength)
  let work ← returnSlen work (cborEncodeOctets work (trimmedAddr ip.addr))
  .ok (frDbuffSet dbuff work)

/-- The scope of an address, for `FR_TYPE_IPV4_ADDR` and `FR_TYPE_IPV6_ADDR`. -/
def encodeScope (work : FrDbuff) (scopeId : ℕ) : Except Failure FrDbuff := do
  if scopeId = 0 then .ok work
  else
    let work ← returnSlen work (cborEncodeInteger work cborInteger 32)
    returnSlen work (cborEncodeInteger work cborInteger scopeId)

def encodeScopeArray (work : FrDbuff) (scopeId : ℕ) : Except Failure FrDbuff :=
  if scopeId = 0 then .ok work else frDbuffIn work [header cborArray 3]

def encodeIpv4Addr (ip : FrIpaddr) : Except Failure (FrDbuff × ℕ) := do
  let work := frDbuff dbuff
  let work ← returnSlen work (cborEncodeTag work (.ip .ipv4Addr))
  let work ← encodeScopeArray work ip.scopeId
  let work ← returnSlen work (cborEncodeOctets work ip.addr)
  let work ← encodeScope work ip.scopeId
  .ok (frDbuffSet dbuff work)

/-- Other than for IPv4, the array comes before the tag. -/
def encodeIpv6Addr (ip : FrIpaddr) : Except Failure (FrDbuff × ℕ) := do
  let work := frDbuff dbuff
  let work ← encodeScopeArray work ip.scopeId
  let work ← returnSlen work (cborEncodeTag work (.ip .ipv6Addr))
  let work ← returnSlen work (cborEncodeOctets work ip.addr)
  let work ← encodeScope work ip.scopeId
  .ok (frDbuffSet dbuff work)

def encodeEthernet (addr : List UInt8) : Except Failure (FrDbuff × ℕ) := do
  let work := frDbuff dbuff
  let work ← returnSlen work (cborEncodeTag work .ethernet)
  let work ← returnSlen work (cborEncodeOctets work addr)
  .ok (frDbuffSet dbuff work)

def frUnixTimeToSec (ns : ℕ) : ℤ := (ns / 1000000000 : ℕ)

def encodeDate (ns : ℕ) : Except Failure (FrDbuff × ℕ) := do
  let work := frDbuff dbuff
  let work ← returnSlen work (cborEncodeTag work .date)
  let work ← returnSlen work (cborEncodeInt64 work (frUnixTimeToSec ns))
  .ok (frDbuffSet dbuff work)

def encodeFraction (work : FrDbuff) (neg : ℤ) : Except Failure FrDbuff := do
  if neg = 0 then .ok work
  else
    let work ← returnSlen work (cborEncodeInt64 work (-9))
    returnSlen work (cborEncodeInt64 work neg)

def encodeTimeDelta (ns : ℤ) : Except Failure (FrDbuff × ℕ) := do
  let work := frDbuff dbuff
  let work ← returnSlen work (cborEncodeTag work .timeDelta)
  let neg := ns.tmod nsec
  let work ← returnSlen work (cborEncodeInteger work cborMap (1 + if neg = 0 then 0 else 1))
  let work ← returnSlen work (cborEncodeInt64 work 1)
  let work ← returnSlen work (cborEncodeInt64 work (ns.tdiv nsec))
  let work ← encodeFraction work neg
  .ok (frDbuffSet dbuff work)

def encodeString (value : List UInt8) : Except Failure (FrDbuff × ℕ) := do
  let work := frDbuff dbuff
  let work ← returnSlen work (cborEncodeInteger work cborString value.length)
  let work ← frDbuffInSome work value
  .ok (frDbuffSet dbuff work)

/-- The octets of a float are written behind a header of their own. A host of
this model is little-endian. -/
def encodeFloat (info : ℕ) (octets : List UInt8) :
    Except Failure (FrDbuff × ℕ) := do
  let work ← frDbuffIn (frDbuff dbuff) [header cborFloat info]
  let work ← returnSlen work (cborEncodeOctets work octets)
  .ok (frDbuffSet dbuff work)

mutual

def frCborEncodeValueBox (dbuff : FrDbuff) : FrValueBox → Except Failure (FrDbuff × ℕ)
  | .bool value => do
    let work ← frDbuffIn (frDbuff dbuff) [header cborFloat (20 + value.toNat)]
    .ok (frDbuffSet dbuff work)
  | .integer t vbUint64 => encodeIntegerBox dbuff t vbUint64
  | .octets value => cborEncodeOctets dbuff value
  | .string value => encodeString dbuff value
  | .ethernet addr => encodeEthernet dbuff addr
  | .date ns => encodeDate dbuff ns
  | .timeDelta ns => encodeTimeDelta dbuff ns
  | .ip .ipv4Addr ip => encodeIpv4Addr dbuff ip
  | .ip .ipv6Addr ip => encodeIpv6Addr dbuff ip
  | .ip .ipv4Prefix ip => encodePrefix dbuff .ipv4Prefix ip
  | .ip .ipv6Prefix ip => encodePrefix dbuff .ipv6Prefix ip
  | .float32 bits => encodeFloat dbuff cbor4Byte (nboBytes 4 bits.toNat).reverse
  | .float64 bits => encodeFloat dbuff cbor8Byte (nboBytes 8 bits.toNat).reverse
  | .structural .group members => do
    if members.length = 0 then
      let work ← frDbuffIn (frDbuff dbuff) [header cborArray 0]
      .ok (frDbuffSet dbuff work)
    else
      let work := frDbuff dbuff
      let work ← returnSlen work (cborEncodeInteger work cborArray members.length)
      let work ← encodeMembers work members
      .ok (frDbuffSet dbuff work)
  | .null => .error ⟨-1, some (.encodingType .null)⟩
  | .structural t _ => .error ⟨-1, some (.encodingType (.structural t))⟩

def encodeMembers (work : FrDbuff) : List FrValueBox → Except Failure FrDbuff
  | [] => .ok work
  | child :: rest => do
    let work ← returnSlen work (frCborEncodeValueBox work child)
    encodeMembers work rest

end

end Encode

end FreeRadius.Cbor
