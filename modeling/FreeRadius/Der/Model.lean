import FreeRadius.Cbor.Dbuff
import FreeRadius.Inet.Model
import FreeRadius.Library.Digits

/-!
# DER integers, object identifiers and prefixes

The functions of `encode.c` and `decode.c` of the DER protocol for the contents of an INTEGER, of
an OBJECT IDENTIFIER and of a BIT STRING that holds an IP prefix. A function that writes gets
the room there is and answers the bytes; a function that reads gets all of the contents.
-/

namespace FreeRadius.Der

open Cbor Inet Library

/-- What the error buffer reports. -/
inductive DerError where
  /-- what `FR_DBUFF_IN_RETURN` and `FR_SBUFF_IN_SPRINTF_RETURN` answer -/
  | noRoom
  /-- what `FR_DBUFF_OUT_RETURN` answers -/
  | noData
  /-- "Expected parent type 'int64', got attribute %s of type %s" -/
  | expectedInt64 (name : String) (type : FrType)
  /-- "Integer too large (%zu)" -/
  | integerTooLarge (len : ℕ)
  /-- "Integer is not correctly DER encoded. First two bytes are all 0s or all 1s." -/
  | integerNotDer
  /-- "Invalid value % for initial component" -/
  | initialComponent (value : UInt64)
  /-- "Invalid value % for second component" -/
  | secondComponent (value : UInt64)
  /-- "Invalid OID" -/
  | invalidOid
  /-- "Invalid OID '%s' - too short" -/
  | oidTooShort (value : List UInt8)
  /-- "OID subidentifier too large (>63 bits)" -/
  | subidentifierTooLarge
  /-- "OID subidentifier is truncated" -/
  | subidentifierTruncated
  /-- OIDs of zero length are invalid -/
  | emptyOid
  /-- "Invalid ipv4prefix size.  Expected 1..%zu, got %zu", and the same for ipv6prefix -/
  | prefixSize (af : Af) (expected len : ℕ)
  /-- "Invalid ipv4prefix is too large (%02x)", and the same for ipv6prefix -/
  | prefixTooLarge (af : Af) (byte : UInt8)
  /-- "Failed decoding DER header - insufficient data" -/
  | insufficientHeader
  /-- "Multi-byte tags are not supported" -/
  | multiByteTag
  /-- "Invalid tag %u" -/
  | invalidTag (tag : UInt8)
  /-- "Invalid tag %s. Expected tag %s" -/
  | unexpectedTag (tag expected : UInt8)
  /-- "No parent attribute to resolve tag to class" -/
  | noParent
  /-- "Invalid DER class %02x for attribute %s. Expected DER class %02x" -/
  | invalidClass (tagClass : UInt8) (name : String) (expected : UInt8)
  /-- "Invalid option %u for attribute %s. Expected option %u", and the same with tags -/
  | invalidOption (tag : UInt8) (name : String) (expected : UInt8)
  /-- "No decode function for tag %u" -/
  | noDecodeFunction (tag : UInt8)
  /-- "Constructed flag mismatch for tag %u" -/
  | constructedMismatch (tag : UInt8)
  /-- "Length field too large" -/
  | lengthTooLarge (lenLen : ℕ)
  /-- "Primitive data with indefinite form length field is invalid" -/
  | indefiniteLength
  /-- "Insufficient data for length field (%zu)" -/
  | insufficientData (len : ℕ)
  /-- "Truncated header while trying to decode %s" -/
  | truncatedHeader (name : String)
  /-- "Failed decoding %s - got tag '%s', expected '%s'" -/
  | wrongTag (name : String) (tag expected : UInt8)
  /-- "Data length (%zu) is different from expected fixed size (%u)" -/
  | fixedSize (len size : ℕ)
  /-- "Data length (%zu) is smaller than expected minimum size (%u)" -/
  | belowMin (len min : ℕ)
  /-- "Data length (%zu) exceeds max size" -/
  | aboveMax (len max : ℕ)
  /-- "Invalid number of unused bits in 'bitstring'" -/
  | invalidUnusedBits
  /-- "Insufficient data for 'bitstring'. Missing data bytes" -/
  | missingBits
  /-- "Invalid character in a string" -/
  | invalidCharacter
  /-- "Set tags are not in ascending order" -/
  | notAscending
  /-- "Expected at last %d elements in %s, got 0" -/
  | tooFewElements (min : ℕ) (name : String)
  deriving DecidableEq, Repr

/-- `FR_DBUFF_IN_RETURN` for one byte -/
def dbuffIn (room : ℕ) (out : List UInt8) (b : UInt8) : Except DerError (List UInt8) :=
  if out.length < room then .ok (out ++ [b]) else .error .noRoom

/-- `FR_DBUFF_IN_MEMCPY_RETURN`: what there is after all of these bytes are written -/
def writeAll (room : ℕ) (out bytes : List UInt8) : Except DerError (List UInt8) :=
  if (out ++ bytes).length ≤ room then .ok (out ++ bytes) else .error .noRoom

section Integer

/-- The value of a pair that `fr_der_encode_integer` writes. -/
inductive IntegerValue where
  | int64 (value : Int64)
  /-- Some integers are too large for 64 bits and are octet strings. -/
  | octets (value : List UInt8)
  deriving DecidableEq

/-- The attribute a decoded value belongs to. -/
structure DictAttr where
  name : String
  type : FrType
  deriving DecidableEq

/-- The loop of `fr_der_encode_integer`, with the number of its rounds that are left. -/
def encodeIntegerLoop (room : ℕ) :
    ℕ → UInt64 → UInt8 → ℕ → List UInt8 → Except DerError (List UInt8)
  | 0, _, _, _, out => .ok out
  | rounds + 1, value, firstOctet, len, out =>
    let byte := (value >>> 56).toUInt8
    let value := value <<< 8
    if len = 0 then
      encodeIntegerLoop room rounds value byte (len + 1) out
    else if len = 1 then
      if firstOctet = 0xff ∧ byte &&& 0x80 ≠ 0 ∨ firstOctet = 0x00 ∧ byte >>> 7 = 0 then
        -- this is the only byte
        if rounds = 0 then
          (dbuffIn room out byte).bind fun out =>
          encodeIntegerLoop room rounds value firstOctet len out
        else
          encodeIntegerLoop room rounds value byte len out
      else
        (dbuffIn room out firstOctet).bind fun out =>
        (dbuffIn room out byte).bind fun out =>
        encodeIntegerLoop room rounds value firstOctet (len + 1) out
    else
      (dbuffIn room out byte).bind fun out =>
      encodeIntegerLoop room rounds value firstOctet (len + 1) out

def frDerEncodeInteger (room : ℕ) : IntegerValue → Except DerError (List UInt8)
  | .octets value => if value.length ≤ room then .ok value else .error .noRoom
  | .int64 value => encodeIntegerLoop room 8 value.toUInt64 0 0 []

/-- The last loop of `fr_der_decode_integer` -/
def decodeIntegerLoop (value : UInt64) (content : List UInt8) : UInt64 :=
  content.foldl (fun value byte => value <<< 8 ||| byte.toUInt64) value

def frDerDecodeInteger (parent : DictAttr) (content : List UInt8) : Except DerError Int64 :=
  if parent.type ≠ .integer .int64 then .error (.expectedInt64 parent.name parent.type)
  else if content.length > 8 then .error (.integerTooLarge content.length)
  else match content with
    | [] => .error .noData
    | sign :: content =>
      let value : UInt64 := (if sign &&& 0x80 ≠ 0 then ~~~0xff else 0) ||| sign.toUInt64
      match content with
      | [] => .ok value.toInt64
      | byte :: content =>
        if value &&& 0xff = 0xff ∧ byte &&& 0x80 ≠ 0 ∨ ~~~value &&& 0xff = 0xff ∧ byte &&& 0x80 = 0 then
          .error .integerNotDer
        else
          .ok (decodeIntegerLoop (value <<< 8 ||| byte.toUInt64) content).toInt64

end Integer

section EncodeOid

/-- The memory at an address, where what is not given is zero. -/
def char (mem : List UInt8) : UInt8 := mem.headD 0

def isSpace (c : UInt8) : Bool := c == 0x20 || 0x09 ≤ c && c ≤ 0x0d

def isDigit (c : UInt8) : Bool := 0x30 ≤ c && c ≤ 0x39

/-- The number of decimal digits, which `strtoull` does not let grow beyond `ULLONG_MAX`. -/
def decimalValue (digits : List UInt8) : ℕ := digitsValue 10 (digits.map fun c => (c - 0x30).toNat)

/-- `strtoull` with base 10: the number, and the memory at the end of it. Without any digit the end
is the start. -/
def strtoull (start : List UInt8) : UInt64 × List UInt8 :=
  let mem := start.dropWhile isSpace
  let negative := char mem == 0x2d
  let mem := if char mem = 0x2d ∨ char mem = 0x2b then mem.tail else mem
  let digits := mem.takeWhile isDigit
  if digits = [] then (0, start)
  else
    let value := decimalValue digits
    if value < 2 ^ 64 then
      (if negative then -UInt64.ofNat value else UInt64.ofNat value, mem.dropWhile isDigit)
    else (UInt64.ofNat (2 ^ 64 - 1), mem.dropWhile isDigit)

/-- The loop of `fr_der_encode_oid_from_value` over the positions of the digits. -/
def encodeDigits (room : ℕ) (oid : UInt64) :
    List UInt64 → List UInt8 → Except DerError (List UInt8)
  | [], out => .ok out
  | i :: rest, out =>
    let part := (oid >>> i &&& 0x7f).toUInt8
    if part = 0 then encodeDigits room oid rest out
    else
      let more := (if i > 0 then (1 : UInt8) else 0) <<< 7
      (dbuffIn room out (more ||| part)).bind fun out => encodeDigits room oid rest out

/-- The positions of the digits: from 63 down to 0 by 7. -/
def digitShifts : List UInt64 := [63, 56, 49, 42, 35, 28, 21, 14, 7, 0]

/-- What `fr_der_encode_oid` carries from one component to the next. -/
structure OidState where
  out : List UInt8
  component : UInt64
  count : ℕ
  deriving DecidableEq

def frDerEncodeOidFromValue (room : ℕ) (value : UInt64) (s : OidState) : Except DerError OidState :=
  if s.count = 0 then
    if ¬(value = 0 ∨ value = 1 ∨ value = 2) then .error (.initialComponent value)
    else .ok { s with component := value, count := s.count + 1 }
  else if s.count = 1 ∧ s.component < 2 ∧ value > 40 then .error (.secondComponent value)
  else
    let oid := if s.count = 1 then s.component * 40 + value else value
    (encodeDigits room oid digitShifts s.out).bind fun out =>
    .ok { s with out := out, count := s.count + 1 }

/-- The loop of `fr_der_encode_oid`. It goes on behind the byte that ends a component, also where
that byte is the end of the string. -/
def encodeOidLoop (room : ℕ) : ℕ → List UInt8 → OidState → Except DerError OidState
  | 0, _, s => .ok s
  | rounds + 1, start, s =>
    if char start = 0 then .ok s
    else
      let oid := (strtoull start).1
      let theEnd := (strtoull start).2
      if oid = UInt64.ofNat (2 ^ 64 - 1) ∨ char theEnd ≠ 0 ∧ char theEnd ≠ 0x2e then
        .error .invalidOid
      else
        (frDerEncodeOidFromValue room oid s).bind fun s => encodeOidLoop room rounds theEnd.tail s

/-- `fr_der_encode_oid`, with the memory from the start of the string on -/
def frDerEncodeOid (room : ℕ) (mem : List UInt8) : Except DerError (List UInt8) :=
  (encodeOidLoop room (mem.length + 1) mem { out := [], component := 0, count := 0 }).bind fun s =>
  if s.count ≤ 2 then .error (.oidTooShort (mem.takeWhile (· ≠ 0))) else .ok s.out

end EncodeOid

section DecodeOid

/-- The loop of `fr_der_decode_oid`, which gives each component to `func`. -/
def decodeOidLoop {σ : Type} (func : UInt64 → σ → Bool → Except DerError σ) :
    List UInt8 → Bool → UInt64 → ℕ → σ → Except DerError σ
  | [], _, _, _, uctx => .ok uctx
  | byte :: rest, first, oid, magnitude, uctx =>
    if magnitude + 1 > 9 then .error .subidentifierTooLarge
    else
      let oid := oid <<< 7 ||| (byte &&& 0x7f).toUInt64
      if byte &&& 0x80 ≠ 0 then
        if rest = [] then .error .subidentifierTruncated
        else decodeOidLoop func rest first oid (magnitude + 1) uctx
      else if first then
        let firstComponent := if oid < 40 then 0 else if oid < 80 then 1 else 2
        let oid := if oid < 40 then oid else if oid < 80 then oid - 40 else oid - 80
        (func firstComponent uctx (rest = [])).bind fun uctx =>
        (func oid uctx (rest = [])).bind fun uctx =>
        decodeOidLoop func rest false 0 0 uctx
      else
        (func oid uctx (rest = [])).bind fun uctx => decodeOidLoop func rest false 0 0 uctx

def frDerDecodeOid {σ : Type} (func : UInt64 → σ → Bool → Except DerError σ) (content : List UInt8)
    (uctx : σ) : Except DerError σ :=
  decodeOidLoop func content true 0 0 uctx

/-- `fr_der_decode_oid_to_str_ctx_t`: the text in the buffer, and the pairs that were made. -/
structure OidToStrCtx where
  oidBuff : List UInt8
  parentList : List (List UInt8)
  deriving DecidableEq

/-- The characters that `oid_buff` has room for. -/
def oidBuffRoom : ℕ := 1023

def printDecimal (n : ℕ) : List UInt8 := (digitsOf 10 20 n).map fun d => UInt8.ofNat d + 0x30

def frDerDecodeOidToStr (subidentifier : UInt64) (ctx : OidToStrCtx) (isLast : Bool) :
    Except DerError OidToStrCtx :=
  let text := printDecimal subidentifier.toNat
  if ctx.oidBuff = [] then
    if text.length ≤ oidBuffRoom then .ok { ctx with oidBuff := text } else .error .noRoom
  else
    let buff := ctx.oidBuff ++ 0x2e :: text
    if buff.length ≤ oidBuffRoom then
      .ok { oidBuff := buff, parentList := if isLast then ctx.parentList ++ [buff] else ctx.parentList }
    else .error .noRoom

/-- `fr_der_decode_oid_wrapper`: the pairs that are made -/
def frDerDecodeOidWrapper (content : List UInt8) : Except DerError (List (List UInt8)) :=
  (frDerDecodeOid frDerDecodeOidToStr content { oidBuff := [], parentList := [] }).bind fun ctx =>
  if content = [] then .error .emptyOid else .ok ctx.parentList

end DecodeOid

section IpPrefixes

/-- What `fr_der_encode_ipv4_prefix` and `fr_der_encode_ipv6_prefix` do alike: a prefix of all bits
is written apart from the others. -/
def encodePrefix (room : ℕ) (ip : Inet.FrIpaddr) : Except DerError (List UInt8) :=
  if ip.prefixLen = UInt8.ofNat (8 * ip.af.size) then
    (dbuffIn room [] 0x00).bind fun out => writeAll room out ip.addr
  else
    (dbuffIn room [] (8 - (ip.prefixLen &&& 0x07))).bind fun out =>
    let len := (ip.prefixLen.toNat + 0x07) >>> 3
    if len ≠ 0 then writeAll room out (ip.addr.take len) else .ok out

/-- `fr_der_encode_ipv4_prefix`, where also the prefix of no bits is written apart -/
def frDerEncodeIpv4Prefix (room : ℕ) (ip : Inet.FrIpaddr) : Except DerError (List UInt8) :=
  if ip.prefixLen = 0 then dbuffIn room [] 0x00 else encodePrefix room ip

def frDerEncodeIpv6Prefix (room : ℕ) (ip : Inet.FrIpaddr) : Except DerError (List UInt8) :=
  encodePrefix room ip

/-- The decoder of a prefix of one family. The pair it makes is zeroed before the address is
copied to it. -/
def decodePrefix (af : Af) (content : List UInt8) : Except DerError Inet.FrIpaddr :=
  match content with
  | [] => .error (.prefixSize af (1 + af.size) 0)
  | byte :: rest =>
    if rest.length + 1 > 1 + af.size then .error (.prefixSize af (1 + af.size) (rest.length + 1))
    else if byte > 7 then .error (.prefixTooLarge af byte)
    else .ok {
      af := af
      addr := rest ++ List.replicate (af.size - rest.length) 0
      prefixLen := UInt8.ofNat (rest.length * 8) - byte }

def frDerDecodeIpv4Prefix (content : List UInt8) : Except DerError Inet.FrIpaddr :=
  decodePrefix .inet content

def frDerDecodeIpv6Prefix (content : List UInt8) : Except DerError Inet.FrIpaddr :=
  decodePrefix .inet6 content

end IpPrefixes

end FreeRadius.Der
