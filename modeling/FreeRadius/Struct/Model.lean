import FreeRadius.Calc.Model
import FreeRadius.Library.Word

/-!
# Structs on the network

`fr_struct_from_network` and `fr_struct_to_network` of `util/struct.c`, with `put_bits_dbuff` and the
conversions of `util/value.c` for the values that they meet. The decoder is modelled for every kind
of member; its callbacks, the values of the other leaf types and the structures behind a key field
are parameters. The encoder is modelled for members that are bit fields or leaf values. A function
that writes gets the room there is and answers the bytes.
-/

namespace FreeRadius.Struct

open Calc Library

section Types

/-- `FLAG_LENGTH_UINT8` and `FLAG_LENGTH_UINT16` -/
inductive LengthField where
  | uint8 | uint16
  deriving DecidableEq, Repr

def LengthField.size : LengthField → ℕ
  | .uint8 => 1
  | .uint16 => 2

/-- How long a struct with such a length before it may be -/
def LengthField.limit : LengthField → ℕ
  | .uint8 => 256
  | .uint16 => 65536

/-- The type of a member: `leaf` stands for the leaf types other than these, by number, and
`structural` for what is neither a leaf nor TLVs. -/
inductive MemberType where
  | bool
  | int (type : IntType)
  | octets
  | leaf (code : ℕ)
  | tlv
  | structural
  deriving DecidableEq, Repr

/-- The `fr_dict_attr_t` of a member. `length` counts bits for a bit field and bytes otherwise, and
is zero where the size of the value is not fixed. -/
structure Member where
  type : MemberType
  bitField : Bool
  length : ℕ
  array : Bool
  key : Bool
  lengthField : Option LengthField
  deriving DecidableEq, Repr

/-- The `fr_dict_attr_t` of a struct, whose members are numbered from 1 -/
structure StructDef where
  members : List Member
  lengthField : Option LengthField
  lengthOffset : ℕ

/-- `fr_value_box_t`, with the bytes of a value of another leaf type -/
inductive Value where
  | bool (b : Bool)
  | int (b : Box)
  | octets (bytes : List UInt8)
  | leaf (code : ℕ) (bytes : List UInt8)
  deriving DecidableEq

/-- `fr_pair_t`: a member of the struct that holds it, by number, a member or a struct that could not
be decoded, and a struct with its children. -/
inductive Pair where
  | member (num : ℕ) (value : Value)
  | raw (num : ℕ) (bytes : List UInt8)
  | struct (children : List Pair)
  | rawStruct (bytes : List UInt8)

end Types

section Decoder

/-- What the decoder calls: `decode_value` and `decode_tlv` answer how much they have used and the
pairs they append, or nothing for a negative length; `leaf` is `fr_value_box_from_network` for the
other leaf types; `substruct` decodes the structure that belongs to the value of a key field, if
there is one. -/
structure Callbacks where
  decodeValue : Option (ℕ → Member → List UInt8 → Option (ℕ × List Pair))
  decodeTlv : Option (ℕ → Member → List UInt8 → Option (ℕ × List Pair))
  leaf : Member → List UInt8 → Option Value
  substruct : ℕ → Value → List UInt8 → Option (ℕ × Pair)

def frBytesFromBits (bits : ℕ) : ℕ := (bits + 7) >>> 3

/-- The value of a bit field of an unsigned type, nothing for any other type -/
def bitFieldValue (type : MemberType) (value : ℕ) : Option Value :=
  match type with
  | .bool => some (.bool (value ≠ 0))
  | .int t => if t.signed then none else some (.int (Box.ofWord t (BitVec.ofNat 64 value)))
  | _ => none

/-- The number in a bit field that begins at bit `offset` of the first byte -/
def bitFieldNumber (offset length : ℕ) (data : List UInt8) : ℕ :=
  let used := data.take (frBytesFromBits (offset + length))
  -- mask off bits we don't care about
  let masked := if offset > 0 then
      used.modifyHead fun b => b &&& (UInt8.ofNat (1 <<< (8 - offset)) - 1)
    else used
  let array := masked ++ List.replicate (8 - masked.length) 0
  nboValue array >>> (8 - offset) >>> (56 - length)

/-- `fr_value_box_from_network`, where the bytes are all that the value may use -/
def frValueBoxFromNetwork (cb : Callbacks) (m : Member) (data : List UInt8) : Option Value :=
  match m.type with
  | .bool => if data.length = 1 then some (.bool (data.headD 0 ≠ 0)) else none
  | .int t =>
    if data.length = t.size then some (.int (Box.ofWord t (BitVec.ofNat 64 (nboValue data))))
    else none
  | .octets =>
    if m.length ≠ 0 then
      if m.length > data.length then none else some (.octets (data.take m.length))
    else
      match m.lengthField with
      | none => some (.octets data)
      | some f =>
        if data.length < f.size then none
        else
          let len := nboValue (data.take f.size)
          if len > data.length then none
          else if data.length < f.size + len then none
          else some (.octets ((data.drop f.size).take len))
  | .leaf _ => cb.leaf m data
  | _ => none

/-- How the loop over the members ends. -/
inductive Loop where
  /-- `goto unknown` -/
  | unknown
  /-- "Decoding TLVs requires a decode_tlv() function to be passed" -/
  | needsDecodeTlv (rest : List UInt8)
  /-- a callback that uses nothing is called for ever -/
  | hangs
  /-- `goto done`, with what is not decoded -/
  | done (rest : List UInt8) (pairs : List Pair)
  /-- the members or the data have been used up, with the value of the key field -/
  | ended (rest : List UInt8) (pairs : List Pair) (key : Option (ℕ × Value))

/-- "Decode EVERYTHING as a TLV": every round that does not use anything is the last. -/
def decodeTlvs (decode : List UInt8 → Option (ℕ × List Pair)) :
    ℕ → List UInt8 → List Pair → Loop
  | 0, rest, pairs => .done rest pairs
  | fuel + 1, rest, pairs =>
    if rest.isEmpty then .done rest pairs
    else
      match decode rest with
      | none => .unknown
      | some (0, _) => .hangs
      | some (slen, new) => decodeTlvs decode fuel (rest.drop slen) (pairs ++ new)

/-- `fr_pair_array_from_network`. A callback that uses nothing ends it like one that fails. -/
def frPairArrayFromNetwork (decode : List UInt8 → Option (ℕ × List Pair)) :
    ℕ → List UInt8 → List Pair → Option (List Pair)
  | 0, _, pairs => some pairs
  | fuel + 1, rest, pairs =>
    if rest.isEmpty then some pairs
    else
      match decode rest with
      | none => none
      | some (0, _) => none
      | some (slen, new) => frPairArrayFromNetwork decode fuel (rest.drop slen) (pairs ++ new)

/-- The pair of the key field, when the member is one: the value of the last pair. -/
def keyOf (m : Member) (num : ℕ) (pairs : List Pair) (key : Option (ℕ × Value)) :
    Option (ℕ × Value) :=
  if m.key then
    match pairs.getLast? with
    | some (.member _ value) => some (num, value)
    | _ => key
  else key

/-- The loop of `fr_struct_from_network` over the members from number `num` on -/
def decodeMembers (cb : Callbacks) : List Member → ℕ → List UInt8 → ℕ → List Pair →
    Option (ℕ × Value) → Loop
  | [], _, rest, _, pairs, key => .ended rest pairs key
  | m :: members, num, rest, offset, pairs, key =>
    if rest.isEmpty then .ended rest pairs key
    else if m.bitField then
      let numBits := offset + m.length
      if rest.length < frBytesFromBits numBits then .unknown
      else
        match bitFieldValue m.type (bitFieldNumber offset m.length rest) with
        | none => .unknown
        | some value =>
          -- go to the last bit, not the byte after the last bit
          decodeMembers cb members (num + 1) (rest.drop (numBits >>> 3)) (numBits % 8)
            (pairs ++ [.member num value]) key
    else if m.type = .tlv then
      match cb.decodeTlv with
      | none => .needsDecodeTlv rest
      | some decode => decodeTlvs (decode num m) rest.length rest pairs
    else if m.length > rest.length then .unknown
    else
      let childLength := if m.length = 0 || m.array then rest.length else m.length
      match cb.decodeValue with
      | some decode =>
        if m.array then
          match frPairArrayFromNetwork (decode num m) childLength (rest.take childLength) pairs with
          | none => .unknown
          | some pairs' =>
            decodeMembers cb members (num + 1) (rest.drop childLength) 0 pairs'
              (keyOf m num pairs' key)
        else
          match decode num m (rest.take childLength) with
          | none => .unknown
          | some (slen, new) =>
            decodeMembers cb members (num + 1) (rest.drop slen) 0 (pairs ++ new)
              (keyOf m num (pairs ++ new) key)
      | none =>
        match frValueBoxFromNetwork cb m (rest.take childLength) with
        | none => .unknown
        | some value =>
          decodeMembers cb members (num + 1) (rest.drop childLength) 0
            (pairs ++ [.member num value]) (if m.key then some (num, value) else key)

/-- What `fr_struct_from_network` returns, and the pair it appends. -/
inductive Decoded where
  | failed (ret : ℤ)
  | hangs
  | decoded (ret : ℕ) (pair : Pair)

/-- `unknown`: the raw attribute is made from the beginning of the data, prefix included. -/
def unknownStruct (data : List UInt8) (dataLen : ℕ) : Decoded :=
  .decoded dataLen (.rawStruct (data.take dataLen))

/-- The members, and the structure after the key field -/
def decodeBody (cb : Callbacks) (parent : StructDef) (data : List UInt8) (start dataLen : ℕ) :
    Decoded :=
  let body := (data.drop start).take dataLen
  match decodeMembers cb parent.members 1 body 0 [] none with
  | .unknown => unknownStruct data dataLen
  | .needsDecodeTlv rest => .failed (-(start + (body.length - rest.length : ℕ)))
  | .hangs => .hangs
  | .done rest pairs => .decoded (start + (body.length - rest.length)) (.struct pairs)
  | .ended rest pairs none => .decoded (start + (body.length - rest.length)) (.struct pairs)
  | .ended rest pairs (some (num, value)) =>
    if rest.isEmpty then .decoded (start + body.length) (.struct pairs)
    else
      match cb.substruct num value rest with
      | some (slen, pair) =>
        .decoded (start + (body.length - rest.length) + slen) (.struct (pairs ++ [pair]))
      -- an unknown child is always attribute number 0
      | none => .decoded (start + body.length) (.struct (pairs ++ [.raw 0 rest]))

def frStructFromNetwork (cb : Callbacks) (parent : StructDef) (data : List UInt8) : Decoded :=
  if data.isEmpty then .failed (-1)
  else
    match parent.lengthField with
    | none => decodeBody cb parent data 0 data.length
    | some f =>
      if data.length < f.size then unknownStruct data data.length
      else
        let claimedLen := nboValue (data.take f.size)
        if claimedLen < parent.lengthOffset then unknownStruct data data.length
        else
          let calcLen := claimedLen - parent.lengthOffset
          if calcLen > data.length - f.size then unknownStruct data data.length
          else decodeBody cb parent data f.size calcLen

end Decoder

section Encoder

/-- Why nothing is written. -/
inductive EncodeError where
  /-- there is not enough room in the buffer -/
  | noRoom
  /-- `put_bits_dbuff` refuses its parameters -/
  | badBits
  /-- "Invalid bit field" -/
  | invalidBitField
  /-- "leftover bits" -/
  | leftoverBits
  /-- a value that comes to no bytes, or cannot be encoded -/
  | fatal
  deriving DecidableEq, Repr

/-- `FR_DBUFF_IN_MEMCPY_RETURN` -/
def dbuffIn (room : ℕ) (out bytes : List UInt8) : Except EncodeError (List UInt8) :=
  if out.length + bytes.length ≤ room then .ok (out ++ bytes) else .error .noRoom

/-- The bits that `put_bits_dbuff` has in hand: those buffered, and the lowest of the data. -/
def putBitsWord (p : UInt8) (startBit numBits : ℕ) (data : BitVec 64) : BitVec 64 :=
  let usedBits := (BitVec.ofNat 64 p.toNat) &&& (BitVec.ofInt 64 (-256)).sshiftRight startBit
  let data := data &&& ((1#64 <<< numBits) - 1)
  data <<< (64 - (startBit + numBits)) ||| usedBits <<< 56

/-- `put_bits_dbuff`: what is written, the bits left over and where they end -/
def putBitsDbuff (room : ℕ) (out : List UInt8) (p : UInt8) (startBit numBits : ℕ)
    (data : BitVec 64) : Except EncodeError (List UInt8 × UInt8 × ℕ) :=
  if startBit > 7 then .error .badBits
  else if numBits < 1 ∨ numBits > 56 then .error .badBits
  else
    let bytes := nboBytes 8 (putBitsWord p startBit numBits data).toNat
    let startBit := startBit + numBits
    match if startBit > 7 then dbuffIn room out (bytes.take (startBit / 8)) else .ok out with
    | .error e => .error e
    | .ok out => .ok (out, bytes.getD (startBit / 8) 0, startBit % 8)

/-- The number that is put into a bit field -/
def bitFieldData (type : MemberType) (value : Value) : Option (BitVec 64) :=
  match type, value with
  | .bool, .bool b => some (if b then 1 else 0)
  | .int t, .int b => if t.signed then none else some b.word
  | _, _ => none

/-- `fr_value_box_to_network`, for a value of a member; `leaf` is what it does for the other leaf
types. -/
def frValueBoxToNetwork (leaf : Value → List UInt8) (m : Member) (value : Value) : List UInt8 :=
  match value with
  | .bool b => [if b then 1 else 0]
  | .int b => nboBytes b.type.size b.word.toNat
  | .octets bytes =>
    if m.length ≠ 0 then
      if bytes.length < m.length then bytes ++ List.replicate (m.length - bytes.length) 0
      else bytes.take m.length
    else
      match m.lengthField with
      | none => bytes
      | some .uint8 => nboBytes 1 (min bytes.length 255) ++ bytes.take 255
      | some .uint16 =>
        let max := if bytes.length > 65536 then 65535 else bytes.length
        nboBytes 2 max ++ bytes.take max
  | .leaf code bytes => leaf (.leaf code bytes)

/-- A value that comes to no bytes is an error. -/
def putValue (leaf : Value → List UInt8) (room : ℕ) (out : List UInt8) (m : Member)
    (value : Value) :
    Except EncodeError (List UInt8) :=
  match dbuffIn room out (frValueBoxToNetwork leaf m value) with
  | .error _ => .error .fatal
  | .ok out' => if frValueBoxToNetwork leaf m value = [] then .error .fatal else .ok out'

/-- The pairs of an array: as many as there are for the member. -/
def putArray (leaf : Value → List UInt8) (room : ℕ) (m : Member) (num : ℕ) :
    List Pair → List UInt8 → Except EncodeError (List UInt8 × List Pair)
  | .member n value :: pairs, out =>
    if n = num then
      match putValue leaf room out m value with
      | .error e => .error e
      | .ok out => putArray leaf room m num pairs out
    else .ok (out, .member n value :: pairs)
  | pairs, out => .ok (out, pairs)

/-- `fr_pair_array_to_network`: the callback is called again while there are pairs for the member. -/
def frPairArrayToNetwork (encode : ℕ → List Pair → Except EncodeError (List UInt8 × List Pair))
    (num : ℕ) : ℕ → ℕ → List UInt8 → List Pair → Except EncodeError (List UInt8 × List Pair)
  | 0, _, out, pairs => .ok (out, pairs)
  | fuel + 1, room, out, pairs =>
    match encode (room - out.length) pairs with
    | .error e => .error e
    | .ok (bytes, .member n value :: pairs') =>
      if n = num then frPairArrayToNetwork encode num fuel room (out ++ bytes) (.member n value :: pairs')
      else .ok (out ++ bytes, .member n value :: pairs')
    | .ok (bytes, pairs') => .ok (out ++ bytes, pairs')

/-- What the encoder calls: `encode_value` gets the room, the member and the pairs from the current one
on, and answers the bytes and the pairs left. -/
structure Encoders where
  encodeValue : Option (ℕ → Member → List Pair → Except EncodeError (List UInt8 × List Pair))
  leaf : Value → List UInt8

def Pair.num : Pair → ℕ
  | .member num _ => num
  | .raw num _ => num
  | .struct _ => 0
  | .rawStruct _ => 0

/-- What is left after a bit field. -/
def checkLeftover (out : List UInt8) (offset : ℕ) : Except EncodeError (List UInt8) :=
  if offset ≠ 0 then .error .leftoverBits else .ok out

/-- The loop of `fr_struct_to_network` over the members from number `num` on, with the pairs from the
current one on, the bits left over and what has been written. -/
def encodeMembers (enc : Encoders) (room : ℕ) : List Member → ℕ → List Pair → ℕ → UInt8 →
    List UInt8 → Except EncodeError (List UInt8)
  | [], _, _, offset, _, out => checkLeftover out offset
  | m :: members, num, pairs, offset, bitBuffer, out =>
    -- the number is skipped, or the pairs have been used up: fill the struct with zeros
    let absent : Except EncodeError (List UInt8) :=
      if m.bitField then
        match putBitsDbuff room out bitBuffer offset m.length 0 with
        | .error e => .error e
        | .ok (out, bitBuffer, offset) =>
          encodeMembers enc room members (num + 1) pairs offset bitBuffer out
      else
        match dbuffIn room out (List.replicate m.length 0) with
        | .error e => .error e
        | .ok out => encodeMembers enc room members (num + 1) pairs offset bitBuffer out
    -- without a callback: the rest of an array, and the end of the loop with the last pair
    let next (written : Except EncodeError (List UInt8)) (pairs : List Pair) :
        Except EncodeError (List UInt8) :=
      match written with
      | .error e => .error e
      | .ok out =>
        match if m.array then putArray enc.leaf room m num pairs out else .ok (out, pairs) with
        | .error e => .error e
        | .ok (out, []) => checkLeftover out offset
        | .ok (out, pairs) => encodeMembers enc room members (num + 1) pairs offset bitBuffer out
    match pairs with
    | .raw n bytes :: pairs' =>
      if n ≠ num then absent
      else
        let octets := { m with length := 0, lengthField := none }
        next (putValue enc.leaf room out octets (.octets bytes)) pairs'
    | .member n value :: pairs' =>
      if n ≠ num then absent
      else if m.bitField then
        match bitFieldData m.type value with
        | none => .error .invalidBitField
        | some data =>
          match putBitsDbuff room out bitBuffer offset m.length data with
          | .error e => .error e
          | .ok (out, bitBuffer, offset) =>
            encodeMembers enc room members (num + 1) pairs' offset bitBuffer out
      else if offset ≠ 0 then .error .leftoverBits
      else
        match enc.encodeValue with
        | some encode =>
          let fuel := if m.array then pairs.length else 1
          match frPairArrayToNetwork (fun room => encode room m) num fuel room out
              (.member n value :: pairs') with
          | .error e => .error e
          | .ok (out, pairs') => encodeMembers enc room members (num + 1) pairs' offset bitBuffer out
        | none => next (putValue enc.leaf room out m value) pairs'
    | _ => absent

def pairSortIncreasing (a b : Pair) : Bool := a.num ≤ b.num

/-- `fr_struct_to_network`, for a struct pair with the given children -/
def frStructToNetwork (enc : Encoders) (room : ℕ) (parent : StructDef) (children : List Pair) :
    Except EncodeError (List UInt8) :=
  let sorted := children.mergeSort pairSortIncreasing
  match parent.lengthField with
  | none => encodeMembers enc room parent.members 1 sorted 0 0 []
  | some f =>
    let room := min room f.limit
    match dbuffIn room [] (List.replicate f.size 0) with
    | .error e => .error e
    | .ok header =>
      match encodeMembers enc room parent.members 1 sorted 0 0 header with
      | .error e => .error e
      | .ok out =>
        let length := out.length - f.size + parent.lengthOffset
        if length ≥ 256 ^ f.size then .error .fatal
        else .ok (nboBytes f.size length ++ out.drop f.size)

end Encoder

end FreeRadius.Struct
