import FreeRadius.Radius.Dict

/-!
# Encoding RADIUS packets

`encode.c`, and `fr_radius_encode` of `base.c`. A function that writes to a buffer is
given the room in it and returns the bytes, and it returns the context that it may have
changed. How much room is missing when there is too little is left out.

The values of nested attributes, and of the leaf types that the common functions write,
are parameters.
-/

namespace FreeRadius.Radius

open Library

variable {Da V : Type}

inductive EncodeError where
  /-- There is not enough room. -/
  | noRoom
  /-- "%s too long", for a tunnel password -/
  | tooLong
  /-- "Encoding value but not at top of stack", and the other errors about the shape of pairs -/
  | malformed
  /-- "Called with non-standard attribute %u", which its caller takes for an error -/
  | nonStandard
  /-- "Cannot encode response without request" -/
  | noRequest
  /-- "Cannot encode unknown packet code %d" -/
  | unknownCode
  deriving DecidableEq, Repr

@[simp] theorem encodeOk_bind {β γ : Type} (x : β) (f : β → Except EncodeError γ) :
    (Except.ok x >>= f) = f x := rfl

/-- `fr_radius_encode_ctx_t`, and the members of `fr_radius_ctx_t`. -/
structure EncodeCtx where
  secret : List UInt8
  secureTransport : Bool
  proxyState : ℕ
  requestAuthenticator : Digest
  /-- the numbers that `fr_fast_rand` is going to return -/
  rand : ℕ → UInt32
  saltOffset : ℕ
  tag : UInt8
  requestCode : UInt8
  code : UInt8
  id : UInt8
  addProxyState : Bool
  disallowTunnelPasswords : Bool
  seenMessageAuthenticator : Bool

/-- The parts of the encoder that are not modelled. -/
structure EncodeParams (Da V : Type) where
  md5 : List UInt8 → Digest
  /-- `fr_value_box_to_network`, or the bytes of an IP address or prefix -/
  toNetwork : V → List UInt8
  /-- `fr_radius_encode_abinary` into some room -/
  encodeAbinary : List UInt8 → ℕ → Except EncodeError (List UInt8)
  encodeAbinary_le : ∀ {s room bytes}, encodeAbinary s room = .ok bytes → bytes.length ≤ room
  /-- the value of an attribute that has children -/
  encodeStructural : EncodeCtx → Pair Da V → ℕ → Except EncodeError (List UInt8 × EncodeCtx)

def write (room : ℕ) (bytes : List UInt8) : Except EncodeError (List UInt8) :=
  if bytes.length ≤ room then .ok bytes else .error .noRoom

theorem write_of_le {room : ℕ} {bytes : List UInt8} (h : bytes.length ≤ room) :
    write room bytes = .ok bytes := if_pos h

/-- `fr_value_box_to_network` of a string or octets: a fixed length is filled with zeros, or
the value is cut off. -/
def fixLength (length : ℕ) (s : List UInt8) : List UInt8 :=
  if length = 0 then s
  else if s.length < length then s ++ List.replicate (length - s.length) 0
  else s.take length

section Value

variable (dict : Dict Da) (params : EncodeParams Da V)

/-- The `switch` over the data type in `encode_value`. -/
def valueToNetwork (flags : Flags) (value : Value V) (room : ℕ) :
    Except EncodeError (List UInt8) :=
  match value with
  | .string s =>
    if flags.abinary then params.encodeAbinary s room else write room (fixLength flags.length s)
  | .octets s => write room (fixLength flags.length s)
  | .uint32 n => write room (nboBytes 4 n.toNat)
  | .other v => write room (params.toNetwork v)

def tagValid (x : UInt8) : Bool := 0 < x && x < 0x20

/-- The tag in front of a string. A string that begins with what looks like a tag gets one
that is zero. -/
def tagBytes (tag : UInt8) (flags : Flags) (value : Value V) : List UInt8 :=
  match value with
  | .string s =>
    if !flags.hasTag then []
    else if tag ≠ 0 then [tag]
    else if tagValid (byte s 0) then [0]
    else []
  | _ => []

/-- What `encode_value` has written when it comes to the tag of an integer: the bytes, where
the marker `value_start` is, and the context. -/
structure Encrypted where
  bytes : List UInt8
  valueStart : ℕ
  ctx : EncodeCtx

/-- The `switch` over the encryption in `encode_value`. There is nothing if the attribute is
left out. -/
def encryptValue (ctx : EncodeCtx) (flags : Flags) (value : List UInt8) (room : ℕ) :
    Except EncodeError (Option Encrypted) :=
  match flags.encrypt with
  | .none => .ok (some ⟨value, 0, ctx⟩)
  | .userPassword => do
    let bytes ← write room (encodePassword params.md5 ctx.secret ctx.requestAuthenticator value)
    return some ⟨bytes, value.length, ctx⟩
  | .tunnelPassword =>
    if ctx.disallowTunnelPasswords then .ok none
    else
      -- the tag is always encoded, even if it is zero
      let tag : List UInt8 := if flags.hasTag then [0] else []
      match encodeTunnelPassword params.md5 ctx.secret ctx.requestAuthenticator ctx.rand
        ctx.saltOffset value (room - tag.length) with
      | none => .error .tooLong
      | some bytes =>
        let used := radiusMaxStringLength - 3 - value.length + 1
        .ok (some ⟨tag ++ bytes, if flags.hasTag then 1 else value.length,
          { ctx with rand := fun i => ctx.rand (i + used), saltOffset := ctx.saltOffset + 1 }⟩)
  | .ascendSecret => do
    let bytes ← write room
      (frRadiusAscendSecret params.md5 ctx.secret ctx.requestAuthenticator value)
    return some ⟨bytes, 0, ctx⟩

/-- The tag in the highest byte of an integer, which has to be zero. -/
def tagInteger (flags : Flags) (value : Value V) (e : Encrypted) : Option (List UInt8) :=
  match value with
  | .uint32 _ =>
    if !flags.hasTag then some e.bytes
    else if byte e.bytes e.valueStart ≠ 0 then none
    else some (e.bytes.set e.valueStart e.ctx.tag)
  | _ => some e.bytes

/-- `encode_value` of a leaf. There are no bytes if the attribute is left out. -/
def encodeLeaf (ctx : EncodeCtx) (da : Da) (value : Value V) (room : ℕ) :
    Except EncodeError (List UInt8 × EncodeCtx) := do
  let flags := dict.flags da
  let tag := tagBytes ctx.tag flags value
  if room < tag.length then .error .noRoom
  else
    let bytes ← valueToNetwork params flags value (room - tag.length)
    if bytes = [] then return ([], ctx)
    else
      match ← encryptValue params ctx flags bytes (room - tag.length) with
      | none => return ([], ctx)
      | some e =>
        match tagInteger flags value e with
        | none => return ([], e.ctx)
        | some bytes => return (tag ++ bytes, e.ctx)

def encodeValue (ctx : EncodeCtx) (vp : Pair Da V) (room : ℕ) :
    Except EncodeError (List UInt8 × EncodeCtx) :=
  match vp with
  | .leaf da value => encodeLeaf dict params ctx da value room
  | .group _ _ => params.encodeStructural ctx vp room

end Value

section Attributes

variable (dict : Dict Da) (params : EncodeParams Da V)

/-- `encode_child`: a header of two bytes and the value, in no more than 255 bytes. -/
def encodeChild (ctx : EncodeCtx) (vp : Pair Da V) (room : ℕ) :
    Except EncodeError (List UInt8 × EncodeCtx) := do
  let room := min room 255
  if room < 2 then .error .noRoom
  else
    let (bytes, ctx) ← encodeValue dict params ctx vp (room - 2)
    if bytes = [] then return ([], ctx)
    else return (UInt8.ofNat (dict.attr vp.da) :: UInt8.ofNat (2 + bytes.length) :: bytes, ctx)

/-- `encode_concat`: the value in pieces of 253 bytes. Every round takes at least one byte,
so there are no more rounds than bytes. -/
def encodeConcat (attr : ℕ) : ℕ → List UInt8 → ℕ → Except EncodeError (List UInt8)
  | 0, _, _ => .ok []
  | rounds + 1, data, room =>
    if data = [] then .ok []
    else do
      let frag := data.take radiusMaxStringLength
      let hdr ← write room
        (UInt8.ofNat attr :: UInt8.ofNat (2 + frag.length) :: frag)
      let rest ← encodeConcat attr rounds (data.drop radiusMaxStringLength) (room - hdr.length)
      return hdr ++ rest

/-- `fr_dbuff_advance`, which does nothing behind the end of the buffer. -/
def advance (room pos n : ℕ) : ℕ := if pos + n ≤ room then pos + n else pos

/-- `fr_dbuff_in` of one byte at a marker, and the marker behind it. -/
def markerIn (room : ℕ) (marker : ℕ × List UInt8) (b : UInt8) : ℕ × List UInt8 :=
  if marker.1 < room then (marker.1 + 1, marker.2.set marker.1 b) else marker

/-- `fr_dbuff_set` of a marker, and then `fr_dbuff_in`. -/
def markerInAt (room pos : ℕ) (marker : ℕ × List UInt8) (b : UInt8) : ℕ × List UInt8 :=
  markerIn room (if pos ≤ room then pos else marker.1, marker.2) b

/-- The length fields and the flag in the header of a piece. -/
def fragmentHeader (hdrLen flagOffset vsaOffset fragLen : ℕ) (last : Bool) (room hdr : ℕ)
    (buf : List UInt8) : List UInt8 :=
  let m := markerIn room (advance room hdr 1, buf) (UInt8.ofNat (hdrLen + fragLen))
  let m := if vsaOffset = 0 then m
    else markerInAt room (hdr + vsaOffset) m (UInt8.ofNat (3 + fragLen))
  let m := if flagOffset = 0 then m
    else markerInAt room (hdr + flagOffset) m (if last then 0 else 0x80)
  m.2

/-- The loop of `attr_fragment`. The buffer holds what has been written, `hdr` and `pos` are
where the header and the data of this piece are, and `i` counts the pieces. -/
def fragmentLoop (hdrLen flagOffset vsaOffset dataLen numFragments room : ℕ) :
    ℕ → ℕ → ℕ → ℕ → List UInt8 → Except EncodeError (List UInt8)
  | 0, _, _, _, buf => .ok buf
  | rounds + 1, i, hdr, pos, buf =>
    let maxFragData := 255 - hdrLen
    let last := i + 1 = numFragments
    let fragLen := if last then dataLen - maxFragData * (numFragments - 1) else maxFragData
    let buf := fragmentHeader hdrLen flagOffset vsaOffset fragLen last room hdr buf
    let next := advance room pos fragLen
    if last then .ok (buf.take next)
    else if next + hdrLen ≤ room then
      -- the rest of the data makes room for a copy of the first header
      if room < next + hdrLen + (dataLen - (i + 1) * maxFragData) then .error .noRoom
      else fragmentLoop hdrLen flagOffset vsaOffset dataLen numFragments room rounds (i + 1) next
        (next + hdrLen) (buf.take next ++ buf.take hdrLen ++ buf.drop next)
    else
      -- there is no room for a header, so that neither the data moves nor is one copied
      fragmentLoop hdrLen flagOffset vsaOffset dataLen numFragments room rounds (i + 1) next next buf

/-- `attr_fragment` of an attribute with a header of `hdrLen` bytes and `dataLen` bytes of
data, unless it fits into one piece. -/
def attrFragment (attr : List UInt8) (dataLen hdrLen flagOffset vsaOffset room : ℕ) :
    Except EncodeError (Option (List UInt8)) :=
  if dataLen = 0 then .ok none
  else
    let numFragments := roundUp dataLen (255 - hdrLen) / (255 - hdrLen)
    if numFragments = 1 then .ok none
    else some <$> fragmentLoop hdrLen flagOffset vsaOffset dataLen numFragments room numFragments
      0 0 hdrLen attr

/-- `encode_extended` of an attribute below `top`, which is `ext`, or the attribute of a
vendor below the Extended-Vendor-Specific `ext`. The buffer of the caller moves with the one
that is written to, so that the header stays if there is no value. -/
def encodeExtended (ctx : EncodeCtx) (top ext : Da) (vendor : Option Da) (vp : Pair Da V)
    (room : ℕ) : Except EncodeError (List UInt8 × EncodeCtx) := do
  let extra := (dict.flags top).longExtended
  -- only the long format may have more than 255 bytes
  let room := if extra then room else min room 255
  let flags : List UInt8 := if extra then [0] else []
  let evs := vendor.elim [] fun vendor =>
    nboBytes 4 (dict.attr vendor) ++ [UInt8.ofNat (dict.attr vp.da)]
  let hdr ← write room
    ([UInt8.ofNat (dict.attr top), UInt8.ofNat (3 + flags.length), UInt8.ofNat (dict.attr ext)] ++
      flags ++ evs)
  let (bytes, ctx) ← encodeValue dict params ctx vp (room - hdr.length)
  if bytes = [] then return (hdr, ctx)
  else if 255 < hdr.length + bytes.length then
    let attr ← attrFragment (hdr ++ bytes) (evs.length + bytes.length) 4 3 0 room
    return (attr.getD (hdr ++ bytes), ctx)
  else return ((hdr ++ bytes).set 1 (UInt8.ofNat (hdr.length + bytes.length)), ctx)

/-- `encode_wimax` of an attribute of a vendor. -/
def encodeWimax (ctx : EncodeCtx) (vendor : Da) (vp : Pair Da V) (room : ℕ) :
    Except EncodeError (List UInt8 × EncodeCtx) := do
  let hdr ← write room ([attrVendorSpecificNum, 9] ++ nboBytes 4 (dict.attr vendor) ++
    [UInt8.ofNat (dict.attr vp.da), 3, 0])
  let (bytes, ctx) ← encodeValue dict params ctx vp (room - hdr.length)
  if bytes = [] then return ([], ctx)
  else
    let used := hdr.length + bytes.length
    if 255 < used then
      let attr ← attrFragment (hdr ++ bytes) bytes.length 9 8 7 room
      return (attr.getD [], ctx)
    else return (((hdr ++ bytes).set 7 (UInt8.ofNat (used - 6))).set 1 (UInt8.ofNat used), ctx)

/-- `fr_dbuff_in`, when nobody looks at what it returns. -/
def dbuffIn (room : ℕ) (buf bytes : List UInt8) : List UInt8 :=
  if buf.length + bytes.length ≤ room then buf ++ bytes else buf

/-- The sizes of the fields of a vendor's attributes, `type_size` and `length` of its flags. -/
def vendorFormat (vendor : Da) : FrDictVendor :=
  (dict.vendorByNum (dict.attr vendor)).getD ⟨1, 1, false⟩

def encodeVendorAttr (ctx : EncodeCtx) (vendor : Da) (vp : Pair Da V) (room : ℕ) :
    Except EncodeError (List UInt8 × EncodeCtx) := do
  let room := if dict.type vp.da = .group then room else min room 255
  let dv := vendorFormat dict vendor
  let hdrLen := dv.type + dv.length
  if dv.type ∉ [1, 2, 4] ∨ dv.length ∉ [0, 1, 2] then .error .malformed
  else
    let buf ← write room ([attrVendorSpecificNum, 0] ++ nboBytes 4 (dict.attr vendor))
    let buf := dbuffIn room buf (nboBytes dv.type (dict.attr vp.da))
    let buf := if dv.length = 2 then dbuffIn room buf [0] else buf
    let vsaLengthField := buf.length
    let buf := if dv.length = 0 then buf else dbuffIn room buf [0]
    let (bytes, ctx) ← encodeValue dict params ctx vp (room - buf.length)
    if bytes = [] then return ([], ctx)
    else
      let attr := buf ++ bytes
      if 255 < attr.length then
        let lengthOffset := if dv.length = 0 then 0 else 6 + hdrLen - 1
        let attr ← attrFragment attr bytes.length (6 + hdrLen) 0 lengthOffset room
        return (attr.getD [], ctx)
      else
        let attr := if dv.length = 0 then attr
          else (markerIn room (vsaLengthField, attr) (UInt8.ofNat (hdrLen + bytes.length))).2
        return ((markerIn room (1, attr) (UInt8.ofNat attr.length)).2, ctx)

/-- `encode_nas_filter_rule`, behind the header that is first in the buffer: the strings
follow each other with a zero byte between them. `hdr` is where the header of the attribute
starts that is being filled, and `attrLen` its length so far. -/
def filterRuleLoop (attr : UInt8) (room : ℕ) :
    ℕ → List UInt8 → List (List UInt8) → ℕ → ℕ → List UInt8 → Except EncodeError (List UInt8)
  | 0, _, _, _, _, buf => .ok buf
  | rounds + 1, p, rules, hdr, attrLen, buf =>
    if p ≠ [] then
      if attrLen + p.length ≤ 255 then
        -- the string does not overflow the attribute
        if room < buf.length + p.length then .error .noRoom
        else
          let attrLen := attrLen + p.length
          filterRuleLoop attr room rounds [] rules hdr attrLen
            ((buf ++ p).set (hdr + 1) (UInt8.ofNat attrLen))
      else
        let fragLen := 255 - attrLen
        if room < buf.length + fragLen then .error .noRoom
        else
          let buf := (buf ++ p.take fragLen).set (hdr + 1) 255
          if room < buf.length + 2 then .error .noRoom
          else filterRuleLoop attr room rounds (p.drop fragLen) rules buf.length 2
            (buf ++ [attr, 2])
    else
      match rules with
      | [] => .ok buf
      | p :: rules =>
        if attrLen < 255 then
          if room < buf.length + 1 then .error .noRoom
          else
            filterRuleLoop attr room rounds p rules hdr (attrLen + 1)
              ((buf ++ [0]).set (hdr + 1) (UInt8.ofNat (attrLen + 1)))
        else
          -- the zero byte is in a new attribute
          if room < buf.length + 3 then .error .noRoom
          else filterRuleLoop attr room rounds p rules buf.length 3 (buf ++ [attr, 0, 0])

/-- `encode_nas_filter_rule` of these strings. Every round takes a byte of them, or one of
the strings. -/
def encodeNasFilterRule (rules : List (List UInt8)) (room : ℕ) :
    Except EncodeError (List UInt8) :=
  match rules with
  | [] => .error .malformed
  | p :: rules => do
    let buf ← write room [attrNasFilterRuleNum, 0]
    filterRuleLoop attrNasFilterRuleNum room (p.length + rules.flatten.length + 2 * rules.length + 2)
      p rules 0 2 buf

end Attributes

section Pairs

variable (dict : Dict Da) (params : EncodeParams Da V)

/-- What encoding the first of some pairs leaves: the bytes, the context, and the pairs that
are next. -/
abbrev Encoded (Da V : Type) := List UInt8 × EncodeCtx × List (Pair Da V)

/-- `encode_pairs` with the function for the pair at the cursor, which takes at least one of
them. -/
def encodePairs (encode : EncodeCtx → List (Pair Da V) → ℕ → Except EncodeError (Encoded Da V)) :
    ℕ → EncodeCtx → List (Pair Da V) → ℕ → Except EncodeError (List UInt8 × EncodeCtx)
  | 0, ctx, _, _ => .ok ([], ctx)
  | rounds + 1, ctx, vps, room =>
    if vps.isEmpty then .ok ([], ctx)
    else do
      let (bytes, ctx, vps) ← encode ctx vps room
      let (more, ctx) ← encodePairs encode rounds ctx vps (room - bytes.length)
      return (bytes ++ more, ctx)

/-- Encode pairs one at a time. -/
def encodeEach (encode : EncodeCtx → Pair Da V → ℕ → Except EncodeError (List UInt8 × EncodeCtx))
    (ctx : EncodeCtx) (vps : List (Pair Da V)) (room : ℕ) :
    Except EncodeError (List UInt8 × EncodeCtx) :=
  encodePairs (fun ctx vps room =>
    match vps with
    | [] => .ok ([], ctx, [])
    | vp :: vps => do
      let (bytes, ctx) ← encode ctx vp room
      return (bytes, ctx, vps)) vps.length ctx vps room

def Pair.children : Pair Da V → List (Pair Da V)
  | .leaf _ _ => []
  | .group _ children => children

/-- `encode_vendor` of a vendor that has its attributes nested. -/
def encodeVendor (ctx : EncodeCtx) (vp : Pair Da V) (room : ℕ) :
    Except EncodeError (List UInt8 × EncodeCtx) :=
  let continuation := ((dict.vendorByNum (dict.attr vp.da)).map FrDictVendor.continuation).getD false
  encodeEach (fun ctx child room =>
    if continuation then encodeWimax dict params ctx vp.da child room
    else encodeVendorAttr dict params ctx vp.da child room) ctx vp.children room

/-- `encode_vsa` of a Vendor-Specific that has its vendors nested. -/
def encodeVsa (ctx : EncodeCtx) (vp : Pair Da V) (room : ℕ) :
    Except EncodeError (List UInt8 × EncodeCtx) :=
  encodeEach (encodeVendor dict params) ctx vp.children room

def encodeExtendedNested (ctx : EncodeCtx) (vp : Pair Da V) (room : ℕ) :
    Except EncodeError (List UInt8 × EncodeCtx) :=
  encodeEach (fun ctx child room =>
    if dict.type child.da = .vsa then
      encodeEach (fun ctx vendor room =>
        encodeEach (encodeExtended dict params · vp.da child.da (some vendor.da) · ·)
          ctx vendor.children room) ctx child.children room
    else encodeExtended dict params ctx vp.da child.da none child room) ctx vp.children room

variable [DecidableEq Da]

/-- Whether the value is an empty string, or no octets. -/
def Value.isEmpty : Value V → Bool
  | .string s => s = []
  | .octets s => s = []
  | _ => false

def filterRule (vp : Pair Da V) : Option (List UInt8) :=
  match vp with
  | .leaf da (.string s) => if da = dict.attrNasFilterRule then some s else none
  | _ => none

/-- The strings of the NAS-Filter-Rules at the beginning of a list, and the other pairs. -/
def filterRules : List (Pair Da V) → List (List UInt8) × List (Pair Da V)
  | [] => ([], [])
  | vp :: vps =>
    match filterRule dict vp with
    | none => ([], vp :: vps)
    | some s => let rest := filterRules vps; (s :: rest.1, rest.2)

/-- `encode_rfc` of the pair in front of `vps`. -/
def encodeRfc (ctx : EncodeCtx) (vp : Pair Da V) (vps : List (Pair Da V)) (room : ℕ) :
    Except EncodeError (Encoded Da V) :=
  let da := vp.da
  if dict.type da = .tlv ∨ dict.type da = .vsa ∨ dict.type da = .vendor then .error .malformed
  -- the caller of the function takes this for an error
  else if dict.attr da = 0 ∨ 255 < dict.attr da then .error .nonStandard
  else
    match vp with
    | .leaf _ value =>
      if da = dict.attrChargeableUserIdentity ∧ value.isEmpty then
        .ok (dbuffIn room [] [UInt8.ofNat (dict.attr da), 2], ctx, vps)
      else if da = dict.attrMessageAuthenticator then
        if ctx.seenMessageAuthenticator then .ok ([], ctx, vps)
        else do
          let bytes ← write room (UInt8.ofNat (dict.attr da) :: 18 :: Digest.zero.val)
          return (bytes, { ctx with seenMessageAuthenticator := true }, vps)
      else if da = dict.attrNasFilterRule then do
        let rules := filterRules dict (vp :: vps)
        let bytes ← encodeNasFilterRule rules.1 room
        return (bytes, ctx, rules.2)
      else do
        let (bytes, ctx) ← encodeChild dict params ctx vp room
        return (bytes, ctx, vps)
    | .group _ _ => do
      let (bytes, ctx) ← encodeChild dict params ctx vp room
      return (bytes, ctx, vps)

/-- `fr_radius_encode_pair` of a pair that is not a group of tagged ones. -/
def encodeUntagged (ctx : EncodeCtx) (vps : List (Pair Da V)) (room : ℕ) :
    Except EncodeError (Encoded Da V) :=
  match vps with
  | [] => .ok ([], ctx, [])
  | .leaf da value :: vps =>
    if value.isEmpty ∧ da ≠ dict.attrChargeableUserIdentity ∧ da ≠ dict.attrMessageAuthenticator then
      .ok ([], ctx, vps)
    else if (dict.flags da).encrypt ≠ .none then encodeRfc dict params ctx (.leaf da value) vps room
    else
      match value with
      | .octets s =>
        if (dict.flags da).concat then do
          let bytes ← encodeConcat (dict.attr da) s.length s room
          return (bytes, ctx, vps)
        else encodeRfc dict params ctx (.leaf da value) vps room
      | _ => encodeRfc dict params ctx (.leaf da value) vps room
  | .group da children :: vps => do
    let vp := Pair.group da children
    match dict.type da with
    | .vsa =>
      let (bytes, ctx) ← encodeVsa dict params ctx vp room
      return (bytes, ctx, vps)
    | .tlv =>
      let (bytes, ctx) ← if (dict.flags da).isExtended then encodeExtendedNested dict params ctx vp room
        else encodeChild dict params ctx vp room
      return (bytes, ctx, vps)
    | .vendor => .error .malformed
    | _ => encodeRfc dict params ctx vp vps room

/-- `FR_TAG_BASE` -/
def tagBase : ℕ := 1100

/-- Whether the attribute is one of the groups of tagged attributes. -/
def isTagGroup (da : Da) : Bool :=
  dict.type da = .group && (dict.flags da).internal && tagBase < dict.attr da &&
    dict.attr da < tagBase + 0x20

/-- `fr_radius_encode_pair` of the first pair. -/
def frRadiusEncodePair (ctx : EncodeCtx) (vps : List (Pair Da V)) (room : ℕ) :
    Except EncodeError (Encoded Da V) :=
  match vps with
  | .group da children :: vps =>
    if isTagGroup dict da then do
      -- tags inside of tags are skipped
      let children := children.filter fun vp => !(dict.flags vp.da).internal
      let tag := UInt8.ofNat (dict.attr da - tagBase)
      let (bytes, ctx) ← encodePairs (encodeUntagged dict params) children.length
        { ctx with tag := tag } children room
      return (bytes, { ctx with tag := 0 }, vps)
    else encodeUntagged dict params ctx (.group da children :: vps) room
  | vps => encodeUntagged dict params ctx vps room

end Pairs

section Packet

variable [DecidableEq Da] (dict : Dict Da) (params : EncodeParams Da V)

/-- `fr_radius_next_encodable` -/
def isEncodable (vp : Pair Da V) : Bool :=
  !(dict.flags vp.da).internal || (tagBase < dict.attr vp.da && dict.attr vp.da < tagBase + 0x20)

def vectorOf (vps : List (Pair Da V)) : Option Digest :=
  match vps.find? (·.da = dict.attrPacketAuthenticationVector) with
  | some (.leaf _ (.octets s)) =>
    if h : radiusAuthVectorLength ≤ s.length then
      some ⟨s.take radiusAuthVectorLength, by rw [List.length_take, Nat.min_eq_left h]⟩
    else none
  | _ => none

def encodeAuthenticator (code : UInt8) (requestAuthenticator : Option Digest) (random : Digest)
    (vps : List (Pair Da V)) : Except EncodeError Digest :=
  if code ∈ [codeAccessRequest, codeStatusServer] then .ok ((vectorOf dict vps).getD random)
  -- Access-Reject, Access-Challenge, Accounting-Response, CoA-ACK, CoA-NAK, Disconnect-ACK,
  -- Disconnect-NAK, Protocol-Error, Access-Accept
  else if code ∈ [3, 11, 5, 44, 45, 41, 42, codeProtocolError, 2] then
    match requestAuthenticator with
    | none => .error .noRequest
    | some vector => .ok vector
  -- Accounting-Request, Disconnect-Request, CoA-Request
  else if code ∈ [4, 40, 43] then .ok Digest.zero
  else .error .unknownCode

def disallowTunnelPasswords (code : UInt8) : Bool :=
  code ∈ [codeAccessRequest, 3, 11, 4, 5, codeStatusServer, 44, 45, 40, 41, 42, codeProtocolError]

/-- The attributes that `fr_radius_encode` adds in front of the pairs. -/
def leadingAttributes (ctx : EncodeCtx) : List UInt8 :=
  let messageAuthenticator : List UInt8 :=
    if !ctx.secureTransport && ctx.code ∈ [codeAccessRequest, 2, 3, 11, codeStatusServer] then
      attrMessageAuthenticator :: 18 :: Digest.zero.val
    else []
  let originalPacketCode : List UInt8 :=
    if ctx.code = codeProtocolError then [241, 7, 4, 0, 0, 0, ctx.requestCode] else []
  messageAuthenticator ++ originalPacketCode

/-- `fr_radius_encode`. The context holds the authenticator of the request if there is one,
and `random` is what `fr_rand` returns for a new one. -/
def frRadiusEncode (ctx : EncodeCtx) (requestAuthenticator : Option Digest) (random : Digest)
    (vps : List (Pair Da V)) (room : ℕ) : Except EncodeError (List UInt8) := do
  let room := min room 65535
  let header ← write room [ctx.code, ctx.id, 0, 20]
  let vector ← encodeAuthenticator dict ctx.code requestAuthenticator random vps
  let leading := leadingAttributes ctx
  let front ← write room (header ++ vector.val ++ leading)
  let ctx := { ctx with
    requestAuthenticator := vector
    disallowTunnelPasswords := disallowTunnelPasswords ctx.code
    seenMessageAuthenticator := ctx.seenMessageAuthenticator ||
      (!ctx.secureTransport && ctx.code ∈ [codeAccessRequest, 2, 3, 11, codeStatusServer]) }
  let vps := vps.filter (isEncodable dict)
  let (bytes, ctx) ← encodePairs (frRadiusEncodePair dict params) vps.length ctx vps
    (room - front.length)
  let proxyState : List UInt8 :=
    if ctx.addProxyState then attrProxyState :: 10 :: nboBytes 8 ctx.proxyState else []
  let packet ← write room (front ++ bytes ++ proxyState)
  return splice packet 2 (nboBytes 2 packet.length)

end Packet

end FreeRadius.Radius
