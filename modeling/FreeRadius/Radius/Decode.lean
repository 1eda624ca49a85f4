import FreeRadius.Radius.Dict

/-!
# Decoding RADIUS packets

`decode.c`, and `fr_radius_decode` of `base.c`. The data that a function is given are the
bytes up to the end of the packet, `packet_ctx->end`, because some attributes go on behind
their own length. Memory is always granted.

The groups of the tagged attributes are kept apart from the other pairs; in the source they
are in the top-level list, too.
-/

namespace FreeRadius.Radius

open Library

variable {Da V : Type}

/-- The members of `fr_radius_decode_ctx_t` that the functions for attributes read. -/
structure DecodeCtx where
  secret : List UInt8
  requestAuthenticator : Option Digest
  tunnelPasswordZeros : Bool
  /-- whether the checks are compiled in that `NDEBUG` leaves out -/
  debug : Bool

/-- The list that pairs are appended to, and the groups of the tagged ones. -/
structure Lists (Da V : Type) where
  out : List (Pair Da V)
  tags : List (UInt8 × List (Pair Da V))

/-- The length that a function returns, unless it fails. What it has changed in the lists
stays. -/
abbrev Decoded (Da V : Type) := Option ℕ × Lists Da V

/-- The parts of the decoder that are not modelled. -/
structure DecodeParams (Da V : Type) where
  md5 : List UInt8 → Digest
  /-- `fr_value_box_from_network`, or the code for IP prefixes -/
  fromNetwork : Da → List UInt8 → Option V
  /-- `fr_radius_decode_abinary` -/
  decodeAbinary : List UInt8 → Option (List UInt8)
  /-- `fr_struct_from_network` -/
  structFromNetwork : Da → List UInt8 → Lists Da V → Bool × Lists Da V
  /-- the decoder of the protocol that a group refers to -/
  decodeGroup : Da → List UInt8 → Option (List (Pair Da V))

def Lists.append (s : Lists Da V) (vp : Pair Da V) : Lists Da V := { s with out := s.out ++ [vp] }

section Groups

variable [DecidableEq Da]

/-- The pairs in front of the first group with this attribute, its children, and the pairs
behind it. If there is none, it is going to be at the end. -/
def findGroup (da : Da) : List (Pair Da V) → List (Pair Da V) × List (Pair Da V) × List (Pair Da V)
  | [] => ([], [], [])
  | .group da' children :: vps =>
    if da' = da then ([], children, vps)
    else
      let found := findGroup da vps
      (.group da' children :: found.1, found.2)
  | .leaf da' value :: vps =>
    let found := findGroup da vps
    (.leaf da' value :: found.1, found.2)

/-- `fr_pair_find_or_append_by_da`, and what is done in the list of that pair. -/
def inGroup (da : Da) (decode : Lists Da V → Decoded Da V) (s : Lists Da V) : Decoded Da V :=
  let found := findGroup da s.out
  let result := decode { s with out := found.2.1 }
  (result.1, { result.2 with out := found.1 ++ .group da result.2.out :: found.2.2 })

/-- `fr_pair_afrom_da_nested`: a pair goes to the groups of the attributes above it. -/
def appendNested : List Da → Pair Da V → List (Pair Da V) → List (Pair Da V)
  | [], vp, vps => vps ++ [vp]
  | da :: path, vp, vps =>
    let found := findGroup da vps
    found.1 ++ .group da (appendNested path vp found.2.1) :: found.2.2

/-- Append to the group of a tag. -/
def appendTagged (tag : UInt8) (path : List Da) (vp : Pair Da V) :
    List (UInt8 × List (Pair Da V)) → List (UInt8 × List (Pair Da V))
  | [] => []
  | group :: tags =>
    if group.1 = tag then (group.1, appendNested path vp group.2) :: tags
    else group :: appendTagged tag path vp tags

/-- Make sure that there is a group for the tag. -/
def Lists.openTag (s : Lists Da V) (tag : UInt8) : Lists Da V :=
  if tag = 0 ∨ tag ∈ s.tags.map Prod.fst then s else { s with tags := s.tags ++ [(tag, [])] }

end Groups

section Leaf

variable (dict : Dict Da) (params : DecodeParams Da V) (ctx : DecodeCtx)

/-- `fr_pair_raw_from_network`, which cannot fail. -/
def frPairRawFromNetwork (da : Da) (data : List UInt8) (s : Lists Da V) : Decoded Da V :=
  (some data.length, s.append (.leaf (dict.rawOf da) (.octets data)))

/-- The tag of a value and the value without it, unless it is malformed. -/
def splitTag (flags : Flags) (type : DataType) (p : List UInt8) : Option (UInt8 × List UInt8) :=
  if !flags.hasTag then some (0, p)
  else if type = .uint32 then
    if p.length ≠ 4 ∨ 0x20 ≤ byte p 0 then none else some (byte p 0, 0 :: p.drop 1)
  else if type ≠ .string then none
  else if byte p 0 < 0x20 then
    if 256 ≤ p.length then none else some (byte p 0, p.drop 1)
  -- this is not a tag
  else some (0, p)

/-- `buffer[256]` with these bytes. The others are not initialised, and their values do not
matter. -/
def bufferOf (p : List UInt8) : List UInt8 := p ++ List.replicate (256 - p.length) 0

def withoutZeros (buffer : List UInt8) : ℕ → ℕ
  | 0 => 0
  | dataLen + 1 => if byte buffer dataLen = 0 then withoutZeros buffer dataLen else dataLen + 1

/-- The `switch` over the encryption in `fr_radius_decode_pair_value`. -/
def decryptValue (flags : Flags) (attrLen : ℕ) (p : List UInt8) : Option (List UInt8) :=
  match flags.encrypt with
  | .none => some p
  | encrypt =>
    if 253 < attrLen then none
    else
      match ctx.requestAuthenticator with
      | none => none
      | some vector =>
        match encrypt with
        | .userPassword =>
          let buffer := frRadiusDecodePassword params.md5 ctx.secret vector (bufferOf p) attrLen
          let buffer := buffer.set 253 0
          let dataLen :=
            if flags.length ≠ 0 then min p.length flags.length else withoutZeros buffer p.length
          some (buffer.take dataLen)
        | .tunnelPassword =>
          (frRadiusDecodeTunnelPassword params.md5 ctx.secret vector ctx.tunnelPasswordZeros
            (bufferOf p) p.length).map fun result => result.1.take result.2
        | _ =>
          -- up to the first zero
          some ((frRadiusAscendSecret params.md5 ctx.secret vector p).takeWhile (· ≠ 0))

/-- `fr_value_box_from_network` of a string or octets. -/
def variableFromNetwork (length : ℕ) (p : List UInt8) : Option (List UInt8) :=
  if length = 0 then some p
  else if p.length < length then none
  else some (p.take length)

/-- The `switch` over the data type at the end of `fr_radius_decode_pair_value`. -/
def decodeLeaf (da : Da) (p : List UInt8) : Option (Value V) :=
  let flags := dict.flags da
  match dict.type da with
  | .string =>
    if flags.abinary then (params.decodeAbinary p).map .string
    else (variableFromNetwork flags.length p).map .string
  | .octets =>
    if flags.length ≠ 0 ∧ p.length ≠ flags.length then none
    else (variableFromNetwork flags.length p).map .octets
  | .uint32 =>
    if p.length < 4 ∨ (4 < p.length ∧ !flags.array) then none
    else some (.uint32 (UInt32.ofNat (nboValue (p.take 4))))
  | _ => (params.fromNetwork da p).map .other

variable [DecidableEq Da]

/-- `fr_radius_decode_pair_value` of a leaf that is not empty. -/
def decodeLeafValue (da : Da) (attr : List UInt8) (s : Lists Da V) : Decoded Da V :=
  let flags := dict.flags da
  match splitTag flags (dict.type da) attr with
  | none => frPairRawFromNetwork dict da attr s
  | some (tag, p) =>
    let s := s.openTag tag
    match decryptValue params ctx flags attr.length p with
    | none => frPairRawFromNetwork dict da attr s
    | some p =>
      match decodeLeaf dict params da p with
      | none => if dict.isUnknown da then (none, s) else frPairRawFromNetwork dict da attr s
      | some value =>
        let vp := Pair.leaf da value
        if tag = 0 then (some attr.length, s.append vp)
        else (some attr.length, { s with tags := appendTagged tag (dict.path da) vp s.tags })

end Leaf

section Nested

variable (dict : Dict Da) (params : DecodeParams Da V) (ctx : DecodeCtx)

/-- The functions that call each other: `fr_radius_decode_pair_value` and
`fr_radius_decode_tlv`. The arguments are the attribute, the data, and the length of the
attribute. -/
structure Decoders (Da V : Type) where
  value : Da → List UInt8 → ℕ → Lists Da V → Decoded Da V
  tlv : Da → List UInt8 → ℕ → Lists Da V → Decoded Da V

/-- The loop of `fr_radius_decode_tlv_ok`. Every attribute has a type, so there are no more
rounds than bytes. -/
def tlvOkLoop (dvType dvLength : ℕ) : ℕ → List UInt8 → Bool
  | 0, _ => true
  | rounds + 1, data =>
    if data = [] then true
    else if data.length < dvType + dvLength then false
    else if dvType = 4 ∧ (data.take 4 = [0, 0, 0, 0] ∨ byte data 0 ≠ 0) then false
    else if dvType = 2 ∧ data.take 2 = [0, 0] then false
    else if dvType = 3 then false
    else if dvLength = 0 then true
    else if dvLength = 2 ∧ byte data dvType ≠ 0 then false
    else
      let attrlen := (byte data (dvType + dvLength - 1)).toNat
      if attrlen < dvType + dvLength then false
      else if data.length < attrlen then false
      else tlvOkLoop dvType dvLength rounds (data.drop attrlen)

def frRadiusDecodeTlvOk (data : List UInt8) (dvType dvLength : ℕ) : Bool :=
  if 2 < dvLength ∨ dvType = 0 ∨ 4 < dvType then false
  else tlvOkLoop dvType dvLength data.length data

/-- The loop of `fr_radius_decode_tlv` over `dataLen` bytes. -/
def decodeTlvLoop (d : Decoders Da V) (parent : Da) :
    ℕ → List UInt8 → ℕ → Lists Da V → Bool × Lists Da V
  | 0, _, _, s => (true, s)
  | rounds + 1, p, dataLen, s =>
    if dataLen = 0 then (true, s)
    else
      let num := (byte p 0).toNat
      let len := (byte p 1).toNat
      let value := p.drop 2
      let result :=
        match dict.childByNum parent num with
        | some child => d.value child value (len - 2) s
        | none =>
          if frRadiusDecodeTlvOk (value.take (len - 2)) 1 1 then
            d.tlv (dict.unknownTlv parent num) value (len - 2) s
          else d.value (dict.unknownRaw parent num) value (len - 2) s
      match result with
      | (none, s) => (false, s)
      | (some _, s) => decodeTlvLoop d parent rounds (p.drop len) (dataLen - len) s

variable (d : Decoders Da V)

/-- `fr_radius_decode_tlv`. The children are decoded to a list of their own. -/
def frRadiusDecodeTlv (parent : Da) (data : List UInt8) (dataLen : ℕ)
    (s : Lists Da V) : Decoded Da V :=
  if dataLen < 3 then (none, s)
  else if !frRadiusDecodeTlvOk (data.take dataLen) 1 1 then (none, s)
  else
    match decodeTlvLoop dict d parent dataLen data dataLen { s with out := [] } with
    | (false, t) => (none, { s with tags := t.tags })
    | (true, t) => (some dataLen, { t with out := s.out ++ [.group parent t.out] })

def decodeVsaInternal (parent : Da) (data : List UInt8) (dataLen : ℕ)
    (dv : FrDictVendor) (s : Lists Da V) : Decoded Da V :=
  if ctx.debug ∧ dataLen ≤ dv.type + dv.length then (none, s)
  else if dv.type ∉ [1, 2, 4] ∨ dv.length ∉ [0, 1, 2] then (none, s)
  else
    let hdrLen := dv.type + dv.length
    let num :=
      if dv.type = 4 then nboValue (slice data 1 3) else nboValue (data.take dv.type)
    let attrlen := if dv.length = 0 then dataLen else (byte data (hdrLen - 1)).toNat
    let value := data.drop hdrLen
    let da :=
      match dict.childByNum parent num with
      | some da => da
      | none =>
        if dv.length = 0 ∨
            !frRadiusDecodeTlvOk (value.take (attrlen - hdrLen)) dv.type dv.length then
          dict.unknownRaw parent num
        else dict.unknownTlv parent num
    match d.value da value (attrlen - hdrLen) s with
    | (none, s) => (none, s)
    | (some _, s) => (some attrlen, s)

/-- The loop of `decode_vsa` over the attributes of the vendor. -/
def decodeVsaLoop (d : Decoders Da V) (vendor : Da) (dv : FrDictVendor) :
    ℕ → List UInt8 → ℕ → ℕ → Lists Da V → Decoded Da V
  | 0, _, _, total, s => (some total, s)
  | rounds + 1, data, attrLen, total, s =>
    if attrLen = 0 then (some total, s)
    else
      match decodeVsaInternal dict ctx d vendor data attrLen dv s with
      | (none, s) => (none, s)
      | (some vsaLen, s) =>
        decodeVsaLoop d vendor dv rounds (data.drop vsaLen) (attrLen - vsaLen) (total + vsaLen) s

variable [DecidableEq Da]

/-- The groups of a vendor that has only tagged attributes are deleted again. -/
def dropEmptyVendor (vsa vendor : Da) (vps : List (Pair Da V)) : List (Pair Da V) :=
  let found := findGroup vsa vps
  let inner := findGroup vendor found.2.1
  if inner.2.1.isEmpty then
    if (inner.1 ++ inner.2.2).isEmpty then found.1 ++ found.2.2
    else found.1 ++ .group vsa (inner.1 ++ inner.2.2) :: found.2.2
  else vps

/-- `decode_vsa` from the label `create_attrs` on. -/
def decodeVsaAttrs (parent vendor : Da) (dv : FrDictVendor) (data : List UInt8)
    (attrLen : ℕ) (s : Lists Da V) : Decoded Da V :=
  let result := inGroup parent (inGroup vendor fun s =>
    match decodeVsaLoop dict ctx d vendor dv attrLen (data.drop 4) (attrLen - 4) 4
      { s with out := [] } with
    | (none, t) => (none, { s with tags := t.tags })
    | (some total, t) => (some total, { t with out := s.out ++ t.out })) s
  match result with
  | (none, s) => (none, s)
  | (some total, s) => (some total, { s with out := dropEmptyVendor parent vendor s.out })

/-- The loop of `decode_wimax` that adds up the pieces. `data` is the first attribute, and
`attr` is at the type of the next one. The result is the length of all of them behind `data`,
and what they hold. -/
def wimaxLoop (data : List UInt8) : ℕ → ℕ → List UInt8 → Option (ℕ × List UInt8)
  | 0, _, _ => none
  | rounds + 1, off, held =>
    let attr := data.drop off
    let len := (byte attr 1).toNat
    if attr.length < 3 then none
    else if len ≤ 3 then none
    else if attr.length < len then none
    else
      let held := held ++ slice attr 3 (len - 3)
      if byte attr 2 &&& 0x80 = 0 then some (off + len, held)
      -- there is more data, but this is the end of the packet
      else if attr.length = len then none
      else
        let next := attr.drop len
        if next.length < 9 then none
        else if byte next 0 ≠ attrVendorSpecificNum then none
        else if byte next 1 < 9 then none
        else if next.length < (byte next 1).toNat then none
        else if data.take 4 ≠ slice next 2 4 then none
        else if (byte next 1).toNat ≠ (byte next 7).toNat + 6 then none
        else if byte data 4 ≠ byte next 6 then none
        else wimaxLoop data rounds (off + len + 6) held

def decodeWimax (parent : Da) (data : List UInt8) (attrLen : ℕ)
    (s : Lists Da V) : Decoded Da V :=
  let len := (byte data 5).toNat
  if attrLen < 8 then (none, s)
  else if len < 3 then (none, s)
  else if len + 4 ≠ attrLen then (none, s)
  else
    let da := (dict.childByNum parent (byte data 4).toNat).getD
      (dict.unknownRaw parent (byte data 4).toNat)
    if byte data 6 &&& 0x80 = 0 then
      match inGroup dict.attrVendorSpecific (inGroup parent (d.value da (data.drop 7) (len - 3)))
        s with
      | (none, s) => (none, s)
      | (some _, s) => (some attrLen, s)
    else
      let s := (inGroup dict.attrVendorSpecific (inGroup parent fun s => (some 0, s)) s).2
      match wimaxLoop data data.length 4 [] with
      | none => (none, s)
      | some (used, held) =>
        if held = [] then (none, s)
        else
          -- the pairs go to the list of the caller
          match d.value da held held.length s with
          | (none, s) => (none, s)
          | (some _, s) => (some used, s)

def decodeVsa (parent : Da) (data : List UInt8) (attrLen : ℕ)
    (s : Lists Da V) : Decoded Da V :=
  if data.length < attrLen then (none, s)
  else if attrLen < 5 then (none, s)
  else if byte data 0 ≠ 0 then (none, s)
  else
    let vendorPen := nboValue (data.take 4)
    let value := slice data 4 (attrLen - 4)
    match dict.childByNum parent vendorPen with
    | none =>
      if !frRadiusDecodeTlvOk value 1 1 then (none, s)
      else decodeVsaAttrs dict ctx d parent (dict.unknownVendor parent vendorPen) ⟨1, 1, false⟩ data
        attrLen s
    | some vendor =>
      match dict.vendorByNum vendorPen with
      | none => (none, s)
      | some dv =>
        if dv.continuation then decodeWimax dict d vendor data attrLen s
        else if !frRadiusDecodeTlvOk value dv.type dv.length then (none, s)
        else decodeVsaAttrs dict ctx d parent vendor dv data attrLen s

/-- The attributes of a vendor below an extended attribute. -/
def decodeExtendedVsa (parent : Da) (data : List UInt8) (attrLen : ℕ)
    (s : Lists Da V) : Decoded Da V :=
  if attrLen < 6 then (none, s)
  else
    let vendorPen := nboValue (data.take 4)
    let num := (byte data 4).toNat
    let vendor := (dict.childByNum parent vendorPen).getD (dict.unknownVendor parent vendorPen)
    let child := (dict.childByNum vendor num).getD (dict.unknownRaw vendor num)
    match inGroup parent (inGroup vendor (d.value child (data.drop 5) (attrLen - 5))) s with
    | (none, s) => (none, s)
    | (some _, s) => (some attrLen, s)

/-- `if (ret < 0) goto raw;` -/
def orRaw (da : Da) (attr : List UInt8) (result : Decoded Da V) : Decoded Da V :=
  match result.1 with
  | none => frPairRawFromNetwork dict da attr result.2
  | some _ => result

/-- `fr_radius_decode_pair_value`, which calls itself through the other functions. -/
def decodePairValueStep (da : Da) (data : List UInt8) (attrLen : ℕ)
    (s : Lists Da V) : Decoded Da V :=
  if 128 * 1024 < attrLen then (none, s)
  else if data.length < attrLen then (none, s)
  else if attrLen = 0 then (some 0, s)
  else
    let attr := data.take attrLen
    match dict.type da with
    | .vsa =>
      orRaw dict da attr
        (if (dict.parent da).elim false fun parent => (dict.flags parent).isExtended then
          decodeExtendedVsa dict d da data attrLen s
        else decodeVsa dict ctx d da data attrLen s)
    | .tlv => orRaw dict da attr (d.tlv da data attrLen s)
    | .struct =>
      match params.structFromNetwork da attr s with
      | (false, s) => frPairRawFromNetwork dict da attr s
      | (true, s) => (some attrLen, s)
    | .group =>
      match params.decodeGroup da attr with
      | none => frPairRawFromNetwork dict da attr s
      | some children => (some attrLen, s.append (.group da children))
    | .vendor => frPairRawFromNetwork dict da attr s
    | _ => decodeLeafValue dict params ctx da attr s

/-- The two functions, which call each other no deeper than this. The data get shorter with
every call. -/
def decoders : ℕ → Decoders Da V
  | 0 => ⟨fun _ _ _ s => (none, s), fun _ _ _ s => (none, s)⟩
  | depth + 1 =>
    ⟨decodePairValueStep dict params ctx (decoders depth), frRadiusDecodeTlv dict (decoders depth)⟩

def frRadiusDecodePairValue (da : Da) (data : List UInt8) (attrLen : ℕ) (s : Lists Da V) :
    Decoded Da V :=
  (decoders dict params ctx (2 * data.length + 2)).value da data attrLen s

theorem frRadiusDecodePairValue_eq (da : Da) (data : List UInt8) (attrLen : ℕ) (s : Lists Da V) :
    frRadiusDecodePairValue dict params ctx da data attrLen s =
      decodePairValueStep dict params ctx (decoders dict params ctx (2 * data.length + 1)) da data
        attrLen s :=
  rfl

end Nested

section Runs

variable (dict : Dict Da) (params : DecodeParams Da V) (ctx : DecodeCtx)

/-- The first loop of `decode_concat`: how far the consecutive attributes of a type go, and
what they hold. -/
def concatLoop (data : List UInt8) (attr : UInt8) :
    ℕ → ℕ → List UInt8 → Option (ℕ × List UInt8)
  | 0, off, held => some (off, held)
  | rounds + 1, off, held =>
    let ptr := data.drop off
    let len := (byte ptr 1).toNat
    if ptr = [] ∨ ptr.length = 2 then some (off, held)
    else if ptr.length < 2 then none
    else if len ≤ 2 then none
    else if ptr.length < len then none
    else
      let held := held ++ slice ptr 2 (len - 2)
      let next := data.drop (off + len)
      if next = [] ∨ byte next 0 ≠ attr then some (off + len, held)
      else concatLoop data attr rounds (off + len) held

def decodeConcat (da : Da) (data : List UInt8) (s : Lists Da V) : Decoded Da V :=
  match concatLoop data (byte data 0) data.length 0 [] with
  | none => (none, s)
  | some (used, held) =>
    if held = [] then (some 2, s)
    else (some used, s.append (.leaf da (.octets held)))

/-- The first loop of `decode_nas_filter_rule`. -/
def filterRunLoop (data : List UInt8) : ℕ → ℕ → List UInt8 → Option (ℕ × List UInt8)
  | 0, off, held => some (off, held)
  | rounds + 1, off, held =>
    let ptr := data.drop off
    let len := (byte ptr 1).toNat
    if ptr = [] ∨ ptr.length = 2 then some (off, held)
    else if ptr.length < 2 then none
    else if byte ptr 0 ≠ attrNasFilterRuleNum then some (off, held)
    else if len ≤ 2 then none
    else if ptr.length < len then none
    else filterRunLoop data rounds (off + len) (held ++ slice ptr 2 (len - 2))

/-- The last loop of `decode_nas_filter_rule`: the strings between the zero bytes, without the
empty ones. -/
def rulesLoop : ℕ → List UInt8 → List (List UInt8)
  | 0, _ => []
  | rounds + 1, decode =>
    if decode = [] then []
    else
      let rule := decode.takeWhile (· ≠ 0)
      let rules := rulesLoop rounds (decode.drop (rule.length + 1))
      if rule = [] then rules else rule :: rules

def decodeNasFilterRule (da : Da) (data : List UInt8) (s : Lists Da V) : Decoded Da V :=
  match filterRunLoop data data.length 0 [] with
  | none => (none, s)
  | some (used, held) =>
    let decode :=
      if radiusMaxStringLength < held.length then held
      else slice data 2 ((byte data 1).toNat - 2)
    (some used, { s with
      out := s.out ++ (rulesLoop decode.length decode).map fun rule => .leaf da (.string rule) })

/-- The loop of `fr_pair_tlvs_from_network` over `dataLen` bytes. -/
def tlvsLoop (decodeTlv : List UInt8 → ℕ → Lists Da V → Decoded Da V) :
    ℕ → List UInt8 → ℕ → Lists Da V → Bool × Lists Da V
  | 0, _, _, s => (true, s)
  | rounds + 1, p, dataLen, s =>
    if dataLen = 0 then (true, s)
    else
      match decodeTlv p dataLen s with
      | (none, s) => (false, s)
      | (some slen, s) =>
        if slen = 0 then (false, s)
        else tlvsLoop decodeTlv rounds (p.drop slen) (dataLen - slen) s

def frPairTlvsFromNetwork (decodeTlv : Da → List UInt8 → ℕ → Lists Da V → Decoded Da V)
    (parent : Da) (data : List UInt8) (dataLen : ℕ) (nested : Bool) (s : Lists Da V) :
    Decoded Da V :=
  if dict.type parent ≠ .tlv ∧ dict.type parent ≠ .vendor then (none, s)
  else
    match tlvsLoop (decodeTlv parent) dataLen data dataLen { s with out := [] } with
    | (false, t) => (none, { s with tags := t.tags })
    | (true, t) =>
      (some dataLen,
        { t with out := s.out ++ if nested then [.group parent t.out] else t.out })

/-- `fr_pair_array_from_network` of `dataLen` bytes behind the first `off` ones. -/
def arrayLoop (decodeValue : List UInt8 → ℕ → Lists Da V → Decoded Da V) (off : ℕ) :
    ℕ → List UInt8 → ℕ → Lists Da V → Decoded Da V
  | 0, _, _, s => (some off, s)
  | rounds + 1, p, dataLen, s =>
    if dataLen = 0 then (some off, s)
    else
      match decodeValue p dataLen s with
      | (none, s) => (none, s)
      | (some slen, s) =>
        if slen = 0 then (if off = 0 then some 0 else none, s)
        else arrayLoop decodeValue (off + slen) rounds (p.drop slen) (dataLen - slen) s

variable [DecidableEq Da]

/-- `decode_rfc`, no deeper than this. -/
def decodeRfc : ℕ → Da → List UInt8 → ℕ → Lists Da V → Decoded Da V
  | 0, _, _, _, s => (none, s)
  | depth + 1, parent, data, dataLen, s =>
    let num := (byte data 0).toNat
    let len := (byte data 1).toNat
    let value := data.drop 2
    if dataLen < 2 ∨ len < 2 then (none, s)
    else if len = 2 then (some 2, s)
    else if dataLen < len then (none, s)
    else
      let result : Decoded Da V :=
        match dict.childByNum parent num with
        | none => frPairRawFromNetwork dict (dict.unknownRaw parent num) (value.take (len - 2)) s
        | some da =>
          if (dict.flags da).array then
            arrayLoop (frRadiusDecodePairValue dict params ctx da) 0 (len - 2) value (len - 2) s
          else if dict.type da = .tlv then
            frPairTlvsFromNetwork dict (decodeRfc depth) da value (len - 2) true s
          else frRadiusDecodePairValue dict params ctx da value (len - 2) s
      match result with
      | (none, s) => (none, s)
      | (some _, s) => (some len, s)

/-- The loop of `decode_digest_attributes`: consecutive attributes have their children in one
list. -/
def digestLoop (da : Da) (data : List UInt8) : ℕ → ℕ → Lists Da V → Decoded Da V
  | 0, off, s => (some off, s)
  | rounds + 1, off, s =>
    let p := data.drop off
    let len := (byte p 1).toNat
    if p = [] ∨ p.length < len then
      let s := (frPairRawFromNetwork dict da p s).2
      (some off, s)
    else
      match frPairTlvsFromNetwork dict (decodeRfc dict params ctx p.length) da (p.drop 2) (len - 2)
        false s with
      | (none, s) => (none, s)
      | (some slen, s) =>
        if slen = 0 then (none, s)
        else
          let next := data.drop (off + len)
          if 2 < next.length ∧ byte next 0 = attrDigestAttributesNum ∧ 2 < byte next 1 then
            digestLoop da data rounds (off + len) s
          else (some (off + len), s)

def decodeDigestAttributes (da : Da) (data : List UInt8) (s : Lists Da V) : Decoded Da V :=
  match digestLoop dict params ctx da data data.length 0 { s with out := [] } with
  | (none, t) => (none, { s with tags := t.tags })
  | (some used, t) => (some used, { t with out := s.out ++ [.group da t.out] })

/-- The loop of `decode_extended_fragments` behind the first fragment: how far the fragments
go, and what they hold. -/
def fragmentsLoop (attr : List UInt8) : ℕ → ℕ → List UInt8 → Bool → ℕ × List UInt8
  | 0, off, held, _ => (off, held)
  | rounds + 1, off, held, lastFrag =>
    let frag := attr.drop off
    let len := (byte frag 1).toNat
    if lastFrag ∨ frag.length < 4 ∨ byte frag 0 ≠ byte attr 0 ∨ len < 4 ∨
        byte frag 2 ≠ byte attr 2 ∨ frag.length < len then (off, held)
    else fragmentsLoop attr rounds (off + len) (held ++ slice frag 4 (len - 4))
      (byte frag 3 &&& 0x80 = 0)

def decodeExtended (da : Da) (data : List UInt8) (s : Lists Da V) : Decoded Da V :=
  let len := (byte data 1).toNat
  let num := (byte data 2).toNat
  let plus (n : ℕ) (result : Decoded Da V) : Decoded Da V :=
    match result with
    | (none, s) => (none, s)
    | (some slen, s) => (some (n + slen), s)
  if len = 3 then plus 2 (frPairRawFromNetwork dict da (slice data 2 1) s)
  else
    let child := (dict.childByNum da num).getD (dict.unknownRaw da num)
    if !(dict.flags da).longExtended then
      plus 3 (inGroup da (frRadiusDecodePairValue dict params ctx child (data.drop 3) (len - 3)) s)
    else if len = 4 then plus 2 (frPairRawFromNetwork dict da (slice data 2 2) s)
    else if byte data 3 &&& 0x80 = 0 then
      plus 4 (inGroup da (frRadiusDecodePairValue dict params ctx child (data.drop 4) (len - 4)) s)
    else
      let fragments := fragmentsLoop data data.length len (slice data 4 (len - 4)) false
      match inGroup da (frRadiusDecodePairValue dict params ctx child fragments.2
        fragments.2.length) s with
      | (none, s) => (none, s)
      | (some _, s) => (some fragments.1, s)

/-- `special`: NAS-Filter-Rule, Digest-Attributes, EAP-Message, PKM-SS-Cert, PKM-CA-Cert,
EAPOL-Announcement, and the extended attributes. -/
def special (num : UInt8) : Bool :=
  num ∈ [attrNasFilterRuleNum, attrDigestAttributesNum, attrEapMessage, 137, 138, 188, 241, 242,
    243, 244, 245, 246]

def frRadiusDecodePair (data : List UInt8) (s : Lists Da V) : Decoded Da V :=
  let num := byte data 0
  let len := (byte data 1).toNat
  if data.length < 2 ∨ len < 2 ∨ data.length < len then (none, s)
  else
    let da := (dict.childByNum dict.root num.toNat).getD (dict.unknownRaw dict.root num.toNat)
    if len = 2 then
      -- only this one may be empty
      if num ≠ attrChargeableUserIdentityNum then (some 2, s)
      else (some 2, s.append (.leaf da (.octets [])))
    else if special num ∧ num = attrNasFilterRuleNum then decodeNasFilterRule da data s
    else if special num ∧ num = attrDigestAttributesNum then
      decodeDigestAttributes dict params ctx da data s
    else if special num ∧ (dict.flags da).concat then decodeConcat da data s
    else if special num ∧ (dict.flags da).isExtended then decodeExtended dict params ctx da data s
    else
      match frRadiusDecodePairValue dict params ctx da (data.drop 2) (len - 2) s with
      | (none, s) => (none, s)
      | (some ret, s) => (some (2 + ret), s)

/-- The loop of `fr_radius_decode`, which stops if a function returns more than there is. -/
def decodeLoop : ℕ → List UInt8 → Lists Da V → Bool × Lists Da V
  | 0, data, s => (data.isEmpty, s)
  | rounds + 1, data, s =>
    if data = [] then (true, s)
    else
      match frRadiusDecodePair dict params ctx data s with
      | (none, s) => (false, s)
      | (some slen, s) =>
        if data.length < slen then (false, s) else decodeLoop rounds (data.drop slen) s

end Runs

end FreeRadius.Radius
