import FreeRadius.Inet.Model

/-!
# DHCPv4 options

`fr_dhcpv4_encode_option` of `encode.c` and `fr_dhcpv4_decode_option` of `decode.c`, for options
whose values are octets, strings and prefixes, for TLVs and for vendor options. The encoder works
in the memory from the place of the option on, and returns what it has written with what is behind.
-/

namespace FreeRadius.Dhcpv4

open Library Inet

section Pairs

/-- A sub-option of type octets: one that the dictionary does not know is raw, and has a da of its
own. -/
structure Sub where
  number : UInt8
  value : List UInt8
  raw : Bool
  deriving DecidableEq, Repr

/-- A child of a vendor option. -/
inductive VsaChild where
  | vendor (pen : UInt32) (subs : List Sub)
  | raw (pen : UInt32) (data : List UInt8)
  deriving DecidableEq, Repr

/-- `fr_dhcpv4_flag_prefix_split` and `fr_dhcpv4_flag_prefix_bits` -/
inductive PrefixFormat where
  | split
  | bits
  deriving DecidableEq, Repr

/-- The type of an option, with the children that the dictionary knows. -/
inductive DaType where
  | octets
  | string
  | ipv4Prefix (format : PrefixFormat)
  | ipv6Prefix
  | tlv (known : UInt8 → Bool)
  | vsa (knownVendor : UInt32 → Bool) (known : UInt32 → UInt8 → Bool)

inductive Value where
  | bytes (value : List UInt8)
  | ip (value : FrIpaddr)
  deriving DecidableEq, Repr

inductive Pair where
  | value (number : UInt8) (value : Value)
  | tlv (number : UInt8) (subs : List Sub)
  | vsa (number : UInt8) (children : List VsaChild)
  | raw (number : UInt8) (data : List UInt8)
  | child (child : VsaChild)
  deriving DecidableEq, Repr

end Pairs

section Encode

/-- What has been written, and the memory behind it. -/
abbrev Written := List UInt8 × List UInt8

/-- The mask of a split prefix. The shift by 32 is undefined in C, and has the value `undef`. -/
def splitMask (undef : UInt32) (prefixLen : ℕ) : ℕ :=
  2 ^ 32 - 1 - if prefixLen < 32 then (2 ^ 32 - 1) >>> prefixLen else undef.toNat

def encodeValue (undef : UInt32) : DaType → Value → List UInt8
  | _, .bytes value => value
  | .ipv4Prefix .split, .ip ip => ip.addr ++ nboBytes 4 (splitMask undef ip.prefixLen.toNat)
  | .ipv4Prefix .bits, .ip ip => ip.prefixLen :: ip.addr.take ((ip.prefixLen.toNat + 0x07) >>> 3)
  | _, .ip ip => ip.prefixLen :: ip.addr

variable (mem : List UInt8)

/-- `fr_dbuff_move` of `len` bytes by `n` bytes, in a memory that has room for them -/
def frDbuffMove (n len : ℕ) : List UInt8 :=
  mem.take n ++ mem.take len ++ mem.drop (len + n)

/-- The loop of `extend_option`, in the memory from the header on -/
def extendLoop (type : UInt8) : ℕ → List UInt8 → ℕ → Option Written
  | 0, _, _ => none
  | rounds + 1, mem, len =>
    if mem.length < 2 then none
    else
      let sublen := if len > 255 then 255 else len
      let mem := type :: UInt8.ofNat sublen :: mem.drop 2
      if len - sublen = 0 then some (mem.take (sublen + 2), mem.drop (sublen + 2))
      else
        -- the data overlaps with the next header, and is moved to make room for it
        (extendLoop type rounds (frDbuffMove (mem.drop (2 + 255)) 2 (len - sublen))
          (len - sublen)).map fun next => (mem.take (2 + 255) ++ next.1, next.2)

def extendOption (len : ℕ) : Option Written :=
  match mem with
  | type :: optionLen :: _ => extendLoop type (len + optionLen.toNat) mem (len + optionLen.toNat)
  | _ => none

def writeLen (number : UInt8) (data behind : List UInt8) : Option Written :=
  if data.length ≤ 255 then some (number :: UInt8.ofNat data.length :: data, behind)
  else extendOption (number :: 0x00 :: data ++ behind) data.length

def encodeRfc (number : UInt8) (value : List UInt8) : Option Written :=
  if mem.length < 2 + value.length then none
  else writeLen number value (mem.drop (2 + value.length))

/-- `encode_rfc` loops over the pairs that have the same da, and writes them as one. -/
def joinRuns : List Sub → List Sub
  | [] => []
  | sub :: subs =>
    match joinRuns subs with
    | [] => [sub]
    | next :: rest =>
      if !sub.raw && !next.raw && sub.number == next.number then
        { sub with value := sub.value ++ next.value } :: rest
      else sub :: next :: rest

def encodeChildren : List UInt8 → List Sub → Option Written
  | mem, [] => some ([], mem)
  | mem, sub :: subs =>
    (encodeRfc mem sub.number sub.value).bind fun first =>
    (encodeChildren first.2 subs).map fun rest => (first.1 ++ rest.1, rest.2)

def encodeTlv (number : UInt8) (subs : List Sub) : Option Written :=
  if mem.length < 2 then none
  else if mem.length < 5 then some ([number, 0x00], mem.drop 2)
  else (encodeChildren (mem.drop 2) (joinRuns subs)).bind fun children =>
    writeLen number children.1 children.2

/-- `encode_vsio_data` for the sub-options whose das have one parent: it has at most 248 bytes and
does not join them -/
def encodeVsioData (pen : UInt32) (subs : List Sub) : Option Written :=
  let room := min mem.length (255 - 4 - 1 - 2)
  if room < 4 + 3 then none
  else (encodeChildren ((mem.take room).drop (4 + 1)) subs).map fun data =>
    (nboBytes 4 pen.toNat ++ UInt8.ofNat data.1.length :: data.1, data.2 ++ mem.drop room)

/-- The sub-options of a vendor, by the parents of their das: those of an unknown vendor have their
own copies of it. -/
def vsioBlocks (knownVendor : UInt32 → Bool) (vendor : UInt32 × List Sub) :
    List (UInt32 × List Sub) :=
  if vendor.2 = [] then []
  else if knownVendor vendor.1 then [vendor] else vendor.2.map fun sub => (vendor.1, [sub])

/-- The inner loop of `encode_vsio` -/
def encodeBlocks : List UInt8 → List (UInt32 × List Sub) → Option Written
  | mem, [] => some ([], mem)
  | mem, block :: blocks =>
    (encodeVsioData mem block.1 block.2).bind fun first =>
    (encodeBlocks first.2 blocks).map fun rest => (first.1 ++ rest.1, rest.2)

/-- The outer loop of `encode_vsio`, which is still running when there is no result -/
def encodeVendors (knownVendor : UInt32 → Bool) :
    ℕ → List UInt8 → List VsaChild → Option (Option Written)
  | 0, _, _ => none
  | _ + 1, mem, [] => some (some ([], mem))
  -- `continue` does not advance the cursor
  | rounds + 1, mem, .raw pen data :: children =>
    encodeVendors knownVendor rounds mem (.raw pen data :: children)
  | rounds + 1, mem, .vendor pen subs :: children =>
    match encodeBlocks mem (vsioBlocks knownVendor (pen, subs)) with
    | none => some none
    | some first => (encodeVendors knownVendor rounds first.2 children).map
        (·.map fun rest => (first.1 ++ rest.1, rest.2))

def encodeVsio (knownVendor : UInt32 → Bool) (rounds : ℕ) (mem : List UInt8) (number : UInt8)
    (children : List VsaChild) : Option (Option Written) :=
  if mem.length < 2 then some none
  else (encodeVendors knownVendor rounds (mem.drop 2) children).map
    (·.map fun data => (number :: UInt8.ofNat data.1.length :: data.1, data.2))

def frDhcpv4EncodeOption (undef : UInt32) (dict : UInt8 → Option DaType) (rounds : ℕ)
    (mem : List UInt8) : Pair → Option (Option Written)
  | .value number value =>
    some ((dict number).bind fun type => encodeRfc mem number (encodeValue undef type value))
  | .tlv number subs => some (encodeTlv mem number subs)
  | .vsa number children =>
    match dict number with
    | some (.vsa knownVendor _) => encodeVsio knownVendor rounds mem number children
    | _ => some none
  | .raw number data => some (encodeRfc mem number data)
  | .child _ => some none

end Encode

section Decode

/-- `while (mask) { prefix++; mask <<= 1; }` -/
def maskBits : ℕ → ℕ → ℕ
  | 0, _ => 0
  | rounds + 1, mask => if mask = 0 then 0 else maskBits rounds (mask * 2 % 2 ^ 32) + 1

def maskedAddr (ipaddr prefixLen : ℕ) : List UInt8 :=
  nboBytes 4 (ipaddr &&& (2 ^ 32 - 1) <<< (32 - prefixLen) % 2 ^ 32)

/-- `decode_value` of data that is not empty, for a prefix: none if it is raw -/
def decodePrefix : DaType → UInt8 → List UInt8 → Option FrIpaddr
  | .ipv6Prefix, first, rest =>
    if rest.length < 16 then none
    else if rest.length + 1 > 16 then none
    else some { af := .inet6, addr := rest.take 16, prefixLen := first }
  | .ipv4Prefix .split, first, rest =>
    if rest.length + 1 < 8 then none
    else
      let ipaddr := nboValue (first :: rest.take 3)
      let mask := nboValue ((rest.drop 3).take 4)
      if mask = 0 then some { af := .inet, addr := [0, 0, 0, 0], prefixLen := 0 }
      else
        let prefixLen := maskBits 32 mask
        some { af := .inet, addr := maskedAddr ipaddr prefixLen, prefixLen := UInt8.ofNat prefixLen }
  | .ipv4Prefix .bits, first, rest =>
    if first > 32 then none
    else if rest.length + 1 < 1 + ((first.toNat + 0x07) >>> 3) then none
    else if first = 0 then some { af := .inet, addr := [0, 0, 0, 0], prefixLen := 0 }
    else
      let bytes := if first > 24 then 4 else if first > 16 then 3 else if first > 8 then 2 else 1
      let ipaddr := nboValue (rest.take bytes) <<< (8 * (4 - bytes))
      some { af := .inet, addr := maskedAddr ipaddr first.toNat, prefixLen := first }
  | _, _, _ => none

/-- `decode_value` of a non-array attribute -/
def decodeValue (number : UInt8) (type : DaType) (data : List UInt8) : Pair :=
  match type, data with
  | .octets, _ | .string, _ => .value number (.bytes data)
  | _, [] => .raw number []
  | _, first :: rest => ((decodePrefix type first rest).map (.value number ∘ .ip)).getD (.raw number data)

/-- The loop of `fr_pair_tlvs_from_network` over `decode_option`, for children of type octets. What
`verify_tlvs` refuses before it is refused here. -/
def decodeSubs (known : UInt8 → Bool) : ℕ → List UInt8 → Option (List Sub)
  | _, [] => some []
  | rounds + 1, number :: len :: rest =>
    if len.toNat > rest.length then none
    else (decodeSubs known rounds (rest.drop len.toNat)).map
      ({ number, value := rest.take len.toNat, raw := !known number } :: ·)
  | _, _ => none

/-- `fr_pair_tlvs_from_network` -/
def decodeTlvs (known : UInt8 → Bool) (data : List UInt8) : Option (List Sub) :=
  decodeSubs known data.length data

/-- `fr_pair_find_by_da` compares the das: a vendor that the dictionary does not know is never found. -/
def appendSubs (knownVendor : UInt32 → Bool) (pen : UInt32) (subs : List Sub) :
    List VsaChild → List VsaChild
  | [] => [.vendor pen subs]
  | .vendor pen' subs' :: out =>
    if knownVendor pen && pen' == pen then .vendor pen (subs' ++ subs) :: out
    else .vendor pen' subs' :: appendSubs knownVendor pen subs out
  | .raw pen' data :: out => .raw pen' data :: appendSubs knownVendor pen subs out

def decodeVsa (knownVendor : UInt32 → Bool) (known : UInt32 → UInt8 → Bool) :
    ℕ → List VsaChild → List UInt8 → Option (List VsaChild)
  | 0, _, _ => none
  | rounds + 1, out, data =>
    if data.length < 4 + 1 + 1 then none
    else
      let pen := UInt32.ofNat (nboValue (data.take 4))
      let optionLen := ((data.drop 4).headD 0).toNat
      let p := data.drop (4 + 1)
      if optionLen > p.length then some (out ++ [.raw pen (data.drop 4)])
      else if optionLen = 0 then decodeVsa knownVendor known rounds out p
      else (decodeTlvs (known pen) (p.take optionLen)).bind fun subs =>
        let out := appendSubs knownVendor pen subs out
        if p.drop optionLen = [] then some out
        else decodeVsa knownVendor known rounds out (p.drop optionLen)

variable (dict : UInt8 → Option DaType)

/-- `decode_option` at the root, where what fails is raw -/
def decodeOption (number : UInt8) (data : List UInt8) : List Pair :=
  match dict number with
  | none => [.raw number data]
  | some (.vsa knownVendor known) =>
    match decodeVsa knownVendor known (data.length + 1) [] data with
    | none => [.raw number data]
    | some children => [.vsa number children]
  | some (.tlv known) =>
    match decodeTlvs known data with
    | none => [.raw number data]
    | some subs => [.tlv number subs]
  | some type => [decodeValue number type data]

/-- The data of consecutive options, which is decoded without the calls that make it raw. The
vendors of a vendor option have no parent. -/
def decodeConcat (number : UInt8) (data : List UInt8) : Option (List Pair) :=
  match dict number with
  | none => some [.raw number data]
  | some (.vsa knownVendor known) =>
    (decodeVsa knownVendor known (data.length + 1) [] data).map (·.map .child)
  | some (.tlv known) => (decodeTlvs known data).map fun subs => [.tlv number subs]
  | some type => some [decodeValue number type data]

/-- The size of `concat_buffer` -/
def concatSize : ℕ := 1500

/-- The loop that copies the data of consecutive options, with the data behind them. -/
def concatOptions (number : UInt8) : ℕ → List UInt8 → List UInt8 → Option (List UInt8 × List UInt8)
  | _, buffer, [] => some (buffer, [])
  | rounds + 1, buffer, next :: len :: rest =>
    if next ≠ number then some (buffer, next :: len :: rest)
    else if len.toNat > rest.length then none
    else if buffer.length + len.toNat > concatSize then none
    else concatOptions number rounds (buffer ++ rest.take len.toNat) (rest.drop len.toNat)
  | _, _, _ => none

/-- `fr_dhcpv4_decode_option`: the number of bytes it returns, and the pairs -/
def frDhcpv4DecodeOption (data : List UInt8) : Option (ℕ × List Pair) :=
  match data with
  | [] => some (0, [])
  | number :: rest =>
    -- padding and the end of the options
    if number = 0 then some ((rest.takeWhile (· = 0)).length + 1, [])
    else if number = 255 then some (data.length, [])
    else match rest with
      | [] => none
      | len :: rest =>
        if len.toNat > rest.length then none
        else if len > 0 ∧ (rest.drop len.toNat).head? = some number then
          (concatOptions number data.length [] data).bind fun concat =>
          if concat.1 = [] then some (0, [])
          else (decodeConcat dict number concat.1).map (data.length - concat.2.length, ·)
        else some (len.toNat + 2, decodeOption dict number (rest.take len.toNat))

end Decode

end FreeRadius.Dhcpv4
