import Mathlib.Tactic

/-!
# Base64 and base32

`fr_base64_encode_nstd`, `fr_base64_decode_nstd` and their base32 counterparts have one shape: whole
quanta, a final quantum and the padding. They differ in how the bits are grouped and in the tables
of the alphabets, which are given here as the source has them.
-/

namespace FreeRadius.Base

section Quanta

/-- How the bits of bytes are grouped into characters. -/
structure Radix where
  /-- the bytes of a quantum -/
  bytes : ℕ
  /-- the characters of a quantum -/
  chars : ℕ
  /-- the values of characters are below this -/
  limit : UInt8
  /-- the values of the characters for the bytes of a quantum -/
  split : List UInt8 → List UInt8
  /-- the bytes for the values of the characters of a quantum -/
  join : List UInt8 → List UInt8
  /-- the characters and the padding that are written for the bytes of a final quantum -/
  lastOut : ℕ → ℕ × ℕ
  /-- the bytes and the padding of a final quantum, by its characters -/
  lastIn : ℕ → Option (ℕ × ℕ)

def base64 : Radix where
  bytes := 3
  chars := 4
  limit := 64
  split := fun l =>
    let a := l.getD 0 0
    let b := l.getD 1 0
    let c := l.getD 2 0
    [a >>> 2 &&& 0x3f, (a <<< 4 ||| b >>> 4) &&& 0x3f, (b <<< 2 ||| c >>> 6) &&& 0x3f, c &&& 0x3f]
  join := fun p =>
    let p0 := p.getD 0 0
    let p1 := p.getD 1 0
    let p2 := p.getD 2 0
    let p3 := p.getD 3 0
    [p0 <<< 2 ||| p1 >>> 4, p1 <<< 4 &&& (0xf0 : UInt8) ||| p2 >>> 2,
      p2 <<< 6 &&& (0xc0 : UInt8) ||| p3]
  lastOut := fun n => if n = 1 then (2, 2) else (3, 1)
  lastIn := fun n =>
    if n = 0 then some (0, 0) else if n = 2 then some (1, 2) else if n = 3 then some (2, 1) else none

def base32 : Radix where
  bytes := 5
  chars := 8
  limit := 32
  split := fun l =>
    let a := l.getD 0 0
    let b := l.getD 1 0
    let c := l.getD 2 0
    let d := l.getD 3 0
    let e := l.getD 4 0
    [a >>> 3 &&& 0x1f, (a <<< 2 ||| b >>> 6) &&& 0x1f, b >>> 1 &&& 0x1f,
      (b <<< 4 ||| c >>> 4) &&& 0x1f, (c <<< 1 ||| d >>> 7) &&& 0x1f, d >>> 2 &&& 0x1f,
      (d <<< 3 ||| e >>> 5) &&& 0x1f, e &&& 0x1f]
  join := fun p =>
    let p0 := p.getD 0 0
    let p1 := p.getD 1 0
    let p2 := p.getD 2 0
    let p3 := p.getD 3 0
    let p4 := p.getD 4 0
    let p5 := p.getD 5 0
    let p6 := p.getD 6 0
    let p7 := p.getD 7 0
    [p0 <<< 3 ||| p1 >>> 2, p1 <<< 6 ||| p2 <<< 1 ||| p3 >>> 4, p3 <<< 4 ||| p4 >>> 1,
      p4 <<< 7 ||| p5 <<< 2 ||| p6 >>> 3, p6 <<< 5 ||| p7]
  lastOut := fun n =>
    if n = 1 then (2, 6) else if n = 2 then (4, 4) else if n = 3 then (5, 3) else (7, 1)
  lastIn := fun n =>
    if n = 0 then some (0, 0)
    else if n = 2 then some (1, 6)
    else if n = 4 then some (2, 4)
    else if n = 5 then some (3, 3)
    else if n = 7 then some (4, 1)
    else none

end Quanta

section Tables

/-- Initialisers of elements in a row. -/
inductive Init where
  /-- the macros `F1` to `F128` with the value `UINT8_MAX` -/
  | fill (idx n : ℕ)
  /-- characters in a row, whose values are in a row too -/
  | run (idx n : ℕ) (val : UInt8)
  deriving DecidableEq, Repr

/-- The value of an element after an initialiser. -/
def Init.apply (c : ℕ) (val : UInt8) : Init → UInt8
  | .fill idx n => if idx ≤ c ∧ c < idx + n then 0xff else val
  | .run idx n first => if idx ≤ c ∧ c < idx + n then first + UInt8.ofNat (c - idx) else val

/-- An array of 255 elements with these initialisers: the last one of an element counts, and what
has none is zero. Element 255 is the byte behind the array. -/
def tableOf (inits : List Init) (behind : UInt8) (c : UInt8) : UInt8 :=
  if c = 255 then behind else inits.foldl (Init.apply c.toNat) 0

/-- The characters of an alphabet in the order of their values, as in the table for encoding. -/
structure Alphabet where
  chars : List UInt8
  decode : List Init

def Alphabet.encode (a : Alphabet) (val : UInt8) : UInt8 := a.chars.getD val.toNat 0

def charRange (c : UInt8) (n : ℕ) : List UInt8 := (List.range n).map fun i => c + UInt8.ofNat i

/-- `fr_base64_alphabet_encode` and `fr_base64_alphabet_decode` -/
def frBase64Alphabet : Alphabet where
  chars := charRange 0x41 26 ++ charRange 0x61 26 ++ charRange 0x30 10 ++ [0x2b, 0x2f]
  decode :=
    [.fill 0 32, .fill 32 8, .fill 40 2, .run 0x2b 1 62, .fill 44 2, .fill 46 1, .run 0x2f 1 63,
      .run 0x30 10 52, .fill 58 4, .fill 62 2, .fill 64 1, .run 0x41 26 0, .fill 91 4, .fill 95 2,
      .run 0x61 26 26, .fill 123 128, .fill 251 4]

/-- `fr_base64_url_alphabet_encode` and `fr_base64_url_alphabet_decode` -/
def frBase64UrlAlphabet : Alphabet where
  chars := charRange 0x41 26 ++ charRange 0x61 26 ++ charRange 0x30 10 ++ [0x2d, 0x5f]
  decode :=
    [.fill 0 32, .fill 32 8, .fill 40 4, .run 0x2d 1 62, .fill 46 2, .run 0x30 10 52, .fill 58 4,
      .fill 62 2, .fill 64 1, .run 0x41 26 0, .fill 91 4, .run 0x5f 1 63, .fill 96 1,
      .run 0x61 26 26, .fill 123 128, .fill 251 4]

/-- `fr_base32_alphabet_encode` and `fr_base32_alphabet_decode` -/
def frBase32Alphabet : Alphabet where
  chars := charRange 0x41 26 ++ charRange 0x32 6
  decode :=
    [.fill 0 32, .fill 32 16, .fill 48 2, .run 0x32 6 26, .fill 56 8, .fill 64 1, .run 0x41 26 0,
      .fill 91 128, .fill 219 32, .fill 251 4]

/-- `fr_base32_hex_alphabet_encode` and `fr_base32_hex_alphabet_decode` -/
def frBase32HexAlphabet : Alphabet where
  chars := charRange 0x30 10 ++ charRange 0x41 22
  decode :=
    [.fill 0 32, .fill 32 16, .run 0x30 10 0, .fill 58 4, .fill 62 2, .fill 64 1,
      .run 0x41 22 10, .fill 87 128, .fill 215 32, .fill 247 8]

end Tables

section Encode

variable (r : Radix) (encode : UInt8 → UInt8) (room : ℕ)

/-- `FR_SBUFF_IN_CHAR_RETURN`: all of the characters are written, or none -/
def sbuffIn (out chars : List UInt8) : Option (List UInt8) :=
  if (out ++ chars).length ≤ room then some (out ++ chars) else none

def encodeLoop (addPadding : Bool) : ℕ → List UInt8 → List UInt8 → Option (List UInt8)
  | 0, _, out => some out
  | rounds + 1, input, out =>
    if r.bytes ≤ input.length then
      (sbuffIn room out ((r.split (input.take r.bytes)).map encode)).bind fun out =>
      encodeLoop addPadding rounds (input.drop r.bytes) out
    else if input = [] then some out
    else
      (sbuffIn room out (((r.split input).take (r.lastOut input.length).1).map encode)).bind
        fun out =>
      if addPadding then sbuffIn room out (List.replicate (r.lastOut input.length).2 0x3d)
      else some out

def encodeNstd (input : List UInt8) (addPadding : Bool) : Option (List UInt8) :=
  encodeLoop r encode room addPadding (input.length + 1) input []

def frBase64EncodeNstd (a : Alphabet) (room : ℕ) (input : List UInt8) (addPadding : Bool) :
    Option (List UInt8) :=
  encodeNstd base64 a.encode room input addPadding

def frBase32EncodeNstd (a : Alphabet) (room : ℕ) (input : List UInt8) (addPadding : Bool) :
    Option (List UInt8) :=
  encodeNstd base32 a.encode room input addPadding

end Encode

section Decode

/-- What is wrong with a text, which the parse error and the error buffer report. -/
inductive DecodeError where
  /-- "Output buffer too small, needed at least %zu bytes" -/
  | outOfSpace (needed : ℕ)
  /-- "Invalid base64 padding data", and "Invalid base32 final quantum length (%zu)" -/
  | finalQuantum (len : ℕ)
  /-- "Missing padding '=' at end of base64 string.  Expected %u padding char(s)" -/
  | missingPadding (pad : ℕ)
  /-- "Found non-padding char '%c' at end of base64 string" -/
  | nonPadding (c : UInt8)
  /-- "Found trailing garbage '%c' at end of base64 string" -/
  | trailing (c : UInt8)
  deriving DecidableEq, Repr

/-- A place in the text, and what is decoded up to it. -/
structure Position where
  text : List UInt8
  offset : ℕ
  out : List UInt8
  deriving DecidableEq, Repr

variable (r : Radix) (decode : UInt8 → UInt8) (room : ℕ)

/-- `fr_is_base64_nstd` and `fr_is_base32_nstd` -/
def isBase (c : UInt8) : Bool := decode c < r.limit

/-- The loop over the complete quanta. An error has the offset where it is. -/
def decodeQuanta : ℕ → Position → Except (DecodeError × ℕ) Position
  | 0, p => .ok p
  | rounds + 1, p =>
    if r.chars ≤ p.text.length ∧ (p.text.take r.chars).all (isBase r decode) then
      if p.out.length + r.bytes ≤ room then
        decodeQuanta rounds
          { text := p.text.drop r.chars
            offset := p.offset + r.chars
            out := p.out ++ r.join ((p.text.take r.chars).map decode) }
      else .error (.outOfSpace (p.out.length + 1), p.offset)
    else .ok p

/-- The loop over the padding, `left` of `pad` characters -/
def skipPadding (pad : ℕ) : ℕ → Position → Except (DecodeError × ℕ) Position
  | 0, p => .ok p
  | left + 1, p =>
    match p.text with
    | [] => .error (.missingPadding pad, p.offset)
    | c :: text =>
      if c = 0x3d then skipPadding pad left { p with text := text, offset := p.offset + 1 }
      else .error (.nonPadding c, p.offset)

def decodeFinal (expectPadding noTrailing : Bool) (p : Position) :
    Except (DecodeError × ℕ) Position :=
  let final := p.text.takeWhile (isBase r decode)
  let offset := p.offset + final.length
  match r.lastIn final.length with
  | none => .error (.finalQuantum final.length, offset)
  | some (n, pad) =>
    if p.out.length + n ≤ room then
      let p :=
        { text := p.text.dropWhile (isBase r decode)
          offset := offset
          out := p.out ++ (r.join (final.map decode)).take n }
      (if expectPadding then skipPadding pad pad p else .ok p).bind fun p =>
      match p.text with
      | [] => .ok p
      | c :: _ => if noTrailing then .error (.trailing c, p.offset) else .ok p
    else .error (.outOfSpace (p.out.length + 1), offset)

def decodeNstd (text : List UInt8) (expectPadding noTrailing : Bool) :
    Except (DecodeError × ℕ) Position :=
  (decodeQuanta r decode room text.length { text := text, offset := 0, out := [] }).bind
    (decodeFinal r decode room expectPadding noTrailing)

def frBase64DecodeNstd (a : Alphabet) (behind : UInt8) (room : ℕ) (text : List UInt8)
    (expectPadding noTrailing : Bool) : Except (DecodeError × ℕ) Position :=
  decodeNstd base64 (tableOf a.decode behind) room text expectPadding noTrailing

def frBase32DecodeNstd (a : Alphabet) (behind : UInt8) (room : ℕ) (text : List UInt8)
    (expectPadding noTrailing : Bool) : Except (DecodeError × ℕ) Position :=
  decodeNstd base32 (tableOf a.decode behind) room text expectPadding noTrailing

end Decode

end FreeRadius.Base
