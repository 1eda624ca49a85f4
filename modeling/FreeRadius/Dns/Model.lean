import Mathlib.Algebra.Group.Nat.Defs
import FreeRadius.Library.Splice

/-!
# DNS labels

`dns.c`: a name in the network format and back, and the compression of a name with
pointers into the buffer. A pointer into a buffer is an offset from the beginning of
it, and a function that writes to the buffer returns it. There is no label tracking
structure, so that the buffer is the packet.
-/

namespace FreeRadius.Dns

open Library

def byte (buf : List UInt8) (i : ℕ) : UInt8 := buf.getD i 0

section Characters

def dot : UInt8 := 0x2e

def underscoreChar : UInt8 := 0x5f

/-- `[A-Za-z]` -/
def isLetter (c : UInt8) : Bool :=
  (0x61 ≤ c && c ≤ 0x7a) || (0x41 ≤ c && c ≤ 0x5a)

/-- `[-0-9A-Za-z]` -/
def isLabelChar (c : UInt8) : Bool :=
  c == 0x2d || (0x30 ≤ c && c ≤ 0x39) || isLetter c

/-- Compare two labels in a case-insensitive fashion. -/
def labelcmp : List UInt8 → List UInt8 → Bool
  | a :: as, b :: bs =>
    if a = b then labelcmp as bs
    else if !isLetter a then false
    else if !isLetter b then false
    else if a ^^^ b ≠ 0x20 then false
    else labelcmp as bs
  | _, _ => true

end Characters

section Compress

/-- The offset in a compressed pointer. -/
def pointerOffset (a b : UInt8) : ℕ := (a &&& 0x3f).toNat * 256 + b.toNat

/-- `label[0] = (offset >> 8) | 0xc0; label[1] = offset & 0xff` -/
def pointerBytes (offset : ℕ) : List UInt8 :=
  [UInt8.ofNat (offset / 256) ||| 0xc0, UInt8.ofNat (offset % 256)]

/-- What to do with a label of the right length, after a look at what follows it. -/
inductive Follow where
  /-- It may be the one. -/
  | check
  /-- Go on with what follows. -/
  | skip
  /-- Go on behind the compressed pointer that follows. -/
  | skipPointer
  deriving DecidableEq, Repr

/-- The last label of a name can only be found in front of an end of label byte. -/
def followTerminal (buf : List UInt8) (ptr : ℕ) : Follow :=
  if byte buf ptr ≠ 0 then .skip else .check

/-- Any other label can be found in front of the same pointer as in front of `next`,
or of what that pointer refers to. -/
def followSuffix (buf : List UInt8) (next suffix ptr : ℕ) : Follow :=
  if byte buf ptr < 63 then
    if ptr ≠ suffix then .skip else .check
  else if byte buf ptr ≠ byte buf next ∨ byte buf (ptr + 1) ≠ byte buf (next + 1) then .skipPointer
  else .check

/-- The two loops of `dns_label_compress`, which look from `q` to `stop` for a label
like the one at `label`. The result is the label that was found, and where the next
search starts. Every round goes ahead, so there are no more rounds than bytes. -/
def scan (buf : List UInt8) (stop label : ℕ) (follow : ℕ → Follow) : ℕ → ℕ → ℕ → Option (ℕ × ℕ)
  | 0, _, _ => none
  | rounds + 1, q, search =>
    if stop ≤ q then none
    else if byte buf q = 0 then scan buf stop label follow rounds (q + 1) (q + 1)
    else if 63 < byte buf q then scan buf stop label follow rounds (q + 2) (q + 2)
    else
      let ptr := q + (byte buf q).toNat + 1
      if stop < ptr then none
      else if byte buf q ≠ byte buf label then scan buf stop label follow rounds ptr search
      else
        match follow ptr with
        | .skip => scan buf stop label follow rounds ptr search
        | .skipPointer => scan buf stop label follow rounds (ptr + 2) (ptr + 2)
        | .check =>
          -- the pointer is too far away
          if 2 ^ 14 < q then none
          else
            let n := (byte buf label).toNat
            if !labelcmp (slice buf (q + 1) n) (slice buf (label + 1) n) then
              scan buf stop label follow rounds ptr search
            else some (q, search)

/-- What `dns_label_compress` leaves when it returns true. -/
structure Compressed where
  buf : List UInt8
  /-- `*label_end` -/
  labelEnd : ℕ
  /-- `*new_search` -/
  search : ℕ

/-- The label is replaced by a pointer to the one that was found. -/
def replaceLabel (buf : List UInt8) (label : ℕ) (found : ℕ × ℕ) : Compressed where
  buf := splice buf label (pointerBytes found.1)
  labelEnd := label + 2
  search := found.2

/-- The end of `dns_label_compress`, for a label whose suffix at `next` may have been
replaced by a pointer. `compressed` is what is returned when the label is not found. -/
def compressInFront (stop : ℕ) (buf : List UInt8) (search label next : ℕ)
    (compressed : Option Compressed) : Option Compressed :=
  if byte buf next < 0xc0 then compressed
  else
    let suffix := pointerOffset (byte buf next) (byte buf (next + 1))
    match scan buf stop label (followSuffix buf next suffix) stop search search with
    | none => compressed
    | some found => some (replaceLabel buf label found)

/-- `dns_label_compress`. The labels of a name are not more than the bytes of the
buffer, which `depth` is. -/
def dnsLabelCompress (start stop : ℕ) :
    ℕ → List UInt8 → Option ℕ → ℕ → Option Compressed
  | 0, _, _, _ => none
  | depth + 1, buf, newSearch, label =>
    if byte buf label = 0 ∨ 63 < byte buf label then none
    else
      let next := label + (byte buf label).toNat + 1
      let search := newSearch.getD start
      if byte buf next = 0 then
        (scan buf stop label (followTerminal buf) stop search search).map (replaceLabel buf label)
      else if byte buf next < 63 then
        match dnsLabelCompress start stop depth buf (some search) next with
        | none => none
        | some inner =>
          -- `*new_search` stays as it was when this label is not found
          compressInFront stop inner.buf inner.search label next
            (some { inner with search := search })
      else compressInFront stop buf search label next none

end Compress

section Encode

inductive EncodeError where
  /-- "Invalid input" -/
  | invalidInput
  /-- "Label to write is outside of buffer" -/
  | outsideOfBuffer
  /-- "Empty labels are invalid" -/
  | emptyLabel
  /-- "Double dots '..' are forbidden" -/
  | doubleDots
  /-- "Invalid character 0x%02x in label" -/
  | invalidCharacter (c : UInt8)
  /-- "Label is larger than 63 characters" -/
  | labelTooLong
  deriving DecidableEq, Repr

/-- The sanity check of a name. `distance` is how far the current character is from
`last`, which is the beginning of the name or the last dot. The result is how many
characters are encoded: a dot at the end is not. -/
def checkName : List UInt8 → Bool → ℕ → Except EncodeError ℕ
  | [], _, _ => .ok 0
  | c :: rest, underscore, distance =>
    let next (underscore : Bool) (distance : ℕ) : Except EncodeError ℕ :=
      if 63 < distance + 1 then .error .labelTooLong
      else (checkName rest underscore (distance + 1)).map (· + 1)
    if underscore && c == underscoreChar then next false distance
    else if c = dot then
      if rest = [] then .ok 0
      else if rest.head? = some dot then .error .doubleDots
      else next true 0
    else if !isLabelChar c then .error (.invalidCharacter c)
    else next false distance

/-- The loop that writes the characters. A dot starts a new label at `data`. -/
def writeLabels : List UInt8 → List UInt8 → ℕ → ℕ → List UInt8 × ℕ
  | [], buf, _, data => (buf, data)
  | c :: q, buf, label, data =>
    if c = dot then writeLabels q (buf.set data 0) data (data + 1)
    else
      let buf := buf.set data c
      writeLabels q (buf.set label (byte buf label + 1)) label (data + 1)

inductive Encoded where
  /-- Nothing was written, because the buffer should have this many bytes. -/
  | need (n : ℕ)
  /-- That many bytes were written. -/
  | written (buf : List UInt8) (n : ℕ)
  deriving DecidableEq, Repr

/-- `fr_dns_label_from_value_box`, which writes the string `value` to `pos`. -/
def frDnsLabelFromValueBox (buf : List UInt8) (pos : ℕ) (compression : Bool)
    (value : List UInt8) : Except EncodeError Encoded :=
  if buf = [] then .error .invalidInput
  else if buf.length ≤ pos then .error .outsideOfBuffer
  else if value = [] ∨ value = [dot] then .ok (.written (buf.set pos 0) 1)
  else if value.head? = some dot then .error .emptyLabel
  else do
    let strend ← checkName value true 0
    if buf.length < pos + strend + 2 then return .need (pos + strend + 2)
    let (buf, data) := writeLabels (value.take strend) (buf.set pos 0) pos (pos + 1)
    let buf := buf.set data 0
    let data := data + 1
    if compression && 2 < data - pos && pos ≠ 0 then
      match dnsLabelCompress 0 pos buf.length buf none pos with
      | none => return .written buf (data - pos)
      | some c => return .written c.buf (c.labelEnd - pos)
    else return .written buf (data - pos)

end Encode

section Decode

/-- The first character from `q` on that a label can not have. -/
def invalidCharacter : List UInt8 → ℕ → Option ℕ
  | [], _ => none
  | c :: rest, q => if isLabelChar c then invalidCharacter rest (q + 1) else some q

/-- The contents of a label, with an underscore at the beginning allowed. -/
def verifyLabel (label : List UInt8) (q : ℕ) : Option ℕ :=
  match label with
  | c :: rest => if c = underscoreChar then invalidCharacter rest (q + 1)
    else invalidCharacter (c :: rest) q
  | [] => none

/-- The loop of `fr_dns_label_uncompressed_length`. `next` is what was already set.
The result is the length and the offset behind the label; an error is what is
returned instead. -/
def uncompressedLengthLoop (buf : List UInt8) (start : ℕ) :
    ℕ → ℕ → ℕ → ℕ → Bool → Option ℕ → Except ℤ (ℕ × ℕ)
  | 0, p, _, _, _, _ => .error (-p)
  | rounds + 1, p, current, length, atFirstLabel, next =>
    if buf.length ≤ p then .ok (length, next.getD p)
    else if byte buf p = 0 then
      .ok (if atFirstLabel then length + 1 else length,
        if current = start then p + 1 else next.getD (p + 1))
    else if buf.length ≤ p + 1 then .error (-p)
    else if 63 < byte buf p ∧ byte buf p < 0xc0 then .error (-p)
    else if 63 < byte buf p then
      let q := pointerOffset (byte buf p) (byte buf (p + 1))
      -- forward references, loops within a label, pointers to pointers and to the
      -- end of a label
      if p ≤ q ∨ current ≤ q ∨ 63 < byte buf q ∨ byte buf q = 0 then .error (-p)
      else uncompressedLengthLoop buf start rounds q q length atFirstLabel
        (if current = start then some (p + 2) else next)
    else
      let n := (byte buf p).toNat
      if buf.length < p + n + 1 then .error (-p)
      else
        let length := (if atFirstLabel then length else length + 1) + n
        if 255 < length then .error (-p)
        else
          match verifyLabel (slice buf (p + 1) n) (p + 1) with
          | some q => .error (-q)
          | none => uncompressedLengthLoop buf start rounds (p + n + 1) current length false next

/-- Of two rounds one adds to the length, and the length is not over 255. -/
def uncompressedRounds : ℕ := 2 * 256 + 2

def frDnsLabelUncompressedLength (buf : List UInt8) (start : ℕ) : Except ℤ (ℕ × ℕ) :=
  if buf.length ≤ start then .error 0
  else uncompressedLengthLoop buf start uncompressedRounds start start 0 true none

/-- `dns_label_decode`: the value returned, `*start` and `*next`. -/
def dnsLabelDecode (buf : List UInt8) (start : ℕ) (next : Option ℕ) : ℤ × ℕ × Option ℕ :=
  if buf = [] then (-1, start, next)
  else if byte buf start = 0 then (0, start, some (start + 1))
  else
    let label (p : ℕ) : ℤ × ℕ × Option ℕ :=
      if 63 < byte buf p then (-p, start, next)
      else if buf.length < p + (byte buf p).toNat + 1 then (-p, start, next)
      else ((byte buf p).toNat, p, some (p + (byte buf p).toNat + 1))
    if 0xc0 ≤ byte buf start then
      let q := pointerOffset (byte buf start) (byte buf (start + 1))
      if buf.length < 2 then (-start, start, next)
      else if start ≤ q then (-start, start, next)
      else label q
    else label start

/-- The loop of `fr_dns_label_to_value_box`, which copies labels to a string of `size`
bytes. Every round but the last one adds to the string. -/
def toValueBoxLoop (buf : List UInt8) (after size : ℕ) :
    ℕ → Option ℕ → Option ℕ → List UInt8 → Except ℤ (List UInt8)
  | 0, _, _, _ => .error (-1)
  | rounds + 1, current, next, out =>
    let finish : Except ℤ (List UInt8) := if out.length ≠ size then .error (-1) else .ok out
    match current with
    | none => finish
    | some c =>
      if c < after ∧ byte buf c ≠ 0 then
        let (slen, c, next) := dnsLabelDecode buf c next
        if slen < 0 then .error slen
        else if size < out.length + slen.toNat then .error (-1)
        else
          let out := if out = [] then out else out ++ [dot]
          toValueBoxLoop buf after size rounds next next (out ++ slice buf (c + 1) slen.toNat)
      else finish

/-- `fr_dns_label_to_value_box`: the string and the number of bytes consumed. -/
def frDnsLabelToValueBox (buf : List UInt8) (label : ℕ) : Except ℤ (List UInt8 × ℕ) :=
  if buf = [] then .error (-1)
  else if buf.length ≤ label then .error (-1)
  else do
    let (slen, after) ← frDnsLabelUncompressedLength buf label
    if slen = 1 then return ([dot], after - label)
    let value ← toValueBoxLoop buf after slen (slen + 1) (some label) none []
    return (value, after - label)

end Decode

end FreeRadius.Dns
