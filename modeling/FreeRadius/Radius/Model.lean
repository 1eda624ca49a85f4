import FreeRadius.Library.Word
import FreeRadius.Library.Splice

/-!
# Signing and verifying RADIUS packets

`fr_radius_sign`, `fr_radius_ok` and `fr_radius_verify` of `base.c`. A packet is
the buffer that it is in, and a function that writes to it returns it. HMAC-MD5
and MD5 are functions to digests of 16 bytes.
-/

namespace FreeRadius.Radius

open Library

def radiusHeaderLength : ℕ := 20

def radiusAuthVectorLength : ℕ := 16

/-- A digest, or the authentication vector of a packet. -/
abbrev Digest := { d : List UInt8 // d.length = radiusAuthVectorLength }

def Digest.zero : Digest := ⟨List.replicate radiusAuthVectorLength 0, rfl⟩

section Codes

def codeAccessRequest : UInt8 := 1
def codeStatusServer : UInt8 := 12
def codeProtocolError : UInt8 := 52

/-- `FR_RADIUS_CODE_MAX` -/
def codeMax : UInt8 := 53

def attrProxyState : UInt8 := 33
def attrEapMessage : UInt8 := 79
def attrMessageAuthenticator : UInt8 := 80

/-- What the authenticator is while a packet is signed. -/
inductive Rule where
  /-- zeros, in a request -/
  | zeros
  /-- the one of the request, in a response -/
  | original
  /-- the random numbers that are there -/
  | random
  /-- The code is not known. -/
  | unknown
  deriving DecidableEq, Repr

/-- The `switch` before the Message-Authenticator is calculated. -/
def messageAuthenticatorRule (code : UInt8) : Rule :=
  -- Accounting-Request, Disconnect-Request, CoA-Request
  if code ∈ [4, 40, 43] then .zeros
  -- Access-Accept, Access-Reject, Access-Challenge, Accounting-Response, Disconnect-ACK,
  -- Disconnect-NAK, CoA-ACK, CoA-NAK
  else if code ∈ [2, 3, 11, 5, 41, 42, 44, 45] then .original
  else if code ∈ [codeAccessRequest, codeStatusServer] then .random
  else .unknown

/-- The `switch` before the authenticator is calculated, which also knows
Protocol-Error. -/
def authenticatorRule (code : UInt8) : Rule :=
  if code ∈ [4, 40, 43] then .zeros
  else if code ∈ [2, 3, 11, 5, 41, 42, 44, 45, codeProtocolError] then .original
  else if code ∈ [codeAccessRequest, codeStatusServer] then .random
  else .unknown

end Codes

section Packet

variable (packet : List UInt8)

def byte (i : ℕ) : UInt8 := packet.getD i 0

/-- `fr_nbo_to_uint16(packet + 2)` -/
def lengthField : ℕ := nboValue (slice packet 2 2)

/-- `memcpy(packet + 4, vector, RADIUS_AUTH_VECTOR_LENGTH)` -/
def setAuthenticator (vector : Digest) : List UInt8 := splice packet 4 vector.val

def authenticator : List UInt8 := slice packet 4 radiusAuthVectorLength

end Packet

section Scan

inductive ScanError where
  /-- "Invalid attribute at offset %zd" -/
  | invalidAttribute (offset : ℕ)
  /-- "Message-Authenticator is too small" -/
  | tooSmall
  deriving DecidableEq, Repr

/-- The loop that `fr_radius_sign` and `fr_radius_verify` have: look for a
Message-Authenticator from `msg` to `stop`, and note if there is a Proxy-State in
front of it. Every attribute has at least two bytes, so there are no more rounds
than bytes. -/
def findMessageAuthenticator (packet : List UInt8) (stop : ℕ) :
    ℕ → ℕ → Bool → Except ScanError (Option ℕ × Bool)
  | 0, _, proxyState => .ok (none, proxyState)
  | rounds + 1, msg, proxyState =>
    if stop ≤ msg then .ok (none, proxyState)
    else if stop - msg < 2 then .error (.invalidAttribute msg)
    else
      let type := byte packet msg
      let length := (byte packet (msg + 1)).toNat
      if type ≠ attrMessageAuthenticator then
        if length < 2 then .error (.invalidAttribute msg)
        else if stop < msg + length then .error (.invalidAttribute msg)
        else findMessageAuthenticator packet stop rounds (msg + length)
          (proxyState || type = attrProxyState)
      else if length < 18 then .error .tooSmall
      else .ok (some msg, proxyState)

end Scan

section Sign

inductive SignError where
  /-- "Secret is too long.  Expected <= %u, got %zu" -/
  | secretTooLong
  /-- "Packet must be encoded before calling fr_radius_sign()" -/
  | notEncoded
  | scan (e : ScanError)
  /-- "Cannot sign response packet without a request packet" -/
  | needOriginal
  /-- "Cannot sign unknown packet code %u" -/
  | badPacket (code : UInt8)
  deriving DecidableEq, Repr

/-- The cases of both `switch` statements. -/
def applyRule (rule : Rule) (packet : List UInt8) (vector : Option Digest) :
    Except SignError (List UInt8) :=
  match rule, vector with
  | .zeros, _ => .ok (setAuthenticator packet Digest.zero)
  | .original, some vector => .ok (setAuthenticator packet vector)
  | .original, none => .error .needOriginal
  | .random, _ => .ok packet
  | .unknown, _ => .error (.badPacket (byte packet 0))

variable (hmacMd5 md5 : List UInt8 → List UInt8 → Digest)

/-- The second half of `fr_radius_sign`: the authenticator. The arguments of `md5` are
the packet and the secret, which it digests one after the other. -/
def signAuthenticator (packet : List UInt8) (packetLen : ℕ) (vector : Option Digest)
    (secret : List UInt8) : List UInt8 × Except SignError Unit :=
  let rule := authenticatorRule (byte packet 0)
  match applyRule rule packet vector with
  | .error e => (packet, .error e)
  | .ok packet =>
    if rule = .random then (packet, .ok ())
    else (setAuthenticator packet (md5 (packet.take packetLen) secret), .ok ())

/-- `fr_radius_sign`. The packet may have been written to if there is an error. -/
def frRadiusSign (packet : List UInt8) (vector : Option Digest) (secret : List UInt8) :
    List UInt8 × Except SignError Unit :=
  let packetLen := lengthField packet
  if 65535 < secret.length then (packet, .error .secretTooLong)
  else if packetLen < radiusHeaderLength then (packet, .error .notEncoded)
  else
    match findMessageAuthenticator packet packetLen packetLen radiusHeaderLength false with
    | .error e => (packet, .error (.scan e))
    | .ok (none, _) => signAuthenticator md5 packet packetLen vector secret
    | .ok (some msg, _) =>
      match applyRule (messageAuthenticatorRule (byte packet 0)) packet vector with
      | .error e => (packet, .error e)
      | .ok packet =>
        let packet := splice packet (msg + 2) Digest.zero.val
        let packet := splice packet (msg + 2) (hmacMd5 (packet.take packetLen) secret).val
        signAuthenticator md5 packet packetLen vector secret

end Sign

section Ok

/-- `fr_radius_decode_fail_t` -/
inductive DecodeFail where
  | minLengthPacket
  | minLengthField
  | minLengthMismatch
  | headerOverflow
  | unknownPacketCode
  | invalidAttribute
  | attributeTooShort
  | attributeOverflow
  | maInvalidLength
  | attributeUnderflow
  | tooManyAttributes
  | maMissing
  | maInvalid
  | verify
  deriving DecidableEq, Repr

/-- What the loop of `fr_radius_ok` collects. -/
structure Seen where
  requireMessageAuthenticator : Bool
  seenMa : Bool
  numAttributes : ℕ
  deriving DecidableEq, Repr

/-- The loop of `fr_radius_ok` over the attributes, with the end of the last one. -/
def checkAttributes (packet : List UInt8) (stop : ℕ) : ℕ → ℕ → Seen → Except DecodeFail (ℕ × Seen)
  | 0, attr, seen => .ok (attr, seen)
  | rounds + 1, attr, seen =>
    if stop ≤ attr then .ok (attr, seen)
    else if stop - attr < 2 then .error .headerOverflow
    else
      let type := byte packet attr
      let length := (byte packet (attr + 1)).toNat
      if type = 0 then .error .invalidAttribute
      else if length < 2 then .error .attributeTooShort
      else if stop < attr + length then .error .attributeOverflow
      else if type = attrMessageAuthenticator ∧ length ≠ 2 + radiusAuthVectorLength then
        .error .maInvalidLength
      else checkAttributes packet stop rounds (attr + length)
        { requireMessageAuthenticator := seen.requireMessageAuthenticator || type = attrEapMessage
          seenMa := seen.seenMa || type = attrMessageAuthenticator
          numAttributes := seen.numAttributes + 1 }

/-- Whether a packet with this code has to have a Message-Authenticator. -/
def requireFor (code : UInt8) (requireMessageAuthenticator : Bool) : Bool :=
  if code = codeStatusServer then true
  else if code ∈ [codeAccessRequest, 2, 11, 3] then requireMessageAuthenticator
  else false

/-- `fr_radius_ok` of a buffer, which returns the length of the packet in it. -/
def frRadiusOk (packet : List UInt8) (maxAttributes : ℕ) (requireMessageAuthenticator : Bool) :
    Except DecodeFail ℕ :=
  if packet.length < radiusHeaderLength then .error .minLengthPacket
  else
    let totallen := lengthField packet
    let code := byte packet 0
    if code = 0 ∨ codeMax ≤ code then .error .unknownPacketCode
    else if totallen < radiusHeaderLength then .error .minLengthField
    else if packet.length < totallen then .error .minLengthMismatch
    else
      match checkAttributes packet totallen totallen radiusHeaderLength
        ⟨requireFor code requireMessageAuthenticator, false, 0⟩ with
      | .error e => .error e
      | .ok (attr, seen) =>
        if attr ≠ totallen then .error .attributeUnderflow
        else if 0 < maxAttributes ∧ maxAttributes < seen.numAttributes then
          .error .tooManyAttributes
        else if seen.requireMessageAuthenticator ∧ ¬seen.seenMa then .error .maMissing
        else .ok totallen

end Ok

section Verify

variable (hmacMd5 md5 : List UInt8 → List UInt8 → Digest)

/-- The end of `fr_radius_verify`: compare the packet, as it is signed now, with the
saved fields, and write them back. -/
def compareSigned (packet : List UInt8) (msg : Option ℕ)
    (messageAuthenticator requestAuthenticator : List UInt8) :
    List UInt8 × Except DecodeFail Unit :=
  let compareAuthenticator :=
    if byte packet 0 = codeAccessRequest ∨ byte packet 0 = codeStatusServer then (packet, .ok ())
    else if authenticator packet ≠ requestAuthenticator then
      (splice packet 4 requestAuthenticator, .error .verify)
    else (packet, .ok ())
  match msg with
  | none => compareAuthenticator
  | some msg =>
    if slice packet (msg + 2) radiusAuthVectorLength ≠ messageAuthenticator then
      (splice (splice packet (msg + 2) messageAuthenticator) 4 requestAuthenticator,
        .error .maInvalid)
    else compareAuthenticator

def frRadiusVerify (packet : List UInt8) (vector : Option Digest) (secret : List UInt8)
    (requireMessageAuthenticator limitProxyState : Bool) : List UInt8 × Except DecodeFail Unit :=
  let packetLen := lengthField packet
  let code := byte packet 0
  if packetLen < radiusHeaderLength then (packet, .error .minLengthPacket)
  else if code = 0 ∨ codeMax ≤ code then (packet, .error .unknownPacketCode)
  else
    match findMessageAuthenticator packet packetLen packetLen radiusHeaderLength false with
    | .error (.invalidAttribute _) => (packet, .error .invalidAttribute)
    | .error .tooSmall => (packet, .error .maInvalidLength)
    | .ok (msg, proxyState) =>
      if code = codeAccessRequest ∧ limitProxyState ∧ proxyState ∧ msg.isNone then
        (packet, .error .maMissing)
      else if code = codeAccessRequest ∧ requireMessageAuthenticator ∧ msg.isNone then
        (packet, .error .maMissing)
      else
        let messageAuthenticator :=
          msg.elim [] fun msg => slice packet (msg + 2) radiusAuthVectorLength
        let requestAuthenticator := authenticator packet
        match frRadiusSign hmacMd5 md5 packet vector secret with
        | (packet, .error _) => (packet, .error .verify)
        | (packet, .ok ()) => compareSigned packet msg messageAuthenticator requestAuthenticator

end Verify

end FreeRadius.Radius
