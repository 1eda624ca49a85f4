import FreeRadius.Library.Splice
import FreeRadius.Library.Word
import FreeRadius.Time.Arithmetic

/-!
# BFD sessions

`fr_bfd_packet_ok` of `protocols/bfd/base.c` and the session of `listen/bfd/session.c`. A packet is
the bytes that `bfd_packet_t` lies over; its 32-bit fields are read as the host does, without a
conversion. The time, a random number and the answer of `sendfromto` are inputs of a step.
-/

namespace FreeRadius.Bfd

open Library

section Types

/-- `bfd_session_state_t` -/
inductive State where
  | adminDown | down | init | up
  deriving DecidableEq, Repr

/-- `bfd_diag_t` -/
inductive Diag where
  | none | ctrlExpired | echoFailed | neighborDown | forwardPlaneReset | pathDown
  | concatenatedPathDown | adminDown | reverseConcatPathDown
  deriving DecidableEq, Repr

/-- `bfd_auth_type_t` -/
inductive AuthType where
  | reserved | simple | keyedMd5 | metKeyedMd5 | keyedSha1 | metKeyedSha1
  deriving DecidableEq, Repr

/-- `bfd_state_change_t` -/
inductive StateChange where
  | invalid | none | adminDown | peerDown | init | up | timeoutDown
  deriving DecidableEq, Repr

def State.toByte : State → UInt8
  | .adminDown => 0
  | .down => 1
  | .init => 2
  | .up => 3

def Diag.toByte : Diag → UInt8
  | .none => 0
  | .ctrlExpired => 1
  | .echoFailed => 2
  | .neighborDown => 3
  | .forwardPlaneReset => 4
  | .pathDown => 5
  | .concatenatedPathDown => 6
  | .adminDown => 7
  | .reverseConcatPathDown => 8

def AuthType.toByte : AuthType → UInt8
  | .reserved => 0
  | .simple => 1
  | .keyedMd5 => 2
  | .metKeyedMd5 => 3
  | .keyedSha1 => 4
  | .metKeyedSha1 => 5

def authTypeOf (b : UInt8) : Option AuthType :=
  if b = 0 then some .reserved
  else if b = 1 then some .simple
  else if b = 2 then some .keyedMd5
  else if b = 3 then some .metKeyedMd5
  else if b = 4 then some .keyedSha1
  else if b = 5 then some .metKeyedSha1
  else none

/-- What a digest function answers. -/
def Digest (n : ℕ) : Type := { bytes : List UInt8 // bytes.length = n }

inductive ByteOrder where
  | bigEndian | littleEndian
  deriving DecidableEq, Repr

/-- What the machine and the libraries do. -/
structure Host where
  order : ByteOrder
  md5 : List UInt8 → Digest 16
  sha1 : List UInt8 → Digest 20

end Types

section Packets

/-- The bytes behind a `bfd_packet_t *`. -/
abbrev Packet := List UInt8

def headerLength : ℕ := 24

namespace Packet

variable (bfd : Packet)

def byte (i : ℕ) : UInt8 := bfd.getD i 0

variable (order : ByteOrder)

def word (off : ℕ) : UInt32 :=
  let bytes := slice bfd off 4
  match order with
  | .bigEndian => UInt32.ofNat (nboValue bytes)
  | .littleEndian => UInt32.ofNat (nboValue bytes.reverse)

def version : UInt8 := byte bfd 0 >>> 5

def state : State :=
  if byte bfd 1 >>> 6 = 0 then .adminDown
  else if byte bfd 1 >>> 6 = 1 then .down
  else if byte bfd 1 >>> 6 = 2 then .init
  else .up

def poll : Bool := byte bfd 1 &&& 0x20 != 0

def final : Bool := byte bfd 1 &&& 0x10 != 0

def authPresent : Bool := byte bfd 1 &&& 0x04 != 0

def demand : Bool := byte bfd 1 &&& 0x02 != 0

def multipoint : Bool := byte bfd 1 &&& 0x01 != 0

def detectMulti : UInt8 := byte bfd 2

def len : ℕ := (byte bfd 3).toNat

def myDisc : UInt32 := word bfd order 4

def yourDisc : UInt32 := word bfd order 8

def desiredMinTxInterval : UInt32 := word bfd order 12

def requiredMinRxInterval : UInt32 := word bfd order 16

def authType : UInt8 := byte bfd 24

def authLen : ℕ := (byte bfd 25).toNat

def keyId : UInt8 := byte bfd 26

/-- The field `password` of `bfd_auth_simple_t`, as far as a password of this length goes -/
def password (n : ℕ) : List UInt8 := slice bfd 27 n

/-- The field `sequence_no` of `bfd_auth_md5_t` and `bfd_auth_sha1_t` -/
def sequenceNo : UInt32 := word bfd order 28

/-- The field `digest` of `bfd_auth_md5_t` and `bfd_auth_sha1_t` -/
def digest (n : ℕ) : List UInt8 := slice bfd 32 n

end Packet

/-- The texts of `fr_bfd_packet_ok`. -/
inductive PacketError where
  /-- "Packet is too short to be BFD" -/
  | tooShort
  /-- "Packet has wrong version - should be 1" -/
  | wrongVersion
  /-- "Header length is too small" -/
  | lengthTooSmall
  /-- "Header length is not the same as the amount of data we read" -/
  | lengthNotData
  /-- "Header length is not enough for auth-type and auth-len" -/
  | lengthNotEnough
  /-- "Header length mismatch with auth-len and amount of received data" -/
  | lengthMismatch
  /-- "Auth-Type Simple has invalid value for password length" -/
  | simpleLength
  /-- "Auth-Type MD5 has invalid value for digest length" -/
  | md5Length
  /-- "Auth-Type SHA1 has invalid value for digest length" -/
  | sha1Length
  /-- "Invalid Auth-Type" -/
  | invalidAuthType
  /-- "Packet has invalid detect-multi == 0" -/
  | detectMultiZero
  /-- "Packet has invalid multipoint != 0" -/
  | multipointSet
  /-- "Packet has invalid my-discriminator == 0" -/
  | myDiscZero
  /-- "Packet has your-discrimator==0, but state is not down or admin-down" -/
  | yourDiscZero
  deriving DecidableEq, Repr

/-- The checks of the authentication section in `fr_bfd_packet_ok` -/
def authSectionOk (bfd : Packet) : Except PacketError Unit :=
  if bfd.len < headerLength + 2 then .error .lengthNotEnough
  else if bfd.len ≠ headerLength + bfd.authLen then .error .lengthMismatch
  else match authTypeOf bfd.authType with
    | some .simple =>
      if bfd.authLen < 3 + 1 ∨ bfd.authLen > 3 + 16 then .error .simpleLength else .ok ()
    | some .keyedMd5 | some .metKeyedMd5 =>
      if bfd.authLen ≠ 24 then .error .md5Length else .ok ()
    | some .keyedSha1 | some .metKeyedSha1 =>
      if bfd.authLen ≠ 28 then .error .sha1Length else .ok ()
    | some .reserved | none => .error .invalidAuthType

def frBfdPacketOk (order : ByteOrder) (bfd : Packet) : Except PacketError Unit :=
  if bfd.length < headerLength then .error .tooShort
  else if bfd.version ≠ 1 then .error .wrongVersion
  else if bfd.len < headerLength then .error .lengthTooSmall
  else if bfd.len > bfd.length then .error .lengthNotData
  else (if bfd.authPresent then authSectionOk bfd else .ok ()).bind fun _ =>
    if bfd.detectMulti = 0 then .error .detectMultiZero
    else if bfd.multipoint then .error .multipointSet
    else if bfd.myDisc order = 0 then .error .myDiscZero
    else if bfd.yourDisc order = 0 ∧ ¬(bfd.state = .down ∨ bfd.state = .adminDown) then
      .error .yourDiscZero
    else .ok ()

end Packets

section Sessions

/-- `fr_time_t` and `fr_time_delta_t`, in nanoseconds -/
abbrev Time := ℤ

/-- The parts of `bfd_session_t` that the functions below use. A timer is the time it is armed for. -/
structure Session where
  sessionState : State
  remoteSessionState : State
  localDisc : UInt32
  remoteDisc : UInt32
  localDiag : Diag
  detectMulti : UInt32
  desiredMinTxInterval : Time
  requiredMinRxInterval : Time
  remoteMinRxInterval : Time
  myMinEchoRxInterval : Time
  nextMinTxInterval : Time
  demandMode : Bool
  remoteDemandMode : Bool
  doingPoll : Bool
  authSeqKnown : Bool
  authType : AuthType
  recvAuthSeq : UInt32
  xmitAuthSeq : UInt32
  secret : List UInt8
  detectionTime : Time
  detectionTimeouts : ℤ
  passive : Bool
  lastRecv : Time
  timeoutEv : Option Time
  packetEv : Option Time
  deriving DecidableEq

/-- What comes from outside in one step. -/
structure Env where
  host : Host
  now : Time
  rand : UInt32
  sendOk : Bool

end Sessions

section Authentication

variable (host : Host) (s : Session) (bfd : Packet)

/-- The packet with the secret in the place of a digest of `n` bytes. -/
def withSecret (n : ℕ) : Packet := splice (splice bfd 32 (List.replicate n 0)) 32 s.secret

/-- `bfd_calc_md5`: the digest that it writes -/
def bfdCalcMd5 : Digest 16 := host.md5 ((withSecret s bfd 16).take bfd.len)

/-- `bfd_calc_sha1`: the digest that it writes -/
def bfdCalcSha1 : Digest 20 := host.sha1 ((withSecret s bfd 20).take bfd.len)

def bfdVerifySequence (sequenceNo : UInt32) (keyed : Bool) : Bool :=
  let start := if keyed then s.recvAuthSeq + 1 else s.recvAuthSeq
  let stop := start + 3 * s.detectMulti
  if start < stop then
    if sequenceNo < start ∨ sequenceNo > stop then false else true
  else
    if sequenceNo > start ∧ sequenceNo < stop then false else true

/-- `bfd_verify_simple`. The verifiers answer the session with what they change, or nothing. -/
def bfdVerifySimple : Option Session :=
  if bfd.authLen ≠ 3 + s.secret.length then none
  else if bfd.keyId ≠ 0 then none
  else if bfd.password s.secret.length = s.secret then some s else none

/-- The end of `bfd_verify_md5` and `bfd_verify_sha1`, after the digest is found to be right. -/
def verifiedDigest (keyed : Bool) : Option Session :=
  if s.authSeqKnown ∧ bfdVerifySequence s (bfd.sequenceNo host.order) keyed = false then none
  else some { s with authSeqKnown := true, recvAuthSeq := bfd.sequenceNo host.order }

def bfdVerifyMd5 : Option Session :=
  if bfd.authLen ≠ 24 then none
  else if bfd.keyId ≠ 0 then none
  else if bfd.digest 16 ≠ (bfdCalcMd5 host s bfd).val then none
  else verifiedDigest host s bfd (authTypeOf bfd.authType = some .metKeyedMd5)

def bfdVerifySha1 : Option Session :=
  if bfd.authLen ≠ 28 then none
  else if bfd.keyId ≠ 0 then none
  else if bfd.digest 20 ≠ (bfdCalcSha1 host s bfd).val then none
  else verifiedDigest host s bfd (authTypeOf bfd.authType = some .metKeyedSha1)

def bfdAuthenticate : Option Session :=
  match authTypeOf bfd.authType with
  | some .reserved => none
  | some .simple => bfdVerifySimple s bfd
  | some .keyedMd5 | some .metKeyedMd5 => bfdVerifyMd5 host s bfd
  | some .keyedSha1 | some .metKeyedSha1 => bfdVerifySha1 host s bfd
  | none => none

end Authentication

section Times

def toUnsigned (t : ℤ) : ℕ := (t % 2 ^ 64).toNat

def toSigned (n : ℕ) : ℤ := if n < 2 ^ 63 then n else n - 2 ^ 64

/-- A product of 64-bit arithmetic, which stops at the ends of the range. -/
def saturate (t : ℤ) : ℤ := max (-2 ^ 63) (min t (2 ^ 63 - 1))

def frTimeDeltaFromUsec (usec : ℤ) : Time := saturate (usec * 1000)

def frTimeDeltaFromSec (sec : ℤ) : Time := saturate (sec * 1000000000)

def frTimeDeltaToUsec (delta : Time) : ℤ := delta.tdiv 1000

def frTimeAdd (a b : Time) : Time :=
  Time.TimeType.time.wrap (Time.frTimeOpIspos (0 ≤ a) true (0 ≤ b)) (a + b)

end Times

section Timers

variable (env : Env) (s : Session)

def bfdStopControl : Session := { s with timeoutEv := none, packetEv := none }

def bfdSessionAdminDown : Session := { bfdStopControl s with sessionState := .adminDown }

def bfdSetTimeout (when_ : Time) : Session :=
  let delay := u64 (toUnsigned s.detectionTime * s.detectMulti.toNat)
  let delay := u64 (delay + toUnsigned (s.detectionTime.tdiv 2))
  let delta := frTimeDeltaFromUsec (toSigned delay)
  { s with timeoutEv := some (frTimeAdd when_ delta) }

/-- The time of the next packet in `bfd_start_packets`, with the jitter -/
def jittered (interval : ℕ) : ℕ :=
  let base := u64 (interval * 3) / 4
  let jitter := if s.detectMulti = 1 then env.rand.toNat * 644245094 else env.rand.toNat * 2 ^ 30
  let jitter := jitter / 2 ^ 32
  let jitter := u64 (jitter * interval) / 2 ^ 32
  u64 (base + jitter)

def bfdStartPackets : Session :=
  let s := { s with packetEv := none }
  if s.desiredMinTxInterval ≥ s.remoteMinRxInterval then
    let interval := jittered env s (toUnsigned s.desiredMinTxInterval)
    { s with packetEv := some (frTimeAdd env.now (toSigned interval)) }
  else if toUnsigned s.remoteMinRxInterval = 0 then s
  else
    let interval := jittered env s (toUnsigned s.remoteMinRxInterval)
    { s with packetEv := some (frTimeAdd env.now (toSigned interval)) }

def bfdStartControl : Session :=
  if s.remoteMinRxInterval = 0 then s
  else if s.remoteDisc = 0 ∧ s.passive then s
  else if s.remoteDemandMode ∧ s.sessionState = .up ∧ s.remoteSessionState = .up ∧ ¬s.doingPoll then
    bfdSessionAdminDown s
  else bfdStartPackets env (bfdSetTimeout s s.lastRecv)

def bfdStopPoll : Session :=
  if ¬s.doingPoll then s
  else
    let s := { s with doingPoll := false }
    let s :=
      if s.nextMinTxInterval > 0 then
        { s with desiredMinTxInterval := s.nextMinTxInterval, nextMinTxInterval := 0 }
      else s
    if ¬s.remoteDemandMode then bfdStartControl env (bfdStopControl s) else bfdStopControl s

def bfdStartPoll : Session :=
  if s.doingPoll then s
  else
    let s := if ¬s.remoteDemandMode then bfdStopControl s else s
    bfdStartPackets env { s with doingPoll := true }

def bfdSetDesiredMinTxInterval (value : Time) : Session :=
  if s.doingPoll ∧ s.sessionState = .up ∧ value > s.desiredMinTxInterval then
    { s with nextMinTxInterval := value }
  else
    let value :=
      if s.sessionState ≠ .up ∧ value < frTimeDeltaFromSec 1 then frTimeDeltaFromSec 1 else value
    let s := { s with desiredMinTxInterval := value }
    if s.doingPoll then s else bfdStartPoll env (bfdStopControl s)

def bfdDetectionTimeout : Session :=
  let expired := if s.demandMode then ¬s.doingPoll else s.sessionState = .init ∨ s.sessionState = .up
  let s :=
    if expired then
      bfdSetDesiredMinTxInterval env { s with sessionState := .down, localDiag := .ctrlExpired }
        (frTimeDeltaFromSec 1)
    else s
  let s := { s with remoteDisc := 0 }
  let s := if s.detectionTimeouts ≥ 2 then { s with authSeqKnown := false } else s
  bfdSetTimeout { s with detectionTimeouts := s.detectionTimeouts + 1 } env.now

end Timers

section Sending

variable (env : Env) (s : Session)

def wordBytes (order : ByteOrder) (n : ℕ) : List UInt8 :=
  match order with
  | .bigEndian => nboBytes 4 n
  | .littleEndian => (nboBytes 4 n).reverse

/-- `bfd_control_packet_init`, with the poll and final bits that the caller sets afterwards -/
def bfdControlPacketInit (poll final : Bool) : Session × Packet :=
  let demand := s.demandMode && s.sessionState == .up && s.remoteSessionState == .up
  let flags : UInt8 := s.sessionState.toByte <<< 6 ||| (if poll then 0x20 else 0) |||
    (if final then 0x10 else 0) ||| (if s.authType = .reserved then 0 else 0x04) |||
    (if demand then 0x02 else 0)
  let word (n : ℤ) := wordBytes env.host.order (toUnsigned n)
  (if demand then bfdStopControl s else s,
    [(1 : UInt8) <<< 5 ||| s.localDiag.toByte, flags, s.detectMulti.toUInt8, 24] ++
      word s.localDisc.toNat ++ word s.remoteDisc.toNat ++
      word (frTimeDeltaToUsec s.desiredMinTxInterval) ++
      word (frTimeDeltaToUsec s.requiredMinRxInterval) ++
      word (frTimeDeltaToUsec s.myMinEchoRxInterval) ++ List.replicate 28 0)

def bfdAuthSimple (bfd : Packet) : Session × Packet :=
  let authLen := UInt8.ofNat (3 + s.secret.length)
  let bfd := splice bfd 3 [24 + authLen]
  (s, splice bfd 24 ([s.authType.toByte, authLen, 0] ++ s.secret))

def bfdAuthMd5 (bfd : Packet) : Session × Packet :=
  let bfd := splice (splice bfd 3 [24 + 24]) 24
    ([s.authType.toByte, 24, 0, 0] ++ wordBytes env.host.order s.xmitAuthSeq.toNat)
  let s := { s with xmitAuthSeq := s.xmitAuthSeq + 1 }
  (s, splice bfd 32 (bfdCalcMd5 env.host s bfd).val)

def bfdAuthSha1 (bfd : Packet) : Session × Packet :=
  let bfd := splice (splice bfd 3 [24 + 28]) 24
    ([s.authType.toByte, 28, 0, 0] ++ wordBytes env.host.order s.xmitAuthSeq.toNat)
  let s := { s with xmitAuthSeq := s.xmitAuthSeq + 1 }
  (s, splice bfd 32 (bfdCalcSha1 env.host s bfd).val)

def bfdSign (bfd : Packet) : Session × Packet :=
  if bfd.authPresent then
    match s.authType with
    | .reserved => (s, bfd)
    | .simple => bfdAuthSimple s bfd
    | .keyedMd5 | .metKeyedMd5 => bfdAuthMd5 env s bfd
    | .keyedSha1 | .metKeyedSha1 => bfdAuthSha1 env s bfd
  else (s, bfd)

/-- `bfd_poll_response`: the session, and the packet that is sent -/
def bfdPollResponse : Session × Packet :=
  let (s, bfd) := bfdControlPacketInit env s false true
  let (s, bfd) := bfdSign env s bfd
  (if env.sendOk then s else bfdSessionAdminDown s, bfd.take bfd.len)

def bfdSendPacket : Session × Packet :=
  let (s, bfd) := bfdControlPacketInit env s s.doingPoll false
  let s := if bfd.demand then s else bfdStartPackets env s
  let (s, bfd) := bfdSign env s bfd
  (if env.sendOk then s else bfdSessionAdminDown s, bfd.take bfd.len)

end Sending

section Processing

variable (env : Env)

/-- What a packet changes in the session before the state machine looks at it. -/
def updateRemote (s : Session) (bfd : Packet) : Session :=
  let order := env.host.order
  let s := { s with
    remoteDisc := bfd.myDisc order
    remoteSessionState := bfd.state
    remoteDemandMode := bfd.demand }
  let minRx := (bfd.requiredMinRxInterval order).toNat
  let s :=
    if minRx > 32 ∧ minRx < 1000000 then { s with remoteMinRxInterval := frTimeDeltaFromUsec minRx }
    else s
  let s := if s.doingPoll ∧ bfd.final then bfdStopPoll env s else s
  let desired := frTimeDeltaFromUsec (bfd.desiredMinTxInterval order).toNat
  { s with detectionTime :=
      if ¬s.demandMode then max s.requiredMinRxInterval desired
      else max s.desiredMinTxInterval s.remoteMinRxInterval }

def transition (s : Session) (remote : State) : StateChange × Session :=
  if remote = .adminDown then (.peerDown, { s with localDiag := .neighborDown, sessionState := .down })
  else match s.sessionState, remote with
    | .down, .down => (.init, { s with sessionState := .init })
    | .down, .init => (.up, { s with sessionState := .up })
    | .down, _ => (.none, s)
    | .init, .init => (.up, { s with sessionState := .up })
    | .init, .up => (.up, { s with sessionState := .up })
    | .init, _ => (.none, s)
    | .up, .down => (.peerDown, { s with localDiag := .neighborDown, sessionState := .down })
    | .up, _ => (.none, s)
    | .adminDown, _ => (.invalid, s)

/-- The end of `bfd_session_process`, after a change of the state -/
def finishProcess (s : Session) (bfd : Packet) (change : StateChange) : Session × List Packet :=
  let s :=
    if change ≠ .invalid ∧ s.sessionState ≠ .up then
      bfdSetDesiredMinTxInterval env s (frTimeDeltaFromSec 1)
    else s
  let s := if s.remoteDemandMode ∧ s.sessionState = .up ∧ s.remoteSessionState = .up then
    bfdStopControl s else s
  let s := if ¬s.remoteDemandMode ∨ s.sessionState ≠ .up ∨ s.remoteSessionState ≠ .up then
    bfdStartControl env s else s
  let (s, sent) :=
    if bfd.poll then ((bfdPollResponse env s).1, [(bfdPollResponse env s).2]) else (s, [])
  let s := { s with lastRecv := env.now }
  let minRx := frTimeDeltaFromUsec (bfd.requiredMinRxInterval env.host.order).toNat
  (if minRx < s.remoteMinRxInterval ∧ ¬s.demandMode then bfdStartControl env (bfdStopControl s)
    else s, sent)

/-- `bfd_session_process`: the change, the session and the packets that are sent -/
def bfdSessionProcess (s : Session) (bfd : Packet) : StateChange × Session × List Packet :=
  if bfd.yourDisc env.host.order ≠ 0 ∧ bfd.yourDisc env.host.order ≠ s.localDisc then
    (.invalid, s, [])
  else if bfd.authPresent ∧ s.authType = .reserved then (.invalid, s, [])
  else if ¬bfd.authPresent ∧ s.authType ≠ .reserved then (.invalid, s, [])
  else match if bfd.authPresent then bfdAuthenticate env.host s bfd else some s with
    | none => (.invalid, s, [])
    | some s =>
      let s := updateRemote env s bfd
      if s.sessionState = .adminDown then (.adminDown, s, [])
      else
        let (change, s) := transition s bfd.state
        if change = .invalid then (change, s, [])
        else (change, finishProcess env s bfd change)

end Processing

end FreeRadius.Bfd
