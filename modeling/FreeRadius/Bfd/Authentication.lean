import FreeRadius.Bfd.Model

/-!
# Authentication of BFD packets

`bfd_authenticate` looks at the type in the packet and not at the one of the session, so a packet
may choose how it is verified. The window of sequence numbers that `bfd_verify_sequence` accepts has
no bound if it wraps.
-/

namespace FreeRadius.Bfd

open Library

section Verifiers

variable (host : Host) (s : Session) (bfd : Packet)

/-- The packet shows that its sender knows the secret, by a method. -/
def CarriesSecret : AuthType → Prop
  | .reserved => False
  | .simple => bfd.authLen = 3 + s.secret.length ∧ bfd.password s.secret.length = s.secret
  | .keyedMd5 | .metKeyedMd5 => bfd.digest 16 = (bfdCalcMd5 host s bfd).val
  | .keyedSha1 | .metKeyedSha1 => bfd.digest 20 = (bfdCalcSha1 host s bfd).val

/-- The method wants each packet to have a new sequence number. -/
def AuthType.keyed : AuthType → Bool
  | .metKeyedMd5 | .metKeyedSha1 => true
  | .reserved | .simple | .keyedMd5 | .keyedSha1 => false

/-- The sequence number of the packet is accepted, where the method has one. -/
def FollowsSequence (t : AuthType) : Prop :=
  t ≠ .simple → s.authSeqKnown = true →
    bfdVerifySequence s (bfd.sequenceNo host.order) t.keyed = true

theorem isSome_verifiedDigest (keyed : Bool) :
    (verifiedDigest host s bfd keyed).isSome = true ↔
      (s.authSeqKnown = true → bfdVerifySequence s (bfd.sequenceNo host.order) keyed = true) := by
  rw [verifiedDigest]
  split
  · next h =>
    refine ⟨nofun, fun hseq => ?_⟩
    rw [hseq h.1] at h
    exact absurd h.2 (by decide)
  · next h =>
    refine ⟨fun _ hknown => ?_, fun _ => rfl⟩
    by_contra hseq
    exact h ⟨hknown, Bool.eq_false_iff.mpr hseq⟩

theorem isSome_bfdVerifySimple :
    (bfdVerifySimple s bfd).isSome = true ↔
      bfd.keyId = 0 ∧ bfd.authLen = 3 + s.secret.length ∧ bfd.password s.secret.length = s.secret := by
  rw [bfdVerifySimple]
  split
  · next h => exact ⟨nofun, fun hall => absurd hall.2.1 h⟩
  next hlen =>
  split
  · next h => exact ⟨nofun, fun hall => absurd hall.1 h⟩
  next hkey =>
  split
  · next h => exact ⟨fun _ => ⟨not_not.mp hkey, not_not.mp hlen, h⟩, fun _ => rfl⟩
  · next h => exact ⟨nofun, fun hall => absurd hall.2.2 h⟩

theorem isSome_checked {β : Type} {p q : Prop} [Decidable p] [Decidable q] {result : Option β} :
    (if p then none else if q then none else result).isSome = true ↔
      ¬p ∧ ¬q ∧ result.isSome = true := by
  by_cases hp : p <;> by_cases hq : q <;> simp [hp, hq]

theorem isSome_bfdVerifyMd5 (hlen : bfd.authLen = 24) :
    (bfdVerifyMd5 host s bfd).isSome = true ↔
      bfd.keyId = 0 ∧ bfd.digest 16 = (bfdCalcMd5 host s bfd).val ∧
        (s.authSeqKnown = true → bfdVerifySequence s (bfd.sequenceNo host.order)
          (authTypeOf bfd.authType = some .metKeyedMd5) = true) := by
  rw [bfdVerifyMd5, if_neg (not_not.mpr hlen), isSome_checked, not_not, not_not, isSome_verifiedDigest]

theorem isSome_bfdVerifySha1 (hlen : bfd.authLen = 28) :
    (bfdVerifySha1 host s bfd).isSome = true ↔
      bfd.keyId = 0 ∧ bfd.digest 20 = (bfdCalcSha1 host s bfd).val ∧
        (s.authSeqKnown = true → bfdVerifySequence s (bfd.sequenceNo host.order)
          (authTypeOf bfd.authType = some .metKeyedSha1) = true) := by
  rw [bfdVerifySha1, if_neg (not_not.mpr hlen), isSome_checked, not_not, not_not, isSome_verifiedDigest]

def SectionLength : AuthType → Prop
  | .reserved => False
  | .simple => 4 ≤ bfd.authLen ∧ bfd.authLen ≤ 19
  | .keyedMd5 | .metKeyedMd5 => bfd.authLen = 24
  | .keyedSha1 | .metKeyedSha1 => bfd.authLen = 28

/-- What is authentic is so by the type of the packet, whatever the type of the session. -/
theorem isSome_bfdAuthenticate {t : AuthType} (ht : authTypeOf bfd.authType = some t)
    (hlen : SectionLength bfd t) :
    (bfdAuthenticate host s bfd).isSome = true ↔
      bfd.keyId = 0 ∧ CarriesSecret host s bfd t ∧ FollowsSequence host s bfd t := by
  rw [bfdAuthenticate, ht]
  cases t with
  | reserved => exact absurd hlen not_false
  | simple =>
    refine (isSome_bfdVerifySimple s bfd).trans ?_
    exact ⟨fun h => ⟨h.1, h.2, fun hne => absurd rfl hne⟩, fun h => ⟨h.1, h.2.1⟩⟩
  | keyedMd5 | metKeyedMd5 =>
    refine (isSome_bfdVerifyMd5 host s bfd hlen).trans ?_
    rw [ht]
    exact ⟨fun h => ⟨h.1, h.2.1, fun _ => h.2.2⟩, fun h => ⟨h.1, h.2.1, h.2.2 nofun⟩⟩
  | keyedSha1 | metKeyedSha1 =>
    refine (isSome_bfdVerifySha1 host s bfd hlen).trans ?_
    rw [ht]
    exact ⟨fun h => ⟨h.1, h.2.1, fun _ => h.2.2⟩, fun h => ⟨h.1, h.2.1, h.2.2 nofun⟩⟩

theorem of_checked {p : Prop} [Decidable p] {e : PacketError} {result : Except PacketError Unit}
    (h : (if p then .error e else result) = .ok ()) : ¬p ∧ result = .ok () := by
  split at h
  · cases h
  · next hp => exact ⟨hp, h⟩

theorem of_packetOk {order : ByteOrder} (hok : frBfdPacketOk order bfd = .ok ()) :
    (bfd.authPresent = true → authSectionOk bfd = .ok ()) ∧ bfd.myDisc order ≠ 0 := by
  have h := (of_checked (of_checked (of_checked (of_checked hok).2).2).2).2
  cases hsection : (if bfd.authPresent then authSectionOk bfd else .ok ()) with
  | error e =>
    rw [hsection] at h
    cases h
  | ok u =>
    rw [hsection] at h
    refine ⟨fun hauth => ?_, (of_checked (of_checked (of_checked h).2).2).1⟩
    rwa [if_pos hauth] at hsection

/-- A packet that is accepted has an authentication section of a known type. -/
theorem authTypeOf_of_packetOk {order : ByteOrder} (hok : frBfdPacketOk order bfd = .ok ())
    (hauth : bfd.authPresent = true) :
    ∃ t, authTypeOf bfd.authType = some t ∧ SectionLength bfd t := by
  have h := (of_checked (of_checked ((of_packetOk bfd hok).1 hauth)).2).2
  cases ht : authTypeOf bfd.authType with
  | none =>
    rw [ht] at h
    cases h
  | some t =>
    rw [ht] at h
    refine ⟨t, rfl, ?_⟩
    cases t with
    | reserved => cases h
    | simple =>
      have hlen := (of_checked h).1
      constructor <;> omega
    | keyedMd5 | metKeyedMd5 | keyedSha1 | metKeyedSha1 => exact not_not.mp (of_checked h).1

end Verifiers

section Processing

variable {env : Env} {s : Session} {bfd : Packet}

def ForSession (order : ByteOrder) (s : Session) (bfd : Packet) : Prop :=
  bfd.yourDisc order = 0 ∨ bfd.yourDisc order = s.localDisc

theorem transition_ne_invalid {s : Session} (h : s.sessionState ≠ .adminDown) (remote : State) :
    (transition s remote).1 ≠ .invalid := by
  unfold transition
  split
  · exact nofun
  · split
    all_goals first | exact absurd (by assumption) h | exact nofun

/-- A session with authentication takes what is for it, has a section and is authentic. -/
theorem bfdSessionProcess_ne_invalid (hauth : s.authType ≠ .reserved) :
    (bfdSessionProcess env s bfd).1 ≠ .invalid ↔
      ForSession env.host.order s bfd ∧ bfd.authPresent = true ∧
        (bfdAuthenticate env.host s bfd).isSome = true := by
  rw [bfdSessionProcess]
  split
  · next h =>
    refine ⟨fun hne => absurd rfl hne, fun hall => ?_⟩
    exact (hall.1.elim h.1 h.2).elim
  next hdisc =>
  have hfor : ForSession env.host.order s bfd := by
    by_contra hnot
    exact hdisc (not_or.mp hnot)
  rw [if_neg fun h => hauth h.2]
  split
  · next h => exact ⟨fun hne => absurd rfl hne, fun hall => absurd hall.2.1 h.1⟩
  next h =>
  have hpresent : bfd.authPresent = true := by
    by_contra hnot
    exact h ⟨hnot, hauth⟩
  rw [if_pos hpresent]
  rcases hverified : bfdAuthenticate env.host s bfd with _ | s'
  · exact ⟨fun hne => absurd rfl hne, fun hall => absurd hall.2.2 nofun⟩
  refine ⟨fun _ => ⟨hfor, hpresent, rfl⟩, fun _ => ?_⟩
  dsimp only
  split
  · exact nofun
  next hup =>
  have hchange := transition_ne_invalid hup bfd.state
  rw [if_neg hchange]
  exact hchange

/-- The section of the packet has the type of the session and carries its secret. -/
def AuthenticatedBy (host : Host) (s : Session) (bfd : Packet) : Prop :=
  authTypeOf bfd.authType = some s.authType ∧ CarriesSecret host s bfd s.authType

/-- The packet is for the session and carries its secret by another method than the session's. -/
def Substituted (host : Host) (s : Session) (bfd : Packet) : Prop :=
  ∃ t, authTypeOf bfd.authType = some t ∧ t ≠ s.authType ∧ ForSession host.order s bfd ∧
    bfd.authPresent = true ∧ bfd.keyId = 0 ∧ CarriesSecret host s bfd t ∧ FollowsSequence host s bfd t

/-- A packet that is not found invalid is authenticated by the method of the session if and only if
it does not carry the secret by another method. -/
theorem bfdSessionProcess_authenticated_iff (env : Env) (s : Session) (bfd : Packet)
    (hok : frBfdPacketOk env.host.order bfd = .ok ()) (hauth : s.authType ≠ .reserved) :
    ((bfdSessionProcess env s bfd).1 ≠ .invalid → AuthenticatedBy env.host s bfd) ↔
      ¬Substituted env.host s bfd := by
  rw [bfdSessionProcess_ne_invalid hauth]
  constructor
  · rintro hall ⟨t, ht, hne, hfor, hpresent, hkey, hcarries, hseq⟩
    obtain ⟨t', ht', hlen⟩ := authTypeOf_of_packetOk bfd hok hpresent
    rw [ht] at ht'
    cases ht'
    have hverified := (isSome_bfdAuthenticate env.host s bfd ht hlen).mpr ⟨hkey, hcarries, hseq⟩
    have htype := (hall ⟨hfor, hpresent, hverified⟩).1
    rw [ht] at htype
    exact hne (Option.some.inj htype)
  · rintro hnot ⟨hfor, hpresent, hverified⟩
    obtain ⟨t, ht, hlen⟩ := authTypeOf_of_packetOk bfd hok hpresent
    obtain ⟨hkey, hcarries, hseq⟩ := (isSome_bfdAuthenticate env.host s bfd ht hlen).mp hverified
    have htype : t = s.authType := by
      by_contra hne
      exact hnot ⟨t, ht, hne, hfor, hpresent, hkey, hcarries, hseq⟩
    exact ⟨ht.trans (congrArg some htype), htype ▸ hcarries⟩

def zeroHost : Host where
  order := .littleEndian
  md5 := fun _ => ⟨List.replicate 16 0, rfl⟩
  sha1 := fun _ => ⟨List.replicate 20 0, rfl⟩

def zeroEnv : Env where
  host := zeroHost
  now := 0
  rand := 0
  sendOk := true

/-- A session as `bfd_session_init` leaves it, with a secret of one byte. -/
def newSession (authType : AuthType) : Session where
  sessionState := .down
  remoteSessionState := .adminDown
  localDisc := 7
  remoteDisc := 0
  localDiag := .none
  detectMulti := 3
  desiredMinTxInterval := 1000000000
  requiredMinRxInterval := 1000000000
  remoteMinRxInterval := 1
  myMinEchoRxInterval := 0
  nextMinTxInterval := 0
  demandMode := false
  remoteDemandMode := false
  doingPoll := false
  authSeqKnown := false
  authType := authType
  recvAuthSeq := 0
  xmitAuthSeq := 0
  secret := [0x61]
  detectionTime := 1000000000
  detectionTimeouts := 0
  passive := false
  lastRecv := 0
  timeoutEv := none
  packetEv := none

def passwordPacket : Packet :=
  [0x20, 0x44, 3, 28] ++ [1, 0, 0, 0] ++ List.replicate 16 0 ++ [1, 4, 0, 0x61]

theorem bfdSessionProcess_password : AuthenticatedBy zeroHost (newSession .simple) passwordPacket :=
  (bfdSessionProcess_authenticated_iff zeroEnv (newSession .simple) passwordPacket (by decide)
    (by decide)).mpr
    (fun ⟨t, ht, hne, _⟩ => hne (Option.some.inj (ht.symm.trans (by decide))))
    (by decide)

/-- A session that is configured for SHA1 takes a packet with the password in clear. -/
theorem bfdSessionProcess_downgraded :
    frBfdPacketOk zeroHost.order passwordPacket = .ok () ∧
      (bfdSessionProcess zeroEnv (newSession .keyedSha1) passwordPacket).1 = .init ∧
      ¬AuthenticatedBy zeroHost (newSession .keyedSha1) passwordPacket := by
  refine ⟨by decide, by decide, fun h => ?_⟩
  exact absurd h.1 (by decide)

end Processing

section Window

variable (host : Host) (s : Session) (bfd : Packet)

/-- The numbers that a session should accept after the one it has seen: those that are not further
ahead than three times `detect_multi`, and not the same one again if the method is keyed. -/
def InWindow (q : UInt32) (keyed : Bool) : Prop :=
  if keyed then
    1 ≤ (q - s.recvAuthSeq).toNat ∧ (q - s.recvAuthSeq).toNat ≤ 3 * s.detectMulti.toNat + 1
  else (q - s.recvAuthSeq).toNat ≤ 3 * s.detectMulti.toNat

def windowStart (keyed : Bool) : UInt32 := if keyed then s.recvAuthSeq + 1 else s.recvAuthSeq

/-- The window ends below 2^32. -/
def WindowFits (keyed : Bool) : Prop :=
  (windowStart s keyed).toNat + 3 * s.detectMulti.toNat < 2 ^ 32

theorem toNat_windowStart (keyed : Bool) :
    (windowStart s keyed).toNat = (s.recvAuthSeq.toNat + keyed.toNat) % 2 ^ 32 := by
  have hlt := s.recvAuthSeq.toNat_lt
  cases keyed with
  | false => exact (Nat.mod_eq_of_lt hlt).symm
  | true => exact UInt32.toNat_add _ _

theorem inWindow_iff (hmax : s.detectMulti.toNat ≤ 10) (q : UInt32) (keyed : Bool) :
    InWindow s q keyed ↔ (q - windowStart s keyed).toNat ≤ 3 * s.detectMulti.toNat := by
  have hlt := s.recvAuthSeq.toNat_lt
  have hstart := toNat_windowStart s keyed
  rw [InWindow, UInt32.toNat_sub, UInt32.toNat_sub, hstart]
  cases keyed with
  | false =>
    rw [if_neg (by decide), Bool.toNat_false]
    omega
  | true =>
    rw [if_pos rfl, Bool.toNat_true]
    omega

/-- A window that does not wrap is tested as it should be, and any number is in one that does. -/
theorem bfdVerifySequence_iff (hmin : 1 ≤ s.detectMulti.toNat) (hmax : s.detectMulti.toNat ≤ 10)
    (q : UInt32) (keyed : Bool) :
    bfdVerifySequence s q keyed = true ↔ InWindow s q keyed ∨ ¬WindowFits s keyed := by
  have hq := q.toNat_lt
  obtain ⟨start, hstart⟩ : ∃ start, start = windowStart s keyed := ⟨_, rfl⟩
  have hstop : (start + 3 * s.detectMulti).toNat = (start.toNat + 3 * s.detectMulti.toNat) % 2 ^ 32 := by
    rw [UInt32.toNat_add, UInt32.toNat_mul]
    change (_ + 3 * _ % 2 ^ 32) % 2 ^ 32 = _
    omega
  rw [inWindow_iff s hmax, WindowFits, bfdVerifySequence, ← windowStart, ← hstart, UInt32.toNat_sub]
  split
  · next hfits =>
    rw [UInt32.lt_iff_toNat_lt, hstop] at hfits
    split
    · next hout =>
      rw [gt_iff_lt, UInt32.lt_iff_toNat_lt, UInt32.lt_iff_toNat_lt, hstop] at hout
      refine ⟨nofun, ?_⟩
      omega
    · next hin =>
      rw [gt_iff_lt, UInt32.lt_iff_toNat_lt, UInt32.lt_iff_toNat_lt, hstop] at hin
      refine ⟨fun _ => .inl ?_, fun _ => rfl⟩
      omega
  · next hwraps =>
    rw [UInt32.lt_iff_toNat_lt, hstop] at hwraps
    -- no number is above the start and below the stop
    have hnone : ¬(q > start ∧ q < start + 3 * s.detectMulti) := by
      rw [gt_iff_lt, UInt32.lt_iff_toNat_lt, UInt32.lt_iff_toNat_lt, hstop]
      omega
    rw [if_neg hnone]
    refine ⟨fun _ => .inr ?_, fun _ => rfl⟩
    omega

/-- The section of the packet is as `bfd_auth_md5` makes it. -/
structure SignedMd5 : Prop where
  authLen : bfd.authLen = 24
  keyId : bfd.keyId = 0
  digest : bfd.digest 16 = (bfdCalcMd5 host s bfd).val

/-- The section of the packet is as `bfd_auth_sha1` makes it. -/
structure SignedSha1 : Prop where
  authLen : bfd.authLen = 28
  keyId : bfd.keyId = 0
  digest : bfd.digest 20 = (bfdCalcSha1 host s bfd).val

theorem accepts_iff_inWindow_iff {accepted inWindow fits : Prop}
    (h : accepted ↔ inWindow ∨ ¬fits) : (accepted ↔ inWindow) ↔ inWindow ∨ fits := by
  tauto

/-- A packet with a correct digest is accepted by the window of its sequence numbers if and only if
the window does not wrap or the number is in it. -/
theorem bfdVerify_window_iff (hknown : s.authSeqKnown = true) (hmin : 1 ≤ s.detectMulti.toNat)
    (hmax : s.detectMulti.toNat ≤ 10) :
    (∀ keyed : Bool, keyed = decide (authTypeOf bfd.authType = some .metKeyedMd5) →
      SignedMd5 host s bfd →
        (((bfdVerifyMd5 host s bfd).isSome = true ↔ InWindow s (bfd.sequenceNo host.order) keyed) ↔
          InWindow s (bfd.sequenceNo host.order) keyed ∨ WindowFits s keyed)) ∧
    ∀ keyed : Bool, keyed = decide (authTypeOf bfd.authType = some .metKeyedSha1) →
      SignedSha1 host s bfd →
        (((bfdVerifySha1 host s bfd).isSome = true ↔ InWindow s (bfd.sequenceNo host.order) keyed) ↔
          InWindow s (bfd.sequenceNo host.order) keyed ∨ WindowFits s keyed) := by
  constructor
  · rintro keyed rfl hsigned
    apply accepts_iff_inWindow_iff
    rw [isSome_bfdVerifyMd5 host s bfd hsigned.authLen, ← bfdVerifySequence_iff s hmin hmax]
    exact ⟨fun h => h.2.2 hknown, fun h => ⟨hsigned.keyId, hsigned.digest, fun _ => h⟩⟩
  · rintro keyed rfl hsigned
    apply accepts_iff_inWindow_iff
    rw [isSome_bfdVerifySha1 host s bfd hsigned.authLen, ← bfdVerifySequence_iff s hmin hmax]
    exact ⟨fun h => h.2.2 hknown, fun h => ⟨hsigned.keyId, hsigned.digest, fun _ => h⟩⟩

def seenSession (seq : UInt32) : Session :=
  { newSession .keyedMd5 with authSeqKnown := true, recvAuthSeq := seq }

/-- A packet with the digest of the host without digests, and sequence number 9. -/
def digestPacket : Packet :=
  [0x20, 0x44, 3, 48] ++ [1, 0, 0, 0] ++ List.replicate 16 0 ++ [2, 24, 0, 0, 9, 0, 0, 0] ++
    List.replicate 16 0

theorem bfdVerifyMd5_window_nine :
    (bfdVerifyMd5 zeroHost (seenSession 5) digestPacket).isSome = true ↔
      InWindow (seenSession 5) (Packet.sequenceNo digestPacket zeroHost.order) false :=
  ((bfdVerify_window_iff zeroHost (seenSession 5) digestPacket rfl (by decide) (by decide)).1 false
    (by decide) ⟨by decide, by decide, by decide⟩).mpr
    (.inr (by unfold WindowFits; decide))

/-- The session has seen 2^32 - 1. The number 9 is ten ahead of it and should be too far by one, but
so would any number be accepted. -/
theorem bfdVerifyMd5_window_wraps :
    SignedMd5 zeroHost (seenSession 4294967295) digestPacket ∧
      (bfdVerifyMd5 zeroHost (seenSession 4294967295) digestPacket).isSome = true ∧
      ¬InWindow (seenSession 4294967295) (Packet.sequenceNo digestPacket zeroHost.order) false := by
  refine ⟨⟨by decide, by decide, by decide⟩, by decide, ?_⟩
  unfold InWindow
  decide

end Window

end FreeRadius.Bfd
