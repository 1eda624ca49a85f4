import FreeRadius.Bfd.Timers

/-!
# The detection time of a BFD session

For which time the timeout is armed by a packet. `bfd_set_timeout` takes the nanoseconds of the
detection time for microseconds, and counts them from the packet before.
-/

namespace FreeRadius.Bfd

open Library

variable {env : Env} {s : Session} {bfd : Packet}

section Detection

/-- What the timer functions leave as it is. -/
def Session.timing (s : Session) : Session :=
  { s with
    sessionState := .down
    localDiag := .none
    desiredMinTxInterval := 0
    nextMinTxInterval := 0
    doingPoll := false
    timeoutEv := none
    packetEv := none }

theorem timing_bfdStartPackets (s : Session) : (bfdStartPackets env s).timing = s.timing ∧
    (bfdStartPackets env s).timeoutEv = s.timeoutEv := by
  rw [bfdStartPackets]
  dsimp only
  split
  · exact ⟨rfl, rfl⟩
  · split
    · exact ⟨rfl, rfl⟩
    · exact ⟨rfl, rfl⟩

theorem timing_bfdSetDesiredMinTxInterval (s : Session) (value : Time) :
    (bfdSetDesiredMinTxInterval env s value).timing = s.timing := by
  unfold bfdSetDesiredMinTxInterval
  split
  · rfl
  extract_lets value s₁
  split
  · rfl
  unfold bfdStartPoll
  split
  · rfl
  extract_lets s₂
  refine (timing_bfdStartPackets _).1.trans ?_
  dsimp only [s₂]
  split
  · rfl
  · rfl

/-- A timeout of the session is set for this time. -/
def timeoutOf (s : Session) (ref : Time) : Option Time := (bfdSetTimeout s ref).timeoutEv

theorem bfdStartControl_timeout {s' : Session} (h : s'.timing = s.timing)
    (hmin : s.remoteMinRxInterval ≠ 0) (hdisc : s.remoteDisc ≠ 0) :
    (bfdStartControl env s').timing = s.timing ∧
      ∀ t, (bfdStartControl env s').timeoutEv = some t → timeoutOf s s.lastRecv = some t := by
  have hmin' : s'.remoteMinRxInterval = s.remoteMinRxInterval :=
    (congrArg Session.remoteMinRxInterval h :)
  have hdisc' : s'.remoteDisc = s.remoteDisc := (congrArg Session.remoteDisc h :)
  rw [bfdStartControl, hmin', hdisc', if_neg hmin, if_neg fun h => hdisc h.1]
  split
  · exact ⟨h, fun t ht => by cases ht⟩
  · obtain ⟨htiming, htimeout⟩ := @timing_bfdStartPackets env (bfdSetTimeout s' s'.lastRecv)
    refine ⟨htiming.trans h, fun t ht => (congrArg (fun s => timeoutOf s s.lastRecv) h).symm.trans ?_⟩
    exact htimeout.symm.trans ht

theorem finishProcess_timeout {s' : Session} (h : s'.timing = s.timing) {change : StateChange} {t : Time}
    (hmin : s.remoteMinRxInterval ≠ 0) (hdisc : s.remoteDisc ≠ 0) (hmode : s.demandMode = false)
    (hpoll : bfd.poll = false) (ht : (finishProcess env s' bfd change).1.timeoutEv = some t) :
    timeoutOf s (if frTimeDeltaFromUsec (bfd.requiredMinRxInterval env.host.order).toNat <
      s.remoteMinRxInterval then env.now else s.lastRecv) = some t := by
  unfold finishProcess at ht
  extract_lets s₁ s₂ s₃ at ht
  have h₁ : s₁.timing = s.timing := by
    dsimp only [s₁]
    split
    · exact (timing_bfdSetDesiredMinTxInterval s' _).trans h
    · exact h
  have h₃ : s₃.timing = s.timing ∧ ∀ t, s₃.timeoutEv = some t → timeoutOf s s.lastRecv = some t := by
    by_cases hup : s₁.remoteDemandMode ∧ s₁.sessionState = .up ∧ s₁.remoteSessionState = .up
    · have h₂ : s₂ = bfdStopControl s₁ := if_pos hup
      have h₃ : s₃ = s₂ := if_neg (by rw [h₂]; tauto)
      rw [h₃, h₂]
      exact ⟨h₁, nofun⟩
    · have h₂ : s₂ = s₁ := if_neg hup
      have h₃ : s₃ = bfdStartControl env s₂ := if_pos (by rw [h₂]; tauto)
      rw [h₃, h₂]
      exact bfdStartControl_timeout h₁ hmin hdisc
  have hmin₃ : s₃.remoteMinRxInterval = s.remoteMinRxInterval :=
    (congrArg Session.remoteMinRxInterval h₃.1 :)
  have hmode₃ : s₃.demandMode = false := (congrArg Session.demandMode h₃.1 :).trans hmode
  rw [hpoll, if_neg Bool.false_ne_true] at ht
  dsimp only at ht
  rw [← hmin₃]
  split at ht
  · next hlow =>
    rw [if_pos hlow.1]
    exact (@bfdStartControl_timeout env { s with lastRecv := env.now }
      (bfdStopControl { s₃ with lastRecv := env.now })
      (congrArg (fun s : Session => { s with lastRecv := env.now }) h₃.1 :) hmin hdisc).2 t ht
  · next hlow =>
    rw [if_neg fun h => hlow ⟨h, by rw [hmode₃]; exact nofun⟩]
    exact h₃.2 t ht

/-- What the configuration and `bfd_session_init` see to. -/
structure Session.Configured (s : Session) : Prop where
  detectMulti : 1 ≤ s.detectMulti.toNat ∧ s.detectMulti.toNat ≤ 10
  required : 32000 ≤ s.requiredMinRxInterval ∧ s.requiredMinRxInterval ≤ 2000000000
  remote : s.remoteMinRxInterval ≠ 0

theorem interval_bounds {required : ℤ} (h : 32000 ≤ required ∧ required ≤ 2000000000) (n : UInt32) :
    0 ≤ max required (1000 * n.toNat) ∧ max required (1000 * n.toNat) < 2 ^ 43 := by
  have := n.toNat_lt
  omega

theorem timeoutOf_eq {d : ℤ} (hmulti : s.detectMulti.toNat ≤ 10) (hd : s.detectionTime = d)
    (hpos : 0 ≤ d) (hlt : d < 2 ^ 43) {ref : ℤ} (href : -2 ^ 63 ≤ ref) :
    timeoutOf s ref = some (min (ref + 1000 * (s.detectMulti.toNat * d + d / 2)) (2 ^ 63 - 1)) := by
  obtain ⟨d, rfl⟩ := Int.eq_ofNat_of_zero_le hpos
  have hp : d * s.detectMulti.toNat ≤ d * 10 := Nat.mul_le_mul_left d hmulti
  have hwhole : toUnsigned d = d := by
    unfold toUnsigned
    omega
  have hhalf : toUnsigned ((d : ℤ).tdiv 2) = d / 2 := by
    rw [Int.tdiv_eq_ediv_of_nonneg (Int.natCast_nonneg d)]
    unfold toUnsigned
    omega
  rw [timeoutOf, bfdSetTimeout, hd, hwhole, hhalf, mul_comm (s.detectMulti.toNat : ℤ), ← Nat.cast_mul]
  generalize d * s.detectMulti.toNat = p at *
  have hdelta : saturate ((p + d / 2 : ℕ) * 1000) = 1000 * (p + d / 2) := by
    rw [saturate]
    omega
  dsimp only
  rw [u64_of_lt (show p < 2 ^ 64 by omega), u64_of_lt (by omega), toSigned, if_pos (by omega),
    frTimeDeltaFromUsec, hdelta, frTimeAdd, Time.TimeType.wrap_eq_clamp_iff.mpr, Time.TimeType.clamp]
  · exact congrArg some (max_eq_right (show -2 ^ 63 ≤ min (ref + _) (2 ^ 63 - 1) by omega))
  rw [decide_eq_true (show (0 : ℤ) ≤ 1000 * (p + d / 2) by omega)]
  refine ⟨fun h => ?_, fun h => ?_⟩
  · have hmin : ref + 1000 * (p + d / 2) < -2 ^ 63 := h
    omega
  have hmax : 2 ^ 63 - 1 < ref + 1000 * (p + d / 2) := h
  have hpos : 0 ≤ ref := by omega
  rw [decide_eq_true hpos]
  rfl

/-- The detection time of a packet, and half an interval, in nanoseconds. -/
def detectionDelay (env : Env) (s : Session) (bfd : Packet) : ℤ :=
  let interval := max s.requiredMinRxInterval (1000 * (bfd.desiredMinTxInterval env.host.order).toNat)
  s.detectMulti.toNat * interval + interval / 2

/-- The time that the timeout is counted from: that of the packet before, unless this one has a
smaller interval, which is not taken over. -/
def reference (env : Env) (s : Session) (bfd : Packet) : Time :=
  let minRx := (bfd.requiredMinRxInterval env.host.order).toNat
  if ¬(32 < minRx ∧ minRx < 1000000) ∧ frTimeDeltaFromUsec minRx < s.remoteMinRxInterval then env.now
  else s.lastRecv

theorem transition_timing (s : Session) (remote : State) :
    (transition s remote).2.timing = s.timing := by
  obtain ⟨diag, state, heq, -⟩ := transition_eq s remote
  rw [heq]
  rfl

theorem updateRemote_eq (hremote : s.remoteMinRxInterval ≠ 0) (hmode : s.demandMode = false)
    (hfinal : bfd.final = false) :
    ∃ minRx, updateRemote env s bfd = { s with
        remoteDisc := bfd.myDisc env.host.order
        remoteSessionState := bfd.state
        remoteDemandMode := bfd.demand
        remoteMinRxInterval := minRx
        detectionTime := max s.requiredMinRxInterval
          (frTimeDeltaFromUsec (bfd.desiredMinTxInterval env.host.order).toNat) } ∧
      minRx ≠ 0 ∧ reference env s bfd =
        if frTimeDeltaFromUsec (bfd.requiredMinRxInterval env.host.order).toNat < minRx then env.now
        else s.lastRecv := by
  unfold updateRemote reference
  extract_lets order s₁ minRx s₂ s₃ desired
  have h₃ : s₃ = s₂ := if_neg (by rw [hfinal]; exact nofun)
  have hdetect : ¬s₂.demandMode = true := by
    dsimp only [s₂]
    split
    all_goals rw [show s₁.demandMode = false from hmode]; exact nofun
  rw [h₃, if_pos hdetect]
  by_cases hrange : minRx > 32 ∧ minRx < 1000000
  · rw [show s₂ = _ from if_pos hrange]
    exact ⟨_, rfl, (subSecond_frTimeDeltaFromUsec hrange.1 hrange.2).1.ne',
      by rw [if_neg fun h => h.1 hrange, if_neg (lt_irrefl _)]⟩
  · rw [show s₂ = _ from if_neg hrange]
    exact ⟨_, rfl, hremote, if_congr (and_iff_right hrange) rfl rfl⟩

/-- A packet that `bfd_session_process` takes, after which the timeout is armed. -/
structure Arms (env : Env) (s : Session) (bfd : Packet) : Prop where
  packetOk : frBfdPacketOk env.host.order bfd = .ok ()
  poll : bfd.poll = false
  final : bfd.final = false
  state : s.sessionState ≠ .adminDown
  taken : (bfdSessionProcess env s bfd).1 ≠ .invalid
  armed : (bfdSessionProcess env s bfd).2.1.timeoutEv.isSome = true

/-- The timeout is in time only for a packet that comes so late after the one before that it makes up
for the unit of `bfd_set_timeout`, which takes nanoseconds for microseconds. -/
theorem timeoutEv_iff (h : s.Configured) (hmode : s.demandMode = false) (hnow : -2 ^ 63 ≤ env.now)
    (hlast : -2 ^ 63 ≤ s.lastRecv) (harms : Arms env s bfd) :
    (bfdSessionProcess env s bfd).2.1.timeoutEv = some (env.now + detectionDelay env s bfd) ↔
      min (reference env s bfd + 1000 * detectionDelay env s bfd) (2 ^ 63 - 1) =
        env.now + detectionDelay env s bfd := by
  obtain ⟨t, ht⟩ := Option.isSome_iff_exists.mp harms.armed
  have hupdate := fun known seq => @updateRemote_eq env
    { s with authSeqKnown := known, recvAuthSeq := seq } bfd h.remote hmode harms.final
  obtain hdropped | ⟨known, seq, _, rfl, hcases⟩ := bfdSessionProcess_cases env s bfd
  · exact absurd (congrArg Prod.fst hdropped) harms.taken
  obtain ⟨minRx, hu, hmin, href⟩ := hupdate known seq
  obtain ⟨hdown, -⟩ | ⟨-, change, s', hs', heq⟩ := hcases
  · rw [hu] at hdown
    exact absurd hdown harms.state
  have htiming := transition_timing
    (updateRemote env { s with authSeqKnown := known, recvAuthSeq := seq } bfd) bfd.state
  rw [hs', hu] at htiming
  rw [heq] at ht ⊢
  have hset := finishProcess_timeout htiming hmin (of_packetOk bfd harms.packetOk).2 hmode harms.poll ht
  have hstart : (-2 ^ 63 : ℤ) ≤ reference env s bfd := by
    rw [reference]
    split
    · exact hnow
    · exact hlast
  have hdelta : saturate ((bfd.desiredMinTxInterval env.host.order).toNat * 1000) =
      1000 * (bfd.desiredMinTxInterval env.host.order).toNat := by
    have hdesired := (bfd.desiredMinTxInterval env.host.order).toNat_lt
    rw [saturate]
    omega
  obtain ⟨hpos, hlt⟩ := interval_bounds h.required (bfd.desiredMinTxInterval env.host.order)
  rw [← href] at hset
  have hdue : some t = some (min (reference env s bfd + 1000 * detectionDelay env s bfd) (2 ^ 63 - 1)) :=
    hset.symm.trans
      (timeoutOf_eq (by exact h.detectMulti.2) (by exact congrArg (max _) hdelta) hpos hlt hstart)
  rw [ht, hdue, Option.some_inj]

theorem bfdSessionProcess_timeout_late :
    (bfdSessionProcess { zeroEnv with now := 3496500000000 } (newSession .reserved)
      (plainPacket 0x40 100)).2.1.timeoutEv = some 3500000000000 :=
  (timeoutEv_iff ⟨by decide, by decide, by decide⟩ rfl (by decide) (by decide)
    ⟨by decide, by decide, by decide, by decide, by decide, by decide⟩).mpr (by decide)

/-- The timeout of three and a half seconds is set for about an hour later. -/
theorem bfdSessionProcess_timeout_hour :
    detectionDelay zeroEnv (newSession .reserved) (plainPacket 0x40 100) = 3500000000 ∧
      (bfdSessionProcess zeroEnv (newSession .reserved) (plainPacket 0x40 100)).2.1.timeoutEv =
        some 3500000000000 := by
  decide

end Detection

end FreeRadius.Bfd
