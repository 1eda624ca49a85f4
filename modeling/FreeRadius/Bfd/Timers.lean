import FreeRadius.Bfd.Authentication

/-!
# Runs of a BFD session

Packets are read and timers fire. A packet with Up and the Demand bit stops the timers of a session
that is Up. The session does not get to AdminDown unless such a packet has a required interval that is
too small, and its timers run whenever it polls unless such a packet has no Final bit.
-/

namespace FreeRadius.Bfd

open Library

variable {env : Env} {s : Session} {bfd : Packet}

section Timers

/-- An interval of less than a second. -/
def SubSecond (t : ℤ) : Prop := 0 < t ∧ t < 1000000000

/-- The remote system takes packets. -/
def Session.Ready (s : Session) : Prop := SubSecond s.remoteMinRxInterval

def Session.Armed (s : Session) : Prop := s.timeoutEv.isSome = true ∧ s.packetEv.isSome = true

/-- Both systems are Up, and the remote one asks for no packets. -/
def Session.Silent (s : Session) : Prop :=
  s.remoteDemandMode = true ∧ s.sessionState = .up ∧ s.remoteSessionState = .up

/-- What the functions that set timers and send packets change. -/
def Session.Retimed (s s' : Session) : Prop :=
  ∃ desired next poll seq last timeout packet, s' = { s with
    desiredMinTxInterval := desired
    nextMinTxInterval := next
    doingPoll := poll
    xmitAuthSeq := seq
    lastRecv := last
    timeoutEv := timeout
    packetEv := packet }

theorem Session.Retimed.refl (s : Session) : s.Retimed s := ⟨_, _, _, _, _, _, _, rfl⟩

theorem bfdStartPackets_ready (h : s.Ready) (env : Env) :
    ∃ packet, bfdStartPackets env s = { s with packetEv := some packet } := by
  have hmin : toUnsigned s.remoteMinRxInterval ≠ 0 := by
    obtain ⟨hpos, hlt⟩ := h
    unfold toUnsigned
    omega
  rw [bfdStartPackets]
  dsimp only
  split
  · exact ⟨_, rfl⟩
  · exact ⟨_, rfl⟩

/-- The timers are started, or a session that should be silent and does not poll is taken down. -/
theorem bfdStartControl_cases (h : s.Ready) (hdisc : s.remoteDisc ≠ 0) (env : Env) :
    s.Silent ∧ s.doingPoll = false ∧ bfdStartControl env s = bfdSessionAdminDown s ∨
      ∃ timeout packet, bfdStartControl env s =
        { s with timeoutEv := some timeout, packetEv := some packet } := by
  rw [bfdStartControl, if_neg h.1.ne', if_neg fun hzero => hdisc hzero.1]
  split
  · next hup => exact .inl ⟨⟨hup.1, hup.2.1, hup.2.2.1⟩, Bool.eq_false_of_not_eq_true hup.2.2.2, rfl⟩
  · obtain ⟨packet, hpacket⟩ := @bfdStartPackets_ready (bfdSetTimeout s s.lastRecv) h env
    exact .inr ⟨_, packet, hpacket⟩

theorem bfdStopPoll_retimed (h : s.Ready) (hdisc : s.remoteDisc ≠ 0) (hpoll : s.doingPoll = true)
    (env : Env) : s.Retimed (bfdStopPoll env s) ∧ (bfdStopPoll env s).doingPoll = false := by
  rw [bfdStopPoll, if_neg (not_not.mpr hpoll)]
  extract_lets s₁ s₂
  have h₂ : s.Retimed s₂ ∧ s₂.doingPoll = false := by
    dsimp only [s₂]
    split
    · exact ⟨⟨_, _, _, _, _, _, _, rfl⟩, rfl⟩
    · exact ⟨⟨_, _, _, _, _, _, _, rfl⟩, rfl⟩
  obtain ⟨⟨_, _, _, _, _, _, _, heq⟩, hfalse⟩ := h₂
  split
  · next hmode =>
    obtain ⟨hsilent, -⟩ | ⟨_, _, hstart⟩ :=
      @bfdStartControl_cases (bfdStopControl s₂) (by rw [heq]; exact h) (by rw [heq]; exact hdisc) env
    · exact absurd hsilent.1 hmode
    · rw [hstart]
      rw [heq] at hfalse ⊢
      exact ⟨⟨_, _, _, _, _, _, _, rfl⟩, hfalse⟩
  · rw [heq] at hfalse ⊢
    exact ⟨⟨_, _, _, _, _, _, _, rfl⟩, hfalse⟩

/-- The packets of the session are timed if they were when it polled. -/
theorem bfdSetDesiredMinTxInterval_retimed (h : s.Ready) (value : Time) (env : Env) :
    ∃ s', bfdSetDesiredMinTxInterval env s value = s' ∧ s.Retimed s' ∧
      ((s.doingPoll = true → s.packetEv.isSome = true) → s'.packetEv.isSome = true) := by
  refine ⟨_, rfl, ?_⟩
  unfold bfdSetDesiredMinTxInterval
  split
  · next hpoll => exact ⟨⟨_, _, _, _, _, _, _, rfl⟩, fun harmed => harmed hpoll.1⟩
  extract_lets value s₁
  split
  · next hpoll => exact ⟨⟨_, _, _, _, _, _, _, rfl⟩, fun harmed => harmed hpoll⟩
  next hpoll =>
  unfold bfdStartPoll
  rw [if_neg (by exact hpoll)]
  extract_lets s₂
  have h₂ : s₂ = bfdStopControl s₁ := by
    dsimp only [s₂]
    split
    · rfl
    · rfl
  obtain ⟨_, heq⟩ := @bfdStartPackets_ready { s₂ with doingPoll := true } (by rw [h₂]; exact h) env
  rw [heq, h₂]
  exact ⟨⟨_, _, _, _, _, _, _, rfl⟩, fun _ => rfl⟩

end Timers

section Packets

theorem transition_eq (s : Session) (remote : State) :
    ∃ diag state, (transition s remote).2 = { s with localDiag := diag, sessionState := state } ∧
      (s.sessionState ≠ .adminDown → state ≠ .adminDown) := by
  unfold transition
  split
  · exact ⟨_, _, rfl, nofun⟩
  · split
    all_goals exact ⟨_, _, rfl, nofun⟩

theorem subSecond_frTimeDeltaFromUsec {n : ℕ} (hpos : 32 < n) (hlt : n < 1000000) :
    SubSecond (frTimeDeltaFromUsec n) := by
  unfold SubSecond frTimeDeltaFromUsec saturate
  omega

theorem SubSecond.le_usec {t : ℤ} (h : SubSecond t) {n : ℕ} (hn : 1000000 ≤ n) (hlt : n < 2 ^ 32) :
    t ≤ saturate (n * 1000) := by
  unfold SubSecond at h
  unfold saturate
  omega

/-- What a packet says is taken over. -/
structure Updated (env : Env) (s : Session) (bfd : Packet) (s' : Session) : Prop where
  ready : s'.Ready
  disc : s'.remoteDisc ≠ 0
  mode : s'.demandMode = s.demandMode
  state : s'.sessionState = s.sessionState
  demand : s'.remoteDemandMode = bfd.demand
  remote : s'.remoteSessionState = bfd.state
  poll : s'.doingPoll = true → s.doingPoll = true ∧ bfd.final = false
  interval : 32 < (bfd.requiredMinRxInterval env.host.order).toNat →
    ¬frTimeDeltaFromUsec (bfd.requiredMinRxInterval env.host.order).toNat < s'.remoteMinRxInterval

theorem updateRemote_updated (h : s.Ready) (hdisc : bfd.myDisc env.host.order ≠ 0) :
    Updated env s bfd (updateRemote env s bfd) := by
  unfold updateRemote
  extract_lets order s₁ minRx s₂ s₃ desired
  obtain ⟨min, heq, hready, hmin⟩ : ∃ min, s₂ = { s₁ with remoteMinRxInterval := min } ∧
      { s₁ with remoteMinRxInterval := min }.Ready ∧
      (32 < minRx → ¬frTimeDeltaFromUsec minRx < min) := by
    dsimp only [s₂]
    split
    · next hrange =>
      exact ⟨_, rfl, subSecond_frTimeDeltaFromUsec hrange.1 hrange.2, fun _ => lt_irrefl _⟩
    · next hrange =>
      refine ⟨_, rfl, h, fun hpos => not_lt.mpr ?_⟩
      exact h.le_usec (not_lt.mp fun hlt => hrange ⟨hpos, hlt⟩) (UInt32.toNat_lt _)
  have hpoll₂ : s₂.doingPoll = s.doingPoll := by
    rw [heq]
  have h₃ : s₂.Retimed s₃ ∧ (s₃.doingPoll = true → s.doingPoll = true ∧ bfd.final = false) := by
    dsimp only [s₃]
    split
    · next hfinal =>
      obtain ⟨hretimed, hfalse⟩ := @bfdStopPoll_retimed s₂ (heq ▸ hready) (heq ▸ hdisc) hfinal.1 env
      exact ⟨hretimed, fun hpoll => by cases hfalse.symm.trans hpoll⟩
    · next hfinal =>
      exact ⟨.refl _, fun hpoll => ⟨hpoll₂ ▸ hpoll,
        Bool.eq_false_of_not_eq_true fun h => hfinal ⟨hpoll, h⟩⟩⟩
  obtain ⟨⟨_, _, _, _, _, _, _, heq₃⟩, hpoll⟩ := h₃
  rw [heq] at heq₃
  rw [heq₃] at hpoll ⊢
  exact ⟨hready, hdisc, rfl, rfl, rfl, rfl, hpoll, hmin⟩

theorem bfdSign_eq (env : Env) (s : Session) (bfd : Packet) :
    ∃ seq, (bfdSign env s bfd).1 = { s with xmitAuthSeq := seq } := by
  rw [bfdSign]
  split
  · split
    all_goals exact ⟨_, rfl⟩
  · exact ⟨_, rfl⟩

/-- Nothing is stopped for a session that is not in demand mode, and its packets say so. -/
theorem bfdControlPacketInit_eq (env : Env) (s : Session) (poll final : Bool) :
    ∃ s' bfd, bfdControlPacketInit env s poll final = (s', bfd) ∧
      (s' = s ∧ (s.demandMode = false → bfd.demand = false) ∨
        s.demandMode = true ∧ s' = bfdStopControl s) := by
  refine ⟨_, _, rfl, ?_⟩
  cases hmode : s.demandMode with
  | false =>
    refine .inl ⟨rfl, fun _ => ?_⟩
    by_cases hauth : s.authType = .reserved <;> cases s.sessionState <;> cases poll <;> cases final <;>
      simp [hauth, State.toByte, Packet.demand, Packet.byte] <;> rfl
  | true =>
    split
    · exact .inr ⟨rfl, rfl⟩
    · exact .inl ⟨rfl, nofun⟩

/-- The timers of a session that polls run, unless it has to be silent. -/
def Session.Kept (s s' : Session) : Prop :=
  s.Retimed s' ∧ (s.demandMode = false → (s.Silent → s.doingPoll = false) → s'.doingPoll = true →
    s'.Armed)

theorem Session.Kept.bfdPollResponse {s' : Session} (h : s.Kept s') (hsend : env.sendOk = true) :
    s.Kept (bfdPollResponse env s').1 := by
  obtain ⟨s₁, bfd, heq, hkept⟩ := bfdControlPacketInit_eq env s' false true
  obtain ⟨seq, hsign⟩ := bfdSign_eq env s₁ bfd
  rw [Bfd.bfdPollResponse, heq]
  dsimp only
  rw [if_pos hsend, hsign]
  obtain ⟨⟨_, _, _, _, _, _, _, rfl⟩, harmed⟩ := h
  rcases hkept with ⟨rfl, -⟩ | ⟨hmode, rfl⟩
  · exact ⟨⟨_, _, _, _, _, _, _, rfl⟩, harmed⟩
  · exact ⟨⟨_, _, _, _, _, _, _, rfl⟩, fun hfalse => by cases hmode.symm.trans hfalse⟩

/-- A session that has to be silent and does not poll is taken down by a packet with a smaller
required interval than the one that is known. -/
structure TakenDown (env : Env) (s : Session) (bfd : Packet) (s' : Session) : Prop where
  poll : s'.doingPoll = false
  mode : s'.demandMode = s.demandMode
  remote : s'.remoteMinRxInterval = s.remoteMinRxInterval
  silent : s.Silent
  interval : frTimeDeltaFromUsec (bfd.requiredMinRxInterval env.host.order).toNat <
    s.remoteMinRxInterval

/-- The timers are stopped for a session that has to be silent, and started for any other one. -/
theorem kept_control {s₁ : Session} (h : s.Ready) (hdisc : s.remoteDisc ≠ 0) (h₁ : s.Retimed s₁)
    (hsame : s.Silent → s₁ = s) (env : Env) :
    s.Kept (
      let s₂ := if s₁.remoteDemandMode ∧ s₁.sessionState = .up ∧ s₁.remoteSessionState = .up then
        bfdStopControl s₁ else s₁
      if ¬s₂.remoteDemandMode ∨ s₂.sessionState ≠ .up ∨ s₂.remoteSessionState ≠ .up then
        bfdStartControl env s₂ else s₂) := by
  extract_lets s₂
  by_cases hsilent : s.Silent
  · have h₂ : s₂ = bfdStopControl s := by
      dsimp only [s₂]
      rw [hsame hsilent]
      exact if_pos hsilent
    rw [h₂, if_neg fun hor => hor.elim (· hsilent.1) (·.elim (· hsilent.2.1) (· hsilent.2.2))]
    exact ⟨⟨_, _, _, _, _, _, _, rfl⟩, fun _ hpoll htrue => by
      cases (hpoll hsilent).symm.trans htrue⟩
  · obtain ⟨_, _, _, _, _, _, _, heq⟩ := h₁
    have h₂ : s₂ = s₁ := if_neg (by rw [heq]; exact hsilent)
    have hor : ¬s₁.remoteDemandMode ∨ s₁.sessionState ≠ .up ∨ s₁.remoteSessionState ≠ .up := by
      rw [heq]
      by_contra hor
      push Not at hor
      exact hsilent hor
    rw [h₂, if_pos hor]
    obtain ⟨hsil, -⟩ | ⟨_, _, hstart⟩ :=
      @bfdStartControl_cases s₁ (by rw [heq]; exact h) (by rw [heq]; exact hdisc) env
    · rw [heq] at hsil
      exact absurd hsil hsilent
    · rw [hstart, heq]
      exact ⟨⟨_, _, _, _, _, _, _, rfl⟩, fun _ _ _ => ⟨rfl, rfl⟩⟩

theorem Session.Kept.restart {s' : Session} (hkept : s.Kept s') (h : s.Ready)
    (hdisc : s.remoteDisc ≠ 0) (env : Env) (hlow : frTimeDeltaFromUsec
      (bfd.requiredMinRxInterval env.host.order).toNat < s'.remoteMinRxInterval) :
    s.Kept (bfdStartControl env (bfdStopControl s')) ∨
      TakenDown env s bfd (bfdStartControl env (bfdStopControl s')) := by
  obtain ⟨⟨_, _, _, _, _, _, _, heq⟩, -⟩ := hkept
  obtain ⟨hsilent, hpoll, hdown⟩ | ⟨_, _, hstart⟩ :=
    @bfdStartControl_cases (bfdStopControl s') (by rw [heq]; exact h) (by rw [heq]; exact hdisc) env
  · rw [hdown]
    rw [heq] at hsilent hpoll hlow ⊢
    exact .inr ⟨hpoll, rfl, rfl, hsilent, hlow⟩
  · rw [hstart, heq]
    exact .inl ⟨⟨_, _, _, _, _, _, _, rfl⟩, fun _ _ _ => ⟨rfl, rfl⟩⟩

theorem finishProcess_cases (h : s.Ready) (hdisc : s.remoteDisc ≠ 0) (hsend : env.sendOk = true)
    (bfd : Packet) (change : StateChange) : s.Kept (finishProcess env s bfd change).1 ∨
      TakenDown env s bfd (finishProcess env s bfd change).1 := by
  unfold finishProcess
  extract_lets s₁ s₂ s₃
  have h₁ : s.Retimed s₁ ∧ (s.Silent → s₁ = s) := by
    dsimp only [s₁]
    split
    · next hup =>
      obtain ⟨_, rfl, hretimed, -⟩ := bfdSetDesiredMinTxInterval_retimed h (frTimeDeltaFromSec 1) env
      exact ⟨hretimed, fun hsilent => absurd hsilent.2.1 hup.2⟩
    · exact ⟨.refl s, fun _ => rfl⟩
  have h₃ : s.Kept s₃ := kept_control h hdisc h₁.1 h₁.2 env
  have hrecv : ∀ s₄, s.Kept s₄ → s.Kept { s₄ with lastRecv := env.now } := by
    rintro _ ⟨⟨_, _, _, _, _, _, _, rfl⟩, harmed⟩
    exact ⟨⟨_, _, _, _, _, _, _, rfl⟩, harmed⟩
  dsimp only
  split
  · have hsent := hrecv _ (h₃.bfdPollResponse hsend)
    split
    · next hlow => exact hsent.restart h hdisc env hlow.1
    · exact .inl hsent
  · split
    · next hlow => exact (hrecv _ h₃).restart h hdisc env hlow.1
    · exact .inl (hrecv _ h₃)

end Packets

section Steps

variable {armed alive : Prop}

/-- What a session keeps to. If `armed`, its timers run when it polls, and if `alive`, it is not
administratively down. -/
structure Session.Inv (armed alive : Prop) (s : Session) : Prop where
  ready : s.Ready
  mode : armed → s.demandMode = false
  poll : armed → s.doingPoll = true → s.Armed ∧ s.sessionState ≠ .adminDown
  state : alive → s.sessionState ≠ .adminDown

/-- What is asked of a packet with Up and the Demand bit: the Final bit, if `armed`, and if `alive`, a
required interval that is not passed over for being too small. -/
def Undemanding (armed alive : Prop) (env : Env) (bfd : Packet) : Prop :=
  bfd.demand = true → bfd.state = .up → (armed → bfd.final = true) ∧
    (alive → 32 < (bfd.requiredMinRxInterval env.host.order).toNat)

theorem bfdAuthenticate_eq {host : Host} {s' : Session} (h : bfdAuthenticate host s bfd = some s') :
    ∃ known seq, s' = { s with authSeqKnown := known, recvAuthSeq := seq } := by
  rw [bfdAuthenticate] at h
  split at h
  case h_2 =>
    simp only [bfdVerifySimple, Option.ite_none_left_eq_some, Option.ite_none_right_eq_some] at h
    cases h.2.2.2
    exact ⟨_, _, rfl⟩
  case h_3 | h_4 =>
    simp only [bfdVerifyMd5, verifiedDigest, Option.ite_none_left_eq_some] at h
    cases h.2.2.2.2
    exact ⟨_, _, rfl⟩
  case h_5 | h_6 =>
    simp only [bfdVerifySha1, verifiedDigest, Option.ite_none_left_eq_some] at h
    cases h.2.2.2.2
    exact ⟨_, _, rfl⟩
  all_goals cases h

/-- A packet is dropped, or the session is brought to what it says. -/
theorem bfdSessionProcess_cases (env : Env) (s : Session) (bfd : Packet) :
    bfdSessionProcess env s bfd = (.invalid, s, []) ∨ ∃ known seq s',
      updateRemote env { s with authSeqKnown := known, recvAuthSeq := seq } bfd = s' ∧
      (s'.sessionState = .adminDown ∧ bfdSessionProcess env s bfd = (.adminDown, s', []) ∨
        s'.sessionState ≠ .adminDown ∧ ∃ change s'', transition s' bfd.state = (change, s'') ∧
          bfdSessionProcess env s bfd = (change, finishProcess env s'' bfd change)) := by
  rw [bfdSessionProcess]
  split
  · exact .inl rfl
  split
  · exact .inl rfl
  split
  · exact .inl rfl
  split
  · exact .inl rfl
  next s' hauth =>
  obtain ⟨known, seq, rfl⟩ : ∃ known seq,
      s' = { s with authSeqKnown := known, recvAuthSeq := seq } := by
    split at hauth
    · exact bfdAuthenticate_eq hauth
    · cases hauth
      exact ⟨_, _, rfl⟩
  refine .inr ⟨known, seq, _, rfl, ?_⟩
  dsimp only
  split
  · next hdown => exact .inl ⟨hdown, rfl⟩
  · next hup =>
    rw [if_neg (transition_ne_invalid hup _)]
    exact .inr ⟨hup, _, _, rfl, rfl⟩

theorem bfdSessionProcess_inv (h : s.Inv armed alive) (hsend : env.sendOk = true)
    (hok : frBfdPacketOk env.host.order bfd = .ok ()) (hdemand : Undemanding armed alive env bfd) :
    (bfdSessionProcess env s bfd).2.1.Inv armed alive := by
  obtain heq | ⟨known, seq, s', hs', hcases⟩ := bfdSessionProcess_cases env s bfd
  · rw [heq]
    exact h
  have hupdated := hs' ▸ updateRemote_updated
    (s := { s with authSeqKnown := known, recvAuthSeq := seq }) h.ready (of_packetOk bfd hok).2
  have hmode : armed → s'.demandMode = false := fun ha => hupdated.mode.trans (h.mode ha)
  obtain ⟨hdown, heq⟩ | ⟨hup, change, s'', htransition, heq⟩ := hcases
  · have hwas : s.sessionState = .adminDown := hupdated.state.symm.trans hdown
    rw [heq]
    exact ⟨hupdated.ready, hmode, fun ha hpoll => absurd hwas (h.poll ha (hupdated.poll hpoll).1).2,
      fun hl => absurd hwas (h.state hl)⟩
  obtain ⟨diag, state, hs'', hne⟩ := transition_eq s' bfd.state
  rw [htransition] at hs''
  obtain rfl : s'' = _ := hs''
  have hbits := fun hsilent : Session.Silent { s' with localDiag := diag, sessionState := state } =>
    hdemand (hupdated.demand.symm.trans hsilent.1) (hupdated.remote.symm.trans hsilent.2.2)
  rw [heq]
  obtain ⟨⟨_, _, _, _, _, _, _, heq⟩, harmed⟩ | htaken := finishProcess_cases
    (s := { s' with localDiag := diag, sessionState := state }) hupdated.ready hupdated.disc hsend
    bfd change
  · rw [heq] at harmed ⊢
    refine ⟨hupdated.ready, hmode, fun ha hpoll => ⟨harmed (hmode ha) ?_ hpoll, hne hup⟩,
      fun _ => hne hup⟩
    intro hsilent
    refine Bool.eq_false_of_not_eq_true fun htrue => ?_
    cases (hupdated.poll htrue).2.symm.trans ((hbits hsilent).1 ha)
  · refine ⟨?_, fun ha => htaken.mode.trans (hmode ha), fun _ hpoll => ?_, fun hl => ?_⟩
    · rw [Session.Ready, htaken.remote]
      exact hupdated.ready
    · cases htaken.poll.symm.trans hpoll
    · exact absurd htaken.interval (hupdated.interval ((hbits htaken.silent).2 hl))

/-- The timeout is set again, and a session that was administratively down is left so. -/
theorem bfdDetectionTimeout_inv (h : s.Inv armed alive) (env : Env) :
    (bfdDetectionTimeout env { s with timeoutEv := none }).Inv armed alive := by
  unfold bfdDetectionTimeout
  extract_lets expired s₁ s₂ s₃
  have h₁ : s₁.Ready ∧ (armed → s₁.demandMode = false) ∧ (armed → s₁.doingPoll = true →
      s₁.packetEv.isSome = true ∧ s₁.sessionState ≠ .adminDown) ∧
      (alive → s₁.sessionState ≠ .adminDown) := by
    dsimp only [s₁]
    split
    · obtain ⟨_, heq, ⟨_, _, _, _, _, _, _, rfl⟩, harmed⟩ := bfdSetDesiredMinTxInterval_retimed
        (s := { s with timeoutEv := none, sessionState := .down, localDiag := .ctrlExpired })
        h.ready (frTimeDeltaFromSec 1) env
      rw [heq]
      exact ⟨h.ready, h.mode, fun ha _ => ⟨harmed fun hpoll => (h.poll ha hpoll).1.2, nofun⟩,
        fun _ => nofun⟩
    · exact ⟨h.ready, h.mode, fun ha hpoll => ⟨(h.poll ha hpoll).1.2, (h.poll ha hpoll).2⟩, h.state⟩
  obtain ⟨hready, hmode, hpoll, hstate⟩ := h₁
  dsimp only [s₃]
  split
  all_goals exact ⟨hready, hmode, fun ha htrue => ⟨⟨rfl, (hpoll ha htrue).1⟩, (hpoll ha htrue).2⟩,
    hstate⟩

theorem bfdSendPacket_inv (h : s.Inv armed alive) (hsend : env.sendOk = true) :
    (bfdSendPacket env { s with packetEv := none }).1.Inv armed alive := by
  obtain ⟨s', bfd, heq, hkept⟩ :=
    bfdControlPacketInit_eq env { s with packetEv := none } s.doingPoll false
  obtain ⟨seq, hsign⟩ := bfdSign_eq env (if bfd.demand then s' else bfdStartPackets env s') bfd
  rw [bfdSendPacket, heq]
  dsimp only
  rw [if_pos hsend, hsign]
  rcases hkept with ⟨rfl, hdemand⟩ | ⟨hmode, rfl⟩
  · obtain ⟨_, hpackets⟩ := bfdStartPackets_ready (s := { s with packetEv := none }) h.ready env
    rw [hpackets]
    split
    · next hd =>
      exact ⟨h.ready, h.mode, fun ha => (by cases (hdemand (h.mode ha)).symm.trans hd), h.state⟩
    · exact ⟨h.ready, h.mode, fun ha hpoll => ⟨⟨(h.poll ha hpoll).1.1, rfl⟩, (h.poll ha hpoll).2⟩,
        h.state⟩
  · obtain ⟨_, hpackets⟩ := bfdStartPackets_ready
      (s := bfdStopControl { s with packetEv := none }) h.ready env
    rw [hpackets]
    split
    all_goals exact ⟨h.ready, h.mode, fun ha => (by cases (h.mode ha).symm.trans hmode), h.state⟩

end Steps

section Runs

inductive Event where
  | packet (bfd : Packet)
  | detection
  | send

/-- A packet that is not well formed is dropped. A timer that fires is not armed any more. -/
def step (s : Session) : Env × Event → Session
  | (env, .packet bfd) =>
    if frBfdPacketOk env.host.order bfd = .ok () then (bfdSessionProcess env s bfd).2.1 else s
  | (env, .detection) =>
    if s.timeoutEv.isSome then bfdDetectionTimeout env { s with timeoutEv := none } else s
  | (env, .send) =>
    if s.packetEv.isSome then (bfdSendPacket env { s with packetEv := none }).1 else s

def run (s : Session) (events : List (Env × Event)) : Session := events.foldl step s

/-- What `bfd_session_init` leaves, and `bfd_session_start`, which sets the timers. -/
structure Session.Initial (s : Session) : Prop where
  state : s.sessionState = .down
  remoteMinRxInterval : s.remoteMinRxInterval = 1
  remoteDemandMode : s.remoteDemandMode = false
  doingPoll : s.doingPoll = false

variable {armed alive : Prop} {events : List (Env × Event)}

/-- What is sent is taken, and the packet that is read is as given. -/
def Allowed (p : Env → Packet → Prop) (event : Env × Event) : Prop :=
  event.1.sendOk = true ∧ ∀ bfd, event.2 = .packet bfd → p event.1 bfd

theorem step_inv {event : Env × Event} (h : s.Inv armed alive)
    (hevent : Allowed (Undemanding armed alive) event) : (step s event).Inv armed alive := by
  obtain ⟨env, event⟩ := event
  cases event with
  | packet bfd =>
    rw [step]
    split
    · next hok => exact bfdSessionProcess_inv h hevent.1 hok (hevent.2 bfd rfl)
    · exact h
  | detection =>
    rw [step]
    split
    · exact bfdDetectionTimeout_inv h env
    · exact h
  | send =>
    rw [step]
    split
    · exact bfdSendPacket_inv h hevent.1
    · exact h

theorem run_inv (h : s.Initial) (hmode : armed → s.demandMode = false)
    (hevents : ∀ e ∈ events, Allowed (Undemanding armed alive) e) :
    (run s events).Inv armed alive := by
  refine List.foldlRecOn events step ⟨?_, hmode, ?_, ?_⟩ fun _ hs e he => step_inv hs (hevents e he)
  · rw [Session.Ready, h.remoteMinRxInterval]
    exact ⟨by decide, by decide⟩
  · intro _ hpoll
    cases h.doingPoll.symm.trans hpoll
  · rw [h.state]
    exact fun _ => nofun

/-- A run brings the session to AdminDown only by a packet with Up, the Demand bit and a required
interval that is too small. -/
theorem run_ne_adminDown (s : Session) (h : s.Initial) (events : List (Env × Event))
    (hevents : ∀ e ∈ events, Allowed (Undemanding False True) e) :
    (run s events).sessionState ≠ .adminDown :=
  (run_inv h False.elim hevents).state trivial

/-- A packet for the session, with these flags and this required interval. -/
def plainPacket (flags minRx : UInt8) : Packet :=
  [0x20, flags, 3, 24] ++ [1, 0, 0, 0] ++ [7, 0, 0, 0] ++ List.replicate 4 0 ++ [minRx, 0, 0, 0] ++
    List.replicate 4 0

/-- The session gets Up by a packet with Final and Demand, and then Down, where it polls again. -/
def upAndDown : List (Env × Event) :=
  [(zeroEnv, .packet (plainPacket 0x40 100)), (zeroEnv, .packet (plainPacket 0xd2 100)),
    (zeroEnv, .packet (plainPacket 0x40 100)), (zeroEnv, .send), (zeroEnv, .detection)]

theorem allowed_upAndDown : ∀ e ∈ upAndDown, Allowed (Undemanding armed alive) e := by
  simp only [upAndDown, List.forall_mem_cons, Allowed]
  refine ⟨⟨rfl, ?_⟩, ⟨rfl, ?_⟩, ⟨rfl, ?_⟩, ⟨rfl, nofun⟩, ⟨rfl, nofun⟩, nofun⟩
  · rintro _ ⟨⟩ hdemand
    exact absurd hdemand (by decide)
  · rintro _ ⟨⟩ - -
    exact ⟨fun _ => by decide, fun _ => by decide⟩
  · rintro _ ⟨⟩ hdemand
    exact absurd hdemand (by decide)

theorem run_ne_adminDown_upAndDown :
    (run (newSession .reserved) (upAndDown.take 2)).sessionState = .up ∧
      (run (newSession .reserved) upAndDown).sessionState ≠ .adminDown :=
  ⟨by decide, run_ne_adminDown (newSession .reserved) ⟨rfl, rfl, rfl, rfl⟩ _ allowed_upAndDown⟩

/-- The second packet has Up, the Final bit, the Demand bit and a smaller interval. -/
theorem run_adminDown :
    (run (newSession .reserved) [(zeroEnv, .packet (plainPacket 0x40 100)),
      (zeroEnv, .packet (plainPacket 0xd2 0))]).sessionState = .adminDown := by
  decide

/-- `bfd_stop_poll` is called for the packet, and tests its assertions. -/
def StopsPoll (env : Env) (s : Session) (bfd : Packet) : Prop :=
  frBfdPacketOk env.host.order bfd = .ok () ∧ (bfdSessionProcess env s bfd).1 ≠ .invalid ∧
    s.doingPoll = true ∧ bfd.final = true ∧ bfd.demand = false

/-- The timers of a session run when it stops to poll, if it is not in demand mode and each packet
with Up and the Demand bit had the Final bit. -/
theorem armed_of_stopsPoll (s : Session) (h : s.Initial) (hmode : s.demandMode = false)
    (events : List (Env × Event)) (hevents : ∀ e ∈ events, Allowed (Undemanding True False) e)
    (env : Env) (bfd : Packet) (hstop : StopsPoll env (run s events) bfd) : (run s events).Armed :=
  ((run_inv h (fun _ => hmode) hevents).poll trivial hstop.2.2.1).1

theorem armed_of_stopsPoll_upAndDown : (run (newSession .reserved) upAndDown).Armed :=
  armed_of_stopsPoll (newSession .reserved) ⟨rfl, rfl, rfl, rfl⟩ rfl _ allowed_upAndDown zeroEnv
    (plainPacket 0x90 100) ⟨by decide, by decide, by decide, by decide, by decide⟩

/-- The timers are stopped by a packet with Up and the Demand bit, and the next one has Final. -/
def demanded : Session :=
  run (newSession .reserved) [(zeroEnv, .packet (plainPacket 0x40 100)),
    (zeroEnv, .packet (plainPacket 0xc2 100))]

theorem stopsPoll_not_armed : StopsPoll zeroEnv demanded (plainPacket 0xd0 100) ∧ ¬demanded.Armed :=
  ⟨⟨by decide, by decide, by decide, by decide, by decide⟩, fun h => absurd h.1 (by decide)⟩

end Runs

end FreeRadius.Bfd
