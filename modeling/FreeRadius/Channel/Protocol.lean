import FreeRadius.Channel.Model
import Mathlib.Data.List.Range
import Mathlib.Tactic.Linarith

/-!
# The sequence protocol of a channel

A request has its position among the accepted requests as its sequence, and a
reply has the number of answers up to it. So the counters of the ends follow from
what has been accepted and received, and the assertions of the functions hold in
every interleaving.
-/

namespace FreeRadius.Channel

open List

variable {α ρ : Type} {s : State α}

section Invariant

/-- The message that has been popped and not been received yet. -/
def Pc.inHand : Pc α ρ → List (FrChannelData α)
  | .popped cd _ => [cd]
  | _ => []

/-- The number of messages that have been pushed and not been counted yet. -/
def Pc.uncounted : Pc α ρ → ℕ
  | .pushed _ => 1
  | _ => 0

def State.requestFlight (s : State α) : List (FrChannelData α) :=
  s.responderThread.pc.inHand ++ s.requestor.aq.items

def State.replyFlight (s : State α) : List (FrChannelData α) :=
  s.requestorThread.pc.inHand ++ s.responder.aq.items

/-- The number of answers: the replies that were accepted, and the null replies. -/
def State.answered (s : State α) : ℕ := s.responder.sequence + s.responderThread.pc.uncounted

def lastSequence (cds : List (FrChannelData α)) : ℕ := (cds.getLast?).elim 0 FrChannelData.sequence

@[simp]
theorem lastSequence_concat (cds : List (FrChannelData α)) (cd : FrChannelData α) :
    lastSequence (cds ++ [cd]) = cd.sequence := by
  simp [lastSequence]

/-- The invariant of a channel. -/
structure Inv (s : State α) : Prop where
  requests : s.requests = s.receivedRequests ++ s.requestFlight
  replies : s.replies = s.receivedReplies ++ s.replyFlight
  requestSequences : s.requests.map FrChannelData.sequence = List.range' 1 s.requests.length
  replySequences : (s.replies.map FrChannelData.sequence).Pairwise (· < ·)
  replyPos : ∀ cd ∈ s.replies, 0 < cd.sequence
  replyLe : ∀ cd ∈ s.replies, cd.sequence ≤ s.answered
  requestAck : ∀ cd ∈ s.requests, cd.ack ≤ s.answered
  sent : s.requestor.sequence + s.requestorThread.pc.uncounted = s.requests.length
  outstanding : s.requestor.outstanding + s.requestorThread.pc.uncounted + s.receivedReplies.length =
    s.requests.length
  acked : s.requestor.ack = lastSequence s.receivedReplies
  received : s.responder.ack = s.receivedRequests.length
  answered : s.answered + s.unanswered = s.receivedRequests.length
  replied : s.replies.length ≤ s.answered
  unreplied : s.responder.outstanding + s.replies.length =
    s.receivedRequests.length + s.responderThread.pc.uncounted
  view : s.responder.theirViewOfMySequence ≤ s.answered
  requestPushed : ∀ n, s.requestorThread.pc = .pushed n → n = s.requestor.sequence + 1
  replyPushed : ∀ n, s.responderThread.pc = .pushed n → n = s.responder.sequence + 1
  asked : ∀ d, s.responderThread.pc = .push d → 0 < s.unanswered

theorem inv_create : Inv (frChannelCreate α) where
  requests := rfl
  replies := rfl
  requestSequences := rfl
  replySequences := List.Pairwise.nil
  replyPos := fun _ h => nomatch h
  replyLe := fun _ h => nomatch h
  requestAck := fun _ h => nomatch h
  sent := rfl
  outstanding := rfl
  acked := rfl
  received := rfl
  answered := rfl
  replied := le_rfl
  unreplied := rfl
  view := le_rfl
  requestPushed := fun _ h => nomatch h
  replyPushed := fun _ h => nomatch h
  asked := fun _ h => nomatch h

/-- No message is in the hands of the thread. -/
structure Pc.Quiet (pc : Pc α ρ) : Prop where
  inHand : pc.inHand = []
  uncounted : pc.uncounted = 0

theorem Pc.quiet_user : (.user : Pc α ρ).Quiet := ⟨rfl, rfl⟩

theorem Pc.quiet_push (d : α) : (.push d : Pc α ρ).Quiet := ⟨rfl, rfl⟩

theorem Pc.quiet_pop (ret : ρ) : (.pop ret : Pc α ρ).Quiet := ⟨rfl, rfl⟩

theorem Pc.Quiet.ne_pushed {pc : Pc α ρ} (h : pc.Quiet) (n : ℕ) : pc ≠ .pushed n := by
  rintro rfl
  exact absurd h.uncounted Nat.one_ne_zero

theorem Inv.requestorGoes (h : Inv s) (hpc : s.requestorThread.pc.Quiet)
    {th : Thread α RequestorReturn} (hth : th.pc.Quiet) : Inv { s with requestorThread := th } :=
  { h with
    replies := by
      have := h.replies
      rw [State.replyFlight, hpc.inHand] at this
      rw [State.replyFlight, hth.inHand]
      exact this
    sent := by
      have := h.sent
      rw [hpc.uncounted] at this
      rw [hth.uncounted]
      exact this
    outstanding := by
      have := h.outstanding
      rw [hpc.uncounted] at this
      rw [hth.uncounted]
      exact this
    requestPushed := fun n hn => absurd hn (hth.ne_pushed n) }

theorem answered_of_quiet (hpc : s.responderThread.pc.Quiet) :
    s.answered = s.responder.sequence := by
  rw [State.answered, hpc.uncounted, Nat.add_zero]

theorem Inv.responderGoes (h : Inv s) (hpc : s.responderThread.pc.Quiet)
    {th : Thread α ResponderReturn} (hth : th.pc.Quiet)
    (hask : ∀ d, th.pc = .push d → 0 < s.unanswered) : Inv { s with responderThread := th } := by
  have hanswered : State.answered { s with responderThread := th } = s.answered := by
    rw [answered_of_quiet hpc, answered_of_quiet hth]
  exact
    { h with
      requests := by
        have := h.requests
        rw [State.requestFlight, hpc.inHand] at this
        rw [State.requestFlight, hth.inHand]
        exact this
      replyLe := by rw [hanswered]; exact h.replyLe
      requestAck := by rw [hanswered]; exact h.requestAck
      answered := by rw [hanswered]; exact h.answered
      replied := by rw [hanswered]; exact h.replied
      view := by rw [hanswered]; exact h.view
      unreplied := by
        have := h.unreplied
        rw [hpc.uncounted] at this
        rw [hth.uncounted]
        exact this
      replyPushed := fun n hn => absurd hn (hth.ne_pushed n)
      asked := hask }

theorem Inv.receivedReplies_subset (h : Inv s) : ∀ cd ∈ s.receivedReplies, cd ∈ s.replies := by
  intro cd hcd
  rw [h.replies]
  exact mem_append_left _ hcd

theorem Inv.of_answered (h : Inv s) {n : ℕ} (hn : s.answered = n) :
    (∀ cd ∈ s.replies, cd.sequence ≤ n) ∧ (∀ cd ∈ s.requests, cd.ack ≤ n) ∧
      n + s.unanswered = s.receivedRequests.length ∧ s.replies.length ≤ n ∧
      s.responder.theirViewOfMySequence ≤ n := by
  rw [← hn]
  exact ⟨h.replyLe, h.requestAck, h.answered, h.replied, h.view⟩

theorem Inv.answered_le (h : Inv s) : s.answered ≤ s.receivedRequests.length := by
  have := h.answered
  omega

theorem Inv.received_le (h : Inv s) : s.receivedRequests.length ≤ s.requests.length := by
  rw [h.requests, length_append]
  omega

theorem lastSequence_le {cds : List (FrChannelData α)} {n : ℕ} (h : ∀ cd ∈ cds, cd.sequence ≤ n) :
    lastSequence cds ≤ n := by
  induction cds using List.reverseRecOn with
  | nil => exact Nat.zero_le n
  | append_singleton cds cd _ =>
    rw [lastSequence_concat]
    exact h cd (by simp)

theorem lastSequence_lt {cds : List (FrChannelData α)} {n : ℕ} (hpos : 0 < n)
    (h : ∀ cd ∈ cds, cd.sequence < n) : lastSequence cds < n := by
  have := @lastSequence_le _ cds (n - 1) fun cd hcd => Nat.le_sub_one_of_lt (h cd hcd)
  omega

end Invariant

section Queues

theorem Fifo.push_eq_some {aq aq' : Fifo α} {a : α} (h : aq.push a = some aq') :
    aq'.items = aq.items ++ [a] := by
  rw [Fifo.push] at h
  split at h
  · cases h
    rfl
  · cases h

theorem Fifo.pop_eq_some {aq aq' : Fifo α} {a : α} (h : aq.pop = some (a, aq')) :
    aq.items = a :: aq'.items := by
  rw [Fifo.pop] at h
  split at h
  · cases h
  · rename_i heq
    cases h
    exact heq

end Queues

section Requestor

theorem Inv.sendRequestPush (h : Inv s) {d : α} (hpc : s.requestorThread.pc = .push d) :
    Inv (s.sendRequestPush d) := by
  have hquiet : s.requestorThread.pc.Quiet := by rw [hpc]; exact Pc.quiet_push d
  rw [State.sendRequestPush]
  split
  · exact h.requestorGoes hquiet (Pc.quiet_pop RequestorReturn.drain)
  rename_i aq hpush
  have hsent := h.sent
  have hout := h.outstanding
  rw [hquiet.uncounted] at hsent hout
  have hitems := Fifo.push_eq_some hpush
  have hack : s.requestor.ack ≤ s.answered := by
    rw [h.acked]
    exact lastSequence_le fun cd hcd => h.replyLe cd (h.receivedReplies_subset cd hcd)
  exact
    { h with
      requests := by
        have hreq := h.requests
        rw [State.requestFlight] at hreq ⊢
        change s.requests ++ [_] = s.receivedRequests ++ (s.responderThread.pc.inHand ++ aq.items)
        rw [hitems, hreq, append_assoc, append_assoc]
      replies := by
        have hrep := h.replies
        rw [State.replyFlight, hquiet.inHand] at hrep
        exact hrep
      requestSequences := by
        change (s.requests ++ [_]).map _ = List.range' 1 (s.requests ++ [_]).length
        rw [map_append, h.requestSequences, length_append, length_singleton, range'_concat,
          map_singleton]
        congr 2
        change s.requestor.sequence + 1 = _
        omega
      requestAck := fun cd hcd => by
        rcases mem_append.mp hcd with hcd | hcd
        · exact h.requestAck cd hcd
        · rw [mem_singleton.mp hcd]
          exact hack
      sent := by
        change s.requestor.sequence + 1 = (s.requests ++ [_]).length
        rw [length_append, length_singleton]
        omega
      outstanding := by
        change s.requestor.outstanding + 1 + s.receivedReplies.length = (s.requests ++ [_]).length
        rw [length_append, length_singleton]
        omega
      requestPushed := fun n hn => by
        cases hn
        rfl }

theorem Inv.sendRequestPushed (h : Inv s) {n : ℕ} (hpc : s.requestorThread.pc = .pushed n) :
    Inv (s.sendRequestPushed n) := by
  have hn := h.requestPushed n hpc
  have hsent := h.sent
  have hout := h.outstanding
  have hrep := h.replies
  rw [hpc] at hsent hout
  rw [State.replyFlight, hpc] at hrep
  exact
    { h with
      replies := hrep
      sent := by
        change n + 0 = s.requests.length
        rw [hn]
        exact hsent
      outstanding := hout
      requestPushed := fun _ h => nomatch h }

theorem Inv.recvReplyPop (h : Inv s) {ret : RequestorReturn}
    (hpc : s.requestorThread.pc = .pop ret) : Inv (s.recvReplyPop ret) := by
  have hquiet : s.requestorThread.pc.Quiet := by rw [hpc]; exact Pc.quiet_pop ret
  rw [State.recvReplyPop]
  split
  · exact h.requestorGoes hquiet Pc.quiet_user
  rename_i cd aq hpop
  have hsent := h.sent
  have hout := h.outstanding
  have hrep := h.replies
  rw [hquiet.uncounted] at hsent hout
  rw [State.replyFlight, hquiet.inHand, Fifo.pop_eq_some hpop] at hrep
  exact
    { h with
      replies := hrep
      sent := hsent
      outstanding := hout
      requestPushed := fun _ h => nomatch h }

/-- The assertions of `fr_channel_recv_reply` hold. -/
theorem Inv.recvReplyPopped (h : Inv s) {cd : FrChannelData α} {ret : RequestorReturn}
    (hpc : s.requestorThread.pc = .popped cd ret) :
    ∃ s', s.recvReplyPopped cd ret = some s' ∧ Inv s' := by
  have hsent := h.sent
  have hout := h.outstanding
  have hrep := h.replies
  rw [hpc] at hsent hout
  rw [State.replyFlight, hpc] at hrep
  change s.requestor.sequence + 0 = _ at hsent
  change s.requestor.outstanding + 0 + _ = _ at hout
  change s.replies = s.receivedReplies ++ cd :: s.responder.aq.items at hrep
  have hcd : cd ∈ s.replies := by
    rw [hrep]
    simp
  have hlength : s.receivedReplies.length + 1 ≤ s.replies.length := by
    rw [hrep, length_append, length_cons]
    omega
  have hle := h.replyLe cd hcd
  have hanswered := h.answered_le
  have hreceived := h.received_le
  have hreplied := h.replied
  have hack : s.requestor.ack < cd.sequence := by
    rw [h.acked]
    refine lastSequence_lt (h.replyPos cd hcd) fun x hx => ?_
    have hsorted := h.replySequences
    rw [hrep, map_append, pairwise_append] at hsorted
    exact hsorted.2.2 _ (mem_map_of_mem hx) _ (by simp)
  rw [State.recvReplyPopped, if_pos ⟨by omega, hack, by omega⟩]
  refine ⟨_, rfl, ?_⟩
  exact
    { h with
      replies := by
        change s.replies = (s.receivedReplies ++ [cd]) ++ s.responder.aq.items
        rw [hrep, append_assoc]
        rfl
      sent := hsent
      outstanding := by
        change s.requestor.outstanding - 1 + 0 + (s.receivedReplies ++ [cd]).length = s.requests.length
        rw [length_append, length_singleton]
        omega
      acked := (lastSequence_concat s.receivedReplies cd).symm
      requestPushed := fun _ h => nomatch h }

end Requestor

section Responder

theorem Inv.sendReplyPush (h : Inv s) {d : α} (hpc : s.responderThread.pc = .push d) :
    Inv (s.sendReplyPush d) := by
  have hquiet : s.responderThread.pc.Quiet := by rw [hpc]; exact Pc.quiet_push d
  rw [State.sendReplyPush]
  split
  · exact h.responderGoes hquiet (Pc.quiet_pop ResponderReturn.drain) fun _ hd => nomatch hd
  rename_i aq hpush
  have hasked := h.asked d hpc
  have hopen := h.unreplied
  have hreq := h.requests
  obtain ⟨hle, hack, hcount, hfew, hview⟩ := h.of_answered (answered_of_quiet hquiet)
  rw [hquiet.uncounted] at hopen
  rw [State.requestFlight, hquiet.inHand] at hreq
  exact
    { h with
      requests := hreq
      replies := by
        have hrep := h.replies
        rw [State.replyFlight] at hrep ⊢
        change s.replies ++ [_] = s.receivedReplies ++ (s.requestorThread.pc.inHand ++ aq.items)
        rw [Fifo.push_eq_some hpush, hrep, append_assoc, append_assoc]
      replySequences := by
        change ((s.replies ++ [_]).map _).Pairwise _
        rw [map_append, pairwise_append]
        refine ⟨h.replySequences, pairwise_singleton _ _, fun n hn m hm => ?_⟩
        obtain ⟨cd, hcd, rfl⟩ := mem_map.mp hn
        rw [map_singleton, mem_singleton] at hm
        have := hle cd hcd
        rw [hm]
        dsimp only
        omega
      replyPos := fun cd hcd => by
        rcases mem_append.mp hcd with hcd | hcd
        · exact h.replyPos cd hcd
        · rw [mem_singleton.mp hcd]
          exact Nat.succ_pos _
      replyLe := fun cd hcd => by
        change cd.sequence ≤ s.responder.sequence + 1
        rcases mem_append.mp hcd with hcd | hcd
        · exact (hle cd hcd).trans (Nat.le_succ _)
        · rw [mem_singleton.mp hcd]
      requestAck := fun cd hcd => (hack cd hcd).trans (Nat.le_succ _)
      answered := by
        change s.responder.sequence + 1 + (s.unanswered - 1) = s.receivedRequests.length
        omega
      replied := by
        change (s.replies ++ [_]).length ≤ s.responder.sequence + 1
        rw [length_append, length_singleton]
        omega
      unreplied := by
        change s.responder.outstanding + (s.replies ++ [_]).length = s.receivedRequests.length + 1
        rw [length_append, length_singleton]
        omega
      view := hview.trans (Nat.le_succ _)
      replyPushed := fun n hn => by
        cases hn
        rfl
      asked := fun _ hd => nomatch hd }

/-- The assertion of `fr_channel_send_reply` on the outstanding requests holds. -/
theorem Inv.sendReplyPushed (h : Inv s) {n : ℕ} (hpc : s.responderThread.pc = .pushed n) :
    ∃ s', s.sendReplyPushed n = some s' ∧ Inv s' := by
  have hn := h.replyPushed n hpc
  have hopen := h.unreplied
  have hreq := h.requests
  have hsame : s.answered = n := by
    rw [State.answered, hpc, hn]
    rfl
  rw [hpc] at hopen
  rw [State.requestFlight, hpc] at hreq
  change _ = _ + 1 at hopen
  have hanswered := h.answered_le
  have hreplied := h.replied
  rw [State.sendReplyPushed, if_pos (by omega)]
  refine ⟨_, rfl, ?_⟩
  obtain ⟨hle, hack, hcount, hfew, hview⟩ := h.of_answered hsame
  exact
    { h with
      requests := hreq
      replyLe := hle
      requestAck := hack
      answered := hcount
      replied := hfew
      unreplied := by
        change s.responder.outstanding - 1 + s.replies.length = s.receivedRequests.length + 0
        omega
      view := hview
      replyPushed := fun _ h => nomatch h
      asked := fun _ h => nomatch h }

/-- The assertion at the end of `fr_channel_send_reply` holds. -/
theorem Inv.recvRequestPop (h : Inv s) {ret : ResponderReturn}
    (hpc : s.responderThread.pc = .pop ret) : ∃ s', s.recvRequestPop ret = some s' ∧ Inv s' := by
  have hquiet : s.responderThread.pc.Quiet := by rw [hpc]; exact Pc.quiet_pop ret
  have hgo : Inv (s.responderAt .user) :=
    h.responderGoes hquiet Pc.quiet_user fun _ hd => nomatch hd
  unfold State.recvRequestPop
  split
  · rename_i cd aq hpop
    have hopen := h.unreplied
    have hreq := h.requests
    obtain ⟨hle, hack, hcount, hfew, hview⟩ := h.of_answered (answered_of_quiet hquiet)
    rw [hquiet.uncounted] at hopen
    rw [State.requestFlight, hquiet.inHand, Fifo.pop_eq_some hpop] at hreq
    refine ⟨_, rfl, ?_⟩
    exact
      { h with
        requests := hreq
        replyLe := hle
        requestAck := hack
        answered := hcount
        replied := hfew
        unreplied := hopen
        view := hview
        replyPushed := fun _ h => nomatch h
        asked := fun _ h => nomatch h }
  · cases ret with
    | caller => exact ⟨_, rfl, hgo⟩
    | drain => exact ⟨_, rfl, hgo⟩
    | replied =>
      dsimp only
      split
      · exact ⟨_, rfl, hgo⟩
      · rw [if_pos (answered_of_quiet hquiet ▸ h.view)]
        exact ⟨_, rfl, hgo⟩

/-- The assertions of `fr_channel_recv_request` hold. -/
theorem Inv.recvRequestPopped (h : Inv s) {cd : FrChannelData α} {ret : ResponderReturn}
    (hpc : s.responderThread.pc = .popped cd ret) :
    ∃ s', s.recvRequestPopped cd ret = some s' ∧ Inv s' := by
  have hsame : s.answered = s.responder.sequence := by
    rw [State.answered, hpc]
    rfl
  have hopen := h.unreplied
  have hreq := h.requests
  rw [hpc] at hopen
  rw [State.requestFlight, hpc] at hreq
  change s.requests = s.receivedRequests ++ cd :: s.requestor.aq.items at hreq
  change _ = _ + 0 at hopen
  -- the sequence of the request is its position
  have hsequence : cd.sequence = s.receivedRequests.length + 1 := by
    have hget : (s.requests.map FrChannelData.sequence)[s.receivedRequests.length]? =
        some cd.sequence := by
      rw [hreq]
      simp
    rw [h.requestSequences, getElem?_range' (by rw [hreq]; simp)] at hget
    have := Option.some.inj hget
    omega
  have hreceived := h.received
  obtain ⟨hle, hack, hcount, hfew, -⟩ := h.of_answered hsame
  rw [State.recvRequestPopped, if_pos ⟨by omega, by omega⟩]
  refine ⟨_, rfl, ?_⟩
  exact
    { h with
      requests := by
        change s.requests = (s.receivedRequests ++ [cd]) ++ s.requestor.aq.items
        rw [hreq, append_assoc]
        rfl
      replyLe := hle
      requestAck := hack
      received := by
        change cd.sequence = (s.receivedRequests ++ [cd]).length
        rw [length_append, length_singleton, hsequence]
      answered := by
        change s.responder.sequence + 0 + (s.unanswered + 1) = (s.receivedRequests ++ [cd]).length
        rw [length_append, length_singleton]
        omega
      replied := hfew
      unreplied := by
        change s.responder.outstanding + 1 + s.replies.length = (s.receivedRequests ++ [cd]).length + 0
        rw [length_append, length_singleton]
        omega
      view := hack cd (by rw [hreq]; simp)
      replyPushed := fun _ h => nomatch h
      asked := fun _ h => nomatch h }

theorem Inv.frChannelNullReply (h : Inv s) (hpc : s.responderThread.pc = .user)
    (hask : 0 < s.unanswered) : Inv s.frChannelNullReply := by
  have hsame : State.answered s.frChannelNullReply = s.answered + 1 := by
    rw [State.answered, State.answered, State.frChannelNullReply, hpc]
    rfl
  have hanswered := h.answered
  exact
    { h with
      replyLe := fun cd hcd => hsame ▸ (h.replyLe cd hcd).trans (Nat.le_succ _)
      requestAck := fun cd hcd => hsame ▸ (h.requestAck cd hcd).trans (Nat.le_succ _)
      answered := by
        rw [hsame]
        change s.answered + 1 + (s.unanswered - 1) = s.receivedRequests.length
        omega
      replied := hsame ▸ h.replied.trans (Nat.le_succ _)
      view := hsame ▸ h.view.trans (Nat.le_succ _)
      replyPushed := fun n hn => by
        rw [State.frChannelNullReply, hpc] at hn
        cases hn
      asked := fun d hd => by
        rw [State.frChannelNullReply, hpc] at hd
        cases hd }

end Responder

section Runs

theorem Inv.requestorStep (h : Inv s) : ∃ s', s.requestorStep = some s' ∧ Inv s' := by
  rw [State.requestorStep]
  split
  · exact ⟨s, rfl, h⟩
  · rename_i d hpc
    exact ⟨_, rfl, h.sendRequestPush hpc⟩
  · rename_i n hpc
    exact ⟨_, rfl, h.sendRequestPushed hpc⟩
  · rename_i ret hpc
    exact ⟨_, rfl, h.recvReplyPop hpc⟩
  · rename_i cd ret hpc
    exact h.recvReplyPopped hpc

theorem Inv.responderStep (h : Inv s) : ∃ s', s.responderStep = some s' ∧ Inv s' := by
  rw [State.responderStep]
  split
  · exact ⟨s, rfl, h⟩
  · rename_i d hpc
    exact ⟨_, rfl, h.sendReplyPush hpc⟩
  · rename_i n hpc
    exact h.sendReplyPushed hpc
  · rename_i ret hpc
    exact h.recvRequestPop hpc
  · rename_i cd ret hpc
    exact h.recvRequestPopped hpc

theorem Inv.replyHandled (h : Inv s) (hpc : s.requestorThread.pc = .user) : Inv s.replyHandled := by
  have hquiet : s.requestorThread.pc.Quiet := by rw [hpc]; exact Pc.quiet_user
  rw [State.replyHandled]
  split
  · exact h
  · exact h.requestorGoes hquiet Pc.quiet_user
  · exact h.requestorGoes hquiet (Pc.quiet_pop RequestorReturn.drain)

theorem Inv.requestHandled (h : Inv s) (hpc : s.responderThread.pc = .user) :
    Inv s.requestHandled := by
  have hquiet : s.responderThread.pc.Quiet := by rw [hpc]; exact Pc.quiet_user
  rw [State.requestHandled]
  split
  · exact h
  · exact h.responderGoes hquiet Pc.quiet_user fun _ hd => nomatch hd
  · exact h.responderGoes hquiet (Pc.quiet_pop ResponderReturn.drain) fun _ hd => nomatch hd
  · exact h.responderGoes hquiet (Pc.quiet_pop ResponderReturn.replied) fun _ hd => nomatch hd

/-- No assertion fails, and the invariant is kept. -/
theorem Inv.act (h : Inv s) (a : Action α) : ∃ s', s.act a = some s' ∧ Inv s' := by
  cases a with
  | sendRequest d =>
    rw [State.act]
    split
    · rename_i hpc
      exact ⟨_, rfl, h.requestorGoes (hpc ▸ Pc.quiet_user) (Pc.quiet_push d)⟩
    · exact ⟨s, rfl, h⟩
  | recvReply =>
    rw [State.act]
    split
    · rename_i hpc
      exact ⟨_, rfl, h.requestorGoes (hpc ▸ Pc.quiet_user) (Pc.quiet_pop RequestorReturn.caller)⟩
    · exact ⟨s, rfl, h⟩
  | replyHandled =>
    rw [State.act]
    split
    · rename_i hpc
      exact ⟨_, rfl, h.replyHandled hpc⟩
    · exact ⟨s, rfl, h⟩
  | requestorStep => exact h.requestorStep
  | recvRequest =>
    rw [State.act]
    split
    · rename_i hpc
      exact ⟨_, rfl, h.responderGoes (hpc ▸ Pc.quiet_user) (Pc.quiet_pop ResponderReturn.caller)
        fun _ hd => nomatch hd⟩
    · exact ⟨s, rfl, h⟩
  | requestHandled =>
    rw [State.act]
    split
    · rename_i hpc
      exact ⟨_, rfl, h.requestHandled hpc⟩
    · exact ⟨s, rfl, h⟩
  | sendReply d =>
    rw [State.act]
    split
    · rename_i n hpc hask
      exact ⟨_, rfl, h.responderGoes (hpc ▸ Pc.quiet_user) (Pc.quiet_push d) fun _ _ =>
        hask ▸ Nat.succ_pos n⟩
    · exact ⟨s, rfl, h⟩
  | nullReply =>
    rw [State.act]
    split
    · rename_i n hpc hask
      exact ⟨_, rfl, h.frChannelNullReply hpc (hask ▸ Nat.succ_pos n)⟩
    · exact ⟨s, rfl, h⟩
  | responderStep => exact h.responderStep

theorem Inv.run (h : Inv s) (actions : List (Action α)) :
    ∃ s', s.run actions = some s' ∧ Inv s' := by
  induction actions generalizing s with
  | nil => exact ⟨s, rfl, h⟩
  | cons a actions ih =>
    obtain ⟨s₁, hact, hinv⟩ := h.act a
    obtain ⟨s₂, hrun, hinv₂⟩ := ih hinv
    exact ⟨s₂, by rw [State.run, hact, Option.bind_some, hrun], hinv₂⟩

/-- What the ends have received is what the other end has sent, each message once
and in the order of sending, up to the messages that are on their way. -/
structure InOrder (s : State α) : Prop where
  requests : s.requests = s.receivedRequests ++ s.requestFlight
  replies : s.replies = s.receivedReplies ++ s.replyFlight

/-- An end that calls its function to receive gets the oldest message in its queue. -/
structure Receives (s : State α) : Prop where
  request : ∀ cd ∈ s.requestor.aq.items.head?, s.responderThread.pc = .user →
    ∃ s', s.run [.recvRequest, .responderStep, .responderStep] = some s' ∧
      s'.receivedRequests = s.receivedRequests ++ [cd]
  reply : ∀ cd ∈ s.responder.aq.items.head?, s.requestorThread.pc = .user →
    ∃ s', s.run [.recvReply, .requestorStep, .requestorStep] = some s' ∧
      s'.receivedReplies = s.receivedReplies ++ [cd]

theorem Inv.receives (h : Inv s) : Receives s where
  request := by
    intro cd hcd hpc
    obtain ⟨s', hrun, -⟩ := h.run [.recvRequest, .responderStep, .responderStep]
    refine ⟨s', hrun, ?_⟩
    obtain ⟨items, hitems⟩ := head?_eq_some_iff.mp hcd
    simp [State.run, State.act, hpc, State.responderStep, State.responderAt, State.recvRequestPop,
      Fifo.pop, hitems, State.recvRequestPopped] at hrun
    rw [← hrun.2]
  reply := by
    intro cd hcd hpc
    obtain ⟨s', hrun, -⟩ := h.run [.recvReply, .requestorStep, .requestorStep]
    refine ⟨s', hrun, ?_⟩
    obtain ⟨items, hitems⟩ := head?_eq_some_iff.mp hcd
    simp [State.run, State.act, hpc, State.requestorStep, State.requestorAt, State.recvReplyPop,
      Fifo.pop, hitems, State.recvReplyPopped] at hrun
    rw [← hrun.2]

/-- In every interleaving no assertion fails, and every accepted message is received
once and in order, as soon as the other end calls its function to receive. -/
theorem channel_protocol (actions : List (Action α)) :
    ∃ s, (frChannelCreate α).run actions = some s ∧ InOrder s ∧ Receives s := by
  obtain ⟨s, hrun, hinv⟩ := Inv.run inv_create actions
  exact ⟨s, hrun, ⟨hinv.requests, hinv.replies⟩, hinv.receives⟩

/-- Two requests, of which the first one has been answered: its reply is received, and so is the
second request. -/
theorem channel_protocol_two :
    ∃ s, (frChannelCreate ℕ).run
      [.sendRequest 7, .requestorStep, .requestorStep, .recvRequest, .responderStep, .responderStep,
        .sendRequest 9, .sendReply 8, .responderStep, .requestorStep, .responderStep, .requestorStep,
        .responderStep, .responderStep] = some s ∧
      s.requests.map FrChannelData.data = [7, 9] ∧
      s.receivedRequests.map FrChannelData.data = [7, 9] ∧
      ∃ s', s.run [.recvReply, .requestorStep, .requestorStep] = some s' ∧
        s'.receivedReplies.map FrChannelData.data = [8] := by
  obtain ⟨s, hrun, -, hreceives⟩ := @channel_protocol ℕ
    [.sendRequest 7, .requestorStep, .requestorStep, .recvRequest, .responderStep, .responderStep,
      .sendRequest 9, .sendReply 8, .responderStep, .requestorStep, .responderStep, .requestorStep,
      .responderStep, .responderStep]
  cases hrun
  obtain ⟨s', hrun, hreply⟩ := hreceives.reply ⟨8, 1, 1⟩ rfl rfl
  exact ⟨_, rfl, rfl, rfl, s', hrun, by rw [hreply]; rfl⟩

/-- The responder counts the requests that it has received and not answered. A
reply that is being sent is counted after the push. -/
def State.OutstandingExact (s : State α) : Prop :=
  s.responder.outstanding = s.unanswered + s.responderThread.pc.uncounted

/-- The number of requests that an action answers with `fr_channel_null_reply`: it has an effect if
the responder is in no other function and has a request to answer. -/
def State.nullReplies (s : State α) : Action α → ℕ
  | .nullReply =>
    match s.responderThread.pc, s.unanswered with
    | .user, _ + 1 => 1
    | _, _ => 0
  | _ => 0

/-- No action answers a request with `fr_channel_null_reply`. -/
def State.NoNullReply (s : State α) : List (Action α) → Prop
  | [] => True
  | a :: actions => s.nullReplies a = 0 ∧ ∀ s' ∈ s.act a, s'.NoNullReply actions

theorem Inv.answered_responderStep (h : Inv s) {s' : State α} (hstep : s.responderStep = some s') :
    s'.answered + s.replies.length = s.answered + s'.replies.length := by
  rw [State.responderStep] at hstep
  split at hstep
  · cases hstep
    rfl
  next d hpc =>
    cases hstep
    rw [State.sendReplyPush]
    split <;> simp [State.answered, State.responderAt, Pc.uncounted, hpc]
    omega
  next n hpc =>
    have hn := h.replyPushed n hpc
    rw [State.sendReplyPushed] at hstep
    split at hstep <;> cases hstep
    simp [State.answered, State.responderAt, Pc.uncounted, hpc, hn]
  next ret hpc =>
    unfold State.recvRequestPop at hstep
    split at hstep <;> (try split at hstep) <;> (try split at hstep) <;> (try split at hstep) <;>
      cases hstep <;> simp [State.answered, State.responderAt, Pc.uncounted, hpc]
  next cd ret hpc =>
    rw [State.recvRequestPopped] at hstep
    split at hstep <;> cases hstep
    simp [State.answered, Pc.uncounted, hpc]

theorem answered_requestorStep {s' : State α} (hstep : s.requestorStep = some s') :
    s'.answered = s.answered ∧ s'.replies = s.replies := by
  rw [State.requestorStep] at hstep
  split at hstep
  · cases hstep
    exact ⟨rfl, rfl⟩
  · cases hstep
    rw [State.sendRequestPush]
    split <;> exact ⟨rfl, rfl⟩
  · cases hstep
    exact ⟨rfl, rfl⟩
  · cases hstep
    rw [State.recvReplyPop]
    split <;> exact ⟨rfl, rfl⟩
  · rw [State.recvReplyPopped] at hstep
    split at hstep <;> cases hstep
    exact ⟨rfl, rfl⟩

/-- The answers are the replies and the null replies. -/
theorem Inv.answered_act (h : Inv s) {a : Action α} {s' : State α} (hact : s.act a = some s') :
    s'.answered + s.replies.length = s.answered + s'.replies.length + s.nullReplies a := by
  cases a with
  | sendRequest d =>
    rw [State.act] at hact
    split at hact <;> cases hact <;> rfl
  | recvReply =>
    rw [State.act] at hact
    split at hact <;> cases hact <;> rfl
  | replyHandled =>
    rw [State.act, State.replyHandled] at hact
    split at hact <;> (try split at hact) <;> cases hact <;> rfl
  | requestorStep =>
    obtain ⟨hanswered, hreplies⟩ := answered_requestorStep hact
    rw [hanswered, hreplies]
    rfl
  | recvRequest =>
    rw [State.act] at hact
    split at hact <;> cases hact <;>
      simp [State.answered, State.responderAt, Pc.uncounted, State.nullReplies, *]
  | requestHandled =>
    rw [State.act, State.requestHandled] at hact
    split at hact <;> (try split at hact) <;> cases hact <;>
      simp [State.answered, Pc.uncounted, State.nullReplies, *]
  | sendReply d =>
    rw [State.act] at hact
    split at hact <;> cases hact <;>
      simp [State.answered, State.responderAt, Pc.uncounted, State.nullReplies, *]
  | nullReply =>
    rw [State.act] at hact
    rw [State.nullReplies]
    split at hact <;> cases hact <;> simp [State.answered, State.frChannelNullReply, *]
    omega
  | responderStep => exact h.answered_responderStep hact

theorem Inv.exact_iff (h : Inv s) : s.OutstandingExact ↔ s.answered = s.replies.length := by
  have hopen := h.unreplied
  have hanswered := h.answered
  rw [State.OutstandingExact]
  omega

theorem Inv.exact_run (h : Inv s) {actions : List (Action α)} {s' : State α}
    (hrun : s.run actions = some s') :
    s'.OutstandingExact ↔ s.OutstandingExact ∧ s.NoNullReply actions := by
  induction actions generalizing s with
  | nil =>
    cases hrun
    simp [State.NoNullReply]
  | cons a actions ih =>
    obtain ⟨s₁, hact, hinv⟩ := h.act a
    rw [State.run, hact] at hrun
    have hanswered := h.answered_act hact
    have hle := h.replied
    have hle₁ := hinv.replied
    rw [ih hinv hrun, State.NoNullReply, hact, hinv.exact_iff, h.exact_iff, ← and_assoc]
    refine and_congr ?_ (by simp)
    omega

/-- The counter is exact if and only if no request has been answered with `fr_channel_null_reply`. -/
theorem outstandingExact_iff (actions : List (Action α)) :
    ∃ s, (frChannelCreate α).run actions = some s ∧
      (s.OutstandingExact ↔ (frChannelCreate α).NoNullReply actions) := by
  obtain ⟨s, hrun, -⟩ := Inv.run inv_create actions
  exact ⟨s, hrun, (inv_create.exact_run hrun).trans (and_iff_right rfl)⟩

/-- A request that is answered with a null reply stays outstanding. -/
theorem outstanding_of_nullReply : ∃ s, (frChannelCreate ℕ).run
    [.sendRequest 7, .requestorStep, .requestorStep, .recvRequest, .responderStep, .responderStep,
      .nullReply, .requestHandled] = some s ∧
    s.unanswered = 0 ∧ s.responder.outstanding = 1 ∧ ¬s.OutstandingExact :=
  ⟨_, rfl, rfl, rfl, Nat.one_ne_zero⟩

end Runs

end FreeRadius.Channel
