import Mathlib.Data.List.Basic

/-!
# Channels

The functions of `channel.c` that send and receive requests and replies, as the
steps that the two ends take in any order. The ends only share the two queues,
which are bounded FIFOs; a step uses a queue, or does what a function does up to
its next use of a queue.

The counters do not overflow. The channel is active and its ends are in two
threads; the signals of the control plane, the statistics other than
`outstanding`, and time are left out.
-/

namespace FreeRadius.Channel

variable {α ρ : Type}

def atomicQueueSize : ℕ := 1024

/-- A queue that holds a bounded number of messages. -/
structure Fifo (α : Type) where
  items : List α
  size : ℕ

/-- `fr_atomic_queue_push`, which fails if the queue is full. -/
def Fifo.push (aq : Fifo α) (a : α) : Option (Fifo α) :=
  if aq.items.length < aq.size then some { aq with items := aq.items ++ [a] } else none

/-- `fr_atomic_queue_pop`, which fails if the queue is empty. -/
def Fifo.pop (aq : Fifo α) : Option (α × Fifo α) :=
  match aq.items with
  | [] => none
  | a :: items => some (a, { aq with items := items })

/-- `fr_channel_data_t` with its members `live.sequence` and `live.ack`. -/
structure FrChannelData (α : Type) where
  data : α
  sequence : ℕ
  ack : ℕ

/-- `fr_channel_end_t`, with the queue that this end writes to. -/
structure FrChannelEnd (α : Type) where
  sequence : ℕ
  ack : ℕ
  theirViewOfMySequence : ℕ
  outstanding : ℕ
  aq : Fifo (FrChannelData α)

/-- What a thread does next. `ρ` says where a call of a function that receives
returns to. -/
inductive Pc (α ρ : Type) where
  /-- The caller of the functions runs, or a callback. -/
  | user
  /-- `fr_atomic_queue_push` in a function that sends -/
  | push (data : α)
  /-- what follows when the message with this sequence has been pushed -/
  | pushed (sequence : ℕ)
  /-- `fr_atomic_queue_pop` in a function that receives -/
  | pop (ret : ρ)
  /-- what follows when this message has been popped -/
  | popped (cd : FrChannelData α) (ret : ρ)

/-- Who has called `fr_channel_recv_reply`. -/
inductive RequestorReturn where
  | caller
  /-- The loop of `fr_channel_send_request` after a push that failed. -/
  | drain

/-- Who has called `fr_channel_recv_request`. -/
inductive ResponderReturn where
  | caller
  /-- The loop of `fr_channel_send_reply` after a push that failed. -/
  | drain
  /-- The loop of `fr_channel_send_reply` after a reply has been sent. -/
  | replied

/-- One thread, with the calls whose callback is running, the innermost first. -/
structure Thread (α ρ : Type) where
  pc : Pc α ρ
  stack : List ρ

/-- A channel and the threads at its ends. The last fields are history variables:
the messages that were accepted and the ones that were received, and how many
received requests have not been answered. -/
structure State (α : Type) where
  requestor : FrChannelEnd α
  responder : FrChannelEnd α
  requestorThread : Thread α RequestorReturn
  responderThread : Thread α ResponderReturn
  requests : List (FrChannelData α)
  receivedRequests : List (FrChannelData α)
  replies : List (FrChannelData α)
  receivedReplies : List (FrChannelData α)
  unanswered : ℕ

def frChannelCreate (α : Type) : State α where
  requestor := ⟨0, 0, 0, 0, ⟨[], atomicQueueSize⟩⟩
  responder := ⟨0, 0, 0, 0, ⟨[], atomicQueueSize⟩⟩
  requestorThread := ⟨.user, []⟩
  responderThread := ⟨.user, []⟩
  requests := []
  receivedRequests := []
  replies := []
  receivedReplies := []
  unanswered := 0

namespace State

variable (s : State α)

def requestorAt (pc : Pc α RequestorReturn) : State α :=
  { s with requestorThread := { s.requestorThread with pc := pc } }

def responderAt (pc : Pc α ResponderReturn) : State α :=
  { s with responderThread := { s.responderThread with pc := pc } }

section Requestor

/-- `fr_channel_send_request`, up to the push -/
def sendRequestPush (data : α) : State α :=
  let cd := ⟨data, s.requestor.sequence + 1, s.requestor.ack⟩
  match s.requestor.aq.push cd with
  | none => s.requestorAt (.pop .drain)
  | some aq =>
    { s with requestor := { s.requestor with aq := aq }, requests := s.requests ++ [cd] }.requestorAt
      (.pushed cd.sequence)

/-- `fr_channel_send_request`, after the push -/
def sendRequestPushed (sequence : ℕ) : State α :=
  { s with requestor := { s.requestor with
      sequence := sequence
      outstanding := s.requestor.outstanding + 1 } }.requestorAt .user

/-- `fr_channel_recv_reply`, up to the pop. If there is no reply, the function
and the loop that it may be in return. -/
def recvReplyPop (ret : RequestorReturn) : State α :=
  match s.responder.aq.pop with
  | none => s.requestorAt .user
  | some (cd, aq) =>
    { s with responder := { s.responder with aq := aq } }.requestorAt (.popped cd ret)

/-- `fr_channel_recv_reply`, from the pop to the callback; `none` if an assertion
does not hold. -/
def recvReplyPopped (cd : FrChannelData α) (ret : RequestorReturn) : Option (State α) :=
  if 0 < s.requestor.outstanding ∧ s.requestor.ack < cd.sequence ∧
      cd.sequence ≤ s.requestor.sequence then
    some { s with
      requestor := { s.requestor with
        outstanding := s.requestor.outstanding - 1
        ack := cd.sequence
        theirViewOfMySequence := cd.ack }
      requestorThread := ⟨.user, ret :: s.requestorThread.stack⟩
      receivedReplies := s.receivedReplies ++ [cd] }
  else none

def replyHandled : State α :=
  match s.requestorThread.stack with
  | [] => s
  | .caller :: stack => { s with requestorThread := ⟨.user, stack⟩ }
  | .drain :: stack => { s with requestorThread := ⟨.pop .drain, stack⟩ }

def requestorStep : Option (State α) :=
  match s.requestorThread.pc with
  | .user => some s
  | .push data => some (s.sendRequestPush data)
  | .pushed sequence => some (s.sendRequestPushed sequence)
  | .pop ret => some (s.recvReplyPop ret)
  | .popped cd ret => s.recvReplyPopped cd ret

end Requestor

section Responder

/-- `fr_channel_recv_request`, up to the pop. If there is no request, the
function and the loop that it may be in return; `none` if the assertion at the end
of `fr_channel_send_reply` does not hold. -/
def recvRequestPop (ret : ResponderReturn) : Option (State α) :=
  match s.requestor.aq.pop with
  | some (cd, aq) =>
    some ({ s with requestor := { s.requestor with aq := aq } }.responderAt (.popped cd ret))
  | none =>
    match ret with
    | .caller => some (s.responderAt .user)
    | .drain => some (s.responderAt .user)
    | .replied =>
      if s.responder.outstanding = 0 then some (s.responderAt .user)
      else if s.responder.theirViewOfMySequence ≤ s.responder.sequence then
        some (s.responderAt .user)
      else none

/-- `fr_channel_recv_request`, from the pop to the callback; `none` if an assertion
does not hold. -/
def recvRequestPopped (cd : FrChannelData α) (ret : ResponderReturn) : Option (State α) :=
  if s.responder.ack < cd.sequence ∧ s.responder.sequence ≤ cd.sequence then
    some { s with
      responder := { s.responder with
        outstanding := s.responder.outstanding + 1
        ack := cd.sequence
        theirViewOfMySequence := cd.ack }
      responderThread := ⟨.user, ret :: s.responderThread.stack⟩
      receivedRequests := s.receivedRequests ++ [cd]
      unanswered := s.unanswered + 1 }
  else none

def requestHandled : State α :=
  match s.responderThread.stack with
  | [] => s
  | .caller :: stack => { s with responderThread := ⟨.user, stack⟩ }
  | .drain :: stack => { s with responderThread := ⟨.pop .drain, stack⟩ }
  | .replied :: stack => { s with responderThread := ⟨.pop .replied, stack⟩ }

/-- `fr_channel_send_reply`, up to the push. A reply that is not accepted is no
answer. -/
def sendReplyPush (data : α) : State α :=
  let cd := ⟨data, s.responder.sequence + 1, s.responder.ack⟩
  match s.responder.aq.push cd with
  | none => s.responderAt (.pop .drain)
  | some aq =>
    { s with
      responder := { s.responder with aq := aq }
      replies := s.replies ++ [cd]
      unanswered := s.unanswered - 1 }.responderAt (.pushed cd.sequence)

/-- `fr_channel_send_reply`, from the push to the loop that receives requests;
`none` if an assertion does not hold. -/
def sendReplyPushed (sequence : ℕ) : Option (State α) :=
  if 0 < s.responder.outstanding then
    some ({ s with responder := { s.responder with
      outstanding := s.responder.outstanding - 1
      sequence := sequence } }.responderAt (.pop .replied))
  else none

def frChannelNullReply : State α :=
  { s with
    responder := { s.responder with sequence := s.responder.sequence + 1 }
    unanswered := s.unanswered - 1 }

def responderStep : Option (State α) :=
  match s.responderThread.pc with
  | .user => some s
  | .push data => some (s.sendReplyPush data)
  | .pushed sequence => s.sendReplyPushed sequence
  | .pop ret => s.recvRequestPop ret
  | .popped cd ret => s.recvRequestPopped cd ret

end Responder

end State

/-- What can happen next: an end calls one of the functions, a callback returns,
or an end takes the next step in a function. -/
inductive Action (α : Type) where
  | sendRequest (data : α)
  | recvReply
  | replyHandled
  | requestorStep
  | recvRequest
  | requestHandled
  | sendReply (data : α)
  | nullReply
  | responderStep

/-- The functions are called by the caller or by a callback, and the responder
only answers a request that it has received and not answered. `none` if an
assertion does not hold. -/
def State.act (s : State α) : Action α → Option (State α)
  | .sendRequest data =>
    match s.requestorThread.pc with
    | .user => some (s.requestorAt (.push data))
    | _ => some s
  | .recvReply =>
    match s.requestorThread.pc with
    | .user => some (s.requestorAt (.pop .caller))
    | _ => some s
  | .replyHandled =>
    match s.requestorThread.pc with
    | .user => some s.replyHandled
    | _ => some s
  | .requestorStep => s.requestorStep
  | .recvRequest =>
    match s.responderThread.pc with
    | .user => some (s.responderAt (.pop .caller))
    | _ => some s
  | .requestHandled =>
    match s.responderThread.pc with
    | .user => some s.requestHandled
    | _ => some s
  | .sendReply data =>
    match s.responderThread.pc, s.unanswered with
    | .user, _ + 1 => some (s.responderAt (.push data))
    | _, _ => some s
  | .nullReply =>
    match s.responderThread.pc, s.unanswered with
    | .user, _ + 1 => some s.frChannelNullReply
    | _, _ => some s
  | .responderStep => s.responderStep

/-- All actions, one after the other; `none` if an assertion does not hold in one
of them. -/
def State.run (s : State α) : List (Action α) → Option (State α)
  | [] => some s
  | a :: actions => (s.act a).bind fun s => s.run actions

end FreeRadius.Channel
