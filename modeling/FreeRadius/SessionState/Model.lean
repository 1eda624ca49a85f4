import Mathlib.Data.Fintype.Pi

/-!
# The session state tree

`server/state.c`: the entries that keep a session between two packets, the `State` values that name
them, and the four calls that move an entry between the tree and a request. The tree and the list
`to_expire` always hold the same entries, so one list in the order of `to_expire` stands for both,
and a look-up in the tree compares the sixteen bytes of `state`.

`P` is the type of a session-state pair and `D` that of a persistable request datum. The time and
the sixteen random bytes are inputs of a call. Persistable data are allocated under the session-state
list, so that freeing that list takes them from the request too.
-/

namespace FreeRadius.SessionState

/-- `state[sizeof(struct state_comp)]`: the fields of `state_comp` by their offset are `tries` 0,
`tx` 1, `r_0` 2, `server_id` 3, `context_id` 4 to 7, `vx_0` 8, `vx_1` 10, `vx_2` 12, `vx_3` 13, and
the rest is random. -/
abbrev StateValue := Fin 16 → UInt8

variable {P D : Type}

section Types

/-- `fr_state_entry_t`. A `thawed` entry has the number of the request that took it. -/
structure Entry (P D : Type) where
  id : ℕ
  state : StateValue
  seqStart : ℕ
  cleanup : ℤ
  tries : ℕ
  ctx : Option (List P)
  data : List D
  thawed : Option ℕ

/-- `fr_state_tree_t`, with the bytes of `context_id` as they lie in memory -/
structure Tree (P D : Type) where
  id : ℕ
  timedOut : ℕ
  maxSessions : UInt32
  usedSessions : UInt32
  toExpire : List (Entry P D)
  timeout : ℤ
  serverId : UInt8
  contextId : Fin 4 → UInt8

/-- The part of a `request_t` that the calls touch: the values of the `State` pairs of its two lists,
its session-state pairs, its persistable data, and the entry that `request_data_add` attached to it
for this tree. -/
structure Request (P D : Type) where
  number : ℕ
  seqStart : ℕ
  sequence : ℕ
  requestStates : List (List UInt8)
  replyStates : List (List UInt8)
  sessionState : List P
  persistent : List D
  attached : Option (Entry P D)

/-- What `fr_state_to_request` returns: 1, 2, -2 and 0. -/
inductive Restored where
  | noState | unknown | thawed | restored
  deriving DecidableEq, Repr

/-- Why `state_entry_create` gives no entry. -/
inductive CreateError where
  | atMaximum | insertionFailed
  deriving DecidableEq, Repr

/-- What is not in `state.c`: the MD5 function, and the four bytes of `HEXIFY(RADIUSD_VERSION)`,
the highest first. -/
structure Host where
  md5 : List UInt8 → StateValue
  version : Fin 4 → UInt8

end Types

section Values

/-- The sixteen bytes that a `State` attribute of any length stands for, in `state_entry_create` and
`state_entry_find_and_unlink` alike. -/
def toState (h : Host) (octets : List UInt8) : StateValue :=
  if octets.length > 16 then h.md5 octets
  else fun i => octets.getD i 0

/-- `state_comp.context_id ^= state->context_id` -/
def xorContext (c : Fin 4 → UInt8) (s : StateValue) : StateValue := fun i =>
  if hi : 4 ≤ i.val ∧ i.val < 8 then s i ^^^ c ⟨i.val - 4, by omega⟩ else s i

/-- The fields that a round sets in its value. -/
def stamp (h : Host) (serverId : UInt8) (tries : ℕ) (s : StateValue) : StateValue := fun i =>
  match i.val with
  | 0 => UInt8.ofNat (tries + 1)
  | 1 => UInt8.ofNat (tries + 1) ^^^ UInt8.ofNat tries
  | 3 => serverId
  | 8 => s 2 ^^^ h.version 0
  | 10 => s 2 ^^^ h.version 1
  | 12 => s 2 ^^^ h.version 2
  | 13 => s 2 ^^^ h.version 3
  | _ => s i

end Values

section Entries

def stateEntryFree (t : Tree P D) : Tree P D :=
  { t with usedSessions := t.usedSessions - 1 }

/-- The value of a new entry before the exchange of its context, its `tries`, and the `State` pairs
of the reply. -/
def newState (h : Host) (rand : StateValue) (serverId : UInt8) (reply : List (List UInt8))
    (old : Option (Entry P D)) : StateValue × ℕ × List (List UInt8) :=
  match reply.head? with
  -- a module has set its own `State`
  | some vp => (toState h vp, 0, reply)
  | none =>
    match old with
    | some o =>
      let state := stamp h serverId (o.tries + 1) o.state
      (state, o.tries + 1, reply ++ [List.ofFn state])
    | none =>
      let state := stamp h serverId 0 rand
      (state, 0, reply ++ [List.ofFn state])

/-- The entries that the clean-up of `state_entry_create` unlinks, from the head of `to_expire` up to
the first that is not too old. The entry that is used again is in no list. -/
def expired (now : ℤ) (t : Tree P D) : List (Entry P D) :=
  t.toExpire.takeWhile fun entry => entry.cleanup < now

/-- The clean-up, up to the point where the limit has been tested: the expired entries are unlinked
but still counted. -/
def reserve (now : ℤ) (t : Tree P D) (old : Option (Entry P D)) : Bool × Tree P D :=
  let t := { t with
    toExpire := t.toExpire.dropWhile fun entry => entry.cleanup < now
    timedOut := t.timedOut + (expired now t).length }
  if old.isNone then
    let tooMany := t.usedSessions == t.maxSessions
    (tooMany, if tooMany then t else { t with usedSessions := t.usedSessions + 1 })
  else (false, t)

/-- `state_entry_create`. The new entry is answered and not yet linked: the caller links it with
what it stores in it, under the lock that this function took again. -/
def stateEntryCreate (h : Host) (now : ℤ) (rand : StateValue) (t : Tree P D)
    (reply : List (List UInt8)) (old : Option (Entry P D)) :
    Except CreateError (Entry P D) × List (List UInt8) × Tree P D :=
  let (tooMany, reserved) := reserve now t old
  let t := (expired now t).foldl (fun t _ => stateEntryFree t) reserved
  if tooMany then (.error .atMaximum, reply, t)
  else
    -- the destructor of an entry that is used again is run by hand
    let t := if old.isSome then stateEntryFree t else t
    let (state, tries, reply) := newState h rand t.serverId reply old
    let entry : Entry P D :=
      { id := t.id, state := xorContext t.contextId state, seqStart := 0,
        cleanup := now + t.timeout, tries := tries, ctx := none, data := [], thawed := none }
    let t := { t with id := t.id + 1 }
    if t.toExpire.any fun e => decide (e.state = entry.state) then
      (.error .insertionFailed, [], stateEntryFree t)
    else (.ok entry, reply, t)

def stateEntryFindAndUnlink (h : Host) (t : Tree P D) (octets : List UInt8) :
    Option (Entry P D) × Tree P D :=
  let state := xorContext t.contextId (toState h octets)
  match t.toExpire.find? fun e => decide (e.state = state) with
  | none => (none, t)
  | some entry =>
    (some entry, { t with toExpire := t.toExpire.eraseP fun e => decide (e.state = state) })

end Entries

section Calls

def frStateDiscard (h : Host) (t : Tree P D) (r : Request P D) : Tree P D × Request P D :=
  match r.requestStates.head? with
  | none => (t, r)
  | some vp =>
    match stateEntryFindAndUnlink h t vp with
    | (none, t) => (t, r)
    | (some _, t) => (stateEntryFree t, { r with sessionState := [], persistent := [] })

/-- `fr_state_to_request`. Attaching an entry frees the one that was attached before. -/
def frStateToRequest (h : Host) (t : Tree P D) (r : Request P D) :
    Restored × Tree P D × Request P D :=
  match r.requestStates.head? with
  | none => (.noState, t, if r.seqStart = 0 then { r with seqStart := r.number } else r)
  | some vp =>
    match stateEntryFindAndUnlink h t vp with
    | (none, t) => (.unknown, t, r)
    | (some entry, t) =>
      if entry.thawed.isSome then (.thawed, t, r)
      else
        let t := if r.attached.isSome then stateEntryFree t else t
        (.restored, t, { r with
          sessionState := entry.ctx.getD []
          seqStart := entry.seqStart
          attached := some { entry with ctx := none, data := [], thawed := some r.number }
          persistent := entry.data
          sequence := entry.tries })

/-- Whether `fr_request_to_state` has anything to save. -/
def Request.idle (r : Request P D) : Bool := r.sessionState.isEmpty && r.persistent.isEmpty

def frRequestToState (h : Host) (now : ℤ) (rand : StateValue) (t : Tree P D) (r : Request P D) :
    Except CreateError Unit × Tree P D × Request P D :=
  if r.idle then (.ok (), t, { r with attached := none })
  else
    match stateEntryCreate h now rand t r.replyStates r.attached with
    | (.error e, reply, t) => (.error e, t, { r with attached := none, replyStates := reply })
    | (.ok entry, reply, t) =>
      let entry := { entry with
        seqStart := r.seqStart, ctx := some r.sessionState, data := r.persistent }
      (.ok (), { t with toExpire := t.toExpire ++ [entry] },
        { r with attached := none, replyStates := reply, sessionState := [], persistent := [] })

end Calls

section Runs

/-- A state tree and the requests that are alive. -/
structure System (P D : Type) where
  tree : Tree P D
  requests : List (Request P D)

/-- A call of the state tree for the request at a place of the list, or what the rest of the server
does between two calls: a request arrives, is processed in any way that leaves the attached entry
alone, or is freed. -/
inductive Step (P D : Type) where
  | requestToState (k : ℕ) (now : ℤ) (rand : StateValue)
  | stateToRequest (k : ℕ)
  | discard (k : ℕ)
  | arrive (r : Request P D)
  | process (k : ℕ) (r : Request P D)
  | finish (k : ℕ)

/-- The system after a call that changed the tree and the request at place `k`. -/
def System.update (s : System P D) (k : ℕ) (x : Tree P D × Request P D) : System P D :=
  { tree := x.1, requests := s.requests.set k x.2 }

def System.step (h : Host) (s : System P D) : Step P D → System P D
  | .requestToState k now rand =>
    match s.requests[k]? with
    | none => s
    | some r => s.update k (frRequestToState h now rand s.tree r).2
  | .stateToRequest k =>
    match s.requests[k]? with
    | none => s
    | some r => s.update k (frStateToRequest h s.tree r).2
  | .discard k =>
    match s.requests[k]? with
    | none => s
    | some r => s.update k (frStateDiscard h s.tree r)
  | .arrive r => { s with requests := s.requests ++ [{ r with attached := none }] }
  | .process k r' =>
    match s.requests[k]? with
    | none => s
    | some r => s.update k (s.tree, { r' with attached := r.attached })
  -- the attached entry is freed with the request
  | .finish k =>
    match s.requests[k]? with
    | none => s
    | some r =>
      { tree := if r.attached.isSome then stateEntryFree s.tree else s.tree
        requests := s.requests.eraseIdx k }

def System.run (h : Host) (s : System P D) (steps : List (Step P D)) : System P D :=
  steps.foldl (System.step h) s

def System.init (maxSessions : UInt32) (timeout : ℤ) (serverId : UInt8)
    (contextId : Fin 4 → UInt8) :
    System P D where
  tree :=
    { id := 0, timedOut := 0, maxSessions := maxSessions, usedSessions := 0, toExpire := [],
      timeout := timeout, serverId := serverId, contextId := contextId }
  requests := []

/-- A request as it arrives, with the `State` values of its packet, and what a policy has put into
its session state before the first call. -/
def Request.arriving (states : List (List UInt8)) (sessionState : List P) : Request P D :=
  { number := 1, seqStart := 0, sequence := 0, requestStates := states, replyStates := [],
    sessionState := sessionState, persistent := [], attached := none }

end Runs

end FreeRadius.SessionState
