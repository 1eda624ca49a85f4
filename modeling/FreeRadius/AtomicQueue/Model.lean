import Mathlib.Tactic.Linarith

/-!
# Atomic queues

`fr_atomic_queue_push` and `fr_atomic_queue_pop` as the atomic steps they
consist of, taken by any number of threads in any order. Memory is sequentially
consistent, and the counters do not overflow.
-/

namespace FreeRadius.AtomicQueue

variable {α τ : Type}

/-- `fr_atomic_queue_entry_t` -/
structure FrAtomicQueueEntry (α : Type) where
  seq : ℕ
  data : Option α

/-- `fr_atomic_queue_t` -/
structure FrAtomicQueue (α : Type) where
  head : ℕ
  tail : ℕ
  size : ℕ
  entry : ℕ → FrAtomicQueueEntry α

def frAtomicQueueAlloc (α : Type) (size : ℕ) : Option (FrAtomicQueue α) :=
  if size = 0 then none
  else some { head := 0, tail := 0, size := size, entry := fun i => ⟨i, none⟩ }

namespace FrAtomicQueue

/-- `&aq->entry[ ticket % aq->size ]` -/
def slot (aq : FrAtomicQueue α) (ticket : ℕ) : FrAtomicQueueEntry α := aq.entry (ticket % aq.size)

/-- `entry->data = data` -/
def setData (aq : FrAtomicQueue α) (ticket : ℕ) (data : Option α) : FrAtomicQueue α :=
  { aq with
    entry := Function.update aq.entry (ticket % aq.size) { aq.slot ticket with data := data } }

/-- `store(entry->seq, seq)` -/
def setSeq (aq : FrAtomicQueue α) (ticket seq : ℕ) : FrAtomicQueue α :=
  { aq with entry := Function.update aq.entry (ticket % aq.size) { aq.slot ticket with seq := seq } }

end FrAtomicQueue

/-- The atomic step that a thread takes next, with its local variables. -/
inductive Pc (α : Type) where
  | idle
  /-- `head = load(aq->head)` -/
  | pushLoad (data : α)
  /-- `seq = aquire(entry->seq)` and the tests of `diff` -/
  | pushSeq (data : α) (head : ℕ)
  /-- `cas_incr(aq->head, head)` -/
  | pushCas (data : α) (head : ℕ)
  /-- `entry->data = data` -/
  | pushData (data : α) (head : ℕ)
  /-- `store(entry->seq, head + 1)` -/
  | pushStore (data : α) (head : ℕ)
  /-- `tail = load(aq->tail)` -/
  | popLoad
  /-- `seq = aquire(entry->seq)` and the tests of `diff` -/
  | popSeq (tail : ℕ)
  /-- `cas_incr(aq->tail, tail)` -/
  | popCas (tail : ℕ)
  /-- `*p_data = entry->data` -/
  | popData (tail : ℕ)
  /-- `store(entry->seq, tail + aq->size)` -/
  | popStore (tail : ℕ) (data : Option α)

/-- What the steps of a run are recorded as. -/
inductive Event (α : Type) where
  /-- A push won its compare-and-swap. -/
  | pushWon (data : α)
  /-- A pop won its compare-and-swap with this ticket. -/
  | popWon (tail : ℕ)
  /-- A push with this ticket returned true. -/
  | pushed (head : ℕ) (data : α)
  /-- A pop with this ticket returned true and this data. -/
  | popped (tail : ℕ) (data : Option α)

/-- The next step of a thread. A compare-and-swap that fails loads the value
that is there into the local variable. -/
def advance (aq : FrAtomicQueue α) : Pc α → FrAtomicQueue α × Pc α × List (Event α)
  | .idle => (aq, .idle, [])
  | .pushLoad data => (aq, .pushSeq data aq.head, [])
  | .pushSeq data head =>
    let diff : ℤ := (aq.slot head).seq - head
    if diff < 0 then (aq, .idle, [])
    else if 0 < diff then (aq, .pushLoad data, [])
    else (aq, .pushCas data head, [])
  | .pushCas data head =>
    if aq.head = head then
      ({ aq with head := head + 1 }, .pushData data head, [.pushWon data])
    else (aq, .pushSeq data aq.head, [])
  | .pushData data head => (aq.setData head (some data), .pushStore data head, [])
  | .pushStore data head => (aq.setSeq head (head + 1), .idle, [.pushed head data])
  | .popLoad => (aq, .popSeq aq.tail, [])
  | .popSeq tail =>
    let diff : ℤ := (aq.slot tail).seq - (tail + 1)
    if diff < 0 then (aq, .idle, [])
    else if 0 < diff then (aq, .popLoad, [])
    else (aq, .popCas tail, [])
  | .popCas tail =>
    if aq.tail = tail then
      ({ aq with tail := tail + 1 }, .popData tail, [.popWon tail])
    else (aq, .popSeq aq.tail, [])
  | .popData tail => (aq, .popStore tail (aq.slot tail).data, [])
  | .popStore tail data => (aq.setSeq tail (tail + aq.size), .idle, [.popped tail data])

/-- A queue and the threads that use it, with a record of what happened. -/
structure State (τ α : Type) where
  aq : FrAtomicQueue α
  thread : τ → Pc α
  log : List (Event α)

/-- What can happen next: a thread calls one of the functions, where NULL is
`none`, or takes the next step in it. -/
inductive Action (τ α : Type) where
  | push (th : τ) (data : Option α)
  | pop (th : τ)
  | step (th : τ)

variable [DecidableEq τ]

def start (aq : FrAtomicQueue α) : State τ α := ⟨aq, fun _ => .idle, []⟩

def State.goto (s : State τ α) (th : τ) (pc : Pc α) : State τ α :=
  { s with thread := Function.update s.thread th pc }

/-- A thread that is in a call cannot make another one. Pushing NULL returns
false at once. -/
def act (s : State τ α) : Action τ α → State τ α
  | .push th data =>
    match s.thread th, data with
    | .idle, some data => s.goto th (.pushLoad data)
    | _, _ => s
  | .pop th =>
    match s.thread th with
    | .idle => s.goto th .popLoad
    | _ => s
  | .step th =>
    let (aq, pc, events) := advance s.aq (s.thread th)
    ⟨aq, Function.update s.thread th pc, s.log ++ events⟩

def run (s : State τ α) (actions : List (Action τ α)) : State τ α := actions.foldl act s

section Log

/-- The data of the pushes, in the order in which they won. -/
def pushWon : List (Event α) → List α :=
  List.filterMap fun | .pushWon data => some data | _ => none

/-- The tickets of the pops, in the order in which they won. -/
def popWon : List (Event α) → List ℕ :=
  List.filterMap fun | .popWon tail => some tail | _ => none

/-- The tickets and the data of the pushes that returned true. -/
def pushed : List (Event α) → List (ℕ × α) :=
  List.filterMap fun | .pushed head data => some (head, data) | _ => none

/-- The tickets of the pops that returned true, and what they returned. -/
def popped : List (Event α) → List (ℕ × Option α) :=
  List.filterMap fun | .popped tail data => some (tail, data) | _ => none

end Log

end FreeRadius.AtomicQueue
