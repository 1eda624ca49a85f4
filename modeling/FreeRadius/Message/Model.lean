import FreeRadius.RingBuffer.Model
import FreeRadius.Library.Compact

/-!
# Message sets

The functions of `message.c`. A message set keeps the headers of its messages in
one array of ring buffers and their data in another one.

A function returns `none` if the process ends: an `fr_assert` does not hold, and
the server has not been built with `NDEBUG`, or a null pointer or a ring buffer
that has been freed is passed to a function of `ring_buffer.c`. Memory is always
granted, at an address that is not used again, and is zero.
-/

namespace FreeRadius.Message

open Library RingBuffer

abbrev Addr := ℕ

/-- A pointer to a message: the ring buffer that its header is in, and the offset
there. -/
abbrev MsgPtr := Addr × ℕ

/-- `fr_message_status_t` -/
inductive FrMessageStatus where
  | free
  | used
  | localized
  | done
  deriving DecidableEq, Repr

/-- `fr_message_t`; `data` is an offset in the ring buffer `rb`. -/
structure FrMessage where
  status : FrMessageStatus
  rb : Option Addr
  data : Option ℕ
  dataSize : ℕ
  rbSize : ℕ
  deriving DecidableEq, Repr

def FrMessage.zero : FrMessage := ⟨.free, none, none, 0, 0⟩

def sizeofFrMessage : ℕ := 48

def msgArraySize : ℕ := 16

def cacheAlign (x : ℕ) : ℕ := u64 (x + 63) / 64 * 64

inductive MessageError where
  /-- "Number of messages must be a power of 2" -/
  | notPowerOfTwo
  /-- "Message size must be at least %zd" -/
  | tooSmall
  /-- "Message size must be no larger than 1024" -/
  | tooLarge
  /-- "Cannot reserve %zd > max allocation %zd" -/
  | maxAllocation (reserveSize maxAllocation : ℕ)
  /-- "No free memory after GC attempt" -/
  | noFreeMemory
  /-- "All message arrays are full" -/
  | messageArraysFull
  /-- "Message arrays are full" -/
  | arraysFull
  /-- "Failed allocating ring buffer", on top of the error of the ring buffer -/
  | noRingBuffer (e : RingError)
  /-- "Failed allocating from ring buffer", on top of the error of the ring buffer -/
  | notAllocated (e : RingError)
  | ringBuffer (e : RingError)
  deriving DecidableEq, Repr

/-- `fr_assert`, which is empty if `NDEBUG` is defined -/
def frAssert (ndebug : Bool) (p : Prop) [Decidable p] : Option Unit :=
  if ndebug ∨ p then some () else none

section Rings

/-- A ring buffer. The messages that have their header, or their data, in it are
a history variable: the oldest one is first. -/
structure Ring where
  rb : FrRingBuffer
  held : List MsgPtr
  deriving DecidableEq, Repr

/-- An array of ring buffers (`mr_current`, `mr_max` and `mr_array`, or
`rb_current`, `rb_max` and `rb_array`), with the memory that it points to. -/
structure Rings where
  current : ℕ
  max : ℕ
  array : ℕ → Option Addr
  ring : Addr → Option Ring
  fresh : Addr

namespace Rings

variable (R : Rings)

def put (a : Addr) (r : Option Ring) : Rings := { R with ring := Function.update R.ring a r }

def single (rb : FrRingBuffer) : Rings where
  current := 0
  max := 0
  array := Function.update (fun _ => none) 0 (some 0)
  ring := Function.update (fun _ => none) 0 (some ⟨rb, []⟩)
  fresh := 1

/-- `fr_ring_buffer_alloc` for a message, which may depend on the offset. -/
def alloc (a : Addr) (size : ℕ) (owner : ℕ → MsgPtr) : Option (Rings × Except RingError ℕ) := do
  let r ← R.ring a
  match frRingBufferAlloc r.rb size with
  | (rb, .ok offset) => some (R.put a (some ⟨rb, r.held ++ [owner offset]⟩), .ok offset)
  | (rb, .error e) => some (R.put a (some ⟨rb, r.held⟩), .error e)

/-- `fr_ring_buffer_reserve` -/
def reserve (a : Addr) (size : ℕ) : Option (Rings × Except RingError ℕ) := do
  let r ← R.ring a
  let (rb, result) := frRingBufferReserve r.rb size
  some (R.put a (some ⟨rb, r.held⟩), result)

/-- `fr_ring_buffer_free`, which is meant for the oldest message. -/
def free (a : Addr) (size : ℕ) : Option (Rings × Except RingError Unit) := do
  let r ← R.ring a
  let (rb, result) := frRingBufferFree r.rb size
  some (R.put a (rb.map fun rb => ⟨rb, r.held.tail⟩), result)

/-- The loop of `fr_message_gc` that keeps the two largest buffers and frees all
smaller ones which are empty, from index `i - 1` down. The last component is
`arrays_freed`. -/
def freeEmpty (ndebug : Bool) (R : Rings) : ℕ → ℕ → Option (Rings × ℕ)
  | 0, _ => some (R, 0)
  | i + 1, arraysUsed => do
    frAssert ndebug (R.array i).isSome
    if arraysUsed < 2 then freeEmpty ndebug R i (arraysUsed + 1)
    else
      let a ← R.array i
      let r ← R.ring a
      if frRingBufferUsed r.rb = 0 then
        let R := { R.put a none with array := Function.update R.array i none }
        let (R, freed) ← freeEmpty ndebug R i arraysUsed
        some (R, freed + 1)
      else freeEmpty ndebug R i arraysUsed

/-- What `fr_message_gc` does to both arrays: free empty buffers, and pack the
array if there were any. -/
def coalesce (ndebug : Bool) : Option Rings := do
  let (R, freed) ← R.freeEmpty ndebug (R.max + 1) 0
  if freed = 0 then some R
  else
    let array := pack (R.max + 1) R.array
    let max := R.max - freed
    frAssert ndebug ((List.range (max + 1)).all fun i => (array i).isSome)
    some { R with current := max, max := max, array := array }

/-- The bytes that are not used in the buffer at index `i`. -/
def freeSize (i : ℕ) : Option ℕ := do
  let a ← R.array i
  let r ← R.ring a
  some (u64 (frRingBufferSize r.rb + 2 ^ 64 - frRingBufferUsed r.rb))

/-- The loop of `fr_message_gc` that looks for the largest free space. -/
def largestFree : List ℕ → ℕ × ℕ → Option ℕ
  | [], (slot, _) => some slot
  | i :: is, (slot, size) => do
    let free ← R.freeSize i
    largestFree is (if size < free then (i, free) else (slot, size))

/-- A new buffer, of double the size of the last one, which becomes the current
one. -/
def double : Option (Except RingError Rings) := do
  let a ← R.array R.max
  let r ← R.ring a
  match frRingBufferCreate (frRingBufferSize r.rb * 2) with
  | .error e => some (.error e)
  | .ok rb => some (.ok
    { current := R.max + 1
      max := R.max + 1
      array := Function.update R.array (R.max + 1) (some R.fresh)
      ring := Function.update R.ring R.fresh (some ⟨rb, []⟩)
      fresh := R.fresh + 1 })

end Rings

end Rings

/-- `fr_message_set_t` with the memory that it uses. -/
structure FrMessageSet where
  ndebug : Bool
  messageSize : ℕ
  maxAllocation : ℕ
  mr : Rings
  rb : Rings
  msg : MsgPtr → FrMessage
  /-- Freeing the data of a message has failed. -/
  failed : Bool

def FrMessageSet.setMsg (ms : FrMessageSet) (m : MsgPtr) (msg : FrMessage) : FrMessageSet :=
  { ms with msg := Function.update ms.msg m msg }

def frMessageSetCreate (ndebug : Bool) (numMessages : ℤ) (messageSize ringBufferSize : ℕ) :
    Except MessageError FrMessageSet :=
  let numMessages := if numMessages < 8 then 8 else numMessages.toNat
  if numMessages &&& (numMessages - 1) ≠ 0 then .error .notPowerOfTwo
  else if messageSize < sizeofFrMessage then .error .tooSmall
  else if 1024 < messageSize then .error .tooLarge
  else
    let messageSize := cacheAlign messageSize
    match frRingBufferCreate ringBufferSize, frRingBufferCreate (numMessages * messageSize) with
    | .error e, _ => .error (.ringBuffer e)
    | .ok _, .error e => .error (.ringBuffer e)
    | .ok rb, .ok mr => .ok
      { ndebug := ndebug
        messageSize := messageSize
        maxAllocation := ringBufferSize / 2
        mr := .single mr
        rb := .single rb
        msg := fun _ => .zero
        failed := false }

/-- `fr_message_done`. A localized message is not in the set. -/
def frMessageDone (ms : FrMessageSet) (m : MsgPtr) : Option FrMessageSet := do
  frAssert ms.ndebug ((ms.msg m).status ≠ .free ∧ (ms.msg m).status ≠ .done)
  some (if (ms.msg m).status = .used then ms.setMsg m { ms.msg m with status := .done } else ms)

section Collect

def freeData (ms : FrMessageSet) (m : MsgPtr) : Option FrMessageSet :=
  let msg := { ms.msg m with status := .free }
  match msg.rb with
  | none => some (ms.setMsg m msg)
  | some a => do
    let (rb, result) ← ms.rb.free a msg.rbSize
    some { ms.setMsg m (if ms.ndebug then msg else .zero) with
      rb := rb
      failed := ms.failed || !result.isOk }

/-- `fr_message_ring_gc`, which returns the number of messages that it cleaned.
The loop ends when that number is `max_to_clean`. -/
def frMessageRingGc (ms : FrMessageSet) (mr : Addr) : ℕ → Option (FrMessageSet × ℕ)
  | 0 => some (ms, 0)
  | maxToClean + 1 => do
    let r ← ms.mr.ring mr
    let (start, size) := frRingBufferStart r.rb
    if size = 0 then some (ms, 0)
    else
      frAssert ms.ndebug (ms.messageSize ≤ size ∧ (ms.msg (mr, start)).status ≠ .free)
      if (ms.msg (mr, start)).status ≠ .done then some (ms, 0)
      else
        let ms ← freeData ms (mr, start)
        let (rings, _) ← ms.mr.free mr ms.messageSize
        let (ms, cleaned) ← frMessageRingGc { ms with mr := rings } mr maxToClean
        some (ms, cleaned + 1)

/-- The loop of `fr_message_gc` over the message rings with these indexes. -/
def sweep (ms : FrMessageSet) (maxToClean : ℕ) : List ℕ → ℕ → Option (FrMessageSet × ℕ)
  | [], total => some (ms, total)
  | i :: is, total => do
    let mr ← ms.mr.array i
    let (ms, cleaned) ← frMessageRingGc ms mr (maxToClean - total)
    if total + cleaned = maxToClean then some (ms, total + cleaned)
    else sweep ms maxToClean is (total + cleaned)

def frMessageGc (ms : FrMessageSet) (maxToClean : ℕ) : Option FrMessageSet := do
  let (ms, total) ← sweep ms maxToClean (List.range (ms.mr.max + 1)) 0
  if total = 0 then some ms
  else
    let mr ← ms.mr.coalesce ms.ndebug
    let rb ← ms.rb.coalesce ms.ndebug
    frAssert ms.ndebug (rb.array rb.max).isSome
    if (rb.array rb.max).isNone then some { ms with mr := mr, rb := rb }
    else
      let free ← rb.freeSize rb.max
      let slot ← rb.largestFree (List.range rb.max) (rb.max, free)
      frAssert ms.ndebug (slot ≤ rb.max)
      some { ms with mr := mr, rb := { rb with current := slot } }

end Collect

section Headers

/-- A message from a message ring. Apart from its status it is zero, or as it was
left there. -/
def allocHeader (ms : FrMessageSet) (zero : Bool) (mr : Addr) :
    Option (FrMessageSet × Except MessageError MsgPtr) := do
  let (rings, result) ← ms.mr.alloc mr ms.messageSize fun offset => (mr, offset)
  match result with
  | .error e => some ({ ms with mr := rings }, .error (.ringBuffer e))
  | .ok offset =>
    let msg := if zero then FrMessage.zero else ms.msg (mr, offset)
    some ({ ms with mr := rings }.setMsg (mr, offset) { msg with status := .used },
      .ok (mr, offset))

def frMessageRingAlloc (ms : FrMessageSet) (mr : Addr) (clean : Bool) :
    Option (FrMessageSet × Except MessageError MsgPtr) :=
  if clean then do
    let (ms, cleaned) ← frMessageRingGc ms mr 4
    if cleaned = 0 then some (ms, .error .noFreeMemory) else allocHeader ms (!ms.ndebug) mr
  else allocHeader ms (!ms.ndebug) mr

/-- The loop of `fr_message_get_message` over all arrays, from index `i - 1` down. -/
def anyMessageRing (ms : FrMessageSet) : ℕ → Option (FrMessageSet × Option MsgPtr)
  | 0 => some (ms, none)
  | i + 1 => do
    let mr ← ms.mr.array i
    let (ms, m) ← frMessageRingAlloc ms mr true
    match m with
    | .ok m => some ({ ms with mr := { ms.mr with current := i } }, some m)
    | .error _ => anyMessageRing ms i

/-- Another message ring, and a message from it. -/
def newMessageRing (ms : FrMessageSet) : Option (FrMessageSet × Except MessageError MsgPtr) :=
  if msgArraySize ≤ ms.mr.max + 1 then some (ms, .error .messageArraysFull)
  else do
    match ← ms.mr.double with
    | .error e => some (ms, .error (.noRingBuffer e))
    | .ok rings =>
      let mr ← rings.array rings.max
      frMessageRingAlloc { ms with mr := rings } mr false

/-- `fr_message_get_message`, with the flag `p_cleaned`. -/
def frMessageGetMessage (ms : FrMessageSet) :
    Option (FrMessageSet × Bool × Except MessageError MsgPtr) := do
  let mr ← ms.mr.array ms.mr.current
  let (ms, m) ← allocHeader ms true mr
  match m with
  | .ok m => some (ms, false, .ok m)
  | .error _ =>
    let ms ← frMessageGc ms 128
    let mr ← ms.mr.array ms.mr.current
    let (ms, m) ← frMessageRingAlloc ms mr true
    match m with
    | .ok m => some (ms, true, .ok m)
    | .error _ =>
      let (ms, m) ← anyMessageRing ms (ms.mr.max + 1)
      match m with
      | some m => some (ms, true, .ok m)
      | none =>
        let (ms, m) ← newMessageRing ms
        some (ms, true, m)

end Headers

section Data

variable (ms : FrMessageSet) (m : MsgPtr)

/-- Set `rb`, and `data` to what `fr_ring_buffer_reserve` returns. -/
def reserveIn (a : Addr) : Option (FrMessageSet × Bool) := do
  let (rings, result) ← ms.rb.reserve a (ms.msg m).rbSize
  let ms := { ms with rb := rings }
  match result with
  | .ok offset => some (ms.setMsg m { ms.msg m with rb := some a, data := some offset }, true)
  | .error _ => some (ms.setMsg m { ms.msg m with rb := some a, data := none }, false)

def reserveCurrent : Option (FrMessageSet × Bool) := do
  let a ← ms.rb.array ms.rb.current
  reserveIn ms m a

/-- The loop of `fr_message_get_ring_buffer` over all arrays, from index `i - 1`
down. -/
def anyRingBuffer (ms : FrMessageSet) (m : MsgPtr) : ℕ → Option (FrMessageSet × Bool)
  | 0 => some (ms, false)
  | i + 1 => do
    let a ← ms.rb.array i
    let (ms, reserved) ← reserveIn ms m a
    if reserved then some ({ ms with rb := { ms.rb with current := i } }, true)
    else anyRingBuffer ms m i

/-- The label `cleanup`. -/
def cleanup : FrMessageSet :=
  ms.setMsg m { ms.msg m with rb := none, status := .done }

/-- The label `alloc_rb`. -/
def allocRb :
    Option (FrMessageSet × Except MessageError MsgPtr) := do
  match ← ms.rb.double with
  | .error e => some (cleanup ms m, .error (.noRingBuffer e))
  | .ok rings =>
    let (ms, reserved) ← reserveCurrent { ms with rb := rings } m
    if reserved then some (ms, .ok m)
    else some (cleanup ms m, .error (.ringBuffer .noMemory))

/-- What `fr_message_get_ring_buffer` does if the current ring buffer is full. -/
def bruteForce :
    Option (FrMessageSet × Except MessageError MsgPtr) := do
  let (ms, reserved) ← anyRingBuffer ms m (ms.rb.max + 1)
  if reserved then some (ms, .ok m)
  else if msgArraySize ≤ ms.rb.max + 1 then some (cleanup ms m, .error .arraysFull)
  else allocRb ms m

def frMessageGetRingBuffer (cleanedUp : Bool) :
    Option (FrMessageSet × Except MessageError MsgPtr) := do
  let (ms, reserved) ← reserveCurrent ms m
  if reserved then some (ms, .ok m)
  else if cleanedUp then bruteForce ms m
  else if ms.rb.max = 0 then allocRb ms m
  else
    let ms ← frMessageGc ms 128
    let (ms, reserved) ← reserveCurrent ms m
    if reserved then some (ms, .ok m) else bruteForce ms m

def frMessageReserve (reserveSize : ℕ) :
    Option (FrMessageSet × Except MessageError MsgPtr) :=
  if ms.maxAllocation < reserveSize then
    some (ms, .error (.maxAllocation reserveSize ms.maxAllocation))
  else do
    let (ms, cleanedUp, m) ← frMessageGetMessage ms
    match m with
    | .error e => some (ms, .error e)
    | .ok m =>
      if reserveSize = 0 then some (ms, .ok m)
      else
        let ms := ms.setMsg m { ms.msg m with rbSize := cacheAlign reserveSize }
        frMessageGetRingBuffer ms m cleanedUp

/-- The data of a reserved message is allocated, where it was reserved. -/
def allocData (actualPacketSize : ℕ) : Option (FrMessageSet × Except MessageError MsgPtr) := do
  let a ← (ms.msg m).rb
  let size := cacheAlign actualPacketSize
  let (rings, result) ← ms.rb.alloc a size fun _ => m
  let ms := { ms with rb := rings }
  match result with
  | .error e =>
    frAssert ms.ndebug False
    some (ms, .error (.notAllocated e))
  | .ok p =>
    frAssert ms.ndebug ((ms.msg m).data = some p)
    some (ms.setMsg m { ms.msg m with dataSize := actualPacketSize, rbSize := size }, .ok m)

/-- `fr_message_alloc` of a reserved message. -/
def allocReserved (actualPacketSize : ℕ) : Option (FrMessageSet × Except MessageError MsgPtr) := do
  let msg := ms.msg m
  frAssert ms.ndebug (msg.status = .used ∧ msg.rb.isSome ∧ msg.data.isSome ∧ msg.dataSize = 0 ∧
    actualPacketSize ≤ msg.rbSize)
  if actualPacketSize = 0 then
    some (ms.setMsg m { msg with data := none, rb := none, dataSize := 0, rbSize := 0 }, .ok m)
  else allocData ms m actualPacketSize

/-- `fr_message_alloc`; without a message, one is reserved first. -/
def frMessageAlloc (m : Option MsgPtr) (actualPacketSize : ℕ) :
    Option (FrMessageSet × Except MessageError MsgPtr) :=
  match m with
  | some m => allocReserved ms m actualPacketSize
  | none => do
    let (ms, m) ← frMessageReserve ms actualPacketSize
    match m with
    | .error e => some (ms, .error e)
    | .ok m => allocReserved ms m actualPacketSize

/-- `m->rb_size = m_rb_size` -/
def restore (rbSize : ℕ) : FrMessageSet := ms.setMsg m { ms.msg m with rbSize := rbSize }

/-- What `fr_message_alloc_reserve` does with the bytes that are left over: they
go to a new message, behind the ones of the old message or to another place. -/
def moveLeftover (m m₂ : MsgPtr) (mRbSize : ℕ) :
    Option (FrMessageSet × Except MessageError MsgPtr) := do
  let a ← (ms.msg m₂).rb
  let (ms, reserved) ← reserveIn ms m₂ a
  if reserved then some (ms, .ok m₂)
  else
    let (ms, result) ← frMessageGetRingBuffer ms m₂ false
    match result with
    | .error e => some (restore ms m mRbSize, .error e)
    | .ok _ =>
      if (ms.msg m₂).rb ≠ (ms.msg m).rb then some (restore ms m mRbSize, .ok m₂)
      else if (ms.msg m₂).data.getD 0 < (ms.msg m).data.getD 0 then
        some (restore ms m mRbSize, .ok m₂)
      else some (ms, .ok m₂)

/-- The bytes that `fr_message_alloc_reserve` reserves for the next packet: there is
room to shift it, so that it is aligned. -/
def nextSize (actualPacketSize reserveSize : ℕ) : ℕ :=
  let padding := u64 (cacheAlign actualPacketSize + 2 ^ 64 - actualPacketSize)
  cacheAlign (u64 (reserveSize + padding))

def frMessageAllocReserve
    (actualPacketSize leftover reserveSize : ℕ) :
    Option (FrMessageSet × Except MessageError MsgPtr) := do
  let msg := ms.msg m
  frAssert ms.ndebug (msg.status = .used ∧ msg.rb.isSome ∧ msg.data.isSome ∧
    actualPacketSize ≤ msg.rbSize)
  let (ms, result) ← allocData ms m actualPacketSize
  match result with
  | .error e => some (ms, .error e)
  | .ok _ =>
    if leftover = 0 then frMessageReserve ms reserveSize
    else
      let (ms, _, m₂) ← frMessageGetMessage ms
      match m₂ with
      | .error e => some (ms, .error e)
      | .ok m₂ =>
        let ms := ms.setMsg m₂ { ms.msg m₂ with
          rb := (ms.msg m).rb
          dataSize := leftover
          rbSize := nextSize actualPacketSize reserveSize }
        moveLeftover ms m m₂ msg.rbSize

end Data

end FreeRadius.Message
