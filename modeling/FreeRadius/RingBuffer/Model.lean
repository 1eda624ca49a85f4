import FreeRadius.Library.Word

/-!
# Ring buffers

The functions of `ring_buffer.c`. Pointers into the buffer are offsets, memory
is always granted, and the arithmetic of `size_t` is modulo 2^64. The assertions
that data in one piece ends at `write_offset` are left out.
-/

namespace FreeRadius.RingBuffer

open Library

/-- `fr_ring_buffer_t` -/
structure FrRingBuffer where
  size : ℕ
  dataStart : ℕ
  dataEnd : ℕ
  writeOffset : ℕ
  reserved : ℕ
  closed : Bool
  deriving DecidableEq, Repr

inductive RingError where
  /-- "Ring buffer size must be no more than (1 << 30)" -/
  | tooLarge
  /-- "Allocation request after ring buffer is closed" -/
  | closed
  /-- "No memory available in ring buffer" -/
  | noMemory
  /-- "Cannot free more memory than exists." -/
  | freeTooMuch
  deriving DecidableEq, Repr

/-- The next power of two, by setting all bits below the highest one. -/
def roundUp (size : ℕ) : ℕ :=
  let size := size - 1
  let size := size ||| size >>> 1
  let size := size ||| size >>> 2
  let size := size ||| size >>> 4
  let size := size ||| size >>> 8
  let size := size ||| size >>> 16
  size + 1

def frRingBufferCreate (size : ℕ) : Except RingError FrRingBuffer :=
  let size := if size < 1024 then 1024 else size
  if 2 ^ 30 < size then .error .tooLarge
  else .ok { size := roundUp size, dataStart := 0, dataEnd := 0, writeOffset := 0, reserved := 0,
             closed := false }

variable (rb : FrRingBuffer)

def frRingBufferReserve (size : ℕ) : FrRingBuffer × Except RingError ℕ :=
  if rb.closed then (rb, .error .closed)
  else if rb.writeOffset < rb.dataStart then
    if u64 (rb.writeOffset + size) < rb.dataStart then
      ({ rb with reserved := size }, .ok rb.writeOffset)
    else (rb, .error .noMemory)
  else if u64 (rb.writeOffset + size) ≤ rb.size then
    ({ rb with reserved := size }, .ok rb.writeOffset)
  else if size < rb.dataStart then
    ({ rb with writeOffset := 0, reserved := size }, .ok 0)
  else (rb, .error .noMemory)

/-- The reserved portion, without what is allocated now. -/
def shrinkReserved (size : ℕ) : FrRingBuffer :=
  { rb with reserved := if size ≤ rb.reserved then rb.reserved - size else 0 }

def frRingBufferAlloc (size : ℕ) : FrRingBuffer × Except RingError ℕ :=
  if rb.closed then (rb, .error .closed)
  else
    let rb := shrinkReserved rb size
    if rb.writeOffset < rb.dataStart then
      if u64 (rb.writeOffset + size) < rb.dataStart then
        ({ rb with writeOffset := u64 (rb.writeOffset + size) }, .ok rb.writeOffset)
      else (rb, .error .noMemory)
    else if u64 (rb.writeOffset + size) ≤ rb.size then
      ({ rb with writeOffset := u64 (rb.writeOffset + size),
                 dataEnd := u64 (rb.writeOffset + size) }, .ok rb.writeOffset)
    else if size < rb.dataStart then
      ({ rb with writeOffset := size }, .ok 0)
    else (rb, .error .noMemory)

/-- `data_end - data_start` -/
def blockSize : ℕ :=
  if rb.dataStart ≤ rb.dataEnd then rb.dataEnd - rb.dataStart else rb.dataEnd + 2 ^ 64 - rb.dataStart

/-- The label `empty_buffer`. A closed buffer frees itself. -/
def emptyBuffer : Option FrRingBuffer :=
  if rb.closed then none
  else some { rb with dataStart := 0, dataEnd := 0, writeOffset := 0 }

/-- What `fr_ring_buffer_free` does when the data is in one piece. -/
def freeLinear (sizeToFree : ℕ) : Option FrRingBuffer × Except RingError Unit :=
  if blockSize rb < sizeToFree then (some rb, .error .freeTooMuch)
  else if sizeToFree < blockSize rb then
    (some { rb with dataStart := u64 (rb.dataStart + sizeToFree) }, .ok ())
  else (emptyBuffer rb, .ok ())

/-- `fr_ring_buffer_free`; the buffer is gone if it was closed and is empty. -/
def frRingBufferFree (sizeToFree : ℕ) :
    Option FrRingBuffer × Except RingError Unit :=
  if sizeToFree = 0 then (some rb, .ok ())
  else if rb.writeOffset < rb.dataStart then
    if sizeToFree < blockSize rb then
      (some { rb with dataStart := u64 (rb.dataStart + sizeToFree) }, .ok ())
    else
      let sizeToFree := sizeToFree - blockSize rb
      let rb := { rb with dataStart := 0, dataEnd := rb.writeOffset }
      if sizeToFree = rb.writeOffset then (emptyBuffer rb, .ok ())
      else if sizeToFree = 0 then (some rb, .ok ())
      else freeLinear rb sizeToFree
  else freeLinear rb sizeToFree

def frRingBufferSize : ℕ := rb.size

def frRingBufferUsed : ℕ :=
  u64 ((if rb.writeOffset < rb.dataStart then rb.writeOffset else 0) + blockSize rb)

/-- `fr_ring_buffer_start`: the offset and the size of the data at the start. If
the data is in two pieces, the size is the one of the other piece. -/
def frRingBufferStart : ℕ × ℕ :=
  (rb.dataStart, if rb.writeOffset < rb.dataStart then rb.writeOffset else blockSize rb)

end FreeRadius.RingBuffer
