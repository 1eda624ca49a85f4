import FreeRadius.Library.Indexed
import FreeRadius.Library.Word

/-!
# Binary heap with stored indices

The heap of `heap.c`: an array of pointers to elements, counted from one, in
which every element also records the slot that holds it. The record lives
inside the element, so the array comes with the index field of every element.
A memory access that the C code may not make leaves no successor state.
-/

namespace FreeRadius.Heap

open Library

variable {α : Type} [DecidableEq α]

/-- `fr_heap_t`, without the talloc type and the offset of the index field.
`slots` is the array `p` with the `fr_heap_index_t` field of every element. -/
structure FrHeap (α : Type) where
  size : ℕ
  min : ℕ
  numElements : ℕ
  slots : Indexed α

/-- What the error buffer reports when an operation answers -1. -/
inductive HeapError (α : Type) where
  /-- "Node is already in the heap" -/
  | alreadyInHeap
  /-- "Heap is full" -/
  | heapFull
  /-- "Failed expanding heap to %u elements (%u bytes)" -/
  | reallocFailed (nSize bytes : ℕ)
  /-- "Heap parent (%u) out of bounds (0-%u)" -/
  | outOfBounds (parent numElements : ℕ)
  /-- "Invalid heap index.  Expected data %p at offset %u, got %p" -/
  | invalidIndex (data : α) (parent : ℕ) (found : α)

def initialCapacity : ℕ := 2048

/-- `FR_HEAP_INDEX_INVALID` -/
def indexInvalid : ℕ := 0

def heapParent (x : ℕ) : ℕ := x / 2
def heapLeft (x : ℕ) : ℕ := u32 (2 * x)

/-- `ROUND_UP_DIV(x, y)` for a positive `x`. -/
def roundUpDiv (x y : ℕ) : ℕ := 1 + (x - 1) / y

def frHeapEntryInserted (heapIdx : ℕ) : Bool := heapIdx ≠ indexInvalid

/-- `_fr_heap_alloc`, for elements that are in no heap yet. The sentinel
written to slot zero needs a first cell but is never an element. -/
def frHeapAlloc (init : ℕ) : Option (FrHeap α) :=
  let init := if init = 0 then initialCapacity else init
  let slots := u32 (init + 1)
  if 0 < slots then
    some { size := init, min := init, numElements := 0
           slots := { p := Block.alloc slots, index := fun _ => indexInvalid } }
  else none

/-- `realloc_heap`; `ok` is the outcome of the allocator. -/
def reallocHeap (ok : Bool) (s : FrHeap α) (nSize : ℕ) : FrHeap α × Except (HeapError α) Unit :=
  if ok then
    ({ s with size := nSize
              slots := { s.slots with p := s.slots.p.realloc (u32 (nSize + 1)) } }, .ok ())
  else (s, .error (.reallocFailed nSize (u32 (nSize * 8))))

variable (cmp : α → α → Ordering)

/-- The loop of `fr_heap_bubble`; the fuel bounds its iterations. -/
def bubbleLoop : ℕ → Indexed α → ℕ → Option (Indexed α)
  | 0, _, _ => none
  | fuel + 1, s, child =>
    if 1 < child then do
      let parent := heapParent child
      let a ← s.p.read parent
      let b ← s.p.read child
      if cmp a b = .lt then s.offsetSet child
      else do
        let s ← s.swap child parent
        let s ← s.offsetSet child
        bubbleLoop fuel s parent
    else s.offsetSet child

def frHeapBubble (s : Indexed α) (child : ℕ) : Option (Indexed α) :=
  if child = indexInvalid then some s else bubbleLoop cmp child s child

def expandedSize (size : ℕ) : Except (HeapError α) ℕ :=
  if uintMax - size < size then
    if size = uintMax then .error .heapFull else .ok uintMax
  else .ok (size * 2)

/-- The part of `fr_heap_insert` that runs once slot `child` is available. -/
def insertAt (s : FrHeap α) (child : ℕ) (data : α) :
    Option (FrHeap α × Except (HeapError α) Unit) := do
  let slots ← s.slots.setSlot child data
  let slots ← frHeapBubble cmp slots child
  some ({ s with numElements := u32 (s.numElements + 1), slots := slots }, .ok ())

def frHeapInsert (ok : Bool) (s : FrHeap α) (data : α) :
    Option (FrHeap α × Except (HeapError α) Unit) :=
  if frHeapEntryInserted (s.slots.index data) then some (s, .error .alreadyInHeap)
  else
    let child := u32 (s.numElements + 1)
    if s.size < child then
      match expandedSize s.size with
      | .error e => some (s, .error e)
      | .ok nSize =>
        match reallocHeap ok s nSize with
        | (_, .error e) => some (s, .error e)
        | (s, .ok ()) => insertAt cmp s child data
    else insertAt cmp s child data

/-- "Maybe take the right child." -/
def smallerChild (s : Indexed α) (max child : ℕ) : Option ℕ :=
  if child ≠ max then do
    let r ← s.p.read (child + 1)
    let l ← s.p.read child
    some (if cmp r l = .lt then child + 1 else child)
  else some child

/-- The loop of `fr_heap_extract` that sinks the hole at `parent`. -/
def sinkLoop (max : ℕ) : ℕ → Indexed α → ℕ → Option (Indexed α × ℕ)
  | 0, _, _ => none
  | fuel + 1, s, parent =>
    if heapLeft parent ≤ max then do
      let child ← smallerChild cmp s max (heapLeft parent)
      let x ← s.p.read child
      let s ← s.setSlot parent x
      let s ← s.offsetSet parent
      sinkLoop max fuel s child
    else some (s, parent)

/-- The shrinking reallocation of `fr_heap_extract`. -/
def shrink (ok : Bool) (s : FrHeap α) : FrHeap α :=
  if u32 (s.numElements * 2) < s.size then
    let nSize := roundUpDiv s.size 2
    if s.min < nSize then (reallocHeap ok s nSize).1 else s
  else s

/-- The end of `fr_heap_extract`: the hole, unless it is the last slot, is
filled from slot `max` of the array as the reallocation left it. -/
def fillHole (s : Indexed α) (max parent : ℕ) : Option (Indexed α) :=
  if parent ≠ max then do
    let x ← s.p.read max
    let s ← s.setSlot parent x
    frHeapBubble cmp s parent
  else some s

def frHeapExtract (ok : Bool) (s : FrHeap α) (data : α) :
    Option (FrHeap α × Except (HeapError α) Unit) :=
  let parent := s.slots.index data
  if parent = 0 ∨ s.numElements < parent then
    some (s, .error (.outOfBounds parent s.numElements))
  else do
    let x ← s.slots.p.read parent
    if data ≠ x then some (s, .error (.invalidIndex data parent x))
    else do
      let max := s.numElements
      let slots ← s.slots.offsetReset parent
      let (slots, parent) ← sinkLoop cmp max (max + 1) slots parent
      let s := shrink ok { s with numElements := s.numElements - 1, slots := slots }
      let slots ← fillHole cmp s.slots max parent
      some ({ s with slots := slots }, .ok ())

/-- `NULL` is `none`. -/
def frHeapPop (ok : Bool) (s : FrHeap α) : Option (FrHeap α × Option α) :=
  if s.numElements = 0 then some (s, none)
  else do
    let data ← s.slots.p.read 1
    match ← frHeapExtract cmp ok s data with
    | (s, .error _) => some (s, none)
    | (s, .ok ()) => some (s, some data)

/-! ## Runs -/

inductive Op (α : Type) where
  | insert (data : α)
  | extract (data : α)
  | pop

inductive Result (α : Type) where
  | code (r : Except (HeapError α) Unit)
  | data (r : Option α)

/-- One call, with the allocator's answer should the call ask for memory. -/
def step (ok : Bool) (s : FrHeap α) : Op α → Option (FrHeap α × Result α)
  | .insert data => (frHeapInsert cmp ok s data).map fun (s, r) => (s, .code r)
  | .extract data => (frHeapExtract cmp ok s data).map fun (s, r) => (s, .code r)
  | .pop => (frHeapPop cmp ok s).map fun (s, r) => (s, .data r)

/-- The states of the runs in which the heap never holds 2^31 elements. -/
inductive Reachable : FrHeap α → Prop
  | alloc {init : ℕ} {s : FrHeap α} : init < 2 ^ 32 → frHeapAlloc init = some s → Reachable s
  | step {s s' : FrHeap α} {ok : Bool} {op : Op α} {r : Result α} :
      Reachable s → step cmp ok s op = some (s', r) → s'.numElements < 2 ^ 31 → Reachable s'

end FreeRadius.Heap
