import FreeRadius.Library.Indexed
import FreeRadius.Library.Word

/-!
# Min-max heap with stored indices

The heap of `minmax_heap.c`: slots are counted from one, every element records
the slot that holds it, and the levels of the tree alternate between levels
whose elements come before everything below them and levels whose elements
come after it. A memory access that the C code may not make leaves no successor
state. The functions for min levels and for max levels are the same up to the
results of the comparator they look for, so each pair is one definition that
takes the result `win` under which an element belongs above another one.
-/

namespace FreeRadius.MinmaxHeap

open Library

variable {α : Type} [DecidableEq α]

/-- `struct fr_minmax_heap_s`, without the talloc type and the offset of the
index field. `slots` is the array `p` with the index field of every element. -/
structure FrMinmaxHeap (α : Type) where
  size : ℕ
  numElements : ℕ
  slots : Indexed α

/-- What the error buffer reports when an operation answers -1. -/
inductive HeapError where
  /-- "Node is already in a heap" -/
  | alreadyInHeap
  /-- "Heap is full" -/
  | heapFull
  /-- "Failed expanding heap to %u elements (%zu bytes)" -/
  | reallocFailed (nSize bytes : ℕ)
  /-- "data (index %u) exceeds heap size %u" -/
  | exceedsSize (idx numElements : ℕ)
  /-- "data (index %u) not in heap" -/
  | notInHeap (idx : ℕ)

def initialCapacity : ℕ := 2048

def heapParent (x : ℕ) : ℕ := x / 2
def heapGrandparent (x : ℕ) : ℕ := heapParent (heapParent x)
def heapLeft (x : ℕ) : ℕ := u32 (2 * x)
def heapRight (x : ℕ) : ℕ := u32 (2 * x + 1)

/-- The position of the highest bit set, counted from one. -/
def frHighBitPos (num : ℕ) : ℕ := if num = 0 then 0 else Nat.log2 num + 1

def depth (i : ℕ) : ℕ := frHighBitPos i - 1

def isMinLevelIndex (i : ℕ) : Bool := depth i % 2 = 0
def isMaxLevelIndex (i : ℕ) : Bool := !isMinLevelIndex i

def isDescendant (candidate ancestor : ℕ) : Bool :=
  if depth candidate < depth ancestor then false
  else
    let levelMin := u32 (2 ^ (depth candidate - depth ancestor))
    u32 (candidate + 2 ^ 32 - levelMin) < levelMin

def frMinmaxHeapEntryInserted (heapIdx : ℕ) : Bool := 0 < heapIdx

/-- `_fr_minmax_heap_alloc`, for elements that are in no heap yet. The sentinel
written to slot zero needs a first cell but is never an element. -/
def frMinmaxHeapAlloc (init : ℕ) : Option (FrMinmaxHeap α) :=
  let init := if init = 0 then initialCapacity else init
  let slots := u32 (init + 1)
  if 0 < slots then
    some { size := init, numElements := 0
           slots := { p := Block.alloc slots, index := fun _ => 0 } }
  else none

/-- `minmax_heap_expand`; `ok` is the outcome of the allocator. -/
def minmaxHeapExpand (ok : Bool) (h : FrMinmaxHeap α) : Except HeapError (FrMinmaxHeap α) :=
  if uintMax - h.size < h.size ∧ h.size = uintMax then .error .heapFull
  else
    let nSize := if uintMax - h.size < h.size then uintMax else 2 * h.size
    if ok then
      .ok { h with size := nSize, slots := { h.slots with p := h.slots.p.realloc (nSize + 1) } }
    else .error (.reallocFailed nSize (nSize * 8))

def hasChildren (numElements idx : ℕ) : Bool := heapLeft idx ≤ numElements

def hasGrandchildren (numElements i : ℕ) : Bool := heapLeft (heapLeft i) ≤ numElements

/-- The levels whose elements `win` does not put above others. -/
def isOtherLevelIndex : Ordering → ℕ → Bool
  | .lt, i => isMaxLevelIndex i
  | _, i => isMinLevelIndex i

variable (cmp : α → α → Ordering)

/-- The loop over the grandchildren `i, i + 1, ..`; `best` is the slot to beat. -/
def scan (win : Ordering) (s : Indexed α) : ℕ → ℕ → ℕ → Option ℕ
  | 0, _, best => some best
  | count + 1, i, best => do
    let a ← s.p.read i
    let b ← s.p.read best
    scan win s count (i + 1) (if cmp a b = win then i else best)

def childOrGrandchild (win : Ordering) (s : Indexed α) (numElements idx : ℕ) : Option ℕ :=
  if isOtherLevelIndex win idx || !hasGrandchildren numElements idx then
    let best := heapLeft idx
    let upb := heapRight idx
    if upb ≤ numElements then do
      let a ← s.p.read upb
      let b ← s.p.read best
      some (if cmp a b = win then upb else best)
    else some best
  else
    -- the best one is a grandchild, unless the right child is childless
    let best := if !hasChildren numElements (heapRight idx) then heapRight idx
      else heapLeft (heapLeft idx)
    let lwb := if !hasChildren numElements (heapRight idx) then heapLeft (heapLeft idx)
      else heapLeft (heapLeft idx) + 1
    let upb := heapRight (heapRight idx)
    let upb := if numElements < upb then numElements else upb
    scan cmp win s (upb + 1 - lwb) lwb best

def minChildOrGrandchild : Indexed α → ℕ → ℕ → Option ℕ := childOrGrandchild cmp .lt
def maxChildOrGrandchild : Indexed α → ℕ → ℕ → Option ℕ := childOrGrandchild cmp .gt

/-- "The entry now at m may belong where the parent is." -/
def moveToParent (win : Ordering) (s : Indexed α) (idx m : ℕ) : Option (Indexed α) :=
  if heapGrandparent m = idx then do
    let a ← s.p.read m
    let b ← s.p.read (heapParent m)
    if cmp a b = win.swap then do
      let s ← s.swap (heapParent m) m
      s.offsetSet (heapParent m)
    else some s
  else some s

/-- The loop of `push_down_min` and `push_down_max`, with fuel. -/
def pushDownLoop (win : Ordering) (numElements : ℕ) :
    ℕ → Indexed α → ℕ → Option (Indexed α)
  | 0, _, _ => none
  | fuel + 1, s, idx =>
    if hasChildren numElements idx then do
      let m ← childOrGrandchild cmp win s numElements idx
      let a ← s.p.read m
      let b ← s.p.read idx
      if cmp a b = win then do
        let s ← s.swap idx m
        let s ← s.offsetSet idx
        let s ← moveToParent cmp win s idx m
        pushDownLoop win numElements fuel s m
      else s.offsetSet idx
    else s.offsetSet idx

def pushDownMin (s : Indexed α) (numElements idx : ℕ) : Option (Indexed α) :=
  pushDownLoop cmp .lt numElements (numElements + 1) s idx

def pushDownMax (s : Indexed α) (numElements idx : ℕ) : Option (Indexed α) :=
  pushDownLoop cmp .gt numElements (numElements + 1) s idx

def pushDown (s : Indexed α) (numElements idx : ℕ) : Option (Indexed α) :=
  if isMinLevelIndex idx then pushDownMin cmp s numElements idx
  else pushDownMax cmp s numElements idx

/-- The loop of `push_up_min` and `push_up_max`, with fuel. -/
def pushUpLoop (win : Ordering) : ℕ → Indexed α → ℕ → Option (Indexed α)
  | 0, _, _ => none
  | fuel + 1, s, idx =>
    let grandparent := heapGrandparent idx
    if 0 < grandparent then do
      let a ← s.p.read idx
      let b ← s.p.read grandparent
      if cmp a b = win then do
        let s ← s.swap idx grandparent
        let s ← s.offsetSet idx
        pushUpLoop win fuel s grandparent
      else s.offsetSet idx
    else s.offsetSet idx

def pushUpMin (s : Indexed α) (idx : ℕ) : Option (Indexed α) := pushUpLoop cmp .lt (idx + 1) s idx
def pushUpMax (s : Indexed α) (idx : ℕ) : Option (Indexed α) := pushUpLoop cmp .gt (idx + 1) s idx

def pushUp (s : Indexed α) (idx : ℕ) : Option (Indexed α) :=
  if idx = 1 then s.offsetSet idx
  else do
    let parent := heapParent idx
    let a ← s.p.read idx
    let b ← s.p.read parent
    let order := cmp a b
    if isMinLevelIndex idx then
      if order = .gt then do
        let s ← s.swap idx parent
        let s ← s.offsetSet idx
        pushUpMax cmp s parent
      else pushUpMin cmp s idx
    else
      if order = .lt then do
        let s ← s.swap idx parent
        let s ← s.offsetSet idx
        pushUpMin cmp s parent
      else pushUpMax cmp s idx

/-- The part of `fr_minmax_heap_insert` that runs once slot `child` is there. -/
def insertAt (h : FrMinmaxHeap α) (child : ℕ) (data : α) :
    Option (FrMinmaxHeap α × Except HeapError Unit) := do
  let slots ← h.slots.setSlot child data
  let slots ← pushUp cmp slots child
  some ({ h with numElements := u32 (h.numElements + 1), slots := slots }, .ok ())

def frMinmaxHeapInsert (ok : Bool) (h : FrMinmaxHeap α) (data : α) :
    Option (FrMinmaxHeap α × Except HeapError Unit) :=
  if frMinmaxHeapEntryInserted (h.slots.index data) then some (h, .error .alreadyInHeap)
  else
    let child := u32 (h.numElements + 1)
    if h.size < child then
      match minmaxHeapExpand ok h with
      | .error e => some (h, .error e)
      | .ok h => insertAt cmp h child data
    else insertAt cmp h child data

/-- "If the new position is the root, that's as far up as it gets." Otherwise
the entry is pushed up, unless it was below its new position before. -/
def pushUpOffRoot (s : Indexed α) (numElements idx : ℕ) : Option (Indexed α) :=
  if 1 < idx ∧ isDescendant numElements idx = false then pushUp cmp s idx else some s

def frMinmaxHeapExtract (h : FrMinmaxHeap α) (data : α) :
    Option (FrMinmaxHeap α × Except HeapError Unit) :=
  let idx := h.slots.index data
  if h.numElements < idx then some (h, .error (.exceedsSize idx h.numElements))
  else if !frMinmaxHeapEntryInserted idx then some (h, .error (.notInHeap idx))
  else do
    let x ← h.slots.p.read idx
    if x ≠ data then some (h, .error (.notInHeap idx))
    else do
      let slots ← h.slots.offsetReset idx
      if h.numElements = idx then
        some ({ h with numElements := h.numElements - 1, slots := slots }, .ok ())
      else do
        let last ← slots.p.read h.numElements
        let slots ← slots.setSlot idx last
        let numElements := h.numElements - 1
        let slots ← pushUpOffRoot cmp slots numElements idx
        let slots ← pushDown cmp slots numElements idx
        some ({ h with numElements := numElements, slots := slots }, .ok ())

/-- `NULL` is `none` in the results of the peeks and pops. -/
def frMinmaxHeapMinPeek (h : FrMinmaxHeap α) : Option (Option α) :=
  if h.numElements = 0 then some none
  else do
    let x ← h.slots.p.read 1
    some (some x)

def frMinmaxHeapMaxPeek (h : FrMinmaxHeap α) : Option (Option α) :=
  if h.numElements = 0 then some none
  else if h.numElements < 3 then do
    let x ← h.slots.p.read h.numElements
    some (some x)
  else do
    let a ← h.slots.p.read 2
    let b ← h.slots.p.read 3
    let x ← h.slots.p.read (2 + if cmp a b = .lt then 1 else 0)
    some (some x)

/-- The two pops: what the peek shows is extracted. -/
def popWith (peek : FrMinmaxHeap α → Option (Option α)) (h : FrMinmaxHeap α) :
    Option (FrMinmaxHeap α × Option α) := do
  match ← peek h with
  | none => some (h, none)
  | some data =>
    match ← frMinmaxHeapExtract cmp h data with
    | (h, .error _) => some (h, none)
    | (h, .ok ()) => some (h, some data)

def frMinmaxHeapMinPop (h : FrMinmaxHeap α) : Option (FrMinmaxHeap α × Option α) :=
  popWith cmp frMinmaxHeapMinPeek h

def frMinmaxHeapMaxPop (h : FrMinmaxHeap α) : Option (FrMinmaxHeap α × Option α) :=
  popWith cmp (frMinmaxHeapMaxPeek cmp) h

/-! ## Runs -/

inductive Op (α : Type) where
  | insert (data : α)
  | extract (data : α)
  | minPop
  | maxPop
  | minPeek
  | maxPeek

inductive Result (α : Type) where
  | code (r : Except HeapError Unit)
  | data (r : Option α)

/-- One call, with the allocator's answer should the call ask for memory. -/
def step (ok : Bool) (h : FrMinmaxHeap α) : Op α → Option (FrMinmaxHeap α × Result α)
  | .insert data => (frMinmaxHeapInsert cmp ok h data).map fun (h, r) => (h, .code r)
  | .extract data => (frMinmaxHeapExtract cmp h data).map fun (h, r) => (h, .code r)
  | .minPop => (frMinmaxHeapMinPop cmp h).map fun (h, r) => (h, .data r)
  | .maxPop => (frMinmaxHeapMaxPop cmp h).map fun (h, r) => (h, .data r)
  | .minPeek => (frMinmaxHeapMinPeek h).map fun r => (h, .data r)
  | .maxPeek => (frMinmaxHeapMaxPeek cmp h).map fun r => (h, .data r)

/-- The states of the runs in which the heap never holds 2^30 elements. -/
inductive Reachable : FrMinmaxHeap α → Prop
  | alloc {init : ℕ} {h : FrMinmaxHeap α} :
      init < 2 ^ 32 → frMinmaxHeapAlloc init = some h → Reachable h
  | step {h h' : FrMinmaxHeap α} {ok : Bool} {op : Op α} {r : Result α} :
      Reachable h → step cmp ok h op = some (h', r) → h'.numElements < 2 ^ 30 → Reachable h'

end FreeRadius.MinmaxHeap
