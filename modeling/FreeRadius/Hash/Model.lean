import FreeRadius.Library.Word

/-!
# Hash table with lazily split buckets

The table of `hash.c`. A chain is the list of its nodes, ended by the sentinel
`&ht->null`; a bucket that was never used is `NULL`, which is not the empty
chain. A pointer to a node of a chain is the split of the chain at that node.
An operation without a result is one that does not return.
-/

namespace FreeRadius.Hash

open Library

/-- `struct fr_hash_entry_s`; `next` is the rest of the chain. -/
structure Entry (α : Type) where
  reversed : ℕ
  key : ℕ
  data : α

/-- `struct fr_hash_table_s`, without the callbacks and the talloc type. -/
structure HashTable (α : Type) where
  numElements : ℕ
  numBuckets : ℕ
  nextGrow : ℕ
  mask : ℕ
  buckets : ℕ → Option (List (Entry α))

/-- What the allocator answers while one call runs. `talloc_realloc` refuses
arrays of `MAX_TALLOC_SIZE` (256 MiB) or more, that is of 2^25 pointers. -/
structure Mem where
  node : Bool
  realloc : ℕ → Bool
  realloc_limit : ∀ n, realloc n = true → n < 2 ^ 25

/-- An allocator that grants every request it may grant. -/
def Mem.full : Mem := ⟨true, fun n => decide (n < 2 ^ 25), fun _ h => of_decide_eq_true h⟩

def frHashNumBuckets : ℕ := 64

def growFactor : ℕ := 2

def reversedByte : List ℕ :=
  [0, 128, 64, 192, 32, 160, 96, 224, 16, 144, 80, 208, 48, 176, 112, 240,
    8, 136, 72, 200, 40, 168, 104, 232, 24, 152, 88, 216, 56, 184, 120, 248,
    4, 132, 68, 196, 36, 164, 100, 228, 20, 148, 84, 212, 52, 180, 116, 244,
    12, 140, 76, 204, 44, 172, 108, 236, 28, 156, 92, 220, 60, 188, 124, 252,
    2, 130, 66, 194, 34, 162, 98, 226, 18, 146, 82, 210, 50, 178, 114, 242,
    10, 138, 74, 202, 42, 170, 106, 234, 26, 154, 90, 218, 58, 186, 122, 250,
    6, 134, 70, 198, 38, 166, 102, 230, 22, 150, 86, 214, 54, 182, 118, 246,
    14, 142, 78, 206, 46, 174, 110, 238, 30, 158, 94, 222, 62, 190, 126, 254,
    1, 129, 65, 193, 33, 161, 97, 225, 17, 145, 81, 209, 49, 177, 113, 241,
    9, 137, 73, 201, 41, 169, 105, 233, 25, 153, 89, 217, 57, 185, 121, 249,
    5, 133, 69, 197, 37, 165, 101, 229, 21, 149, 85, 213, 53, 181, 117, 245,
    13, 141, 77, 205, 45, 173, 109, 237, 29, 157, 93, 221, 61, 189, 125, 253,
    3, 131, 67, 195, 35, 163, 99, 227, 19, 147, 83, 211, 51, 179, 115, 243,
    11, 139, 75, 203, 43, 171, 107, 235, 27, 155, 91, 219, 59, 187, 123, 251,
    7, 135, 71, 199, 39, 167, 103, 231, 23, 151, 87, 215, 55, 183, 119, 247,
    15, 143, 79, 207, 47, 175, 111, 239, 31, 159, 95, 223, 63, 191, 127, 255]

def parentByte : List ℕ :=
  [0, 0, 0, 1, 0, 1, 2, 3, 0, 1, 2, 3, 4, 5, 6, 7,
    0, 1, 2, 3, 4, 5, 6, 7, 8, 9, 10, 11, 12, 13, 14, 15,
    0, 1, 2, 3, 4, 5, 6, 7, 8, 9, 10, 11, 12, 13, 14, 15,
    16, 17, 18, 19, 20, 21, 22, 23, 24, 25, 26, 27, 28, 29, 30, 31,
    0, 1, 2, 3, 4, 5, 6, 7, 8, 9, 10, 11, 12, 13, 14, 15,
    16, 17, 18, 19, 20, 21, 22, 23, 24, 25, 26, 27, 28, 29, 30, 31,
    32, 33, 34, 35, 36, 37, 38, 39, 40, 41, 42, 43, 44, 45, 46, 47,
    48, 49, 50, 51, 52, 53, 54, 55, 56, 57, 58, 59, 60, 61, 62, 63,
    0, 1, 2, 3, 4, 5, 6, 7, 8, 9, 10, 11, 12, 13, 14, 15,
    16, 17, 18, 19, 20, 21, 22, 23, 24, 25, 26, 27, 28, 29, 30, 31,
    32, 33, 34, 35, 36, 37, 38, 39, 40, 41, 42, 43, 44, 45, 46, 47,
    48, 49, 50, 51, 52, 53, 54, 55, 56, 57, 58, 59, 60, 61, 62, 63,
    64, 65, 66, 67, 68, 69, 70, 71, 72, 73, 74, 75, 76, 77, 78, 79,
    80, 81, 82, 83, 84, 85, 86, 87, 88, 89, 90, 91, 92, 93, 94, 95,
    96, 97, 98, 99, 100, 101, 102, 103, 104, 105, 106, 107, 108, 109, 110, 111,
    112, 113, 114, 115, 116, 117, 118, 119, 120, 121, 122, 123, 124, 125, 126, 127]

/-- "Reverse a key." -/
def reverse (key : ℕ) : ℕ :=
  reversedByte.getD (key &&& 0xff) 0 <<< 24 ||| reversedByte.getD ((key >>> 8) &&& 0xff) 0 <<< 16 |||
    reversedByte.getD ((key >>> 16) &&& 0xff) 0 <<< 8 ||| reversedByte.getD ((key >>> 24) &&& 0xff) 0

/-- "Take the parent by discarding the highest bit that is set." -/
def parentOf (key : ℕ) : ℕ :=
  if key > 0x00ffffff then (key &&& 0x00ffffff) ||| parentByte.getD (key >>> 24) 0 <<< 24
  else if key > 0x0000ffff then (key &&& 0x0000ffff) ||| parentByte.getD (key >>> 16) 0 <<< 16
  else if key > 0x000000ff then (key &&& 0x000000ff) ||| parentByte.getD (key >>> 8) 0 <<< 8
  else parentByte.getD key 0

/-- A node of a chain, with the nodes before and after it. -/
structure Cursor (α : Type) where
  before : List (Entry α)
  node : Entry α
  after : List (Entry α)

variable {α : Type}

def Cursor.push (cur : Entry α) (c : Cursor α) : Cursor α := { c with before := cur :: c.before }

/-- The whole chain, with another node in the place of the one pointed to. -/
def Cursor.put (c : Cursor α) (node : Entry α) : List (Entry α) := c.before ++ node :: c.after

/-- A missing comparator is one that always answers zero. -/
def listFind (cmp : α → α → Ordering) (reversed : ℕ) (data : α) : List (Entry α) → Option (Cursor α)
  | [] => none
  | cur :: next =>
    if cur.reversed = reversed then
      match cmp data cur.data with
      | .gt => none
      | .lt => (listFind cmp reversed data next).map (Cursor.push cur)
      | .eq => some ⟨[], cur, next⟩
    else if cur.reversed > reversed then none
    else (listFind cmp reversed data next).map (Cursor.push cur)

/-- "Inserts a new entry into the list, in order." The answer false is `none`.
The insertion point moves behind `cur` before the data are compared. -/
def listInsert (cmp : α → α → Ordering) (node : Entry α) :
    List (Entry α) → Option (List (Entry α))
  | [] => some [node]
  | cur :: next =>
    if cur.reversed > node.reversed then some (node :: cur :: next)
    else if cur.reversed = node.reversed then
      match cmp node.data cur.data with
      | .gt => some (cur :: node :: next)
      | .lt => (listInsert cmp node next).map (cur :: ·)
      | .eq => none
    else (listInsert cmp node next).map (cur :: ·)

/-- "Delete an entry from the list." -/
def listDelete (c : Cursor α) : List (Entry α) := c.before ++ c.after

def setBucket (t : HashTable α) (i : ℕ) (chain : List (Entry α)) : HashTable α :=
  { t with buckets := Function.update t.buckets i (some chain) }

def frHashTableAlloc : HashTable α where
  numElements := 0
  numBuckets := frHashNumBuckets
  nextGrow := frHashNumBuckets <<< 1 + frHashNumBuckets >>> 1
  mask := frHashNumBuckets - 1
  buckets := Function.update (fun _ => none) 0 (some [])

/-- The loop of `fr_hash_table_fixup`. The chain of bucket `this` is `seen`
followed by the nodes still to visit; where the masked key changes it is cut
and the rest becomes the chain of another bucket. -/
def splitLoop (mask : ℕ) : (ℕ → Option (List (Entry α))) → ℕ → List (Entry α) →
    List (Entry α) → (ℕ → Option (List (Entry α)))
  | buckets, _, _, [] => buckets
  | buckets, this, seen, cur :: next =>
    let realEntry := cur.key &&& mask
    if realEntry ≠ this then
      let buckets := Function.update buckets this (some seen)
      let buckets := Function.update buckets realEntry (some (cur :: next))
      splitLoop mask buckets realEntry [cur] next
    else splitLoop mask buckets this (seen ++ [cur]) next

/-- `fr_hash_table_fixup` once the parent's bucket is initialised. -/
def splitParent (t : HashTable α) (parentEntry entry : ℕ) : Option (HashTable α) := do
  let chain ← t.buckets parentEntry
  let t := { t with buckets := splitLoop t.mask t.buckets parentEntry [] chain }
  some (if (t.buckets entry).isNone then setBucket t entry [] else t)

/-- "If the current bucket is uninitialized, initialize it by recursively
copying information from the parent." The fuel bounds the recursion. -/
def frHashTableFixup : ℕ → HashTable α → ℕ → Option (HashTable α)
  | 0, _, _ => none
  | fuel + 1, t, entry =>
    let parentEntry := parentOf entry
    match t.buckets parentEntry with
    | none => (frHashTableFixup fuel t parentEntry).bind fun t => splitParent t parentEntry entry
    | some _ => splitParent t parentEntry entry

/-- The use of a bucket, with the call of `fr_hash_table_fixup` that comes
before it. A key has 32 bits, and every turn of the recursion clears one. -/
def useBucket (t : HashTable α) (entry : ℕ) : Option (HashTable α × List (Entry α)) :=
  match t.buckets entry with
  | some chain => some (t, chain)
  | none => do
    let t ← frHashTableFixup 33 t entry
    let chain ← t.buckets entry
    some (t, chain)

/-- "Grow the hash table." The new buckets are `NULL`. -/
def frHashTableGrow (mem : Mem) (t : HashTable α) : HashTable α :=
  let count := u32 (growFactor * t.numBuckets)
  if mem.realloc count then
    { t with
      buckets := fun i => if i < t.numBuckets then t.buckets i else none
      numBuckets := count
      nextGrow := u32 (t.nextGrow * growFactor)
      mask := u32 (count + 2 ^ 32 - 1) }
  else t

variable (cmp : α → α → Ordering) (hash : α → UInt32)

def hashTableFind (t : HashTable α) (key : ℕ) (data : α) :
    Option (HashTable α × Option (Cursor α)) := do
  let entry := key &&& t.mask
  let reversed := reverse key
  let (t, chain) ← useBucket t entry
  some (t, listFind cmp reversed data chain)

/-- `NULL` is `none` in the results of find and remove. -/
def frHashTableFind (t : HashTable α) (data : α) : Option (HashTable α × Option α) := do
  let (t, c) ← hashTableFind cmp t (hash data).toNat data
  some (t, c.map fun c => c.node.data)

def frHashTableInsert (mem : Mem) (t : HashTable α) (data : α) :
    Option (HashTable α × Bool) := do
  let key := (hash data).toNat
  let entry := key &&& t.mask
  let reversed := reverse key
  let (t, chain) ← useBucket t entry
  if mem.node then
    let node : Entry α := { reversed := reversed, key := key, data := data }
    match listInsert cmp node chain with
    | none => some (t, false)
    | some chain =>
      let t := { setBucket t entry chain with numElements := u32 (t.numElements + 1) }
      some (if t.numElements ≥ t.nextGrow then frHashTableGrow mem t else t, true)
  else some (t, false)

/-- The answers are the code and the old data. -/
def frHashTableReplace (mem : Mem) (t : HashTable α) (data : α) :
    Option (HashTable α × ℤ × Option α) := do
  let key := (hash data).toNat
  let entry := key &&& t.mask
  let (t, c) ← hashTableFind cmp t key data
  match c with
  | none => do
    let (t, inserted) ← frHashTableInsert cmp hash mem t data
    some (t, if inserted then 1 else -1, none)
  | some c =>
    some (setBucket t entry (c.put { c.node with data := data }), 0, some c.node.data)

def frHashTableRemove (t : HashTable α) (data : α) : Option (HashTable α × Option α) := do
  let key := (hash data).toNat
  let entry := key &&& t.mask
  let reversed := reverse key
  let (t, chain) ← useBucket t entry
  match listFind cmp reversed data chain with
  | none => some (t, none)
  | some c =>
    let t := { setBucket t entry (listDelete c) with numElements := u32 (t.numElements + 2 ^ 32 - 1) }
    some (t, some c.node.data)

/-- The data that is removed is the business of the free callback. -/
def frHashTableDelete (t : HashTable α) (data : α) : Option (HashTable α × Bool) := do
  let (t, old) ← frHashTableRemove cmp hash t data
  some (t, old.isSome)

def frHashTableNumElements (t : HashTable α) : ℕ := t.numElements

/-- `fr_hash_iter_t`; `node` is the chain from the node to visit next. -/
structure HashIter (α : Type) where
  bucket : ℕ
  node : List (Entry α)

/-- "We might have to go through multiple empty buckets." -/
def iterLoop : HashTable α → ℕ → Option (HashTable α × HashIter α × Option α)
  | t, 0 => do
    match ← useBucket t 0 with
    | (t, node :: next) => some (t, ⟨0, next⟩, some node.data)
    | (t, []) => some (t, ⟨0, []⟩, none)
  | t, i + 1 => do
    match ← useBucket t (i + 1) with
    | (t, node :: next) => some (t, ⟨i + 1, next⟩, some node.data)
    | (t, []) => iterLoop t i

def frHashTableIterNext (t : HashTable α) (iter : HashIter α) :
    Option (HashTable α × HashIter α × Option α) :=
  match iter.node with
  | node :: next => some (t, { iter with node := next }, some node.data)
  | [] => if iter.bucket = 0 then some (t, iter, none) else iterLoop t (iter.bucket - 1)

def frHashTableIterInit (t : HashTable α) : Option (HashTable α × HashIter α × Option α) :=
  frHashTableIterNext t ⟨t.numBuckets, []⟩

end FreeRadius.Hash
