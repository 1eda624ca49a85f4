import FreeRadius.Hash.Iteration
import FreeRadius.Rb.Runs

/-!
# The function table of `htrie.c`

An htrie is a store with the functions of its type. The stores here are hash
tables and red-black trees with nodes on the heap; both have the same functions,
under the same types.
-/

namespace FreeRadius.Htrie

open Library Hash Rb

/-- `fr_htrie_funcs_t` for a store `σ`. The functions that allocate get what
`talloc` returns, and those with loops their fuel. -/
structure FrHtrieFuncs (σ μ α : Type) where
  matchData : ℕ → σ → α → Option (σ × Option α)
  find : ℕ → σ → α → Option (σ × Option α)
  insert : μ → ℕ → σ → α → Option (σ × Bool)
  replace : μ → ℕ → σ → α → Option (σ × ℤ × Option α)
  remove : ℕ → σ → α → Option (σ × Option α)
  delete : ℕ → σ → α → Option (σ × Bool)
  numElements : σ → ℕ

/-- `fr_htrie_t`. -/
structure FrHtrie (σ μ α : Type) where
  store : σ
  funcs : FrHtrieFuncs σ μ α

variable {ι α : Type} [DecidableEq ι] (cmp : α → α → Ordering)

/-- `default_funcs[FR_HTRIE_HASH]`. -/
def hashFuncs (hash : α → UInt32) : FrHtrieFuncs (HashTable α) Mem α where
  matchData := fun _ => frHashTableFind cmp hash
  find := fun _ => frHashTableFind cmp hash
  insert := fun mem _ => frHashTableInsert cmp hash mem
  replace := fun mem _ => frHashTableReplace cmp hash mem
  remove := fun _ => frHashTableRemove cmp hash
  delete := fun _ => frHashTableDelete cmp hash
  numElements := frHashTableNumElements

/-- `fr_rb_find` leaves the tree as it is. -/
def rbFind (cb : Callbacks ι α) (fuel : ℕ) (t : FrRbTree ι α) (data : α) :
    Option (FrRbTree ι α × Option α) :=
  (frRbFind cb fuel t data).map fun x => (t, x)

/-- `default_funcs[FR_HTRIE_RB]`. -/
def rbFuncs (cb : Callbacks ι α) : FrHtrieFuncs (FrRbTree ι α) (Option ι) α where
  matchData := rbFind cb
  find := rbFind cb
  insert := frRbInsert cb
  replace := frRbReplace cb
  remove := frRbRemove cb
  delete := frRbDelete cb
  numElements := frRbNumElements

/-- `fr_htrie_alloc`, case `FR_HTRIE_HASH`. -/
def frHtrieAllocHash (hash : α → UInt32) : FrHtrie (HashTable α) Mem α :=
  ⟨frHashTableAlloc, hashFuncs cmp hash⟩

/-- The callbacks of the tree that `fr_rb_alloc` makes. -/
def rbCallbacks (dataFree : Bool) : Callbacks ι α :=
  ⟨cmp, .heapNode, dataFree⟩

/-- `fr_htrie_alloc`, case `FR_HTRIE_RB`. -/
def frHtrieAllocRb (dataFree : Bool) :
    FrHtrie (FrRbTree ι α) (Option ι) α :=
  ⟨frRbInit (rbCallbacks cmp dataFree), rbFuncs (rbCallbacks cmp dataFree)⟩

inductive Call (α : Type) where
  | matchData (data : α)
  | find (data : α)
  | insert (data : α)
  | replace (data : α)
  | remove (data : α)
  | delete (data : α)
  | numElements

/-- What a call returns. -/
inductive Answer (α : Type) where
  | data (x : Option α)
  | bool (b : Bool)
  | code (c : ℤ) (old : Option α)
  | count (n : ℕ)

variable {σ μ : Type}

/-- `fr_htrie_match`, `fr_htrie_find` and so on. -/
def FrHtrie.run (ht : FrHtrie σ μ α) (mem : μ) (fuel : ℕ) :
    Call α → Option (FrHtrie σ μ α × Answer α)
  | .matchData d => (ht.funcs.matchData fuel ht.store d).map fun (s, x) =>
      ({ ht with store := s }, .data x)
  | .find d => (ht.funcs.find fuel ht.store d).map fun (s, x) => ({ ht with store := s }, .data x)
  | .insert d => (ht.funcs.insert mem fuel ht.store d).map fun (s, b) =>
      ({ ht with store := s }, .bool b)
  | .replace d => (ht.funcs.replace mem fuel ht.store d).map fun (s, c, old) =>
      ({ ht with store := s }, .code c old)
  | .remove d => (ht.funcs.remove fuel ht.store d).map fun (s, x) =>
      ({ ht with store := s }, .data x)
  | .delete d => (ht.funcs.delete fuel ht.store d).map fun (s, b) =>
      ({ ht with store := s }, .bool b)
  | .numElements => some (ht, .count (ht.funcs.numElements ht.store))

end FreeRadius.Htrie
