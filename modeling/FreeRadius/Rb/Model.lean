import FreeRadius.Library.Fuel
import FreeRadius.Library.RedBlack
import FreeRadius.Library.Word

/-!
# Red-black trees of `rb.c`

The nodes are objects in memory that point to each other. All leaves, and the
parent of the root, are one shared sentinel, `NIL`, which is only ever read. A
step that would write to the sentinel, or touch an object that is not there, has
no result. The branches of the source that are mirror images of each other are
one definition with a side.
-/

namespace FreeRadius.Rb

open Library Library.RedBlack

/-- A `fr_rb_node_t *`; the nodes are named by `ι`. -/
inductive Ptr (ι : Type) where
  | null
  | nil
  | node (i : ι)
  deriving DecidableEq

/-- `fr_rb_node_t`. -/
structure Node (ι α : Type) where
  left : Ptr ι
  right : Ptr ι
  parent : Ptr ι
  data : Option α
  colour : Colour
  beingFreed : Bool

variable {ι α : Type}

def sentinel : Node ι α := ⟨.nil, .nil, .null, none, .black, false⟩

def zeroNode : Node ι α := ⟨.null, .null, .null, none, .black, false⟩

def Node.child (s : Side) (n : Node ι α) : Ptr ι :=
  match s with
  | .left => n.left
  | .right => n.right

def Node.withChild (s : Side) (n : Node ι α) (p : Ptr ι) : Node ι α :=
  match s with
  | .left => { n with left := p }
  | .right => { n with right := p }

/-- `node_alloc` and `node_free`: the node is a part of the data, so that
different data has different nodes, or an object of its own. -/
inductive NodeAlloc (ι α : Type) where
  | inlineNode (node : α ↪ ι)
  | heapNode

/-- The callbacks of a tree. -/
structure Callbacks (ι α : Type) where
  dataCmp : α → α → Ordering
  nodeAlloc : NodeAlloc ι α
  /-- whether there is a `data_free` -/
  dataFree : Bool

/-- `fr_rb_tree_t`, and the node objects in memory. -/
structure FrRbTree (ι α : Type) where
  root : Ptr ι
  numElements : ℕ
  nodes : ι → Option (Node ι α)

/-! ## Access to nodes -/

variable (t : FrRbTree ι α)

def FrRbTree.get : Ptr ι → Option (Node ι α)
  | .null => none
  | .nil => some sentinel
  | .node i => t.nodes i

def FrRbTree.child (t : FrRbTree ι α) (s : Side) (p : Ptr ι) : Option (Ptr ι) :=
  (t.get p).map (·.child s)

def FrRbTree.parent (t : FrRbTree ι α) (p : Ptr ι) : Option (Ptr ι) := (t.get p).map (·.parent)

def FrRbTree.colour (t : FrRbTree ι α) (p : Ptr ι) : Option Colour := (t.get p).map (·.colour)

variable [DecidableEq ι]

def FrRbTree.put (i : ι) (n : Node ι α) : FrRbTree ι α :=
  { t with nodes := Function.update t.nodes i (some n) }

def FrRbTree.modify (p : Ptr ι) (f : Node ι α → Node ι α) :
    Option (FrRbTree ι α) :=
  match p with
  | .node i => (t.nodes i).map fun n => t.put i (f n)
  | _ => none

def FrRbTree.setChild (s : Side) (p q : Ptr ι) : Option (FrRbTree ι α) :=
  t.modify p fun n => n.withChild s q

def FrRbTree.setParent (p q : Ptr ι) : Option (FrRbTree ι α) :=
  t.modify p fun n => { n with parent := q }

def FrRbTree.setColour (p : Ptr ι) (c : Colour) : Option (FrRbTree ι α) :=
  t.modify p fun n => { n with colour := c }

/-- `if (p != NIL) p->parent = q`. -/
def FrRbTree.setParentUnlessNil (p q : Ptr ι) : Option (FrRbTree ι α) :=
  if p = .nil then some t else t.setParent p q

/-- `if (p != NIL) p->colour = c`. -/
def FrRbTree.setColourUnlessNil (p : Ptr ι) (c : Colour) :
    Option (FrRbTree ι α) :=
  if p = .nil then some t else t.setColour p c

/-! ## Rotations -/

/-- `y` takes the place of `x` below `parent`, or as the root. The child on side
`s` is looked at first. -/
def relink (s : Side) (t : FrRbTree ι α) (x parent y : Ptr ι) : Option (FrRbTree ι α) :=
  if parent = .nil then some { t with root := y }
  else do
    let child ← t.child s parent
    if child = x then t.setChild s parent y else t.setChild s.other parent y

def rotate (s : Side) (t : FrRbTree ι α) (x : Ptr ι) : Option (FrRbTree ι α) := do
  let y ← t.child s.other x
  let b ← t.child s y
  let t ← t.setChild s.other x b
  let t ← t.setParentUnlessNil b x
  let parent ← t.parent x
  let t ← t.setParentUnlessNil y parent
  let t ← relink s t x parent y
  let t ← t.setChild s y x
  t.setParentUnlessNil x y

def rotateLeft (x : Ptr ι) : Option (FrRbTree ι α) := rotate .left t x

def rotateRight (x : Ptr ι) : Option (FrRbTree ι α) := rotate .right t x

/-! ## Insertion -/

/-- "make x a left child" -/
def insertTurn (s : Side) (t : FrRbTree ι α) (x : Ptr ι) : Option (FrRbTree ι α × Ptr ι) := do
  let parent ← t.parent x
  let inner ← t.child s.other parent
  if x = inner then do
    let t ← rotate s t parent
    some (t, parent)
  else some (t, x)

/-- The body of the loop of `insert_fixup`, with the parent of `x` on side `s`
of its own parent. -/
def insertFixupStep (s : Side) (t : FrRbTree ι α) (x : Ptr ι) :
    Option (FrRbTree ι α × Ptr ι) := do
  let parent ← t.parent x
  let grandparent ← t.parent parent
  let y ← t.child s.other grandparent
  let uncle ← t.colour y
  if uncle = .red then do
    let t ← t.setColour parent .black
    let t ← t.setColour y .black
    let t ← t.setColour grandparent .red
    some (t, grandparent)
  else do
    let (t, x) ← insertTurn s t x
    let parent ← t.parent x
    let t ← t.setColour parent .black
    let grandparent ← t.parent parent
    let t ← t.setColour grandparent .red
    let t ← rotate s.other t grandparent
    some (t, x)

/-- The condition of the loop: the side of the red parent of `x`, if it has one. -/
def redParent (x : Ptr ι) : Option (Option Side) :=
  if x = t.root then some none
  else do
    let parent ← t.parent x
    let colour ← t.colour parent
    if colour = .red then do
      let grandparent ← t.parent parent
      let left ← t.child .left grandparent
      some (some (if parent = left then .left else .right))
    else some none

def insertFixup : ℕ → FrRbTree ι α → Ptr ι → Option (FrRbTree ι α)
  | 0, _, _ => none
  | fuel + 1, t, x => do
    match ← redParent t x with
    | none => t.setColour t.root .black
    | some s => do
      let (t, x) ← insertFixupStep s t x
      insertFixup fuel t x

/-- The search of `insert_node`: where the data is, or `NIL`, and the node it was
reached from. -/
def insertSearch (cb : Callbacks ι α) (data : α) :
    ℕ → FrRbTree ι α → Ptr ι → Ptr ι → Option (Ptr ι × Ptr ι)
  | 0, _, _, _ => none
  | fuel + 1, t, current, parent =>
    if current = .nil then some (.nil, parent)
    else do
      let n ← t.get current
      let x ← n.data
      match cb.dataCmp data x with
      | .eq => some (current, parent)
      | .lt => insertSearch cb data fuel t n.left current
      | .gt => insertSearch cb data fuel t n.right current

/-- `node_alloc`; for nodes on the heap `fresh` is what `talloc_zero` returns. -/
def nodeAlloc (cb : Callbacks ι α) (fresh : Option ι) (t : FrRbTree ι α) (data : α) :
    FrRbTree ι α × Ptr ι :=
  match cb.nodeAlloc with
  | .inlineNode node => (t, .node (node data))
  | .heapNode =>
    match fresh with
    | none => (t, .null)
    | some i => (t.put i zeroNode, .node i)

variable (cb : Callbacks ι α)

/-- "insert node in tree" -/
def insertLink (t : FrRbTree ι α) (data : α) (parent x : Ptr ι) :
    Option (FrRbTree ι α) :=
  if parent = .nil then some { t with root := x }
  else do
    let n ← t.get parent
    let d ← n.data
    t.setChild (if (cb.dataCmp data d).isLE then .left else .right) parent x

/-- `insert_node`: 1 and the node if there is one already, 0 if the data was
inserted, -1 if there is no memory. -/
def insertNode (fresh : Option ι) (fuel : ℕ) (t : FrRbTree ι α) (data : α) :
    Option (FrRbTree ι α × ℤ × Ptr ι) := do
  let (current, parent) ← insertSearch cb data fuel t t.root .nil
  if current ≠ .nil then some (t, 1, current)
  else do
    let (t, x) := nodeAlloc cb fresh t data
    if x = .null then some (t, -1, .nil)
    else do
      let t ← t.modify x fun _ => ⟨.nil, .nil, parent, some data, .red, false⟩
      let t ← insertLink cb t data parent x
      let t ← insertFixup fuel t x
      some ({ t with numElements := u32 (t.numElements + 1) }, 0, .nil)

/-! ## Deletion -/

/-- A red sibling `w` of the child on side `s` of `parent` is rotated away. -/
def deleteRedSibling (s : Side) (t : FrRbTree ι α) (parent w : Ptr ι) :
    Option (FrRbTree ι α × Ptr ι) := do
  let colour ← t.colour w
  if colour = .red then do
    let t ← t.setColour w .black
    let t ← t.setColour parent .red
    let t ← rotate s t parent
    let w ← t.child s.other parent
    some (t, w)
  else some (t, w)

/-- A sibling `w` whose outer child is black gets a red one. -/
def deleteInnerRed (s : Side) (t : FrRbTree ι α) (parent w : Ptr ι) :
    Option (FrRbTree ι α × Ptr ι) := do
  let outer ← t.child s.other w
  let colour ← t.colour outer
  if colour = .black then do
    let inner ← t.child s w
    let t ← t.setColourUnlessNil inner .black
    let t ← t.setColour w .red
    let t ← rotate s.other t w
    let w ← t.child s.other parent
    some (t, w)
  else some (t, w)

/-- `if (w->right->colour != BLACK) w->right->colour = BLACK`. -/
def blackenOuter (s : Side) (t : FrRbTree ι α) (w : Ptr ι) : Option (FrRbTree ι α) := do
  let outer ← t.child s.other w
  let colour ← t.colour outer
  if colour ≠ .black then t.setColour outer .black else some t

/-- The body of the loop of `delete_fixup`, with `x` on side `s` of `parent`. -/
def deleteFixupStep (s : Side) (t : FrRbTree ι α) (parent : Ptr ι) :
    Option (FrRbTree ι α × Ptr ι × Ptr ι) := do
  let w ← t.child s.other parent
  let (t, w) ← deleteRedSibling s t parent w
  let inner ← t.child s w
  let innerColour ← t.colour inner
  let outer ← t.child s.other w
  let outerColour ← t.colour outer
  if innerColour = .black ∧ outerColour = .black then do
    let t ← t.setColourUnlessNil w .red
    let up ← t.parent parent
    some (t, parent, up)
  else do
    let (t, w) ← deleteInnerRed s t parent w
    let colour ← t.colour parent
    let t ← t.setColour w colour
    let t ← t.setColourUnlessNil parent .black
    let t ← blackenOuter s t w
    let t ← rotate s t parent
    some (t, t.root, parent)

def deleteFixup : ℕ → FrRbTree ι α → Ptr ι → Ptr ι → Option (FrRbTree ι α)
  | 0, _, _, _ => none
  | fuel + 1, t, x, parent => do
    let colour ← t.colour x
    if x ≠ t.root ∧ colour = .black then do
      let left ← t.child .left parent
      let (t, x, parent) ← deleteFixupStep (if x = left then .left else .right) t parent
      deleteFixup fuel t x parent
    else t.setColourUnlessNil x .black

/-- `while (y->left != NIL) y = y->left`. -/
def leftmost : ℕ → FrRbTree ι α → Ptr ι → Option (Ptr ι)
  | 0, _, _ => none
  | fuel + 1, t, y => do
    let left ← t.child .left y
    if left ≠ .nil then leftmost fuel t left else some y

/-- The node that is taken out of the parent chain to delete `z`. -/
def deleteTarget (fuel : ℕ) (t : FrRbTree ι α) (z : Ptr ι) : Option (Ptr ι) := do
  let n ← t.get z
  if n.left = .nil ∨ n.right = .nil then some z else leftmost fuel t n.right

/-- `node_free`. The data is the business of `data_free`; a node inside of data
that is being freed is marked, another one cleared. -/
def nodeFree (t : FrRbTree ι α) (z : Ptr ι) (freeData : Bool) :
    Option (FrRbTree ι α) :=
  match cb.nodeAlloc, z with
  | .inlineNode _, _ =>
    t.modify z fun n => if freeData && cb.dataFree then { n with beingFreed := true } else zeroNode
  | .heapNode, .node i =>
    (t.nodes i).map fun _ => { t with nodes := Function.update t.nodes i none }
  | .heapNode, _ => none

/-- `if (p->left == z) p->left = y`, for the side `s`. -/
def replaceChild (s : Side) (t : FrRbTree ι α) (p z y : Ptr ι) : Option (FrRbTree ι α) := do
  let child ← t.child s p
  if child = z then t.setChild s p y else some t

/-- `if (p->parent == z) p->parent = y`. -/
def replaceParent (p z y : Ptr ι) : Option (FrRbTree ι α) := do
  let parent ← t.parent p
  if parent = z then t.setParent p y else some t

/-- `y`, which is out of the tree, takes the place of `z`; it keeps its data. -/
def takePlace (z y : Ptr ι) (data : Option α) : Option (FrRbTree ι α) := do
  let n ← t.get z
  let t ← t.modify y fun _ => { n with data := data }
  let t ← replaceAbove t n.parent
  let t ← replaceParent t n.left z y
  replaceParent t n.right z y
where
  replaceAbove (t : FrRbTree ι α) (parent : Ptr ι) : Option (FrRbTree ι α) :=
    if parent = .nil then some { t with root := y }
    else do
      let t ← replaceChild .left t parent z y
      replaceChild .right t parent z y

/-- The two calls of `delete_fixup`; the one for `y != z` also tests `parent`. -/
def fixupIfBlack (fuel : ℕ) (t : FrRbTree ι α) (z y : Ptr ι) (colour : Colour) (x parent : Ptr ι) :
    Option (FrRbTree ι α) :=
  if colour = .black ∧ (y = z ∨ parent ≠ .null) then deleteFixup fuel t x parent else some t

/-- `if (y != z)`. -/
def takePlaceIfOther (z y : Ptr ι) (data : Option α) : Option (FrRbTree ι α) :=
  if y ≠ z then takePlace t z y data else some t

def deleteInternal (fuel : ℕ) (t : FrRbTree ι α) (z : Ptr ι)
    (freeData : Bool) : Option (FrRbTree ι α) :=
  if z = .null ∨ z = .nil then some t
  else do
    let y ← deleteTarget fuel t z
    let n ← t.get y
    let x := if n.left ≠ .nil then n.left else n.right
    let parent := n.parent
    let t ← t.setParentUnlessNil x parent
    let t ← relink .left t y parent x
    let n ← t.get y
    let t ← fixupIfBlack fuel t z y n.colour x parent
    let t ← takePlaceIfOther t z y n.data
    let t ← nodeFree cb t z freeData
    some { t with numElements := u32 (t.numElements + 2 ^ 32 - 1) }

/-! ## The calls -/

def findNode (cb : Callbacks ι α) (data : α) : ℕ → FrRbTree ι α → Ptr ι → Option (Ptr ι)
  | 0, _, _ => none
  | fuel + 1, t, current =>
    if current = .nil then some .null
    else do
      let n ← t.get current
      let x ← n.data
      match cb.dataCmp data x with
      | .eq => some current
      | .lt => findNode cb data fuel t n.left
      | .gt => findNode cb data fuel t n.right

def frRbFind (fuel : ℕ) (t : FrRbTree ι α) (data : α) :
    Option (Option α) := do
  let x ← findNode cb data fuel t t.root
  if x = .null then some none
  else do
    let n ← t.get x
    some n.data

def frRbInsert (fresh : Option ι) (fuel : ℕ) (t : FrRbTree ι α) (data : α) :
    Option (FrRbTree ι α × Bool) := do
  let (t, code, _) ← insertNode cb fresh fuel t data
  some (t, code == 0)

/-- What `fr_rb_replace` does with a node that exists. -/
def replaceNode (fresh : Option ι) (fuel : ℕ) (t : FrRbTree ι α)
    (node : Ptr ι) (data : α) : Option (FrRbTree ι α) :=
  match cb.nodeAlloc with
  | .inlineNode _ => do
    let t ← deleteInternal cb fuel t node false
    let (t, _, _) ← insertNode cb fresh fuel t data
    some t
  | .heapNode => t.modify node fun n => { n with data := some data }

/-- `fr_rb_replace`: the code, and the old data. -/
def frRbReplace (fresh : Option ι) (fuel : ℕ) (t : FrRbTree ι α) (data : α) :
    Option (FrRbTree ι α × ℤ × Option α) := do
  let (t, code, node) ← insertNode cb fresh fuel t data
  if code = 1 then do
    let n ← t.get node
    let t ← replaceNode cb fresh fuel t node data
    some (t, 1, n.data)
  else some (t, code, none)

/-- What removing and deleting do with the node they have found. -/
def removeNode (fuel : ℕ) (t : FrRbTree ι α) (node : Ptr ι)
    (freeData : Bool) : Option (FrRbTree ι α × Option α) :=
  if node = .null then some (t, none)
  else do
    let n ← t.get node
    if n.beingFreed then some (t, n.data)
    else do
      let t ← deleteInternal cb fuel t node freeData
      some (t, n.data)

def frRbRemove (fuel : ℕ) (t : FrRbTree ι α) (data : α) :
    Option (FrRbTree ι α × Option α) := do
  let node ← findNode cb data fuel t t.root
  removeNode cb fuel t node false

def frRbDelete (fuel : ℕ) (t : FrRbTree ι α) (data : α) :
    Option (FrRbTree ι α × Bool) := do
  let node ← findNode cb data fuel t t.root
  let (t, _) ← removeNode cb fuel t node cb.dataFree
  some (t, node ≠ .null)

def frRbNodeInlineInTree (n : Node ι α) : Bool :=
  n.left ≠ .null && n.right ≠ .null && n.parent ≠ .null && !n.beingFreed

def frRbRemoveByInlineNode (fuel : ℕ) (t : FrRbTree ι α) (node : ι) :
    Option (FrRbTree ι α × Option α) := do
  let n ← t.nodes node
  if frRbNodeInlineInTree n then do
    let t ← deleteInternal cb fuel t (.node node) false
    some (t, n.data)
  else some (t, none)

def frRbNumElements : ℕ := t.numElements

/-- `_fr_rb_init`; with inline nodes, the nodes of the data are zero bytes. -/
def frRbInit : FrRbTree ι α :=
  ⟨.nil, 0, fun _ => match cb.nodeAlloc with
    | .inlineNode _ => some zeroNode
    | .heapNode => none⟩

end FreeRadius.Rb
