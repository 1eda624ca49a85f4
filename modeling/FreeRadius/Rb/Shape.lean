import FreeRadius.Rb.Model

/-!
# The tree that the nodes form

`At t T k L` says that the nodes of `t` form a tree with the subtree `T` at the
end of the path `k`, in which the nodes and their data are `L` in order. The
subtree and the path can be changed for others that make up the same tree.
-/

namespace FreeRadius.Rb

open Library Library.RedBlack Library.RedBlack.CTree List

variable {ι α : Type}

/-! ## Nodes with a side -/

/-- A node of the tree, with `near` on side `s`. -/
def nodeOf (s : Side) (near far parent : Ptr ι) (data : α) (c : Colour) : Node ι α :=
  match s with
  | .left => ⟨near, far, parent, some data, c, false⟩
  | .right => ⟨far, near, parent, some data, c, false⟩

section NodeOf

variable (s : Side) (p q parent : Ptr ι) (data : α) (c : Colour)

@[simp] theorem nodeOf_child : (nodeOf s p q parent data c).child s = p := by
  cases s <;> rfl

@[simp] theorem nodeOf_child_other : (nodeOf s p q parent data c).child s.other = q := by
  cases s <;> rfl

@[simp] theorem nodeOf_withChild (r : Ptr ι) :
    (nodeOf s p q parent data c).withChild s r = nodeOf s r q parent data c := by
  cases s <;> rfl

@[simp] theorem nodeOf_withChild_other (r : Ptr ι) :
    (nodeOf s p q parent data c).withChild s.other r = nodeOf s p r parent data c := by
  cases s <;> rfl

@[simp] theorem nodeOf_parent : (nodeOf s p q parent data c).parent = parent := by
  cases s <;> rfl

@[simp] theorem nodeOf_colour : (nodeOf s p q parent data c).colour = c := by
  cases s <;> rfl

@[simp] theorem nodeOf_data : (nodeOf s p q parent data c).data = some data := by
  cases s <;> rfl

@[simp] theorem nodeOf_beingFreed : (nodeOf s p q parent data c).beingFreed = false := by
  cases s <;> rfl

@[simp] theorem nodeOf_withParent (r : Ptr ι) :
    { nodeOf s p q parent data c with parent := r } = nodeOf s p q r data c := by
  cases s <;> rfl

@[simp] theorem nodeOf_withColour (c' : Colour) :
    { nodeOf s p q parent data c with colour := c' } = nodeOf s p q parent data c' := by
  cases s <;> rfl

end NodeOf

/-! ## Representation -/

def ptr : CTree (ι × α) → Ptr ι
  | .nil => .nil
  | .node _ _ x _ => .node x.1

@[simp] theorem ptr_nil : ptr (.nil : CTree (ι × α)) = .nil := rfl

@[simp] theorem ptr_join (s : Side) (c : Colour) (a : CTree (ι × α)) (x : ι × α)
    (b : CTree (ι × α)) : ptr (join s c a x b) = .node x.1 := by
  cases s <;> rfl

def names (l : List (ι × α)) : List ι := l.map Prod.fst

variable {T : CTree (ι × α)} {nodes : ι → Option (Node ι α)} {parent : Ptr ι} {t t' : FrRbTree ι α}

theorem ptr_ne {i : ι} (h : i ∉ names T.toList) : ptr T ≠ .node i := by
  cases T with
  | nil => simp [ptr]
  | node c l x r =>
    intro heq
    rw [ptr, Ptr.node.injEq] at heq
    exact h (by simp [names, toList, heq])

theorem ptr_ne_nil (h : T ≠ .nil) : ptr T ≠ .nil := by
  cases T with
  | nil => exact absurd rfl h
  | node c l x r => simp [ptr]

/-- The nodes form the subtree `T` below `parent`. -/
def Rep (nodes : ι → Option (Node ι α)) (parent : Ptr ι) : CTree (ι × α) → Prop
  | .nil => True
  | .node c l x r => nodes x.1 = some (nodeOf .left (ptr l) (ptr r) parent x.2 c) ∧
      Rep nodes (.node x.1) l ∧ Rep nodes (.node x.1) r

theorem rep_join (s : Side) {c : Colour} {a b : CTree (ι × α)} {x : ι × α} :
    Rep nodes parent (join s c a x b) ↔
      nodes x.1 = some (nodeOf s (ptr a) (ptr b) parent x.2 c) ∧ Rep nodes (.node x.1) a ∧
        Rep nodes (.node x.1) b := by
  cases s with
  | left => exact Iff.rfl
  | right => exact and_congr Iff.rfl And.comm

theorem Rep.congr {nodes' : ι → Option (Node ι α)} (h : Rep nodes parent T)
    (heq : ∀ i ∈ names T.toList, nodes' i = nodes i) : Rep nodes' parent T := by
  induction T generalizing parent with
  | nil => trivial
  | node c l x r ihl ihr =>
    obtain ⟨hx, hl, hr⟩ := h
    refine ⟨?_, ihl hl fun i hi => heq i ?_, ihr hr fun i hi => heq i ?_⟩
    · rw [heq x.1 (by simp [names, toList])]
      exact hx
    all_goals
      simp only [names, toList, map_append, map_cons, mem_append, mem_cons]
        at hi ⊢
      tauto

/-- The pointer to the last node of a path. -/
def above : List (Frame (ι × α)) → Ptr ι
  | [] => .nil
  | f :: _ => .node f.elem.1

@[simp] theorem above_nil : above ([] : List (Frame (ι × α))) = .nil := rfl

@[simp] theorem above_cons (f : Frame (ι × α)) (k : List (Frame (ι × α))) :
    above (f :: k) = .node f.elem.1 := rfl

/-- The nodes form the path `k`, with the pointer `q` at its end. -/
def RepPath (t : FrRbTree ι α) : List (Frame (ι × α)) → Ptr ι → Prop
  | [], q => t.root = q
  | f :: k, q =>
    t.nodes f.elem.1 = some (nodeOf f.side q (ptr f.sibling) (above k) f.elem.2 f.colour) ∧
      Rep t.nodes (.node f.elem.1) f.sibling ∧ RepPath t k (.node f.elem.1)

theorem RepPath.congr {k : List (Frame (ι × α))} {q : Ptr ι} (h : RepPath t k q)
    (hroot : t'.root = t.root) (heq : ∀ i ∈ names (pathElems k), t'.nodes i = t.nodes i) :
    RepPath t' k q := by
  induction k generalizing q with
  | nil => exact hroot.trans h
  | cons f k ih =>
    obtain ⟨hf, hS, hk⟩ := h
    refine ⟨?_, hS.congr fun i hi => heq i ?_, ih hk fun i hi => heq i ?_⟩
    · rw [heq f.elem.1 (by simp [names, pathElems])]
      exact hf
    all_goals
      simp only [names, pathElems, map_append, map_cons, mem_append, mem_cons]
        at hi ⊢
      tauto

structure At (t : FrRbTree ι α) (T : CTree (ι × α)) (k : List (Frame (ι × α)))
    (L : List (ι × α)) : Prop where
  rep : Rep t.nodes (above k) T
  path : RepPath t k (ptr T)
  list : (plug k T).toList = L
  nodup : (names L).Nodup

/-- Nothing has changed outside of the tree. -/
structure Rearranged (t t' : FrRbTree ι α) (L : List (ι × α)) : Prop where
  numElements : t'.numElements = t.numElements
  nodes : ∀ i, i ∉ names L → t'.nodes i = t.nodes i

theorem Rearranged.refl (t : FrRbTree ι α) (L : List (ι × α)) : Rearranged t t L :=
  ⟨rfl, fun _ _ => rfl⟩

theorem Rearranged.trans {t'' : FrRbTree ι α} {L : List (ι × α)} (h : Rearranged t t' L)
    (h' : Rearranged t' t'' L) : Rearranged t t'' L :=
  ⟨h'.numElements.trans h.numElements, fun i hi => (h'.nodes i hi).trans (h.nodes i hi)⟩

section Moves

variable {t : FrRbTree ι α} {T S : CTree (ι × α)} {k : List (Frame (ι × α))} {L : List (ι × α)}
  {s : Side} {c : Colour} {x : ι × α} {a b : CTree (ι × α)}

theorem At.distinct (h : At t T k L) : (names (T.toList ++ pathElems k)).Nodup := by
  have hperm := (toList_plug_perm k T).map Prod.fst
  rw [h.list] at hperm
  exact hperm.nodup_iff.mp h.nodup

theorem At.mem_names (h : At t T k L) {i : ι} :
    i ∈ names L ↔ i ∈ names (T.toList ++ pathElems k) := by
  have hperm := (toList_plug_perm k T).map Prod.fst
  rw [h.list] at hperm
  exact hperm.mem_iff

theorem at_cons_iff : At t T (⟨s, c, x, S⟩ :: k) L ↔ At t (join s c T x S) k L := by
  constructor
  · rintro ⟨hrep, ⟨hf, hS, hk⟩, hlist, hnodup⟩
    refine ⟨(rep_join s).mpr ⟨hf, hrep, hS⟩, ?_, hlist, hnodup⟩
    rw [ptr_join]
    exact hk
  · rintro ⟨hrep, hpath, hlist, hnodup⟩
    obtain ⟨hf, hT, hS⟩ := (rep_join s).mp hrep
    rw [ptr_join] at hpath
    exact ⟨hT, ⟨hf, hS, hpath⟩, hlist, hnodup⟩

theorem at_sibling_iff : At t T (⟨s, c, x, S⟩ :: k) L ↔ At t S (⟨s.other, c, x, T⟩ :: k) L := by
  rw [at_cons_iff, at_cons_iff, join_other]

theorem at_plug_iff : At t (plug k T) [] L ↔ At t T k L := by
  induction k generalizing T with
  | nil => exact Iff.rfl
  | cons f k ih =>
    rw [plug, ih]
    exact at_cons_iff.symm

theorem At.nodes_join (h : At t (join s c a x b) k L) :
    t.nodes x.1 = some (nodeOf s (ptr a) (ptr b) (above k) x.2 c) :=
  ((rep_join s).mp h.rep).1

section

variable (h : At t T (⟨s, c, x, S⟩ :: k) L)

include h

theorem At.nodes_frame :
    t.nodes x.1 = some (nodeOf s (ptr T) (ptr S) (above k) x.2 c) := h.path.1

theorem At.parent_frame : t.parent (.node x.1) = some (above k) := by
  simp [FrRbTree.parent, FrRbTree.get, h.nodes_frame]

theorem At.child_frame : t.child s (.node x.1) = some (ptr T) := by
  simp [FrRbTree.child, FrRbTree.get, h.nodes_frame]

theorem At.child_frame_other : t.child s.other (.node x.1) = some (ptr S) := by
  simp [FrRbTree.child, FrRbTree.get, h.nodes_frame]

theorem At.colour_frame : t.colour (.node x.1) = some c := by
  simp [FrRbTree.colour, FrRbTree.get, h.nodes_frame]

end

theorem At.parent_join (h : At t (join s c a x b) k L) :
    t.parent (.node x.1) = some (above k) := (at_cons_iff.mpr h).parent_frame

theorem At.child_join (h : At t (join s c a x b) k L) :
    t.child s (.node x.1) = some (ptr a) := (at_cons_iff.mpr h).child_frame

theorem At.child_join_other (h : At t (join s c a x b) k L) :
    t.child s.other (.node x.1) = some (ptr b) := (at_cons_iff.mpr h).child_frame_other

theorem At.parent_of_ptr (h : At t T k L) {i : ι} (hi : ptr T = .node i) :
    t.parent (.node i) = some (above k) := by
  rcases T.eq_nil_or_join .left with rfl | ⟨c, a, y, b, rfl⟩
  · cases hi
  · rw [ptr_join] at hi
    rw [← hi]
    exact h.parent_join

theorem At.ptr_ne_sibling (h : At t T (⟨s, c, x, S⟩ :: k) L) (hT : T ≠ .nil ∨ S ≠ .nil) :
    ptr T ≠ ptr S := by
  have hdis := h.distinct
  simp only [names, pathElems, map_append, map_cons, nodup_append] at hdis
  have hapart : ∀ i ∈ names T.toList, i ∉ names S.toList := fun i hi hS =>
    hdis.2.2 i hi i (by simp only [mem_cons, mem_append]; exact .inr (.inl hS)) rfl
  cases T with
  | nil =>
    cases S with
    | nil => simp at hT
    | node c l y r => simp [ptr]
  | node c l y r => exact fun heq => ptr_ne (hapart y.1 (by simp [names, toList])) heq.symm

theorem At.colour (h : At t T k L) : t.colour (ptr T) = some T.colour := by
  cases T with
  | nil => rfl
  | node c l x r =>
    have hx := h.rep.1
    simp [FrRbTree.colour, ptr, FrRbTree.get, hx, CTree.colour]

theorem At.root_eq_iff (h : At t T k L) : ptr T = t.root ↔ k = [] := by
  constructor
  · intro heq
    by_contra hk
    -- the root is the last node of the path
    have hroot : ∀ (k : List (Frame (ι × α))) (q : Ptr ι), k ≠ [] → RepPath t k q →
        ∃ i ∈ names (pathElems k), t.root = .node i := by
      intro k
      induction k with
      | nil => exact fun _ h => absurd rfl h
      | cons f k ih =>
        rintro q - ⟨-, -, hk⟩
        rcases eq_or_ne k [] with rfl | hne
        · exact ⟨f.elem.1, by simp [names, pathElems], hk⟩
        obtain ⟨i, hi, hr⟩ := ih _ hne hk
        refine ⟨i, ?_, hr⟩
        simp only [names, pathElems, map_append, map_cons, mem_append, mem_cons] at hi ⊢
        tauto
    obtain ⟨i, hi, hr⟩ := hroot k _ hk h.path
    have hdis := h.distinct
    rw [names, map_append, nodup_append] at hdis
    have hT : i ∉ names T.toList := fun hiT => hdis.2.2 i hiT i hi rfl
    exact ptr_ne hT (heq.trans hr)
  · rintro rfl
    exact h.path.symm

end Moves

end FreeRadius.Rb
