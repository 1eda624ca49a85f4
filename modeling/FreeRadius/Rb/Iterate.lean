import FreeRadius.Rb.Runs

/-!
# Deleting during an in-order iteration

The iterator saves the successor of the node that is deleted. The deletion may
move this node to another place of the tree, but it keeps its data, and so the
list in order says what comes next.
-/

namespace FreeRadius.Rb

open Library Library.RedBlack Library.RedBlack.CTree

variable {ι α : Type} [DecidableEq ι]

/-- `fr_rb_iter_inorder_t`; the tree it points to is passed along. -/
structure FrRbIterInorder (ι : Type) where
  node : Ptr ι
  next : Ptr ι

/-- `while ((x != NIL) && (y == x->right)) { y = x; x = x->parent; }`. -/
def climb : ℕ → FrRbTree ι α → Ptr ι → Ptr ι → Option (Ptr ι)
  | 0, _, _, _ => none
  | fuel + 1, t, x, y =>
    if x = .nil then some x
    else do
      let n ← t.get x
      if y = n.right then climb fuel t n.parent x else some x

/-- An empty tree leaves the iterator as it was. -/
def frRbIterInitInorder (fuel : ℕ) (t : FrRbTree ι α) (iter : FrRbIterInorder ι) :
    Option (FrRbIterInorder ι × Option α) :=
  if t.root = .nil then some (iter, none)
  else do
    let x ← leftmost fuel t t.root
    let n ← t.get x
    some (⟨x, .null⟩, n.data)

def frRbIterNextInorder (fuel : ℕ) (t : FrRbTree ι α) (iter : FrRbIterInorder ι) :
    Option (FrRbIterInorder ι × Option α) :=
  if iter.node = .nil then some (iter, none)
  else if iter.node = .null then do
    -- the node is deleted, and the next one saved
    let n ← t.get iter.next
    some (⟨iter.next, .null⟩, n.data)
  else do
    let n ← t.get iter.node
    let x ← if n.right ≠ .nil then leftmost fuel t n.right else climb fuel t n.parent iter.node
    let m ← t.get x
    some ({ iter with node := x }, m.data)

def frRbIterDeleteInorder (cb : Callbacks ι α) (fuel : ℕ) (t : FrRbTree ι α)
    (iter : FrRbIterInorder ι) : Option (FrRbTree ι α × FrRbIterInorder ι) :=
  if iter.node = .nil then some (t, iter)
  else do
    let (iter', _) ← frRbIterNextInorder fuel t iter
    let t ← deleteInternal cb fuel t iter.node true
    some (t, ⟨.null, iter'.node⟩)

section Loop

variable (cb : Callbacks ι α) (S : Set α) [DecidablePred (· ∈ S)]

/-- The body of the loop for the element `data`, and the call for the next one. -/
def visit (fuel : ℕ) (t : FrRbTree ι α) (iter : FrRbIterInorder ι) (data : α) :
    Option (FrRbTree ι α × FrRbIterInorder ι × Option α) := do
  let (t, iter) ← if data ∈ S then frRbIterDeleteInorder cb fuel t iter else some (t, iter)
  let next ← frRbIterNextInorder fuel t iter
  some (t, next)

/-- The loop, until the iterator returns `NULL`: the tree and the elements it has returned. -/
def visitAll : ℕ → FrRbTree ι α → FrRbIterInorder ι → Option α → Option (FrRbTree ι α × List α)
  | _, t, _, none => some (t, [])
  | 0, _, _, some _ => none
  | fuel + 1, t, iter, some data => do
    let (t, iter, next) ← visit cb S fuel t iter data
    let (t, seen) ← visitAll fuel t iter next
    some (t, data :: seen)

def iterateDeleting (fuel : ℕ) (t : FrRbTree ι α) (iter : FrRbIterInorder ι) :
    Option (FrRbTree ι α × List α) := do
  let (iter, data) ← frRbIterInitInorder fuel t iter
  visitAll cb S fuel t iter data

end Loop

/-! ## The successor -/

/-- The pointer to the first node of a list, or to the sentinel. -/
def first : List (ι × α) → Ptr ι
  | [] => .nil
  | x :: _ => .node x.1

variable {cb : Callbacks ι α} {t : FrRbTree ι α} {T : CTree (ι × α)} {L l r : List (ι × α)}
  {k : List (Frame (ι × α))} {x : ι × α} {iter : FrRbIterInorder ι}

/-- The climb from a subtree ends at the element that follows it. -/
theorem climb_spec (h : At t T k L) (hT : T ≠ .nil) :
    ∃ l r, L = l ++ T.toList ++ r ∧
      Returns (fun fuel => climb fuel t (above k) (ptr T)) (first r) := by
  induction k generalizing T with
  | nil =>
    refine ⟨[], [], by simpa [plug] using h.list.symm, Returns.of_add 1 fun fuel => ?_⟩
    simp [climb, first]
  | cons f k ih =>
    obtain ⟨s, c, x, S⟩ := f
    have hjoin : join s c T x S ≠ .nil := by cases s <;> simp [join]
    obtain ⟨l, r, hL, hret⟩ := ih (at_cons_iff.mp h) hjoin
    have hnode := h.nodes_frame
    cases s with
    | left =>
      -- the subtree is on the left, and its parent comes next
      refine ⟨l, x :: S.toList ++ r, by simp [hL, join, toList],
        Returns.of_add 1 fun fuel => ?_⟩
      simp [climb, first, FrRbTree.get, hnode, nodeOf, h.ptr_ne_sibling (.inl hT)]
    | right =>
      refine ⟨l ++ S.toList ++ [x], r, by simp [hL, join, toList], hret.turn fun fuel => ?_⟩
      simp [climb, FrRbTree.get, hnode, nodeOf]

/-- The data the iterator returns with a pointer. -/
theorem Invariant.get_first (h : Invariant cb t (l ++ r)) :
    ∃ n, t.get (first r) = some n ∧ n.data = r.head?.map Prod.snd := by
  cases r with
  | nil => exact ⟨_, rfl, rfl⟩
  | cons x r =>
    obtain ⟨n, hn, hdata, -⟩ := h.get_node (x := x) (by simp)
    exact ⟨n, hn, hdata⟩

/-- After a deletion the iterator goes on with the node it has saved. -/
theorem Invariant.next_saved (h : Invariant cb t (l ++ r)) (fuel : ℕ) :
    frRbIterNextInorder fuel t ⟨.null, first r⟩ =
      some (⟨first r, .null⟩, r.head?.map Prod.snd) := by
  obtain ⟨n, hn, hdata⟩ := h.get_first
  simp [frRbIterNextInorder, hn, hdata]

theorem Invariant.next (h : Invariant cb t (l ++ x :: r)) (hiter : iter.node = .node x.1) :
    Returns (fun fuel => frRbIterNextInorder fuel t iter)
      ({ iter with node := first r }, r.head?.map Prod.snd) := by
  obtain ⟨T, m, hat, -⟩ := h.shape
  obtain ⟨k, c, a, b, -, hx⟩ := hat.focus (z := x) (by simp)
  obtain ⟨l', r', hL, hclimb⟩ := climb_spec hx (by simp [join])
  -- what follows `x` is its right subtree, and what follows the subtree of `x`
  have hr : r = b.toList ++ r' := by
    obtain ⟨hl, hr⟩ := not_mem_sides hat.nodup
    have hL' : l ++ x :: r = (l' ++ a.toList) ++ x :: (b.toList ++ r') := by
      simpa [join, toList] using hL
    refine ((List.append_cons_inj_of_notMem ?_ ?_).mp hL').2.2
    · exact fun hmem => hl (List.mem_map_of_mem hmem)
    · exact fun hmem => hr (List.mem_map_of_mem hmem)
  obtain ⟨n, hn, hdata⟩ := Invariant.get_first (l := l ++ [x]) (r := r) (by simpa using h)
  have hnode : t.get (.node x.1) = _ := hx.nodes_join
  by_cases hb : b = .nil
  · subst hb
    rw [ptr_join] at hclimb
    rw [toList, List.nil_append] at hr
    refine hclimb.imp fun fuel hc => ?_
    rw [← hr] at hc
    simp [frRbIterNextInorder, hiter, hnode, nodeOf, hc, hn, hdata]
  · have hright : At t b (⟨.right, c, x, a⟩ :: k) (l ++ x :: r) := at_cons_iff.mpr hx
    obtain ⟨-, -, y, -, rest, hret, -, hy, -⟩ := leftmost_spec hright hb
    have hfirst : first r = .node y.1 := by simp [hr, hy, first]
    refine hret.imp fun fuel hc => ?_
    rw [← hfirst] at hc
    simp [frRbIterNextInorder, hiter, hnode, nodeOf, ptr_ne_nil hb, hc, hn, hdata]

/-! ## The loop -/

section Loop

variable (S : Set α) [DecidablePred (· ∈ S)]

/-- The elements that stay. -/
def kept (L : List (ι × α)) : List (ι × α) := L.filter (·.2 ∉ S)

theorem Invariant.visit (h : Invariant cb t (l ++ x :: r)) (hiter : iter.node = .node x.1) :
    ∃ t' iter', Returns (fun fuel => Rb.visit cb S fuel t iter x.2)
        (t', iter', r.head?.map Prod.snd) ∧
      iter'.node = first r ∧ Invariant cb t' (l ++ kept S [x] ++ r) := by
  have hnext := h.next hiter
  by_cases hx : x.2 ∈ S
  · obtain ⟨t', hret, h'⟩ := h.delete (z := x) (by simp) true
    obtain ⟨T, m, hat, -⟩ := h.shape
    rw [without_middle hat.nodup] at h'
    refine ⟨t', ⟨first r, .null⟩, hnext.after hret fun fuel hf hd => ?_, rfl,
      by simpa [kept, hx] using h'⟩
    simp [Rb.visit, hx, frRbIterDeleteInorder, hiter, hf, hd, h'.next_saved]
  · refine ⟨t, { iter with node := first r }, hnext.imp fun fuel hf => ?_,
      rfl, by simpa [kept, hx] using h⟩
    simp [Rb.visit, hx, hf]

theorem Invariant.visitAll (h : Invariant cb t (l ++ r)) (hiter : r ≠ [] → iter.node = first r) :
    ∃ t', Returns (fun fuel => Rb.visitAll cb S fuel t iter (r.head?.map Prod.snd))
        (t', r.map Prod.snd) ∧ Invariant cb t' (l ++ kept S r) := by
  induction r generalizing l t iter with
  | nil =>
    refine ⟨t, Returns.of_eq fun fuel => ?_, h⟩
    cases fuel <;> rfl
  | cons x r ih =>
    obtain ⟨t₁, iter₁, hvisit, hiter₁, h₁⟩ := h.visit S (hiter (by simp))
    obtain ⟨t', hret, h'⟩ := ih h₁ fun _ => hiter₁
    refine ⟨t', ?_, by simpa [kept, ← List.filter_append] using h'⟩
    refine Returns.turn (f := fun fuel => Rb.visitAll cb S (fuel + 1) t iter (some x.2))
      (hvisit.after hret fun fuel hv hr => ?_) fun fuel => rfl
    simp [Rb.visitAll, hv, hr]

/-- A loop that deletes the elements of `S` returns every element of the tree,
in increasing order, and leaves a red-black tree of the elements outside of `S`. -/
theorem iterateDeleting_spec (h : Invariant cb t L) (iter : FrRbIterInorder ι) :
    ∃ t', Returns (fun fuel => iterateDeleting cb S fuel t iter) (t', L.map Prod.snd) ∧
      (L.map Prod.snd).Pairwise (cb.dataCmp · · = .lt) ∧
      Invariant cb t' (kept S L) ∧ ∃ T, WellFormed cb t' (kept S L) T := by
  obtain ⟨T, m, hat, -⟩ := h.shape
  have hroot : t.root = ptr T := hat.path
  have hlist : T.toList = L := hat.list
  have hinit : ∃ iter', Returns (fun fuel => frRbIterInitInorder fuel t iter)
      (iter', L.head?.map Prod.snd) ∧ (L ≠ [] → iter'.node = first L) := by
    by_cases hT : T = .nil
    · subst hT
      refine ⟨iter, Returns.of_eq fun fuel => ?_, fun hne => absurd hlist.symm hne⟩
      simp [frRbIterInitInorder, hroot, ← hlist, toList]
    obtain ⟨-, -, y, -, rest, hret, -, hy, -⟩ := leftmost_spec hat hT
    have hL : L = y :: rest := hlist.symm.trans hy
    obtain ⟨n, hn, hdata⟩ := Invariant.get_first (l := []) h
    refine ⟨⟨first L, .null⟩, hret.imp fun fuel hf => ?_, fun _ => rfl⟩
    rw [show Ptr.node y.1 = first L by rw [hL, first]] at hf
    simp [frRbIterInitInorder, hroot, ptr_ne_nil hT, hf, hn, hdata]
  obtain ⟨iter', hinit, hiter⟩ := hinit
  obtain ⟨t', hret, h'⟩ := Invariant.visitAll S (l := []) h hiter
  refine ⟨t', hinit.after hret fun fuel hi hf => ?_, List.pairwise_map.mpr h.increasing, h',
    h'.wellFormed (.refl _)⟩
  simp [iterateDeleting, hi, hf]

end Loop

/-- Of six elements, two neighbours and another inner one are deleted. -/
theorem iterateDeleting_six :
    ∃ t, Invariant heapCallbacks t [(0, 0), (1, 1), (2, 2), (3, 3), (4, 4), (5, 5)] ∧
      ∃ t', Returns (fun fuel => iterateDeleting heapCallbacks {i | i ∈ [1, 2, 4]} fuel t
          ⟨.null, .null⟩) (t', [0, 1, 2, 3, 4, 5]) ∧
        Invariant heapCallbacks t' [(0, 0), (3, 3), (5, 5)] := by
  obtain ⟨t, hr⟩ := exists_reachable 6
  obtain ⟨L, h, hperm⟩ := hr.invariant
  obtain rfl : L = [(0, 0), (1, 1), (2, 2), (3, 3), (4, 4), (5, 5)] := by
    refine List.Perm.eq_of_pairwise (fun a b _ _ hab hba => ?_) h.increasing (by decide)
      (hperm.trans (by decide))
    exact absurd (Nat.compare_eq_lt.mp hab) (Nat.compare_eq_lt.mp hba).not_gt
  obtain ⟨t', hret, -, h', -⟩ := iterateDeleting_spec {i | i ∈ [1, 2, 4]} h ⟨.null, .null⟩
  exact ⟨t, h, t', hret, h'⟩

end FreeRadius.Rb
