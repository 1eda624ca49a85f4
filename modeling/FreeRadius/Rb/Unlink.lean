import FreeRadius.Rb.Delete

/-!
# Taking nodes out of the tree

`delete_internal`: a node with at most one child is taken out of the parent
chain. A node with two children stays there until its successor, which was taken
out in its place, is copied over it.
-/

namespace FreeRadius.Rb

open Library Library.RedBlack Library.RedBlack.CTree List

variable {ι α : Type} [DecidableEq ι] {t : FrRbTree ι α} {T : CTree (ι × α)}
  {k : List (Frame (ι × α))} {L : List (ι × α)} {a b : CTree (ι × α)} {z : ι × α} {m : ℕ}

/-! ## Lists of nodes -/

def without (i : ι) (L : List (ι × α)) : List (ι × α) := L.filter fun x => x.1 ≠ i

def exchanged (i : ι) (y : ι × α) (L : List (ι × α)) : List (ι × α) :=
  L.map fun x => if x.1 = i then y else x

theorem without_of_not_mem {i : ι} (h : i ∉ names L) : without i L = L := by
  apply filter_eq_self.mpr
  intro x hx
  simp only [ne_eq, decide_not, Bool.not_eq_true', decide_eq_false_iff_not]
  exact fun heq => h (mem_map.mpr ⟨x, hx, heq⟩)

theorem exchanged_of_not_mem {i : ι} (y : ι × α) (h : i ∉ names L) : exchanged i y L = L := by
  rw [exchanged]
  refine (map_congr_left fun x hx => ?_).trans (map_id L)
  exact if_neg fun heq => h (mem_map.mpr ⟨x, hx, heq⟩)

theorem mem_without {i : ι} {x : ι × α} : x ∈ without i L ↔ x ∈ L ∧ x.1 ≠ i := by
  simp [without]

theorem names_without {i j : ι} : j ∈ names (without i L) ↔ j ∈ names L ∧ j ≠ i := by
  simp only [names, mem_map, mem_without]
  constructor
  · rintro ⟨x, ⟨hx, hne⟩, rfl⟩
    exact ⟨⟨x, hx, rfl⟩, hne⟩
  · rintro ⟨⟨x, hx, rfl⟩, hne⟩
    exact ⟨x, ⟨hx, hne⟩, rfl⟩

theorem without_perm {L' : List (ι × α)} (i : ι) (h : L.Perm L') :
    (without i L).Perm (without i L') := h.filter _

section Middle

variable {l r : List (ι × α)} {x : ι × α} (h : (names (l ++ x :: r)).Nodup)
include h

omit [DecidableEq ι] in
theorem not_mem_sides : x.1 ∉ names l ∧ x.1 ∉ names r := by
  have hperm := (perm_middle : (l ++ x :: r).Perm (x :: (l ++ r))).map Prod.fst
  have h' := hperm.nodup_iff.mp h
  rw [map_cons, nodup_cons, map_append, mem_append, not_or] at h'
  exact h'.1

theorem without_middle : without x.1 (l ++ x :: r) = l ++ r := by
  obtain ⟨hl, hr⟩ := not_mem_sides h
  have hl' := without_of_not_mem hl
  have hr' := without_of_not_mem hr
  unfold without at hl' hr' ⊢
  rw [filter_append, filter_cons_of_neg (by simp), hl', hr']

theorem exchanged_middle (y : ι × α) : exchanged x.1 y (l ++ x :: r) = l ++ y :: r := by
  obtain ⟨hl, hr⟩ := not_mem_sides h
  have hl' := exchanged_of_not_mem y hl
  have hr' := exchanged_of_not_mem y hr
  unfold exchanged at hl' hr' ⊢
  rw [map_append, map_cons, hl', hr', if_pos rfl]

end Middle

theorem nodup_exchanged {y : ι × α} (i : ι) (h : (names L).Nodup) (hy : y.1 ∉ names L) :
    (names (exchanged i y L)).Nodup := by
  have hnames : names (exchanged i y L) = (names L).map fun j => if j = i then y.1 else j := by
    simp only [names, exchanged, map_map]
    exact map_congr_left fun x _ => by by_cases hx : x.1 = i <;> simp [hx]
  rw [hnames]
  refine h.map_on fun j hj j' hj' heq => ?_
  by_cases hi : j = i <;> by_cases hi' : j' = i
  · exact hi.trans hi'.symm
  · rw [if_pos hi, if_neg hi'] at heq
    exact absurd (heq ▸ hj') hy
  · rw [if_neg hi, if_pos hi'] at heq
    exact absurd (heq ▸ hj) hy
  · rwa [if_neg hi, if_neg hi'] at heq

omit [DecidableEq ι] in
/-- The nodes in order, those of another subtree in this place, and those around this node. -/
theorem At.middle {c : Colour} (h : At t (join .left c a z b) k L) :
    ∃ l r, (∀ T, (plug k T).toList = l ++ T.toList ++ r) ∧
      L = (l ++ a.toList) ++ z :: (b.toList ++ r) := by
  obtain ⟨l, r, hlist, -⟩ := toList_plug k
  refine ⟨l, r, hlist, ?_⟩
  rw [← h.list, hlist]
  simp [join, toList]

/-! ## A node with at most one child -/

/-- `x` takes the place of `y` in the parent chain. -/
theorem splice_spec {c : Colour} {y : ι × α}
    (h : At t (join .left c a y b) k L) (hone : a = .nil ∨ b = .nil) :
    ∃ t₁ t₂ X, (if ptr a ≠ .nil then ptr a else ptr b) = ptr X ∧ (X = a ∨ X = b) ∧
      t.setParentUnlessNil (ptr X) (above k) = some t₁ ∧
      relink .left t₁ (.node y.1) (above k) (ptr X) = some t₂ ∧ At t₂ X k (without y.1 L) ∧
      t₂.numElements = t.numElements ∧
      ∀ i, i ∉ names (without y.1 L) → t₂.nodes i = t.nodes i := by
  obtain ⟨X, hX, hab, hlistX⟩ : ∃ X, (if ptr a ≠ .nil then ptr a else ptr b) = ptr X ∧
      (X = a ∨ X = b) ∧ X.toList = a.toList ++ b.toList := by
    cases a with
    | nil => exact ⟨b, by simp, .inr rfl, by simp [toList]⟩
    | node c' l x r =>
      obtain rfl : b = .nil := by
        rcases hone with h | h
        · cases h
        · exact h
      exact ⟨_, by simp [ptr], .inl rfl, by simp [toList]⟩
  obtain ⟨hy, ha, hb⟩ := (rep_join .left).mp h.rep
  have hXrep : Rep t.nodes (.node y.1) X := by
    rcases hab with rfl | rfl
    · exact ha
    · exact hb
  -- the nodes of X and of the path are apart
  have hperm : ((join .left c a y b).toList ++ pathElems k).Perm
      (y :: (X.toList ++ pathElems k)) := by
    rw [hlistX]
    exact (toList_join_perm .left c a y b).append_right _
  have hdis := (hperm.map Prod.fst).nodup_iff.mp h.distinct
  simp only [map_cons, map_append, nodup_cons, mem_append, not_or, nodup_append] at hdis
  obtain ⟨⟨hyX, hyk⟩, hXn, hkn, hXk⟩ := hdis
  obtain ⟨t₁, h₁, hrep₁, hroot₁, hnum₁, hout₁⟩ := setParentUnlessNil_spec hXrep hXn (above k)
  have hpath₁ : RepPath t₁ k (.node y.1) := by
    have hpath := h.path
    rw [ptr_join] at hpath
    exact hpath.congr hroot₁ fun i hi => hout₁ i fun hiX => hXk i hiX i hi rfl
  obtain ⟨t₂, h₂, hpath₂, hnum₂, hout₂⟩ := relink_spec .left hpath₁ hyk hkn (ptr X)
  obtain ⟨l, r, hlist, hL⟩ := h.middle
  have hL' : without y.1 L = l ++ X.toList ++ r := by
    have hn := h.nodup
    rw [hL] at hn ⊢
    rw [without_middle hn, hlistX]
    simp
  have hmem : ∀ i, i ∈ names X.toList ∨ i ∈ names (pathElems k) → i ∈ names (without y.1 L) := by
    intro i hi
    rw [names_without, h.mem_names, names, (hperm.map Prod.fst).mem_iff]
    simp only [map_cons, map_append, mem_cons, mem_append]
    refine ⟨.inr hi, fun heq => ?_⟩
    subst heq
    exact hi.elim hyX hyk
  refine ⟨t₁, t₂, X, hX, hab, h₁, h₂, ⟨?_, hpath₂, by rw [hlist, hL'], ?_⟩,
    hnum₂.trans hnum₁, ?_⟩
  · exact hrep₁.congr fun i hi => hout₂ i fun hik => hXk i hi i hik rfl
  · exact h.nodup.sublist ((filter_sublist).map _)
  · intro i hi
    rw [hout₂ i fun hik => hi (hmem i (.inr hik)), hout₁ i fun hiX => hi (hmem i (.inl hiX))]

/-- The colour of the node that was taken out decides about the fixup. -/
theorem fixupIfBlack_spec {c : Colour} {X : CTree (ι × α)} {y : ι × α} (hX : X = a ∨ X = b)
    (hbal : Balanced (plug k (join .left c a y b)) .black m) (h : At t X k L) (z q : Ptr ι) :
    ∃ t' T', Returns (fun fuel => fixupIfBlack fuel t z q c (ptr X) (above k)) t' ∧
      At t' T' [] L ∧ Rearranged t t' L ∧ ∃ m, Balanced T' .black m := by
  obtain ⟨pc, c', n, hk, hy, hfit⟩ := pathBalanced_of_plug hbal
  cases c with
  | red =>
    obtain ⟨rfl, ha, hb⟩ := hy.of_join_red
    have hXb : Balanced X .black n := by
      rcases hX with rfl | rfl
      · exact ha
      · exact hb
    refine ⟨t, _, Returns.of_eq fun fuel => ?_, at_plug_iff.mpr h, Rearranged.refl _ _,
      hk.plug hXb (fits_black _ _)⟩
    simp [fixupIfBlack]
  | black =>
    obtain ⟨rfl, n, ca, cb, rfl, ha, hb⟩ := hy.of_join_black
    have hXl : Lacking X n := by
      obtain ⟨cX, hXb⟩ : ∃ cX, Balanced X cX n := by
        rcases hX with rfl | rfl
        · exact ⟨ca, ha⟩
        · exact ⟨cb, hb⟩
      cases cX with
      | black => exact .inl ⟨hXb.colour_eq, hXb⟩
      | red => exact .inr ⟨hXb.colour_eq, hXb.blacken_red⟩
    have habove : above k ≠ .null := by
      cases k <;> simp
    obtain ⟨t', T', hret, hrest⟩ := deleteFixup_spec h hXl hk
    refine ⟨t', T', hret.congr fun fuel => ?_, hrest⟩
    simp [fixupIfBlack, habove]

/-! ## A node with two children -/

/-- The successor is the first node of the right subtree. -/
theorem leftmost_spec (h : At t T k L) (hT : T ≠ .nil) :
    ∃ k' c y b l, Returns (fun fuel => leftmost fuel t (ptr T)) (.node y.1) ∧
      At t (join .left c .nil y b) k' L ∧ T.toList = y :: l ∧
      plug k' (join .left c .nil y b) = plug k T := by
  induction T generalizing k with
  | nil => exact absurd rfl hT
  | node c l x r ihl _ =>
    have hchild : t.child .left (.node x.1) = some (ptr l) :=
      At.child_join (a := l) (b := r) (s := .left) h
    cases l with
    | nil =>
      refine ⟨k, c, x, r, r.toList, Returns.of_add 1 fun fuel => ?_, h, rfl, rfl⟩
      simp [leftmost, ptr, hchild]
    | node c' l' x' r' =>
      have hl : At t (.node c' l' x' r') (⟨.left, c, x, r⟩ :: k) L := at_cons_iff.mpr h
      obtain ⟨k', cy, y, b, rest, hret, hat, hlist, hplug⟩ := ihl hl (by simp)
      refine ⟨k', cy, y, b, rest ++ x :: r.toList, hret.turn fun fuel => ?_, hat, ?_, hplug⟩
      · simp [leftmost, ptr, hchild]
      · rw [toList, hlist, cons_append]

theorem replaceParent_eq {z : ι} (h : Rep t.nodes (.node z) T) (q : Ptr ι) :
    replaceParent t (ptr T) (.node z) q = t.setParentUnlessNil (ptr T) q := by
  cases T with
  | nil =>
    simp [replaceParent, FrRbTree.setParentUnlessNil, FrRbTree.parent, FrRbTree.get, sentinel]
  | node c l x r =>
    have hx := h.1
    simp [replaceParent, FrRbTree.setParentUnlessNil, FrRbTree.parent, FrRbTree.get, ptr, hx]

theorem replaceAbove_spec {z y : ι} (h : RepPath t k (.node z)) (hz : z ∉ names (pathElems k))
    (hn : (names (pathElems k)).Nodup) :
    ∃ t', takePlace.replaceAbove (.node z) (.node y) t (above k) = some t' ∧
      RepPath t' k (.node y) ∧ t'.numElements = t.numElements ∧
      ∀ j, j ∉ names (pathElems k) → t'.nodes j = t.nodes j := by
  obtain ⟨t', ht', hrest⟩ := relink_spec .left h hz hn (.node y)
  refine ⟨t', ?_, hrest⟩
  rw [← ht']
  rcases k with _ | ⟨f, k⟩
  · simp [takePlace.replaceAbove, relink]
  obtain ⟨s, c, x, S⟩ := f
  obtain ⟨hf, -, -⟩ := h
  simp only [names, pathElems, map_cons, map_append, mem_cons, mem_append, not_or] at hz
  obtain ⟨-, hzS, -⟩ := hz
  have hS : ptr S ≠ .node z := ptr_ne hzS
  cases s with
  | left =>
    have hf' : t.nodes x.1 = some ⟨.node z, ptr S, above k, some x.2, c, false⟩ := hf
    simp [takePlace.replaceAbove, relink, replaceChild, FrRbTree.child, FrRbTree.get, hf',
      FrRbTree.setChild, FrRbTree.modify, Node.child, Node.withChild, hS]
  | right =>
    have hf' : t.nodes x.1 = some ⟨ptr S, .node z, above k, some x.2, c, false⟩ := hf
    simp [takePlace.replaceAbove, relink, replaceChild, FrRbTree.child, FrRbTree.get, hf',
      FrRbTree.setChild, FrRbTree.modify, Node.child, Node.withChild, hS, Side.other]

omit [DecidableEq ι] in
theorem At.focus (h : At t T [] L) (hz : z ∈ L) :
    ∃ k c a b, T = plug k (join .left c a z b) ∧ At t (join .left c a z b) k L := by
  have hlist : T.toList = L := h.list
  rw [← hlist] at hz
  obtain ⟨k, c, a, b, rfl⟩ := exists_plug_of_mem .left hz
  exact ⟨k, c, a, b, rfl, at_plug_iff.mp h⟩

/-- The links that are set when `y` takes the place of `z`. -/
theorem takePlace_links {c : Colour} {y : ι × α} (h : At t (join .left c a z b) k L)
    (hy : y.1 ∉ names L) (halloc : t.nodes y.1 ≠ none) :
    ∃ t', takePlace t (.node z.1) (.node y.1) (some y.2) = some t' ∧
      t'.nodes y.1 = some (nodeOf .left (ptr a) (ptr b) (above k) y.2 c) ∧
      Rep t'.nodes (.node y.1) a ∧ Rep t'.nodes (.node y.1) b ∧ RepPath t' k (.node y.1) ∧
      t'.numElements = t.numElements ∧
      ∀ i, i ≠ y.1 → i ∉ names (pathElems k) → i ∉ names a.toList → i ∉ names b.toList →
        t'.nodes i = t.nodes i := by
  obtain ⟨hnode, ha, hb⟩ := (rep_join .left).mp h.rep
  have hpath := h.path
  rw [ptr_join] at hpath
  obtain ⟨-, -, hzk, han, hbn, hkn, hab, habk, hmem⟩ := h.around
  rw [hmem, not_or, not_or, not_or] at hy
  obtain ⟨-, ⟨hya, hyb⟩, hyk⟩ := hy
  obtain ⟨n₀, hn₀⟩ := Option.ne_none_iff_exists'.mp halloc
  -- y becomes a copy of z
  set t₁ := t.put y.1 (nodeOf .left (ptr a) (ptr b) (above k) y.2 c) with ht₁
  have h₁ : t.modify (.node y.1) (fun _ => ⟨ptr a, ptr b, above k, some y.2, c, false⟩) = some t₁ :=
    modify_node hn₀ _
  obtain ⟨t₂, h₂, hpath₂, hnum₂, hout₂⟩ :=
    replaceAbove_spec (t := t₁) (y := y.1) (hpath.put hyk _) hzk hkn
  -- the children follow
  have ha₂ : Rep t₂.nodes (.node z.1) a :=
    (ha.put hya _).congr fun i hi => hout₂ i (habk i (.inl hi))
  obtain ⟨t₃, h₃, ha₃, hroot₃, hnum₃, hout₃⟩ := setParentUnlessNil_spec ha₂ han (.node y.1)
  have hb₂ : Rep t₂.nodes (.node z.1) b :=
    (hb.put hyb _).congr fun i hi => hout₂ i (habk i (.inr hi))
  have hb₃ : Rep t₃.nodes (.node z.1) b := hb₂.congr fun i hi => hout₃ i fun hia => hab i hia hi
  obtain ⟨t₄, h₄, hb₄, hroot₄, hnum₄, hout₄⟩ := setParentUnlessNil_spec hb₃ hbn (.node y.1)
  rw [← replaceParent_eq ha₂] at h₃
  rw [← replaceParent_eq hb₃] at h₄
  refine ⟨t₄, ?_, ?_, ha₃.congr fun i hi => hout₄ i (hab i hi), hb₄, ?_, ?_, ?_⟩
  · have hnode' : t.nodes z.1 = some ⟨ptr a, ptr b, above k, some z.2, c, false⟩ := hnode
    simp only [takePlace, FrRbTree.get, hnode', Option.bind_eq_bind, Option.bind_some, h₁, h₂, h₃, h₄]
  · rw [hout₄ _ hyb, hout₃ _ hya, hout₂ _ hyk, ht₁, put_nodes_self]
  · refine hpath₂.congr (hroot₄.trans hroot₃) fun i hi => ?_
    rw [hout₄ i fun hib => habk i (.inr hib) hi, hout₃ i fun hia => habk i (.inl hia) hi]
  · rw [hnum₄, hnum₃, hnum₂, ht₁, put_numElements]
  · intro i hiy hik hia hib
    rw [hout₄ i hib, hout₃ i hia, hout₂ i hik, ht₁, put_nodes_ne _ _ hiy]

/-- `y` takes the place of `z` and keeps its data. -/
theorem takePlace_spec {y : ι × α} (h : At t T [] L) (hbal : Balanced T .black m)
    (hz : z ∈ L) (hy : y.1 ∉ names L) (halloc : t.nodes y.1 ≠ none) :
    ∃ t' T' m', takePlace t (.node z.1) (.node y.1) (some y.2) = some t' ∧
      At t' T' [] (exchanged z.1 y L) ∧ Balanced T' .black m' ∧ t'.numElements = t.numElements ∧
      t'.nodes z.1 = t.nodes z.1 ∧ ∀ i, i ∉ names L → i ≠ y.1 → t'.nodes i = t.nodes i := by
  obtain ⟨k, c, a, b, rfl, hat⟩ := h.focus hz
  obtain ⟨l, r, hlist, hL⟩ := hat.middle
  obtain ⟨hza, hzb, hzk, -, -, -, -, -, hmem⟩ := hat.around
  obtain ⟨t', htake, hy', ha', hb', hpath', hnum, hout⟩ := takePlace_links hat hy halloc
  obtain ⟨m', hm'⟩ := hbal.rename y
  refine ⟨t', plug k (join .left c a y b), m', htake, at_plug_iff.mpr
    ⟨(rep_join .left).mpr ⟨hy', ha', hb'⟩, ?_, ?_, nodup_exchanged z.1 h.nodup hy⟩, hm', hnum, ?_, ?_⟩
  · rw [ptr_join]
    exact hpath'
  · have hn := h.nodup
    rw [hL] at hn ⊢
    rw [hlist, exchanged_middle hn]
    simp [join, toList]
  · exact hout _ (fun heq => hy (heq ▸ mem_map_of_mem hz)) hzk hza hzb
  · intro i hi hiy
    rw [hmem, not_or, not_or, not_or] at hi
    exact hout i hiy hi.2.2 hi.2.1.1 hi.2.1.2

/-! ## `delete_internal` -/

/-- What memory holds for a node that is not in the tree: with nodes inside of
the data, one that does not pass for a node of the tree; with nodes on the heap,
nothing. -/
def Outside (cb : Callbacks ι α) (nodes : ι → Option (Node ι α)) (i : ι) : Prop :=
  match cb.nodeAlloc with
  | .inlineNode _ => ∃ n, nodes i = some n ∧ frRbNodeInlineInTree n = false
  | .heapNode => nodes i = none

theorem nodeFree_spec (cb : Callbacks ι α) {z : ι} (h : t.nodes z ≠ none) (freeData : Bool) :
    ∃ t', nodeFree cb t (.node z) freeData = some t' ∧ Outside cb t'.nodes z ∧ t'.root = t.root ∧
      t'.numElements = t.numElements ∧ ∀ i, i ≠ z → t'.nodes i = t.nodes i := by
  obtain ⟨n, hn⟩ := Option.ne_none_iff_exists'.mp h
  cases hcb : cb.nodeAlloc with
  | inlineNode node =>
    refine ⟨t.put z (if freeData && cb.dataFree then { n with beingFreed := true } else zeroNode),
      ?_, ?_, rfl, rfl, fun i hi => put_nodes_ne _ _ hi⟩
    · simp only [nodeFree, hcb]
      exact modify_node hn _
    · simp only [Outside, hcb, put_nodes_self, Option.some.injEq, exists_eq_left']
      split <;> simp [frRbNodeInlineInTree, zeroNode]
  | heapNode =>
    refine ⟨{ t with nodes := Function.update t.nodes z none }, ?_, ?_, rfl, rfl, ?_⟩
    · simp [nodeFree, hcb, hn]
    · simp [Outside, hcb]
    · intro i hi
      simp [hi]

omit [DecidableEq ι] in
theorem At.congr {t' : FrRbTree ι α} (h : At t T k L) (hroot : t'.root = t.root)
    (heq : ∀ i ∈ names L, t'.nodes i = t.nodes i) : At t' T k L := by
  refine ⟨h.rep.congr fun i hi => heq i (h.mem_names.mpr ?_),
    h.path.congr hroot fun i hi => heq i (h.mem_names.mpr ?_), h.list, h.nodup⟩
  all_goals
    rw [names, map_append, mem_append]
  · exact .inl hi
  · exact .inr hi

omit [DecidableEq ι] in
theorem At.nodes_ne_none (h : At t T [] L) (hz : z ∈ L) : t.nodes z.1 ≠ none := by
  obtain ⟨k, c, a, b, -, hat⟩ := h.focus hz
  simp [hat.nodes_join]

/-- What `delete_internal` promises for the node `z`. -/
structure Deleted (cb : Callbacks ι α) (t t' : FrRbTree ι α) (z : ι) (L : List (ι × α)) : Prop where
  shape : ∃ T m, At t' T [] (without z L) ∧ Balanced T .black m
  numElements : t'.numElements = u32 (t.numElements + 2 ^ 32 - 1)
  outside : Outside cb t'.nodes z
  nodes : ∀ i, i ∉ names L → t'.nodes i = t.nodes i

theorem freed_spec (cb : Callbacks ι α) (t₀ : FrRbTree ι α) {z : ι} (freeData : Bool)
    (h : At t T [] (without z L)) (hbal : Balanced T .black m) (hz : t.nodes z ≠ none)
    (hnum : t.numElements = t₀.numElements) (hzL : z ∈ names L)
    (hout : ∀ i, i ∉ names L → t.nodes i = t₀.nodes i) :
    ∃ t', nodeFree cb t (.node z) freeData = some t' ∧
      Deleted cb t₀ { t' with numElements := u32 (t'.numElements + 2 ^ 32 - 1) } z L := by
  obtain ⟨t', ht', hoz, hroot, hnum', hout'⟩ := nodeFree_spec cb hz freeData
  refine ⟨t', ht', ⟨T, m, h.congr hroot fun i hi => hout' i ?_, hbal⟩, ?_, hoz, ?_⟩
  · exact (names_without.mp hi).2
  · exact congrArg (fun n => u32 (n + 2 ^ 32 - 1)) (hnum'.trans hnum)
  · intro i hi
    rw [← hout i hi]
    exact hout' i fun heq => hi (heq ▸ hzL)

section

variable (cb : Callbacks ι α) {c : Colour} (h : At t (join .left c a z b) k L)
  (hbal : Balanced (plug k (join .left c a z b)) .black m)

include cb h hbal

/-- A node with a leaf below it. -/
theorem deleteInternal_leaf (hone : a = .nil ∨ b = .nil) (hz : z ∈ L) (freeData : Bool) :
    ∃ t', Returns (fun fuel => deleteInternal cb fuel t (.node z.1) freeData) t' ∧
      Deleted cb t t' z.1 L := by
  obtain ⟨t₁, t₂, X, hX, hab, h₁, h₂, hat₂, hnum₂, hout₂⟩ := splice_spec h hone
  obtain ⟨t₃, T₃, hret, hat₃, r₃, m₃, hbal₃⟩ := fixupIfBlack_spec hab hbal hat₂ (.node z.1) (.node z.1)
  have hzw : z.1 ∉ names (without z.1 L) := fun hmem => (names_without.mp hmem).2 rfl
  have hnode : t.nodes z.1 = some ⟨ptr a, ptr b, above k, some z.2, c, false⟩ := h.nodes_join
  have hnode₂ : t₂.nodes z.1 = some ⟨ptr a, ptr b, above k, some z.2, c, false⟩ := by
    rw [hout₂ _ hzw, hnode]
  have hout₃ : ∀ i, i ∉ names L → t₃.nodes i = t.nodes i := by
    intro i hi
    have hiw : i ∉ names (without z.1 L) := fun hmem => hi (names_without.mp hmem).1
    rw [r₃.nodes i hiw, hout₂ i hiw]
  obtain ⟨t₄, h₄, hdel⟩ := freed_spec cb t freeData hat₃ hbal₃
    (by rw [r₃.nodes _ hzw, hnode₂]; simp) (r₃.numElements.trans hnum₂)
    (mem_map.mpr ⟨z, hz, rfl⟩) hout₃
  have hleaf : ptr a = .nil ∨ ptr b = .nil := by
    rcases hone with rfl | rfl
    · exact .inl rfl
    · exact .inr rfl
  refine ⟨_, hret.imp fun fuel h₃ => ?_, hdel⟩
  simp only [deleteInternal, reduceCtorEq, or_self, if_false, deleteTarget, FrRbTree.get, hnode,
    hleaf, if_true, Option.bind_eq_bind, Option.bind_some, hX, h₁, h₂, hnode₂, h₃, takePlaceIfOther,
    ne_eq, not_true_eq_false, h₄]

/-- A node with two children: the successor `y` takes its place. -/
theorem deleteInternal_inner (ha : a ≠ .nil) (hb : b ≠ .nil) (hz : z ∈ L) (freeData : Bool) :
    ∃ t', Returns (fun fuel => deleteInternal cb fuel t (.node z.1) freeData) t' ∧
      Deleted cb t t' z.1 L := by
  have hbk : At t b (⟨.right, c, z, a⟩ :: k) L := at_cons_iff.mpr h
  obtain ⟨k', cy, y, by', rest, hleft, haty, hblist, hplug⟩ := leftmost_spec hbk hb
  -- the list around z and y
  obtain ⟨l, r, hlist, -⟩ := toList_plug k
  have hL : L = (l ++ a.toList) ++ z :: y :: (rest ++ r) := by
    rw [← h.list, hlist]
    simp [join, toList, hblist]
  have hL' : L = (l ++ a.toList ++ [z]) ++ y :: (rest ++ r) := by
    rw [hL]
    simp
  have hn := h.nodup
  have hyz : y.1 ≠ z.1 := by
    rw [hL'] at hn
    intro heq
    exact (not_mem_sides hn).1 (by simp [names, heq])
  have hwy : without y.1 L = (l ++ a.toList) ++ z :: (rest ++ r) := by
    rw [hL'] at hn ⊢
    rw [without_middle hn]
    simp
  obtain ⟨t₁, t₂, X, hX, hab, h₁, h₂, hat₂, hnum₂, hout₂⟩ := splice_spec haty (.inl rfl)
  have hbal' : Balanced (plug k' (join .left cy .nil y by')) .black m := by
    rw [hplug]
    exact hbal
  obtain ⟨t₃, T₃, hret, hat₃, r₃, m₃, hbal₃⟩ := fixupIfBlack_spec hab hbal' hat₂ (.node z.1) (.node y.1)
  have hyw : y.1 ∉ names (without y.1 L) := fun hmem => (names_without.mp hmem).2 rfl
  have hzw : z ∈ without y.1 L := mem_without.mpr ⟨hz, hyz.symm⟩
  have hnode : t.nodes y.1 = some ⟨.nil, ptr by', above k', some y.2, cy, false⟩ := haty.nodes_join
  have hnode₂ : t₂.nodes y.1 = some ⟨.nil, ptr by', above k', some y.2, cy, false⟩ := by
    rw [hout₂ _ hyw, hnode]
  obtain ⟨t₄, T₄, m₄, h₄, hat₄, hbal₄, hnum₄, hz₄, hout₄⟩ := takePlace_spec hat₃ hbal₃ hzw hyw
    (by rw [r₃.nodes _ hyw, hnode₂]; simp)
  have hex : exchanged z.1 y (without y.1 L) = without z.1 L := by
    have hn' := hat₃.nodup
    rw [hwy] at hn' ⊢
    rw [exchanged_middle hn' y]
    rw [hL] at hn ⊢
    rw [without_middle hn]
  rw [hex] at hat₄
  have hout : ∀ i, i ∉ names L → t₄.nodes i = t.nodes i := by
    intro i hi
    have hiw : i ∉ names (without y.1 L) := fun hmem => hi (names_without.mp hmem).1
    have hiy : i ≠ y.1 := by
      rintro rfl
      exact hi (by rw [hL']; simp [names])
    rw [hout₄ i hiw hiy, r₃.nodes i hiw, hout₂ i hiw]
  obtain ⟨t₅, h₅, hdel⟩ := freed_spec cb t freeData hat₄ hbal₄
    (by rw [hz₄]; exact hat₃.nodes_ne_none hzw)
    (hnum₄.trans (r₃.numElements.trans hnum₂)) (mem_map.mpr ⟨z, hz, rfl⟩) hout
  have hnz : t.nodes z.1 = some ⟨ptr a, ptr b, above k, some z.2, c, false⟩ := h.nodes_join
  have hchildren : ¬ (ptr a = .nil ∨ ptr b = .nil) :=
    not_or.mpr ⟨ptr_ne_nil ha, ptr_ne_nil hb⟩
  refine ⟨_, hleft.after hret fun fuel hy h₃ => ?_, hdel⟩
  simp only [ptr_nil, ne_eq, not_true_eq_false, if_false] at hX
  simp only [deleteInternal, reduceCtorEq, or_self, if_false, deleteTarget, FrRbTree.get, hnz,
    hchildren, hy, Option.bind_eq_bind, Option.bind_some, hnode, ne_eq, not_true_eq_false, hX, h₁,
    h₂, hnode₂, h₃, takePlaceIfOther, Ptr.node.injEq, hyz, not_false_eq_true, if_true, h₄, h₅]

end

/-- `delete_internal` takes the node out of the tree. -/
theorem deleteInternal_spec (cb : Callbacks ι α) (h : At t T [] L)
    (hbal : Balanced T .black m) (hz : z ∈ L) (freeData : Bool) :
    ∃ t', Returns (fun fuel => deleteInternal cb fuel t (.node z.1) freeData) t' ∧
      Deleted cb t t' z.1 L := by
  obtain ⟨k, c, a, b, rfl, hat⟩ := h.focus hz
  by_cases hone : a = .nil ∨ b = .nil
  · exact deleteInternal_leaf cb hat hbal hone hz freeData
  · rw [not_or] at hone
    exact deleteInternal_inner cb hat hbal hone.1 hone.2 hz freeData

end FreeRadius.Rb
