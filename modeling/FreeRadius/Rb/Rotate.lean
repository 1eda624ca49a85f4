import FreeRadius.Rb.Shape

/-!
# Recolouring and rotating

The steps that the two fixups are made of, as steps from one tree to another
with the same nodes in order.
-/

namespace FreeRadius.Rb

open Library Library.RedBlack Library.RedBlack.CTree List

variable {ι α : Type} [DecidableEq ι] {t : FrRbTree ι α} {T : CTree (ι × α)}
  {k : List (Frame (ι × α))} {L : List (ι × α)} {a b : CTree (ι × α)} {x : ι × α} {s : Side}

@[simp] theorem put_numElements (t : FrRbTree ι α) (i : ι) (n : Node ι α) :
    (t.put i n).numElements = t.numElements := rfl

@[simp] theorem put_nodes_self (t : FrRbTree ι α) (i : ι) (n : Node ι α) :
    (t.put i n).nodes i = some n := by
  simp [FrRbTree.put]

variable {i : ι} {c cx cy : Colour} {g : CTree (ι × α)} {y : ι × α}

theorem put_nodes_ne (t : FrRbTree ι α) {j : ι} (n : Node ι α) (h : j ≠ i) :
    (t.put i n).nodes j = t.nodes j := by
  simp [FrRbTree.put, h]

theorem modify_node {n : Node ι α} (h : t.nodes i = some n) (f : Node ι α → Node ι α) :
    t.modify (.node i) f = some (t.put i (f n)) := by
  simp [FrRbTree.modify, h]

theorem Rep.put {p : Ptr ι} (h : Rep t.nodes p T) (hi : i ∉ names T.toList) (n : Node ι α) :
    Rep (t.put i n).nodes p T :=
  h.congr fun _ hj => put_nodes_ne _ _ (ne_of_mem_of_not_mem hj hi)

theorem RepPath.put {p : Ptr ι} (h : RepPath t k p) (hi : i ∉ names (pathElems k)) (n : Node ι α) :
    RepPath (t.put i n) k p :=
  h.congr rfl fun _ hj => put_nodes_ne _ _ (ne_of_mem_of_not_mem hj hi)

/-- The names around a node of the tree are distinct. -/
structure Around (a b : CTree (ι × α)) (x : ι × α) (k : List (Frame (ι × α))) (L : List (ι × α)) :
    Prop where
  left : x.1 ∉ names a.toList
  right : x.1 ∉ names b.toList
  path : x.1 ∉ names (pathElems k)
  nodup_left : (names a.toList).Nodup
  nodup_right : (names b.toList).Nodup
  nodup_path : (names (pathElems k)).Nodup
  apart : ∀ i ∈ names a.toList, i ∉ names b.toList
  apart_path : ∀ i, i ∈ names a.toList ∨ i ∈ names b.toList → i ∉ names (pathElems k)
  mem_iff : ∀ i, i ∈ names L ↔ i = x.1 ∨ (i ∈ names a.toList ∨ i ∈ names b.toList) ∨
    i ∈ names (pathElems k)

omit [DecidableEq ι] in
theorem At.around (h : At t (join s c a x b) k L) : Around a b x k L := by
  have hperm := ((toList_join_perm s c a x b).append_right (pathElems k)).map Prod.fst
  have hdis := hperm.nodup_iff.mp h.distinct
  simp only [cons_append, map_cons, map_append, nodup_cons, mem_append, not_or, nodup_append] at hdis
  obtain ⟨⟨⟨hxa, hxb⟩, hxk⟩, ⟨ha, hb, hab⟩, hk, habk⟩ := hdis
  refine ⟨hxa, hxb, hxk, ha, hb, hk, fun i hi hi' => hab i hi i hi' rfl,
    fun i hi hi' => habk i hi i hi' rfl, fun i => ?_⟩
  rw [h.mem_names, names, hperm.mem_iff]
  simp only [cons_append, map_cons, map_append, mem_cons, mem_append, names]

/-- A node gets another colour or other data. -/
theorem At.put_node {L' : List (ι × α)} {d : α} (h : At t (join s c a x b) k L) (c' : Colour)
    (hlist : (plug k (join s c' a (x.1, d) b)).toList = L') (hn : (names L').Nodup) :
    At (t.put x.1 (nodeOf s (ptr a) (ptr b) (above k) d c')) (join s c' a (x.1, d) b) k L' := by
  obtain ⟨-, ha, hb⟩ := (rep_join s).mp h.rep
  have hpath := h.path
  have hx := h.around
  rw [ptr_join] at hpath
  refine ⟨(rep_join s).mpr ⟨put_nodes_self _ _ _, ha.put hx.left _, hb.put hx.right _⟩, ?_, hlist, hn⟩
  rw [ptr_join]
  exact hpath.put hx.path _

/-! ## Colours -/

theorem At.put_colour (h : At t (join s c a x b) k L) (c' : Colour) :
    At (t.put x.1 (nodeOf s (ptr a) (ptr b) (above k) x.2 c')) (join s c' a x b) k L := by
  refine h.put_node c' ?_ h.nodup
  rw [← h.list]
  exact toList_plug_congr k (toList_join_recolour s c' c x rfl rfl)

theorem At.setColour (h : At t (join s c a x b) k L) (c' : Colour) :
    ∃ t', t.setColour (.node x.1) c' = some t' ∧ At t' (join s c' a x b) k L ∧
      Rearranged t t' L := by
  refine ⟨_, ?_, h.put_colour c', rfl, ?_⟩
  · rw [FrRbTree.setColour, modify_node h.nodes_join, nodeOf_withColour]
  exact fun i hi => put_nodes_ne _ _ fun heq => hi ((h.around.mem_iff i).mpr (.inl heq))

/-! ## Links -/

theorem setParentUnlessNil_spec {p : Ptr ι} (h : Rep t.nodes p T) (hn : (names T.toList).Nodup)
    (q : Ptr ι) :
    ∃ t', t.setParentUnlessNil (ptr T) q = some t' ∧ Rep t'.nodes q T ∧ t'.root = t.root ∧
      t'.numElements = t.numElements ∧ ∀ i, i ∉ names T.toList → t'.nodes i = t.nodes i := by
  rcases T with _ | ⟨c, l, x, r⟩
  · exact ⟨t, by simp [FrRbTree.setParentUnlessNil], trivial, rfl, rfl, fun _ _ => rfl⟩
  obtain ⟨hx, hl, hr⟩ := h
  simp only [names, toList, map_append, map_cons, nodup_append, nodup_cons]
    at hn
  obtain ⟨-, ⟨hxr, -⟩, hlr⟩ := hn
  have hxl : x.1 ∉ names l.toList := fun hmem => hlr _ hmem _ (by simp) rfl
  refine ⟨t.put x.1 (nodeOf .left (ptr l) (ptr r) q x.2 c), ?_, ⟨put_nodes_self _ _ _, ?_, ?_⟩,
    rfl, rfl, ?_⟩
  · rw [FrRbTree.setParentUnlessNil, if_neg (by simp [ptr]), FrRbTree.setParent, ptr,
      modify_node hx, nodeOf_withParent]
  · exact hl.put hxl _
  · exact hr.put hxr _
  · intro i hi
    refine put_nodes_ne _ _ fun heq => hi ?_
    simp [names, toList, heq]

/-- Another subtree is linked to the end of a path. -/
theorem relink_spec (s : Side) (h : RepPath t k (.node i)) (hi : i ∉ names (pathElems k))
    (hn : (names (pathElems k)).Nodup) (q : Ptr ι) :
    ∃ t', relink s t (.node i) (above k) q = some t' ∧ RepPath t' k q ∧
      t'.numElements = t.numElements ∧ ∀ j, j ∉ names (pathElems k) → t'.nodes j = t.nodes j := by
  rcases k with _ | ⟨f, k⟩
  · exact ⟨{ t with root := q }, by simp [relink, above], rfl, rfl, fun _ _ => rfl⟩
  obtain ⟨fs, c, x, S⟩ := f
  obtain ⟨hf, hS, hk⟩ := h
  simp only [names, pathElems, map_cons, nodup_cons, map_append, mem_append, mem_cons,
    not_or] at hi hn hf hS hk
  obtain ⟨hix, hiS, -⟩ := hi
  obtain ⟨⟨hxS, hxk⟩, -⟩ := hn
  refine ⟨t.put x.1 (nodeOf fs q (ptr S) (above k) x.2 c), ?_, ⟨put_nodes_self _ _ _, ?_, ?_⟩,
    rfl, ?_⟩
  · have hchild : t.child s (.node x.1) = some ((nodeOf fs (.node i) (ptr S) (above k) x.2 c).child
        s) := by
      simp [FrRbTree.child, FrRbTree.get, hf]
    simp only [relink, above_cons, reduceCtorEq, if_false, hchild, Option.bind_eq_bind,
      Option.bind_some]
    by_cases hs : s = fs
    · subst hs
      rw [nodeOf_child, if_pos rfl, FrRbTree.setChild, modify_node hf, nodeOf_withChild]
    · obtain rfl := Side.eq_other_of_ne hs
      rw [nodeOf_child_other, if_neg (ptr_ne hiS), Side.other_other, FrRbTree.setChild,
        modify_node hf, nodeOf_withChild]
  · exact hS.put hxS _
  · exact hk.put hxk _
  · intro j hj
    refine put_nodes_ne _ _ fun heq => hj ?_
    simp [names, pathElems, heq]

/-! ## Rotations -/

/-- The names that a rotation works on are distinct. -/
structure Apart (a b g : CTree (ι × α)) (x y : ι × α) (k : List (Frame (ι × α))) : Prop where
  roots : x.1 ≠ y.1
  fst : x.1 ∉ names a.toList ∧ x.1 ∉ names b.toList ∧ x.1 ∉ names g.toList ∧
    x.1 ∉ names (pathElems k)
  snd : y.1 ∉ names a.toList ∧ y.1 ∉ names b.toList ∧ y.1 ∉ names g.toList ∧
    y.1 ∉ names (pathElems k)
  nodup_inner : (names b.toList).Nodup
  nodup_path : (names (pathElems k)).Nodup
  inner : ∀ i ∈ names b.toList, i ∉ names a.toList ∧ i ∉ names g.toList ∧ i ∉ names (pathElems k)
  path : ∀ i ∈ names (pathElems k), i ∉ names a.toList ∧ i ∉ names g.toList

omit [DecidableEq ι] in
theorem At.apart (h : At t (join s cx a x (join s cy b y g)) k L) : Apart a b g x y k := by
  -- the names around y, where x and its other subtree are on the path
  obtain ⟨hyb, hyg, hpath, hb, -, hnodup, hbg, hbk, -⟩ := (at_sibling_iff.mp (at_cons_iff.mpr h)).around
  simp only [names, pathElems, map_cons, map_append, mem_cons, mem_append, not_or, nodup_cons,
    nodup_append] at hpath hnodup hbk
  obtain ⟨hyx, hya, hyk⟩ := hpath
  obtain ⟨⟨hxa, hxk⟩, -, hk, hak⟩ := hnodup
  refine ⟨Ne.symm hyx, ⟨hxa, fun hx => (hbk _ (.inl hx)).1 rfl, fun hx => (hbk _ (.inr hx)).1 rfl, hxk⟩,
    ⟨hya, hyb, hyg, hyk⟩, hb, hk, fun i hi => ?_, fun i hi => ?_⟩
  · exact ⟨(hbk i (.inl hi)).2.1, hbg i hi, (hbk i (.inl hi)).2.2⟩
  · exact ⟨fun ha => hak i ha i hi rfl, fun hg => (hbk i (.inr hg)).2.2 hi⟩

/-- The links that a rotation sets. -/
theorem rotate_links (h : At t (join s cx a x (join s cy b y g)) k L) :
    ∃ t', Rb.rotate s t (.node x.1) = some t' ∧
      t'.nodes x.1 = some (nodeOf s (ptr a) (ptr b) (.node y.1) x.2 cx) ∧
      t'.nodes y.1 = some (nodeOf s (.node x.1) (ptr g) (above k) y.2 cy) ∧
      Rep t'.nodes (.node x.1) b ∧ RepPath t' k (.node y.1) ∧ t'.numElements = t.numElements ∧
      ∀ i, i ≠ x.1 → i ≠ y.1 → i ∉ names b.toList → i ∉ names (pathElems k) →
        t'.nodes i = t.nodes i := by
  obtain ⟨hx, -, hyg⟩ := (rep_join s).mp h.rep
  obtain ⟨hy, hb, -⟩ := (rep_join s).mp hyg
  have hpath := h.path
  rw [ptr_join] at hx hpath
  obtain ⟨hroots, ⟨-, hxb, -, hxk⟩, ⟨-, hyb, -, hyk⟩, hbn, hkn, hba, -⟩ := h.apart
  -- x gets the inner subtree
  set t₁ := t.put x.1 (nodeOf s (ptr a) (ptr b) (above k) x.2 cx) with ht₁
  have h₁ : t.setChild s.other (.node x.1) (ptr b) = some t₁ := by
    rw [FrRbTree.setChild, modify_node hx, nodeOf_withChild_other]
  obtain ⟨t₂, h₂, hb₂, hroot₂, hnum₂, hout₂⟩ :=
    setParentUnlessNil_spec (t := t₁) (hb.put hxb _) hbn (.node x.1)
  -- y goes below the path
  have hx₂ : t₂.nodes x.1 = some (nodeOf s (ptr a) (ptr b) (above k) x.2 cx) := by
    rw [hout₂ _ hxb, ht₁, put_nodes_self]
  have hy₂ : t₂.nodes y.1 = some (nodeOf s (ptr b) (ptr g) (.node x.1) y.2 cy) := by
    rw [hout₂ _ hyb, ht₁, put_nodes_ne _ _ hroots.symm, hy]
  have hp₂ : t₂.parent (.node x.1) = some (above k) := by
    simp [FrRbTree.parent, FrRbTree.get, hx₂]
  set t₃ := t₂.put y.1 (nodeOf s (ptr b) (ptr g) (above k) y.2 cy) with ht₃
  have h₃ : t₂.setParentUnlessNil (.node y.1) (above k) = some t₃ := by
    rw [FrRbTree.setParentUnlessNil, if_neg (by simp), FrRbTree.setParent, modify_node hy₂,
      nodeOf_withParent]
  have hpath₃ : RepPath t₃ k (.node x.1) := by
    refine RepPath.put ((hpath.put hxk _).congr hroot₂ fun i hi => hout₂ i ?_) hyk _
    exact fun hib => (hba i hib).2.2 hi
  obtain ⟨t₄, h₄, hpath₄, hnum₄, hout₄⟩ := relink_spec s hpath₃ hxk hkn (.node y.1)
  -- x goes below y
  have hy₄ : t₄.nodes y.1 = some (nodeOf s (ptr b) (ptr g) (above k) y.2 cy) := by
    rw [hout₄ _ hyk, ht₃, put_nodes_self]
  set t₅ := t₄.put y.1 (nodeOf s (.node x.1) (ptr g) (above k) y.2 cy) with ht₅
  have h₅ : t₄.setChild s (.node y.1) (.node x.1) = some t₅ := by
    rw [FrRbTree.setChild, modify_node hy₄, nodeOf_withChild]
  have hx₅ : t₅.nodes x.1 = some (nodeOf s (ptr a) (ptr b) (above k) x.2 cx) := by
    rw [ht₅, put_nodes_ne _ _ hroots, hout₄ _ hxk, ht₃, put_nodes_ne _ _ hroots, hx₂]
  have h₆ : t₅.setParentUnlessNil (.node x.1) (.node y.1) =
      some (t₅.put x.1 (nodeOf s (ptr a) (ptr b) (.node y.1) x.2 cx)) := by
    rw [FrRbTree.setParentUnlessNil, if_neg (by simp), FrRbTree.setParent, modify_node hx₅,
      nodeOf_withParent]
  refine ⟨t₅.put x.1 _, ?_, put_nodes_self _ _ _, ?_, ?_, (hpath₄.put hyk _).put hxk _, ?_, ?_⟩
  · simp only [Rb.rotate, FrRbTree.child, FrRbTree.get, hx, hy, Option.map_some,
      Option.bind_eq_bind, Option.bind_some, nodeOf_child, nodeOf_child_other, h₁, h₂, hp₂, h₃, h₄,
      h₅, h₆]
  · rw [put_nodes_ne _ _ hroots.symm, ht₅, put_nodes_self]
  · have hb₄ : Rep t₄.nodes (.node x.1) b :=
      (hb₂.put hyb _).congr fun i hi => hout₄ i (hba i hi).2.2
    exact (hb₄.put hyb _).put hxb _
  · rw [put_numElements, ht₅, put_numElements, hnum₄, ht₃, put_numElements, hnum₂, ht₁,
      put_numElements]
  · intro i hix hiy hib hik
    rw [put_nodes_ne _ _ hix, ht₅, put_nodes_ne _ _ hiy, hout₄ i hik, ht₃, put_nodes_ne _ _ hiy,
      hout₂ i hib, ht₁, put_nodes_ne _ _ hix]

theorem At.rotate (h : At t (join s cx a x (join s cy b y g)) k L) :
    ∃ t', Rb.rotate s t (.node x.1) = some t' ∧ At t' (join s cy (join s cx a x b) y g) k L ∧
      Rearranged t t' L := by
  obtain ⟨-, ha, hyg⟩ := (rep_join s).mp h.rep
  obtain ⟨-, -, hg⟩ := (rep_join s).mp hyg
  obtain ⟨-, ⟨hxa, -, hxg, -⟩, ⟨hya, -, hyg, -⟩, -, -, hb, hk⟩ := h.apart
  obtain ⟨t', hrotate, hx', hy', hb', hpath', hnum, hout⟩ := rotate_links h
  refine ⟨t', hrotate, ⟨(rep_join s).mpr ⟨?_, (rep_join s).mpr ⟨hx', ?_, hb'⟩, ?_⟩, ?_, ?_, h.nodup⟩,
    hnum, fun i hi => ?_⟩
  · rw [ptr_join]
    exact hy'
  · refine ha.congr fun i hi => hout i (ne_of_mem_of_not_mem hi hxa) (ne_of_mem_of_not_mem hi hya) ?_ ?_
    · exact fun hib => (hb i hib).1 hi
    · exact fun hik => (hk i hik).1 hi
  · refine hg.congr fun i hi => hout i (ne_of_mem_of_not_mem hi hxg) (ne_of_mem_of_not_mem hi hyg) ?_ ?_
    · exact fun hib => (hb i hib).2.1 hi
    · exact fun hik => (hk i hik).2 hi
  · rw [ptr_join]
    exact hpath'
  · rw [← h.list]
    exact toList_plug_congr k (by cases s <;> simp [join, toList])
  · rw [(at_sibling_iff.mp (at_cons_iff.mpr h)).around.mem_iff] at hi
    simp only [names, pathElems, map_cons, map_append, mem_cons, mem_append, not_or] at hi
    obtain ⟨hiy, ⟨hib, -⟩, hix, -, hik⟩ := hi
    exact hout i hix hiy hib hik

end FreeRadius.Rb
