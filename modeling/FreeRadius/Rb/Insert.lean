import FreeRadius.Rb.Rotate

/-!
# Insertion

The fixup moves a red node with a red parent up the path until there is none.
The search goes down a path on which every comparison agrees with the side.
-/

namespace FreeRadius.Rb

open Library Library.RedBlack Library.RedBlack.CTree List
open Std (TransCmp OrientedCmp ReflCmp)

variable {ι α : Type} [DecidableEq ι] {t : FrRbTree ι α} {T : CTree (ι × α)}
  {k : List (Frame (ι × α))} {L : List (ι × α)}

/-! ## The fixup -/

/-- What a step of the fixup leaves: a red subtree again, with a shorter path. -/
structure InsertStep (t t' : FrRbTree ι α) (T' : CTree (ι × α)) (k' : List (Frame (ι × α)))
    (L : List (ι × α)) : Prop where
  shape : At t' T' k' L
  rearranged : Rearranged t t' L
  balanced : ∃ pc n, Balanced T' .red n ∧ PathBalanced k' pc n

variable {pc : Colour} {n : ℕ}

section Fixup

variable {fs gs : Side} {p g : ι × α} {F U : CTree (ι × α)} {n : ℕ}

section

variable (h : At t T (⟨fs, .red, p, F⟩ :: ⟨gs, .black, g, U⟩ :: k) L) (hT : Balanced T .red n)

include h hT

/-- The uncle is red: three nodes change their colours. -/
theorem insertFixupStep_red (hF : Balanced F .black n) (hU : Balanced U .red n)
    (hk : PathBalanced k pc (n + 1)) :
    ∃ t' T', insertFixupStep gs t (ptr T) = some (t', ptr T') ∧ InsertStep t t' T' k L := by
  obtain ⟨a, x, b, rfl, -, -⟩ := hT.exists_join_red .left
  obtain ⟨u₁, u, u₂, rfl, hu₁, hu₂⟩ := hU.exists_join_red gs
  have hp := at_cons_iff.mp h
  have huncle := (at_sibling_iff.mp hp).colour
  rw [ptr_join, colour_join] at huncle
  obtain ⟨t₁, h₁, hat₁, r₁⟩ := hp.setColour .black
  obtain ⟨t₂, h₂, hat₂, r₂⟩ := (at_sibling_iff.mp hat₁).setColour .black
  obtain ⟨t₃, h₃, hat₃, r₃⟩ := (at_cons_iff.mp hat₂).setColour .red
  refine ⟨t₃, _, ?_, hat₃, (r₁.trans r₂).trans r₃, pc, n + 1, ?_, hk⟩
  · simp only [insertFixupStep, ptr_join, h.parent_join, above_cons, Option.bind_eq_bind,
      Option.bind_some, h.parent_frame, hp.child_frame_other, huncle, if_true, h₁, h₂, h₃]
  · exact (hu₁.join_black hu₂).join_red (hT.join_black hF)

/-- "make x a left child", for either side. -/
theorem insertTurn_spec (hF : Balanced F .black n) :
    ∃ t' T' p' F', insertTurn gs t (ptr T) = some (t', ptr T') ∧
      At t' T' (⟨gs, .red, p', F'⟩ :: ⟨gs, .black, g, U⟩ :: k) L ∧ Rearranged t t' L ∧
      Balanced T' .red n ∧ Balanced F' .black n := by
  obtain ⟨a, x, b, rfl, ha, hb⟩ := hT.exists_join_red gs
  have hne : join gs .red a x b ≠ .nil := by
    cases gs <;> simp [join]
  by_cases hs : fs = gs
  · subst hs
    refine ⟨t, _, p, F, ?_, h, Rearranged.refl _ _, hT, hF⟩
    simp only [insertTurn, ptr_join, h.parent_join, above_cons, Option.bind_eq_bind,
      Option.bind_some, h.child_frame_other]
    have hx := h.ptr_ne_sibling (.inl hne)
    rw [ptr_join] at hx
    rw [if_neg hx]
  · obtain rfl := Side.eq_other_of_ne hs
    have hp := at_cons_iff.mp h
    rw [join_other] at hp
    obtain ⟨t', ht', hat, r⟩ := hp.rotate
    refine ⟨t', _, x, b, ?_, at_cons_iff.mpr hat, r, hF.join_red ha, hb⟩
    simp only [insertTurn, ptr_join, h.parent_join, above_cons, Option.bind_eq_bind,
      Option.bind_some, h.child_frame, if_true, ht']

/-- The uncle is black: the red nodes are rotated apart. -/
theorem insertFixupStep_black (hF : Balanced F .black n) (hU : Balanced U .black n)
    (hk : PathBalanced k pc (n + 1)) :
    ∃ t' T' f, insertFixupStep gs t (ptr T) = some (t', ptr T') ∧
      InsertStep t t' T' (f :: k) L := by
  have hp := at_cons_iff.mp h
  have huncle := (at_sibling_iff.mp hp).colour
  rw [hU.colour_eq] at huncle
  obtain ⟨t₁, T', p', F', h₁, hat₁, r₁, hT', hF'⟩ := insertTurn_spec h hT hF
  obtain ⟨t₂, h₂, hat₂, r₂⟩ := (at_cons_iff.mp hat₁).setColour .black
  obtain ⟨t₃, h₃, hat₃, r₃⟩ := (at_cons_iff.mp hat₂).setColour .red
  rw [← join_other gs .red, ← join_other gs .black] at hat₃
  obtain ⟨t₄, h₄, hat₄, r₄⟩ := hat₃.rotate
  refine ⟨t₄, T', _, ?_, at_sibling_iff.mp (at_cons_iff.mpr hat₄),
    ((r₁.trans r₂).trans r₃).trans r₄, .black, n, hT', .black hk (hU.join_red hF')⟩
  obtain ⟨a, x, b, rfl, -, -⟩ := hT.exists_join_red .left
  obtain ⟨a', x', b', rfl, -, -⟩ := hT'.exists_join_red .left
  rw [ptr_join] at h₁
  simp only [insertFixupStep, ptr_join, h.parent_join, above_cons, Option.bind_eq_bind,
    Option.bind_some, h.parent_frame, hp.child_frame_other, huncle, reduceCtorEq, if_false, h₁,
    hat₁.parent_join, h₂, hat₂.parent_join, h₃, h₄]

theorem redParent_red : redParent t (ptr T) = some (some gs) := by
  have hroot : ptr T ≠ t.root := fun heq => by cases h.root_eq_iff.mp heq
  obtain ⟨a, x, b, rfl, -, -⟩ := hT.exists_join_red .left
  have hp := at_cons_iff.mp h
  have hleft : t.child .left (.node g.1) =
      some (if gs = .left then .node p.1 else ptr U) := by
    cases gs with
    | left => simpa using hp.child_frame
    | right => exact hp.child_frame_other
  have hU : Ptr.node p.1 ≠ ptr U := by
    have := hp.ptr_ne_sibling (.inl (by cases fs <;> simp [join]))
    rwa [ptr_join] at this
  rw [ptr_join] at hroot ⊢
  simp only [redParent, if_neg hroot, h.parent_join, above_cons, Option.bind_eq_bind,
    Option.bind_some, h.colour_frame, if_true, h.parent_frame, hleft]
  cases gs with
  | left => simp
  | right => simp [hU]

end

end Fixup

theorem redParent_none (h : At t T k L) (hT : Balanced T .red n) (hk : PathBalanced k .black n) :
    redParent t (ptr T) = some none := by
  cases hk with
  | nil =>
    rw [redParent, if_pos (h.root_eq_iff.mpr rfl)]
  | black hk hS =>
    have hroot : ptr T ≠ t.root := fun heq => by cases h.root_eq_iff.mp heq
    obtain ⟨a, x, b, rfl, -, -⟩ := hT.exists_join_red .left
    rw [ptr_join] at hroot ⊢
    simp only [redParent, if_neg hroot, h.parent_join, above_cons, Option.bind_eq_bind,
      Option.bind_some, h.colour_frame, reduceCtorEq, if_false]

theorem At.blacken (h : At t T [] L) (hT : T ≠ .nil) :
    ∃ t', t.setColour t.root .black = some t' ∧ At t' T.blacken [] L ∧ Rearranged t t' L := by
  rcases T.eq_nil_or_join .left with rfl | ⟨c, a, x, b, rfl⟩
  · exact absurd rfl hT
  have hroot : t.root = .node x.1 := by
    have hp := h.path
    rwa [ptr_join] at hp
  rw [hroot, blacken_join]
  exact h.setColour .black

theorem insertFixup_spec (h : At t T k L) (hT : Balanced T .red n) (hk : PathBalanced k pc n) :
    ∃ t' T', Returns (fun fuel => insertFixup fuel t (ptr T)) t' ∧ At t' T' [] L ∧
      Rearranged t t' L ∧ ∃ m, Balanced T' .black m := by
  -- by induction on the length of the path
  induction hlen : k.length using Nat.strong_induction_on generalizing t T k pc n with
  | _ len ih =>
    have hstop : ∀ {pc : Colour}, pc = .black → PathBalanced k pc n →
        ∃ t' T', Returns (fun fuel => insertFixup fuel t (ptr T)) t' ∧ At t' T' [] L ∧
          Rearranged t t' L ∧ ∃ m, Balanced T' .black m := by
      rintro _ rfl hk
      have hW := at_plug_iff.mpr h
      have hbal : (∃ m, Balanced (plug k T).blacken .black m) ∧ plug k T ≠ .nil := by
        cases k with
        | nil =>
          exact ⟨hT.blacken, fun heq => by simp only [plug] at heq; subst heq; cases hT⟩
        | cons f k =>
          obtain ⟨m, hm⟩ := hk.plug hT ⟨fun _ => rfl, fun heq => by cases heq⟩
          refine ⟨hm.blacken, fun heq => ?_⟩
          have := (toList_plug_perm (f :: k) T).length_eq
          rw [heq] at this
          simp [toList, pathElems] at this
      obtain ⟨t', ht', hat, r⟩ := hW.blacken hbal.2
      refine ⟨t', _, Returns.of_add 1 fun fuel => ?_, hat, r, hbal.1⟩
      simp only [insertFixup, redParent_none h hT hk, Option.bind_eq_bind, Option.bind_some, ht']
    cases hk with
    | nil => exact hstop rfl (.nil n)
    | black hk hS => exact hstop rfl (.black hk hS)
    | @red fs p F f k n hk hF =>
      cases hk with
      | @black gs g U k n c cU hk hU =>
        have hgo := redParent_red h hT
        have hnext : ∃ t' T' k', insertFixupStep gs t (ptr T) = some (t', ptr T') ∧
            InsertStep t t' T' k' L ∧ k'.length < len := by
          cases cU with
          | red =>
            obtain ⟨t', T', hs, hst⟩ := insertFixupStep_red h hT hF hU hk
            exact ⟨t', T', k, hs, hst, by simp only [length_cons] at hlen; omega⟩
          | black =>
            obtain ⟨t', T', f, hs, hst⟩ := insertFixupStep_black h hT hF hU hk
            exact ⟨t', T', f :: k, hs, hst, by simp only [length_cons] at hlen ⊢; omega⟩
        obtain ⟨t₁, T₁, k₁, hs, hst, hlt⟩ := hnext
        obtain ⟨pc₁, n₁, hT₁, hk₁⟩ := hst.balanced
        obtain ⟨t', T', hret, hat, r, hbal⟩ := ih _ hlt hst.shape hT₁ hk₁ rfl
        refine ⟨t', T', hret.turn fun fuel => ?_, hat, hst.rearranged.trans r, hbal⟩
        simp only [insertFixup, hgo, hs, Option.bind_eq_bind, Option.bind_some]

/-! ## The search -/

/-- The data is before or behind the nodes of the path as their sides say. -/
def Follows (cmp : α → α → Ordering) (data : α) (k : List (Frame (ι × α))) : Prop :=
  ∀ f ∈ k, cmp data f.elem.2 = match f.side with | .left => .lt | .right => .gt

/-- The data of the nodes in order is strictly increasing. -/
def Increasing (cmp : α → α → Ordering) (L : List (ι × α)) : Prop :=
  L.Pairwise fun x y => cmp x.2 y.2 = .lt

section Search

variable {cmp : α → α → Ordering} [TransCmp cmp] {data : α}

omit [DecidableEq ι] in
/-- All nodes before the end of the path are less than the data, and all nodes
behind it are greater. -/
theorem Follows.between (h : Follows cmp data k) (hs : Increasing cmp (plug k .nil).toList) :
    ∃ l r, (∀ T, (plug k T).toList = l ++ T.toList ++ r) ∧ (∀ y ∈ l, cmp data y.2 = .gt) ∧
      ∀ y ∈ r, cmp data y.2 = .lt := by
  induction k with
  | nil => exact ⟨[], [], fun T => by simp [plug], by simp, by simp⟩
  | cons f k ih =>
    obtain ⟨s, c, x, S⟩ := f
    have hx := h _ (mem_cons_self ..)
    obtain ⟨l', r', heq', -⟩ := toList_plug k
    have hs' : Increasing cmp (plug k .nil).toList := by
      refine hs.sublist ?_
      rw [plug, heq', heq']
      exact ((nil_sublist _).append_left _).append_right _
    obtain ⟨l, r, heq, hl, hr⟩ := ih (fun g hg => h g (mem_cons_of_mem _ hg)) hs'
    rw [plug, heq] at hs
    cases s with
    | left =>
      refine ⟨l, x :: (S.toList ++ r), fun T => by simp [plug, heq, Frame.plug, join, toList], hl, ?_⟩
      intro y hy
      rw [mem_cons, mem_append] at hy
      rcases hy with rfl | hy | hy
      · exact hx
      · refine TransCmp.lt_trans hx ?_
        exact (pairwise_cons.mp (pairwise_append.mp (pairwise_append.mp hs).1).2.1).1
          y hy
      · exact hr y hy
    | right =>
      refine ⟨l ++ (S.toList ++ [x]), r, fun T => by simp [plug, heq, Frame.plug, join, toList], ?_,
        hr⟩
      intro y hy
      simp only [mem_append, mem_singleton] at hy
      rcases hy with hy | hy | rfl
      · exact hl y hy
      · refine TransCmp.gt_trans hx ?_
        have hyx := (pairwise_append.mp
          (pairwise_append.mp (pairwise_append.mp hs).1).2.1).2.2 y hy x (by simp)
        exact OrientedCmp.gt_of_lt hyx
      · exact hx

theorem insertSearch_node (cb : Callbacks ι α) (data : α) {x : ι × α} {l r p : Ptr ι} {c : Colour}
    (hx : t.nodes x.1 = some (nodeOf .left l r p x.2 c)) (fuel : ℕ) :
    insertSearch cb data (fuel + 1) t (.node x.1) p =
      match cb.dataCmp data x.2 with
      | .eq => some (.node x.1, p)
      | .lt => insertSearch cb data fuel t l (.node x.1)
      | .gt => insertSearch cb data fuel t r (.node x.1) := by
  simp only [insertSearch, reduceCtorEq, if_false, FrRbTree.get, hx, Option.bind_eq_bind,
    Option.bind_some, nodeOf_data]
  rfl

/-- The search of `insert_node`, from a subtree on. -/
theorem insertSearch_spec (cb : Callbacks ι α) (data : α) (h : At t T k L)
    (hf : Follows cb.dataCmp data k) :
    (∃ x ∈ L, cb.dataCmp data x.2 = .eq ∧ ∃ p,
      Returns (fun fuel => insertSearch cb data fuel t (ptr T) (above k)) (.node x.1, p)) ∨
    ∃ k', Returns (fun fuel => insertSearch cb data fuel t (ptr T) (above k)) (.nil, above k') ∧
      At t .nil k' L ∧ Follows cb.dataCmp data k' ∧ plug k' .nil = plug k T := by
  induction T generalizing k with
  | nil =>
    refine .inr ⟨k, Returns.of_add 1 fun fuel => ?_, h, hf, rfl⟩
    rw [ptr_nil, insertSearch, if_pos rfl]
  | node c l x r ihl ihr =>
    have hstep := insertSearch_node cb data (h.rep.1 : t.nodes x.1 =
      some (nodeOf .left (ptr l) (ptr r) (above k) x.2 c))
    have hmem : x ∈ L := by
      rw [← h.list]
      exact (toList_plug_perm k _).mem_iff.mpr (by simp [toList])
    have hdown : ∀ {s : Side} {S : CTree (ι × α)},
        cb.dataCmp data x.2 = (match s with | .left => .lt | .right => .gt) →
        Follows cb.dataCmp data (⟨s, c, x, S⟩ :: k) := by
      intro s S hs f hfk
      rcases mem_cons.mp hfk with rfl | hfk
      · exact hs
      · exact hf f hfk
    cases hc : cb.dataCmp data x.2 with
    | eq =>
      refine .inl ⟨x, hmem, hc, above k, Returns.of_add 1 fun fuel => ?_⟩
      rw [ptr, hstep, hc]
    | lt =>
      have hl : At t l (⟨.left, c, x, r⟩ :: k) L := at_cons_iff.mpr h
      rcases ihl hl (hdown hc) with ⟨y, hy, hey, p, hret⟩ | ⟨k', hret, hat, hf', hplug⟩
      · refine .inl ⟨y, hy, hey, p, hret.turn fun fuel => ?_⟩
        rw [ptr, hstep, hc]
        rfl
      · refine .inr ⟨k', hret.turn fun fuel => ?_, hat, hf', hplug⟩
        rw [ptr, hstep, hc]
        rfl
    | gt =>
      have hr : At t r (⟨.right, c, x, l⟩ :: k) L := at_cons_iff.mpr h
      rcases ihr hr (hdown hc) with ⟨y, hy, hey, p, hret⟩ | ⟨k', hret, hat, hf', hplug⟩
      · refine .inl ⟨y, hy, hey, p, hret.turn fun fuel => ?_⟩
        rw [ptr, hstep, hc]
        rfl
      · refine .inr ⟨k', hret.turn fun fuel => ?_, hat, hf', hplug⟩
        rw [ptr, hstep, hc]
        rfl

end Search

/-! ## The new node -/

/-- "setup new node", "insert node in tree" -/
def linkNew (cb : Callbacks ι α) (t : FrRbTree ι α) (data : α) (parent x : Ptr ι) :
    Option (FrRbTree ι α) :=
  (t.modify x fun _ => ⟨.nil, .nil, parent, some data, .red, false⟩).bind fun t =>
    insertLink cb t data parent x

theorem linkNew_spec {cb : Callbacks ι α} {data : α} {i : ι} {l r : List (ι × α)}
    (h : At t .nil k L) (hf : Follows cb.dataCmp data k)
    (hlist : ∀ T, (plug k T).toList = l ++ T.toList ++ r) (hi : i ∉ names L)
    (halloc : t.nodes i ≠ none) :
    ∃ t', linkNew cb t data (above k) (.node i) = some t' ∧
      At t' (join .left .red .nil (i, data) .nil) k (l ++ (i, data) :: r) ∧
      t'.numElements = t.numElements ∧ ∀ j, j ∉ names L → j ≠ i → t'.nodes j = t.nodes j := by
  obtain ⟨n, hn⟩ := Option.ne_none_iff_exists'.mp halloc
  set t₁ := t.put i (nodeOf .left .nil .nil (above k) data .red) with ht₁
  have h₁ : t.modify (.node i) (fun _ => ⟨.nil, .nil, above k, some data, .red, false⟩) = some t₁ :=
    modify_node hn _
  have hL : L = l ++ r := by
    rw [← h.list, hlist]
    simp [toList]
  have hnodup : (names (l ++ (i, data) :: r)).Nodup := by
    have hperm : (l ++ (i, data) :: r).Perm ((i, data) :: (l ++ r)) := perm_middle
    rw [names, (hperm.map Prod.fst).nodup_iff, map_cons, nodup_cons, ← hL]
    exact ⟨hi, h.nodup⟩
  have hnames : ∀ j, j ∈ names (pathElems k) → j ∈ names L := fun j hj =>
    h.mem_names.mpr (by simpa [toList] using hj)
  have hik : i ∉ names (pathElems k) := fun hmem => hi (hnames i hmem)
  have hat : ∀ t', t'.nodes i = some (nodeOf .left .nil .nil (above k) data .red) →
      RepPath t' k (.node i) → At t' (join .left .red .nil (i, data) .nil) k (l ++ (i, data) :: r) :=
    fun t' hnode hpath => ⟨⟨hnode, trivial, trivial⟩, hpath, by rw [hlist]; simp [join, toList], hnodup⟩
  cases hk : k with
  | nil =>
    subst hk
    refine ⟨{ t₁ with root := .node i }, ?_, hat _ (put_nodes_self _ _ _) rfl, rfl, ?_⟩
    · rw [linkNew, h₁, Option.bind_some, insertLink, above_nil, if_pos rfl]
    · exact fun j _ hji => put_nodes_ne _ _ hji
  | cons f k' =>
    obtain ⟨s, c, x, S⟩ := f
    subst hk
    have hx := h.nodes_frame
    simp only [names, pathElems, map_cons, map_append, mem_cons, mem_append, not_or] at hik
    obtain ⟨hix, hiS, hik⟩ := hik
    have hx₁ : t₁.nodes x.1 = some (nodeOf s .nil (ptr S) (above k') x.2 c) := by
      rw [ht₁, put_nodes_ne _ _ (Ne.symm hix), hx, ptr_nil]
    have hside : (if (cb.dataCmp data x.2).isLE then Side.left else .right) = s := by
      have := hf _ (mem_cons_self ..)
      cases s with
      | left => simp only at this; simp [this]
      | right => simp only at this; simp [this]
    have hdis := h.distinct
    simp only [toList, nil_append, names, pathElems, map_cons, nodup_cons, map_append, mem_append,
      not_or] at hdis
    obtain ⟨⟨hxS, hxk⟩, -⟩ := hdis
    obtain ⟨-, hS, hk'⟩ := h.path
    refine ⟨t₁.put x.1 (nodeOf s (.node i) (ptr S) (above k') x.2 c), ?_, hat _ ?_
      ⟨put_nodes_self _ _ _, (hS.put hiS _).put hxS _, (hk'.put hik _).put hxk _⟩, rfl, ?_⟩
    · rw [linkNew, h₁, Option.bind_some, insertLink, above_cons, if_neg (by simp)]
      simp only [FrRbTree.get, hx₁, Option.bind_eq_bind, Option.bind_some, nodeOf_data, hside]
      rw [FrRbTree.setChild, modify_node hx₁, nodeOf_withChild]
    · rw [put_nodes_ne _ _ hix, ht₁, put_nodes_self]
    · intro j hj hji
      have hjx : j ≠ x.1 := fun heq => hj (heq ▸ hnames x.1 (by simp [names, pathElems]))
      rw [put_nodes_ne _ _ hjx, ht₁, put_nodes_ne _ _ hji]

end FreeRadius.Rb
