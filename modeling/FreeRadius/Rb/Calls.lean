import FreeRadius.Rb.Insert
import FreeRadius.Rb.Unlink

/-!
# The calls

What each call does to the list of the nodes and their data, in order.
-/

namespace FreeRadius.Rb

open Library Library.RedBlack Library.RedBlack.CTree List
open Std (TransCmp OrientedCmp ReflCmp)

variable {ι α : Type} [DecidableEq ι] {t : FrRbTree ι α} {L : List (ι × α)} {cb : Callbacks ι α}
  {fresh : Option ι} {data : α}

/-- The nodes of `t` form a balanced tree with `L` in order. -/
structure Invariant (cb : Callbacks ι α) (t : FrRbTree ι α) (L : List (ι × α)) : Prop where
  shape : ∃ T m, At t T [] L ∧ Balanced T .black m
  increasing : Increasing cb.dataCmp L
  numElements : t.numElements = u32 L.length
  own : ∀ node, cb.nodeAlloc = .inlineNode node → ∀ x ∈ L, x.1 = node x.2
  outside : ∀ i, i ∉ names L → Outside cb t.nodes i

variable {x z : ι × α} {t' : FrRbTree ι α} {i : ι}

omit [DecidableEq ι] in
theorem Increasing.eq_of_eq [TransCmp cb.dataCmp] (h : Increasing cb.dataCmp L) {y : ι × α}
    (hx : x ∈ L) (hy : y ∈ L) (hdx : cb.dataCmp data x.2 = .eq) (hdy : cb.dataCmp data y.2 = .eq) :
    x = y := by
  by_contra hne
  have hxy : cb.dataCmp x.2 y.2 = .eq := TransCmp.eq_trans (OrientedCmp.eq_symm hdx) hdy
  have hall : L.Pairwise fun x y => cb.dataCmp x.2 y.2 ≠ .eq :=
    h.imp fun hlt heq => by rw [hlt] at heq; cases heq
  have : Std.Symm fun x y : ι × α => cb.dataCmp x.2 y.2 ≠ .eq :=
    ⟨fun _ _ hn heq => hn (OrientedCmp.eq_symm heq)⟩
  exact hall.forall hx hy hne hxy

/-! ## Searching -/

theorem findNode_eq (data : α) (fuel : ℕ) (current parent : Ptr ι) :
    findNode cb data fuel t current = (insertSearch cb data fuel t current parent).map fun r =>
      if r.1 = .nil then .null else r.1 := by
  induction fuel generalizing current parent with
  | zero => rfl
  | succ fuel ih =>
    by_cases hc : current = .nil
    · simp [findNode, insertSearch, hc]
    simp only [findNode, insertSearch, hc, if_false]
    rcases t.get current with _ | n
    · rfl
    simp only [Option.bind_eq_bind, Option.bind_some]
    cases n.data with
    | none => rfl
    | some x =>
      simp only [Option.bind_some]
      cases cb.dataCmp data x with
      | eq => simp [hc]
      | lt => exact ih n.left current
      | gt => exact ih n.right current

section Search

variable [TransCmp cb.dataCmp]

/-- A search from the root finds the equal element, or its place. -/
theorem Invariant.search (h : Invariant cb t L) (data : α) :
    (∃ x ∈ L, cb.dataCmp data x.2 = .eq ∧ ∃ p,
      Returns (fun fuel => insertSearch cb data fuel t t.root .nil) (.node x.1, p)) ∨
    (∀ x ∈ L, cb.dataCmp data x.2 ≠ .eq) ∧ ∃ k l r,
      Returns (fun fuel => insertSearch cb data fuel t t.root .nil) (.nil, above k) ∧
      At t .nil k L ∧ Follows cb.dataCmp data k ∧ (∃ m, Balanced (plug k .nil) .black m) ∧
      (∀ T, (plug k T).toList = l ++ T.toList ++ r) ∧ L = l ++ r ∧
      (∀ y ∈ l, cb.dataCmp data y.2 = .gt) ∧ ∀ y ∈ r, cb.dataCmp data y.2 = .lt := by
  obtain ⟨T, m, hat, hbal⟩ := h.shape
  have hroot : t.root = ptr T := hat.path
  rw [hroot]
  rcases insertSearch_spec cb data hat (fun f hf => by cases hf) with
    hfound | ⟨k, hret, hat', hf, hplug⟩
  · exact .inl hfound
  right
  have hinc := h.increasing
  rw [← hat'.list] at hinc
  obtain ⟨l, r, hlist, hl, hr⟩ := hf.between hinc
  have hL : L = l ++ r := by
    rw [← hat'.list, hlist]
    simp [toList]
  refine ⟨?_, k, l, r, hret, hat', hf, ⟨m, hplug ▸ hbal⟩, hlist, hL, hl, hr⟩
  intro x hx
  rw [hL, mem_append] at hx
  rcases hx with hx | hx
  · simp [hl x hx]
  · simp [hr x hx]

theorem findNode_spec (h : Invariant cb t L) (data : α) :
    (∃ x ∈ L, cb.dataCmp data x.2 = .eq ∧
      Returns (fun fuel => findNode cb data fuel t t.root) (.node x.1)) ∨
    (∀ x ∈ L, cb.dataCmp data x.2 ≠ .eq) ∧
      Returns (fun fuel => findNode cb data fuel t t.root) .null := by
  rcases h.search data with ⟨x, hx, heq, p, hret⟩ | ⟨hno, k, -, -, hret, -⟩
  · refine .inl ⟨x, hx, heq, hret.imp fun fuel hf => ?_⟩
    rw [findNode_eq data fuel t.root .nil, hf]
    simp
  · refine .inr ⟨hno, hret.imp fun fuel hf => ?_⟩
    rw [findNode_eq data fuel t.root .nil, hf]
    simp

omit [TransCmp cb.dataCmp] in
theorem Invariant.get_node (h : Invariant cb t L) (hx : x ∈ L) :
    ∃ n, t.nodes x.1 = some n ∧ n.data = some x.2 ∧ n.beingFreed = false ∧
      frRbNodeInlineInTree n = true := by
  obtain ⟨T, m, hat, -⟩ := h.shape
  obtain ⟨k, c, a, b, -, hfocus⟩ := hat.focus hx
  refine ⟨_, hfocus.nodes_join, nodeOf_data .., nodeOf_beingFreed .., ?_⟩
  have hptr : ∀ S : CTree (ι × α), ptr S ≠ .null := fun S => by cases S <;> simp [ptr]
  have habove : above k ≠ .null := by
    cases k <;> simp
  simp [frRbNodeInlineInTree, nodeOf, hptr, habove]

theorem frRbFind_spec (h : Invariant cb t L) (data : α) :
    (∃ x ∈ L, cb.dataCmp data x.2 = .eq ∧ Returns (fun fuel => frRbFind cb fuel t data) (some x.2)) ∨
    (∀ x ∈ L, cb.dataCmp data x.2 ≠ .eq) ∧ Returns (fun fuel => frRbFind cb fuel t data) none := by
  rcases findNode_spec h data with ⟨x, hx, heq, hret⟩ | ⟨hno, hret⟩
  · obtain ⟨n, hn, hdata, -⟩ := h.get_node hx
    refine .inl ⟨x, hx, heq, hret.imp fun fuel hf => ?_⟩
    simp [frRbFind, hf, FrRbTree.get, hn, hdata]
  · refine .inr ⟨hno, hret.imp fun fuel hf => ?_⟩
    simp [frRbFind, hf]

end Search

/-! ## Deleting -/

theorem Invariant.deleted (h : Invariant cb t L) (hz : z ∈ L) (hd : Deleted cb t t' z.1 L) :
    Invariant cb t' (without z.1 L) := by
  obtain ⟨T, m, hat, -⟩ := h.shape
  obtain ⟨l, r, hL⟩ := append_of_mem hz
  refine ⟨hd.shape, h.increasing.sublist filter_sublist, ?_, ?_, ?_⟩
  · have hn := hat.nodup
    rw [hL] at hn
    rw [hd.numElements, h.numElements, hL, without_middle hn, length_append, length_cons,
      ← Nat.add_assoc, u32_pred, length_append]
  · exact fun node hnode x hx => h.own node hnode x (mem_without.mp hx).1
  · intro i hi
    by_cases hiz : i = z.1
    · exact hiz ▸ hd.outside
    have hiL : i ∉ names L := fun hmem => hi (names_without.mpr ⟨hmem, hiz⟩)
    have hout := h.outside i hiL
    unfold Outside at hout ⊢
    rwa [hd.nodes i hiL]

theorem Invariant.delete (h : Invariant cb t L) (hz : z ∈ L) (freeData : Bool) :
    ∃ t', Returns (fun fuel => deleteInternal cb fuel t (.node z.1) freeData) t' ∧
      Invariant cb t' (without z.1 L) := by
  obtain ⟨T, m, hat, hbal⟩ := h.shape
  obtain ⟨t', hret, hd⟩ := deleteInternal_spec cb hat hbal hz freeData
  exact ⟨t', hret, h.deleted hz hd⟩

theorem Invariant.put_data [TransCmp cb.dataCmp] (h : Invariant cb t L) (hx : x ∈ L)
    (hcb : cb.nodeAlloc = .heapNode) (heq : cb.dataCmp data x.2 = .eq) :
    ∃ t', t.modify (.node x.1) (fun n => { n with data := some data }) = some t' ∧
      Invariant cb t' (exchanged x.1 (x.1, data) L) := by
  obtain ⟨T, m, hat, hbal⟩ := h.shape
  obtain ⟨k, c, a, b, rfl, hfocus⟩ := hat.focus hx
  obtain ⟨l, r, hlist, hL⟩ := hfocus.middle
  have hn := hat.nodup
  have hL' : exchanged x.1 (x.1, data) L = (l ++ a.toList) ++ (x.1, data) :: (b.toList ++ r) := by
    rw [hL] at hn ⊢
    exact exchanged_middle hn _
  have hnames : names (exchanged x.1 (x.1, data) L) = names L := by
    rw [hL', hL]
    simp [names]
  obtain ⟨m', hm'⟩ := hbal.rename (x.1, data)
  refine ⟨t.put x.1 (nodeOf .left (ptr a) (ptr b) (above k) data c),
    modify_node hfocus.nodes_join _, ⟨plug k (join .left c a (x.1, data) b), m',
      at_plug_iff.mpr (hfocus.put_node c ?_ ?_), hm'⟩, ?_, ?_, ?_, ?_⟩
  · rw [hlist, hL']
    simp [join, toList]
  · rw [hnames]
    exact hn
  · rw [hL']
    have hinc := h.increasing
    rw [hL] at hinc
    obtain ⟨h₁, h₂, h₁₂⟩ := pairwise_append.mp hinc
    obtain ⟨hx₂, h₂⟩ := pairwise_cons.mp h₂
    refine pairwise_append.mpr ⟨h₁, pairwise_cons.mpr ⟨fun y hy => ?_, h₂⟩, ?_⟩
    · exact TransCmp.lt_of_eq_of_lt heq (hx₂ y hy)
    intro y hy w hw
    rcases mem_cons.mp hw with rfl | hw
    · exact TransCmp.lt_of_lt_of_eq (h₁₂ y hy x (by simp)) (OrientedCmp.eq_symm heq)
    · exact h₁₂ y hy w (mem_cons_of_mem _ hw)
  · rw [put_numElements, h.numElements, exchanged, length_map]
  · intro own howner
    rw [hcb] at howner
    cases howner
  · intro i hi
    rw [hnames] at hi
    have hix : i ≠ x.1 := fun heq => hi (heq ▸ mem_map.mpr ⟨x, hx, rfl⟩)
    have hout := h.outside i hi
    unfold Outside at hout ⊢
    rwa [put_nodes_ne _ _ hix]

/-! ## Inserting -/

/-- The node that new data gets, if there is memory for it. -/
def newNode (cb : Callbacks ι α) (fresh : Option ι) (data : α) : Option ι :=
  match cb.nodeAlloc with
  | .inlineNode own => some (own data)
  | .heapNode => fresh

/-- `talloc_zero` returns memory that is not in use. -/
def FreshNode (cb : Callbacks ι α) (fresh : Option ι) (t : FrRbTree ι α) : Prop :=
  cb.nodeAlloc = .heapNode → ∀ i, fresh = some i → t.nodes i = none

theorem nodeAlloc_none (h : newNode cb fresh data = none) :
    nodeAlloc cb fresh t data = (t, .null) := by
  unfold newNode at h
  unfold nodeAlloc
  cases hcb : cb.nodeAlloc with
  | inlineNode node => simp [hcb] at h
  | heapNode =>
    simp only [hcb] at h
    simp [h]

theorem Invariant.nodeAlloc_some [TransCmp cb.dataCmp] (h : Invariant cb t L)
    (hfresh : FreshNode cb fresh t) (hno : ∀ x ∈ L, cb.dataCmp data x.2 ≠ .eq)
    (hi : newNode cb fresh data = some i) :
    ∃ t', nodeAlloc cb fresh t data = (t', .node i) ∧ i ∉ names L ∧ t'.nodes i ≠ none ∧
      t'.root = t.root ∧ t'.numElements = t.numElements ∧ ∀ j, j ≠ i → t'.nodes j = t.nodes j := by
  unfold newNode at hi
  unfold nodeAlloc
  cases hcb : cb.nodeAlloc with
  | inlineNode node =>
    simp only [hcb, Option.some.injEq] at hi
    subst hi
    have hout : node data ∉ names L := by
      intro hmem
      obtain ⟨x, hx, heq⟩ := mem_map.mp hmem
      have hxd := h.own node hcb x hx
      rw [heq] at hxd
      have := node.injective hxd
      exact hno x hx (this ▸ ReflCmp.compare_self)
    have hnode := h.outside _ hout
    simp only [Outside, hcb] at hnode
    obtain ⟨n, hn, -⟩ := hnode
    exact ⟨t, rfl, hout, by simp [hn], rfl, rfl, fun _ _ => rfl⟩
  | heapNode =>
    simp only [hcb] at hi
    have hnone := hfresh hcb i hi
    have hout : i ∉ names L := by
      intro hmem
      obtain ⟨x, hx, rfl⟩ := mem_map.mp hmem
      obtain ⟨n, hn, -⟩ := h.get_node hx
      rw [hnone] at hn
      cases hn
    refine ⟨t.put i zeroNode, by simp [hi], hout, by simp, rfl, rfl, fun j hj => ?_⟩
    exact put_nodes_ne _ _ hj

section Insert

variable [TransCmp cb.dataCmp]

theorem Invariant.inserted (h : Invariant cb t L) {l r : List (ι × α)} (hL : L = l ++ r)
    (hl : ∀ y ∈ l, cb.dataCmp data y.2 = .gt) (hr : ∀ y ∈ r, cb.dataCmp data y.2 = .lt)
    (hi : newNode cb fresh data = some i)
    (hshape : ∃ T m, At t' T [] (l ++ (i, data) :: r) ∧ Balanced T .black m)
    (hnum : t'.numElements = u32 (t.numElements + 1))
    (hout : ∀ j, j ∉ names L → j ≠ i → t'.nodes j = t.nodes j) :
    Invariant cb t' (l ++ (i, data) :: r) := by
  have hinc := h.increasing
  rw [hL] at hinc
  obtain ⟨hincl, hincr, hcross⟩ := pairwise_append.mp hinc
  refine ⟨hshape, ?_, ?_, ?_, ?_⟩
  · refine pairwise_append.mpr ⟨hincl, pairwise_cons.mpr ⟨hr, hincr⟩, ?_⟩
    intro x hx y hy
    rcases mem_cons.mp hy with rfl | hy
    · exact OrientedCmp.lt_of_gt (hl x hx)
    · exact hcross x hx y hy
  · rw [hnum, h.numElements, u32_add, hL, length_append, length_append, length_cons, Nat.add_assoc]
  · intro node hnode x hx
    rw [mem_append, mem_cons] at hx
    rcases hx with hx | rfl | hx
    · exact h.own node hnode x (by rw [hL]; exact mem_append_left _ hx)
    · simp only [newNode, hnode, Option.some.injEq] at hi
      exact hi.symm
    · exact h.own node hnode x (by rw [hL]; exact mem_append_right _ hx)
  · intro j hj
    simp only [names, map_append, map_cons, mem_append, mem_cons, not_or] at hj
    obtain ⟨hjl, hji, hjr⟩ := hj
    have hjL : j ∉ names L := by
      rw [hL, names, map_append, mem_append, not_or]
      exact ⟨hjl, hjr⟩
    have hout' := h.outside j hjL
    unfold Outside at hout' ⊢
    rwa [hout j hjL hji]

theorem Invariant.insertNode (h : Invariant cb t L) (hfresh : FreshNode cb fresh t) (data : α) :
    (∃ x ∈ L, cb.dataCmp data x.2 = .eq ∧
      Returns (fun fuel => Rb.insertNode cb fresh fuel t data) (t, 1, .node x.1)) ∨
    (∀ x ∈ L, cb.dataCmp data x.2 ≠ .eq) ∧
      (newNode cb fresh data = none ∧
        Returns (fun fuel => Rb.insertNode cb fresh fuel t data) (t, -1, .nil) ∨
      ∃ i t' L', newNode cb fresh data = some i ∧
        Returns (fun fuel => Rb.insertNode cb fresh fuel t data) (t', 0, .nil) ∧
        Invariant cb t' L' ∧ L'.Perm ((i, data) :: L)) := by
  rcases h.search data with ⟨x, hx, heq, p, hret⟩ | ⟨hno, k, l, r, hret, hat, hf, ⟨m, hbal⟩, hlist,
    hL, hl, hr⟩
  · refine .inl ⟨x, hx, heq, hret.imp fun fuel hs => ?_⟩
    simp [Rb.insertNode, hs]
  refine .inr ⟨hno, ?_⟩
  cases hi : newNode cb fresh data with
  | none =>
    refine .inl ⟨rfl, hret.imp fun fuel hs => ?_⟩
    simp [Rb.insertNode, hs, nodeAlloc_none hi]
  | some i =>
    right
    obtain ⟨t₁, h₁, hiL, halloc, hroot₁, hnum₁, hout₁⟩ := h.nodeAlloc_some hfresh hno hi
    have hat₁ : At t₁ .nil k L := hat.congr hroot₁ fun j hj => hout₁ j fun heq => hiL (heq ▸ hj)
    obtain ⟨t₂, h₂, hat₂, hnum₂, hout₂⟩ := linkNew_spec hat₁ hf hlist hiL halloc
    obtain ⟨pc, c, n, hk, hnil, -⟩ := pathBalanced_of_plug hbal
    have hnew : Balanced (join .left .red .nil (i, data) .nil) .red n := by
      cases hnil
      exact .red .nil .nil
    obtain ⟨t₃, T₃, hfix, hat₃, r₃, m₃, hbal₃⟩ := insertFixup_spec hat₂ hnew hk
    rw [ptr_join] at hfix
    refine ⟨i, { t₃ with numElements := u32 (t₃.numElements + 1) }, _, rfl,
      hret.after hfix fun fuel hs h₃ => ?_,
      h.inserted hL hl hr hi ⟨T₃, m₃, hat₃.congr rfl fun _ _ => rfl, hbal₃⟩ ?_ ?_,
      hL ▸ perm_middle⟩
    · rw [linkNew, Option.bind_eq_some_iff] at h₂
      obtain ⟨t', hmod, hlink⟩ := h₂
      simp only [Rb.insertNode, hs, Option.bind_eq_bind, Option.bind_some, ne_eq,
        not_true_eq_false, if_false, h₁, reduceCtorEq, hmod, hlink, h₃]
    · exact congrArg (fun n => u32 (n + 1)) (r₃.numElements.trans (hnum₂.trans hnum₁))
    · intro j hj hji
      have hjnew : j ∉ names (l ++ (i, data) :: r) := by
        rw [hL, names, map_append, mem_append] at hj
        rw [names, map_append, map_cons, mem_append, mem_cons]
        tauto
      exact (r₃.nodes j hjnew).trans ((hout₂ j hj hji).trans (hout₁ j hji))

end Insert

end FreeRadius.Rb
