import FreeRadius.Rb.Calls

/-!
# Runs of the calls

A tree is a set of data, each with its node. `Spec` says what the calls do to
such a set, whatever its order; the nodes in memory follow it, as a balanced
tree in which every element is in the node it was put into.
-/

namespace FreeRadius.Rb

open Library Library.RedBlack Library.RedBlack.CTree List
open Std (TransCmp OrientedCmp ReflCmp)

variable {ι α : Type} [DecidableEq ι]

inductive Call (ι α : Type) where
  | find (data : α)
  | insert (fresh : Option ι) (data : α)
  | replace (fresh : Option ι) (data : α)
  | remove (data : α)
  | delete (data : α)
  | removeByInlineNode (i : ι)

/-- What a call returns. -/
inductive Answer (α : Type) where
  | data (x : Option α)
  | bool (b : Bool)
  | code (c : ℤ) (old : Option α)

def runCall (cb : Callbacks ι α) (fuel : ℕ) (t : FrRbTree ι α) :
    Call ι α → Option (FrRbTree ι α × Answer α)
  | .find data => (frRbFind cb fuel t data).map fun x => (t, .data x)
  | .insert fresh data => (frRbInsert cb fresh fuel t data).map fun (t, b) => (t, .bool b)
  | .replace fresh data =>
    (frRbReplace cb fresh fuel t data).map fun (t, c, old) => (t, .code c old)
  | .remove data => (frRbRemove cb fuel t data).map fun (t, x) => (t, .data x)
  | .delete data => (frRbDelete cb fuel t data).map fun (t, b) => (t, .bool b)
  | .removeByInlineNode i => (frRbRemoveByInlineNode cb fuel t i).map fun (t, x) => (t, .data x)

/-- What the caller and `talloc` promise: memory for a new node is not in use,
and a node that is passed in exists. -/
def Allowed (cb : Callbacks ι α) (t : FrRbTree ι α) : Call ι α → Prop
  | .insert fresh _ => FreshNode cb fresh t
  | .replace fresh _ => FreshNode cb fresh t
  | .removeByInlineNode i => t.nodes i ≠ none
  | _ => True

/-! ## Sets of data with nodes -/

/-- The element that is equal to the data. -/
def found (cb : Callbacks ι α) (held : List (ι × α)) (data : α) : Option (ι × α) :=
  held.find? fun x => cb.dataCmp data x.2 = .eq

/-- The node of data that replaces the data of node `i`. -/
def replacedNode (cb : Callbacks ι α) (i : ι) (data : α) : ι :=
  match cb.nodeAlloc with
  | .inlineNode own => own data
  | .heapNode => i

/-- What the calls do to a set of data with nodes, and what they return. -/
def specStep (cb : Callbacks ι α) (held : List (ι × α)) : Call ι α → List (ι × α) × Answer α
  | .find data => (held, .data ((found cb held data).map Prod.snd))
  | .insert fresh data =>
    match found cb held data, newNode cb fresh data with
    | none, some i => ((i, data) :: held, .bool true)
    | _, _ => (held, .bool false)
  | .replace fresh data =>
    match found cb held data, newNode cb fresh data with
    | some x, _ => ((replacedNode cb x.1 data, data) :: without x.1 held, .code 1 (some x.2))
    | none, some i => ((i, data) :: held, .code 0 none)
    | none, none => (held, .code (-1) none)
  | .remove data =>
    match found cb held data with
    | some x => (without x.1 held, .data (some x.2))
    | none => (held, .data none)
  | .delete data =>
    match found cb held data with
    | some x => (without x.1 held, .bool true)
    | none => (held, .bool false)
  | .removeByInlineNode i =>
    match held.find? fun x => x.1 = i with
    | some x => (without i held, .data (some x.2))
    | none => (held, .data none)

section Steps

variable {cb : Callbacks ι α} {t : FrRbTree ι α} {L held : List (ι × α)}
  {data : α} {x : ι × α} {fresh : Option ι}

omit [DecidableEq ι] in
theorem found_none (hperm : L.Perm held) (hno : ∀ x ∈ L, cb.dataCmp data x.2 ≠ .eq) :
    found cb held data = none := by
  rw [found, find?_eq_none]
  intro x hx
  simpa using hno x (hperm.mem_iff.mpr hx)

omit [DecidableEq ι] in
theorem found_some [TransCmp cb.dataCmp] (hinc : Increasing cb.dataCmp L) (hperm : L.Perm held)
    (hx : x ∈ L) (heq : cb.dataCmp data x.2 = .eq) : found cb held data = some x := by
  cases hf : found cb held data with
  | none =>
    rw [found, find?_eq_none] at hf
    exact absurd heq (by simpa using hf x (hperm.mem_iff.mp hx))
  | some y =>
    have hy := mem_of_find?_eq_some hf
    have hye : cb.dataCmp data y.2 = .eq := by simpa using find?_some hf
    rw [hinc.eq_of_eq (hperm.mem_iff.mpr hy) hx hye heq]

/-- The call returns what the specification says, and the set of data follows it. -/
def Follow (cb : Callbacks ι α) (t : FrRbTree ι α) (held : List (ι × α)) (call : Call ι α) : Prop :=
  ∃ t' L', Returns (fun fuel => runCall cb fuel t call) (t', (specStep cb held call).2) ∧
    Invariant cb t' L' ∧ L'.Perm (specStep cb held call).1

variable [TransCmp cb.dataCmp] (h : Invariant cb t L) (hperm : L.Perm held)
include h hperm

omit [TransCmp cb.dataCmp] in
/-- A call that leaves the tree and what it holds as they are. -/
theorem unchanged_follows {call : Call ι α} (hheld : (specStep cb held call).1 = held)
    (hret : Returns (fun fuel => runCall cb fuel t call) (t, (specStep cb held call).2)) :
    Follow cb t held call :=
  ⟨t, L, hret, h, by rwa [hheld]⟩

theorem find_follows (data : α) : Follow cb t held (.find data) := by
  rcases frRbFind_spec h data with ⟨x, hx, heq, hret⟩ | ⟨hno, hret⟩
  · have hf := found_some h.increasing hperm hx heq
    exact unchanged_follows h hperm (by simp [specStep, hf])
      (hret.imp fun _ hs => by simp [runCall, hs, specStep, hf])
  · have hf := found_none hperm hno
    exact unchanged_follows h hperm (by simp [specStep, hf])
      (hret.imp fun _ hs => by simp [runCall, hs, specStep, hf])

theorem insert_follows (hfresh : FreshNode cb fresh t) (data : α) :
    Follow cb t held (.insert fresh data) := by
  rcases h.insertNode hfresh data with ⟨x, hx, heq, hret⟩ | ⟨hno, ⟨hnew, hret⟩ |
    ⟨i, t', L', hnew, hret, hinv, hL⟩⟩
  · have hf := found_some h.increasing hperm hx heq
    exact unchanged_follows h hperm (by simp [specStep, hf])
      (hret.imp fun _ hs => by simp [runCall, frRbInsert, hs, specStep, hf])
  · have hf := found_none hperm hno
    exact unchanged_follows h hperm (by simp [specStep, hf, hnew])
      (hret.imp fun _ hs => by simp [runCall, frRbInsert, hs, specStep, hf, hnew])
  · have hf := found_none hperm hno
    refine ⟨t', L', hret.imp fun fuel hs => ?_, hinv, ?_⟩
    · simp [runCall, frRbInsert, hs, specStep, hf, hnew]
    · simpa [specStep, hf, hnew] using hL.trans (hperm.cons _)

theorem remove_follows (data : α) : Follow cb t held (.remove data) := by
  rcases findNode_spec h data with ⟨x, hx, heq, hret⟩ | ⟨hno, hret⟩
  · obtain ⟨n, hn, hdata, hfreed, -⟩ := h.get_node hx
    obtain ⟨t', hdel, hinv⟩ := h.delete hx false
    have hf := found_some h.increasing hperm hx heq
    refine ⟨t', _, hret.after hdel fun fuel hs hd => ?_, hinv, ?_⟩
    · simp [runCall, frRbRemove, removeNode, hs, FrRbTree.get, hn, hfreed, hd, hdata, specStep, hf]
    · simpa [specStep, hf] using without_perm x.1 hperm
  · have hf := found_none hperm hno
    exact unchanged_follows h hperm (by simp [specStep, hf])
      (hret.imp fun _ hs => by simp [runCall, frRbRemove, removeNode, hs, specStep, hf])

theorem delete_follows (data : α) : Follow cb t held (.delete data) := by
  rcases findNode_spec h data with ⟨x, hx, heq, hret⟩ | ⟨hno, hret⟩
  · obtain ⟨n, hn, hdata, hfreed, -⟩ := h.get_node hx
    obtain ⟨t', hdel, hinv⟩ := h.delete hx cb.dataFree
    have hf := found_some h.increasing hperm hx heq
    refine ⟨t', _, hret.after hdel fun fuel hs hd => ?_, hinv, ?_⟩
    · simp [runCall, frRbDelete, removeNode, hs, FrRbTree.get, hn, hfreed, hd, specStep, hf]
    · simpa [specStep, hf] using without_perm x.1 hperm
  · have hf := found_none hperm hno
    exact unchanged_follows h hperm (by simp [specStep, hf])
      (hret.imp fun _ hs => by simp [runCall, frRbDelete, removeNode, hs, specStep, hf])

/-- Replacing inline data deletes a node and inserts another one, replacing data on the heap keeps
the node. -/
theorem replaceNode_follows (hx : x ∈ L) (heq : cb.dataCmp data x.2 = .eq) (fresh : Option ι) :
    ∃ t' L', Returns (fun fuel => replaceNode cb fresh fuel t (.node x.1) data) t' ∧
      Invariant cb t' L' ∧ L'.Perm ((replacedNode cb x.1 data, data) :: without x.1 held) := by
  cases hcb : cb.nodeAlloc with
  | inlineNode own =>
    obtain ⟨t₁, hdel, h₁⟩ := h.delete hx false
    have hfresh : FreshNode cb fresh t₁ := fun hheap => by rw [hcb] at hheap; cases hheap
    have hno : ∀ y ∈ without x.1 L, cb.dataCmp data y.2 ≠ .eq := by
      intro y hy hye
      obtain ⟨hyL, hyx⟩ := mem_without.mp hy
      exact hyx (by rw [h.increasing.eq_of_eq hyL hx hye heq])
    rcases h₁.insertNode hfresh data with ⟨y, hy, hye, -⟩ | ⟨-, ⟨hnew, -⟩ |
      ⟨i, t', L', hnew, hret, hinv, hL⟩⟩
    · exact absurd hye (hno y hy)
    · simp [newNode, hcb] at hnew
    obtain rfl : i = replacedNode cb x.1 data := by
      simp only [newNode, hcb, Option.some.injEq] at hnew
      simp only [replacedNode, hcb, hnew]
    refine ⟨t', L', hdel.after hret fun fuel hd hs => ?_, hinv, ?_⟩
    · simp [replaceNode, hcb, hd, hs]
    · exact hL.trans ((without_perm x.1 hperm).cons _)
  | heapNode =>
    obtain ⟨t', hmod, hinv⟩ := h.put_data hx hcb heq
    refine ⟨t', _, Returns.of_eq fun fuel => ?_, hinv, ?_⟩
    · simp only [replaceNode, hcb, hmod]
    obtain ⟨T, m, hat, -⟩ := h.shape
    obtain ⟨l, r, hL⟩ := append_of_mem hx
    have hn := hat.nodup
    refine List.Perm.trans ?_ ((without_perm x.1 hperm).cons _)
    rw [hL] at hn ⊢
    rw [exchanged_middle hn, without_middle hn, replacedNode, hcb]
    exact perm_middle

theorem replace_follows (hfresh : FreshNode cb fresh t) (data : α) :
    Follow cb t held (.replace fresh data) := by
  rcases h.insertNode hfresh data with ⟨x, hx, heq, hret⟩ | ⟨hno, ⟨hnew, hret⟩ |
    ⟨i, t', L', hnew, hret, hinv, hL⟩⟩
  · have hf := found_some h.increasing hperm hx heq
    obtain ⟨n, hn, hdata, -⟩ := h.get_node hx
    obtain ⟨t', L', hret', hinv, hperm'⟩ := replaceNode_follows h hperm hx heq fresh
    refine ⟨t', L', hret.after hret' fun fuel hs hr => ?_, hinv, ?_⟩
    · simp [runCall, frRbReplace, hs, FrRbTree.get, hn, hr, hdata, specStep, hf]
    · simpa [specStep, hf] using hperm'
  · have hf := found_none hperm hno
    exact unchanged_follows h hperm (by simp [specStep, hf, hnew])
      (hret.imp fun _ hs => by simp [runCall, frRbReplace, hs, specStep, hf, hnew])
  · have hf := found_none hperm hno
    refine ⟨t', L', hret.imp fun fuel hs => ?_, hinv, ?_⟩
    · simp [runCall, frRbReplace, hs, specStep, hf, hnew]
    · simpa [specStep, hf, hnew] using hL.trans (hperm.cons _)

omit [TransCmp cb.dataCmp] in
theorem removeByInlineNode_follows {i : ι} (halloc : t.nodes i ≠ none) :
    Follow cb t held (.removeByInlineNode i) := by
  obtain ⟨T, m, hat, -⟩ := h.shape
  by_cases hi : i ∈ names L
  · obtain ⟨x, hx, rfl⟩ := mem_map.mp hi
    obtain ⟨n, hn, hdata, -, hin⟩ := h.get_node hx
    obtain ⟨t', hdel, hinv⟩ := h.delete hx false
    have hf : held.find? (fun y => y.1 = x.1) = some x := by
      cases hf : held.find? (fun y => y.1 = x.1) with
      | none =>
        rw [find?_eq_none] at hf
        exact absurd (decide_eq_true rfl) (hf x (hperm.mem_iff.mp hx))
      | some y =>
        have hy : y ∈ L := hperm.mem_iff.mpr (mem_of_find?_eq_some hf)
        have hyx : y.1 = x.1 := by simpa using find?_some hf
        rw [inj_on_of_nodup_map hat.nodup hy hx hyx]
    refine ⟨t', _, hdel.imp fun fuel hd => ?_, hinv, ?_⟩
    · simp [runCall, frRbRemoveByInlineNode, hn, hin, hd, hdata, specStep, hf]
    · simpa [specStep, hf] using without_perm x.1 hperm
  · have hout := h.outside i hi
    have hf : held.find? (fun y => y.1 = i) = none := by
      rw [find?_eq_none]
      intro y hy
      simp only [decide_eq_true_eq]
      exact fun heq => hi (mem_map.mpr ⟨y, hperm.mem_iff.mpr hy, heq⟩)
    cases hcb : cb.nodeAlloc with
    | inlineNode own =>
      simp only [Outside, hcb] at hout
      obtain ⟨n, hn, hin⟩ := hout
      exact unchanged_follows h hperm (by simp [specStep, hf])
        (Returns.of_eq fun _ => by simp [runCall, frRbRemoveByInlineNode, hn, hin, specStep, hf])
    | heapNode =>
      simp only [Outside, hcb] at hout
      exact absurd hout halloc

/-- Every call follows the specification. -/
theorem follow {call : Call ι α} (ha : Allowed cb t call) : Follow cb t held call := by
  cases call with
  | find data => exact find_follows h hperm data
  | insert fresh data => exact insert_follows h hperm ha data
  | replace fresh data => exact replace_follows h hperm ha data
  | remove data => exact remove_follows h hperm data
  | delete data => exact delete_follows h hperm data
  | removeByInlineNode i => exact removeByInlineNode_follows h hperm ha

end Steps

/-! ## Whole runs -/

/-- The states of the runs, with the data that is held and the nodes it was put into. -/
inductive Reachable (cb : Callbacks ι α) : FrRbTree ι α → List (ι × α) → Prop
  | init : Reachable cb (frRbInit cb) []
  | step {t t' : FrRbTree ι α} {held : List (ι × α)} {call : Call ι α} {a : Answer α} :
      Reachable cb t held → Allowed cb t call →
      Returns (fun fuel => runCall cb fuel t call) (t', a) →
      Reachable cb t' (specStep cb held call).1

theorem init_invariant (cb : Callbacks ι α) : Invariant cb (frRbInit cb) [] := by
  refine ⟨⟨.nil, 0, ⟨trivial, rfl, rfl, nodup_nil⟩, .nil⟩, List.Pairwise.nil, rfl,
    fun _ _ x hx => (by cases hx), fun i _ => ?_⟩
  cases hcb : cb.nodeAlloc with
  | inlineNode own => simp [Outside, frRbInit, hcb, frRbNodeInlineInTree, zeroNode]
  | heapNode => simp [Outside, frRbInit, hcb]

variable {cb : Callbacks ι α} {t : FrRbTree ι α} {held : List (ι × α)}

theorem Reachable.invariant [TransCmp cb.dataCmp] (hr : Reachable cb t held) :
    ∃ L, Invariant cb t L ∧ L.Perm held := by
  induction hr with
  | init => exact ⟨[], init_invariant cb, .nil⟩
  | step _ ha hret ih =>
    obtain ⟨L, h, hperm⟩ := ih
    obtain ⟨t', L', hret', h', hperm'⟩ := follow h hperm ha
    have heq := hret.unique hret'
    rw [Prod.mk.injEq] at heq
    exact ⟨L', heq.1 ▸ h', hperm'⟩

/-- What holds of a tree: its nodes form the tree `T`, with the parents that
belong to them; the data in order increases; the root is black, no red node has
a red child, and every path has the same number of black nodes; the nodes are
counted; and the data is in the nodes it was put into. -/
structure WellFormed (cb : Callbacks ι α) (t : FrRbTree ι α) (held : List (ι × α))
    (T : CTree (ι × α)) : Prop where
  root : t.root = ptr T
  nodes : Rep t.nodes .nil T
  distinct : (names T.toList).Nodup
  increasing : Increasing cb.dataCmp T.toList
  root_black : T.colour = .black
  no_red_red : T.NoRedRed
  black_counts : ∃ n, ∀ m ∈ T.blackCounts, m = n
  numElements : t.numElements = u32 T.toList.length
  held : T.toList.Perm held

theorem Invariant.wellFormed {L : List (ι × α)} (h : Invariant cb t L) (hperm : L.Perm held) :
    ∃ T, WellFormed cb t held T := by
  obtain ⟨T, m, hat, hbal⟩ := h.shape
  have hlist : T.toList = L := hat.list
  refine ⟨T, hat.path, hat.rep, ?_, ?_, hbal.colour_eq, hbal.noRedRed, ⟨m, hbal.blackCounts_eq⟩, ?_, ?_⟩
  all_goals rw [hlist]
  · exact hat.nodup
  · exact h.increasing
  · exact h.numElements
  · exact hperm

/-- After every sequence of calls the nodes form a red-black tree of the data
that is held, each in the node it was put into, and every further call returns
what the specification says. -/
theorem rb_runs {cb : Callbacks ι α} [TransCmp cb.dataCmp] {t : FrRbTree ι α}
    {held : List (ι × α)} (hr : Reachable cb t held) :
    (∃ T, WellFormed cb t held T) ∧ ∀ call, Allowed cb t call →
      ∃ t', Returns (fun fuel => runCall cb fuel t call) (t', (specStep cb held call).2) := by
  obtain ⟨L, h, hperm⟩ := hr.invariant
  refine ⟨h.wellFormed hperm, fun call ha => ?_⟩
  obtain ⟨t', L', hret, -⟩ := follow h hperm ha
  exact ⟨t', hret⟩

/-- Data that is compared as numbers, with nodes on the heap. -/
def heapCallbacks : Callbacks ℕ ℕ := ⟨compare, .heapNode, false⟩

instance : TransCmp heapCallbacks.dataCmp := inferInstanceAs (TransCmp (compare : ℕ → ℕ → Ordering))

/-- No path of the tree is longer than twice the logarithm of its size. -/
theorem rb_depth {cb : Callbacks ι α} [TransCmp cb.dataCmp] {t : FrRbTree ι α}
    {held : List (ι × α)} (hr : Reachable cb t held) :
    ∃ T, t.root = ptr T ∧ Rep t.nodes .nil T ∧ 2 ^ T.depth ≤ (held.length + 1) ^ 2 := by
  obtain ⟨L, h, hperm⟩ := hr.invariant
  obtain ⟨T, m, hat, hbal⟩ := h.shape
  obtain ⟨hdepth, -, hsize⟩ := hbal.depth_le
  refine ⟨T, hat.path, hat.rep, ?_⟩
  rw [← hperm.length_eq, ← hat.list]
  calc 2 ^ T.depth ≤ 2 ^ (2 * m) := Nat.pow_le_pow_right two_pos (hdepth rfl)
    _ = (2 ^ m) ^ 2 := pow_mul' ..
    _ ≤ (T.toList.length + 1) ^ 2 := Nat.pow_le_pow_left hsize 2

/-- The numbers below `n`, inserted one after the other. -/
theorem exists_reachable (n : ℕ) :
    ∃ t, Reachable heapCallbacks t ((range n).reverse.map fun i => (i, i)) := by
  induction n with
  | zero => exact ⟨_, .init⟩
  | succ n ih =>
    obtain ⟨t, hr⟩ := ih
    obtain ⟨L, h, hperm⟩ := hr.invariant
    have hnew : ∀ x ∈ (range n).reverse.map fun i => (i, i), x.1 < n ∧ x.2 < n := by
      simp
    have hallowed : Allowed heapCallbacks t (.insert (some n) n) := by
      rintro - i ⟨⟩
      refine h.outside n fun hn => ?_
      obtain ⟨x, hx, hxn⟩ := mem_map.mp hn
      exact absurd hxn (hnew x (hperm.mem_iff.mp hx)).1.ne
    have hfound := @found_none _ _ heapCallbacks _ _ n hperm fun x hx heq =>
      absurd (Nat.compare_eq_eq.mp heq) (hnew x (hperm.mem_iff.mp hx)).2.ne'
    obtain ⟨t', L', hret, -⟩ := follow h hperm hallowed
    have hstep := hr.step hallowed hret
    rw [specStep, hfound] at hstep
    refine ⟨t', ?_⟩
    rw [range_succ, reverse_concat, map_cons]
    exact hstep

theorem rb_depth_seven :
    ∃ t, Reachable heapCallbacks t ((range 7).reverse.map fun i => (i, i)) ∧
      ∃ T, t.root = ptr T ∧ Rep t.nodes .nil T ∧ 2 ^ T.depth ≤ 8 ^ 2 := by
  obtain ⟨t, hr⟩ := exists_reachable 7
  exact ⟨t, hr, rb_depth hr⟩

/-- Two insertions, into the nodes 7 and 8, and a removal. -/
theorem rb_runs_two_inserts : ∃ t, Reachable heapCallbacks t [(8, 2)] ∧
    ∃ T, WellFormed heapCallbacks t [(8, 2)] T := by
  obtain ⟨t₁, t₂, t₃, a₁, a₂, a₃, h₁, h₂, h₃, hfree⟩ : ∃ t₁ t₂ t₃ a₁ a₂ a₃,
      (∀ n, runCall heapCallbacks (n + 3) (frRbInit heapCallbacks) (.insert (some 7) 1) =
        some (t₁, a₁)) ∧
      (∀ n, runCall heapCallbacks (n + 3) t₁ (.insert (some 8) 2) = some (t₂, a₂)) ∧
      (∀ n, runCall heapCallbacks (n + 3) t₂ (.remove 1) = some (t₃, a₃)) ∧ t₁.nodes 8 = none :=
    ⟨_, _, _, _, _, _, fun _ => rfl, fun _ => rfl, fun _ => rfl, rfl⟩
  have hreach : Reachable heapCallbacks t₃ [(8, 2)] := by
    have ok₁ : Allowed heapCallbacks (frRbInit heapCallbacks) (.insert (some 7) 1) :=
      fun _ _ _ => rfl
    have ok₂ : Allowed heapCallbacks t₁ (.insert (some 8) 2) := by
      rintro - i ⟨⟩
      exact hfree
    have ok₃ : Allowed heapCallbacks t₂ (.remove 1) := trivial
    exact ((Reachable.init.step ok₁ (Returns.of_add 3 h₁)).step ok₂ (Returns.of_add 3 h₂)).step ok₃
      (Returns.of_add 3 h₃)
  exact ⟨t₃, hreach, (rb_runs hreach).1⟩

end FreeRadius.Rb
