import FreeRadius.Htrie.Model

/-!
# Hash tables and red-black trees behind one table of functions

With a hash that tells apart exactly what the comparator tells apart, the two
stores hold the same elements after every sequence of calls, and return the same
results, but for the code of `replace`: the hash table returns 1 for data that
was inserted and 0 for data that was replaced, the tree the other way round.
-/

namespace FreeRadius.Htrie

open Library Hash Rb List FrHtrie Returns Call
open Std (TransCmp OrientedCmp ReflCmp)

variable {ι α : Type} [DecidableEq ι] {cb : Callbacks ι α} {hash : α → UInt32}
  {t : HashTable α} {r : FrRbTree ι α} {L : List (ι × α)} {fresh : Option ι} {data : α} {mem : Mem}

/-- What a call returns, for codes of a store and the element that was found. -/
def answer (replaced inserted : ℤ) (memory : Bool) (found : α → Option (ι × α)) (n : ℕ) :
    Call α → Answer α
  | .matchData d => .data ((found d).map Prod.snd)
  | .find d => .data ((found d).map Prod.snd)
  | .insert d => .bool ((found d).isNone && memory)
  | .replace d =>
    match found d with
    | some x => .code replaced (some x.2)
    | none => .code (if memory then inserted else -1) none
  | .remove d => .data ((found d).map Prod.snd)
  | .delete d => .bool (found d).isSome
  | .numElements => .count (u32 n)

/-- The answer of a hash table. -/
abbrev hashAnswer (memory : Bool) (cb : Callbacks ι α) (L : List (ι × α)) : Call α → Answer α :=
  answer 0 1 memory (found cb L) L.length

/-- The answer of a tree. -/
abbrev rbAnswer (memory : Bool) (cb : Callbacks ι α) (L : List (ι × α)) : Call α → Answer α :=
  answer 1 0 memory (found cb L) L.length

/-- The two stores hold the elements of `L`. -/
structure Joint (cb : Callbacks ι α) (hash : α → UInt32) (t : HashTable α) (r : FrRbTree ι α)
    (L : List (ι × α)) : Prop where
  layout : Layout hash StrictOrder t
  tree : Rb.Invariant cb r L
  same : ∀ x, Stored t x ↔ x ∈ L.map Prod.snd
  count : t.numElements = u32 L.length

variable {x : ι × α}

section Lists

variable [TransCmp cb.dataCmp]

theorem found_cases (h : Rb.Invariant cb r L) (data : α) :
    (∃ x ∈ L, cb.dataCmp data x.2 = .eq ∧ found cb L data = some x) ∨
      (∀ x ∈ L, cb.dataCmp data x.2 ≠ .eq) ∧ found cb L data = none := by
  by_cases hex : ∃ x ∈ L, cb.dataCmp data x.2 = .eq
  · obtain ⟨x, hx, heq⟩ := hex
    exact .inl ⟨x, hx, heq, found_some h.increasing (List.Perm.refl L) hx heq⟩
  · have hno : ∀ x ∈ L, cb.dataCmp data x.2 ≠ .eq := fun x hx heq => hex ⟨x, hx, heq⟩
    exact .inr ⟨hno, found_none (List.Perm.refl L) hno⟩

theorem mem_without_data (h : Rb.Invariant cb r L) (hx : x ∈ L) (w : α) :
    w ∈ (without x.1 L).map Prod.snd ↔ w ≠ x.2 ∧ w ∈ L.map Prod.snd := by
  obtain ⟨T, m, hat, -⟩ := h.shape
  simp only [mem_map, mem_without]
  constructor
  · rintro ⟨y, ⟨hy, hne⟩, rfl⟩
    refine ⟨fun heq => hne ?_, y, hy, rfl⟩
    have hyx : cb.dataCmp x.2 y.2 = .eq := by
      rw [heq]
      exact ReflCmp.compare_self
    rw [h.increasing.eq_of_eq hy hx hyx ReflCmp.compare_self]
  · rintro ⟨hne, y, hy, rfl⟩
    refine ⟨y, ⟨hy, fun heq => hne ?_⟩, rfl⟩
    rw [inj_on_of_nodup_map hat.nodup hy hx heq]

omit [TransCmp cb.dataCmp] in
theorem length_without (h : Rb.Invariant cb r L) (hx : x ∈ L) :
    (without x.1 L).length + 1 = L.length := by
  obtain ⟨T, m, hat, -⟩ := h.shape
  obtain ⟨l, r, hL⟩ := append_of_mem hx
  have hn := hat.nodup
  rw [hL] at hn ⊢
  rw [without_middle hn]
  simp only [length_append, length_cons]
  omega

end Lists

section HashSteps

variable [TransCmp cb.dataCmp] (J : Joint cb hash t r L)
  (hcompat : ∀ a b, cb.dataCmp a b = .eq ↔ hash a = hash b)
include J hcompat

/-- The hash table finds what the tree finds. -/
theorem Joint.same_iff (data x : α) : Stored t x ∧ Same cb.dataCmp hash data x ↔
    (found cb L data).map Prod.snd = some x := by
  rcases found_cases J.tree data with ⟨y, hy, heq, hf⟩ | ⟨hno, hf⟩
  · rw [hf, Option.map_some, Option.some.injEq]
    constructor
    · rintro ⟨hx, -, hcmp⟩
      obtain ⟨z, hz, rfl⟩ := mem_map.mp ((J.same x).mp hx)
      rw [J.tree.increasing.eq_of_eq hy hz heq hcmp]
    · rintro rfl
      exact ⟨(J.same _).mpr (mem_map.mpr ⟨y, hy, rfl⟩), ((hcompat _ _).mp heq).symm, heq⟩
  · rw [hf, Option.map_none]
    constructor
    · rintro ⟨hx, -, hcmp⟩
      obtain ⟨z, hz, rfl⟩ := mem_map.mp ((J.same x).mp hx)
      exact absurd hcmp (hno z hz)
    · rintro ⟨⟩

theorem Joint.hash_find (data : α) : ∃ t', frHashTableFind cb.dataCmp hash t data =
    some (t', (found cb L data).map Prod.snd) ∧ Joint cb hash t' r L := by
  obtain ⟨t', res, hf, L', hr, hcases⟩ := frHashTableFind_spec (chainOrder_strict cb.dataCmp)
    J.layout data
  have hres : res = (found cb L data).map Prod.snd := by
    rcases hcases with ⟨x, rfl, hx⟩ | ⟨rfl, hno⟩
    · exact ((J.same_iff hcompat data x).mp hx).symm
    cases hfound : (found cb L data).map Prod.snd with
    | none => rfl
    | some x =>
      have hx := (J.same_iff hcompat data x).mpr hfound
      exact absurd hx.2 (hno x hx.1)
  exact ⟨t', hres ▸ hf, L', J.tree, fun x => (hr.stored_iff x).trans (J.same x),
    hr.numElements.trans J.count⟩

theorem Joint.hash_insert_new (hf : found cb L data = none) (hnode : mem.node = true) :
    ∃ t', frHashTableInsert cb.dataCmp hash mem t data = some (t', true) ∧
      Layout hash StrictOrder t' ∧ t'.numElements = u32 (L.length + 1) ∧
      ∀ x, Stored t' x ↔ x = data ∨ x ∈ L.map Prod.snd := by
  have hR : ∀ a b : Entry α, StrictOrder a b → a.reversed ≤ b.reversed := fun a b hab => hab.le
  have hne : ∀ x, Stored t x → hash x ≠ hash data := by
    intro x hx hh
    have := (J.same_iff hcompat data x).mp ⟨hx, hh, (hcompat data x).mpr hh.symm⟩
    rw [hf] at this
    cases this
  obtain ⟨t', ht', L', hnum, hstored⟩ := frHashTableInsert_absent hR hnode J.layout
    (fun x hx hh => absurd hh (hne x hx))
    (fun i e he hle => lt_of_le_of_ne hle fun heq =>
      hne e.data ⟨i, e, he, rfl⟩ ((reversed_eq_iff J.layout he data).mp heq))
    (fun e hlt => hlt)
  refine ⟨t', ht', L', ?_, fun x => ?_⟩
  · rw [hnum, J.count, u32_add]
  · rw [hstored, J.same]

theorem Joint.hash_insert_not (h : (found cb L data).isSome ∨ mem.node = false) :
    ∃ t', frHashTableInsert cb.dataCmp hash mem t data = some (t', false) ∧
      Joint cb hash t' r L := by
  have hR : ∀ a b : Entry α, StrictOrder a b → a.reversed ≤ b.reversed := fun a b hab => hab.le
  have hjoint : ∀ t', Layout hash StrictOrder t' → Refines t t' → Joint cb hash t' r L :=
    fun t' L' hr => ⟨L', J.tree, fun x => (hr.stored_iff x).trans (J.same x),
      hr.numElements.trans J.count⟩
  rcases h with h | hnode
  · obtain ⟨x, hx⟩ := Option.isSome_iff_exists.mp h
    have hsame := (J.same_iff hcompat data x.2).mpr (by rw [hx, Option.map_some])
    obtain ⟨t', ht', L', hr⟩ := frHashTableInsert_present (chainOrder_strict cb.dataCmp) J.layout mem
      hsame.1 hsame.2
    exact ⟨t', ht', hjoint t' L' hr⟩
  · obtain ⟨t', ht', L', hr⟩ := frHashTableInsert_no_node cb.dataCmp hR hnode J.layout data
    exact ⟨t', ht', hjoint t' L' hr⟩

theorem Joint.hash_remove_found (hf : found cb L data = some x) :
    ∃ t', frHashTableRemove cb.dataCmp hash t data = some (t', some x.2) ∧
      Layout hash StrictOrder t' ∧ t'.numElements = u32 (without x.1 L).length ∧
      ∀ y, Stored t' y ↔ y ∈ (without x.1 L).map Prod.snd := by
  have hx : x ∈ L := mem_of_find?_eq_some hf
  have hsame := (J.same_iff hcompat data x.2).mpr (by rw [hf, Option.map_some])
  rcases frHashTableRemove_spec (chainOrder_strict cb.dataCmp) J.layout data with
    ⟨t', y, ht', L', hy, hysame, hnum, hstored⟩ | ⟨t', -, -, -, hno⟩
  · have hxy : x.2 = y := by
      have := (J.same_iff hcompat data y).mp ⟨hy, hysame⟩
      rwa [hf, Option.map_some, Option.some.injEq] at this
    refine ⟨t', hxy ▸ ht', L', ?_, fun w => ?_⟩
    · rw [hnum, J.count, ← length_without J.tree hx, u32_pred]
    · rw [hstored, J.same, mem_without_data J.tree hx, hxy]
  · exact absurd hsame.2 (hno x.2 hsame.1)

theorem Joint.hash_remove_none (hf : found cb L data = none) :
    ∃ t', frHashTableRemove cb.dataCmp hash t data = some (t', none) ∧ Joint cb hash t' r L := by
  rcases frHashTableRemove_spec (chainOrder_strict cb.dataCmp) J.layout data with
    ⟨t', y, -, -, hy, hysame, -, -⟩ | ⟨t', ht', L', hr, -⟩
  · have := (J.same_iff hcompat data y).mp ⟨hy, hysame⟩
    rw [hf] at this
    cases this
  · exact ⟨t', ht', L', J.tree, fun x => (hr.stored_iff x).trans (J.same x),
      hr.numElements.trans J.count⟩

theorem Joint.hash_replace_found (hf : found cb L data = some x) (mem : Mem) :
    ∃ t', frHashTableReplace cb.dataCmp hash mem t data = some (t', 0, some x.2) ∧
      Layout hash StrictOrder t' ∧ t'.numElements = u32 L.length ∧
      ∀ y, Stored t' y ↔ y = data ∨ y ∈ (without x.1 L).map Prod.snd := by
  have hx : x ∈ L := mem_of_find?_eq_some hf
  have hsame := (J.same_iff hcompat data x.2).mpr (by rw [hf, Option.map_some])
  have hcongr : ∀ a b e : Entry α, a.reversed = b.reversed → cb.dataCmp b.data a.data = .eq →
      (StrictOrder a e → StrictOrder b e) ∧ (StrictOrder e a → StrictOrder e b) := by
    intro a b e hab _
    unfold StrictOrder
    rw [hab]
    exact ⟨id, id⟩
  obtain ⟨t', y, ht', L', hy, hysame, hnum, hstored⟩ := frHashTableReplace_present
    (chainOrder_strict cb.dataCmp) J.layout hcongr mem hsame.1 hsame.2
  have hxy : x.2 = y := by
    have := (J.same_iff hcompat data y).mp ⟨hy, hysame⟩
    rwa [hf, Option.map_some, Option.some.injEq] at this
  refine ⟨t', hxy ▸ ht', L', hnum.trans J.count, fun w => ?_⟩
  rw [hstored, J.same, mem_without_data J.tree hx, hxy]

theorem Joint.hash_replace_none (hf : found cb L data = none) (mem : Mem) :
    ∃ t₁, Joint cb hash t₁ r L ∧ frHashTableReplace cb.dataCmp hash mem t data =
      (frHashTableInsert cb.dataCmp hash mem t₁ data).map fun (t, inserted) =>
        (t, if inserted then 1 else -1, none) := by
  obtain ⟨t₁, hfind, J₁⟩ := J.hash_find hcompat data
  rw [hf, Option.map_none] at hfind
  refine ⟨t₁, J₁, ?_⟩
  unfold frHashTableFind at hfind
  rw [Option.bind_eq_bind, Option.bind_eq_some_iff] at hfind
  obtain ⟨⟨t₂, c⟩, hc, hres⟩ := hfind
  simp only [Option.some.injEq, Prod.mk.injEq, Option.map_eq_none_iff] at hres
  obtain ⟨rfl, rfl⟩ := hres
  simp only [frHashTableReplace, hc, Option.bind_eq_bind, Option.bind_some]
  cases frHashTableInsert cb.dataCmp hash mem t₂ data <;> rfl

end HashSteps

/-! ## Both stores -/

/-- Both stores get memory for a node, or none does, and `talloc` returns memory
that is not in use. -/
structure Promised (cb : Callbacks ι α) (mem : Mem) (fresh : Option ι) (r : FrRbTree ι α) :
    Prop where
  memory : mem.node = fresh.isSome
  fresh : FreshNode cb fresh r

def Call.toRb (fresh : Option ι) : Call α → Option (Rb.Call ι α)
  | .matchData d => some (.find d)
  | .find d => some (.find d)
  | .insert d => some (.insert fresh d)
  | .replace d => some (.replace fresh d)
  | .remove d => some (.remove d)
  | .delete d => some (.delete d)
  | .numElements => none

def ofRb : Rb.Answer α → Answer α
  | .data x => .data x
  | .bool b => .bool b
  | .code c old => .code c old

def next (cb : Callbacks ι α) (fresh : Option ι) (L : List (ι × α)) (call : Call α) :
    List (ι × α) :=
  match call.toRb fresh with
  | some c => (specStep cb L c).1
  | none => L

variable {call : Call α} {c : Rb.Call ι α}

theorem run_rb (hc : call.toRb fresh = some c) (fuel : ℕ) :
    (⟨r, rbFuncs cb⟩ : FrHtrie _ _ α).run fresh fuel call =
      (runCall cb fuel r c).map fun (r', a) => (⟨r', rbFuncs cb⟩, ofRb a) := by
  cases call with
  | numElements => cases hc
  | _ =>
    cases hc
    simp only [run, rbFuncs, rbFind, runCall, Option.map_map]
    rfl

omit [DecidableEq ι] in
theorem newNode_heap (hheap : cb.nodeAlloc = .heapNode) (fresh : Option ι) (d : α) :
    newNode cb fresh d = fresh := by
  simp [newNode, hheap]

theorem ofRb_specStep (hheap : cb.nodeAlloc = .heapNode) (hc : call.toRb fresh = some c) :
    ofRb (specStep cb L c).2 = rbAnswer fresh.isSome cb L call := by
  cases call with
  | numElements => cases hc
  | _ d =>
    cases hc
    cases hf : found cb L d <;> cases fresh <;>
      simp [specStep, hf, newNode_heap hheap, ofRb, answer]

theorem rb_step [TransCmp cb.dataCmp] (h : Rb.Invariant cb r L) (hheap : cb.nodeAlloc = .heapNode)
    (hfresh : FreshNode cb fresh r) (call : Call α) :
    ∃ r' L', Returns (fun fuel => (⟨r, rbFuncs cb⟩ : FrHtrie _ _ α).run fresh fuel call)
        (⟨r', rbFuncs cb⟩, rbAnswer fresh.isSome cb L call) ∧
      Rb.Invariant cb r' L' ∧ L'.Perm (next cb fresh L call) := by
  cases hc : call.toRb fresh with
  | none =>
    cases call with
    | numElements =>
      refine ⟨r, L, of_eq fun fuel => ?_, h, List.Perm.refl L⟩
      simp [run, rbFuncs, frRbNumElements, answer, h.numElements]
    | _ => cases hc
  | some c =>
    have hallowed : Allowed cb r c := by
      cases call with
      | numElements => cases hc
      | insert d =>
        cases hc
        exact hfresh
      | replace d =>
        cases hc
        exact hfresh
      | _ =>
        cases hc
        trivial
    obtain ⟨r', L', hret, hinv, hperm⟩ := follow h (List.Perm.refl L) hallowed
    refine ⟨r', L', hret.imp fun fuel hs => ?_, hinv, ?_⟩
    · rw [run_rb hc, hs, Option.map_some, ← ofRb_specStep hheap hc]
    · rw [next, hc]
      exact hperm

/-- What a call leaves in the hash table. -/
structure HashStep (hash : α → UInt32) (t' : HashTable α) (L' : List (ι × α)) : Prop where
  layout : Layout hash StrictOrder t'
  count : t'.numElements = u32 L'.length
  same : ∀ x, Stored t' x ↔ x ∈ L'.map Prod.snd

omit [DecidableEq ι] in
theorem HashStep.perm {t' : HashTable α} {L' L'' : List (ι × α)} (h : HashStep hash t' L')
    (hperm : L''.Perm L') : HashStep hash t' L'' :=
  ⟨h.layout, by rw [h.count, hperm.length_eq], fun x => by rw [h.same, (hperm.map _).mem_iff]⟩

theorem Joint.hashStep (J : Joint cb hash t r L) : HashStep hash t L := ⟨J.layout, J.count, J.same⟩

section HashStep

variable [TransCmp cb.dataCmp] (J : Joint cb hash t r L)
  (hcompat : ∀ a b, cb.dataCmp a b = .eq ↔ hash a = hash b)
include J hcompat

theorem Joint.hash_insert (hheap : cb.nodeAlloc = .heapNode) (hmem : mem.node = fresh.isSome) (d : α) :
    ∃ t', frHashTableInsert cb.dataCmp hash mem t d =
        some (t', (found cb L d).isNone && fresh.isSome) ∧
      HashStep hash t' (next cb fresh L (.insert d)) := by
  have hnew := newNode_heap hheap fresh d
  cases hf : found cb L d with
  | some x =>
    obtain ⟨t', ht', J'⟩ := J.hash_insert_not hcompat (.inl (by rw [hf]; rfl) :
      (found cb L d).isSome ∨ mem.node = false)
    exact ⟨t', ht', by simpa [next, toRb, specStep, hf] using J'.hashStep⟩
  | none =>
    cases fresh with
    | none =>
      obtain ⟨t', ht', J'⟩ := J.hash_insert_not hcompat (.inr hmem :
        (found cb L d).isSome ∨ mem.node = false)
      exact ⟨t', ht', by simpa [next, toRb, specStep, hf, hnew] using J'.hashStep⟩
    | some i =>
      obtain ⟨t', ht', L', hnum, hstored⟩ := J.hash_insert_new hcompat hf (hmem : mem.node = true)
      refine ⟨t', ht', ?_⟩
      simp only [next, toRb, specStep, hf, hnew]
      exact ⟨L', hnum, fun x => (hstored x).trans (by simp)⟩

theorem Joint.hash_replace (hheap : cb.nodeAlloc = .heapNode) (hmem : mem.node = fresh.isSome)
    (d : α) :
    ∃ t' code old, frHashTableReplace cb.dataCmp hash mem t d = some (t', code, old) ∧
      hashAnswer fresh.isSome cb L (.replace d) = .code code old ∧
      HashStep hash t' (next cb fresh L (.replace d)) := by
  cases hf : found cb L d with
  | some x =>
    obtain ⟨t', ht', L', hnum, hstored⟩ := J.hash_replace_found hcompat hf mem
    refine ⟨t', _, _, ht', by simp [answer, hf], ?_⟩
    simp only [next, toRb, specStep, hf]
    refine ⟨L', ?_, fun y => (hstored y).trans (by simp)⟩
    rw [hnum, length_cons, length_without J.tree (mem_of_find?_eq_some hf)]
  | none =>
    obtain ⟨t₁, J₁, heq⟩ := J.hash_replace_none hcompat hf mem
    obtain ⟨t', ht', hstep⟩ := J₁.hash_insert hcompat hheap hmem d
    rw [hf] at ht'
    refine ⟨t', _, _, by rw [heq, ht']; rfl, by simp [answer, hf], ?_⟩
    have hnext : next cb fresh L (.replace d) = next cb fresh L (.insert d) := by
      cases fresh <;> simp [next, toRb, specStep, hf, newNode_heap hheap]
    rw [hnext]
    exact hstep

theorem Joint.hash_remove (d : α) :
    ∃ t', frHashTableRemove cb.dataCmp hash t d = some (t', (found cb L d).map Prod.snd) ∧
      HashStep hash t' (next cb fresh L (.remove d)) := by
  cases hf : found cb L d with
  | some x =>
    obtain ⟨t', ht', L', hnum, hstored⟩ := J.hash_remove_found hcompat hf
    refine ⟨t', ht', ?_⟩
    simp only [next, toRb, specStep, hf]
    exact ⟨L', hnum, hstored⟩
  | none =>
    obtain ⟨t', ht', J'⟩ := J.hash_remove_none hcompat hf
    refine ⟨t', ht', ?_⟩
    simpa [next, toRb, specStep, hf] using J'.hashStep

theorem hash_step (hheap : cb.nodeAlloc = .heapNode) (hmem : mem.node = fresh.isSome)
    (call : Call α) :
    ∃ t', (∀ fuel, (⟨t, hashFuncs cb.dataCmp hash⟩ : FrHtrie _ _ α).run mem fuel call =
        some (⟨t', hashFuncs cb.dataCmp hash⟩, hashAnswer fresh.isSome cb L call)) ∧
      HashStep hash t' (next cb fresh L call) := by
  cases call with
  | matchData d =>
    obtain ⟨t', ht', J'⟩ := J.hash_find hcompat d
    exact ⟨t', fun fuel => by simp [run, hashFuncs, ht', answer], J'.hashStep⟩
  | find d =>
    obtain ⟨t', ht', J'⟩ := J.hash_find hcompat d
    exact ⟨t', fun fuel => by simp [run, hashFuncs, ht', answer], J'.hashStep⟩
  | insert d =>
    obtain ⟨t', ht', hstep⟩ := J.hash_insert hcompat hheap hmem d
    exact ⟨t', fun fuel => by simp [run, hashFuncs, ht', answer], hstep⟩
  | replace d =>
    obtain ⟨t', code, old, ht', hanswer, hstep⟩ := J.hash_replace hcompat hheap hmem d
    exact ⟨t', fun fuel => by simp [run, hashFuncs, ht', hanswer], hstep⟩
  | remove d =>
    obtain ⟨t', ht', hstep⟩ := J.hash_remove hcompat d
    exact ⟨t', fun fuel => by simp [run, hashFuncs, ht', answer], hstep⟩
  | delete d =>
    have hnext : next cb fresh L (.delete d) = next cb fresh L (.remove d) := by
      cases hf : found cb L d <;> simp [next, toRb, specStep, hf]
    rw [hnext]
    obtain ⟨t', ht', hstep⟩ := J.hash_remove hcompat d
    exact ⟨t', fun fuel => by simp [run, hashFuncs, frHashTableDelete, ht', answer], hstep⟩
  | numElements =>
    exact ⟨t, fun fuel => by simp [run, hashFuncs, frHashTableNumElements, answer, J.count],
      J.hashStep⟩

end HashStep

/-! ## Runs -/

/-- A call with the hash table before it and whether there is memory for a node, and what the two
stores answered. -/
structure Event (α : Type) where
  call : Call α
  before : HashTable α
  memory : Bool
  hashAnswer : Answer α
  rbAnswer : Answer α

/-- A call of `replace` that finds an element to replace, or memory to insert one. -/
def Event.Replaces (cmp : α → α → Ordering) (e : Event α) : Prop :=
  ∃ d, e.call = .replace d ∧ (e.memory = true ∨ ∃ x, Stored e.before x ∧ cmp d x = .eq)

/-- The answers are the same but for the codes 0 and 1. -/
def Event.SameButCode (e : Event α) : Prop :=
  ∃ old, e.hashAnswer = .code 0 old ∧ e.rbAnswer = .code 1 old ∨
    e.hashAnswer = .code 1 old ∧ e.rbAnswer = .code 0 old

/-- The states of the two stores after the same calls, and the calls. -/
inductive Reachable (cmp : α → α → Ordering) (hash : α → UInt32) (dataFree : Bool) :
    FrHtrie (HashTable α) Mem α → FrHtrie (FrRbTree ι α) (Option ι) α → List (Event α) → Prop
  | alloc : Reachable cmp hash dataFree (frHtrieAllocHash cmp hash) (frHtrieAllocRb cmp dataFree) []
  | step {h h' : FrHtrie (HashTable α) Mem α} {r r' : FrHtrie (FrRbTree ι α) (Option ι) α}
      {trace : List (Event α)} {mem : Mem} {fresh : Option ι} {call : Call α} {a b : Answer α} :
      Reachable cmp hash dataFree h r trace →
      Promised (rbCallbacks cmp dataFree) mem fresh r.store →
      Returns (fun fuel => h.run mem fuel call) (h', a) →
      Returns (fun fuel => r.run fresh fuel call) (r', b) →
      Reachable cmp hash dataFree h' r' (trace ++ [⟨call, h.store, mem.node, a, b⟩])

section Runs

variable {cmp : α → α → Ordering} [TransCmp cmp] {dataFree : Bool}

instance :
    TransCmp (rbCallbacks cmp dataFree : Callbacks ι α).dataCmp := inferInstanceAs (TransCmp cmp)

/-- What holds in all states of the runs. -/
structure Invariant (cmp : α → α → Ordering) (hash : α → UInt32) (dataFree : Bool)
    (h : FrHtrie (HashTable α) Mem α) (r : FrHtrie (FrRbTree ι α) (Option ι) α)
    (trace : List (Event α)) (L : List (ι × α)) : Prop where
  hashFuncs : h.funcs = hashFuncs cmp hash
  rbFuncs : r.funcs = rbFuncs (rbCallbacks cmp dataFree)
  joint : Joint (rbCallbacks cmp dataFree) hash h.store r.store L
  equal_iff : ∀ e ∈ trace, (e.hashAnswer = e.rbAnswer ↔ ¬ e.Replaces cmp) ∧
    (e.Replaces cmp → e.SameButCode)

variable {h : FrHtrie (HashTable α) Mem α} {r : FrHtrie (FrRbTree ι α) (Option ι) α}
  {trace : List (Event α)}

/-- Both stores answer every call, and the invariant is kept. -/
theorem Invariant.step {L : List (ι × α)} (hinv : Invariant cmp hash dataFree h r trace L)
    (hcompat : ∀ a b, cmp a b = .eq ↔ hash a = hash b)
    (hp : Promised (rbCallbacks cmp dataFree) mem fresh r.store) (call : Call α) :
    ∃ h' r' a b L', Returns (fun fuel => h.run mem fuel call) (h', a) ∧
      Returns (fun fuel => r.run fresh fuel call) (r', b) ∧
      Invariant cmp hash dataFree h' r' (trace ++ [⟨call, h.store, mem.node, a, b⟩]) L' := by
  obtain ⟨t, fh⟩ := h
  obtain ⟨r, fr⟩ := r
  obtain ⟨rfl, rfl, J, heq⟩ := hinv
  have hheap : (rbCallbacks cmp dataFree : Callbacks ι α).nodeAlloc = .heapNode := rfl
  obtain ⟨t', ht', hstep⟩ := hash_step J hcompat hheap hp.memory call
  obtain ⟨r', L', hret, htree, hperm⟩ := rb_step J.tree hheap hp.fresh call
  have hstep' := hstep.perm hperm
  refine ⟨_, _, _, _, L', of_eq ht', hret, rfl, rfl,
    ⟨hstep'.layout, htree, hstep'.same, hstep'.count⟩, ?_⟩
  intro e he
  rcases mem_append.mp he with he | he
  · exact heq e he
  rw [mem_singleton] at he
  subst he
  cases call with
  | replace d =>
    have hstored : (∃ x, Stored t x ∧ cmp d x = .eq) ↔
        (found (rbCallbacks cmp dataFree) L d).isSome = true := by
      constructor
      · rintro ⟨x, hx, heq⟩
        obtain ⟨y, hy, rfl⟩ := mem_map.mp ((J.same x).mp hx)
        exact find?_isSome.mpr ⟨y, hy, decide_eq_true heq⟩
      · intro hfound
        obtain ⟨y, hy, heq⟩ := find?_isSome.mp hfound
        exact ⟨y.2, (J.same _).mpr (mem_map_of_mem hy), of_decide_eq_true heq⟩
    simp only [Event.Replaces, Call.replace.injEq, exists_eq_left', hstored, hp.memory,
      Event.SameButCode]
    cases hf : found (rbCallbacks cmp dataFree) L d <;> cases fresh <;> simp [answer, hf]
  | _ => simp [answer, Event.Replaces]

theorem Reachable.invariant (hcompat : ∀ a b, cmp a b = .eq ↔ hash a = hash b)
    (hr : Reachable cmp hash dataFree h r trace) :
    ∃ L, Invariant cmp hash dataFree h r trace L := by
  induction hr with
  | alloc =>
    refine ⟨[], rfl, rfl, ⟨layout_alloc, init_invariant _, fun x => ?_, rfl⟩, fun e he => by cases he⟩
    exact ⟨fun hx => absurd hx (not_stored_alloc x), fun hx => by cases hx⟩
  | step _ hp ha hb ih =>
    obtain ⟨L, hinv⟩ := ih
    obtain ⟨h', r', a', b', L', ha', hb', hinv'⟩ := hinv.step hcompat hp _
    have heqa := ha.unique ha'
    have heqb := hb.unique hb'
    rw [Prod.mk.injEq] at heqa heqb
    rw [heqa.1, heqa.2, heqb.1, heqb.2]
    exact ⟨L', hinv'⟩

/-- After the same calls the two stores hold the same elements, and they have
given the same answers exactly if no call of `replace` has replaced or inserted
data; the answers to such a call have the same old data. -/
theorem backends_agree_iff {h : FrHtrie (HashTable α) Mem α}
    {r : FrHtrie (FrRbTree ι α) (Option ι) α} {trace : List (Event α)}
    (hcompat : ∀ a b, cmp a b = .eq ↔ hash a = hash b)
    (hr : Reachable cmp hash dataFree h r trace) :
    (∃ held T, WellFormed (rbCallbacks cmp dataFree) r.store held T ∧
      ∀ x, Stored h.store x ↔ x ∈ T.toList.map Prod.snd) ∧
    ((∀ e ∈ trace, e.hashAnswer = e.rbAnswer) ↔ ∀ e ∈ trace, ¬ e.Replaces cmp) ∧
    (∀ e ∈ trace, e.hashAnswer = e.rbAnswer ∨ e.Replaces cmp ∧ e.SameButCode) ∧
    ∀ mem fresh, Promised (rbCallbacks cmp dataFree) mem fresh r.store → ∀ call,
      ∃ h' r' a b, Returns (fun fuel => h.run mem fuel call) (h', a) ∧
        Returns (fun fuel => r.run fresh fuel call) (r', b) := by
  obtain ⟨L, hinv⟩ := hr.invariant hcompat
  refine ⟨?_, ⟨?_, ?_⟩, ?_, ?_⟩
  · obtain ⟨T, hT⟩ := hinv.joint.tree.wellFormed (List.Perm.refl L)
    refine ⟨L, T, hT, fun x => ?_⟩
    rw [hinv.joint.same, (hT.held.map Prod.snd).mem_iff]
  · exact fun hall e he => (hinv.equal_iff e he).1.mp (hall e he)
  · exact fun hall e he => (hinv.equal_iff e he).1.mpr (hall e he)
  · intro e he
    obtain ⟨hiff, hcode⟩ := hinv.equal_iff e he
    by_cases hrep : e.Replaces cmp
    · exact .inr ⟨hrep, hcode hrep⟩
    · exact .inl (hiff.mpr hrep)
  · intro mem fresh hp call
    obtain ⟨h', r', a, b, -, ha, hb, -⟩ := hinv.step hcompat hp call
    exact ⟨h', r', a, b, ha, hb⟩

end Runs

/-- An insertion and a search. -/
theorem backends_agree_iff_insert_find : ∃ (h : FrHtrie (HashTable UInt32) Mem UInt32)
    (r : FrHtrie (FrRbTree ℕ UInt32) (Option ℕ) UInt32) (trace : List (Event UInt32)),
    Reachable compare id false h r trace ∧ trace.map Event.call = [.insert 1, .find 1] ∧
      ∀ e ∈ trace, e.hashAnswer = e.rbAnswer := by
  obtain ⟨h₁, r₁, h₂, r₂, hh₁, hr₁, hh₂, hr₂⟩ :
      ∃ h₁ r₁ h₂ r₂,
      (∀ fuel, (frHtrieAllocHash compare id).run Mem.full fuel (.insert (1 : UInt32)) =
        some (h₁, .bool true)) ∧
      (∀ n, (frHtrieAllocRb compare false).run (some 0) (n + 3) (.insert (1 : UInt32)) =
        some (r₁, .bool true)) ∧
      (∀ fuel, h₁.run ⟨false, fun _ => false, fun _ h => by cases h⟩ fuel (.find 1) =
        some (h₂, .data (some 1))) ∧
      (∀ n, r₁.run none (n + 3) (.find 1) = some (r₂, .data (some 1))) :=
    ⟨_, _, _, _, fun _ => rfl, fun _ => rfl, fun _ => rfl, fun _ => rfl⟩
  have hp₁ : Promised (rbCallbacks compare false) Mem.full (some 0)
      (frHtrieAllocRb compare false : FrHtrie (FrRbTree ℕ UInt32) (Option ℕ) UInt32).store :=
    ⟨rfl, fun _ _ _ => rfl⟩
  have hreach := (Reachable.alloc.step hp₁ (of_eq hh₁) (of_add 3 hr₁)).step
    ⟨rfl, fun _ _ h => by cases h⟩ (of_eq hh₂) (of_add 3 hr₂)
  refine ⟨h₂, r₂, _, hreach, rfl, ?_⟩
  have hcompat : ∀ a b : UInt32, compare a b = .eq ↔ id a = id b :=
    fun a b => Std.LawfulEqCmp.compare_eq_iff_eq
  refine (backends_agree_iff hcompat hreach).2.1.mpr ?_
  simp [Event.Replaces]

/-- The first call of `replace` inserts: the hash table answers 1, the tree 0.
The second one replaces, with 0 and 1. -/
theorem replace_codes_differ : Function.Injective (id : UInt32 → UInt32) ∧
    ∃ (h : FrHtrie (HashTable UInt32) Mem UInt32)
      (r : FrHtrie (FrRbTree ℕ UInt32) (Option ℕ) UInt32),
      ∃ trace, Reachable compare id false h r trace ∧
        trace.map (fun e => (e.call, e.hashAnswer, e.rbAnswer)) =
          [(.replace 1, .code 1 none, .code 0 none),
            (.replace 1, .code 0 (some 1), .code 1 (some 1))] := by
  obtain ⟨h₁, r₁, h₂, r₂, hh₁, hr₁, hh₂, hr₂, hfree⟩ :
      ∃ h₁ r₁ h₂ r₂,
      (∀ fuel, (frHtrieAllocHash compare id).run Mem.full fuel (.replace (1 : UInt32)) =
        some (h₁, .code 1 none)) ∧
      (∀ n, (frHtrieAllocRb compare false).run (some 0) (n + 3) (.replace (1 : UInt32)) =
        some (r₁, .code 0 none)) ∧
      (∀ fuel, h₁.run Mem.full fuel (.replace 1) = some (h₂, .code 0 (some 1))) ∧
      (∀ n, r₁.run (some 1) (n + 3) (.replace 1) = some (r₂, .code 1 (some 1))) ∧
      r₁.store.nodes 1 = none :=
    ⟨_, _, _, _, fun _ => rfl, fun _ => rfl, fun _ => rfl, fun _ => rfl, rfl⟩
  have hp₁ : Promised (rbCallbacks compare false) Mem.full (some 0)
      (frHtrieAllocRb compare false : FrHtrie (FrRbTree ℕ UInt32) (Option ℕ) UInt32).store :=
    ⟨rfl, fun _ _ _ => rfl⟩
  have hp₂ : Promised (rbCallbacks compare false) Mem.full (some 1) r₁.store := by
    refine ⟨rfl, ?_⟩
    rintro - i ⟨⟩
    exact hfree
  exact ⟨Function.injective_id, h₂, r₂, _, (Reachable.alloc.step hp₁ (of_eq hh₁)
    (of_add 3 hr₁)).step hp₂ (of_eq hh₂) (of_add 3 hr₂), rfl⟩

end FreeRadius.Htrie
