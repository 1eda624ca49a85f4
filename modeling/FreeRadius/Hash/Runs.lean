import FreeRadius.Hash.Iteration

/-!
# Runs with distinct hashes

As long as no two stored elements have the same hash, every entry is in the
chain of its home, the chains are strictly sorted, searches find exactly the
stored elements, and an iteration shows each of them once. A run may mix all
calls; changing the table ends the iteration that is under way.
-/

namespace FreeRadius.Hash

open Library List
open Std (ReflCmp)

variable {α : Type} {cmp : α → α → Ordering} {hash : α → UInt32} {t : HashTable α}

/-- A table, the elements that were inserted into it and not removed, and an
iterator over it with the elements it has answered. -/
structure Session (α : Type) where
  table : HashTable α
  live : List α
  iter : Option (HashIter α × List α)

def Session.start : Session α := ⟨frHashTableAlloc, [], none⟩

inductive Call (α : Type) where
  | insert (mem : Mem) (data : α)
  | remove (data : α)
  | find (data : α)
  | iterInit
  | iterNext

/-- One call. "If the hash table is modified the iterator should be considered
invalidated": there is no next element to ask for then. -/
def Session.step [DecidableEq α] (cmp : α → α → Ordering) (hash : α → UInt32) (s : Session α) :
    Call α → Option (Session α)
  | .insert mem data => (frHashTableInsert cmp hash mem s.table data).map fun (t, inserted) =>
      if inserted then ⟨t, data :: s.live, none⟩ else ⟨t, s.live, s.iter⟩
  | .remove data => (frHashTableRemove cmp hash s.table data).map fun (t, old) =>
      match old with
      | some x => ⟨t, s.live.erase x, none⟩
      | none => ⟨t, s.live, s.iter⟩
  | .find data => (frHashTableFind cmp hash s.table data).map fun (t, _) => ⟨t, s.live, s.iter⟩
  | .iterInit => (frHashTableIterInit s.table).map fun (t, iter, x) =>
      ⟨t, s.live, some (iter, x.toList)⟩
  | .iterNext => s.iter.bind fun (iter, seen) =>
      (frHashTableIterNext s.table iter).map fun (t, iter, x) =>
        ⟨t, s.live, some (iter, seen ++ x.toList)⟩

/-- The next element is asked for during an iteration only. -/
def Session.Allows (s : Session α) : Call α → Prop
  | .iterNext => s.iter.isSome
  | _ => True

/-- No two of the elements have the same hash. -/
def DistinctHashes (hash : α → UInt32) (live : List α) : Prop := (live.map hash).Nodup

/-- The states of the runs in which the stored elements have distinct hashes. -/
inductive Reachable [DecidableEq α] (cmp : α → α → Ordering) (hash : α → UInt32) :
    Session α → Prop
  | start : Reachable cmp hash Session.start
  | step {s s' : Session α} {call : Call α} : Reachable cmp hash s →
      s.step cmp hash call = some s' → DistinctHashes hash s'.live → Reachable cmp hash s'

/-- The entries of all chains are those of the elements `live`; every entry is
in the chain of the nearest bucket that is set among the bucket of its masked
hash and that one's ancestors, and in no other chain; the chains are sorted by
reversed hashes. -/
structure Consistent (hash : α → UInt32) (t : HashTable α) (live : List α) : Prop where
  stored : ((entries t).map Entry.data).Perm live
  mem_entries : ∀ i e, InBucket t i e → e ∈ entries t
  home : ∀ i e, InBucket t i e → Home t ((hash e.data).toNat &&& t.mask) i
  one_chain : ∀ i j e e', InBucket t i e → InBucket t j e' → e.data = e'.data → i = j
  sorted : ∀ i c, t.buckets i = some c →
    c.Pairwise fun a b => reverse (hash a.data).toNat < reverse (hash b.data).toNat

/-- A search finds the element of `live` that is the same as the data, if any. -/
def FindsExactly (cmp : α → α → Ordering) (hash : α → UInt32) (t : HashTable α)
    (live : List α) : Prop :=
  ∀ d, ∃ t' r, frHashTableFind cmp hash t d = some (t', r) ∧
    ∀ x, r = some x ↔ x ∈ live ∧ Same cmp hash d x

/-- The elements that a call of the iterator and the calls after it answer,
until one answers that there is none. -/
inductive Answers : Option (HashTable α × HashIter α × Option α) → List α → Prop
  | done {t : HashTable α} {iter : HashIter α} : Answers (some (t, iter, none)) []
  | next {t : HashTable α} {iter : HashIter α} {x : α} {xs : List α} :
      Answers (frHashTableIterNext t iter) xs → Answers (some (t, iter, some x)) (x :: xs)

/-- The invariant of a session. -/
structure SessionInv (hash : α → UInt32) (s : Session α) : Prop where
  layout : Layout hash StrictOrder s.table
  live : ∀ x, x ∈ s.live ↔ Stored s.table x
  distinct : DistinctHashes hash s.live
  iterating : ∀ iter seen, s.iter = some (iter, seen) → Iterating s.table iter seen

variable {s : Session α}

/-! ## What the invariant promises -/

theorem Layout.eq_of_hash (L : Layout hash StrictOrder t) {x y : α} (hx : Stored t x)
    (hy : Stored t y) (hh : hash x = hash y) : x = y := by
  obtain ⟨i, a, ha, rfl⟩ := hx
  obtain ⟨j, b, hb, rfl⟩ := hy
  have hrev : a.reversed = b.reversed := by
    rw [L.reversed i a ha, L.reversed j b hb, L.key i a ha, L.key j b hb, hh]
  have hij : i = j := by
    have hhome := L.home i a ha
    rw [L.key i a ha, hh, ← L.key j b hb] at hhome
    exact hhome.unique (L.home j b hb)
  subst hij
  obtain ⟨c, hc, hac⟩ := ha
  obtain ⟨c', hc', hbc⟩ := hb
  rw [hc] at hc'
  cases hc'
  by_contra hne
  have hab : a ≠ b := fun he => hne (by rw [he])
  -- one of the two comes first in the chain
  have hne' : c.Pairwise fun a b => a.reversed ≠ b.reversed :=
    (L.sorted i c hc).imp fun hlt => Nat.ne_of_lt hlt
  have : Std.Symm fun a b : Entry α => a.reversed ≠ b.reversed := ⟨fun _ _ h => h.symm⟩
  exact hne'.forall hac hbc hab hrev

theorem SessionInv.perm (h : SessionInv hash s) :
    ((entries s.table).map Entry.data).Perm s.live := by
  have hnodup : s.live.Nodup := h.distinct.of_map hash
  rw [perm_ext_iff_of_nodup h.layout.nodup_data hnodup]
  intro x
  rw [h.layout.stored_iff, h.live]

theorem SessionInv.consistent (h : SessionInv hash s) : Consistent hash s.table s.live := by
  have L := h.layout
  refine ⟨h.perm, fun i e he => L.mem_entries.mpr ⟨i, he⟩, ?_, ?_, ?_⟩
  · intro i e he
    rw [← L.key i e he]
    exact L.home i e he
  · intro i j e e' he he' hdata
    have hhome := L.home i e he
    rw [L.key i e he, hdata, ← L.key j e' he'] at hhome
    exact hhome.unique (L.home j e' he')
  · intro i c hc
    apply List.Pairwise.imp_of_mem _ (L.sorted i c hc)
    intro a b ha hb hlt
    rw [← L.key i a ⟨c, hc, ha⟩, ← L.key i b ⟨c, hc, hb⟩, ← L.reversed i a ⟨c, hc, ha⟩,
      ← L.reversed i b ⟨c, hc, hb⟩]
    exact hlt

theorem SessionInv.findsExactly (h : SessionInv hash s)
    (cmp : α → α → Ordering) : FindsExactly cmp hash s.table s.live := by
  intro d
  obtain ⟨t', r, hf, -, -, ⟨y, rfl, hy, hsame⟩ | ⟨rfl, hno⟩⟩ :=
    frHashTableFind_spec (chainOrder_strict cmp) h.layout d
  · refine ⟨t', some y, hf, fun x => ⟨?_, ?_⟩⟩
    · rintro ⟨⟩
      exact ⟨(h.live y).mpr hy, hsame⟩
    · rintro ⟨hx, hxs⟩
      rw [h.layout.eq_of_hash ((h.live x).mp hx) hy (hxs.1.trans hsame.1.symm)]
  · refine ⟨t', none, hf, fun x => ⟨fun h => (by cases h), ?_⟩⟩
    rintro ⟨hx, hxs⟩
    exact absurd hxs (hno x ((h.live x).mp hx))

variable {seen : List α} {t' : HashTable α}

/-- An iterator goes through all elements it has not answered yet. -/
theorem Iterating.answers (L : Layout hash StrictOrder t) {iter : HashIter α}
    (h : Iterating t iter seen) :
    ∃ xs, Answers (frHashTableIterNext t iter) xs ∧
      (seen ++ xs).Perm ((entries t).map Entry.data) := by
  -- by induction on the number of elements that are left
  generalize hn : (entries t).length - seen.length = n
  induction n using Nat.strong_induction_on generalizing t iter seen with
  | _ n ih =>
    obtain ⟨t', iter', r, hnext, hi⟩ := frHashTableIterNext_spec L h
    have hall := (hi.refines.entries_perm L hi.layout).map Entry.data
    cases r with
    | none =>
      refine ⟨[], hnext ▸ Answers.done, ?_⟩
      rw [append_nil]
      exact (hi.done rfl).trans hall
    | some x =>
      have hlen := hall.length_eq
      have hseen := hi.iterating.perm.length_eq
      simp only [length_append, length_map, Option.toList_some, length_singleton] at hlen hseen
      obtain ⟨xs, hxs, hperm⟩ := ih _ (by simp; omega) hi.layout hi.iterating rfl
      refine ⟨x :: xs, hnext ▸ Answers.next hxs, ?_⟩
      rw [Option.toList_some, append_assoc, singleton_append] at hperm
      exact hperm.trans hall

/-! ## Whole runs -/

theorem sessionInv_start : SessionInv hash (Session.start : Session α) :=
  ⟨layout_alloc, fun x => ⟨fun hx => absurd hx not_mem_nil,
    fun hx => absurd hx (not_stored_alloc x)⟩, nodup_nil, fun _ _ h => by cases h⟩

theorem SessionInv.refines (h : SessionInv hash s) (L' : Layout hash StrictOrder t')
    (r : Refines s.table t') : SessionInv hash ⟨t', s.live, s.iter⟩ :=
  ⟨L', fun x => (h.live x).trans (r.stored_iff x).symm, h.distinct,
    fun iter seen he => (h.iterating iter seen he).refines h.layout L' r⟩

theorem SessionInv.iterStep (h : SessionInv hash s) {iter' : HashIter α} {r : Option α}
    (hi : IterStep hash s.table t' iter' seen r) :
    SessionInv hash ⟨t', s.live, some (iter', seen ++ r.toList)⟩ := by
  refine ⟨hi.layout, (h.refines hi.layout hi.refines).live, h.distinct, ?_⟩
  rintro iter seen ⟨⟩
  exact hi.iterating

section

variable [DecidableEq α] (h : SessionInv hash s)

include h

theorem SessionInv.insert (mem : Mem) (d : α) : ∃ s', s.step cmp hash (.insert mem d) = some s' ∧
      (DistinctHashes hash s'.live → SessionInv hash s') := by
  have hR : ∀ a b : Entry α, StrictOrder a b → a.reversed ≤ b.reversed := fun a b hab => hab.le
  by_cases hnode : mem.node = true
  · by_cases hex : ∃ x, Stored s.table x ∧ Same cmp hash d x
    · obtain ⟨x, hx, hs⟩ := hex
      obtain ⟨t', ht', L', r⟩ := frHashTableInsert_present (chainOrder_strict cmp) h.layout mem
        hx hs
      exact ⟨⟨t', s.live, s.iter⟩, by simp [Session.step, ht'], fun _ => h.refines L' r⟩
    obtain ⟨t₁, ht₁⟩ := frHashTableInsert_new hR hnode h.layout fun x hx hs => hex ⟨x, hx, hs⟩
    refine ⟨⟨t₁, d :: s.live, none⟩, by simp [Session.step, ht₁], fun hd => ?_⟩
    have hne : ∀ x, Stored s.table x → hash x ≠ hash d := by
      intro x hx heq
      rw [DistinctHashes, map_cons, nodup_cons] at hd
      exact hd.1 (List.mem_map.mpr ⟨x, (h.live x).mpr hx, heq⟩)
    have hbefore : ∀ i e, InBucket s.table i e → e.reversed ≤ reverse (hash d).toNat →
        StrictOrder e (newEntry hash d) := by
      intro i e he hle
      refine lt_of_le_of_ne hle fun heq => ?_
      exact hne e.data ⟨i, e, he, rfl⟩ ((reversed_eq_iff h.layout he d).mp heq)
    obtain ⟨t', ht', L', -, hstored⟩ := frHashTableInsert_absent hR hnode h.layout
      (fun x hx hh => absurd hh (hne x hx)) hbefore (fun e hlt => hlt)
    rw [ht₁] at ht'
    cases ht'
    refine ⟨L', fun x => ?_, hd, fun _ _ he => by cases he⟩
    rw [hstored, mem_cons, h.live]
  · obtain ⟨t', ht', L', r⟩ := frHashTableInsert_no_node cmp hR (by simpa using hnode) h.layout d
    exact ⟨⟨t', s.live, s.iter⟩, by simp [Session.step, ht'], fun _ => h.refines L' r⟩

theorem SessionInv.remove (d : α) :
    ∃ s', s.step cmp hash (.remove d) = some s' ∧ SessionInv hash s' := by
  rcases frHashTableRemove_spec (chainOrder_strict cmp) h.layout d with
    ⟨t', x, ht', L', -, -, -, hstored⟩ | ⟨t', ht', L', r, -⟩
  · refine ⟨⟨t', s.live.erase x, none⟩, by simp [Session.step, ht'], L', fun y => ?_, ?_,
      fun _ _ he => by cases he⟩
    · rw [hstored, (h.distinct.of_map hash).mem_erase_iff, h.live]
    · exact h.distinct.sublist ((erase_sublist).map hash)
  · exact ⟨⟨t', s.live, s.iter⟩, by simp [Session.step, ht'], h.refines L' r⟩

/-- One call has a result and keeps the invariant. -/
theorem SessionInv.step {call : Call α} (ha : s.Allows call) :
    ∃ s', s.step cmp hash call = some s' ∧
      (DistinctHashes hash s'.live → SessionInv hash s') := by
  cases call with
  | insert mem d => exact h.insert mem d
  | remove d =>
    obtain ⟨s', hs', h'⟩ := h.remove d
    exact ⟨s', hs', fun _ => h'⟩
  | find d =>
    obtain ⟨t', r, ht', L', hr, -⟩ := frHashTableFind_spec (chainOrder_strict cmp) h.layout d
    exact ⟨⟨t', s.live, s.iter⟩, by simp [Session.step, ht'], fun _ => h.refines L' hr⟩
  | iterInit =>
    obtain ⟨t', iter', r, hnext, hi⟩ := frHashTableIterNext_spec h.layout (iterating_init s.table)
    exact ⟨⟨t', s.live, some (iter', r.toList)⟩,
      by simp [Session.step, frHashTableIterInit, hnext], fun _ => h.iterStep hi⟩
  | iterNext =>
    obtain ⟨⟨iter, seen⟩, hiter⟩ := Option.isSome_iff_exists.mp ha
    obtain ⟨t', iter', r, hnext, hi⟩ := frHashTableIterNext_spec h.layout
      (h.iterating iter seen hiter)
    exact ⟨⟨t', s.live, some (iter', seen ++ r.toList)⟩, by simp [Session.step, hiter, hnext],
      fun _ => h.iterStep hi⟩

end

theorem Reachable.sessionInv [DecidableEq α] (hs : Reachable cmp hash s) : SessionInv hash s := by
  induction hs with
  | start => exact sessionInv_start
  | @step s s' call _ hstep hd ih =>
    have ha : s.Allows call := by
      cases call with
      | iterNext =>
        cases hiter : s.iter with
        | none => simp [Session.step, hiter] at hstep
        | some p => simp [Session.Allows, hiter]
      | _ => trivial
    obtain ⟨s₁, hs₁, h⟩ := ih.step ha
    rw [hstep] at hs₁
    cases hs₁
    exact h hd

/-- In every state of every run in which stored elements have distinct hashes
no call gets stuck, the table is consistent, searches find exactly the stored
elements, a new element is inserted if there is memory, a stored one is removed, and an iteration,
new or under way, answers each of them once. -/
theorem hash_runs [DecidableEq α] [ReflCmp cmp] {s : Session α} (hs : Reachable cmp hash s) :
    (∀ call, s.Allows call → (s.step cmp hash call).isSome) ∧
      Consistent hash s.table s.live ∧ FindsExactly cmp hash s.table s.live ∧
      (∀ x ∈ s.live, ∃ t', frHashTableFind cmp hash s.table x = some (t', some x)) ∧
      (∀ mem d, mem.node = true → (∀ x ∈ s.live, ¬Same cmp hash d x) →
        ∃ t', frHashTableInsert cmp hash mem s.table d = some (t', true)) ∧
      (∀ x ∈ s.live, ∃ t', frHashTableRemove cmp hash s.table x = some (t', some x)) ∧
      (∃ xs, Answers (frHashTableIterInit s.table) xs ∧ xs.Perm s.live) ∧
      ∀ iter seen, s.iter = some (iter, seen) →
        ∃ xs, Answers (frHashTableIterNext s.table iter) xs ∧ (seen ++ xs).Perm s.live := by
  have h := hs.sessionInv
  have hfind := h.findsExactly cmp
  refine ⟨?_, h.consistent, hfind, ?_, fun mem d hnode hno => ?_, fun x hx => ?_, ?_, ?_⟩
  · intro call ha
    obtain ⟨s', hs', -⟩ : ∃ s', s.step cmp hash call = some s' ∧ _ := h.step ha
    rw [hs', Option.isSome_some]
  · intro x hx
    obtain ⟨t', r, hf, hr⟩ := hfind x
    rw [(hr x).mpr ⟨hx, rfl, ReflCmp.compare_self⟩] at hf
    exact ⟨t', hf⟩
  · exact frHashTableInsert_new (fun _ _ hlt => hlt.le) hnode h.layout fun x hx =>
      hno x ((h.live x).mpr hx)
  · have hstored := (h.live x).mp hx
    rcases frHashTableRemove_spec (chainOrder_strict cmp) h.layout x with
      ⟨t', y, ht', -, hy, hsame, -⟩ | ⟨-, -, -, -, hno⟩
    · exact ⟨t', h.layout.eq_of_hash hy hstored hsame.1 ▸ ht'⟩
    · exact absurd ⟨rfl, ReflCmp.compare_self⟩ (hno x hstored)
  · obtain ⟨xs, hxs, hperm⟩ := (iterating_init s.table).answers h.layout
    exact ⟨xs, hxs, hperm.trans h.perm⟩
  · intro iter seen he
    obtain ⟨xs, hxs, hperm⟩ := (h.iterating iter seen he).answers h.layout
    exact ⟨xs, hxs, hperm.trans h.perm⟩

/-- Two insertions, and what an iteration answers then. -/
theorem hash_runs_two_inserts : ∃ s : Session ℕ, Reachable compare UInt32.ofNat s ∧
    s.live = [2, 1] ∧ ∃ xs, Answers (frHashTableIterInit s.table) xs ∧ xs.Perm [2, 1] := by
  obtain ⟨s₁, s₂, hs₁, hs₂, h₁, h₂⟩ : ∃ s₁ s₂ : Session ℕ,
      Session.start.step compare UInt32.ofNat (.insert Mem.full 1) = some s₁ ∧
        s₁.step compare UInt32.ofNat (.insert Mem.full 2) = some s₂ ∧
        s₁.live = [1] ∧ s₂.live = [2, 1] := ⟨_, _, rfl, rfl, rfl, rfl⟩
  have hreach : Reachable compare UInt32.ofNat s₂ :=
    (Reachable.start.step hs₁ (by rw [h₁]; unfold DistinctHashes; decide)).step hs₂
      (by rw [h₂]; unfold DistinctHashes; decide)
  exact ⟨s₂, hreach, h₂, h₂ ▸ (hash_runs hreach).2.2.2.2.2.2.1⟩

end FreeRadius.Hash
