import FreeRadius.Hash.Ops

/-!
# Iterating while buckets are split

An iteration goes through the buckets from the last one down and sets the
unset ones on its way. All buckets from the current one on are set, so setting
a bucket moves entries among the buckets that are still to come only.
-/

namespace FreeRadius.Hash

open Library List

variable {α : Type} {cmp : α → α → Ordering} {hash : α → UInt32} {t t' : HashTable α}

/-- The order of chains whose elements have distinct hashes. -/
def StrictOrder (a b : Entry α) : Prop := a.reversed < b.reversed

theorem chainOrder_strict (cmp : α → α → Ordering) : ChainOrder cmp (StrictOrder (α := α)) := by
  constructor
  · intro r d a b hlt
    unfold StrictOrder at hlt
    exact ⟨hlt.le, fun ha hb _ => by omega⟩
  · intro a b hlt heq
    unfold StrictOrder at hlt
    omega

def chain (t : HashTable α) (i : ℕ) : List (Entry α) := (t.buckets i).getD []

def entriesBelow (t : HashTable α) (b : ℕ) : List (Entry α) := (List.range b).flatMap (chain t)

def entries (t : HashTable α) : List (Entry α) := entriesBelow t t.numBuckets

variable {e : Entry α} {b : ℕ} {R : Entry α → Entry α → Prop} {iter : HashIter α} {seen : List α}

theorem mem_chain {i : ℕ} : e ∈ chain t i ↔ InBucket t i e := by
  unfold chain InBucket
  cases t.buckets i <;> simp

theorem mem_entriesBelow : e ∈ entriesBelow t b ↔ ∃ i, i < b ∧ InBucket t i e := by
  simp [entriesBelow, mem_chain]

theorem Layout.mem_entries (L : Layout hash R t) : e ∈ entries t ↔ ∃ i, InBucket t i e := by
  rw [entries, mem_entriesBelow]
  constructor
  · rintro ⟨i, -, he⟩
    exact ⟨i, he⟩
  · rintro ⟨i, c, hc, he⟩
    exact ⟨i, L.lt_of_set hc, c, hc, he⟩

theorem entriesBelow_succ (t : HashTable α) (b : ℕ) :
    entriesBelow t (b + 1) = entriesBelow t b ++ chain t b := by
  simp [entriesBelow, range_succ]

theorem Layout.sorted_chain (L : Layout hash R t) (i : ℕ) : (chain t i).Pairwise R := by
  unfold chain
  cases hc : t.buckets i with
  | none => exact List.Pairwise.nil
  | some c => exact L.sorted i c hc

section

variable (L : Layout hash StrictOrder t)

include L

theorem Layout.nodup_entriesBelow (b : ℕ) : (entriesBelow t b).Nodup := by
  rw [entriesBelow, nodup_flatMap]
  constructor
  · intro i _
    apply (L.sorted_chain i).imp
    rintro a b hlt rfl
    exact lt_irrefl _ hlt
  · apply List.nodup_range.imp
    intro i j hij e hi hj
    exact hij (L.bucket_unique (mem_chain.mp hi) (mem_chain.mp hj))

theorem Layout.nodup_data : ((entries t).map Entry.data).Nodup := by
  apply (L.nodup_entriesBelow _).map_on
  intro a ha b hb hab
  obtain ⟨i, hi⟩ := L.mem_entries.mp ha
  obtain ⟨j, hj⟩ := L.mem_entries.mp hb
  have hkey : a.key = b.key := by rw [L.key i a hi, L.key j b hj, hab]
  have hrev : a.reversed = b.reversed := by rw [L.reversed i a hi, L.reversed j b hj, hkey]
  cases a
  cases b
  simp_all

theorem Layout.stored_iff (x : α) : x ∈ (entries t).map Entry.data ↔ Stored t x := by
  rw [mem_map]
  constructor
  · rintro ⟨e, he, rfl⟩
    obtain ⟨i, hi⟩ := L.mem_entries.mp he
    exact ⟨i, e, hi, rfl⟩
  · rintro ⟨i, e, he, rfl⟩
    exact ⟨e, L.mem_entries.mpr ⟨i, he⟩, rfl⟩

/-- Setting buckets keeps what is below a bucket from which on all are set. -/
theorem Refines.entriesBelow_perm (L' : Layout hash StrictOrder t') (r : Refines t t')
    (hset : ∀ j, b ≤ j → j < t.numBuckets → t.buckets j ≠ none) :
    (entriesBelow t' b).Perm (entriesBelow t b) := by
  rw [perm_ext_iff_of_nodup (L'.nodup_entriesBelow b) (L.nodup_entriesBelow b)]
  intro e
  rw [mem_entriesBelow, mem_entriesBelow]
  constructor
  · rintro ⟨j, hj, he⟩
    obtain ⟨i, hi⟩ := (r.stored e).mp ⟨j, he⟩
    exact ⟨i, lt_of_le_of_lt (r.move e i j hi he).1 hj, hi⟩
  rintro ⟨i, hi, he⟩
  obtain ⟨j, hj⟩ := (r.stored e).mpr ⟨i, he⟩
  refine ⟨j, ?_, hj⟩
  rcases (r.move e i j he hj).2 with rfl | hnone
  · exact hi
  by_contra hge
  obtain ⟨c, hc, -⟩ := hj
  have hlt := L'.lt_of_set hc
  rw [r.numBuckets] at hlt
  exact hset j (by omega) hlt hnone

theorem Refines.entries_perm (L' : Layout hash StrictOrder t') (r : Refines t t') :
    (entries t').Perm (entries t) := by
  unfold entries
  rw [r.numBuckets]
  exact r.entriesBelow_perm L L' fun j hj hlt => absurd hlt (by omega)

end

/-- An iterator that has answered the elements of `seen`: what is left is the
chain at its node and the buckets before its bucket. -/
structure Iterating (t : HashTable α) (iter : HashIter α) (seen : List α) : Prop where
  le : iter.bucket ≤ t.numBuckets
  set : ∀ j, iter.bucket ≤ j → j < t.numBuckets → t.buckets j ≠ none
  perm : (seen ++ (iter.node.map Entry.data ++ (entriesBelow t iter.bucket).map Entry.data)).Perm
    ((entries t).map Entry.data)

theorem Iterating.refines (L : Layout hash StrictOrder t) (L' : Layout hash StrictOrder t')
    (r : Refines t t') (h : Iterating t iter seen) : Iterating t' iter seen := by
  refine ⟨by rw [r.numBuckets]; exact h.le, ?_, ?_⟩
  · intro j hj hlt hnone
    rw [r.numBuckets] at hlt
    exact h.set j hj hlt (r.keep j hnone)
  · have hbelow := (r.entriesBelow_perm L L' h.set).map Entry.data
    have hall := (r.entries_perm L L').map Entry.data
    exact (((hbelow.append_left _).append_left _).trans h.perm).trans hall.symm

theorem iterating_init (t : HashTable α) : Iterating t ⟨t.numBuckets, []⟩ [] :=
  ⟨le_rfl, fun j hj hlt => absurd hlt (by simp only at hj; omega), by simp [entries]⟩

/-- What a call of the iterator promises. -/
structure IterStep (hash : α → UInt32) (t t' : HashTable α) (iter' : HashIter α) (seen : List α)
    (r : Option α) : Prop where
  layout : Layout hash StrictOrder t'
  refines : Refines t t'
  iterating : Iterating t' iter' (seen ++ r.toList)
  done : r = none → seen.Perm ((entries t').map Entry.data)

/-- The loop over the buckets from `i` down. -/
theorem iterLoop_spec (i : ℕ) (L : Layout hash StrictOrder t) (h : Iterating t ⟨i + 1, []⟩ seen) :
    ∃ t' iter' r, iterLoop t i = some (t', iter', r) ∧ IterStep hash t t' iter' seen r := by
  have hR : ∀ a b : Entry α, StrictOrder a b → a.reversed ≤ b.reversed := fun a b hab => hab.le
  induction i generalizing t with
  | zero =>
    obtain ⟨t', c, hu, hc, L', r⟩ := useBucket_spec hR L (Nat.lt_of_succ_le h.le)
    have h' := h.refines L L' r
    have hset : ∀ j, 0 ≤ j → j < t'.numBuckets → t'.buckets j ≠ none := by
      intro j _ hlt
      by_cases hj : j = 0
      · simp [hj, hc]
      · exact h'.set j (by simp only; omega) hlt
    have hperm := h'.perm
    rw [entriesBelow_succ, chain, hc] at hperm
    cases c with
    | nil =>
      refine ⟨t', ⟨0, []⟩, none, by simp [iterLoop, hu], L', r, ⟨Nat.zero_le _, hset, ?_⟩, ?_⟩
      · simpa [entriesBelow] using hperm
      · intro _
        simpa [entriesBelow] using hperm
    | cons e next =>
      refine ⟨t', ⟨0, next⟩, some e.data, by simp [iterLoop, hu], L', r,
        ⟨Nat.zero_le _, hset, ?_⟩, fun hn => by cases hn⟩
      simpa [entriesBelow] using hperm
  | succ i ih =>
    obtain ⟨t', c, hu, hc, L', r⟩ := useBucket_spec hR L (Nat.lt_of_succ_le h.le)
    have h' := h.refines L L' r
    have hle := h'.le
    have hset : ∀ j, i + 1 ≤ j → j < t'.numBuckets → t'.buckets j ≠ none := by
      intro j hj hlt
      by_cases hji : j = i + 1
      · simp [hji, hc]
      · exact h'.set j (by simp only; omega) hlt
    have hperm := h'.perm
    rw [entriesBelow_succ, chain, hc] at hperm
    cases c with
    | nil =>
      have hnext : Iterating t' ⟨i + 1, []⟩ seen := by
        refine ⟨by simp only at hle ⊢; omega, hset, ?_⟩
        simpa using hperm
      obtain ⟨t₂, iter₂, x, hloop, hstep⟩ := ih L' hnext
      refine ⟨t₂, iter₂, x, by simp [iterLoop, hu, hloop], hstep.layout, r.trans hstep.refines,
        hstep.iterating, hstep.done⟩
    | cons e next =>
      refine ⟨t', ⟨i + 1, next⟩, some e.data, by simp [iterLoop, hu], L', r,
        ⟨by simp only at hle ⊢; omega, hset, ?_⟩, fun hn => by cases hn⟩
      refine List.Perm.trans ?_ hperm
      simp only [Option.toList_some, append_assoc, map_nil, nil_append, Option.getD_some,
        map_append, map_cons]
      apply List.Perm.append_left
      show ((e.data :: next.map Entry.data) ++ _).Perm _
      exact perm_append_comm

theorem frHashTableIterNext_spec (L : Layout hash StrictOrder t) (h : Iterating t iter seen) :
    ∃ t' iter' r, frHashTableIterNext t iter = some (t', iter', r) ∧
      IterStep hash t t' iter' seen r := by
  obtain ⟨bucket, node⟩ := iter
  have hperm := h.perm
  cases node with
  | cons e next =>
    refine ⟨t, ⟨bucket, next⟩, some e.data, rfl, L, L.refines_refl, ⟨h.le, h.set, ?_⟩,
      fun hn => by cases hn⟩
    simpa using hperm
  | nil =>
    by_cases hb : bucket = 0
    · subst hb
      refine ⟨t, ⟨0, []⟩, none, rfl, L, L.refines_refl, ⟨h.le, h.set, by simpa using hperm⟩, ?_⟩
      intro _
      simpa [entriesBelow] using hperm
    · obtain ⟨i, rfl⟩ : ∃ i, bucket = i + 1 := ⟨bucket - 1, by omega⟩
      obtain ⟨t', iter', r, hloop, hstep⟩ := iterLoop_spec i L h
      exact ⟨t', iter', r, by simp [frHashTableIterNext, hloop], hstep⟩

end FreeRadius.Hash
