import FreeRadius.Hash.Bits

/-!
# Which chain holds an entry

An entry belongs to the bucket of its masked key. As long as that bucket is
unset, the entry is in the chain of the nearest bucket that is set among the
bucket's parent, the parent's parent and so on, its home. Setting a bucket
moves entries down to the buckets of their masked keys, and no entry is lost
because the entries of one masked key are neighbours in a sorted chain.
-/

namespace FreeRadius.Hash

open Library List Function

variable {α : Type} {hash : α → UInt32} {R : Entry α → Entry α → Prop}

/-- Bucket `h` is the nearest one that is set on the way from bucket `i` up. -/
inductive Home (t : HashTable α) : ℕ → ℕ → Prop
  | here {i : ℕ} {c : List (Entry α)} : t.buckets i = some c → Home t i i
  | parent {i h : ℕ} : t.buckets i = none → Home t (parentOf i) h → Home t i h

def InBucket (t : HashTable α) (i : ℕ) (e : Entry α) : Prop := ∃ c, t.buckets i = some c ∧ e ∈ c

/-- The invariant of the table. `R` is the order of the chains. -/
structure Layout (hash : α → UInt32) (R : Entry α → Entry α → Prop) (t : HashTable α) : Prop where
  width : ∃ k, k ≤ 24 ∧ t.numBuckets = 2 ^ k ∧ t.mask = 2 ^ k - 1
  root : ∃ c, t.buckets 0 = some c
  bound : ∀ i, t.numBuckets ≤ i → t.buckets i = none
  key : ∀ i e, InBucket t i e → e.key = (hash e.data).toNat
  reversed : ∀ i e, InBucket t i e → e.reversed = reverse e.key
  home : ∀ i e, InBucket t i e → Home t (e.key &&& t.mask) i
  sorted : ∀ i c, t.buckets i = some c → c.Pairwise R

variable {c : List (Entry α)} {i : ℕ} {t : HashTable α}

namespace Home

variable {t : HashTable α} {i h h' : ℕ}

theorem unique (hh : Home t i h) (hh' : Home t i h') : h = h' := by
  induction hh with
  | here hc =>
    cases hh' with
    | here _ => rfl
    | parent hn _ => simp [hc] at hn
  | parent hn _ ih =>
    cases hh' with
    | here hc => simp [hn] at hc
    | parent _ hp => exact ih hp

theorem set (hh : Home t i h) : ∃ c, t.buckets h = some c := by
  induction hh with
  | here hc => exact ⟨_, hc⟩
  | parent _ _ ih => exact ih

theorem le (hh : Home t i h) (hi : i < 2 ^ 32) : h ≤ i := by
  induction hh with
  | here _ => exact le_rfl
  | @parent i h _ _ ih =>
    by_cases h0 : i = 0
    · subst h0
      exact ih (by decide)
    · have hlt := parentOf_lt hi h0
      exact (ih (by omega)).trans hlt.le

theorem unset_of_ne (hh : Home t i h) (hne : i ≠ h) : t.buckets i = none := by
  cases hh with
  | here _ => exact absurd rfl hne
  | parent hn _ => exact hn

theorem eq_of_set (hh : Home t i h) (hc : t.buckets i = some c) : i = h := by
  cases hh with
  | here _ => rfl
  | parent hn _ => simp [hc] at hn

theorem congr {t' : HashTable α} (hh : Home t i h)
    (hset : ∀ j, t'.buckets j = none ↔ t.buckets j = none) : Home t' i h := by
  induction hh with
  | @here i c hc =>
    have hne : t'.buckets i ≠ none := by
      rw [ne_eq, hset]
      simp [hc]
    obtain ⟨c', hc'⟩ := Option.ne_none_iff_exists'.mp hne
    exact here hc'
  | parent hn _ ih => exact parent ((hset _).mpr hn) ih

theorem exists_of_root (t : HashTable α) (h0 : t.buckets 0 ≠ none) :
    ∀ i, i < 2 ^ 32 → ∃ h, Home t i h := by
  intro i
  induction i using Nat.strong_induction_on with
  | _ i ih =>
    intro hi
    by_cases hset : t.buckets i = none
    · have hi0 : i ≠ 0 := by
        rintro rfl
        exact h0 hset
      have hlt := parentOf_lt hi hi0
      obtain ⟨h, hh⟩ := ih (parentOf i) hlt (by omega)
      exact ⟨h, parent hset hh⟩
    · obtain ⟨c, hc⟩ := Option.ne_none_iff_exists'.mp hset
      exact ⟨i, here hc⟩

end Home

namespace Layout

variable {t : HashTable α}

theorem real_lt (L : Layout hash R t) (key : ℕ) : key &&& t.mask < t.numBuckets := by
  obtain ⟨k, -, hn, hm⟩ := L.width
  rw [hn, hm, Nat.and_two_pow_sub_one_eq_mod]
  exact Nat.mod_lt _ (by positivity)

theorem numBuckets_lt (L : Layout hash R t) : t.numBuckets < 2 ^ 32 := by
  obtain ⟨k, hk, hn, -⟩ := L.width
  rw [hn]
  exact Nat.pow_lt_pow_right (by norm_num) (by omega)

theorem bucket_unique (L : Layout hash R t) {j : ℕ} {e : Entry α} (hi : InBucket t i e)
    (hj : InBucket t j e) : i = j :=
  (L.home i e hi).unique (L.home j e hj)

theorem lt_of_set (L : Layout hash R t) (h : t.buckets i = some c) : i < t.numBuckets := by
  by_contra hge
  have := L.bound i (by omega)
  simp [h] at this

theorem mono {R' : Entry α → Entry α → Prop} (L : Layout hash R t)
    (h : ∀ a b, R a b → R' a b) : Layout hash R' t :=
  ⟨L.width, L.root, L.bound, L.key, L.reversed, L.home,
    fun i c hc => (L.sorted i c hc).imp (h _ _)⟩

end Layout

/-! ## Splitting a chain -/

section Split

variable {mask this : ℕ} {g : Entry α → ℕ} {seen next rest : List (Entry α)} {e : Entry α}
  {buckets : ℕ → Option (List (Entry α))}

/-- The entries with the same masked key are next to each other. -/
structure Grouped (mask : ℕ) (g : Entry α → ℕ) (chain : List (Entry α)) : Prop where
  same : ∀ a ∈ chain, ∀ b ∈ chain, a.key &&& mask = b.key &&& mask ↔ g a = g b
  sorted : chain.Pairwise fun a b => g a ≤ g b

/-- The group of `this` would be cut in two, unless nothing of it was seen. -/
theorem Grouped.seen_eq_nil (h : Grouped mask g (seen ++ e :: next))
    (hseen : ∀ x ∈ seen, x.key &&& mask = this) (hreal : e.key &&& mask ≠ this) {x : Entry α}
    (hx : x ∈ next) (hxr : x.key &&& mask = this) : seen = [] := by
  by_contra hne
  obtain ⟨s, hs⟩ := exists_mem_of_ne_nil _ hne
  have hord := pairwise_append.mp h.sorted
  have hse := hord.2.2 s hs e (by simp)
  have hex := (pairwise_cons.mp hord.2.1).1 x hx
  have hsx := (h.same s (mem_append_left _ hs) x (mem_append_right _ (mem_cons_of_mem _ hx))).mp
    ((hseen s hs).trans hxr.symm)
  apply hreal
  rw [← hseen s hs]
  exact (h.same e (by simp) s (mem_append_left _ hs)).mpr (by omega)

theorem filter_group (hseen : ∀ x ∈ seen, x.key &&& mask = this) (r : ℕ) :
    (seen ++ rest).filter (fun x => x.key &&& mask = r) =
      (if r = this then seen else []) ++ rest.filter fun x => x.key &&& mask = r := by
  rw [filter_append]
  congr 1
  split
  · next hr => exact filter_eq_self.mpr fun x hx => by simp [hseen x hx, hr]
  · next hr => exact filter_eq_nil_iff.mpr fun x hx => by simpa [hseen x hx] using Ne.symm hr

/-- The loop cuts a chain that is grouped by masked keys into its groups. -/
theorem splitLoop_spec (h : Grouped mask g (seen ++ rest)) (hseen : ∀ x ∈ seen, x.key &&& mask = this)
    (hthis : buckets this = some (seen ++ rest)) (r : ℕ) :
    splitLoop mask buckets this seen rest r =
      if r = this ∨ ∃ x ∈ rest, x.key &&& mask = r then
        some ((seen ++ rest).filter fun x => x.key &&& mask = r)
      else buckets r := by
  induction rest generalizing seen buckets this with
  | nil =>
    rw [splitLoop, filter_group hseen]
    by_cases hr : r = this
    · subst hr
      simpa using hthis
    · simp [hr]
  | cons e next ih =>
    rw [splitLoop]
    by_cases hreal : e.key &&& mask = this
    · have happ : seen ++ e :: next = (seen ++ [e]) ++ next := by simp
      rw [happ] at h hthis
      rw [if_neg (not_not.mpr hreal), ih h (by simpa [or_imp, forall_and, hreal] using hseen) hthis, happ]
      refine if_congr ?_ rfl rfl
      rw [exists_mem_cons_iff, hreal, ← or_assoc, @eq_comm _ this r, or_self]
    · have hrest : Grouped mask g ([e] ++ next) :=
        ⟨fun a ha b hb => h.same a (mem_append_right _ ha) b (mem_append_right _ hb),
          (pairwise_append.mp h.sorted).2.1⟩
      have hne : this ≠ e.key &&& mask := Ne.symm hreal
      rw [if_pos hreal, ih hrest (by simp) (by simp), filter_group hseen]
      by_cases hr : r = this
      · subst hr
        by_cases hlater : ∃ x ∈ next, x.key &&& mask = r
        · obtain ⟨x, hx, hxr⟩ := hlater
          obtain rfl := h.seen_eq_nil hseen hreal hx hxr
          rw [if_pos (.inr ⟨x, hx, hxr⟩), if_pos (.inl rfl), ite_self]
          rfl
        · push Not at hlater
          rw [if_neg (not_or.mpr ⟨hne, by simpa using hlater⟩), if_pos (.inl rfl), if_pos rfl,
            update_of_ne hne, update_self, filter_eq_nil_iff.mpr (by simpa [hreal] using hlater),
            append_nil]
      · have hiff : (r = this ∨ ∃ x ∈ e :: next, x.key &&& mask = r) ↔
            (r = e.key &&& mask ∨ ∃ x ∈ next, x.key &&& mask = r) := by
          simp [hr, eq_comm]
        by_cases hfound : r = e.key &&& mask ∨ ∃ x ∈ next, x.key &&& mask = r
        · rw [if_pos hfound, if_pos (hiff.mpr hfound), if_neg hr]
          rfl
        · rw [if_neg hfound, if_neg fun h => hfound (hiff.mp h),
            update_of_ne fun h => hfound (.inl h), update_of_ne hr]

end Split

/-! ## Setting a bucket -/

/-- What setting buckets changes: entries move down to buckets that were unset,
and the entries of one key stay together and in their order. -/
structure Refines (t t' : HashTable α) : Prop where
  numElements : t'.numElements = t.numElements
  numBuckets : t'.numBuckets = t.numBuckets
  nextGrow : t'.nextGrow = t.nextGrow
  mask : t'.mask = t.mask
  keep : ∀ i, t'.buckets i = none → t.buckets i = none
  stored : ∀ e, (∃ i, InBucket t' i e) ↔ ∃ i, InBucket t i e
  move : ∀ e i j, InBucket t i e → InBucket t' j e → i ≤ j ∧ (i = j ∨ t.buckets j = none)
  run : ∀ key i c, t.buckets i = some c → Home t (key &&& t.mask) i →
    ∃ j c', t'.buckets j = some c' ∧ Home t' (key &&& t.mask) j ∧
      (c'.filter fun e => e.key = key) = c.filter fun e => e.key = key

theorem Refines.trans {u v : HashTable α} (h : Refines t u) (k : Refines u v) : Refines t v := by
  refine ⟨k.numElements.trans h.numElements, k.numBuckets.trans h.numBuckets,
    k.nextGrow.trans h.nextGrow, k.mask.trans h.mask, fun i hi => h.keep i (k.keep i hi),
    fun e => (k.stored e).trans (h.stored e), ?_, ?_⟩
  · intro e i l hi hl
    obtain ⟨j, hj⟩ := (h.stored e).mpr ⟨i, hi⟩
    obtain ⟨hij, hij'⟩ := h.move e i j hi hj
    obtain ⟨hjl, hjl'⟩ := k.move e j l hj hl
    refine ⟨hij.trans hjl, ?_⟩
    rcases hjl' with rfl | hnone
    · exact hij'
    · exact .inr (h.keep l hnone)
  · intro key i c hc hi
    obtain ⟨j, c₁, hc₁, hj, hf₁⟩ := h.run key i c hc hi
    obtain ⟨l, c₂, hc₂, hl, hf₂⟩ := k.run key j c₁ hc₁ (h.mask.symm ▸ hj)
    exact ⟨l, c₂, hc₂, h.mask ▸ hl, hf₂.trans hf₁⟩

theorem Layout.refines_refl (L : Layout hash R t) : Refines t t := by
  refine ⟨rfl, rfl, rfl, rfl, fun _ h => h, fun _ => Iff.rfl, ?_,
    fun _ i c hc hi => ⟨i, c, hc, hi, rfl⟩⟩
  intro e i j hi hj
  have := L.bucket_unique hi hj
  exact ⟨this.le, .inl this⟩

end FreeRadius.Hash
