import FreeRadius.Hash.Chain

/-!
# The operations of the hash table

One specification for each operation, in terms of the data the table holds.
-/

namespace FreeRadius.Hash

open Library List Cursor
open Std (TransCmp OrientedCmp ReflCmp)

variable {α : Type} {cmp : α → α → Ordering} {hash : α → UInt32}
  {R : Entry α → Entry α → Prop} {t : HashTable α}
  {c : List (Entry α)} {data : α} {i : ℕ} {mem : Mem}

def Stored (t : HashTable α) (x : α) : Prop := ∃ i e, InBucket t i e ∧ e.data = x

/-- The entry that `fr_hash_table_insert` makes for `data`. -/
def newEntry (hash : α → UInt32) (data : α) : Entry α :=
  ⟨reverse (hash data).toNat, (hash data).toNat, data⟩

/-- Two data that the operations take for the same. -/
def Same (cmp : α → α → Ordering) (hash : α → UInt32) (data x : α) : Prop :=
  hash x = hash data ∧ cmp data x = .eq

/-- Orders of the chains under which every search ends where it should. -/
structure ChainOrder (cmp : α → α → Ordering) (R : Entry α → Entry α → Prop) : Prop where
  search : ∀ reversed data a b, R a b → SearchOrder cmp reversed data a b
  distinct : ∀ a b, R a b → a.reversed = b.reversed → a.data ≠ b.data

variable {t' : HashTable α} {e : Entry α} {cur : Cursor α} {l₁ l₂ : List (Entry α)} {x : α}

theorem Refines.stored_iff (r : Refines t t') (x : α) : Stored t' x ↔ Stored t x := by
  constructor
  · rintro ⟨i, e, he, rfl⟩
    obtain ⟨j, hj⟩ := (r.stored e).mp ⟨i, he⟩
    exact ⟨j, e, hj, rfl⟩
  · rintro ⟨i, e, he, rfl⟩
    obtain ⟨j, hj⟩ := (r.stored e).mpr ⟨i, he⟩
    exact ⟨j, e, hj, rfl⟩

theorem reversed_eq_iff (L : Layout hash R t) (he : InBucket t i e) (data : α) :
    e.reversed = reverse (hash data).toNat ↔ hash e.data = hash data := by
  rw [L.reversed i e he, L.key i e he]
  constructor
  · intro h
    exact UInt32.toNat_inj.mp (reverse_inj (UInt32.toNat_lt _) (UInt32.toNat_lt _) h)
  · intro h
    rw [h]

theorem Layout.mem_of_hash (L : Layout hash R t)
    (hc : t.buckets ((hash data).toNat &&& t.mask) = some c) (he : InBucket t i e)
    (hh : hash e.data = hash data) : e ∈ c := by
  have hhome := L.home i e he
  rw [L.key i e he, hh] at hhome
  have hi := hhome.eq_of_set hc
  obtain ⟨ci, hci, hei⟩ := he
  rw [← hi, hc] at hci
  cases hci
  exact hei

theorem Cursor.node_mem (hput : cur.put cur.node = c) : cur.node ∈ c := by
  rw [← hput]
  simp [put]

theorem listDelete_sublist (hput : cur.put cur.node = c) : (listDelete cur).Sublist c := by
  rw [← hput]
  exact (List.Sublist.refl _).append (sublist_cons_self _ _)

theorem Layout.find_cases (O : ChainOrder cmp R) (L : Layout hash R t)
    (hc : t.buckets ((hash data).toNat &&& t.mask) = some c) :
    (∃ cur, listFind cmp (reverse (hash data).toNat) data c = some cur ∧
        cur.put cur.node = c ∧ Same cmp hash data cur.node.data) ∨
      (listFind cmp (reverse (hash data).toNat) data c = none ∧
        ∀ x, Stored t x → ¬ Same cmp hash data x) := by
  have hin : ∀ e ∈ c, InBucket t _ e := fun e he => ⟨c, hc, he⟩
  cases hf : listFind cmp (reverse (hash data).toNat) data c with
  | none =>
    right
    refine ⟨rfl, ?_⟩
    rintro x ⟨i, e, he, rfl⟩ ⟨hh, heq⟩
    have hs := (L.sorted _ c hc).imp (O.search (reverse (hash data).toNat) data _ _)
    exact listFind_none hs hf e (L.mem_of_hash hc he hh)
      ⟨(reversed_eq_iff L he data).mpr hh, heq⟩
  | some cur =>
    left
    obtain ⟨hput, hrev, heq⟩ := listFind_some hf
    have hmem := node_mem hput
    exact ⟨cur, rfl, hput, (reversed_eq_iff L (hin _ hmem) data).mp hrev, heq⟩

theorem frHashTableFind_spec (O : ChainOrder cmp R) (L : Layout hash R t) (data : α) :
    ∃ t' r, frHashTableFind cmp hash t data = some (t', r) ∧ Layout hash R t' ∧ Refines t t' ∧
      ((∃ x, r = some x ∧ Stored t x ∧ Same cmp hash data x) ∨
        (r = none ∧ ∀ x, Stored t x → ¬ Same cmp hash data x)) := by
  obtain ⟨t', c, hu, hc, L', r⟩ := useBucket_spec (fun a b h => (O.search 0 data a b h).le) L
    (L.real_lt (hash data).toNat)
  rw [← r.mask] at hc
  rcases L'.find_cases O hc with ⟨cur, hf, hput, hsame⟩ | ⟨hf, hno⟩
  · refine ⟨t', some cur.node.data, by simp [frHashTableFind, hashTableFind, hu, hf], L', r,
      .inl ⟨_, rfl, ?_, hsame⟩⟩
    rw [← r.stored_iff]
    exact ⟨_, cur.node, ⟨c, hc, node_mem hput⟩, rfl⟩
  · refine ⟨t', none, by simp [frHashTableFind, hashTableFind, hu, hf], L', r, .inr ⟨rfl, ?_⟩⟩
    intro x hx
    exact hno x ((r.stored_iff x).mpr hx)

/-! ## The empty table -/

theorem layout_alloc : Layout hash R (frHashTableAlloc : HashTable α) := by
  have hcases : ∀ i c, (frHashTableAlloc : HashTable α).buckets i = some c → c = [] := by
    intro i c hc
    by_cases hi : i = 0
    · subst hi
      simpa [frHashTableAlloc] using hc.symm
    · simp [frHashTableAlloc, hi] at hc
  have hempty : ∀ i e, ¬ InBucket (frHashTableAlloc : HashTable α) i e := by
    rintro i e ⟨c, hc, he⟩
    rw [hcases i c hc] at he
    simp at he
  refine ⟨⟨6, by norm_num, rfl, rfl⟩, ⟨[], rfl⟩, ?_, fun i e he => absurd he (hempty i e),
    fun i e he => absurd he (hempty i e), fun i e he => absurd he (hempty i e), ?_⟩
  · intro i hi
    have h0 : i ≠ 0 := by
      rintro rfl
      simp [frHashTableAlloc, frHashNumBuckets] at hi
    simp [frHashTableAlloc, h0]
  · intro i c hc
    rw [hcases i c hc]
    exact List.Pairwise.nil

theorem not_stored_alloc (x : α) : ¬ Stored (frHashTableAlloc : HashTable α) x := by
  rintro ⟨i, e, ⟨c, hc, he⟩, -⟩
  by_cases hi : i = 0
  · subst hi
    have : c = [] := by simpa [frHashTableAlloc] using hc.symm
    simp [this] at he
  · simp [frHashTableAlloc, hi] at hc

/-! ## Changing one chain -/

theorem setBucket_inBucket (n : ℕ) (j : ℕ) (e : Entry α) :
    InBucket { setBucket t i c with numElements := n } j e ↔
      (j = i ∧ e ∈ c) ∨ (j ≠ i ∧ InBucket t j e) := by
  unfold InBucket setBucket
  by_cases hj : j = i
  · subst hj
    simp
  · simp [hj]

theorem Layout.setBucket (L : Layout hash R t) {c' : List (Entry α)} (n : ℕ)
    (hc : t.buckets i = some c) (hsorted : c'.Pairwise R)
    (hmem : ∀ e ∈ c', e ∈ c ∨ e = newEntry hash e.data ∧ e.key &&& t.mask = i) :
    Layout hash R { setBucket t i c' with numElements := n } := by
  have hset : ∀ j, (Function.update t.buckets i (some c')) j = none ↔ t.buckets j = none := by
    intro j
    by_cases hj : j = i
    · subst hj
      simp [hc]
    · simp [Function.update_of_ne hj]
  have hcases : ∀ j e, InBucket { Hash.setBucket t i c' with numElements := n } j e →
      InBucket t j e ∨ e = newEntry hash e.data ∧ j = i ∧ e.key &&& t.mask = i := by
    intro j e he
    rcases (setBucket_inBucket n j e).mp he with ⟨rfl, hec⟩ | ⟨-, hej⟩
    · rcases hmem e hec with hec | ⟨hnew, hk⟩
      · exact .inl ⟨c, hc, hec⟩
      · exact .inr ⟨hnew, rfl, hk⟩
    · exact .inl hej
  constructor
  · exact L.width
  · have h0 : (Function.update t.buckets i (some c')) 0 ≠ none := by
      rw [ne_eq, hset]
      obtain ⟨c0, hc0⟩ := L.root
      simp [hc0]
    exact Option.ne_none_iff_exists'.mp h0
  · intro j hj
    exact (hset j).mpr (L.bound j hj)
  · intro j e he
    rcases hcases j e he with he | ⟨hnew, -⟩
    · exact L.key j e he
    · rw [hnew]
      rfl
  · intro j e he
    rcases hcases j e he with he | ⟨hnew, -⟩
    · exact L.reversed j e he
    · rw [hnew]
      rfl
  · intro j e he
    rcases hcases j e he with he | ⟨-, rfl, hk⟩
    · exact (L.home j e he).congr hset
    · show Home _ (e.key &&& t.mask) j
      rw [hk]
      exact (Home.here hc).congr hset
  · intro j cj hcj
    by_cases hj : j = i
    · subst hj
      simp only [Hash.setBucket, Function.update_self, Option.some.injEq] at hcj
      exact hcj ▸ hsorted
    · simp only [Hash.setBucket, Function.update_of_ne hj] at hcj
      exact L.sorted j cj hcj

theorem pairwise_insert {node : Entry α} (h : (l₁ ++ l₂).Pairwise R) (h₁ : ∀ e ∈ l₁, R e node)
    (h₂ : ∀ e ∈ l₂, R node e) : (l₁ ++ node :: l₂).Pairwise R := by
  obtain ⟨hp₁, hp₂, hp₁₂⟩ := pairwise_append.mp h
  refine pairwise_append.mpr ⟨hp₁, pairwise_cons.mpr ⟨h₂, hp₂⟩, ?_⟩
  intro a ha b hb
  rcases mem_cons.mp hb with rfl | hb
  · exact h₁ a ha
  · exact hp₁₂ a ha b hb

/-- A new entry keeps the layout where the order of the chain allows it. -/
theorem Layout.insert (L : Layout hash R t) (n : ℕ)
    (hc : t.buckets ((hash data).toNat &&& t.mask) = some (l₁ ++ l₂))
    (h₁ : ∀ e ∈ l₁, R e (newEntry hash data)) (h₂ : ∀ e ∈ l₂, R (newEntry hash data) e) :
    Layout hash R { Hash.setBucket t ((hash data).toNat &&& t.mask)
      (l₁ ++ newEntry hash data :: l₂) with numElements := n } := by
  apply L.setBucket n hc (pairwise_insert (L.sorted _ _ hc) h₁ h₂)
  intro e he
  rcases mem_cons.mp (List.perm_middle.mem_iff.mp he) with rfl | he
  · exact .inr ⟨rfl, rfl⟩
  · exact .inl he

theorem stored_iff_chain (hc : t.buckets i = some c) (x : α) :
    Stored t x ↔ (∃ e ∈ c, e.data = x) ∨ ∃ j e, j ≠ i ∧ InBucket t j e ∧ e.data = x := by
  constructor
  · rintro ⟨j, e, he, rfl⟩
    by_cases hj : j = i
    · obtain ⟨c₁, hc₁, he⟩ := he
      rw [hj, hc] at hc₁
      cases hc₁
      exact .inl ⟨e, he, rfl⟩
    · exact .inr ⟨j, e, hj, he, rfl⟩
  · rintro (⟨e, he, rfl⟩ | ⟨j, e, -, he, rfl⟩)
    · exact ⟨i, e, ⟨c, hc, he⟩, rfl⟩
    · exact ⟨j, e, he, rfl⟩

theorem exists_mem_insert (l₁ l₂ : List (Entry α)) (node : Entry α) (x : α) :
    (∃ e ∈ l₁ ++ node :: l₂, e.data = x) ↔ x = node.data ∨ ∃ e ∈ l₁ ++ l₂, e.data = x := by
  simp [List.perm_middle.mem_iff, eq_comm (a := node.data)]

theorem setBucket_stored (n : ℕ) (x : α) :
    Stored { setBucket t i c with numElements := n } x ↔
      (∃ e ∈ c, e.data = x) ∨ ∃ j e, j ≠ i ∧ InBucket t j e ∧ e.data = x := by
  have hset : (setBucket t i c).buckets i = some c := by simp [setBucket]
  rw [stored_iff_chain (t := { setBucket t i c with numElements := n }) hset]
  apply or_congr_right
  constructor
  · rintro ⟨j, e, hj, he, rfl⟩
    exact ⟨j, e, hj, by simpa [hj] using (setBucket_inBucket n j e).mp he, rfl⟩
  · rintro ⟨j, e, hj, he, rfl⟩
    exact ⟨j, e, hj, (setBucket_inBucket n j e).mpr (.inr ⟨hj, he⟩), rfl⟩

/-! ## Insertion -/

/-- The table after a successful `list_insert`, grown if it is time. -/
def grown (mem : Mem) (t : HashTable α) : HashTable α :=
  if t.numElements ≥ t.nextGrow then frHashTableGrow mem t else t

theorem grown_spec (mem : Mem) (L : Layout hash R t) :
    Layout hash R (grown mem t) ∧ (grown mem t).numElements = t.numElements ∧
      ∀ i, (grown mem t).buckets i = t.buckets i := by
  unfold grown
  split
  · exact frHashTableGrow_spec mem L
  · exact ⟨L, rfl, fun _ => rfl⟩

theorem stored_congr (h : ∀ i, t'.buckets i = t.buckets i) (x : α) : Stored t' x ↔ Stored t x := by
  unfold Stored InBucket
  simp only [h]

/-- Where the element is inserted: a chain `c` that becomes `c'`. -/
theorem frHashTableInsert_eq (cmp : α → α → Ordering) (hR : ∀ a b, R a b → a.reversed ≤ b.reversed)
    (hnode : mem.node = true) (L : Layout hash R t) (data : α) :
    ∃ t' c, Layout hash R t' ∧ Refines t t' ∧
      t'.buckets ((hash data).toNat &&& t'.mask) = some c ∧
      frHashTableInsert cmp hash mem t data =
        match listInsert cmp (newEntry hash data) c with
        | none => some (t', false)
        | some c' => some (grown mem { setBucket t' ((hash data).toNat &&& t'.mask) c' with
            numElements := u32 (t.numElements + 1) }, true) := by
  obtain ⟨t', c, hu, hc, L', r⟩ := useBucket_spec hR L (L.real_lt (hash data).toNat)
  refine ⟨t', c, L', r, by rw [r.mask]; exact hc, ?_⟩
  simp only [frHashTableInsert, hu, Option.bind_eq_bind, Option.bind_some, hnode, if_true,
    r.mask, r.numElements, newEntry]
  rfl

theorem frHashTableInsert_no_node (cmp : α → α → Ordering)
    (hR : ∀ a b, R a b → a.reversed ≤ b.reversed) (hnode : mem.node = false)
    (L : Layout hash R t) (data : α) :
    ∃ t', frHashTableInsert cmp hash mem t data = some (t', false) ∧ Layout hash R t' ∧
      Refines t t' := by
  obtain ⟨t', c, hu, -, L', r⟩ := useBucket_spec hR L (L.real_lt (hash data).toNat)
  exact ⟨t', by simp [frHashTableInsert, hu, hnode], L', r⟩

theorem Refines.misses (r : Refines t t') (L : Layout hash R t')
    (hno : ∀ x, Stored t x → ¬ Same cmp hash data x) (hc : t'.buckets i = some c) :
    ∀ e ∈ c, ¬ Matches cmp (newEntry hash data).reversed (newEntry hash data).data e := by
  rintro e he ⟨hrev, hcmp⟩
  have hin : InBucket t' i e := ⟨c, hc, he⟩
  exact hno e.data ((r.stored_iff _).mp ⟨i, e, hin, rfl⟩)
    ⟨(reversed_eq_iff L hin data).mp hrev, hcmp⟩

/-- An element that matches no stored one is inserted, wherever it goes. -/
theorem frHashTableInsert_new (hR : ∀ a b, R a b → a.reversed ≤ b.reversed)
    (hnode : mem.node = true) (L : Layout hash R t)
    (hno : ∀ x, Stored t x → ¬ Same cmp hash data x) :
    ∃ t', frHashTableInsert cmp hash mem t data = some (t', true) := by
  obtain ⟨t', c, L', r, hc, heq⟩ := frHashTableInsert_eq cmp hR hnode L data
  obtain ⟨l₁, l₂, -, hins, -⟩ := listInsert_spec ((L'.sorted _ c hc).imp (hR _ _))
    (r.misses L' hno hc)
  exact ⟨_, by rw [heq, hins]⟩

theorem frHashTableInsert_present (O : ChainOrder cmp R) (L : Layout hash R t) (mem : Mem)
    (hx : Stored t x) (hsame : Same cmp hash data x) :
    ∃ t', frHashTableInsert cmp hash mem t data = some (t', false) ∧ Layout hash R t' ∧
      Refines t t' := by
  have hR := fun a b h => (O.search 0 data a b h).le
  by_cases hnode : mem.node = true
  · obtain ⟨t', c, L', r, hc, heq⟩ := frHashTableInsert_eq cmp hR hnode L data
    have hins : listInsert cmp (newEntry hash data) c = none := by
      apply listInsert_present ((L'.sorted _ c hc).imp (O.search _ _ _ _))
      obtain ⟨i, e, he, rfl⟩ := (r.stored_iff x).mpr hx
      exact ⟨e, L'.mem_of_hash hc he hsame.1, (reversed_eq_iff L' he data).mpr hsame.1, hsame.2⟩
    refine ⟨t', ?_, L', r⟩
    rw [heq, hins]
  · exact frHashTableInsert_no_node cmp hR (by simpa using hnode) L data

/-- An element that fits behind all elements with its hash is added. -/
theorem frHashTableInsert_absent (hR : ∀ a b, R a b → a.reversed ≤ b.reversed)
    (hnode : mem.node = true) (L : Layout hash R t)
    (hless : ∀ x, Stored t x → hash x = hash data → cmp data x = .lt)
    (hbefore : ∀ i e, InBucket t i e → e.reversed ≤ reverse (hash data).toNat →
      R e (newEntry hash data))
    (hafter : ∀ e : Entry α, reverse (hash data).toNat < e.reversed → R (newEntry hash data) e) :
    ∃ t', frHashTableInsert cmp hash mem t data = some (t', true) ∧ Layout hash R t' ∧
      t'.numElements = u32 (t.numElements + 1) ∧ ∀ x, Stored t' x ↔ x = data ∨ Stored t x := by
  obtain ⟨t', c, L', r, hc, heq⟩ := frHashTableInsert_eq cmp hR hnode L data
  have hlt : ∀ e ∈ c, e.reversed = (newEntry hash data).reversed → cmp data e.data = .lt := by
    intro e he hrev
    have hin : InBucket t' _ e := ⟨c, hc, he⟩
    exact hless e.data ((r.stored_iff _).mp ⟨_, e, hin, rfl⟩)
      ((reversed_eq_iff L' hin data).mp hrev)
  have hne : ∀ e ∈ c, ¬ Matches cmp (newEntry hash data).reversed data e := by
    rintro e he ⟨hrev, heq⟩
    simp [hlt e he hrev] at heq
  obtain ⟨l₁, l₂, rfl, hins, h₁, -, hb | ⟨-, h₂⟩⟩ := @listInsert_spec _ cmp c (newEntry hash data)
    ((L'.sorted _ c hc).imp (hR _ _)) hne
  · obtain ⟨e, he, hrev, hgt⟩ := hb.exists_gt
    simp [newEntry, hlt e (mem_append_left _ he) hrev] at hgt
  have L₁ := L'.insert (u32 (t.numElements + 1)) hc
    (by
      intro e he
      obtain ⟨i, hi⟩ := (r.stored e).mp ⟨_, _, hc, mem_append_left _ he⟩
      exact hbefore i e hi (h₁ e he))
    (fun e he => hafter e (h₂ e he))
  obtain ⟨L₂, hnum, hbuckets⟩ := grown_spec mem L₁
  refine ⟨_, by rw [heq, hins], L₂, hnum, ?_⟩
  intro x
  rw [stored_congr hbuckets, setBucket_stored, ← r.stored_iff, stored_iff_chain hc, ← or_assoc]
  apply or_congr_left
  exact exists_mem_insert l₁ l₂ (newEntry hash data) x

/-! ## Removal -/

theorem Layout.stored_others (O : ChainOrder cmp R) (L : Layout hash R t)
    (hc : t.buckets ((hash data).toNat &&& t.mask) = some c) (hput : cur.put cur.node = c)
    (hsame : Same cmp hash data cur.node.data) (y : α) :
    ((∃ e ∈ listDelete cur, e.data = y) ∨
      ∃ j e, j ≠ (hash data).toNat &&& t.mask ∧ InBucket t j e ∧ e.data = y) ↔
      y ≠ cur.node.data ∧ Stored t y := by
  have hmem := node_mem hput
  have hsub := listDelete_sublist hput
  have hne : ∀ e ∈ listDelete cur, e.data ≠ cur.node.data := by
    intro e he heq
    have hec : e ∈ c := hsub.subset he
    have hrev : e.reversed = cur.node.reversed := by
      rw [L.reversed _ e ⟨c, hc, hec⟩, L.reversed _ _ ⟨c, hc, hmem⟩, L.key _ e ⟨c, hc, hec⟩,
        L.key _ _ ⟨c, hc, hmem⟩, heq]
    have hord := L.sorted _ c hc
    rw [← hput, put] at hord
    obtain ⟨-, htail, hcross⟩ := pairwise_append.mp hord
    rw [listDelete, mem_append] at he
    rcases he with he | he
    · exact O.distinct _ _ (hcross e he _ (by simp)) hrev heq
    · exact O.distinct _ _ ((pairwise_cons.mp htail).1 e he) hrev.symm heq.symm
  rw [stored_iff_chain hc]
  constructor
  · rintro (⟨e, he, rfl⟩ | ⟨j, e, hj, he, rfl⟩)
    · exact ⟨hne e he, .inl ⟨e, hsub.subset he, rfl⟩⟩
    refine ⟨?_, .inr ⟨j, e, hj, he, rfl⟩⟩
    intro heq
    have hh : hash e.data = hash data := by rw [heq, hsame.1]
    exact hj (L.bucket_unique he ⟨c, hc, L.mem_of_hash hc he hh⟩)
  rintro ⟨hyx, ⟨e, he, rfl⟩ | h⟩
  · left
    refine ⟨e, ?_, rfl⟩
    rw [← hput, put, mem_append, mem_cons] at he
    rw [listDelete, mem_append]
    rcases he with he | rfl | he
    · exact .inl he
    · exact absurd rfl hyx
    · exact .inr he
  · exact .inr h

theorem frHashTableRemove_spec (O : ChainOrder cmp R) (L : Layout hash R t) (data : α) :
    (∃ t' x, frHashTableRemove cmp hash t data = some (t', some x) ∧ Layout hash R t' ∧
        Stored t x ∧ Same cmp hash data x ∧ t'.numElements = u32 (t.numElements + 2 ^ 32 - 1) ∧
        ∀ y, Stored t' y ↔ y ≠ x ∧ Stored t y) ∨
      ∃ t', frHashTableRemove cmp hash t data = some (t', none) ∧ Layout hash R t' ∧
        Refines t t' ∧ ∀ x, Stored t x → ¬ Same cmp hash data x := by
  obtain ⟨t', c, hu, hc, L', r⟩ := useBucket_spec (fun a b h => (O.search 0 data a b h).le) L
    (L.real_lt (hash data).toNat)
  rw [← r.mask] at hc hu
  rcases L'.find_cases O hc with ⟨cur, hf, hput, hsame⟩ | ⟨hf, hno⟩
  · left
    have hmem := node_mem hput
    have hsub := listDelete_sublist hput
    refine ⟨_, cur.node.data, ?_, L'.setBucket (u32 (t.numElements + 2 ^ 32 - 1)) hc
      ((L'.sorted _ c hc).sublist hsub) fun e he => .inl (hsub.subset he), ?_, hsame, rfl, ?_⟩
    · simp only [frHashTableRemove, ← r.mask, hu, Option.bind_eq_bind, Option.bind_some, hf,
        r.numElements]
    · rw [← r.stored_iff]
      exact ⟨_, cur.node, ⟨c, hc, hmem⟩, rfl⟩
    · intro y
      rw [setBucket_stored, L'.stored_others O hc hput hsame, r.stored_iff]
  · right
    refine ⟨t', ?_, L', r, fun x hx => hno x ((r.stored_iff x).mpr hx)⟩
    simp only [frHashTableRemove, ← r.mask, hu, Option.bind_eq_bind, Option.bind_some, hf]

/-! ## Replacement -/

theorem frHashTableReplace_present (O : ChainOrder cmp R) (L : Layout hash R t)
    (hcongr : ∀ a b e : Entry α, a.reversed = b.reversed → cmp b.data a.data = .eq →
      (R a e → R b e) ∧ (R e a → R e b)) (mem : Mem) (hx : Stored t x)
    (hsame : Same cmp hash data x) :
    ∃ t' y, frHashTableReplace cmp hash mem t data = some (t', 0, some y) ∧ Layout hash R t' ∧
      Stored t y ∧ Same cmp hash data y ∧ t'.numElements = t.numElements ∧
      ∀ w, Stored t' w ↔ w = data ∨ w ≠ y ∧ Stored t w := by
  obtain ⟨t', c, hu, hc, L', r⟩ := useBucket_spec (fun a b h => (O.search 0 data a b h).le) L
    (L.real_lt (hash data).toNat)
  rw [← r.mask] at hc hu
  rcases L'.find_cases O hc with ⟨cur, hf, hput, hcur⟩ | ⟨-, hno⟩
  · have hin : InBucket t' _ cur.node := ⟨c, hc, node_mem hput⟩
    set node : Entry α := { cur.node with data := data } with hnode
    have hnew : node = newEntry hash data := by
      rw [hnode, newEntry, ← hcur.1, ← L'.key _ _ hin, ← L'.reversed _ _ hin]
    have hord := L'.sorted _ c hc
    rw [← hput, put] at hord
    obtain ⟨h₁, h₂, h₁₂⟩ := pairwise_append.mp hord
    obtain ⟨hn, h₂⟩ := pairwise_cons.mp h₂
    have hsorted : (cur.put node).Pairwise R := by
      apply pairwise_insert ((L'.sorted _ c hc).sublist (listDelete_sublist hput))
      · intro e he
        exact (hcongr cur.node node e rfl hcur.2).2 (h₁₂ e he _ (by simp))
      · intro e he
        exact (hcongr cur.node node e rfl hcur.2).1 (hn e he)
    have hsub : ∀ e ∈ cur.put node, e ∈ c ∨ e = node := by
      intro e he
      rw [put, mem_append, mem_cons] at he
      rw [← hput, put, mem_append, mem_cons]
      tauto
    refine ⟨_, cur.node.data, ?_, L'.setBucket t'.numElements hc hsorted ?_, ?_, hcur,
      r.numElements, ?_⟩
    · simp only [frHashTableReplace, hashTableFind, ← r.mask, hu, Option.bind_eq_bind,
        Option.bind_some, hf]
      rfl
    · intro e he
      rcases hsub e he with he | rfl
      · exact .inl he
      · refine .inr ⟨hnew, ?_⟩
        rw [hnew]
        rfl
    · rw [← r.stored_iff]
      exact ⟨_, cur.node, hin, rfl⟩
    · intro w
      rw [← r.stored_iff, ← L'.stored_others O hc hput hcur, setBucket_stored, ← or_assoc]
      apply or_congr_left
      exact exists_mem_insert cur.before cur.after node w
  · exact absurd hsame (hno x ((r.stored_iff x).mpr hx))

end FreeRadius.Hash
