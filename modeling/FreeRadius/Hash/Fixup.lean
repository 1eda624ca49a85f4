import FreeRadius.Hash.Layout

/-!
# Setting buckets and growing the table

`fr_hash_table_fixup` keeps the layout, whatever the order of the chains is, as
long as it includes the order of the reversed keys. Growing keeps every entry
where it is: the parents of the new buckets are the old ones.
-/

namespace FreeRadius.Hash

open Library

variable {α : Type} {hash : α → UInt32} {R : Entry α → Entry α → Prop}

/-- What the buckets are after the chain `c` of bucket `p` was split for the
sake of bucket `entry`. -/
structure SplitBuckets (t t' : HashTable α) (c : List (Entry α)) (p entry : ℕ) : Prop where
  group : ∀ r, (r = p ∨ ∃ e ∈ c, e.key &&& t.mask = r) →
    t'.buckets r = some (c.filter fun e => e.key &&& t.mask = r)
  other : ∀ r, r ≠ p → (∀ e ∈ c, e.key &&& t.mask ≠ r) → (r ≠ entry ∨ t.buckets r ≠ none) →
    t'.buckets r = t.buckets r
  fresh : entry ≠ p → (∀ e ∈ c, e.key &&& t.mask ≠ entry) → t.buckets entry = none →
    t'.buckets entry = some []

variable {t : HashTable α} {c : List (Entry α)} {entry : ℕ}

theorem splitParent_buckets (L : Layout hash R t) (hR : ∀ a b, R a b → a.reversed ≤ b.reversed)
    {p : ℕ} (hc : t.buckets p = some c) (entry : ℕ) :
    ∃ buckets, splitParent t p entry = some { t with buckets := buckets } ∧
      SplitBuckets t { t with buckets := buckets } c p entry := by
  obtain ⟨k, hk, -, hm⟩ := L.width
  have hin : ∀ e ∈ c, InBucket t p e := fun e he => ⟨c, hc, he⟩
  have hgroup : Grouped t.mask (fun e => reversedHigh k e.reversed) c := by
    refine ⟨fun a ha b hb => ?_, (L.sorted p c hc).imp fun h => reversedHigh_mono k (hR _ _ h)⟩
    rw [hm, Nat.and_two_pow_sub_one_eq_mod, Nat.and_two_pow_sub_one_eq_mod,
      L.reversed p a (hin a ha), L.reversed p b (hin b hb),
      reversedHigh_reverse_eq_iff (by omega)]
  have hsplit := @splitLoop_spec α t.mask p _ [] c t.buckets hgroup (by simp) hc
  have h1 := fun r hr => (hsplit r).trans (if_pos hr)
  have h2 : ∀ r, r ≠ p → (∀ e ∈ c, e.key &&& t.mask ≠ r) →
      splitLoop t.mask t.buckets p [] c r = t.buckets r := fun r hrp hrc =>
    (hsplit r).trans (if_neg (not_or.mpr ⟨hrp, fun ⟨e, he, heq⟩ => hrc e he heq⟩))
  by_cases hentry : splitLoop t.mask t.buckets p [] c entry = none
  · refine ⟨Function.update (splitLoop t.mask t.buckets p [] c) entry (some []),
      by simp [splitParent, hc, hentry, setBucket], ?_⟩
    have hmiss : entry ≠ p ∧ ∀ e ∈ c, e.key &&& t.mask ≠ entry := by
      constructor
      · intro he
        simp [h1 entry (.inl he)] at hentry
      · intro e he hre
        simp [h1 entry (.inr ⟨e, he, hre⟩)] at hentry
    constructor
    · intro r hr
      have hre : r ≠ entry := by
        rintro rfl
        rcases hr with hr | ⟨e, he, hre⟩
        · exact hmiss.1 hr
        · exact hmiss.2 e he hre
      simp only [Function.update_of_ne hre]
      exact h1 r hr
    · intro r hrp hrc hr
      have hre : r ≠ entry := by
        rintro rfl
        rcases hr with hr | hr
        · exact hr rfl
        · exact hr ((h2 r hrp hrc).symm.trans hentry)
      simp only [Function.update_of_ne hre]
      exact h2 r hrp hrc
    · intro _ _ _
      simp
  · obtain ⟨ce, hce⟩ := Option.ne_none_iff_exists'.mp hentry
    refine ⟨splitLoop t.mask t.buckets p [] c, by simp [splitParent, hc, hce], h1,
      fun r hrp hrc _ => h2 r hrp hrc, ?_⟩
    intro hep hec hnone
    exact absurd ((h2 entry hep hec).trans hnone) hentry

namespace SplitBuckets

variable {t t' : HashTable α} {c : List (Entry α)} {p entry : ℕ}

theorem keep (h : SplitBuckets t t' c p entry) (i : ℕ) (hi : t'.buckets i = none) :
    t.buckets i = none := by
  by_contra hset
  by_cases hg : i = p ∨ ∃ e ∈ c, e.key &&& t.mask = i
  · simp [h.group i hg] at hi
  · push Not at hg
    rw [h.other i hg.1 hg.2 (.inr hset)] at hi
    exact hset hi

variable {i : ℕ} {e : Entry α}

section

variable (L : Layout hash R t) (h : SplitBuckets t t' c p entry) (hc : t.buckets p = some c)
  (hp : p = parentOf entry)

include L h hc hp

theorem home_of_new (hi : t.buckets i = none) (hi' : t'.buckets i ≠ none) : Home t i p := by
  by_cases hg : ∃ e ∈ c, e.key &&& t.mask = i
  · obtain ⟨e, he, rfl⟩ := hg
    exact L.home p e ⟨c, hc, he⟩
  push Not at hg
  have hip : i ≠ p := by
    rintro rfl
    simp [hc] at hi
  by_cases hie : i = entry
  · subst hie
    exact Home.parent hi (hp ▸ Home.here hc)
  · rw [h.other i hip hg (.inl hie)] at hi'
    exact absurd hi hi'

theorem home_of_ne {j : ℕ} (hh : Home t i j) (hj : j ≠ p) : Home t' i j := by
  induction hh with
  | @here i ci hi =>
    have hg : ∀ e ∈ c, e.key &&& t.mask ≠ i := by
      rintro e he rfl
      exact hj ((L.home p e ⟨c, hc, he⟩).eq_of_set hi)
    have hi' := h.other i hj hg (.inr (by simp [hi]))
    exact Home.here (hi'.trans hi)
  | @parent i j hi hup ih =>
    have hi' : t'.buckets i = none := by
      by_contra hset
      exact hj ((Home.parent hi hup).unique (h.home_of_new L hc hp hi hset))
    exact Home.parent hi' (ih hj)

end

/-- The entries of `c` are in the buckets of their masked keys, all others are
where they were. -/
theorem inBucket_cases (h : SplitBuckets t t' c p entry) (hc : t.buckets p = some c)
    (he : InBucket t' i e) :
    (InBucket t p e ∧ e.key &&& t.mask = i) ∨ (i ≠ p ∧ InBucket t i e) := by
  obtain ⟨c', hc', hec⟩ := he
  by_cases hg : i = p ∨ ∃ e ∈ c, e.key &&& t.mask = i
  · rw [h.group i hg] at hc'
    cases hc'
    rw [List.mem_filter] at hec
    exact .inl ⟨⟨c, hc, hec.1⟩, by simpa using hec.2⟩
  push Not at hg
  by_cases hset : i ≠ entry ∨ t.buckets i ≠ none
  · rw [h.other i hg.1 hg.2 hset] at hc'
    exact .inr ⟨hg.1, c', hc', hec⟩
  push Not at hset
  obtain ⟨rfl, hnone⟩ := hset
  rw [h.fresh hg.1 hg.2 hnone] at hc'
  cases hc'
  simp at hec

theorem inBucket_of_mem (h : SplitBuckets t t' c p entry) (he : e ∈ c) :
    InBucket t' (e.key &&& t.mask) e :=
  ⟨_, h.group _ (.inr ⟨e, he, rfl⟩), by simp [he]⟩

section

variable (L : Layout hash R t) (h : SplitBuckets t t' c p entry) (hc : t.buckets p = some c)
  (hp : p = parentOf entry)

include L h hc hp

theorem layout (hentry : entry < t.numBuckets) (hnum : t'.numBuckets = t.numBuckets)
    (hmask : t'.mask = t.mask) : Layout hash R t' := by
  constructor
  · rw [hnum, hmask]
    exact L.width
  · obtain ⟨c0, hc0⟩ := L.root
    apply Option.ne_none_iff_exists'.mp
    intro hnone
    simp [h.keep 0 hnone] at hc0
  · intro i hi
    rw [hnum] at hi
    have hip : i ≠ p := by
      rintro rfl
      have := L.lt_of_set hc
      omega
    have hg : ∀ e ∈ c, e.key &&& t.mask ≠ i := by
      rintro e - rfl
      have := L.real_lt e.key
      omega
    rw [h.other i hip hg (.inl (by omega))]
    exact L.bound i hi
  · intro i e he
    rcases h.inBucket_cases hc he with ⟨he, -⟩ | ⟨-, he⟩
    · exact L.key p e he
    · exact L.key i e he
  · intro i e he
    rcases h.inBucket_cases hc he with ⟨he, -⟩ | ⟨-, he⟩
    · exact L.reversed p e he
    · exact L.reversed i e he
  · intro i e he
    rw [hmask]
    rcases h.inBucket_cases hc he with ⟨-, hr⟩ | ⟨hip, hi⟩
    · rw [hr]
      obtain ⟨c', hc', -⟩ := he
      exact Home.here hc'
    · exact h.home_of_ne L hc hp (L.home i e hi) hip
  · intro i c' hc'
    by_cases hg : i = p ∨ ∃ e ∈ c, e.key &&& t.mask = i
    · rw [h.group i hg] at hc'
      cases hc'
      exact (L.sorted p c hc).filter _
    push Not at hg
    by_cases hset : i ≠ entry ∨ t.buckets i ≠ none
    · rw [h.other i hg.1 hg.2 hset] at hc'
      exact L.sorted i c' hc'
    push Not at hset
    obtain ⟨rfl, hnone⟩ := hset
    rw [h.fresh hg.1 hg.2 hnone] at hc'
    cases hc'
    exact List.Pairwise.nil

theorem run {key : ℕ} {ci : List (Entry α)} (hci : t.buckets i = some ci)
    (hi : Home t (key &&& t.mask) i) :
    ∃ j c', t'.buckets j = some c' ∧ Home t' (key &&& t.mask) j ∧
      (c'.filter fun e => e.key = key) = ci.filter fun e => e.key = key := by
  by_cases hip : i = p
  · subst hip
    rw [hc] at hci
    cases hci
    by_cases hg : key &&& t.mask = i ∨ ∃ e ∈ c, e.key &&& t.mask = key &&& t.mask
    · refine ⟨_, _, h.group _ hg, Home.here (h.group _ hg), ?_⟩
      rw [List.filter_filter]
      apply List.filter_congr
      intro e _
      by_cases hk : e.key = key <;> simp [hk]
    -- no entry has the key, before and after
    have hlt : key &&& t.mask < 2 ^ 32 := lt_trans (L.real_lt key) L.numBuckets_lt
    have hroot : t'.buckets 0 ≠ none := by
      obtain ⟨c0, hc0⟩ := L.root
      intro hnone
      simp [h.keep 0 hnone] at hc0
    obtain ⟨j, hj⟩ := Home.exists_of_root t' hroot _ hlt
    obtain ⟨c', hc'⟩ := hj.set
    push Not at hg
    refine ⟨j, c', hc', hj, ?_⟩
    rw [List.filter_eq_nil_iff.mpr, List.filter_eq_nil_iff.mpr]
    · intro e he hk
      exact hg.2 e he (by rw [of_decide_eq_true hk])
    intro e he hk
    have hkey : e.key = key := of_decide_eq_true hk
    rcases h.inBucket_cases hc ⟨c', hc', he⟩ with ⟨⟨c₁, hc₁, he₁⟩, -⟩ | ⟨hjp, hej⟩
    · rw [hc] at hc₁
      cases hc₁
      exact hg.2 e he₁ (by rw [hkey])
    · exact hjp ((L.home j e hej).unique (hkey.symm ▸ hi))
  · have hgi : ∀ x ∈ c, x.key &&& t.mask ≠ i := by
      rintro x hx rfl
      exact hip ((L.home p x ⟨c, hc, hx⟩).eq_of_set hci)
    exact ⟨i, ci, (h.other i hip hgi (.inr (by simp [hci]))).trans hci,
      h.home_of_ne L hc hp hi hip, rfl⟩

end

theorem refines (L : Layout hash R t) {buckets : ℕ → Option (List (Entry α))}
    (h : SplitBuckets t { t with buckets := buckets } c p entry) (hc : t.buckets p = some c)
    (hp : p = parentOf entry) : Refines t { t with buckets := buckets } := by
  refine ⟨rfl, rfl, rfl, rfl, h.keep, ?_, ?_, fun _ _ _ hci hi => h.run L hc hp hci hi⟩
  · intro e
    constructor
    · rintro ⟨i, he⟩
      rcases h.inBucket_cases hc he with ⟨he, -⟩ | ⟨-, he⟩
      · exact ⟨p, he⟩
      · exact ⟨i, he⟩
    rintro ⟨i, ci, hci, he⟩
    by_cases hip : i = p
    · subst hip
      rw [hc] at hci
      cases hci
      exact ⟨_, h.inBucket_of_mem he⟩
    · have hg : ∀ x ∈ c, x.key &&& t.mask ≠ i := by
        rintro x hx rfl
        exact hip ((L.home p x ⟨c, hc, hx⟩).eq_of_set hci)
      exact ⟨i, ci, (h.other i hip hg (.inr (by simp [hci]))).trans hci, he⟩
  · intro e i j hi hj
    rcases h.inBucket_cases hc hj with ⟨hep, hr⟩ | ⟨-, hej⟩
    · have hip := L.bucket_unique hi hep
      have hhome := L.home p e hep
      rw [hr] at hhome
      have hlt : j < 2 ^ 32 := by
        have h1 := L.real_lt e.key
        have h2 := L.numBuckets_lt
        omega
      rw [hip]
      refine ⟨hhome.le hlt, ?_⟩
      by_cases hjp : p = j
      · exact .inl hjp
      · exact .inr (hhome.unset_of_ne (Ne.symm hjp))
    · have := L.bucket_unique hi hej
      exact ⟨this.le, .inl this⟩

end SplitBuckets

theorem splitParent_spec (L : Layout hash R t) (hR : ∀ a b, R a b → a.reversed ≤ b.reversed)
    (hentry : entry < t.numBuckets) (hc : t.buckets (parentOf entry) = some c) :
    ∃ t' c', splitParent t (parentOf entry) entry = some t' ∧ t'.buckets entry = some c' ∧
      Layout hash R t' ∧ Refines t t' := by
  obtain ⟨buckets, hsplit, h⟩ := splitParent_buckets L hR hc entry
  have hset : buckets entry ≠ none := by
    intro hnone
    have hold : t.buckets entry = none := h.keep entry hnone
    by_cases hg : entry = parentOf entry ∨ ∃ e ∈ c, e.key &&& t.mask = entry
    · have := h.group entry hg
      simp [hnone] at this
    · push Not at hg
      have := h.fresh hg.1 hg.2 hold
      simp [hnone] at this
  obtain ⟨c', hc'⟩ := Option.ne_none_iff_exists'.mp hset
  exact ⟨_, c', hsplit, hc', h.layout L hc rfl hentry rfl rfl, h.refines L hc rfl⟩

/-- An unset bucket below 2^fuel gets set. -/
theorem frHashTableFixup_spec (hR : ∀ a b : Entry α, R a b → a.reversed ≤ b.reversed) (fuel : ℕ)
    (L : Layout hash R t) (hfuel : entry < 2 ^ fuel) (hentry : entry < t.numBuckets)
    (hunset : t.buckets entry = none) :
    ∃ t' c', frHashTableFixup (fuel + 1) t entry = some t' ∧ t'.buckets entry = some c' ∧
      Layout hash R t' ∧ Refines t t' := by
  have hlt := L.numBuckets_lt
  have h0 : entry ≠ 0 := by
    rintro rfl
    obtain ⟨c, hc⟩ := L.root
    simp [hunset] at hc
  have hparent := parentOf_lt (by omega) h0
  induction fuel generalizing t entry with
  | zero => omega
  | succ fuel ih =>
    by_cases hp : t.buckets (parentOf entry) = none
    · have hp0 : parentOf entry ≠ 0 := by
        intro he
        obtain ⟨c, hc⟩ := L.root
        simp [he, hc] at hp
      obtain ⟨t₁, c₁, ht₁, hc₁, L₁, r₁⟩ := ih L (parentOf_lt_two_pow (by omega) hfuel) (by omega)
        hp hlt hp0 (parentOf_lt (by omega) hp0)
      obtain ⟨t₂, c₂, ht₂, hc₂, L₂, r₂⟩ := splitParent_spec L₁ hR
        (by rw [r₁.numBuckets]; exact hentry) hc₁
      refine ⟨t₂, c₂, ?_, hc₂, L₂, r₁.trans r₂⟩
      rw [frHashTableFixup]
      simp [hp, ht₁, ht₂]
    · obtain ⟨c, hc⟩ := Option.ne_none_iff_exists'.mp hp
      obtain ⟨t', c', ht', hc', L', r'⟩ := splitParent_spec L hR hentry hc
      refine ⟨t', c', ?_, hc', L', r'⟩
      rw [frHashTableFixup]
      simp [hc, ht']

/-- Every use of a bucket finds its chain. -/
theorem useBucket_spec (hR : ∀ a b : Entry α, R a b → a.reversed ≤ b.reversed) (L : Layout hash R t)
    (hentry : entry < t.numBuckets) :
    ∃ t' c, useBucket t entry = some (t', c) ∧ t'.buckets entry = some c ∧ Layout hash R t' ∧
      Refines t t' := by
  have hlt := L.numBuckets_lt
  by_cases hset : t.buckets entry = none
  · obtain ⟨t', c, ht', hc, L', r⟩ := frHashTableFixup_spec hR 32 L (by omega) hentry hset
    exact ⟨t', c, by simp [useBucket, hset, ht', hc], hc, L', r⟩
  · obtain ⟨c, hc⟩ := Option.ne_none_iff_exists'.mp hset
    exact ⟨t, c, by simp [useBucket, hc], hc, L, L.refines_refl⟩

/-! ## Growing -/

/-- Growing moves no entry. -/
theorem frHashTableGrow_spec (mem : Mem) (L : Layout hash R t) :
    Layout hash R (frHashTableGrow mem t) ∧
      (frHashTableGrow mem t).numElements = t.numElements ∧
      ∀ i, (frHashTableGrow mem t).buckets i = t.buckets i := by
  obtain ⟨k, hk, hn, hm⟩ := L.width
  by_cases hok : mem.realloc (u32 (growFactor * t.numBuckets)) = true
  · have hcount : u32 (growFactor * t.numBuckets) = 2 ^ (k + 1) := by
      rw [hn, growFactor, ← pow_succ']
      exact u32_of_lt (Nat.pow_lt_pow_right (by norm_num) (by omega))
    have hk24 : k + 1 ≤ 24 := by
      have hlim := mem.realloc_limit _ hok
      rw [hcount] at hlim
      have := (Nat.pow_lt_pow_iff_right (show 1 < 2 by norm_num)).mp hlim
      omega
    have hpow : 2 ^ (k + 1) < 2 ^ 32 := Nat.pow_lt_pow_right (by norm_num) (by omega)
    have hpos : 0 < 2 ^ k := by positivity
    have hmask : u32 (2 ^ (k + 1) + 2 ^ 32 - 1) = 2 ^ (k + 1) - 1 := by
      rw [u32, show 2 ^ (k + 1) + 2 ^ 32 - 1 = 2 ^ (k + 1) - 1 + 2 ^ 32 by omega,
        Nat.add_mod_right, Nat.mod_eq_of_lt (by omega)]
    have hsame : ∀ i, (if i < t.numBuckets then t.buckets i else none) = t.buckets i := by
      intro i
      by_cases hi : i < t.numBuckets
      · rw [if_pos hi]
      · rw [if_neg hi, L.bound i (by omega)]
    have hgrow : frHashTableGrow mem t = { t with
        numBuckets := 2 ^ (k + 1), nextGrow := u32 (t.nextGrow * growFactor)
        mask := 2 ^ (k + 1) - 1 } := by
      rw [hcount] at hok
      simp only [frHashTableGrow, hcount, hok, if_true, hmask, hsame]
    rw [hgrow]
    refine ⟨⟨⟨k + 1, hk24, rfl, rfl⟩, L.root, ?_, L.key, L.reversed, ?_, L.sorted⟩, rfl,
      fun _ => rfl⟩
    · intro i hi
      exact L.bound i (by simp only at hi; omega)
    intro i e he
    have hhome := L.home i e he
    simp only [Nat.and_two_pow_sub_one_eq_mod] at hhome ⊢
    rw [hm, Nat.and_two_pow_sub_one_eq_mod] at hhome
    -- the masked key gains one bit, and clearing it gives the old one
    have hlow : e.key % 2 ^ k < 2 ^ k := Nat.mod_lt _ hpos
    have hsplit : e.key % 2 ^ (k + 1) = e.key % 2 ^ k ∨
        e.key % 2 ^ (k + 1) = 2 ^ k + e.key % 2 ^ k := by
      rw [pow_succ, Nat.mod_mul]
      have := Nat.mod_two_eq_zero_or_one (e.key / 2 ^ k)
      rcases this with h0 | h1
      · left
        rw [h0]
        omega
      · right
        rw [h1]
        omega
    rcases hsplit with hs | hs
    · rw [hs]
      refine hhome.congr ?_
      exact fun _ => Iff.rfl
    rw [hs]
    refine Home.parent (L.bound _ (by omega)) ?_
    rw [parentOf_add_two_pow hlow (by omega)]
    refine hhome.congr ?_
    exact fun _ => Iff.rfl
  · have hgrow : frHashTableGrow mem t = t := by
      simp [frHashTableGrow, hok]
    rw [hgrow]
    exact ⟨L, rfl, fun _ => rfl⟩

end FreeRadius.Hash
