import FreeRadius.Hash.Ops

/-!
# Runs with equal hashes

`list_find` expects entries with one reversed key in descending order, while
`list_insert` puts a new entry behind the first one that is less. Runs in which
every new element is less than the stored ones with its hash keep the order,
and every other run comes to a state in which an element cannot be found.
-/

namespace FreeRadius.Hash

open Library
open Std (TransCmp OrientedCmp ReflCmp)

variable {α : Type} {cmp : α → α → Ordering} {hash : α → UInt32}
  {R : Entry α → Entry α → Prop} {t : HashTable α}

/-- The order that `list_find` relies on. -/
def DescOrder (cmp : α → α → Ordering) (a b : Entry α) : Prop :=
  a.reversed < b.reversed ∨ a.reversed = b.reversed ∧ cmp a.data b.data = .gt

theorem chainOrder_desc [TransCmp cmp] : ChainOrder cmp (DescOrder cmp) := by
  constructor
  · rintro r d a b (hlt | ⟨heq, hgt⟩)
    · exact ⟨hlt.le, fun ha hb _ => by omega⟩
    refine ⟨heq.le, fun _ _ hda hdb => ?_⟩
    have hbd : cmp d b.data = .gt := TransCmp.gt_trans hda hgt
    rw [hdb] at hbd
    cases hbd
  · rintro a b (hlt | ⟨-, hgt⟩) heq hdata
    · omega
    · rw [hdata, @ReflCmp.compare_self α cmp] at hgt
      cases hgt

/-- A table, and the elements that were inserted into it and not removed. -/
structure History (α : Type) where
  table : HashTable α
  live : List α

inductive Op (α : Type) where
  | insert (mem : Mem) (data : α)
  | remove (data : α)
  | find (data : α)

/-- One call; the elements follow what the call answers. -/
def History.step [DecidableEq α] (cmp : α → α → Ordering) (hash : α → UInt32) (s : History α) :
    Op α → Option (History α)
  | .insert mem data => (frHashTableInsert cmp hash mem s.table data).map fun (t, inserted) =>
      ⟨t, if inserted then data :: s.live else s.live⟩
  | .remove data => (frHashTableRemove cmp hash s.table data).map fun (t, old) =>
      ⟨t, match old with | some x => s.live.erase x | none => s.live⟩
  | .find data => (frHashTableFind cmp hash s.table data).map fun (t, _) => ⟨t, s.live⟩

def History.start : History α := ⟨frHashTableAlloc, []⟩

/-- The chains can be searched: an element equal to one that was inserted and
not removed is found, an insertion fails exactly for such an element, and no
two of the elements are equal. -/
structure Searchable (cmp : α → α → Ordering) (hash : α → UInt32) (s : History α) : Prop where
  find : ∀ d x, x ∈ s.live → cmp d x = .eq →
    ∃ t, frHashTableFind cmp hash s.table d = some (t, some x)
  insert : ∀ mem d, mem.node = true → ∃ t r,
    frHashTableInsert cmp hash mem s.table d = some (t, r) ∧
      (r = false ↔ ∃ x ∈ s.live, cmp d x = .eq)
  distinct : s.live.Pairwise fun a b => cmp a b ≠ .eq

/-- A new element is greater than no element with its hash. -/
def Fits (cmp : α → α → Ordering) (hash : α → UInt32) (s : History α) : Op α → Prop
  | .insert mem data => mem.node = true →
      (∃ x ∈ s.live, cmp data x = .eq) ∨ ∀ x ∈ s.live, hash x = hash data → cmp data x ≠ .gt
  | _ => True

/-- `P` holds in all states of the run of `ops` from `s`, which does not stop. -/
def AllStates [DecidableEq α] (cmp : α → α → Ordering) (hash : α → UInt32)
    (P : History α → Prop) : History α → List (Op α) → Prop
  | s, [] => P s
  | s, op :: ops => P s ∧ ∃ s', s.step cmp hash op = some s' ∧ AllStates cmp hash P s' ops

/-- `C` holds of every step of the run of `ops` from `s`. -/
def AllSteps [DecidableEq α] (cmp : α → α → Ordering) (hash : α → UInt32)
    (C : History α → Op α → Prop) : History α → List (Op α) → Prop
  | _, [] => True
  | s, op :: ops => C s op ∧ ∀ s', s.step cmp hash op = some s' → AllSteps cmp hash C s' ops

/-- The invariant of the runs in which all new elements fit. -/
structure Ordered (cmp : α → α → Ordering) (hash : α → UInt32) (s : History α) : Prop where
  layout : Layout hash (DescOrder cmp) s.table
  live : ∀ x, x ∈ s.live ↔ Stored s.table x
  distinct : s.live.Pairwise fun a b => cmp a b ≠ .eq

theorem ordered_start : Ordered cmp hash (History.start : History α) :=
  ⟨layout_alloc, fun x => ⟨fun hx => absurd hx List.not_mem_nil,
    fun hx => absurd hx (not_stored_alloc x)⟩, List.Pairwise.nil⟩

/-! ## Searches after an insertion that does not fit -/

variable {i : ℕ} {c : List (Entry α)} {data : α} {s : History α} {op : Op α}

theorem Layout.filter_reversed (L : Layout hash R t) (hc : t.buckets i = some c) (data : α) :
    (c.filter fun e => e.reversed = reverse (hash data).toNat) =
      c.filter fun e => e.key = (hash data).toNat := by
  apply List.filter_congr
  intro e he
  have hin : InBucket t i e := ⟨c, hc, he⟩
  rw [decide_eq_decide, reversed_eq_iff L hin, L.key i e hin, UInt32.toNat_inj]

/-- A search that is blocked stays blocked while buckets are set. -/
theorem frHashTableFind_blocked (hR : ∀ a b, R a b → a.reversed ≤ b.reversed) (L : Layout hash R t)
    (hc : t.buckets i = some c) (hi : Home t ((hash data).toNat &&& t.mask) i)
    (hb : Blocked cmp data (c.filter fun e => e.reversed = reverse (hash data).toNat)) :
    ∃ t', frHashTableFind cmp hash t data = some (t', none) := by
  obtain ⟨t', c', hu, hc', L', r⟩ := useBucket_spec hR L (L.real_lt (hash data).toNat)
  obtain ⟨j, cj, hcj, hj, hrun⟩ := r.run (hash data).toNat i c hc hi
  have hje := hj.eq_of_set hc'
  rw [← hje, hc'] at hcj
  cases hcj
  rw [L.filter_reversed hc, ← hrun, ← L'.filter_reversed hc'] at hb
  exact ⟨t', by simp [frHashTableFind, hashTableFind, hu, listFind_blocked hb]⟩

/-- An element greater than one with its hash, and equal to none, is inserted
and cannot be found any more. -/
theorem frHashTableInsert_blocked (hR : ∀ a b, R a b → a.reversed ≤ b.reversed) {mem : Mem}
    (hnode : mem.node = true) (L : Layout hash R t) {x : α}
    (hnone : ∀ y, Stored t y → ¬ Same cmp hash data y) (hx : Stored t x)
    (hhash : hash x = hash data) (hgt : cmp data x = .gt) :
    ∃ t' t'', frHashTableInsert cmp hash mem t data = some (t', true) ∧
      frHashTableFind cmp hash t' data = some (t'', none) := by
  obtain ⟨t', c, L', r, hc, heq⟩ := frHashTableInsert_eq cmp hR hnode L data
  obtain ⟨i, e, he, rfl⟩ := (r.stored_iff x).mpr hx
  have hrev := (reversed_eq_iff L' he data).mpr hhash
  have hmem := L'.mem_of_hash hc he hhash
  obtain ⟨l₁, l₂, rfl, hins, h₁, h₂, hb | ⟨hlt, hafter⟩⟩ := listInsert_spec
    ((L'.sorted _ c hc).imp (hR _ _)) (r.misses L' hnone hc)
  swap
  · rcases List.mem_append.mp hmem with hmem | hmem
    · simpa [newEntry, hgt] using hlt e hmem hrev
    · exact absurd hrev (hafter e hmem).ne'
  have L₁ := (L'.mono hR).insert (u32 (t.numElements + 1)) hc h₁ h₂
  obtain ⟨L₂, -, hbuckets⟩ := grown_spec mem L₁
  have hc₂ : (grown mem { setBucket t' ((hash data).toNat &&& t'.mask)
      (l₁ ++ newEntry hash data :: l₂) with numElements := u32 (t.numElements + 1) }).buckets
      ((hash data).toNat &&& t'.mask) = some (l₁ ++ newEntry hash data :: l₂) := by
    rw [hbuckets]
    simp [setBucket]
  have hhome := L₂.home _ (newEntry hash data) ⟨_, hc₂, by simp⟩
  have hb₂ : Blocked cmp data ((l₁ ++ newEntry hash data :: l₂).filter
      fun e => e.reversed = reverse (hash data).toNat) := by
    rw [List.filter_append]
    exact hb.append _
  obtain ⟨t'', ht''⟩ := frHashTableFind_blocked (fun _ _ h => h) L₂ hc₂ hhome hb₂
  exact ⟨_, t'', by rw [heq, hins], ht''⟩

/-! ## Whole runs -/

theorem Ordered.searchable [TransCmp cmp] (hcompat : ∀ a b, cmp a b = .eq → hash a = hash b)
    (h : Ordered cmp hash s) : Searchable cmp hash s := by
  have : Std.Symm fun a b : α => cmp a b ≠ .eq :=
    ⟨fun a b hab hba => hab (OrientedCmp.eq_symm hba)⟩
  have hsame : ∀ d x, cmp d x = .eq → Same cmp hash d x :=
    fun d x hx => ⟨(hcompat d x hx).symm, hx⟩
  refine ⟨?_, ?_, h.distinct⟩
  · intro d x hx hdx
    obtain ⟨t', r, hf, -, -, ⟨y, rfl, hy, -, hdy⟩ | ⟨-, hno⟩⟩ :=
      frHashTableFind_spec chainOrder_desc h.layout d
    · have hxy : x = y := by
        by_contra hne
        exact h.distinct.forall hx ((h.live y).mpr hy) hne
          (TransCmp.eq_trans (OrientedCmp.eq_symm hdx) hdy)
      exact ⟨t', hxy ▸ hf⟩
    · exact absurd (hsame d x hdx) (hno x ((h.live x).mp hx))
  · intro mem d hnode
    by_cases hex : ∃ x ∈ s.live, cmp d x = .eq
    · obtain ⟨x, hx, hdx⟩ := hex
      obtain ⟨t', ht', -, -⟩ := frHashTableInsert_present chainOrder_desc h.layout mem
        ((h.live x).mp hx) (hsame d x hdx)
      exact ⟨t', false, ht', fun _ => ⟨x, hx, hdx⟩, fun _ => rfl⟩
    · have hno : ∀ x, Stored s.table x → ¬ Same cmp hash d x :=
        fun x hx hs => hex ⟨x, (h.live x).mpr hx, hs.2⟩
      obtain ⟨t', ht'⟩ := frHashTableInsert_new
        (fun a b hab => (chainOrder_desc.search 0 d a b hab).le) hnode h.layout hno
      exact ⟨t', true, ht', fun hf => absurd hf (by decide), fun he => absurd he hex⟩

variable [DecidableEq α]

/-- A step whose new element fits keeps the order. -/
theorem Ordered.step [TransCmp cmp] (hcompat : ∀ a b, cmp a b = .eq → hash a = hash b)
    (h : Ordered cmp hash s) (hfit : Fits cmp hash s op) :
    ∃ s', s.step cmp hash op = some s' ∧ Ordered cmp hash s' := by
  have hR : ∀ a b : Entry α, DescOrder cmp a b → a.reversed ≤ b.reversed := by
    rintro a b (hlt | ⟨heq, -⟩)
    · exact hlt.le
    · exact heq.le
  have hrefines : ∀ {t'}, Layout hash (DescOrder cmp) t' → Refines s.table t' →
      Ordered cmp hash ⟨t', s.live⟩ :=
    fun L' r => ⟨L', fun x => (h.live x).trans (r.stored_iff x).symm, h.distinct⟩
  cases op with
  | insert mem d =>
    by_cases hnode : mem.node = true
    · by_cases hex : ∃ x ∈ s.live, cmp d x = .eq
      · obtain ⟨x, hx, hdx⟩ := hex
        obtain ⟨t', ht', L', r⟩ := frHashTableInsert_present chainOrder_desc h.layout mem
          ((h.live x).mp hx) ⟨(hcompat d x hdx).symm, hdx⟩
        exact ⟨⟨t', s.live⟩, by simp [History.step, ht'], hrefines L' r⟩
      have hless : ∀ x, Stored s.table x → hash x = hash d → cmp d x = .lt := by
        intro x hx hh
        have hlive := (h.live x).mpr hx
        have hne : cmp d x ≠ .eq := fun he => hex ⟨x, hlive, he⟩
        have hng : cmp d x ≠ .gt := ((hfit hnode).resolve_left hex) x hlive hh
        revert hne hng
        cases cmp d x <;> simp
      obtain ⟨t', ht', L', -, hst⟩ := frHashTableInsert_absent hR hnode h.layout hless
        (by
          intro i e he hle
          rcases Nat.lt_or_eq_of_le hle with hlt | heq
          · exact .inl hlt
          · have hh := (reversed_eq_iff h.layout he d).mp heq
            exact .inr ⟨heq, OrientedCmp.gt_of_lt (hless e.data ⟨i, e, he, rfl⟩ hh)⟩)
        (fun e hlt => .inl hlt)
      refine ⟨⟨t', d :: s.live⟩, by simp [History.step, ht'], L', ?_, ?_⟩
      · intro x
        rw [hst x, List.mem_cons, h.live x]
      · exact List.pairwise_cons.mpr ⟨fun x hx he => hex ⟨x, hx, he⟩, h.distinct⟩
    · obtain ⟨t', ht', L', r⟩ := frHashTableInsert_no_node cmp hR (by simpa using hnode) h.layout d
      exact ⟨⟨t', s.live⟩, by simp [History.step, ht'], hrefines L' r⟩
  | remove d =>
    rcases frHashTableRemove_spec chainOrder_desc h.layout d with
      ⟨t', x, ht', L', hx, -, -, hst⟩ | ⟨t', ht', L', r, -⟩
    · have hnodup : s.live.Nodup := by
        apply h.distinct.imp
        rintro a b hab rfl
        exact hab ReflCmp.compare_self
      refine ⟨⟨t', s.live.erase x⟩, by simp [History.step, ht'], L', ?_,
        h.distinct.sublist List.erase_sublist⟩
      intro y
      rw [hst y, hnodup.mem_erase_iff, h.live y]
    · exact ⟨⟨t', s.live⟩, by simp [History.step, ht'], hrefines L' r⟩
  | find d =>
    obtain ⟨t', r, ht', L', hr, -⟩ := frHashTableFind_spec chainOrder_desc h.layout d
    exact ⟨⟨t', s.live⟩, by simp [History.step, ht'], hrefines L' hr⟩

/-- After a step whose new element does not fit, that element is not found. -/
theorem Ordered.step_not_searchable [TransCmp cmp] (h : Ordered cmp hash s)
    (hfit : ¬ Fits cmp hash s op) :
    ∃ s', s.step cmp hash op = some s' ∧ ¬ Searchable cmp hash s' := by
  cases op with
  | insert mem d =>
    simp only [Fits, Classical.not_imp, not_or] at hfit
    obtain ⟨hnode, hno, hgt⟩ := hfit
    push Not at hgt
    obtain ⟨x, hx, hh, hgt⟩ := hgt
    obtain ⟨t', t'', hins, hfind⟩ := frHashTableInsert_blocked
      (fun a b hab => (chainOrder_desc.search 0 d a b hab).le) hnode h.layout
      (fun y hy hs => hno ⟨y, (h.live y).mpr hy, hs.2⟩) ((h.live x).mp hx) hh hgt
    refine ⟨⟨t', d :: s.live⟩, by simp [History.step, hins], ?_⟩
    intro hs
    obtain ⟨t₃, ht₃⟩ := hs.find d d (by simp) ReflCmp.compare_self
    rw [hfind] at ht₃
    cases ht₃
  | remove d => exact absurd trivial hfit
  | find d => exact absurd trivial hfit

theorem AllStates.head {P : History α → Prop} {ops : List (Op α)} (h : AllStates cmp hash P s ops) :
    P s := by
  cases ops with
  | nil => exact h
  | cons op ops => exact h.1

theorem Ordered.searchable_iff [TransCmp cmp] (hcompat : ∀ a b, cmp a b = .eq → hash a = hash b)
    (ops : List (Op α)) (h : Ordered cmp hash s) :
    AllStates cmp hash (Searchable cmp hash) s ops ↔
      AllSteps cmp hash (Fits cmp hash) s ops := by
  induction ops generalizing s with
  | nil => exact ⟨fun _ => trivial, fun _ => h.searchable hcompat⟩
  | cons op ops ih =>
    constructor
    · rintro ⟨-, s', hstep, hrest⟩
      have hfit : Fits cmp hash s op := by
        by_contra hfit
        obtain ⟨s'', hstep', hbad⟩ := h.step_not_searchable hfit
        rw [hstep] at hstep'
        cases hstep'
        exact hbad hrest.head
      refine ⟨hfit, fun s'' hstep' => ?_⟩
      obtain ⟨s₁, hs₁, hord⟩ := h.step hcompat hfit
      rw [hstep'] at hs₁
      cases hs₁
      rw [hstep] at hstep'
      cases hstep'
      exact (ih hord).mp hrest
    · rintro ⟨hfit, hrest⟩
      obtain ⟨s', hs', hord⟩ := h.step hcompat hfit
      exact ⟨h.searchable hcompat, s', hs', (ih hord).mpr (hrest s' hs')⟩

/-- The chains can be searched in all states of a run exactly when every new
element of the run is greater than no stored element with its hash. -/
theorem chains_searchable_iff [TransCmp cmp]
    (hcompat : ∀ a b, cmp a b = .eq → hash a = hash b) (ops : List (Op α)) :
    AllStates cmp hash (Searchable cmp hash) History.start ops ↔
      AllSteps cmp hash (Fits cmp hash) History.start ops :=
  ordered_start.searchable_iff hcompat ops

/-- Two elements with one hash, inserted in descending order. -/
theorem chains_searchable_iff_two_one :
    AllSteps compare (fun _ : ℕ => (0 : UInt32)) (Fits compare fun _ => 0) History.start
        [.insert Mem.full 2, .insert Mem.full 1] ∧
      AllStates compare (fun _ : ℕ => (0 : UInt32)) (Searchable compare fun _ => 0) History.start
        [.insert Mem.full 2, .insert Mem.full 1] := by
  have hsteps : AllSteps compare (fun _ : ℕ => (0 : UInt32)) (Fits compare fun _ => 0)
      History.start [.insert Mem.full 2, .insert Mem.full 1] := by
    refine ⟨fun _ => .inr (by simp [History.start]), fun s' hs' => ?_⟩
    cases hs'
    refine ⟨fun _ => .inr ?_, fun _ _ => trivial⟩
    intro x hx _
    obtain rfl : x = 2 := by simpa [History.start] using hx
    decide
  exact ⟨hsteps, (chains_searchable_iff (fun _ _ _ => rfl) _).mpr hsteps⟩

/-- Two elements with one hash, inserted in ascending order: the second one is
in the table, is not found, and is inserted a second time. -/
theorem ascending_collision_not_searchable :
    ∃ s : History ℕ, (History.start.step compare (fun _ => 0) (.insert Mem.full 1)).bind
        (·.step compare (fun _ => 0) (.insert Mem.full 2)) = some s ∧ s.live = [2, 1] ∧
      (frHashTableFind compare (fun _ => 0) s.table 2).map Prod.snd = some none ∧
      (frHashTableInsert compare (fun _ => 0) Mem.full s.table 2).map Prod.snd = some true ∧
      ¬ AllStates compare (fun _ : ℕ => (0 : UInt32)) (Searchable compare fun _ => 0)
        History.start [.insert Mem.full 1, .insert Mem.full 2] := by
  refine ⟨_, rfl, rfl, rfl, rfl, ?_⟩
  rintro ⟨-, s₁, hs₁, -, s₂, hs₂, hsearch⟩
  cases hs₁
  cases hs₂
  obtain ⟨t, ht⟩ := hsearch.find 2 2 (by decide) rfl
  cases ht

end FreeRadius.Hash
