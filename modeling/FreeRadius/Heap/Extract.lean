import FreeRadius.Heap.Bubble

/-!
# Insertion and extraction

`fr_heap_extract` sinks the hole to a leaf, may shrink the array, and then
fills the hole from the slot that was the last one before the extraction. The
array keeps that slot: it is shrunk only when less than half of it is in use.
-/

namespace FreeRadius.Heap

open Library
open Std (TransCmp OrientedCmp ReflCmp)

variable {α : Type} {cmp : α → α → Ordering} {s : Indexed α} {data : α} {hole max : ℕ}

/-- The invariant of a heap between two calls. -/
structure Invariant (cmp : α → α → Ordering) (s : FrHeap α) : Prop where
  size_pos : 1 ≤ s.size
  size_lt : s.size < uintMax
  cells : s.slots.p.size = s.size + 1
  settled : Settled cmp s.slots s.numElements

theorem Invariant.num_le {s : FrHeap α} (h : Invariant cmp s) : s.numElements ≤ s.size := by
  have h1 := h.settled.cells
  have h2 := h.cells
  omega

theorem Settled.root_le [TransCmp cmp] {n : ℕ} (h : Settled cmp s n) :
    ∀ i, 1 ≤ i → i ≤ n → SlotLe cmp s 1 i := by
  intro i
  induction i using Nat.strong_induction_on with
  | _ i ih =>
    intro h1 hn
    by_cases hi : i = 1
    · subst hi
      exact SlotLe.refl s 1
    · obtain ⟨x, hx, -⟩ := h.complete.filled (i / 2) (by omega) (by omega)
      exact (ih (i / 2) (by omega) (by omega) (by omega)).trans (h.order i (by omega) hn) ⟨x, hx⟩

/-! ## Sinking the hole -/

/-- What the loop of `fr_heap_extract` keeps: `data` is gone, its slot is a
hole, and the rest of the heap is in order. -/
structure Sinking (cmp : α → α → Ordering) (s : Indexed α) (max hole : ℕ) (data : α) : Prop where
  hole_pos : 1 ≤ hole
  hole_le : hole ≤ max
  cells : max < s.p.size
  placed : s.Placed max hole data
  order : OrderedExcept cmp s max hole
  gone : s.index data = 0

theorem heapLeft_eq {i : ℕ} (h : i < 2 ^ 31) : heapLeft i = 2 * i :=
  u32_of_lt (by omega)

theorem smallerChild_spec [TransCmp cmp] (h : Sinking cmp s max hole data) (hc : 2 * hole ≤ max) :
    ∃ c, smallerChild cmp s max (2 * hole) = some c ∧ c / 2 = hole ∧ c ≤ max ∧
      ∀ d, d ≤ max → d / 2 = hole → SlotLe cmp s c d := by
  have hpos := h.hole_pos
  have hchild : ∀ d, d / 2 = hole → d = 2 * hole ∨ d = 2 * hole + 1 := by
    intro d hd
    omega
  by_cases hlast : 2 * hole = max
  · refine ⟨2 * hole, by simp [smallerChild, hlast], by omega, hc, ?_⟩
    intro d hdm hd
    rcases hchild d hd with rfl | rfl
    · exact SlotLe.refl s _
    · omega
  obtain ⟨l, -, hl, -⟩ := h.placed.filled (2 * hole) (by omega) hc (by omega)
  obtain ⟨r, -, hr, -⟩ := h.placed.filled (2 * hole + 1) (by omega) (by omega) (by omega)
  by_cases hlt : cmp r l = .lt
  · refine ⟨2 * hole + 1, by simp [smallerChild, hlast, hl, hr, hlt], by omega, by omega, ?_⟩
    intro d hdm hd
    rcases hchild d hd with rfl | rfl
    · intro u v hu hv
      rw [hr] at hu
      rw [hl] at hv
      cases hu
      cases hv
      simp [hlt]
    · exact SlotLe.refl s _
  · refine ⟨2 * hole, by simp [smallerChild, hlast, hl, hr, hlt], by omega, by omega, ?_⟩
    intro d hdm hd
    rcases hchild d hd with rfl | rfl
    · exact SlotLe.refl s _
    intro u v hu hv
    rw [hl] at hu
    rw [hr] at hv
    cases hu
    cases hv
    exact OrientedCmp.isGE_iff_isLE.mp (Ordering.isGE_iff_ne_lt.mpr hlt)

/-! ## The shrinking reallocation and the slot read after it -/

/-- The array is left alone or halved, and halved only with less than half of
it in use. -/
theorem shrink_cases (ok : Bool) (s : FrHeap α) (hnum : s.numElements < 2 ^ 31)
    (hpos : 1 ≤ s.size) (hlt : s.size < uintMax) :
    shrink ok s = s ∨ s.numElements * 2 < s.size ∧
      shrink ok s = { s with
        size := (s.size + 1) / 2
        slots := { s.slots with p := s.slots.p.realloc ((s.size + 1) / 2 + 1) } } := by
  have hmul : u32 (s.numElements * 2) = s.numElements * 2 := u32_of_lt (by omega)
  have hround : roundUpDiv s.size 2 = (s.size + 1) / 2 := by
    unfold roundUpDiv
    omega
  have hslots : u32 ((s.size + 1) / 2 + 1) = (s.size + 1) / 2 + 1 := by
    apply u32_of_lt
    unfold uintMax at hlt
    omega
  simp only [shrink, reallocHeap, hmul, hround, hslots]
  split_ifs with hhalf hmin hok
  · exact .inr ⟨hhalf, rfl⟩
  all_goals exact .inl rfl

/-- A shrunken array has `⌈size / 2⌉ + 1` cells, and these still include the
cell that was the last one in use before the element was taken out. -/
theorem shrink_spec (ok : Bool) (s : FrHeap α) (hnum : s.numElements < 2 ^ 31)
    (hpos : 1 ≤ s.size) (hlt : s.size < uintMax) (hcells : s.slots.p.size = s.size + 1)
    (hmax : s.numElements + 1 < s.slots.p.size) :
    (shrink ok s).slots.index = s.slots.index ∧ (shrink ok s).numElements = s.numElements ∧
      (shrink ok s).slots.p.size = (shrink ok s).size + 1 ∧
      ((shrink ok s).size = s.size ∨ (shrink ok s).size = (s.size + 1) / 2) ∧
      s.numElements + 1 < (shrink ok s).slots.p.size ∧
      ∀ i, i ≤ s.numElements + 1 → (shrink ok s).slots.p.read i = s.slots.p.read i := by
  rcases shrink_cases ok s hnum hpos hlt with he | ⟨hhalf, he⟩
  · rw [he]
    exact ⟨rfl, rfl, hcells, .inl rfl, hmax, fun _ _ => rfl⟩
  rw [he]
  refine ⟨rfl, rfl, Block.size_realloc _ _, .inr rfl, ?_, ?_⟩
  · rw [Block.size_realloc]
    omega
  · intro i hi
    exact Block.read_realloc (by omega)

/-- A sunken hole, filled from the old last slot, is where bubbling starts. -/
theorem Sinking.bubbling {t : Indexed α} {y : α}
    (h : Sinking cmp s max hole data) (hleaf : max < 2 * hole) (hne : hole ≠ max)
    (hy : s.p.read max = some y) (hcells : max < t.p.size) (hindex : t.index = s.index)
    (hread : ∀ i, i ≤ max → t.p.read i = if i = hole then some y else s.p.read i) :
    Bubbling cmp t (max - 1) hole y := by
  have hpos := h.hole_pos
  have hle := h.hole_le
  have hother : ∀ i, i ≤ max → i ≠ hole → t.p.read i = s.p.read i := by
    intro i him hi
    simp [hread i him, hi]
  refine ⟨hpos, by omega, by omega, h.placed.fill hle hne h.gone hy hindex hother,
    by simp [hread hole hle], ⟨?_, ?_⟩, ?_⟩
  · intro i h2 hi hih hph
    exact (h.order.off i h2 (by omega) hih hph).congr (hother _ (by omega) hph)
      (hother i (by omega) hih)
  · intro _ c hc hch
    omega
  · intro c hc hch
    omega

/-! ## The loop that sinks the hole -/

variable [DecidableEq α]

/-- One turn of the loop: the content `x` of the child `c` rises into the hole. -/
theorem Sinking.sink {s' : Indexed α} {c : ℕ} {x : α} (h : Sinking cmp s max hole data)
    (hc : c / 2 = hole) (hcm : c ≤ max) (hmin : ∀ d, d ≤ max → d / 2 = hole → SlotLe cmp s c d)
    (hx : s.p.read c = some x) (hcells : s'.p.size = s.p.size)
    (hread : ∀ i, s'.p.read i = if i = hole then some x else s.p.read i)
    (hindex : s'.index = Function.update s.index x hole) : Sinking cmp s' max c data := by
  have hpos := h.hole_pos
  have hne : c ≠ hole := by omega
  have hhole : s'.p.read hole = s.p.read c := by simp [hread, hx]
  have hother : ∀ i, i ≠ hole → s'.p.read i = s.p.read i := by
    intro i hi
    simp [hread, hi]
  have hxd := (h.placed.index_eq (by omega) hcm hne hx).1
  constructor
  · omega
  · exact hcm
  · rw [hcells]
    exact h.cells
  · apply h.placed.move ⟨hpos, h.hole_le⟩ ⟨by omega, hcm⟩ hne hx _ hindex
    intro i _
    exact hread i
  · constructor
    · intro i h2 him hic hpc
      by_cases hih : i = hole
      · subst hih
        exact (h.order.grand h2 c hcm hc).congr (hother _ (by omega)) hhole
      by_cases hph : i / 2 = hole
      · rw [hph]
        exact (hmin i him hph).congr hhole (hother i hih)
      · exact (h.order.off i h2 him hih hph).congr (hother _ hph) (hother i hih)
    · intro h2 d hdm hd
      rw [hc]
      have hpair := h.order.off d (by omega) hdm (by omega) (by omega)
      rw [hd] at hpair
      exact hpair.congr hhole (hother d (by omega))
  · simp [hindex, hxd.symm, h.gone]

theorem sinkLoop_spec [TransCmp cmp] (fuel : ℕ) (hmax : max < 2 ^ 31) (hfuel : max < hole + fuel)
    (h : Sinking cmp s max hole data) :
    ∃ s' hole', sinkLoop cmp max fuel s hole = some (s', hole') ∧ s'.p.size = s.p.size ∧
      Sinking cmp s' max hole' data ∧ max < 2 * hole' ∧
      ∀ x, s'.index x ≠ 0 ↔ s.index x ≠ 0 := by
  induction fuel generalizing s hole with
  | zero =>
    have := h.hole_le
    omega
  | succ fuel ih =>
    have hle := h.hole_le
    have hpos := h.hole_pos
    have hleft : heapLeft hole = 2 * hole := heapLeft_eq (by omega)
    by_cases hc : 2 * hole ≤ max
    · obtain ⟨c, hcs, hch, hcm, hmin⟩ := smallerChild_spec h hc
      obtain ⟨x, hxd, hx, hxi⟩ := h.placed.filled c (by omega) hcm (by omega)
      obtain ⟨s₁, hs₁, hsz₁, hix₁, hrd₁⟩ := s.setSlot_spec (i := hole) x
        (lt_of_le_of_lt hle h.cells)
      have hhole : s₁.p.read hole = some x := by simp [hrd₁]
      have hnext : Sinking cmp (s₁.indexSet x hole) max c data := by
        refine h.sink hch hcm hmin hx hsz₁ hrd₁ ?_
        simp [Indexed.indexSet, hix₁]
      obtain ⟨s', hole', hrun, hsz, hsink, hleaf, hmem⟩ := ih (by omega) hnext
      refine ⟨s', hole', ?_, hsz.trans hsz₁, hsink, hleaf, ?_⟩
      · simp [sinkLoop, hleft, hc, hcs, hx, hs₁, Indexed.offsetSet_spec hhole, hrun]
      · intro z
        rw [hmem z, s₁.indexSet_ne_zero_of_ne_zero (by omega) (by rw [hix₁]; omega), hix₁]
    · refine ⟨s, hole, by simp [sinkLoop, hleft, hc], rfl, h, by omega, ?_⟩
      exact fun _ => Iff.rfl

theorem fillHole_spec [TransCmp cmp] {t : Indexed α} (h : Sinking cmp s max hole data)
    (hleaf : max < 2 * hole) (hcells : max < t.p.size)
    (hindex : t.index = s.index) (hread : ∀ i, i ≤ max → t.p.read i = s.p.read i) :
    ∃ t', fillHole cmp t max hole = some t' ∧ t'.p.size = t.p.size ∧
      Settled cmp t' (max - 1) ∧ ∀ x, t'.index x ≠ 0 ↔ s.index x ≠ 0 := by
  have hle := h.hole_le
  by_cases hne : hole ≠ max
  · obtain ⟨y, -, hy, hyi⟩ := h.placed.filled max (by omega) le_rfl (fun he => hne he.symm)
    obtain ⟨t₁, ht₁, hsz₁, hix₁, hrd₁⟩ := t.setSlot_spec (i := hole) y (by omega)
    have hb : Bubbling cmp t₁ (max - 1) hole y := by
      refine h.bubbling hleaf hne hy (by rw [hsz₁]; exact hcells) (hix₁.trans hindex) ?_
      intro i hi
      rw [hrd₁, hread i hi]
    obtain ⟨t', ht', hsz, hset, hmem⟩ := frHeapBubble_spec hb
    refine ⟨t', ?_, hsz.trans hsz₁, hset, ?_⟩
    · simp [fillHole, hne, hread max le_rfl, hy, ht₁, ht']
    intro x
    rw [hmem x, hix₁, hindex]
    constructor
    · rintro (rfl | hx)
      · omega
      · exact hx
    · exact .inr
  · have he : hole = max := by simpa using hne
    subst he
    refine ⟨t, by simp [fillHole], rfl, ⟨by omega, ?_, ?_⟩, ?_⟩
    · exact (h.placed.dropLast h.gone).congr hindex fun i _ hi => hread i (by omega)
    · intro i h2 hi
      exact (h.order.off i h2 (by omega) (by omega) (by omega)).congr
        (hread _ (by omega)) (hread _ (by omega))
    · intro x
      rw [hindex]

/-! ## The operations -/

theorem Settled.sinking [TransCmp cmp] {n : ℕ} (h : Settled cmp s n) (hpos : 1 ≤ hole)
    (hle : hole ≤ n) (hdata : s.p.read hole = some data) :
    Sinking cmp (s.indexSet data 0) n hole data := by
  refine ⟨hpos, hle, h.cells, h.complete.remove ⟨hpos, hle⟩ hdata, ⟨?_, ?_⟩,
    s.indexSet_self data 0⟩
  · intro i h2 hn _ _
    exact h.order i h2 hn
  · intro h2 c hc hch
    have hpair := h.order c (by omega) hc
    rw [hch] at hpair
    exact (h.order hole h2 hle).trans hpair ⟨data, hdata⟩

/-- What a successful extraction does. `data` leaves the heap and nothing else
does; a shrunken array has `⌈size / 2⌉ + 1` cells. -/
theorem frHeapExtract_mem [TransCmp cmp] {s : FrHeap α} (ok : Bool) (h : Invariant cmp s)
    (hnum : s.numElements < 2 ^ 31) (hdata : s.slots.index data ≠ 0) :
    ∃ s', frHeapExtract cmp ok s data = some (s', .ok ()) ∧ Invariant cmp s' ∧
      s'.numElements + 1 = s.numElements ∧
      (s'.size = s.size ∨ s'.size = (s.size + 1) / 2) ∧
      s.numElements < s'.slots.p.size ∧
      ∀ x, s'.slots.index x ≠ 0 ↔ x ≠ data ∧ s.slots.index x ≠ 0 := by
  obtain ⟨hpos, hle, hread⟩ := h.settled.complete.stored data hdata
  obtain ⟨s₁, hole, hrun, hsz₁, hs₁, hleaf, hmem₁⟩ := sinkLoop_spec (s.numElements + 1) hnum
    (by omega) (h.settled.sinking hpos hle hread)
  have hcl₁ : s₁.p.size = s.size + 1 := hsz₁.trans h.cells
  have hnum_le := h.num_le
  have hsize_pos := h.size_pos
  have hsize_lt := h.size_lt
  obtain ⟨hix, hne, hcl, hsize, hlast, hrd⟩ := shrink_spec ok
    { s with numElements := s.numElements - 1, slots := s₁ } (by simp only; omega) hsize_pos
    hsize_lt hcl₁ (by simp only; omega)
  have hmax : s.numElements - 1 + 1 = s.numElements := by omega
  simp only [hmax] at hix hne hcl hsize hlast hrd
  obtain ⟨s₂, hs₂, hsz₂, hset, hmem₂⟩ := fillHole_spec hs₁ hleaf hlast hix hrd
  refine ⟨{ shrink ok { s with numElements := s.numElements - 1, slots := s₁ } with
    slots := s₂ }, ?_, ⟨by simp only; omega, by simp only; omega, ?_, ?_⟩, ?_, hsize, ?_, ?_⟩
  · have hguard : ¬ (s.slots.index data = 0 ∨ s.numElements < s.slots.index data) := by omega
    simp only [frHeapExtract, if_neg hguard, hread, Indexed.offsetReset_spec hread, hrun,
      Option.bind_eq_bind, Option.bind_some, ne_eq, not_true_eq_false, if_false, hs₂]
  · exact hsz₂.trans hcl
  · simp only [hne]
    exact hset
  · simp only [hne]
    omega
  · simp only [hsz₂]
    exact hlast
  · intro x
    rw [hmem₂ x, hmem₁ x, Indexed.indexSet_zero_ne_zero_iff]

theorem insertAt_spec [TransCmp cmp] {s : FrHeap α} (data : α) (hpos : 1 ≤ s.size)
    (hlt : s.size < uintMax) (hcells : s.slots.p.size = s.size + 1)
    (hset : Settled cmp s.slots s.numElements) (hroom : s.numElements < s.size)
    (hdata : s.slots.index data = 0) :
    ∃ s', insertAt cmp s (s.numElements + 1) data = some (s', .ok ()) ∧ Invariant cmp s' ∧
      s'.numElements = s.numElements + 1 ∧
      ∀ x, s'.slots.index x ≠ 0 ↔ x = data ∨ s.slots.index x ≠ 0 := by
  obtain ⟨s₁, hs₁, hsz₁, hix₁, hrd₁⟩ := s.slots.setSlot_spec (i := s.numElements + 1) data
    (by omega)
  have hnum : u32 (s.numElements + 1) = s.numElements + 1 := by
    apply u32_of_lt
    unfold uintMax at hlt
    omega
  have hold : ∀ i, i ≤ s.numElements → s₁.p.read i = s.slots.p.read i := by
    intro i hi
    rw [hrd₁, if_neg (by omega)]
  have hb : Bubbling cmp s₁ (s.numElements + 1) (s.numElements + 1) data := by
    refine ⟨by omega, le_rfl, by omega, hset.complete.append hdata hix₁ hold, by simp [hrd₁],
      ⟨?_, ?_⟩, ?_⟩
    · intro i h2 hi hne hpar
      exact (hset.order i h2 (by omega)).congr (hold _ (by omega)) (hold _ (by omega))
    · intro _ c hc hch
      omega
    · intro c hc hch
      omega
  obtain ⟨s', hs', hsz, hset', hmem⟩ := frHeapBubble_spec hb
  refine ⟨{ s with numElements := s.numElements + 1, slots := s' }, ?_,
    ⟨hpos, hlt, (hsz.trans hsz₁).trans hcells, hset'⟩, rfl, ?_⟩
  · simp [insertAt, hs₁, hnum, hs']
  · intro x
    rw [hmem x, hix₁]

/-- A call of `fr_heap_insert` either adds `data` or fails without a trace. -/
theorem frHeapInsert_spec [TransCmp cmp] {s : FrHeap α} (ok : Bool) (h : Invariant cmp s)
    (hnum : s.numElements < 2 ^ 31) (data : α) :
    (∃ e, frHeapInsert cmp ok s data = some (s, .error e)) ∨
      ∃ s', frHeapInsert cmp ok s data = some (s', .ok ()) ∧ Invariant cmp s' ∧
        s.slots.index data = 0 ∧ s'.numElements = s.numElements + 1 ∧
        ∀ x, s'.slots.index x ≠ 0 ↔ x = data ∨ s.slots.index x ≠ 0 := by
  by_cases hin : s.slots.index data ≠ 0
  · left
    exact ⟨.alreadyInHeap, by simp [frHeapInsert, frHeapEntryInserted, indexInvalid, hin]⟩
  have hdata : s.slots.index data = 0 := by simpa using hin
  have hentry : frHeapEntryInserted (s.slots.index data) = false := by
    simp [frHeapEntryInserted, indexInvalid, hdata]
  have hchild : u32 (s.numElements + 1) = s.numElements + 1 := u32_of_lt (by omega)
  have hpos := h.size_pos
  have hnum_le := h.num_le
  by_cases hfull : s.size < s.numElements + 1
  · have hexp : expandedSize s.size = (.ok (s.size * 2) : Except (HeapError α) ℕ) := by
      rw [expandedSize, if_neg]
      unfold uintMax
      omega
    have hslots : u32 (s.size * 2 + 1) = s.size * 2 + 1 := u32_of_lt (by omega)
    by_cases hok : ok = true
    · right
      have hrd : ∀ i, i ≤ s.numElements →
          (s.slots.p.realloc (s.size * 2 + 1)).read i = s.slots.p.read i := by
        intro i hi
        exact Block.read_realloc (by omega)
      have hset : Settled cmp { s.slots with p := s.slots.p.realloc (s.size * 2 + 1) }
          s.numElements := by
        refine ⟨by simp; omega, h.settled.complete.congr rfl fun i _ hi => hrd i hi, ?_⟩
        intro i h2 hi
        exact (h.settled.order i h2 hi).congr (hrd _ (by omega)) (hrd _ hi)
      obtain ⟨s', hs', hinv, hn', hmem⟩ := @insertAt_spec _ cmp _ _ { s with
        size := s.size * 2
        slots := { s.slots with p := s.slots.p.realloc (s.size * 2 + 1) } } data
        (by simp; omega) (by simp [uintMax]; omega) (by simp) hset (by simp; omega) hdata
      refine ⟨s', ?_, hinv, hdata, hn', hmem⟩
      simp only [frHeapInsert, hentry, Bool.false_eq_true, if_false, hchild, if_pos hfull, hexp,
        reallocHeap, hok, if_true, hslots]
      exact hs'
    · left
      refine ⟨.reallocFailed (s.size * 2) (u32 (s.size * 2 * 8)), ?_⟩
      simp [frHeapInsert, hentry, hchild, hfull, hexp, reallocHeap, hok]
  · right
    obtain ⟨s', hs', hinv, hn', hmem⟩ := insertAt_spec data hpos h.size_lt h.cells
      h.settled (by omega) hdata
    refine ⟨s', ?_, hinv, hdata, hn', hmem⟩
    simp [frHeapInsert, hentry, hchild, hfull, hs']

end FreeRadius.Heap
