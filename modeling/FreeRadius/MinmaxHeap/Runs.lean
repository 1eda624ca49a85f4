import FreeRadius.MinmaxHeap.Down

/-!
# Every run of the min-max heap

One call keeps the invariant of the heap and does what it promises; by
induction the same holds in every state of every run.
-/

namespace FreeRadius.MinmaxHeap

open Library Library.MinMax
open Std (TransCmp OrientedCmp ReflCmp)

variable {α : Type} {cmp : α → α → Ordering} {h : FrMinmaxHeap α} {s : Indexed α} {n : ℕ}

/-- The order of the elements in the slots `1 .. n` of an array. -/
def OrderedSlots (cmp : α → α → Ordering) (s : Indexed α) (n : ℕ) : Prop :=
  ∀ i j a b, Above i j → j ≤ n → s.p.read i = some a → s.p.read j = some b →
    Leads cmp (lead i) a b

/-- The invariant of a heap between two calls. -/
structure Invariant (cmp : α → α → Ordering) (h : FrMinmaxHeap α) : Prop where
  size_pos : 1 ≤ h.size
  cells : h.slots.p.size = h.size + 1
  num_le : h.numElements ≤ h.size
  complete : h.slots.Complete h.numElements
  order : OrderedSlots cmp h.slots h.numElements

def InHeap (h : FrMinmaxHeap α) (x : α) : Prop :=
  ∃ i, 1 ≤ i ∧ i ≤ h.numElements ∧ h.slots.p.read i = some x

/-- Every slot in use holds an element that records the slot and stands, on a
min level at or before, on a max level at or after, everything below it;
elements in no slot record zero. -/
structure WellFormed (cmp : α → α → Ordering) (h : FrMinmaxHeap α) : Prop where
  filled : ∀ i, 1 ≤ i → i ≤ h.numElements → ∃ x, h.slots.p.read i = some x
  min_level : ∀ i j a b, Above i j → j ≤ h.numElements → isMinLevelIndex i = true →
    h.slots.p.read i = some a → h.slots.p.read j = some b → (cmp a b).isLE
  max_level : ∀ i j a b, Above i j → j ≤ h.numElements → isMaxLevelIndex i = true →
    h.slots.p.read i = some a → h.slots.p.read j = some b → (cmp a b).isGE
  index_slot : ∀ i x, 1 ≤ i → i ≤ h.numElements → h.slots.p.read i = some x → h.slots.index x = i
  index_zero : ∀ x, ¬ InHeap h x → h.slots.index x = 0

/-- What a call promises about its result and the state it leaves. -/
def Promise (cmp : α → α → Ordering) (h h' : FrMinmaxHeap α) : Op α → Result α → Prop
  | .insert data, .code (.ok ()) => ¬ InHeap h data ∧ ∀ x, InHeap h' x ↔ x = data ∨ InHeap h x
  | .insert _, .code (.error _) => h' = h
  | .extract data, .code (.ok ()) => InHeap h data ∧ ∀ x, InHeap h' x ↔ x ≠ data ∧ InHeap h x
  | .extract data, .code (.error _) => ¬ InHeap h data ∧ h' = h
  | .minPop, .data (some y) =>
    InHeap h y ∧ (∀ x, InHeap h x → (cmp y x).isLE) ∧ ∀ x, InHeap h' x ↔ x ≠ y ∧ InHeap h x
  | .maxPop, .data (some y) =>
    InHeap h y ∧ (∀ x, InHeap h x → (cmp y x).isGE) ∧ ∀ x, InHeap h' x ↔ x ≠ y ∧ InHeap h x
  | .minPeek, .data (some y) => InHeap h y ∧ (∀ x, InHeap h x → (cmp y x).isLE) ∧ h' = h
  | .maxPeek, .data (some y) => InHeap h y ∧ (∀ x, InHeap h x → (cmp y x).isGE) ∧ h' = h
  | .minPop, .data none => h.numElements = 0 ∧ h' = h
  | .maxPop, .data none => h.numElements = 0 ∧ h' = h
  | .minPeek, .data none => h.numElements = 0 ∧ h' = h
  | .maxPeek, .data none => h.numElements = 0 ∧ h' = h
  | _, _ => False

theorem Invariant.inHeap_iff (hi : Invariant cmp h) (x : α) : InHeap h x ↔ h.slots.index x ≠ 0 :=
  (hi.complete.index_ne_zero_iff x).symm

variable {a b y data : α} {hole : ℕ} {v : ℕ → α}

theorem leads_lt_iff [OrientedCmp cmp] : Leads cmp .lt a b ↔ (cmp a b).isLE := by
  rw [Leads, ne_eq, ← Ordering.isGE_iff_ne_lt]
  exact OrientedCmp.isGE_iff_isLE

theorem leads_gt_iff [OrientedCmp cmp] : Leads cmp .gt a b ↔ (cmp a b).isGE := by
  rw [Leads, ne_eq, ← Ordering.isLE_iff_ne_gt]
  exact OrientedCmp.isGE_iff_isLE.symm

theorem Invariant.wellFormed [OrientedCmp cmp] (hi : Invariant cmp h) : WellFormed cmp h := by
  constructor
  · intro i h1 hn
    obtain ⟨x, hx, -⟩ := hi.complete.filled i h1 hn
    exact ⟨x, hx⟩
  · intro i j a b hij hj hmin ha hb
    have hl := hi.order i j a b hij hj ha hb
    rwa [(isMinLevelIndex_iff hij.pos).mp hmin, leads_lt_iff] at hl
  · intro i j a b hij hj hmax ha hb
    have hl := hi.order i j a b hij hj ha hb
    have hmin : ¬ isMinLevelIndex i = true := by simpa [isMaxLevelIndex] using hmax
    rwa [lead_eq_gt hij.pos hmin, leads_gt_iff] at hl
  · intro i x h1 hn hx
    exact hi.complete.index_eq h1 hn hx
  · intro x hx
    rw [hi.inHeap_iff] at hx
    exact not_not.mp hx

/-! ## The first and the last element -/

theorem frMinmaxHeapMinPeek_spec [TransCmp cmp] (hi : Invariant cmp h) :
    h.numElements = 0 ∧ frMinmaxHeapMinPeek h = some none ∨
      ∃ y, frMinmaxHeapMinPeek h = some (some y) ∧ InHeap h y ∧
        ∀ x, InHeap h x → (cmp y x).isLE := by
  by_cases hpos : h.numElements = 0
  · exact .inl ⟨hpos, by simp [frMinmaxHeapMinPeek, hpos]⟩
  right
  obtain ⟨y, hy, -⟩ := hi.complete.filled 1 le_rfl (by omega)
  refine ⟨y, by simp [frMinmaxHeapMinPeek, hpos, hy], ⟨1, le_rfl, by omega, hy⟩, ?_⟩
  rintro x ⟨i, h1, hn, hx⟩
  by_cases hi1 : i = 1
  · rw [hi1, hy] at hx
    cases hx
    exact ReflCmp.isLE_rfl
  · exact leads_lt_iff.mp (hi.order 1 i y x (Above.of_root (by omega)) hn hy hx)

/-- The greater one of the root's two children is a last element. -/
theorem Invariant.child_greatest [TransCmp cmp] (hi : Invariant cmp h) (hn3 : 3 ≤ h.numElements)
    {z : α} {k l : ℕ} (hkl : k = 2 ∧ l = 3 ∨ k = 3 ∧ l = 2) (hy : h.slots.p.read k = some y)
    (hz : h.slots.p.read l = some z) (hyz : (cmp y z).isGE) : ∀ x, InHeap h x → (cmp y x).isGE := by
  have hlead : lead k = .gt ∧ lead l = .gt := by
    rcases hkl with ⟨rfl, rfl⟩ | ⟨rfl, rfl⟩ <;> exact ⟨rfl, rfl⟩
  rintro x ⟨i, h1, hn, hx⟩
  by_cases hik : i = k
  · rw [hik, hy] at hx
    cases hx
    exact OrientedCmp.isGE_iff_isLE.mpr ReflCmp.isLE_rfl
  by_cases hil : i = l
  · rw [hil, hz] at hx
    cases hx
    exact hyz
  by_cases hi1 : i = 1
  · subst hi1
    have hd := leads_lt_iff.mp (hi.order 1 k x y (Above.of_root (by omega)) (by omega) hx hy)
    exact OrientedCmp.isGE_iff_isLE.mpr hd
  have hbelow : Above k i ∨ Above l i := by
    rcases hkl with ⟨rfl, rfl⟩ | ⟨rfl, rfl⟩
    · exact Above.of_root_children (by omega)
    · exact (Above.of_root_children (by omega)).symm
  rcases hbelow with hb | hb
  · have hd := hi.order k i y x hb hn hy hx
    rwa [hlead.1, leads_gt_iff] at hd
  · have hd := hi.order l i z x hb hn hz hx
    rw [hlead.2, leads_gt_iff] at hd
    exact TransCmp.isGE_trans hyz hd

theorem frMinmaxHeapMaxPeek_spec [TransCmp cmp] (hi : Invariant cmp h) :
    h.numElements = 0 ∧ frMinmaxHeapMaxPeek cmp h = some none ∨
      ∃ y, frMinmaxHeapMaxPeek cmp h = some (some y) ∧ InHeap h y ∧
        ∀ x, InHeap h x → (cmp y x).isGE := by
  by_cases hpos : h.numElements = 0
  · exact .inl ⟨hpos, by simp [frMinmaxHeapMaxPeek, hpos]⟩
  right
  by_cases h3 : h.numElements < 3
  · obtain ⟨y, hy, -⟩ := hi.complete.filled h.numElements (by omega) le_rfl
    refine ⟨y, by simp [frMinmaxHeapMaxPeek, hpos, h3, hy],
      ⟨h.numElements, by omega, le_rfl, hy⟩, ?_⟩
    rintro x ⟨i, h1, hn, hx⟩
    by_cases hin : i = h.numElements
    · rw [hin, hy] at hx
      cases hx
      exact OrientedCmp.isGE_iff_isLE.mpr ReflCmp.isLE_rfl
    · have hi1 : i = 1 := by omega
      subst hi1
      have hd := hi.order 1 _ x y (Above.of_root (by omega)) le_rfl hx hy
      exact OrientedCmp.isGE_iff_isLE.mpr (leads_lt_iff.mp hd)
  · obtain ⟨y, hy, -⟩ := hi.complete.filled 2 (by omega) (by omega)
    obtain ⟨z, hz, -⟩ := hi.complete.filled 3 (by omega) (by omega)
    by_cases hlt : cmp y z = .lt
    · refine ⟨z, by simp [frMinmaxHeapMaxPeek, hpos, h3, hy, hz, hlt], ⟨3, by omega, by omega, hz⟩,
        hi.child_greatest (by omega) (.inr ⟨rfl, rfl⟩) hz hy ?_⟩
      exact OrientedCmp.isGE_iff_isLE.mpr (by simp [hlt])
    · refine ⟨y, by simp [frMinmaxHeapMaxPeek, hpos, h3, hy, hz, hlt], ⟨2, by omega, by omega, hy⟩,
        hi.child_greatest (by omega) (.inl ⟨rfl, rfl⟩) hy hz ?_⟩
      exact Ordering.isGE_iff_ne_lt.mpr hlt

/-! ## Insertion and extraction -/

theorem exists_reads (x : α)
    (h : ∀ i, 1 ≤ i → i ≤ n → ∃ y, s.p.read i = some y) : ∃ v, Reads s n v := by
  refine ⟨fun i => (s.p.read i).getD x, ?_⟩
  intro i h1 hn
  obtain ⟨y, hy⟩ := h i h1 hn
  simp [hy]

theorem Placed.sifting (h : s.Placed n hole y) (hpos : 1 ≤ hole) (hle : hole ≤ n)
    (hy : s.p.read hole = some y) : ∃ v, Sifting s n hole v ∧ v hole = y := by
  have hfill : ∀ i, 1 ≤ i → i ≤ n → ∃ x, s.p.read i = some x := by
    intro i h1 hn
    by_cases hi : i = hole
    · exact ⟨y, hi ▸ hy⟩
    · obtain ⟨x, -, hx, -⟩ := h.filled i h1 hn hi
      exact ⟨x, hx⟩
  obtain ⟨v, hv⟩ := exists_reads y hfill
  have hvy : v hole = y := by
    have := hv hole hpos hle
    rw [hy] at this
    exact (Option.some.inj this).symm
  exact ⟨v, ⟨hpos, hle, hv, hvy.symm ▸ h⟩, hvy⟩

theorem OrderedSlots.orderedOff {t : Indexed α} {m : ℕ} (h : OrderedSlots cmp s n)
    (hv : Reads t m v) (hm : ∀ j, j ≤ m → j ≠ hole → j ≤ n)
    (hread : ∀ i, i ≤ m → i ≠ hole → t.p.read i = s.p.read i) : OrderedOff cmp v m hole := by
  intro i j hi hj hij hjm
  have h1 := hij.pos
  have hlt := hij.lt
  apply h i j _ _ hij (hm j hjm hj)
  · rw [← hread i (by omega) hi, hv i h1 (by omega)]
  · rw [← hread j hjm hj, hv j (by omega) hjm]

theorem Resting.orderedSlots (h : Resting s n v) (ho : Ordered cmp v n) : OrderedSlots cmp s n := by
  intro i j a b hij hj ha hb
  have h1 := hij.pos
  have hlt := hij.lt
  rw [h.reads i h1 (by omega)] at ha
  rw [h.reads j (by omega) hj] at hb
  cases ha
  cases hb
  exact ho i j hij hj

theorem invariant_empty (hsize : 1 ≤ h.size) (hcells : h.slots.p.size = h.size + 1)
    (hnum : h.numElements = 0) (hindex : ∀ x, h.slots.index x = 0) : Invariant cmp h := by
  refine ⟨hsize, hcells, by omega, hnum ▸ Indexed.complete_zero hindex, ?_⟩
  intro i j a b hij hj
  have := hij.lt
  omega

theorem frMinmaxHeapAlloc_invariant {init : ℕ} (hinit : init < 2 ^ 32)
    (hh : frMinmaxHeapAlloc init = some h) : Invariant cmp h ∧ h.numElements = 0 := by
  simp only [frMinmaxHeapAlloc] at hh
  split_ifs at hh with hz hslots hslots
  · cases hh
    exact ⟨invariant_empty (by simp [initialCapacity]) (by simp [initialCapacity, u32]) rfl
      (fun _ => rfl), rfl⟩
  cases hh
  -- the largest initial size asks for no cell at all
  have hlt : init + 1 < 2 ^ 32 := by
    by_contra hge
    rw [show init + 1 = 2 ^ 32 by omega] at hslots
    simp [u32] at hslots
  exact ⟨invariant_empty (by simp only; omega) (by simp [u32_of_lt hlt]) rfl (fun _ => rfl),
    rfl⟩

variable [DecidableEq α]

theorem insertAt_spec [TransCmp cmp] (data : α) (hi : Invariant cmp h)
    (hnum : h.numElements < 2 ^ 30) (hroom : h.numElements < h.size)
    (hdata : h.slots.index data = 0) :
    ∃ h', insertAt cmp h (h.numElements + 1) data = some (h', .ok ()) ∧ Invariant cmp h' ∧
      ∀ x, h'.slots.index x ≠ 0 ↔ x = data ∨ h.slots.index x ≠ 0 := by
  have hcells := hi.cells
  obtain ⟨s₁, hs₁, hsz₁, hix₁, hrd₁⟩ := h.slots.setSlot_spec (i := h.numElements + 1) data
    (by omega)
  have hold : ∀ i, i ≠ h.numElements + 1 → s₁.p.read i = h.slots.p.read i := by
    intro i hne
    rw [hrd₁, if_neg hne]
  obtain ⟨v, hsift, hvd⟩ := Placed.sifting
    (hi.complete.append hdata hix₁ fun i hle => hold i (by omega)) (by omega) le_rfl
    (by simp [hrd₁])
  have hoff : OrderedOff cmp v (h.numElements + 1) (h.numElements + 1) :=
    hi.order.orderedOff hsift.reads (fun j _ _ => by omega) fun i _ hne => hold i hne
  obtain ⟨s', v', hs', hsz, hrest, hbelow, hmem⟩ := pushUp_spec hsift hoff
  refine ⟨{ h with numElements := h.numElements + 1, slots := s' }, ?_, ⟨hi.size_pos,
    (hsz.trans hsz₁).trans hcells, hroom, hrest.complete,
    hrest.orderedSlots (hbelow.leaf (by omega))⟩, ?_⟩
  · simp [insertAt, hs₁, hs', u32_of_lt (show h.numElements + 1 < 2 ^ 32 by omega)]
  · intro x
    have hx : x ∈ {x | s'.index x ≠ 0} ↔ x ∈ elements s₁ (v (h.numElements + 1)) := by rw [hmem]
    rw [mem_elements, hvd, hix₁] at hx
    exact hx

/-- A call of `fr_minmax_heap_insert` either adds `data` or fails without a
trace. -/
theorem frMinmaxHeapInsert_spec [TransCmp cmp] (ok : Bool)
    (hi : Invariant cmp h) (hnum : h.numElements < 2 ^ 30) (data : α) :
    (∃ e, frMinmaxHeapInsert cmp ok h data = some (h, .error e)) ∨
      ∃ h', frMinmaxHeapInsert cmp ok h data = some (h', .ok ()) ∧ Invariant cmp h' ∧
        h.slots.index data = 0 ∧
        ∀ x, h'.slots.index x ≠ 0 ↔ x = data ∨ h.slots.index x ≠ 0 := by
  by_cases hin : h.slots.index data ≠ 0
  · left
    exact ⟨.alreadyInHeap, by simp [frMinmaxHeapInsert, frMinmaxHeapEntryInserted,
      Nat.pos_of_ne_zero hin]⟩
  have hdata : h.slots.index data = 0 := by simpa using hin
  have hentry : frMinmaxHeapEntryInserted (h.slots.index data) = false := by
    simp [frMinmaxHeapEntryInserted, hdata]
  have hchild : u32 (h.numElements + 1) = h.numElements + 1 := u32_of_lt (by omega)
  have hpos := hi.size_pos
  have hnum_le := hi.num_le
  by_cases hfull : h.size < h.numElements + 1
  · have hsmall : ¬ uintMax - h.size < h.size := by
      unfold uintMax
      omega
    by_cases hok : ok = true
    · right
      have hrd : ∀ i, i ≤ h.numElements →
          (h.slots.p.realloc (2 * h.size + 1)).read i = h.slots.p.read i := by
        intro i hle
        exact Block.read_realloc (by omega)
      have hinv : Invariant cmp { h with
          size := 2 * h.size
          slots := { h.slots with p := h.slots.p.realloc (2 * h.size + 1) } } := by
        refine ⟨by simp only; omega, by simp, by simp only; omega,
          hi.complete.congr rfl fun i _ hle => hrd i hle, ?_⟩
        intro i j a b hij hj ha hb
        exact hi.order i j a b hij hj ((hrd i (hij.lt.le.trans hj)).symm.trans ha)
          ((hrd j hj).symm.trans hb)
      obtain ⟨h', hh', hinv', hmem⟩ := insertAt_spec data hinv hnum (by simp only; omega) hdata
      refine ⟨h', ?_, hinv', hdata, hmem⟩
      simp only [frMinmaxHeapInsert, hentry, Bool.false_eq_true, if_false, hchild,
        if_pos hfull, minmaxHeapExpand, hsmall, false_and, hok, if_true]
      exact hh'
    · left
      refine ⟨.reallocFailed (2 * h.size) (2 * h.size * 8), ?_⟩
      simp [frMinmaxHeapInsert, hentry, hchild, hfull, minmaxHeapExpand, hsmall, hok]
  · right
    obtain ⟨h', hh', hinv', hmem⟩ := insertAt_spec data hi hnum (by omega) hdata
    refine ⟨h', ?_, hinv', hdata, hmem⟩
    simp [frMinmaxHeapInsert, hentry, hchild, hfull, hh']

/-- The element from the last slot, put into the hole of an extracted one, is
pushed up and then down. -/
theorem pushUp_pushDown_spec [TransCmp cmp] {idx : ℕ} (hn : n < 2 ^ 30) (h : Sifting s n idx v)
    (ho : OrderedOff cmp v n idx) :
    ∃ s₁ s' v', pushUpOffRoot cmp s n idx = some s₁ ∧ pushDown cmp s₁ n idx = some s' ∧
      s'.p.size = s.p.size ∧ Resting s' n v' ∧ Ordered cmp v' n ∧
      {x | s'.index x ≠ 0} = elements s (v idx) := by
  have hpos := h.pos
  have hle := h.le
  by_cases hidx : 1 < idx
  · have hdesc : isDescendant n idx = false := isDescendant_eq_false hidx hle (by omega)
    obtain ⟨s₁, v₁, hs₁, hsz₁, hrest₁, hbelow, hmem₁⟩ := pushUp_spec h ho
    obtain ⟨s', v', hs', hsz, hrest, hord, hmem⟩ :=
      pushDown_spec hn (hrest₁.sifting hpos hle) hbelow
    refine ⟨s₁, s', v', by simp [pushUpOffRoot, hidx, hdesc, hs₁], hs', hsz.trans hsz₁, hrest, hord, ?_⟩
    rw [hmem, elements_of_ne_zero (by rw [hrest₁.index_eq hpos hle]; omega), hmem₁]
  · have hbelow : OrderedBelow cmp v n idx := by
      intro i j hi hij hj
      have h1 := hij.pos
      have hlt := hij.lt
      exact ho i j hi (by omega) hij hj
    obtain ⟨s', v', hs', hsz, hrest, hord, hmem⟩ := pushDown_spec hn h hbelow
    exact ⟨s, s', v', by simp [pushUpOffRoot, hidx], hs', hsz, hrest, hord, hmem⟩

section

variable [TransCmp cmp] (hi : Invariant cmp h) (hnum : h.numElements < 2 ^ 30)

include hi hnum

/-- What a successful extraction does: `data` leaves the heap, nothing else
does. -/
theorem frMinmaxHeapExtract_mem (hdata : h.slots.index data ≠ 0) :
    ∃ h', frMinmaxHeapExtract cmp h data = some (h', .ok ()) ∧ Invariant cmp h' ∧
      ∀ x, h'.slots.index x ≠ 0 ↔ x ≠ data ∧ h.slots.index x ≠ 0 := by
  obtain ⟨hpos, hle, hread⟩ := hi.complete.stored data hdata
  have hnum_le := hi.num_le
  have hcells := hi.cells
  have hguard : ¬ h.numElements < h.slots.index data := by omega
  have hentry : frMinmaxHeapEntryInserted (h.slots.index data) = true := by
    simp only [frMinmaxHeapEntryInserted, decide_eq_true_eq]
    omega
  have hgone := hi.complete.remove ⟨hpos, hle⟩ hread
  by_cases hlast : h.numElements = h.slots.index data
  · refine ⟨{ h with numElements := h.numElements - 1, slots := h.slots.indexSet data 0 }, ?_,
      ⟨hi.size_pos, hcells, by simp only; omega, ?_, ?_⟩,
      h.slots.indexSet_zero_ne_zero_iff data⟩
    · simp only [frMinmaxHeapExtract, hguard, if_false, hentry, Bool.not_true, Bool.false_eq_true,
        hread, Option.bind_eq_bind, Option.bind_some, ne_eq, not_true_eq_false,
        Indexed.offsetReset_spec hread, if_pos hlast]
    · rw [← hlast] at hgone
      exact hgone.dropLast (h.slots.indexSet_self data 0)
    · intro i j a b hij hj ha hb
      exact hi.order i j a b hij (by simp only at hj; omega) ha hb
  obtain ⟨y, hyd, hy, hyi⟩ := hgone.filled h.numElements (by omega) le_rfl hlast
  obtain ⟨s₁, hs₁, hsz₁, hix₁, hrd₁⟩ := (h.slots.indexSet data 0).setSlot_spec
    (i := h.slots.index data) y (by simp only [Indexed.indexSet_p]; omega)
  have hold : ∀ i, i ≠ h.slots.index data → s₁.p.read i = h.slots.p.read i := by
    intro i hne
    rw [hrd₁, if_neg hne, Indexed.indexSet_p]
  obtain ⟨v, hsift, hvy⟩ := Placed.sifting
    (hgone.fill hle (Ne.symm hlast) (h.slots.indexSet_self data 0) hy hix₁
      fun i _ hne => hold i hne) hpos (by omega) (by simp [hrd₁])
  have hoff : OrderedOff cmp v (h.numElements - 1) (h.slots.index data) :=
    hi.order.orderedOff hsift.reads (fun j _ _ => by omega) fun i _ hne => hold i hne
  obtain ⟨s₂, s', v', hs₂, hs', hsz, hrest, hord, hmem⟩ :=
    pushUp_pushDown_spec (by omega) hsift hoff
  refine ⟨{ h with numElements := h.numElements - 1, slots := s' }, ?_, ⟨hi.size_pos,
    (hsz.trans hsz₁).trans hcells, by simp only; omega, hrest.complete,
    hrest.orderedSlots hord⟩, ?_⟩
  · simp only [frMinmaxHeapExtract, hguard, if_false, hentry, Bool.not_true, Bool.false_eq_true,
      hread, Option.bind_eq_bind, Option.bind_some, ne_eq, not_true_eq_false,
      Indexed.offsetReset_spec hread, hlast, hy, hs₁, hs₂, hs']
  intro x
  have hx : x ∈ {x | s'.index x ≠ 0} ↔ x ∈ elements s₁ (v (h.slots.index data)) := by
    rw [hmem]
  rw [mem_elements, hvy, hix₁, h.slots.indexSet_zero_ne_zero_iff] at hx
  refine hx.trans ⟨?_, .inr⟩
  rintro (rfl | hx')
  · exact (h.slots.indexSet_zero_ne_zero_iff data x).mp (by omega)
  · exact hx'

theorem extract_promise (hdata : InHeap h data) :
    ∃ h', frMinmaxHeapExtract cmp h data = some (h', .ok ()) ∧ Invariant cmp h' ∧
      ∀ x, InHeap h' x ↔ x ≠ data ∧ InHeap h x := by
  obtain ⟨h', hh', hinv, hmem⟩ := frMinmaxHeapExtract_mem hi hnum ((hi.inHeap_iff data).mp hdata)
  refine ⟨h', hh', hinv, ?_⟩
  intro x
  rw [hinv.inHeap_iff, hi.inHeap_iff, hmem x]

theorem popWith_spec {peek : FrMinmaxHeap α → Option (Option α)} (hpeek : peek h = some (some y))
    (hy : InHeap h y) :
    ∃ h', popWith cmp peek h = some (h', some y) ∧ Invariant cmp h' ∧
      ∀ x, InHeap h' x ↔ x ≠ y ∧ InHeap h x := by
  obtain ⟨h', hh', hinv, hmem⟩ := extract_promise hi hnum hy
  exact ⟨h', by simp [popWith, hpeek, hh'], hinv, hmem⟩

/-! ## Runs -/

end

/-- One call: it always has a result, keeps the invariant and its promise. -/
theorem step_spec [TransCmp cmp] (ok : Bool) (op : Op α)
    (hi : Invariant cmp h) (hnum : h.numElements < 2 ^ 30) :
    ∃ h' r, step cmp ok h op = some (h', r) ∧ Invariant cmp h' ∧ Promise cmp h h' op r := by
  cases op with
  | insert data =>
    rcases frMinmaxHeapInsert_spec ok hi hnum data with ⟨e, he⟩ | ⟨h', hh', hinv, hdata, hmem⟩
    · exact ⟨h, .code (.error e), by simp [step, he], hi, rfl⟩
    · refine ⟨h', .code (.ok ()), by simp [step, hh'], hinv, by simp [hi.inHeap_iff, hdata], ?_⟩
      intro x
      rw [hinv.inHeap_iff, hi.inHeap_iff, hmem x]
  | extract data =>
    by_cases hdata : InHeap h data
    · obtain ⟨h', hh', hinv, hmem⟩ := extract_promise hi hnum hdata
      exact ⟨h', .code (.ok ()), by simp [step, hh'], hinv, hdata, hmem⟩
    · have hnone := not_not.mp ((hi.inHeap_iff data).not.mp hdata)
      exact ⟨h, .code (.error (.notInHeap 0)),
        by simp [step, frMinmaxHeapExtract, hnone, frMinmaxHeapEntryInserted], hi, hdata, rfl⟩
  | minPop =>
    rcases frMinmaxHeapMinPeek_spec hi with ⟨hnum0, hpeek⟩ | ⟨y, hpeek, hy, hleast⟩
    · exact ⟨h, .data none, by simp [step, frMinmaxHeapMinPop, popWith, hpeek], hi, hnum0, rfl⟩
    · obtain ⟨h', hh', hinv, hmem⟩ := popWith_spec hi hnum hpeek hy
      exact ⟨h', .data (some y), by simp [step, frMinmaxHeapMinPop, hh'], hinv, hy, hleast, hmem⟩
  | maxPop =>
    rcases frMinmaxHeapMaxPeek_spec hi with ⟨hnum0, hpeek⟩ | ⟨y, hpeek, hy, hgreatest⟩
    · exact ⟨h, .data none, by simp [step, frMinmaxHeapMaxPop, popWith, hpeek], hi, hnum0, rfl⟩
    · obtain ⟨h', hh', hinv, hmem⟩ := popWith_spec hi hnum hpeek hy
      exact ⟨h', .data (some y), by simp [step, frMinmaxHeapMaxPop, hh'], hinv, hy, hgreatest,
        hmem⟩
  | minPeek =>
    rcases frMinmaxHeapMinPeek_spec hi with ⟨hnum0, hpeek⟩ | ⟨y, hpeek, hy, hleast⟩
    · exact ⟨h, .data none, by simp [step, hpeek], hi, hnum0, rfl⟩
    · exact ⟨h, .data (some y), by simp [step, hpeek], hi, hy, hleast, rfl⟩
  | maxPeek =>
    rcases frMinmaxHeapMaxPeek_spec hi with ⟨hnum0, hpeek⟩ | ⟨y, hpeek, hy, hgreatest⟩
    · exact ⟨h, .data none, by simp [step, hpeek], hi, hnum0, rfl⟩
    · exact ⟨h, .data (some y), by simp [step, hpeek], hi, hy, hgreatest, rfl⟩

theorem Reachable.invariant [TransCmp cmp] (hh : Reachable cmp h) :
    Invariant cmp h ∧ h.numElements < 2 ^ 30 := by
  induction hh with
  | alloc hinit hh =>
    obtain ⟨hinv, hnum⟩ := frMinmaxHeapAlloc_invariant hinit hh
    exact ⟨hinv, by omega⟩
  | @step h h' ok op r _ hstep hnum ih =>
    obtain ⟨t, r', ht, hinv, -⟩ := step_spec ok op ih.1 ih.2
    rw [hstep] at ht
    cases ht
    exact ⟨hinv, hnum⟩

/-- In every state of every run the heap is well formed, and the next call,
whichever it is, has a result that keeps its promise. -/
theorem minmaxHeap_runs [TransCmp cmp] {h : FrMinmaxHeap α} (hh : Reachable cmp h) :
    WellFormed cmp h ∧ ∀ ok op, ∃ h' r, step cmp ok h op = some (h', r) ∧
      WellFormed cmp h' ∧ Promise cmp h h' op r := by
  obtain ⟨hinv, hnum⟩ := hh.invariant
  refine ⟨hinv.wellFormed, fun ok op => ?_⟩
  obtain ⟨h', r, hstep, hinv', hp⟩ := step_spec ok op hinv hnum
  exact ⟨h', r, hstep, hinv'.wellFormed, hp⟩

/-- A run that doubles the array, with a tie between two of its elements. -/
theorem minmaxHeap_runs_three_inserts : ∃ h : FrMinmaxHeap ℕ,
    Reachable (fun a b => compare (a / 2) (b / 2)) h ∧ h.numElements = 3 ∧ h.size = 4 ∧
      WellFormed (fun a b => compare (a / 2) (b / 2)) h ∧ ∀ ok op, ∃ h' r,
        step (fun a b => compare (a / 2) (b / 2)) ok h op = some (h', r) ∧
          WellFormed (fun a b => compare (a / 2) (b / 2)) h' ∧
          Promise (fun a b => compare (a / 2) (b / 2)) h h' op r := by
  have : TransCmp (fun a b : ℕ => compare (a / 2) (b / 2)) :=
    inferInstanceAs (TransCmp (compareOn (· / 2)))
  have h0 : Reachable (fun a b => compare (a / 2) (b / 2)) _ :=
    Reachable.alloc (show 2 < 2 ^ 32 by norm_num) (show @frMinmaxHeapAlloc ℕ 2 = some _ from rfl)
  have h1 := Reachable.step h0
    (show step _ true _ (.insert 5) = some (_, _) from rfl) (by decide)
  have h2 := Reachable.step h1
    (show step _ true _ (.insert 8) = some (_, _) from rfl) (by decide)
  have h3 := Reachable.step h2
    (show step _ true _ (.insert 4) = some (_, _) from rfl) (by decide)
  exact ⟨_, h3, rfl, rfl, minmaxHeap_runs h3⟩

end FreeRadius.MinmaxHeap
