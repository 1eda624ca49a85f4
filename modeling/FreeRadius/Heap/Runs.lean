import FreeRadius.Heap.Extract

/-!
# Every run of the binary heap

The invariant of one call carries over to whole runs, and it is restated in
terms of what a caller sees: the order of the slots, the index every element
records, the element a pop returns, and the cells the extraction still reads
once it has given memory back.
-/

namespace FreeRadius.Heap

open Library
open Std (TransCmp)

variable {α : Type} {cmp : α → α → Ordering} {s : FrHeap α}

def InHeap (s : FrHeap α) (x : α) : Prop :=
  ∃ i, 1 ≤ i ∧ i ≤ s.numElements ∧ s.slots.p.read i = some x

/-- Every slot in use holds an element that is at or before both children and
records its slot; elements in no slot record zero. -/
structure WellFormed (cmp : α → α → Ordering) (s : FrHeap α) : Prop where
  filled : ∀ i, 1 ≤ i → i ≤ s.numElements → ∃ x, s.slots.p.read i = some x
  left : ∀ i, 1 ≤ i → 2 * i ≤ s.numElements → SlotLe cmp s.slots i (2 * i)
  right : ∀ i, 1 ≤ i → 2 * i + 1 ≤ s.numElements → SlotLe cmp s.slots i (2 * i + 1)
  index_slot : ∀ i x, 1 ≤ i → i ≤ s.numElements → s.slots.p.read i = some x → s.slots.index x = i
  index_zero : ∀ x, ¬ InHeap s x → s.slots.index x = 0

/-- The array after an extraction is the old one or has `⌈size / 2⌉ + 1`
cells, and in both cases the slot that was the last one in use is a cell of it.
Any read outside these cells would have left the call without a result. -/
structure LateReads (s s' : FrHeap α) : Prop where
  cells : s'.slots.p.size = s.slots.p.size ∨ s'.slots.p.size = (s.size + 1) / 2 + 1
  last : s.numElements < s'.slots.p.size

/-- What a call promises about its result and the state it leaves. -/
def Promise (cmp : α → α → Ordering) (s s' : FrHeap α) : Op α → Result α → Prop
  | .insert data, .code (.ok ()) => ¬ InHeap s data ∧ ∀ x, InHeap s' x ↔ x = data ∨ InHeap s x
  | .insert _, .code (.error _) => s' = s
  | .extract data, .code (.ok ()) =>
    InHeap s data ∧ (∀ x, InHeap s' x ↔ x ≠ data ∧ InHeap s x) ∧ LateReads s s'
  | .extract data, .code (.error _) => ¬ InHeap s data ∧ s' = s
  | .pop, .data (some y) =>
    InHeap s y ∧ (∀ x, InHeap s x → (cmp y x).isLE) ∧
      (∀ x, InHeap s' x ↔ x ≠ y ∧ InHeap s x) ∧ LateReads s s'
  | .pop, .data none => s.numElements = 0 ∧ s' = s
  | _, _ => False

theorem Invariant.inHeap_iff (h : Invariant cmp s) (x : α) : InHeap s x ↔ s.slots.index x ≠ 0 :=
  (h.settled.complete.index_ne_zero_iff x).symm

theorem Invariant.wellFormed (h : Invariant cmp s) : WellFormed cmp s := by
  constructor
  · intro i h1 hn
    obtain ⟨x, hx, -⟩ := h.settled.complete.filled i h1 hn
    exact ⟨x, hx⟩
  · intro i h1 hn
    have hle := h.settled.order (2 * i) (by omega) hn
    rwa [show 2 * i / 2 = i by omega] at hle
  · intro i h1 hn
    have hle := h.settled.order (2 * i + 1) (by omega) hn
    rwa [show (2 * i + 1) / 2 = i by omega] at hle
  · intro i x h1 hn hx
    exact h.settled.complete.index_eq h1 hn hx
  · intro x hx
    rw [h.inHeap_iff] at hx
    exact not_not.mp hx

theorem settled_empty {s : Indexed α} (hcells : 0 < s.p.size) (hindex : ∀ x, s.index x = 0) :
    Settled cmp s 0 := by
  refine ⟨hcells, Indexed.complete_zero hindex, ?_⟩
  intro i h2 hn
  omega

theorem frHeapAlloc_invariant {init : ℕ} (hinit : init < 2 ^ 32)
    (hs : frHeapAlloc init = some s) : Invariant cmp s ∧ s.numElements = 0 := by
  simp only [frHeapAlloc] at hs
  split_ifs at hs with hz hslots hslots
  · cases hs
    refine ⟨⟨by simp [initialCapacity], by simp [initialCapacity, uintMax], ?_, ?_⟩, rfl⟩
    · simp [initialCapacity, u32]
    · exact settled_empty (by simpa using hslots) (fun _ => rfl)
  cases hs
  -- the largest initial size asks for no cell at all
  have hlt : init + 1 < 2 ^ 32 := by
    by_contra hge
    rw [show init + 1 = 2 ^ 32 by omega] at hslots
    simp [u32] at hslots
  refine ⟨⟨by simp; omega, by simp [uintMax]; omega, by simp [u32_of_lt hlt], ?_⟩, rfl⟩
  exact settled_empty (by simpa using hslots) (fun _ => rfl)

variable [DecidableEq α]

theorem extract_promise [TransCmp cmp] (ok : Bool) (h : Invariant cmp s)
    (hnum : s.numElements < 2 ^ 31) {data : α} (hdata : InHeap s data) :
    ∃ s', frHeapExtract cmp ok s data = some (s', .ok ()) ∧ Invariant cmp s' ∧
      (∀ x, InHeap s' x ↔ x ≠ data ∧ InHeap s x) ∧ LateReads s s' := by
  obtain ⟨s', hs', hinv, hcount, hsize, hlast, hmem⟩ :=
    frHeapExtract_mem ok h hnum ((h.inHeap_iff data).mp hdata)
  refine ⟨s', hs', hinv, ?_, ?_, hlast⟩
  · intro x
    rw [hinv.inHeap_iff, h.inHeap_iff, hmem x]
  rw [hinv.cells, h.cells]
  rcases hsize with he | he
  · exact .inl (by rw [he])
  · exact .inr (by rw [he])

/-- One call: it always has a result, keeps the invariant and its promise. -/
theorem step_spec [TransCmp cmp] (ok : Bool) (op : Op α) (h : Invariant cmp s)
    (hnum : s.numElements < 2 ^ 31) :
    ∃ s' r, step cmp ok s op = some (s', r) ∧ Invariant cmp s' ∧ Promise cmp s s' op r := by
  cases op with
  | insert data =>
    rcases frHeapInsert_spec ok h hnum data with ⟨e, he⟩ | ⟨s', hs', hinv, hdata, -, hmem⟩
    · exact ⟨s, .code (.error e), by simp [step, he], h, rfl⟩
    refine ⟨s', .code (.ok ()), by simp [step, hs'], hinv, ?_, ?_⟩
    · simp [h.inHeap_iff, hdata]
    · intro x
      rw [hinv.inHeap_iff, h.inHeap_iff, hmem x]
  | extract data =>
    by_cases hdata : InHeap s data
    · obtain ⟨s', hs', hinv, hmem, hlate⟩ := extract_promise ok h hnum hdata
      exact ⟨s', .code (.ok ()), by simp [step, hs'], hinv, hdata, hmem, hlate⟩
    · have hnone := not_not.mp ((h.inHeap_iff data).not.mp hdata)
      exact ⟨s, .code (.error (.outOfBounds 0 s.numElements)), by simp [step, frHeapExtract, hnone], h,
        hdata, rfl⟩
  | pop =>
    by_cases hpos : s.numElements = 0
    · exact ⟨s, .data none, by simp [step, frHeapPop, hpos], h, hpos, rfl⟩
    obtain ⟨y, hy, -⟩ := h.settled.complete.filled 1 le_rfl (by omega)
    have hin : InHeap s y := ⟨1, le_rfl, by omega, hy⟩
    have hleast : ∀ x, InHeap s x → (cmp y x).isLE := by
      rintro x ⟨i, h1, hn, hx⟩
      exact h.settled.root_le i h1 hn y x hy hx
    obtain ⟨s', hs', hinv, hmem, hlate⟩ := extract_promise ok h hnum hin
    exact ⟨s', .data (some y), by simp [step, frHeapPop, hpos, hy, hs'], hinv, hin, hleast,
      hmem, hlate⟩

theorem Reachable.invariant [TransCmp cmp] (hs : Reachable cmp s) :
    Invariant cmp s ∧ s.numElements < 2 ^ 31 := by
  induction hs with
  | alloc hinit hs =>
    obtain ⟨hinv, hnum⟩ := frHeapAlloc_invariant hinit hs
    exact ⟨hinv, by omega⟩
  | @step s s' ok op r _ hstep hnum ih =>
    obtain ⟨t, r', ht, hinv, -⟩ := step_spec ok op ih.1 ih.2
    rw [hstep] at ht
    cases ht
    exact ⟨hinv, hnum⟩

/-- In every state of every run the heap is well formed, and the next call,
whichever it is, has a result that keeps its promise. -/
theorem heap_runs [TransCmp cmp] {s : FrHeap α} (hs : Reachable cmp s) :
    WellFormed cmp s ∧ ∀ ok op, ∃ s' r, step cmp ok s op = some (s', r) ∧
      WellFormed cmp s' ∧ Promise cmp s s' op r := by
  obtain ⟨hinv, hnum⟩ := hs.invariant
  refine ⟨hinv.wellFormed, fun ok op => ?_⟩
  obtain ⟨s', r, hstep, hinv', hp⟩ := step_spec ok op hinv hnum
  exact ⟨s', r, hstep, hinv'.wellFormed, hp⟩

/-- A run that doubles the array on its second insertion. -/
theorem heap_runs_two_inserts : ∃ s : FrHeap ℕ, Reachable compare s ∧ s.numElements = 2 ∧
    s.size = 2 ∧ WellFormed compare s ∧ ∀ ok op, ∃ s' r,
      step compare ok s op = some (s', r) ∧ WellFormed compare s' ∧ Promise compare s s' op r := by
  have h0 : Reachable compare _ := Reachable.alloc (show 1 < 2 ^ 32 by norm_num)
    (show @frHeapAlloc ℕ 1 = some _ from rfl)
  have h1 := Reachable.step h0 (show step compare true _ (.insert 5) = some (_, _) from rfl)
    (by decide)
  have h2 := Reachable.step h1 (show step compare true _ (.insert 3) = some (_, _) from rfl)
    (by decide)
  exact ⟨_, h2, rfl, rfl, heap_runs h2⟩

end FreeRadius.Heap
