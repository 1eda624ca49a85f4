import FreeRadius.Library.MinMaxOrder
import FreeRadius.MinmaxHeap.Model

/-!
# Pushing elements up and down

The two loops move one element, whose slot is a hole until the element records
it. Beside the array the lemmas follow the content of its slots, a function to
which the order lemmas apply.
-/

namespace FreeRadius.MinmaxHeap

open Library Library.MinMax Indexed
open Std (TransCmp OrientedCmp ReflCmp)

variable {α : Type} {cmp : α → α → Ordering} {s : Indexed α} {v : ℕ → α} {n hole i j : ℕ}

/-! ## Levels -/

theorem depth_eq (h : 1 ≤ i) : depth i = Nat.log2 i := by
  simp [depth, frHighBitPos, show i ≠ 0 by omega]

theorem isMinLevelIndex_iff (h : 1 ≤ i) : isMinLevelIndex i = true ↔ lead i = .lt := by
  rw [isMinLevelIndex, depth_eq h, lead]
  split <;> simp [*]

theorem lead_eq_gt (h : 1 ≤ i) (hmin : ¬ isMinLevelIndex i = true) : lead i = .gt := by
  rw [isMinLevelIndex_iff h] at hmin
  have := lead_ne_eq i
  revert hmin this
  cases lead i <;> simp

theorem isOtherLevelIndex_lead (h : 1 ≤ i) : isOtherLevelIndex (lead i) i = false := by
  by_cases hmin : isMinLevelIndex i = true
  · rw [(isMinLevelIndex_iff h).mp hmin]
    simp [isOtherLevelIndex, isMaxLevelIndex, hmin]
  · rw [lead_eq_gt h hmin]
    simpa [isOtherLevelIndex] using hmin

/-- Off the root the descendant test never succeeds: it compares with the
width of a level counted from the ancestor, not with its first slot. -/
theorem isDescendant_eq_false {candidate ancestor : ℕ} (h2 : 2 ≤ ancestor)
    (hle : ancestor ≤ candidate) (hlt : candidate < 2 ^ 32) :
    isDescendant candidate ancestor = false := by
  have hlog : 1 ≤ Nat.log2 ancestor := by
    rw [log2_half h2]
    omega
  have hlow : 2 ^ Nat.log2 candidate ≤ candidate := Nat.log2_self_le (by omega)
  simp only [isDescendant, depth_eq (show 1 ≤ candidate by omega),
    depth_eq (show 1 ≤ ancestor by omega)]
  split_ifs with hdepth
  · rfl
  have hpow : 2 ^ (Nat.log2 candidate - Nat.log2 ancestor) * 2 ≤ 2 ^ Nat.log2 candidate := by
    rw [← pow_succ]
    exact Nat.pow_le_pow_right (by norm_num) (by omega)
  have hmin : u32 (2 ^ (Nat.log2 candidate - Nat.log2 ancestor)) =
      2 ^ (Nat.log2 candidate - Nat.log2 ancestor) := u32_of_lt (by omega)
  rw [hmin, decide_eq_false_iff_not]
  unfold u32
  omega

/-! ## The content of the slots -/

/-- The slots `1 .. n` hold the elements that `v` gives. -/
def Reads (s : Indexed α) (n : ℕ) (v : ℕ → α) : Prop :=
  ∀ i, 1 ≤ i → i ≤ n → s.p.read i = some (v i)

/-- The elements that record a slot, and `y`. -/
def elements (s : Indexed α) (y : α) : Set α := {x | x = y ∨ s.index x ≠ 0}

theorem mem_elements {x y : α} :
    x ∈ elements s y ↔ x = y ∨ s.index x ≠ 0 := Iff.rfl

/-- An element is on its way up or down and now in slot `hole`. -/
structure Sifting (s : Indexed α) (n hole : ℕ) (v : ℕ → α) : Prop where
  pos : 1 ≤ hole
  le : hole ≤ n
  reads : Reads s n v
  placed : s.Placed n hole (v hole)

/-- No element is on its way. -/
structure Resting (s : Indexed α) (n : ℕ) (v : ℕ → α) : Prop where
  reads : Reads s n v
  complete : s.Complete n

theorem Sifting.read_hole (h : Sifting s n hole v) :
    s.p.read hole = some (v hole) := h.reads hole h.pos h.le

theorem Sifting.index_eq (h : Sifting s n hole v)
    (h1 : 1 ≤ j) (hn : j ≤ n) (hj : j ≠ hole) : s.index (v j) = j :=
  (h.placed.index_eq h1 hn hj (h.reads j h1 hn)).2

theorem Resting.sifting (h : Resting s n v) (hpos : 1 ≤ hole) (hle : hole ≤ n) :
    Sifting s n hole v :=
  ⟨hpos, hle, h.reads, h.complete.placed ⟨hpos, hle⟩ (h.reads hole hpos hle)⟩

theorem Resting.index_eq (h : Resting s n v) (h1 : 1 ≤ j) (hn : j ≤ n) : s.index (v j) = j :=
  h.complete.index_eq h1 hn (h.reads j h1 hn)

theorem elements_of_ne_zero {y : α} (h : s.index y ≠ 0) : elements s y = {x | s.index x ≠ 0} := by
  ext x
  constructor
  · rintro (rfl | hx)
    · exact h
    · exact hx
  · exact .inr

theorem reads_exchange {s' : Indexed α} (h : Reads s n v) (hne : i ≠ j) (hread : ∀ k, s'.p.read k =
      if k = j then some (v i) else if k = i then some (v j) else s.p.read k) :
    Reads s' n (exchange v i j) := by
  have hv := exchange_exchanged v hne
  intro k h1 hn
  rw [hread]
  by_cases hkj : k = j
  · rw [if_pos hkj, hkj, hv.right]
  rw [if_neg hkj]
  by_cases hki : k = i
  · rw [if_pos hki, hki, hv.left]
  · rw [if_neg hki, hv.other k hki hkj, h k h1 hn]

variable [DecidableEq α]

theorem Sifting.settle (h : Sifting s n hole v) :
    ∃ s', s.offsetSet hole = some s' ∧ s'.p.size = s.p.size ∧ Resting s' n v ∧
      {x | s'.index x ≠ 0} = elements s (v hole) := by
  have hpos := h.pos
  refine ⟨s.indexSet (v hole) hole, offsetSet_spec h.read_hole, rfl,
    ⟨h.reads, h.placed.settle ⟨h.pos, h.le⟩ h.read_hole⟩, ?_⟩
  ext x
  exact s.indexSet_ne_zero_iff (v hole) (by omega) x

/-- The element in the hole changes places with the one in slot `j`, which
records its new slot. -/
theorem Sifting.swap (h : Sifting s n hole v) (h1 : 1 ≤ j) (hn : j ≤ n) (hj : j ≠ hole) :
    ∃ s₁ s', s.swap hole j = some s₁ ∧ s₁.offsetSet hole = some s' ∧ s'.p.size = s.p.size ∧
      Sifting s' n j (exchange v hole j) ∧
      elements s' (exchange v hole j j) = elements s (v hole) := by
  have hv := exchange_exchanged v hj.symm
  obtain ⟨s₁, hs₁, hsz₁, hix₁, hrd₁⟩ := swap_spec h.read_hole (h.reads j h1 hn)
  have hhole : s₁.p.read hole = some (v j) := by
    rw [hrd₁, if_neg hj.symm, if_pos rfl]
  have hindex : (s₁.indexSet (v j) hole).index = Function.update s.index (v j) hole := by
    simp [indexSet, hix₁]
  refine ⟨s₁, s₁.indexSet (v j) hole, hs₁, offsetSet_spec hhole, hsz₁,
    ⟨h1, hn, reads_exchange h.reads hj.symm hrd₁, ?_⟩, ?_⟩
  · rw [hv.right]
    refine h.placed.move ⟨h.pos, h.le⟩ ⟨h1, hn⟩ hj (h.reads j h1 hn) ?_ hindex
    intro i hi
    exact (hrd₁ i).trans (if_neg hi)
  · have hpos := h.pos
    have hji := h.index_eq h1 hn hj
    ext x
    rw [hv.right, mem_elements, mem_elements,
      s₁.indexSet_ne_zero_of_ne_zero (by omega) (by rw [hix₁]; omega), hix₁]

/-- The element in the hole changes places with the one in slot `j` and stays
there, so that the other one is on its way. -/
theorem Sifting.raise (h : Sifting s n hole v) (h1 : 1 ≤ j) (hn : j ≤ n) (hj : j ≠ hole) :
    ∃ s₁ s', s.swap j hole = some s₁ ∧ s₁.offsetSet j = some s' ∧ s'.p.size = s.p.size ∧
      Sifting s' n hole (exchange v j hole) ∧
      elements s' (exchange v j hole hole) = elements s (v hole) := by
  have hv := exchange_exchanged v hj
  obtain ⟨s₁, hs₁, hsz₁, hix₁, hrd₁⟩ := swap_spec (h.reads j h1 hn) h.read_hole
  have hjr : s₁.p.read j = some (v hole) := by
    rw [hrd₁, if_neg hj, if_pos rfl]
  have hindex : (s₁.indexSet (v hole) j).index = Function.update s.index (v hole) j := by
    simp [indexSet, hix₁]
  refine ⟨s₁, s₁.indexSet (v hole) j, hs₁, offsetSet_spec hjr, hsz₁,
    ⟨h.pos, h.le, reads_exchange h.reads hj hrd₁, ?_⟩, ?_⟩
  · rw [hv.right]
    refine h.placed.exchange ⟨h1, hn⟩ hj (h.reads j h1 hn) ?_ hindex
    intro i hi
    exact (hrd₁ i).trans (if_neg hi)
  have hji := h.index_eq h1 hn hj
  ext x
  rw [hv.right, mem_elements, mem_elements,
    s₁.indexSet_ne_zero_iff (v hole) (by omega), hix₁]
  constructor
  · rintro (rfl | hx)
    · exact .inr (by omega)
    · exact hx
  · exact .inr

/-! ## Pushing up -/

theorem pushUpLoop_spec [TransCmp cmp] (fuel : ℕ) {k : ℕ} (hfuel : k < fuel) (hk : k ≤ hole)
    (h : Sifting s n k v) (hr : Rising cmp v n hole k) :
    ∃ s' v', pushUpLoop cmp (lead k) fuel s k = some s' ∧ s'.p.size = s.p.size ∧
      Resting s' n v' ∧ OrderedBelow cmp v' n hole ∧
      {x | s'.index x ≠ 0} = elements s (v k) := by
  induction fuel generalizing s k v with
  | zero => omega
  | succ fuel ih =>
    have hle := h.le
    have hgrand : heapGrandparent k = k / 4 := by
      unfold heapGrandparent heapParent
      omega
    obtain ⟨t, ht, htsz, htr, htm⟩ := h.settle
    by_cases hk4 : 0 < k / 4
    · have hg := h.reads (k / 4) (by omega) (by omega)
      by_cases hlt : cmp (v k) (v (k / 4)) = lead k
      · obtain ⟨s₁, s₂, hs₁, hs₂, hsz₂, hsift, hmem⟩ := h.swap (j := k / 4) (by omega)
          (by omega) (by omega)
        obtain ⟨s', v', hs', hsz, hrest, hord, hmem'⟩ := ih (by omega) (by omega) hsift
          (hr.swap hk hle (by omega) hlt (exchange_exchanged v (by omega)))
        refine ⟨s', v', ?_, hsz.trans hsz₂, hrest, hord, hmem'.trans hmem⟩
        rw [lead_quarter (by omega)] at hs'
        simp [pushUpLoop, hgrand, hk4, h.read_hole, hg, hlt, hs₁, hs₂, hs']
      · refine ⟨t, v, ?_, htsz, htr, hr.stop hk (by omega) hlt, htm⟩
        simp [pushUpLoop, hgrand, hk4, h.read_hole, hg, hlt, ht]
    · refine ⟨t, v, ?_, htsz, htr, hr.top (by omega), htm⟩
      simp [pushUpLoop, hgrand, hk4, ht]

/-- `push_up` puts everything off the slot in order with what is below it. -/
theorem pushUp_spec [TransCmp cmp] {k : ℕ} (h : Sifting s n k v) (ho : OrderedOff cmp v n k) :
    ∃ s' v', pushUp cmp s k = some s' ∧ s'.p.size = s.p.size ∧ Resting s' n v' ∧
      OrderedBelow cmp v' n k ∧ {x | s'.index x ≠ 0} = elements s (v k) := by
  have hpos := h.pos
  have hle := h.le
  by_cases hk1 : k = 1
  · obtain ⟨t, ht, htsz, htr, htm⟩ := h.settle
    refine ⟨t, v, by simp [pushUp, hk1, hk1 ▸ ht], htsz, htr, ?_, htm⟩
    intro i j hi hij hj
    have h1 := hij.pos
    have h2 := hij.lt
    exact ho i j hi (by omega) hij hj
  have hparent := h.reads (k / 2) (by omega) (by omega)
  have hhalf : lead (k / 2) = (lead k).swap := lead_half (by omega)
  by_cases hlt : cmp (v k) (v (k / 2)) = (lead k).swap
  · obtain ⟨s₁, s₂, hs₁, hs₂, hsz₂, hsift, hmem⟩ := h.swap (j := k / 2) (by omega)
      (by omega) (by omega)
    obtain ⟨s', v', hs', hsz, hrest, hord, hmem'⟩ := pushUpLoop_spec (k / 2 + 1)
      (Nat.lt_succ_self _) (by omega) hsift
      (ho.rising_parent (by omega) hle hlt (exchange_exchanged v (by omega)))
    refine ⟨s', v', ?_, hsz.trans hsz₂, hrest, hord, hmem'.trans hmem⟩
    by_cases hmin : isMinLevelIndex k = true
    · rw [(isMinLevelIndex_iff hpos).mp hmin] at hhalf hlt
      rw [hhalf] at hs'
      simp only [Ordering.swap] at hlt hs'
      simp [pushUp, hk1, heapParent, h.read_hole, hparent, hmin, hlt, hs₁, hs₂, pushUpMax, hs']
    · rw [lead_eq_gt hpos hmin] at hhalf hlt
      rw [hhalf] at hs'
      simp only [Ordering.swap] at hlt hs'
      simp [pushUp, hk1, heapParent, h.read_hole, hparent, hmin, hlt, hs₁, hs₂, pushUpMin, hs']
  · have hleads : Leads cmp (lead k) (v k) (v (k / 2)) := by
      have : Leads cmp (lead k).swap (v (k / 2)) (v k) := hlt
      simpa using this.swap
    obtain ⟨s', v', hs', hsz, hrest, hord, hmem'⟩ := pushUpLoop_spec (k + 1)
      (Nat.lt_succ_self _) le_rfl h (ho.rising (by omega) hle hleads)
    refine ⟨s', v', ?_, hsz, hrest, hord, hmem'⟩
    by_cases hmin : isMinLevelIndex k = true
    · rw [(isMinLevelIndex_iff hpos).mp hmin] at hlt hs'
      simp only [Ordering.swap] at hlt
      simp [pushUp, hk1, heapParent, h.read_hole, hparent, hmin, hlt, pushUpMin, hs']
    · rw [lead_eq_gt hpos hmin] at hlt hs'
      simp only [Ordering.swap] at hlt
      simp [pushUp, hk1, heapParent, h.read_hole, hparent, hmin, hlt, pushUpMax, hs']

end FreeRadius.MinmaxHeap
