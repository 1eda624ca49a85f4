import FreeRadius.Heap.Model

/-!
# Heap order around a hole

Both loops of the heap keep every slot in order except one, the hole:
`OrderedExcept` says that the pairs off the hole are in order. `fr_heap_bubble`
moves the hole towards the root with the element it holds, `fr_heap_extract`
first moves it down to a leaf.
-/

namespace FreeRadius.Heap

open Library
open Std (TransCmp OrientedCmp ReflCmp)

variable {α : Type} {cmp : α → α → Ordering} {s : Indexed α} {child n : ℕ}

/-- The element in slot `i` may stand above the element in slot `j`. -/
def SlotLe (cmp : α → α → Ordering) (s : Indexed α) (i j : ℕ) : Prop :=
  ∀ a b, s.p.read i = some a → s.p.read j = some b → (cmp a b).isLE

/-- The pairs that do not touch the hole are in order, and so are the hole's
parent and children. -/
structure OrderedExcept (cmp : α → α → Ordering) (s : Indexed α) (n hole : ℕ) : Prop where
  off : ∀ i, 2 ≤ i → i ≤ n → i ≠ hole → i / 2 ≠ hole → SlotLe cmp s (i / 2) i
  grand : 2 ≤ hole → ∀ c, c ≤ n → c / 2 = hole → SlotLe cmp s (hole / 2) c

theorem SlotLe.refl [OrientedCmp cmp] (s : Indexed α) (i : ℕ) : SlotLe cmp s i i := by
  intro a b ha hb
  rw [ha] at hb
  cases hb
  exact ReflCmp.isLE_rfl

variable {i j : ℕ} {s' : Indexed α} {y : α}

theorem SlotLe.trans [TransCmp cmp] {k : ℕ} (hij : SlotLe cmp s i j) (hjk : SlotLe cmp s j k)
    (hj : ∃ b, s.p.read j = some b) : SlotLe cmp s i k := by
  obtain ⟨b, hb⟩ := hj
  intro a c ha hc
  exact TransCmp.isLE_trans (hij a b ha hb) (hjk b c hb hc)

theorem SlotLe.congr {i' j' : ℕ} (h : SlotLe cmp s i j) (hi : s'.p.read i' = s.p.read i)
    (hj : s'.p.read j' = s.p.read j) : SlotLe cmp s' i' j' := by
  intro a b ha hb
  exact h a b (hi ▸ ha) (hj ▸ hb)

/-! ## Bubbling up -/

/-- What `fr_heap_bubble` finds: a heap in order but for the element `y` in
slot `child`, which may have to move up. -/
structure Bubbling (cmp : α → α → Ordering) (s : Indexed α) (n child : ℕ) (y : α) : Prop where
  child_pos : 1 ≤ child
  child_le : child ≤ n
  cells : n < s.p.size
  placed : s.Placed n child y
  holds : s.p.read child = some y
  order : OrderedExcept cmp s n child
  below : ∀ c, c ≤ n → c / 2 = child → SlotLe cmp s child c

/-- What both operations end with. -/
structure Settled (cmp : α → α → Ordering) (s : Indexed α) (n : ℕ) : Prop where
  cells : n < s.p.size
  complete : s.Complete n
  order : ∀ i, 2 ≤ i → i ≤ n → SlotLe cmp s (i / 2) i

variable [DecidableEq α]

theorem Bubbling.settle (b : Bubbling cmp s n child y)
    (htop : 2 ≤ child → SlotLe cmp s (child / 2) child) : Settled cmp (s.indexSet y child) n := by
  refine ⟨b.cells, b.placed.settle ⟨b.child_pos, b.child_le⟩ b.holds, ?_⟩
  intro i h2 hn
  by_cases hi : i = child
  · subst hi
    exact htop h2
  by_cases hp : i / 2 = child
  · rw [hp]
    exact b.below i hn hp
  · exact b.order.off i h2 hn hi hp

/-- One turn of the loop: the parent `a` drops into slot `child`. -/
theorem Bubbling.swap [TransCmp cmp] {a : α} (b : Bubbling cmp s n child y) (h2 : 2 ≤ child)
    (ha : s.p.read (child / 2) = some a) (hya : (cmp y a).isLE) (hcells : s'.p.size = s.p.size)
    (hread : ∀ i, s'.p.read i =
      if i = child / 2 then some y else if i = child then some a else s.p.read i)
    (hindex : s'.index = Function.update s.index a child) : Bubbling cmp s' n (child / 2) y := by
  have hpc : child / 2 ≠ child := by omega
  have hparent : s'.p.read (child / 2) = some y := by simp [hread]
  have hchild : s'.p.read child = some a := by simp [hread, hpc.symm]
  have hother : ∀ i, i ≠ child / 2 → i ≠ child → s'.p.read i = s.p.read i := by
    intro i hi hi'
    simp [hread, hi, hi']
  have hle := b.child_le
  -- the old parent is at or above everything that was below the hole's parent
  have hsub : ∀ c, 2 ≤ c → c ≤ n → c / 2 = child / 2 → c ≠ child →
      SlotLe cmp s (child / 2) c := by
    intro c hc hcn hcp hcc
    have h := b.order.off c hc hcn hcc (by omega)
    rwa [hcp] at h
  constructor
  · omega
  · omega
  · rw [hcells]
    exact b.cells
  · apply b.placed.move ⟨b.child_pos, b.child_le⟩ ⟨by omega, by omega⟩ hpc ha _ hindex
    intro i hi
    simp [hread, hi]
  · exact hparent
  · constructor
    · intro i hi hin hip hipp
      by_cases hic : i = child
      · exact absurd (congrArg (· / 2) hic) hipp
      by_cases hpi : i / 2 = child
      · exact (b.order.grand h2 i hin hpi).congr (by rw [hpi, hchild, ha])
          (hother i hip hic)
      · exact (b.order.off i hi hin hic hpi).congr (hother _ hipp hpi) (hother i hip hic)
    · intro hp2 c hcn hcp
      have hpp : SlotLe cmp s (child / 2 / 2) (child / 2) :=
        b.order.off (child / 2) hp2 (by omega) hpc (by omega)
      have hkeep : s'.p.read (child / 2 / 2) = s.p.read (child / 2 / 2) :=
        hother _ (by omega) (by omega)
      by_cases hcc : c = child
      · subst hcc
        exact hpp.congr hkeep (by rw [hchild, ha])
      · exact (hpp.trans (hsub c (by omega) hcn hcp hcc) ⟨a, ha⟩).congr hkeep
          (hother c (by omega) hcc)
  · intro c hcn hcp u v hu hv
    rw [hparent] at hu
    cases hu
    by_cases hcc : c = child
    · subst hcc
      rw [hchild] at hv
      cases hv
      exact hya
    · rw [hother c (by omega) hcc] at hv
      exact TransCmp.isLE_trans hya (hsub c (by omega) hcn hcp hcc a v ha hv)

theorem bubbleLoop_spec [TransCmp cmp] (fuel : ℕ) (hfuel : child ≤ fuel)
    (b : Bubbling cmp s n child y) :
    ∃ s', bubbleLoop cmp fuel s child = some s' ∧ s'.p.size = s.p.size ∧ Settled cmp s' n ∧
      ∀ x, s'.index x ≠ 0 ↔ x = y ∨ s.index x ≠ 0 := by
  induction fuel generalizing s child with
  | zero =>
    have := b.child_pos
    omega
  | succ fuel ih =>
    have hpos := b.child_pos
    have hle := b.child_le
    have hdone := s.indexSet_ne_zero_iff y (i := child) (by omega)
    by_cases h1 : 1 < child
    · obtain ⟨a, -, ha, hai⟩ := b.placed.filled (child / 2) (by omega) (by omega) (by omega)
      by_cases hlt : cmp a y = .lt
      · refine ⟨s.indexSet y child, ?_, rfl, ?_, hdone⟩
        · simp [bubbleLoop, h1, heapParent, ha, b.holds, hlt, Indexed.offsetSet_spec b.holds]
        apply b.settle
        intro _ u v hu hv
        rw [ha] at hu
        rw [b.holds] at hv
        cases hu
        cases hv
        simp [hlt]
      · obtain ⟨s₁, hs₁, hsz₁, hix₁, hrd₁⟩ := Indexed.swap_spec b.holds ha
        have hchild : s₁.p.read child = some a := by
          rw [hrd₁, if_neg (by omega), if_pos rfl]
        have hb : Bubbling cmp (s₁.indexSet a child) n (child / 2) y := by
          refine b.swap h1 ha ?_ hsz₁ hrd₁ ?_
          · exact OrientedCmp.isGE_iff_isLE.mp (Ordering.isGE_iff_ne_lt.mpr hlt)
          · simp [Indexed.indexSet, hix₁]
        obtain ⟨s', hs', hsz, hset, hmem⟩ := ih (by omega) hb
        refine ⟨s', ?_, hsz.trans hsz₁, hset, ?_⟩
        · simp [bubbleLoop, h1, heapParent, ha, b.holds, hlt, hs₁,
            Indexed.offsetSet_spec hchild, hs']
        · intro x
          rw [hmem x, s₁.indexSet_ne_zero_of_ne_zero (by omega) (by rw [hix₁]; omega), hix₁]
    · refine ⟨s.indexSet y child, ?_, rfl, ?_, hdone⟩
      · simp [bubbleLoop, h1, Indexed.offsetSet_spec b.holds]
      · exact b.settle (fun h => absurd h (by omega))

theorem frHeapBubble_spec [TransCmp cmp] (b : Bubbling cmp s n child y) :
    ∃ s', frHeapBubble cmp s child = some s' ∧ s'.p.size = s.p.size ∧ Settled cmp s' n ∧
      ∀ x, s'.index x ≠ 0 ↔ x = y ∨ s.index x ≠ 0 := by
  have hpos := b.child_pos
  have hne : child ≠ indexInvalid := by
    unfold indexInvalid
    omega
  rw [frHeapBubble, if_neg hne]
  exact bubbleLoop_spec child le_rfl b

end FreeRadius.Heap
