import FreeRadius.MinmaxHeap.Sift

/-!
# Pushing elements down

The element to compare with is searched among the children and grandchildren.
Children need not be looked at when they have children of their own, because
these lead them on the level of the hole.
-/

namespace FreeRadius.MinmaxHeap

open Library Library.MinMax
open Std (TransCmp OrientedCmp ReflCmp)

variable {α : Type} {cmp : α → α → Ordering} {s : Indexed α} {v : ℕ → α} {n : ℕ} {i idx hole : ℕ}

theorem heapLeft_eq (h : i < 2 ^ 31) : heapLeft i = 2 * i := u32_of_lt (by omega)

theorem heapRight_eq (h : i < 2 ^ 31) : heapRight i = 2 * i + 1 := u32_of_lt (by omega)

/-- The loop finds a slot whose content leads all that it looks at. -/
theorem scan_spec (cmp : α → α → Ordering) [TransCmp cmp] {w : Ordering} (hw : w ≠ .eq)
    (h : Reads s n v) (count i best : ℕ) (hi : 1 ≤ i) (hcount : i + count ≤ n + 1)
    (hb : 1 ≤ best) (hbn : best ≤ n) :
    ∃ m, scan cmp w s count i best = some m ∧ (m = best ∨ i ≤ m ∧ m < i + count) ∧
      Leads cmp w (v m) (v best) ∧ ∀ j, i ≤ j → j < i + count → Leads cmp w (v m) (v j) := by
  induction count generalizing i best with
  | zero =>
    refine ⟨best, rfl, .inl rfl, Leads.refl hw _, ?_⟩
    intro j h1 h2
    omega
  | succ count ih =>
    have hri := h i hi (by omega)
    have hrb := h best hb hbn
    by_cases hlt : cmp (v i) (v best) = w
    · obtain ⟨m, hm, hrange, hmi, hall⟩ := ih (i + 1) i (by omega) (by omega) hi
        (by omega)
      refine ⟨m, by simp [scan, hri, hrb, hlt, hm], .inr (by omega),
        hmi.trans hw (Leads.of_eq hw hlt), ?_⟩
      intro j h1 h2
      by_cases hji : j = i
      · rw [hji]
        exact hmi
      · exact hall j (by omega) (by omega)
    · obtain ⟨m, hm, hrange, hmb, hall⟩ := ih (i + 1) best (by omega) (by omega) hb hbn
      refine ⟨m, by simp [scan, hri, hrb, hlt, hm], by omega, hmb, ?_⟩
      intro j h1 h2
      by_cases hji : j = i
      · rw [hji]
        exact hmb.trans hw hlt
      · exact hall j (by omega) (by omega)

/-- What `min_child_or_grandchild` and `max_child_or_grandchild` find: a
grandchild, or a child with nothing below it, that leads all others of them. -/
structure Best (cmp : α → α → Ordering) (v : ℕ → α) (n idx m : ℕ) : Prop where
  le : m ≤ n
  place : m / 2 = idx ∧ n < 2 * m ∨ m / 4 = idx
  child : ∀ c, c ≤ n → c / 2 = idx → Leads cmp (lead idx) (v m) (v c)
  grand : ∀ c, c ≤ n → c / 4 = idx → Leads cmp (lead idx) (v m) (v c)

/-- Without grandchildren the better child is the best. -/
theorem childOrGrandchild_child [TransCmp cmp] (h : Reads s n v) (hn : n < 2 ^ 30) (hpos : 1 ≤ idx)
    (hc : 2 * idx ≤ n) (hg : n < 4 * idx) :
    ∃ m, childOrGrandchild cmp (lead idx) s n idx = some m ∧ Best cmp v n idx m := by
  have hw := lead_ne_eq idx
  have hleft : heapLeft idx = 2 * idx := heapLeft_eq (by omega)
  have hright : heapRight idx = 2 * idx + 1 := heapRight_eq (by omega)
  have hgrand : hasGrandchildren n idx = false := by
    simp only [hasGrandchildren, hleft, heapLeft_eq (show 2 * idx < 2 ^ 31 by omega),
      decide_eq_false_iff_not]
    omega
  have hl := h (2 * idx) (by omega) hc
  have hcases : ∀ c, c / 2 = idx → c = 2 * idx ∨ c = 2 * idx + 1 := by
    intro c hc
    omega
  by_cases hr : 2 * idx + 1 ≤ n
  · have hrr := h (2 * idx + 1) (by omega) hr
    by_cases hlt : cmp (v (2 * idx + 1)) (v (2 * idx)) = lead idx
    · refine ⟨2 * idx + 1, ?_, hr, .inl (by omega), ?_, fun c _ _ => by omega⟩
      · simp [childOrGrandchild, hgrand, hleft, hright, hr, hl, hrr, hlt]
      intro c _ hci
      rcases hcases c hci with rfl | rfl
      · exact Leads.of_eq hw hlt
      · exact Leads.refl hw _
    · refine ⟨2 * idx, ?_, hc, .inl (by omega), ?_, fun c _ _ => by omega⟩
      · simp [childOrGrandchild, hgrand, hleft, hright, hr, hl, hrr, hlt]
      intro c _ hci
      rcases hcases c hci with rfl | rfl
      · exact Leads.refl hw _
      · exact hlt
  · refine ⟨2 * idx, ?_, hc, .inl (by omega), ?_, fun c _ _ => by omega⟩
    · simp [childOrGrandchild, hgrand, hleft, hright, hr]
    intro c hcn hci
    rcases hcases c hci with rfl | rfl
    · exact Leads.refl hw _
    · omega

theorem childOrGrandchild_spec [TransCmp cmp] (h : Reads s n v) (ho : OrderedBelow cmp v n idx)
    (hn : n < 2 ^ 30) (hpos : 1 ≤ idx) (hc : 2 * idx ≤ n) :
    ∃ m, childOrGrandchild cmp (lead idx) s n idx = some m ∧ Best cmp v n idx m := by
  by_cases hg : n < 4 * idx
  · exact childOrGrandchild_child h hn hpos hc hg
  have hw := lead_ne_eq idx
  have hleft : heapLeft idx = 2 * idx := heapLeft_eq (by omega)
  have hright : heapRight idx = 2 * idx + 1 := heapRight_eq (by omega)
  have hll : heapLeft (2 * idx) = 4 * idx := by
    rw [heapLeft_eq (by omega)]
    omega
  have hlr : heapLeft (2 * idx + 1) = 4 * idx + 2 := by
    rw [heapLeft_eq (by omega)]
    omega
  have hrr : heapRight (2 * idx + 1) = 4 * idx + 3 := by
    rw [heapRight_eq (by omega)]
    omega
  have hgrand : hasGrandchildren n idx = true := by
    simp only [hasGrandchildren, hleft, hll, decide_eq_true_eq]
    omega
  have hother := isOtherLevelIndex_lead hpos
  -- a child that has a child is led by it
  have hchild : ∀ m c, c / 4 = idx → c ≤ n → Leads cmp (lead idx) (v m) (v c) →
      Leads cmp (lead idx) (v m) (v (c / 2)) := by
    intro m c hci hcn hm
    have hd := (ho (c / 2) c (by omega) (Above.of_child (by omega) rfl) hcn).swap
    rw [lead_half (by omega), Ordering.swap_swap, ← lead_quarter (by omega), hci] at hd
    exact hm.trans hw hd
  by_cases hbare : n < 4 * idx + 2
  · have hkids : hasChildren n (2 * idx + 1) = false := by
      simp only [hasChildren, hlr, decide_eq_false_iff_not]
      omega
    obtain ⟨m, hm, hrange, hbest, hall⟩ := scan_spec cmp hw h (n + 1 - 4 * idx) (4 * idx)
      (2 * idx + 1) (by omega) (by omega) (by omega) (by omega)
    refine ⟨m, ?_, by omega, by omega, ?_, ?_⟩
    · simp [childOrGrandchild, hgrand, hother, hleft, hright, hll, hrr, hkids,
        show n < 4 * idx + 3 by omega, hm]
    · intro c hcn hci
      by_cases hcr : c = 2 * idx + 1
      · rw [hcr]
        exact hbest
      · have := hchild m (4 * idx) (by omega) (by omega) (hall (4 * idx) (by omega) (by omega))
        rwa [show 4 * idx / 2 = c by omega] at this
    · intro c hcn hci
      exact hall c (by omega) (by omega)
  · have hkids : hasChildren n (2 * idx + 1) = true := by
      simp only [hasChildren, hlr, decide_eq_true_eq]
      omega
    obtain ⟨upb, hupb, hle, hcov⟩ : ∃ upb, (if n < 4 * idx + 3 then n else 4 * idx + 3) = upb ∧
        upb ≤ n ∧ ∀ c, c ≤ n → c / 4 = idx → c ≤ upb := by
      refine ⟨_, rfl, ?_, ?_⟩
      · split <;> omega
      · intro c _ _
        split <;> omega
    have hup3 : upb ≤ 4 * idx + 3 := by
      rw [← hupb]
      split <;> omega
    obtain ⟨m, hm, hrange, hbest, hall⟩ := scan_spec cmp hw h (upb - 4 * idx)
      (4 * idx + 1) (4 * idx) (by omega) (by omega) (by omega) (by omega)
    have hgc : ∀ c, c ≤ n → c / 4 = idx → Leads cmp (lead idx) (v m) (v c) := by
      intro c hcn hci
      have := hcov c hcn hci
      by_cases hc4 : c = 4 * idx
      · rw [hc4]
        exact hbest
      · exact hall c (by omega) (by omega)
    refine ⟨m, ?_, by omega, by omega, ?_, hgc⟩
    · simp [childOrGrandchild, hgrand, hother, hleft, hright, hll, hrr, hkids, hupb, hm]
    · intro c hcn hci
      have := hchild m (2 * c) (by omega) (by omega) (hgc (2 * c) (by omega) (by omega))
      rwa [show 2 * c / 2 = c by omega] at this

variable [DecidableEq α]

/-- After the swap with a grandchild `m` the element in slot `m` may change
places with the content of the slot between. -/
theorem moveToParent_spec [TransCmp cmp] {m : ℕ} {v' : ℕ → α} (ho : OrderedBelow cmp v n idx)
    (hpos : 1 ≤ idx) (hb : Best cmp v n idx m) (hm : m / 4 = idx)
    (hlt : cmp (v m) (v idx) = lead idx) (hv : Exchanged v v' idx m) (h : Sifting s n m v') :
    ∃ s' w, moveToParent cmp (lead idx) s idx m = some s' ∧ s'.p.size = s.p.size ∧
      Sifting s' n m w ∧ OrderedBelow cmp w n m ∧ elements s' (w m) = elements s (v' m) := by
  have hgp : heapGrandparent m = idx := by
    unfold heapGrandparent heapParent
    omega
  have hbest := ho.best hpos hb.child hb.grand
  have hle := hb.le
  have hq := h.reads (m / 2) (by omega) (by omega)
  by_cases hgt : cmp (v' m) (v' (m / 2)) = (lead idx).swap
  · obtain ⟨s₁, s₂, hs₁, hs₂, hsz, hsift, hmem⟩ := h.raise (j := m / 2) (by omega) (by omega)
      (by omega)
    refine ⟨s₂, _, ?_, hsz, hsift, ho.swap_between hbest hle hlt hv hpos hm hgt
      (exchange_exchanged v' (by omega)), hmem⟩
    simp [moveToParent, hgp, h.read_hole, heapParent, hq, hgt, hs₁, hs₂]
  · have hleads : Leads cmp (lead idx) (v' m) (v' (m / 2)) := by
      have : Leads cmp (lead idx).swap (v' (m / 2)) (v' m) := hgt
      simpa using this.swap
    refine ⟨s, v', ?_, rfl, h, ho.swap_grandchild hbest hle hlt hv hpos hm hleads, rfl⟩
    simp [moveToParent, hgp, h.read_hole, heapParent, hq, hgt]

theorem pushDownLoop_leaf (cmp : α → α → Ordering) (w : Ordering) (fuel : ℕ) (hn : n < 2 ^ 30)
    (hleaf : n < 2 * hole) (h : Sifting s n hole v) :
    ∃ s', pushDownLoop cmp w n (fuel + 1) s hole = some s' ∧ s'.p.size = s.p.size ∧
      Resting s' n v ∧ {x | s'.index x ≠ 0} = elements s (v hole) := by
  have hle := h.le
  obtain ⟨s', hs', hsz, hrest, hmem⟩ := h.settle
  have hkids : hasChildren n hole = false := by
    simp only [hasChildren, heapLeft_eq (show hole < 2 ^ 31 by omega), decide_eq_false_iff_not]
    omega
  exact ⟨s', by simp [pushDownLoop, hkids, hs'], hsz, hrest, hmem⟩

theorem pushDownLoop_spec [TransCmp cmp] (fuel : ℕ) (hn : n < 2 ^ 30) (hfuel : n < hole + fuel)
    (h : Sifting s n hole v) (ho : OrderedBelow cmp v n hole) :
    ∃ s' v', pushDownLoop cmp (lead hole) n fuel s hole = some s' ∧ s'.p.size = s.p.size ∧
      Resting s' n v' ∧ Ordered cmp v' n ∧ {x | s'.index x ≠ 0} = elements s (v hole) := by
  induction fuel generalizing s hole v with
  | zero =>
    have := h.le
    omega
  | succ fuel ih =>
    have hpos := h.pos
    by_cases hc : 2 * hole ≤ n
    · have hkids : hasChildren n hole = true := by
        simp only [hasChildren, heapLeft_eq (show hole < 2 ^ 31 by omega), decide_eq_true_eq]
        exact hc
      obtain ⟨m, hm, hb⟩ := childOrGrandchild_spec h.reads ho hn hpos hc
      have hmn := hb.le
      have hbest := ho.best hpos hb.child hb.grand
      have hlow : hole < m := by
        have := hb.place
        omega
      have hrm := h.reads m (by omega) hmn
      by_cases hlt : cmp (v m) (v hole) = lead hole
      · obtain ⟨s₁, s₂, hs₁, hs₂, hsz₂, hsift, hmem₂⟩ := h.swap (j := m) (by omega) hmn (by omega)
        have hv := exchange_exchanged v (show hole ≠ m by omega)
        rcases hb.place with ⟨hm2, hleaf⟩ | hm4
        · -- a child that is a leaf: the next test of the loop ends it
          have hgp : heapGrandparent m ≠ hole := by
            unfold heapGrandparent heapParent
            omega
          obtain ⟨f, rfl⟩ : ∃ f, fuel = f + 1 := ⟨fuel - 1, by omega⟩
          obtain ⟨s', hs', hsz, hrest, hmem'⟩ :=
            pushDownLoop_leaf cmp (lead hole) f hn hleaf hsift
          refine ⟨s', _, ?_, hsz.trans hsz₂, hrest,
            (ho.swap_child hbest hmn hlt hv hpos hm2).leaf hleaf, hmem'.trans hmem₂⟩
          rw [pushDownLoop]
          simp [hkids, hm, hrm, h.read_hole, hlt, hs₁, hs₂, moveToParent, hgp, hs']
        · obtain ⟨s₃, w, hs₃, hsz₃, hsift₃, ho₃, hmem₃⟩ :=
            moveToParent_spec ho hpos hb hm4 hlt hv hsift
          obtain ⟨s', v', hs', hsz, hrest, hord, hmem'⟩ := ih (by omega) hsift₃ ho₃
          refine ⟨s', v', ?_, hsz.trans (hsz₃.trans hsz₂), hrest, hord,
            hmem'.trans (hmem₃.trans hmem₂)⟩
          have hlead : lead m = lead hole := by rw [← lead_quarter (by omega), hm4]
          rw [hlead] at hs'
          simp [pushDownLoop, hkids, hm, hrm, h.read_hole, hlt, hs₁, hs₂, hs₃, hs']
      · obtain ⟨s', hs', hsz, hrest, hmem'⟩ := h.settle
        refine ⟨s', v, ?_, hsz, hrest, ho.stop hbest hlt, hmem'⟩
        simp [pushDownLoop, hkids, hm, hrm, h.read_hole, hlt, hs']
    · obtain ⟨s', hs', hsz, hrest, hmem'⟩ :=
        pushDownLoop_leaf cmp (lead hole) fuel hn (by omega) h
      exact ⟨s', v, hs', hsz, hrest, ho.leaf (by omega), hmem'⟩

theorem pushDown_spec [TransCmp cmp] (hn : n < 2 ^ 30) (h : Sifting s n hole v)
    (ho : OrderedBelow cmp v n hole) :
    ∃ s' v', pushDown cmp s n hole = some s' ∧ s'.p.size = s.p.size ∧ Resting s' n v' ∧
      Ordered cmp v' n ∧ {x | s'.index x ≠ 0} = elements s (v hole) := by
  obtain ⟨s', v', hs', hrest⟩ := pushDownLoop_spec (n + 1) hn (by omega) h ho
  refine ⟨s', v', ?_, hrest⟩
  by_cases hmin : isMinLevelIndex hole = true
  · rw [(isMinLevelIndex_iff h.pos).mp hmin] at hs'
    simp [pushDown, hmin, pushDownMin, hs']
  · rw [lead_eq_gt h.pos hmin] at hs'
    simp [pushDown, hmin, pushDownMax, hs']

end FreeRadius.MinmaxHeap
