import Mathlib.Tactic

/-!
# The order of a min-max heap

The slots of an implicit binary tree are the positive numbers, the parent of
`i` is `i / 2`. A content is a function from slots to elements. On even levels
an element stands at or before everything below it, on odd levels at or after.
The lemmas say how an exchange of two contents changes which slots do so.
-/

namespace Library.MinMax

open Std (TransCmp OrientedCmp ReflCmp)

/-! ## Ancestors and levels -/

/-- Slot `i` is a proper ancestor of slot `j`. -/
inductive Above (i : ℕ) : ℕ → Prop
  | parent {j : ℕ} : 1 ≤ i → j / 2 = i → Above i j
  | step {j : ℕ} : Above i (j / 2) → Above i j

namespace Above

variable {i j : ℕ}

theorem pos (h : Above i j) : 1 ≤ i := by
  induction h with
  | parent h1 _ => exact h1
  | step _ ih => exact ih

theorem lt (h : Above i j) : i < j := by
  induction h with
  | parent h1 he => omega
  | step _ ih => omega

theorem trans {k : ℕ} (hij : Above i j) (hjk : Above j k) : Above i k := by
  induction hjk with
  | parent _ he => exact step (he ▸ hij)
  | step _ ih => exact step ih

theorem of_child (h1 : 1 ≤ i) (h : j / 2 = i) : Above i j := parent h1 h

theorem of_grandchild (h1 : 1 ≤ i) (h : j / 4 = i) : Above i j :=
  step (parent h1 (by omega))

theorem half (h : Above i j) : i = j / 2 ∨ Above i (j / 2) := by
  cases h with
  | parent _ he => exact .inl he.symm
  | step h => exact .inr h

theorem quarter (h : Above i j) : i = j / 2 ∨ i = j / 4 ∨ Above i (j / 4) := by
  rcases h.half with he | h
  · exact .inl he
  have h4 : j / 2 / 2 = j / 4 := by omega
  rcases h.half with he | h
  · exact .inr (.inl (he.trans h4))
  · exact .inr (.inr (h4 ▸ h))

theorem two_below (h : Above i j) : j / 2 = i ∨ j / 4 = i ∨ ∃ g, g / 4 = i ∧ Above g j := by
  induction h with
  | parent _ he => exact .inl he
  | @step j h ih =>
    have hpos := h.pos
    rcases ih with he | he | ⟨g, hg, hgj⟩
    · exact .inr (.inl (by omega))
    · exact .inr (.inr ⟨j / 2, he, parent (by omega) rfl⟩)
    · exact .inr (.inr ⟨g, hg, step hgj⟩)

theorem of_root (h : 2 ≤ j) : Above 1 j := by
  induction j using Nat.strong_induction_on with
  | _ j ih =>
    by_cases h4 : 4 ≤ j
    · exact step (ih (j / 2) (by omega) (by omega))
    · exact parent le_rfl (by omega)

theorem of_root_children (h : 4 ≤ j) : Above 2 j ∨ Above 3 j := by
  induction j using Nat.strong_induction_on with
  | _ j ih =>
    by_cases h8 : 8 ≤ j
    · rcases ih (j / 2) (by omega) (by omega) with h2 | h3
      · exact .inl (step h2)
      · exact .inr (step h3)
    · by_cases h6 : 6 ≤ j
      · exact .inr (parent (by omega) (by omega))
      · exact .inl (parent (by omega) (by omega))

end Above

/-- What the comparator says of an element that belongs above another one on
the level of slot `i`. -/
def lead (i : ℕ) : Ordering := if Nat.log2 i % 2 = 0 then .lt else .gt

theorem lead_ne_eq (i : ℕ) : lead i ≠ .eq := by
  unfold lead
  split <;> decide

theorem log2_half {i : ℕ} (h : 2 ≤ i) : Nat.log2 i = Nat.log2 (i / 2) + 1 := by
  rw [Nat.log2_def, if_pos h]

theorem lead_half {i : ℕ} (h : 2 ≤ i) : lead (i / 2) = (lead i).swap := by
  unfold lead
  rw [log2_half h]
  by_cases he : Nat.log2 (i / 2) % 2 = 0
  · rw [if_pos he, if_neg (by omega)]
    rfl
  · rw [if_neg he, if_pos (by omega)]
    rfl

theorem lead_quarter {i : ℕ} (h : 4 ≤ i) : lead (i / 4) = lead i := by
  rw [show i / 4 = i / 2 / 2 by omega, lead_half (by omega), lead_half (by omega),
    Ordering.swap_swap]

/-! ## Elements that may stand above others -/

variable {α : Type} {cmp : α → α → Ordering} {v v' : ℕ → α} {hole n i j k m : ℕ}

/-- On a level led by `w`, `b` does not belong above `a`. -/
def Leads (cmp : α → α → Ordering) (w : Ordering) (a b : α) : Prop := cmp b a ≠ w

namespace Leads

variable {w : Ordering} {a b : α}

theorem refl [ReflCmp cmp] (hw : w ≠ .eq) (a : α) : Leads cmp w a a := by
  unfold Leads
  rw [@ReflCmp.compare_self α cmp]
  exact hw.symm

theorem swap [OrientedCmp cmp] (h : Leads cmp w a b) : Leads cmp w.swap b a := by
  unfold Leads at *
  rw [@OrientedCmp.eq_swap α cmp]
  simpa using h

theorem of_eq [OrientedCmp cmp] (hw : w ≠ .eq) (h : cmp a b = w) : Leads cmp w a b := by
  unfold Leads
  rw [@OrientedCmp.eq_swap α cmp, h]
  revert hw
  cases w <;> simp

theorem trans [TransCmp cmp] {c : α} (hw : w ≠ .eq) (hab : Leads cmp w a b)
    (hbc : Leads cmp w b c) : Leads cmp w a c := by
  unfold Leads at *
  cases w with
  | lt =>
    rw [ne_eq, ← Ordering.isGE_iff_ne_lt] at hab hbc ⊢
    exact TransCmp.isGE_trans hbc hab
  | eq => exact absurd rfl hw
  | gt =>
    rw [ne_eq, ← Ordering.isLE_iff_ne_gt] at hab hbc ⊢
    exact TransCmp.isLE_trans hbc hab

end Leads

/-- The content of slot `i` may stand above that of slot `j`. -/
def Dom (cmp : α → α → Ordering) (v : ℕ → α) (i j : ℕ) : Prop := Leads cmp (lead i) (v i) (v j)

/-- The slots `1 .. n` are in min-max order. -/
def Ordered (cmp : α → α → Ordering) (v : ℕ → α) (n : ℕ) : Prop :=
  ∀ i j, Above i j → j ≤ n → Dom cmp v i j

/-- Every slot but `hole` is in order with all slots below it. -/
def OrderedBelow (cmp : α → α → Ordering) (v : ℕ → α) (n hole : ℕ) : Prop :=
  ∀ i j, i ≠ hole → Above i j → j ≤ n → Dom cmp v i j

/-- All pairs of slots that leave out `hole` are in order. -/
def OrderedOff (cmp : α → α → Ordering) (v : ℕ → α) (n hole : ℕ) : Prop :=
  ∀ i j, i ≠ hole → j ≠ hole → Above i j → j ≤ n → Dom cmp v i j

/-- `v` with the contents of the slots `i` and `j` exchanged. -/
def exchange (v : ℕ → α) (i j : ℕ) : ℕ → α :=
  Function.update (Function.update v i (v j)) j (v i)

/-- `v'` is `v` with the contents of the slots `i` and `j` exchanged. -/
structure Exchanged (v v' : ℕ → α) (i j : ℕ) : Prop where
  left : v' i = v j
  right : v' j = v i
  other : ∀ k, k ≠ i → k ≠ j → v' k = v k

theorem exchange_exchanged (v : ℕ → α) (h : i ≠ j) : Exchanged v (exchange v i j) i j := by
  constructor
  · simp [exchange, h]
  · simp [exchange]
  · intro k hi hj
    simp [exchange, hi, hj]

theorem OrderedBelow.leaf (h : OrderedBelow cmp v n hole)
    (hleaf : n < 2 * hole) : Ordered cmp v n := by
  intro i j hij hj
  by_cases hi : i = hole
  · have hpos := hij.pos
    rcases hij.half with he | h'
    · omega
    · have := h'.lt
      omega
  · exact h i j hi hij hj

/-! ## Moving up -/

/-- The content of slot `k` moves up the levels of its kind: what is not in
order with it is above it on such a level. Nothing is said about what is below
`hole`. -/
def Rising (cmp : α → α → Ordering) (v : ℕ → α) (n hole k : ℕ) : Prop :=
  ∀ i j, i ≠ hole → Above i j → j ≤ n → (j ≠ k ∨ lead i ≠ lead k) → Dom cmp v i j

theorem Rising.top (h : Rising cmp v n hole k) (hk : k / 4 = 0) : OrderedBelow cmp v n hole := by
  intro i j hi hij hj
  apply h i j hi hij hj
  by_cases hjk : j = k
  · right
    subst hjk
    have hpos := hij.pos
    have hhalf : i = j / 2 := by
      rcases hij.quarter with he | he | h'
      · exact he
      · omega
      · have := h'.lt
        omega
    rw [hhalf, lead_half (by omega)]
    have := lead_ne_eq j
    revert this
    cases lead j <;> simp
  · exact .inl hjk

/-- Below an element of its own kind that leads it the element has arrived. -/
theorem Rising.stop [TransCmp cmp] (h : Rising cmp v n hole k) (hkh : k ≤ hole) (hk4 : 4 ≤ k)
    (hk : Leads cmp (lead k) (v (k / 4)) (v k)) : OrderedBelow cmp v n hole := by
  intro i j hi hij hj
  by_cases hjk : j = k ∧ lead i = lead k
  · obtain ⟨rfl, hlead⟩ := hjk
    unfold Dom
    rw [hlead]
    rcases hij.quarter with he | he | h'
    · rw [he, lead_half (by omega)] at hlead
      have := lead_ne_eq j
      revert this hlead
      cases lead j <;> simp
    · rw [he]
      exact hk
    · have hd := h i (j / 4) hi h' (by omega) (.inl (by omega))
      unfold Dom at hd
      rw [hlead] at hd
      exact hd.trans (lead_ne_eq j) hk
  · apply h i j hi hij hj
    by_cases hj' : j = k
    · exact .inr fun hl => hjk ⟨hj', hl⟩
    · exact .inl hj'

/-- One turn: the element changes places with its grandparent. -/
theorem Rising.swap [TransCmp cmp] (h : Rising cmp v n hole k)
    (hkh : k ≤ hole) (hkn : k ≤ n) (hk4 : 4 ≤ k) (hk : cmp (v k) (v (k / 4)) = lead k)
    (hv : Exchanged v v' k (k / 4)) : Rising cmp v' n hole (k / 4) := by
  have hw := lead_ne_eq k
  have hlead4 := lead_quarter hk4
  have habove : Above (k / 4) k := Above.of_grandchild (by omega) rfl
  -- everything below the grandparent, save the element itself, is led by it
  have hdown : ∀ j, Above (k / 4) j → j ≤ n → j ≠ k →
      Leads cmp (lead k) (v (k / 4)) (v j) := by
    intro j hj hjn hjk
    have := h (k / 4) j (by omega) hj hjn (.inl hjk)
    rwa [Dom, hlead4] at this
  have hkey : Leads cmp (lead k) (v k) (v (k / 4)) := Leads.of_eq hw hk
  intro i j hi hij hj hc
  have hlt := hij.lt
  unfold Dom
  by_cases hi4 : i = k / 4
  · subst hi4
    rw [hv.right, hlead4]
    by_cases hjk : j = k
    · rw [hjk, hv.left]
      exact hkey
    · rw [hv.other j hjk (by omega)]
      exact hkey.trans hw (hdown j hij hj hjk)
  by_cases hik : i = k
  · subst hik
    rw [hv.left, hv.other j (by omega) (by omega)]
    exact hdown j (habove.trans hij) hj (by omega)
  rw [hv.other i hik hi4]
  by_cases hjk : j = k
  · subst hjk
    rw [hv.left]
    rcases hij.quarter with he | he | h'
    · rw [he, lead_half (by omega)]
      exact (hdown (j / 2) (Above.of_child (by omega) (by omega)) (by omega)
        (by omega)).swap
    · exact absurd he hi4
    · exact h i (j / 4) hi h' (by omega) (.inl (by omega))
  · by_cases hj4 : j = k / 4
    · subst hj4
      rw [hv.right]
      have hli : lead i ≠ lead k := by
        rcases hc with hc | hc
        · exact absurd rfl hc
        · rwa [hlead4] at hc
      exact h i k hi (hij.trans habove) hkn (.inr hli)
    · rw [hv.other j hjk hj4]
      exact h i j hi hij hj (.inl hjk)

/-- A new element that belongs on the level of its slot starts to rise there. -/
theorem OrderedOff.rising [TransCmp cmp] (h : OrderedOff cmp v n k) (hk2 : 2 ≤ k) (hkn : k ≤ n)
    (hk : Leads cmp (lead k) (v k) (v (k / 2))) : Rising cmp v n k k := by
  have hw := lead_ne_eq k
  intro i j hi hij hj hc
  by_cases hjk : j = k
  · subst hjk
    have hli : lead i ≠ lead j := by
      rcases hc with hc | hc
      · exact absurd rfl hc
      · exact hc
    have hswap : lead i = (lead j).swap := by
      have := lead_ne_eq i
      revert this hw hli
      cases lead i <;> cases lead j <;> simp
    unfold Dom
    rw [hswap]
    rcases hij.half with he | h'
    · rw [he]
      exact hk.swap
    have hd := h i (j / 2) hi (by omega) h' (by omega)
    unfold Dom at hd
    rw [hswap] at hd
    refine hd.trans ?_ hk.swap
    revert hw
    cases lead j <;> simp
  · exact h i j hi hjk hij hj

/-- A new element that does not belong on the level of its slot changes places
with its parent and starts to rise there. -/
theorem OrderedOff.rising_parent [TransCmp cmp] (h : OrderedOff cmp v n k) (hk2 : 2 ≤ k)
    (hkn : k ≤ n) (hk : cmp (v k) (v (k / 2)) = (lead k).swap) (hv : Exchanged v v' k (k / 2)) :
    Rising cmp v' n k (k / 2) := by
  have hw := lead_ne_eq k
  have hw' := lead_ne_eq (k / 2)
  have hhalf := lead_half hk2
  have hkey : Leads cmp (lead (k / 2)) (v k) (v (k / 2)) := Leads.of_eq hw' (hk.trans hhalf.symm)
  intro i j hi hij hj hc
  have hlt := hij.lt
  unfold Dom
  by_cases hip : i = k / 2
  · subst hip
    rw [hv.right]
    by_cases hjk : j = k
    · rw [hjk, hv.left]
      exact hkey
    · rw [hv.other j hjk (by omega)]
      exact hkey.trans hw' (h (k / 2) j (by omega) hjk hij hj)
  rw [hv.other i hi hip]
  by_cases hjk : j = k
  · subst hjk
    rw [hv.left]
    rcases hij.half with he | h'
    · exact absurd he hip
    · exact h i (j / 2) hi (by omega) h' (by omega)
  by_cases hjp : j = k / 2
  · subst hjp
    rw [hv.right]
    have hli : lead i = lead k := by
      have h1 := lead_ne_eq i
      have h2 : lead i ≠ (lead k).swap := by
        rcases hc with hc | hc
        · exact absurd rfl hc
        · rwa [hhalf] at hc
      revert h1 h2 hw
      cases lead i <;> cases lead k <;> simp
    have hd := h i (k / 2) hi (by omega) hij hj
    unfold Dom at hd
    rw [hli] at hd ⊢
    refine hd.trans hw ?_
    have := hkey.swap
    rwa [hhalf, Ordering.swap_swap] at this
  · rw [hv.other j hjk hjp]
    exact h i j hi hjk hij hj

/-! ## Moving down -/

section

variable [TransCmp cmp] (h : OrderedBelow cmp v n hole)

include h

/-- A child or grandchild `m` of `hole` whose content leads all others of them
leads everything below `hole`. -/
theorem OrderedBelow.best (hpos : 1 ≤ hole)
    (hchild : ∀ c, c ≤ n → c / 2 = hole → Leads cmp (lead hole) (v m) (v c))
    (hgrand : ∀ c, c ≤ n → c / 4 = hole → Leads cmp (lead hole) (v m) (v c)) :
    ∀ j, Above hole j → j ≤ n → Leads cmp (lead hole) (v m) (v j) := by
  intro j hj hjn
  rcases hj.two_below with hc | hc | ⟨g, hg, hgj⟩
  · exact hchild j hjn hc
  · exact hgrand j hjn hc
  · have hlt := hgj.lt
    have hd := h g j (by omega) hgj hjn
    rw [Dom, ← lead_quarter (by omega), hg] at hd
    exact (hgrand g (by omega) hg).trans (lead_ne_eq hole) hd

variable (hbest : ∀ j, Above hole j → j ≤ n → Leads cmp (lead hole) (v m) (v j))

include hbest

/-- When the best of the elements below the hole does not lead its content,
the hole is in order. -/
theorem OrderedBelow.stop (hm : Leads cmp (lead hole) (v hole) (v m)) : Ordered cmp v n := by
  intro i j hij hj
  by_cases hi : i = hole
  · subst hi
    exact hm.trans (lead_ne_eq i) (hbest j hij hj)
  · exact h i j hi hij hj

variable (hmn : m ≤ n) (hlt : cmp (v m) (v hole) = lead hole) (hv : Exchanged v v' hole m)

include hmn hlt hv

/-- The best of the elements below the hole goes there. What is above the hole
or leaves out the slot `m` stays in order, and so is the hole. -/
theorem OrderedBelow.swap (hm : Above hole m) :
    ∀ i j, i ≠ m → Above i j → j ≤ n → (j = m → Above i hole ∨ i = hole) → Dom cmp v' i j := by
  have hmh := hm.lt
  intro i j him hij hj hc
  have hijlt := hij.lt
  unfold Dom
  by_cases hi : i = hole
  · subst hi
    rw [hv.left]
    by_cases hjm : j = m
    · rw [hjm, hv.right]
      exact Leads.of_eq (lead_ne_eq i) hlt
    · rw [hv.other j (by omega) hjm]
      exact hbest j hij hj
  · rw [hv.other i hi him]
    by_cases hjh : j = hole
    · subst hjh
      rw [hv.left]
      exact h i m hi (hij.trans hm) hmn
    by_cases hjm : j = m
    · subst hjm
      rw [hv.right]
      rcases hc rfl with hc | hc
      · exact h i hole hi hc (by omega)
      · exact absurd hc hi
    · rw [hv.other j hjh hjm]
      exact h i j hi hij hj

/-- A child with nothing below it ends the way down. -/
theorem OrderedBelow.swap_child (hpos : 1 ≤ hole) (hm : m / 2 = hole) :
    OrderedBelow cmp v' n m := by
  intro i j him hij hj
  apply h.swap hbest hmn hlt hv (Above.of_child hpos hm) i j him hij hj
  rintro rfl
  rcases hij.half with he | h'
  · exact .inr (he.trans hm)
  · exact .inl (hm ▸ h')

/-- A grandchild that leads the element it changes places with. If that
element stays in order with the slot between, the hole moves to `m`. -/
theorem OrderedBelow.swap_grandchild (hpos : 1 ≤ hole) (hm : m / 4 = hole)
    (hbetween : Leads cmp (lead hole) (v' m) (v' (m / 2))) : OrderedBelow cmp v' n m := by
  intro i j him hij hj
  by_cases hbad : j = m ∧ i = m / 2
  · obtain ⟨rfl, rfl⟩ := hbad
    rw [Dom, lead_half (by omega), ← lead_quarter (by omega), hm]
    exact hbetween.swap
  apply h.swap hbest hmn hlt hv (Above.of_grandchild hpos hm) i j him hij hj
  rintro rfl
  rcases hij.quarter with he | he | h'
  · exact absurd ⟨rfl, he⟩ hbad
  · exact .inr (he.trans hm)
  · exact .inl (hm ▸ h')

/-- The same when the element does not stay in order with the slot between
and changes places with its content as well. -/
theorem OrderedBelow.swap_between {w : ℕ → α} (hpos : 1 ≤ hole) (hm : m / 4 = hole)
    (hbetween : cmp (v' m) (v' (m / 2)) = (lead hole).swap)
    (hw : Exchanged v' w (m / 2) m) : OrderedBelow cmp w n m := by
  have hstep := h.swap hbest hmn hlt hv (Above.of_grandchild hpos hm)
  have hleadq : lead (m / 2) = (lead hole).swap := by
    rw [lead_half (by omega), ← lead_quarter (by omega), hm]
  have hbelow : Above (m / 2) m := Above.of_child (by omega) rfl
  have hkey : Leads cmp (lead (m / 2)) (v' m) (v' (m / 2)) :=
    Leads.of_eq (lead_ne_eq _) (hbetween.trans hleadq.symm)
  intro i j him hij hj
  have hijlt := hij.lt
  unfold Dom
  by_cases hi : i = m / 2
  · subst hi
    rw [hw.left]
    by_cases hjm : j = m
    · rw [hjm, hw.right]
      exact hkey
    · rw [hw.other j (by omega) hjm]
      exact hkey.trans (lead_ne_eq _)
        (hstep (m / 2) j him hij hj (fun he => absurd he hjm))
  rw [hw.other i hi him]
  by_cases hjq : j = m / 2
  · subst hjq
    rw [hw.left]
    apply hstep i m him (hij.trans hbelow) hmn
    intro _
    rcases hij.half with he | h'
    · exact .inr (by omega)
    · exact .inl (by rwa [show m / 2 / 2 = hole by omega] at h')
  · by_cases hjm : j = m
    · subst hjm
      rw [hw.right]
      rcases hij.half with he | h'
      · exact absurd he hi
      · exact hstep i (j / 2) him h' (by omega) (fun he => by omega)
    · rw [hw.other j hjq hjm]
      exact hstep i j him hij hj (fun he => absurd he hjm)

end

end Library.MinMax
