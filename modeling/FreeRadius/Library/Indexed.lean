import FreeRadius.Library.Block

/-!
# Arrays whose elements record their position

An array of elements together with the position that every element records
about itself. The operations are single assignments; the lemmas follow a hole,
that is, the one slot whose content does not record its position, through an
exchange of two slots.
-/

namespace Library

/-- An array of elements, and the position each element records. -/
structure Indexed (α : Type) where
  p : Block α
  index : α → ℕ

namespace Indexed

variable {α : Type} {a b : Indexed α} {n hole i j : ℕ} {y x : α}

def setSlot (a : Indexed α) (i : ℕ) (x : α) : Option (Indexed α) := do
  let p ← a.p.write i x
  some { a with p := p }

def swap (a : Indexed α) (i j : ℕ) : Option (Indexed α) := do
  let x ← a.p.read i
  let y ← a.p.read j
  let a ← a.setSlot i y
  a.setSlot j x

theorem setSlot_spec (a : Indexed α) (x : α) (hi : i < a.p.size) :
    ∃ a', a.setSlot i x = some a' ∧ a'.p.size = a.p.size ∧ a'.index = a.index ∧
      ∀ j, a'.p.read j = if j = i then some x else a.p.read j := by
  obtain ⟨p, hp⟩ := Block.write_of_lt x hi
  exact ⟨{ a with p := p }, by simp [setSlot, hp], Block.size_write hp, rfl, Block.read_write hp⟩

theorem swap_spec (hx : a.p.read i = some x) (hy : a.p.read j = some y) :
    ∃ a', a.swap i j = some a' ∧ a'.p.size = a.p.size ∧ a'.index = a.index ∧
      ∀ k, a'.p.read k = if k = j then some x else if k = i then some y else a.p.read k := by
  obtain ⟨b, hb, hbs, hbi, hbr⟩ := a.setSlot_spec y (Block.lt_size_of_read hx)
  obtain ⟨c, hc, hcs, hci, hcr⟩ := b.setSlot_spec x (hbs ▸ Block.lt_size_of_read hy)
  refine ⟨c, by simp [swap, hx, hy, hb, hc], hcs.trans hbs, hci.trans hbi, ?_⟩
  intro k
  rw [hcr, hbr]

/-- Each of the slots `1 .. n` other than `hole` holds an element that records
the slot, and apart from `y` no further element records one. -/
structure Placed (a : Indexed α) (n hole : ℕ) (y : α) : Prop where
  filled : ∀ i, 1 ≤ i → i ≤ n → i ≠ hole → ∃ x, x ≠ y ∧ a.p.read i = some x ∧ a.index x = i
  stored : ∀ x, x ≠ y → a.index x ≠ 0 →
    1 ≤ a.index x ∧ a.index x ≤ n ∧ a.index x ≠ hole ∧ a.p.read (a.index x) = some x

/-- Each of the slots `1 .. n` holds an element that records the slot, and no
further element records one. -/
structure Complete (a : Indexed α) (n : ℕ) : Prop where
  filled : ∀ i, 1 ≤ i → i ≤ n → ∃ x, a.p.read i = some x ∧ a.index x = i
  stored : ∀ x, a.index x ≠ 0 →
    1 ≤ a.index x ∧ a.index x ≤ n ∧ a.p.read (a.index x) = some x

theorem Placed.index_eq (h : Placed a n hole y) (h1 : 1 ≤ i) (hn : i ≤ n) (hi : i ≠ hole)
    (hx : a.p.read i = some x) : x ≠ y ∧ a.index x = i := by
  obtain ⟨z, hzy, hz, hzi⟩ := h.filled i h1 hn hi
  rw [hx] at hz
  cases hz
  exact ⟨hzy, hzi⟩

theorem Complete.index_eq (h : Complete a n)
    (h1 : 1 ≤ i) (hn : i ≤ n) (hx : a.p.read i = some x) : a.index x = i := by
  obtain ⟨z, hz, hzi⟩ := h.filled i h1 hn
  rw [hx] at hz
  cases hz
  exact hzi

/-- An element records a position exactly when it is in one of the slots. -/
theorem Complete.index_ne_zero_iff (h : Complete a n) (x : α) :
    a.index x ≠ 0 ↔ ∃ i, 1 ≤ i ∧ i ≤ n ∧ a.p.read i = some x := by
  constructor
  · intro hx
    obtain ⟨h1, hn, hr⟩ := h.stored x hx
    exact ⟨a.index x, h1, hn, hr⟩
  · rintro ⟨i, h1, hn, hx⟩
    have := h.index_eq h1 hn hx
    omega

theorem index_ne_of_read (hx : a.p.read (a.index x) = some x) (hy : a.p.read i = some y)
    (hne : x ≠ y) : a.index x ≠ i := by
  rintro rfl
  exact hne (Option.some.inj (hx.symm.trans hy))

theorem Complete.placed (h : Complete a n)
    (hhole : 1 ≤ hole ∧ hole ≤ n) (hy : a.p.read hole = some y) : Placed a n hole y := by
  have hyi := h.index_eq hhole.1 hhole.2 hy
  constructor
  · intro i h1 hn hi
    obtain ⟨x, hx, hxi⟩ := h.filled i h1 hn
    refine ⟨x, ?_, hx, hxi⟩
    rintro rfl
    omega
  · intro x hxy hx
    obtain ⟨h1, hn, hr⟩ := h.stored x hx
    exact ⟨h1, hn, index_ne_of_read hr hy hxy, hr⟩

theorem complete_zero (h : ∀ x, a.index x = 0) : Complete a 0 := by
  constructor
  · intro i h1 hn
    omega
  · intro x hx
    exact absurd (h x) hx

theorem Complete.congr (h : Complete a n) (hindex : b.index = a.index)
    (hread : ∀ i, 1 ≤ i → i ≤ n → b.p.read i = a.p.read i) : Complete b n := by
  constructor
  · intro i h1 hn
    obtain ⟨x, hx, hxi⟩ := h.filled i h1 hn
    exact ⟨x, (hread i h1 hn).trans hx, by rw [hindex, hxi]⟩
  · intro x hx
    rw [hindex] at hx ⊢
    obtain ⟨h1, hn, hr⟩ := h.stored x hx
    exact ⟨h1, hn, (hread _ h1 hn).trans hr⟩

theorem Complete.append (h : Complete a n) (hy : a.index y = 0) (hindex : b.index = a.index)
    (hread : ∀ i, i ≤ n → b.p.read i = a.p.read i) : Placed b (n + 1) (n + 1) y := by
  constructor
  · intro i h1 hn hi
    obtain ⟨x, hx, hxi⟩ := h.filled i h1 (by omega)
    refine ⟨x, ?_, (hread i (by omega)).trans hx, by rw [hindex, hxi]⟩
    rintro rfl
    omega
  · intro x _ hx
    rw [hindex] at hx ⊢
    obtain ⟨h1, hn, hr⟩ := h.stored x hx
    exact ⟨h1, by omega, by omega, (hread _ hn).trans hr⟩

/-- The content of the last slot fills the hole of an element that left. -/
theorem Placed.fill {data : α} (h : Placed a n hole data) (hle : hole ≤ n) (hne : hole ≠ n)
    (hgone : a.index data = 0) (hy : a.p.read n = some y) (hindex : b.index = a.index)
    (hread : ∀ i, i ≤ n → i ≠ hole → b.p.read i = a.p.read i) : Placed b (n - 1) hole y := by
  have hyi := (h.index_eq (by omega) le_rfl hne.symm hy).2
  constructor
  · intro i h1 hi hih
    obtain ⟨x, -, hx, hxi⟩ := h.filled i h1 (by omega) hih
    refine ⟨x, ?_, by rw [hread i (by omega) hih, hx], by rw [hindex, hxi]⟩
    rintro rfl
    omega
  intro x hxy hx
  rw [hindex] at hx ⊢
  have hxd : x ≠ data := by
    rintro rfl
    exact hx hgone
  obtain ⟨h1, hm, hh, hr⟩ := h.stored x hxd hx
  have hxm := index_ne_of_read hr hy hxy
  exact ⟨h1, by omega, hh, by rw [hread _ hm hh, hr]⟩

/-- A hole in the last slot of an element that left needs no filling. -/
theorem Placed.dropLast {data : α} (h : Placed a n n data)
    (hgone : a.index data = 0) : Complete a (n - 1) := by
  constructor
  · intro i h1 hi
    obtain ⟨x, -, hx, hxi⟩ := h.filled i h1 (by omega) (by omega)
    exact ⟨x, hx, hxi⟩
  intro x hx
  have hxd : x ≠ data := by
    rintro rfl
    exact hx hgone
  obtain ⟨h1, hm, hh, hr⟩ := h.stored x hxd hx
  exact ⟨h1, by omega, hr⟩

variable [DecidableEq α]

/-- Assignment to the position that one element records. -/
def indexSet (a : Indexed α) (x : α) (i : ℕ) : Indexed α :=
  { a with index := Function.update a.index x i }

/-- The content of slot `i` records `i`. -/
def offsetSet (a : Indexed α) (i : ℕ) : Option (Indexed α) := do
  let x ← a.p.read i
  some (a.indexSet x i)

/-- The content of slot `i` records that it is in no array. -/
def offsetReset (a : Indexed α) (i : ℕ) : Option (Indexed α) := do
  let x ← a.p.read i
  some (a.indexSet x 0)

@[simp] theorem indexSet_p (a : Indexed α) (x : α) (i : ℕ) : (a.indexSet x i).p = a.p := rfl

@[simp] theorem indexSet_self (a : Indexed α) (x : α) (i : ℕ) : (a.indexSet x i).index x = i := by
  simp [indexSet]

theorem indexSet_ne (a : Indexed α) (i : ℕ) (h : y ≠ x) : (a.indexSet x i).index y = a.index y := by
  simp [indexSet, h]

theorem offsetSet_spec (hx : a.p.read i = some x) : a.offsetSet i = some (a.indexSet x i) := by
  simp [offsetSet, hx]

theorem offsetReset_spec (hx : a.p.read i = some x) : a.offsetReset i = some (a.indexSet x 0) := by
  simp [offsetReset, hx]

/-- The content `x` of slot `j` goes to the hole, which moves to `j`. -/
theorem Placed.move (h : Placed a n hole y)
    (hhole : 1 ≤ hole ∧ hole ≤ n) (hj : 1 ≤ j ∧ j ≤ n) (hne : j ≠ hole) (hx : a.p.read j = some x)
    (hread : ∀ i, i ≠ j → b.p.read i = if i = hole then some x else a.p.read i)
    (hindex : b.index = Function.update a.index x hole) : Placed b n j y := by
  obtain ⟨hxy, hxj⟩ := h.index_eq hj.1 hj.2 hne hx
  constructor
  · intro i h1 hn hij
    by_cases hi : i = hole
    · subst hi
      exact ⟨x, hxy, by simp [hread i hij], by simp [hindex]⟩
    obtain ⟨z, hzy, hz, hzi⟩ := h.filled i h1 hn hi
    have hzx : z ≠ x := by
      rintro rfl
      exact hij (hzi.symm.trans hxj)
    exact ⟨z, hzy, by simp [hread i hij, hi, hz], by simp [hindex, hzx, hzi]⟩
  · intro z hzy hz
    by_cases hzx : z = x
    · subst hzx
      have hzi : b.index z = hole := by simp [hindex]
      rw [hzi]
      exact ⟨hhole.1, hhole.2, hne.symm, by simp [hread hole hne.symm]⟩
    have hzi : b.index z = a.index z := by simp [hindex, hzx]
    rw [hzi] at hz ⊢
    obtain ⟨h1, hn, hh, hr⟩ := h.stored z hzy hz
    have hzj := index_ne_of_read hr hx hzx
    exact ⟨h1, hn, hzj, by simp [hread _ hzj, hh, hr]⟩

/-- The content `y` of the hole changes places with the content `z` of slot
`j` and records it; the hole stays, with `z` in it. -/
theorem Placed.exchange {z : α} (h : Placed a n hole y)
    (hj : 1 ≤ j ∧ j ≤ n) (hne : j ≠ hole) (hz : a.p.read j = some z)
    (hread : ∀ i, i ≠ hole → b.p.read i = if i = j then some y else a.p.read i)
    (hindex : b.index = Function.update a.index y j) : Placed b n hole z := by
  obtain ⟨hzy, hzj⟩ := h.index_eq hj.1 hj.2 hne hz
  constructor
  · intro i h1 hn hi
    by_cases hij : i = j
    · subst hij
      exact ⟨y, hzy.symm, by simp [hread i hi], by simp [hindex]⟩
    obtain ⟨x, hxy, hx, hxi⟩ := h.filled i h1 hn hi
    have hxz : x ≠ z := by
      rintro rfl
      exact hij (hxi.symm.trans hzj)
    exact ⟨x, hxz, by simp [hread i hi, hij, hx], by simp [hindex, hxy, hxi]⟩
  · intro x hxz hx
    by_cases hxy : x = y
    · subst hxy
      have hxi : b.index x = j := by simp [hindex]
      rw [hxi]
      exact ⟨hj.1, hj.2, hne, by simp [hread j hne]⟩
    have hxi : b.index x = a.index x := by simp [hindex, hxy]
    rw [hxi] at hx ⊢
    obtain ⟨h1, hn, hh, hr⟩ := h.stored x hxy hx
    have hxj := index_ne_of_read hr hz hxz
    exact ⟨h1, hn, hh, by simp [hread _ hh, hxj, hr]⟩

theorem Placed.settle (h : Placed a n hole y) (hhole : 1 ≤ hole ∧ hole ≤ n)
    (hy : a.p.read hole = some y) : Complete (a.indexSet y hole) n := by
  constructor
  · intro i h1 hn
    by_cases hi : i = hole
    · subst hi
      exact ⟨y, hy, indexSet_self a y i⟩
    · obtain ⟨x, hxy, hx, hxi⟩ := h.filled i h1 hn hi
      exact ⟨x, hx, by rw [indexSet_ne _ _ hxy, hxi]⟩
  intro x hx
  by_cases hxy : x = y
  · subst hxy
    rw [indexSet_self]
    exact ⟨hhole.1, hhole.2, hy⟩
  · rw [indexSet_ne _ _ hxy] at hx ⊢
    obtain ⟨h1, hn, -, hr⟩ := h.stored x hxy hx
    exact ⟨h1, hn, hr⟩

/-- The content of one slot that stops recording it leaves a hole there. -/
theorem Complete.remove (h : Complete a n) (hhole : 1 ≤ hole ∧ hole ≤ n)
    (hy : a.p.read hole = some y) : Placed (a.indexSet y 0) n hole y := by
  have hyi := h.index_eq hhole.1 hhole.2 hy
  constructor
  · intro i h1 hn hi
    obtain ⟨x, hx, hxi⟩ := h.filled i h1 hn
    have hxy : x ≠ y := by
      rintro rfl
      omega
    exact ⟨x, hxy, hx, by rw [indexSet_ne _ _ hxy, hxi]⟩
  · intro x hxy hx
    rw [indexSet_ne _ _ hxy] at hx ⊢
    obtain ⟨h1, hn, hr⟩ := h.stored x hx
    exact ⟨h1, hn, index_ne_of_read hr hy hxy, hr⟩

theorem indexSet_ne_zero_iff (a : Indexed α) (y : α) (hi : i ≠ 0) (x : α) :
    (a.indexSet y i).index x ≠ 0 ↔ x = y ∨ a.index x ≠ 0 := by
  by_cases hxy : x = y
  · subst hxy
    simp [hi]
  · simp [indexSet_ne _ _ hxy, hxy]

theorem indexSet_ne_zero_of_ne_zero (a : Indexed α) (hi : i ≠ 0)
    (hy : a.index y ≠ 0) (x : α) : (a.indexSet y i).index x ≠ 0 ↔ a.index x ≠ 0 := by
  rw [indexSet_ne_zero_iff a y hi]
  constructor
  · rintro (rfl | hx)
    · exact hy
    · exact hx
  · exact .inr

theorem indexSet_zero_ne_zero_iff (a : Indexed α) (y x : α) :
    (a.indexSet y 0).index x ≠ 0 ↔ x ≠ y ∧ a.index x ≠ 0 := by
  by_cases hxy : x = y
  · subst hxy
    simp
  · simp [indexSet_ne _ _ hxy, hxy]

end Indexed
end Library
