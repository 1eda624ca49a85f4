import Mathlib.Tactic

/-!
# Allocated blocks of cells

A block is a contiguous allocation of a known number of cells. A cell that has
never been written holds `none`. Reading an unwritten cell, or reading or
writing outside the allocation, has no defined result: both operations answer
`none`, so a computation that touches such a cell is stuck rather than wrong.
-/

namespace Library

open List

/-- A contiguous allocation; `none` marks a cell without a defined content. -/
structure Block (α : Type) where
  cells : List (Option α)
  deriving DecidableEq, Repr

namespace Block

variable {α : Type} {b : Block α} {i : ℕ}

def size (b : Block α) : ℕ := b.cells.length

/-- A fresh allocation of `n` cells, all of them unwritten. -/
def alloc (n : ℕ) : Block α := ⟨replicate n none⟩

def read (b : Block α) (i : ℕ) : Option α := b.cells[i]?.join

def write (b : Block α) (i : ℕ) (x : α) : Option (Block α) :=
  if i < b.size then some ⟨b.cells.set i (some x)⟩ else none

/-- Resize the allocation. Cells below both sizes keep their content, cells
past the old size are unwritten, and cells past the new size are gone. -/
def realloc (b : Block α) (n : ℕ) : Block α :=
  ⟨b.cells.take n ++ replicate (n - b.size) none⟩

@[simp] theorem size_alloc (n : ℕ) : (alloc n : Block α).size = n := by
  simp [size, alloc]

@[simp] theorem size_realloc (b : Block α) (n : ℕ) : (b.realloc n).size = n := by
  simp only [size, realloc, length_append, length_take, length_replicate]
  omega

theorem lt_size_of_read {x : α} (h : b.read i = some x) : i < b.size := by
  by_contra hi
  have hnone : b.cells[i]? = none := getElem?_eq_none (by simpa [size] using hi)
  simp [read, hnone] at h

theorem read_realloc {n : ℕ} (hi : i < n) : (b.realloc n).read i = b.read i := by
  by_cases hb : i < b.size
  · have hlen : i < (b.cells.take n).length := by
      simp only [length_take]
      exact lt_min hi hb
    simp [read, realloc, getElem?_append_left hlen, hi]
  have hle : (b.cells.take n).length ≤ i := by
    simp only [length_take]
    exact (min_le_right _ _).trans (by simpa [size] using hb)
  have hnone : b.cells[i]? = none := getElem?_eq_none (by simpa [size] using hb)
  simp only [read, realloc, getElem?_append_right hle, hnone, getElem?_replicate]
  split_ifs <;> rfl

theorem write_of_lt (x : α) (hi : i < b.size) : ∃ b', b.write i x = some b' := by
  simp [write, hi]

theorem read_write {b' : Block α} {x : α} (h : b.write i x = some b') (j : ℕ) :
    b'.read j = if j = i then some x else b.read j := by
  unfold write at h
  split_ifs at h with hi
  cases h
  by_cases hj : j = i
  · subst hj
    have hi' : j < b.cells.length := hi
    simp [read, hi']
  · have hij : i ≠ j := fun h => hj h.symm
    simp [read, hj, getElem?_set_ne hij]

theorem size_write {b' : Block α} {x : α} (h : b.write i x = some b') : b'.size = b.size := by
  unfold write at h
  split_ifs at h
  cases h
  simp [size]

end Block
end Library
