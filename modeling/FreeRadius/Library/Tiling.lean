import Mathlib.Data.List.Pairwise
import Mathlib.Algebra.BigOperators.Group.List.Basic
import Mathlib.Tactic.Linarith

/-!
# Spans that tile an interval

A list of spans of bytes that cover an interval from its start to its end, one
right behind the other. A span without bytes may be anywhere.
-/

namespace Library

/-- Some bytes in a row. -/
structure Span where
  offset : ℕ
  size : ℕ
  deriving DecidableEq, Repr

/-- The spans have a byte in common. -/
def Span.Overlap (a b : Span) : Prop :=
  ∃ i, (a.offset ≤ i ∧ i < a.offset + a.size) ∧ (b.offset ≤ i ∧ i < b.offset + b.size)

/-- All bytes of the span are in the interval. -/
def Span.Within (lo hi : ℕ) (b : Span) : Prop :=
  b.size = 0 ∨ (lo ≤ b.offset ∧ b.offset + b.size ≤ hi)

variable {lo hi lo' : ℕ} {b a : Span}

theorem Span.Within.mono {hi' : ℕ} (h : b.Within lo hi) (hlo : lo' ≤ lo) (hhi : hi ≤ hi') :
    b.Within lo' hi' :=
  h.imp_right fun h => ⟨hlo.trans h.1, h.2.trans hhi⟩

theorem Span.Within.not_overlap {mid mid' : ℕ} (ha : a.Within lo mid) (hb : b.Within mid' hi)
    (hmid : mid ≤ mid') : ¬a.Overlap b := by
  rintro ⟨i, hia, hib⟩
  rcases ha with ha | ha <;> rcases hb with hb | hb <;> omega

theorem Span.Overlap.symm (h : a.Overlap b) : b.Overlap a :=
  let ⟨i, ha, hb⟩ := h
  ⟨i, hb, ha⟩

def total (spans : List Span) : ℕ := (spans.map Span.size).sum

@[simp] theorem total_cons (b : Span) (spans : List Span) : total (b :: spans) = b.size + total spans := by
  simp [total]

@[simp] theorem total_append (a b : List Span) : total (a ++ b) = total a + total b := by
  simp [total]

/-- The spans tile the bytes from `lo` to `hi`. -/
def Tiles : ℕ → ℕ → List Span → Prop
  | lo, hi, [] => lo = hi
  | lo, hi, b :: rest => (b.size = 0 ∨ b.offset = lo) ∧ Tiles (lo + b.size) hi rest

variable {lo mid hi : ℕ} {a b : List Span}

theorem Tiles.append (ha : Tiles lo mid a) (hb : Tiles mid hi b) : Tiles lo hi (a ++ b) := by
  induction a generalizing lo with
  | nil =>
    obtain rfl : lo = mid := ha
    exact hb
  | cons x a ih => exact ⟨ha.1, ih ha.2⟩

theorem tiles_singleton (lo size : ℕ) : Tiles lo (lo + size) [⟨lo, size⟩] := ⟨.inr rfl, rfl⟩

theorem Tiles.total_eq (h : Tiles lo hi a) : lo + total a = hi := by
  induction a generalizing lo with
  | nil => exact h
  | cons x a ih =>
    rw [total_cons, ← Nat.add_assoc]
    exact ih h.2

theorem Tiles.shift (h : Tiles lo lo a) : Tiles lo' lo' a := by
  have hzero : total a = 0 := by
    have := h.total_eq
    omega
  clear h
  induction a with
  | nil => rfl
  | cons x a ih =>
    rw [total_cons] at hzero
    have hx : x.size = 0 := by omega
    exact ⟨.inl hx, by rw [hx]; exact ih (by omega)⟩

theorem Tiles.within (h : Tiles lo hi a) : ∀ x ∈ a, x.Within lo hi := by
  induction a generalizing lo with
  | nil => simp
  | cons x a ih =>
    intro y hy
    have hle := h.2.total_eq
    rcases List.mem_cons.mp hy with rfl | hy
    · exact h.1.imp_right fun hoff => by omega
    · exact (ih h.2 y hy).mono (by omega) le_rfl

theorem Tiles.apart (h : Tiles lo hi a) : a.Pairwise fun x y => ¬x.Overlap y := by
  induction a generalizing lo with
  | nil => exact List.Pairwise.nil
  | cons x a ih =>
    refine List.Pairwise.cons (fun y hy => ?_) (ih h.2)
    have hx : x.Within lo (lo + x.size) := h.1.imp_right fun hoff => by omega
    exact hx.not_overlap (h.2.within y hy) le_rfl

end Library
