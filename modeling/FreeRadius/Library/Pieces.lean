import Mathlib.Data.List.Basic

/-!
# Pieces of a list

A list that is cut into pieces of a fixed length, and a last one that may be shorter.
-/

namespace Library

open List

variable {α : Type*} {w : ℕ} {l a : List α} {ps : List (List α)}

/-- The list is cut into full pieces and a last one that is not empty. -/
inductive Pieces (w : ℕ) : List α → List (List α) → Prop where
  | last {l : List α} (hne : l ≠ []) (hle : l.length ≤ w) : Pieces w l [l]
  | full {a l : List α} {ps : List (List α)} (ha : a.length = w) (h : Pieces w l ps) :
    Pieces w (a ++ l) (a :: ps)

theorem Pieces.flatten (h : Pieces w l ps) : ps.flatten = l := by
  induction h with
  | last => exact append_nil _
  | full ha h ih => rw [flatten_cons, ih]

theorem Pieces.ne_nil (h : Pieces w l ps) : l ≠ [] := by
  induction h with
  | last hne => exact hne
  | full ha h ih => exact append_ne_nil_of_right_ne_nil _ ih

theorem Pieces.forall_mem (h : Pieces w l ps) (hw : 0 < w) : ∀ p ∈ ps, p ≠ [] ∧ p.length ≤ w := by
  induction h with
  | last hne hle =>
    intro p hp
    rw [mem_singleton.mp hp]
    exact ⟨hne, hle⟩
  | full ha h ih =>
    intro p hp
    rcases mem_cons.mp hp with rfl | hp
    · exact ⟨length_pos_iff.mp (ha ▸ hw), Nat.le_of_eq ha⟩
    · exact ih p hp

/-- The pieces, in at most so many cuts. -/
def cutLoop (w : ℕ) : ℕ → List α → List (List α)
  | 0, l => [l]
  | cuts + 1, l => if l.length ≤ w then [l] else l.take w :: cutLoop w cuts (l.drop w)

/-- A list in pieces. -/
def cut (w : ℕ) (l : List α) : List (List α) := cutLoop w l.length l

theorem pieces_cutLoop (hw : 0 < w) (cuts : ℕ) (hcuts : l.length ≤ cuts) (hne : l ≠ []) :
    Pieces w l (cutLoop w cuts l) := by
  induction cuts generalizing l with
  | zero =>
    have hpos : 0 < l.length := length_pos_iff.mpr hne
    omega
  | succ cuts ih =>
    rw [cutLoop]
    split
    · next hshort => exact .last hne hshort
    next hlong =>
    have hrest : l.drop w ≠ [] := by
      rw [ne_eq, drop_eq_nil_iff]
      exact hlong
    have h := Pieces.full (length_take_of_le (Nat.le_of_not_le hlong))
      (ih (by rw [length_drop]; omega) hrest)
    rwa [take_append_drop] at h

theorem pieces_cut (hw : 0 < w) (hne : l ≠ []) : Pieces w l (cut w l) :=
  pieces_cutLoop hw l.length (Nat.le_refl _) hne

theorem Pieces.eq_append (h : Pieces w l ps) :
    ∃ full last, ps = full ++ [last] ∧ ∀ p ∈ full, p.length = w := by
  induction h with
  | @last l hne hle => exact ⟨[], l, rfl, fun p hp => absurd hp not_mem_nil⟩
  | @full a l ps ha h ih =>
    obtain ⟨full, last, rfl, hfull⟩ := ih
    exact ⟨a :: full, last, rfl, forall_mem_cons.mpr ⟨ha, hfull⟩⟩

theorem Pieces.length_eq (h : Pieces w l ps) (hw : 0 < w) :
    ps.length = (l.length + (w - 1)) / w := by
  induction h with
  | @last l hne hle =>
    have hpos : 0 < l.length := length_pos_iff.mpr hne
    rw [length_singleton, show l.length + (w - 1) = (l.length - 1) + w by omega,
      Nat.add_div_right _ hw, Nat.div_eq_of_lt (by omega)]
  | @full a l ps ha h ih =>
    rw [length_cons, ih, length_append, ha,
      show w + l.length + (w - 1) = l.length + (w - 1) + w by omega, Nat.add_div_right _ hw]

theorem Pieces.eq_singleton (h : Pieces w l ps) (hle : l.length ≤ w) : ps = [l] := by
  cases h with
  | last => rfl
  | @full a l ps ha h =>
    have hpos : 0 < l.length := length_pos_iff.mpr h.ne_nil
    rw [length_append] at hle
    omega

theorem Pieces.eq_cons (h : Pieces w (a ++ l) ps) (ha : a.length = w) (hl : l ≠ []) :
    ∃ qs, ps = a :: qs ∧ Pieces w l qs := by
  have hpos : 0 < l.length := length_pos_iff.mpr hl
  generalize hwhole : a ++ l = whole at h
  cases h with
  | last hne hle =>
    rw [← hwhole, length_append] at hle
    omega
  | @full b l' ps hb h =>
    obtain ⟨rfl, rfl⟩ := append_inj hwhole (ha.trans hb.symm)
    exact ⟨ps, rfl, h⟩

end Library
