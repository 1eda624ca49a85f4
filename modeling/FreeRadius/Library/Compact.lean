import Mathlib.Data.List.Nodup
import Mathlib.Data.List.Range

/-!
# Closing the gaps in an array

A loop over an array of optional entries moves every entry that is there to the
first slot that is free. Behind the loop the entries stand in the same order,
one after the other, at the bottom of the array.
-/

namespace Library

open List Function

variable {α : Type*}

/-- The loop at index `i`, with the slots and the first free one below `i`. -/
def packStep (st : (ℕ → Option α) × Option ℕ) (i : ℕ) : (ℕ → Option α) × Option ℕ :=
  match st.1 i, st.2 with
  | none, none => (st.1, some i)
  | none, some _ => st
  | some _, none => st
  | some a, some slot =>
    let slots := Function.update (Function.update st.1 slot (some a)) i none
    -- the next free slot behind the one that was just used
    (slots, ((List.range' (slot + 1) (i - slot)).find? fun j => (slots j).isNone).or (some slot))

def pack (n : ℕ) (slots : ℕ → Option α) : ℕ → Option α :=
  ((List.range n).foldl packStep (slots, none)).1

def entries (n : ℕ) (slots : ℕ → Option α) : List α := (List.range n).filterMap slots

theorem entries_succ (n : ℕ) (slots : ℕ → Option α) :
    entries (n + 1) slots = entries n slots ++ (slots n).toList := by
  rw [entries, range_succ, filterMap_append]
  cases h : slots n <;> simp [entries, h]

theorem length_entries_le (n : ℕ) (slots : ℕ → Option α) : (entries n slots).length ≤ n :=
  (length_filterMap_le slots _).trans_eq length_range

variable {n : ℕ} {slots : ℕ → Option α} {a : α}

theorem mem_entries : a ∈ entries n slots ↔ ∃ i < n, slots i = some a := by
  simp [entries]

theorem entries_congr {f g : ℕ → Option α} (h : ∀ i < n, f i = g i) : entries n f = entries n g :=
  filterMap_congr fun i hi => h i (List.mem_range.mp hi)

theorem length_entries_update {i : ℕ} (hi : slots i = some a) (hin : i < n) :
    (entries n (Function.update slots i none)).length + 1 = (entries n slots).length := by
  induction n with
  | zero => exact absurd hin (Nat.not_lt_zero i)
  | succ n ih =>
    rw [entries_succ, entries_succ, length_append, length_append]
    rcases Nat.lt_succ_iff_lt_or_eq.mp hin with hlt | rfl
    · rw [update_of_ne (Nat.ne_of_gt hlt), ← ih hlt]
      omega
    have hsame : entries i (update slots i none) = entries i slots :=
      entries_congr fun j hj => update_of_ne (Nat.ne_of_lt hj) _ _
    rw [hsame, update_self, hi]
    rfl

/-- What holds after `n` rounds: the first `n` slots are packed, the others are
as before, and the free slot is the one behind the entries. -/
structure Packed (slots : ℕ → Option α) (n : ℕ) (st : (ℕ → Option α) × Option ℕ) : Prop where
  below : ∀ i < n, st.1 i = (entries n slots)[i]?
  above : ∀ i, n ≤ i → st.1 i = slots i
  free : st.2 = if (entries n slots).length = n then none else some (entries n slots).length

section Step

variable {slots arr : ℕ → Option α} {slot : Option ℕ} {n : ℕ}

section

variable (h : Packed slots n (arr, slot))

include h

theorem Packed.step_none (hentry : slots n = none) :
    Packed slots (n + 1) (packStep (arr, slot) n) := by
  have hlen := length_entries_le n slots
  have hn : arr n = slots n := h.above n le_rfl
  have hfree : slot = _ := h.free
  have hnext : entries (n + 1) slots = entries n slots := by
    rw [entries_succ, hentry, Option.toList_none, append_nil]
  have hbelow : ∀ i < n + 1, arr i = (entries (n + 1) slots)[i]? := by
    intro i hi
    rw [hnext]
    rcases Nat.lt_succ_iff_lt_or_eq.mp hi with hi | rfl
    · exact h.below i hi
    · rw [hn, hentry, getElem?_eq_none hlen]
  have habove : ∀ i, n + 1 ≤ i → arr i = slots i := fun i hi => h.above i (by omega)
  by_cases hfull : (entries n slots).length = n
  · rw [if_pos hfull] at hfree
    simp only [packStep, hn, hentry, hfree]
    refine ⟨hbelow, habove, ?_⟩
    rw [hnext, if_neg (by omega), hfull]
  · rw [if_neg hfull] at hfree
    simp only [packStep, hn, hentry, hfree]
    refine ⟨hbelow, habove, ?_⟩
    rw [hnext, if_neg (by omega)]

theorem Packed.step_full {a : α} (hentry : slots n = some a)
    (hfull : (entries n slots).length = n) : Packed slots (n + 1) (packStep (arr, slot) n) := by
  have hn : arr n = slots n := h.above n le_rfl
  have hfree : slot = _ := h.free
  have hnext : entries (n + 1) slots = entries n slots ++ [a] := by
    rw [entries_succ, hentry, Option.toList_some]
  rw [if_pos hfull] at hfree
  simp only [packStep, hn, hentry, hfree]
  refine ⟨fun i hi => ?_, fun i hi => h.above i (by omega), ?_⟩
  · rw [hnext]
    rcases Nat.lt_succ_iff_lt_or_eq.mp hi with hi | rfl
    · rw [getElem?_append_left (by omega)]
      exact h.below i hi
    · rw [getElem?_append_right (by omega), hfull, Nat.sub_self]
      exact hn.trans hentry
  · rw [hnext, length_append, hfull, length_singleton, if_pos rfl]

/-- An entry behind a gap moves to its first slot, and the next slot is then
the first free one. -/
theorem Packed.step_move {a : α} (hentry : slots n = some a) (hgap : (entries n slots).length ≠ n) :
    Packed slots (n + 1) (packStep (arr, slot) n) := by
  have hlen := length_entries_le n slots
  have hn : arr n = slots n := h.above n le_rfl
  have hfree : slot = _ := h.free
  have hbelow : ∀ i < n, arr i = (entries n slots)[i]? := h.below
  have hnext : entries (n + 1) slots = entries n slots ++ [a] := by
    rw [entries_succ, hentry, Option.toList_some]
  rw [if_neg hgap] at hfree
  generalize hk : (entries n slots).length = k at *
  obtain ⟨arr', harr'⟩ : ∃ arr', arr' = update (update arr k (some a)) n none :=
    ⟨_, rfl⟩
  have hnone : ∀ j, k < j → j ≤ n → arr' j = none := by
    intro j hj hjn
    rcases Nat.lt_or_eq_of_le hjn with hjn | rfl
    · rw [harr', update_of_ne (by omega), update_of_ne (by omega), hbelow j hjn,
        getElem?_eq_none (by omega)]
    · rw [harr', update_self]
  have hfind : (List.range' (k + 1) (n - k)).find? (fun j => (arr' j).isNone) = some (k + 1) := by
    obtain ⟨m, hm⟩ : ∃ m, n - k = m + 1 := ⟨n - k - 1, by omega⟩
    rw [hm, range'_succ, find?_cons, hnone (k + 1) (by omega) (by omega)]
    rfl
  have hstep : packStep (arr, slot) n = (arr', some (k + 1)) := by
    simp only [packStep, hn, hentry, hfree, ← harr', hfind, Option.some_or]
  rw [hstep]
  refine ⟨fun i hi => ?_, fun i hi => ?_, ?_⟩
  · change arr' i = _
    rw [hnext]
    rcases lt_trichotomy i k with hik | rfl | hik
    · rw [getElem?_append_left (by omega), harr', update_of_ne (by omega),
        update_of_ne (by omega)]
      exact h.below i (by omega)
    · rw [getElem?_append_right hk.le, hk, Nat.sub_self, harr', update_of_ne (by omega),
        update_self]
      rfl
    · rw [hnone i hik (by omega), getElem?_eq_none (by rw [length_append, length_singleton]; omega)]
  · change arr' i = slots i
    rw [harr', update_of_ne (by omega), update_of_ne (by omega)]
    exact h.above i (by omega)
  · rw [hnext, length_append, hk, length_singleton, if_neg (by omega)]

theorem Packed.step : Packed slots (n + 1) (packStep (arr, slot) n) := by
  cases hentry : slots n with
  | none => exact h.step_none hentry
  | some a =>
    by_cases hfull : (entries n slots).length = n
    · exact h.step_full hentry hfull
    · exact h.step_move hentry hfull

end

end Step

theorem packed_foldl (slots : ℕ → Option α) (n : ℕ) :
    Packed slots n ((List.range n).foldl packStep (slots, none)) := by
  induction n with
  | zero => exact ⟨fun _ hi => absurd hi (Nat.not_lt_zero _), fun _ _ => rfl, rfl⟩
  | succ n ih =>
    rw [range_succ, foldl_append]
    exact ih.step

/-- The loop puts the entries one after the other. -/
theorem pack_apply (h : ∀ i, n ≤ i → slots i = none) (i : ℕ) :
    pack n slots i = (entries n slots)[i]? := by
  have hpacked := packed_foldl slots n
  rcases Nat.lt_or_ge i n with hi | hi
  · exact hpacked.below i hi
  · rw [getElem?_eq_none ((length_entries_le n slots).trans hi), ← h i hi]
    exact hpacked.above i hi

end Library
