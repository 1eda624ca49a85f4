import Mathlib.Data.List.Basic

/-!
# Fields of a buffer

Reading and overwriting some elements in a row of a list, as `memcpy` does with
a buffer.
-/

namespace Library

open List

variable {α : Type*} {l new a b : List α} {i n off off' : ℕ}

def slice (l : List α) (off n : ℕ) : List α := (l.drop off).take n

/-- The list with the elements from an offset on replaced. -/
def splice (l : List α) (off : ℕ) (new : List α) : List α :=
  l.take off ++ new ++ l.drop (off + new.length)

theorem getElem?_slice (l : List α) (off n i : ℕ) :
    (slice l off n)[i]? = if i < n then l[off + i]? else none := by
  rw [slice, getElem?_take]
  split
  · rw [getElem?_drop]
  · rfl

theorem getElem?_splice (h : off + new.length ≤ l.length) (i : ℕ) :
    (splice l off new)[i]? =
      if off ≤ i ∧ i < off + new.length then new[i - off]? else l[i]? := by
  have htake : (l.take off).length = off := by
    rw [length_take]
    omega
  rw [splice, append_assoc]
  rcases Nat.lt_or_ge i off with hi | hi
  · rw [getElem?_append_left (by omega), getElem?_take_of_lt hi, if_neg (by omega)]
  rw [getElem?_append_right (by omega), htake]
  rcases Nat.lt_or_ge i (off + new.length) with hi' | hi'
  · rw [getElem?_append_left (by omega), if_pos ⟨hi, hi'⟩]
  · rw [getElem?_append_right (by omega), getElem?_drop, if_neg (by omega)]
    congr 1
    omega

theorem length_slice (h : off + n ≤ l.length) : (slice l off n).length = n := by
  rw [slice, length_take, length_drop]
  omega

theorem length_splice (h : off + new.length ≤ l.length) : (splice l off new).length = l.length := by
  rw [splice, length_append, length_append, length_take, length_drop]
  omega

theorem splice_slice (h : off + n ≤ l.length) : splice l off (slice l off n) = l := by
  refine ext_getElem? fun i => ?_
  rw [getElem?_splice (by rw [length_slice h]; exact h), length_slice h]
  split
  · rw [getElem?_slice, if_pos (by omega)]
    congr 1
    omega
  · rfl

theorem splice_splice (ha : off + a.length ≤ l.length) (hab : a.length = b.length) :
    splice (splice l off a) off b = splice l off b := by
  refine ext_getElem? fun i => ?_
  have hb : off + b.length ≤ l.length := hab ▸ ha
  rw [getElem?_splice (by rw [length_splice ha]; exact hb), getElem?_splice ha, getElem?_splice hb,
    hab]
  split <;> rfl

theorem splice_comm (ha : off + a.length ≤ off') (hb : off' + b.length ≤ l.length) :
    splice (splice l off a) off' b = splice (splice l off' b) off a := by
  refine ext_getElem? fun i => ?_
  rw [getElem?_splice (by rw [length_splice (by omega)]; exact hb), getElem?_splice (by omega),
    getElem?_splice (by rw [length_splice hb]; omega), getElem?_splice hb]
  split <;> split <;> first | rfl | omega

theorem slice_splice_self (h : off + new.length ≤ l.length) (hn : new.length = n) :
    slice (splice l off new) off n = new := by
  refine ext_getElem? fun i => ?_
  rw [getElem?_slice, getElem?_splice h]
  rcases Nat.lt_or_ge i n with hi | hi
  · rw [if_pos hi, if_pos (by omega)]
    congr 1
    omega
  · rw [if_neg (by omega), getElem?_eq_none (by omega)]

theorem slice_splice_of_apart (h : off + new.length ≤ l.length)
    (hapart : off' + n ≤ off ∨ off + new.length ≤ off') :
    slice (splice l off new) off' n = slice l off' n := by
  refine ext_getElem? fun i => ?_
  rw [getElem?_slice, getElem?_slice, getElem?_splice h]
  split
  · rw [if_neg (by omega)]
  · rfl

theorem getElem?_splice_of_lt (h : off + new.length ≤ l.length) (hi : i < off) :
    (splice l off new)[i]? = l[i]? := by
  rw [getElem?_splice h, if_neg (by omega)]

theorem slice_append_left (h : off + n ≤ a.length) : slice (a ++ b) off n = slice a off n := by
  rw [slice, slice, drop_append_of_le_length (by omega),
    take_append_of_le_length (by rw [length_drop]; omega)]

theorem slice_append_right (a b : List α) (i n : ℕ) :
    slice (a ++ b) (a.length + i) n = slice b i n := by
  rw [slice, slice, drop_length_add_append]

theorem slice_append (a b : List α) (n : ℕ) : slice (a ++ b) a.length n = b.take n :=
  (slice_append_right a b 0 n).trans (by rw [slice, drop_zero])

theorem splice_append (a b new : List α) :
    splice (a ++ b) a.length new = a ++ new ++ b.drop new.length := by
  rw [splice, take_left, drop_length_add_append]

end Library
