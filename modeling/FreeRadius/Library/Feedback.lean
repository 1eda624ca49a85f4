import Mathlib.Data.List.Basic

/-!
# Cipher feedback

A text is encrypted in blocks. The key of a block is made from the encrypted block in
front of it, and the key of the first one from a start value. An operation that undoes
itself combines a block and its key, so that the same keys decrypt the text.
-/

namespace Library

open List

variable {α : Type*} (op : α → α → α) (key : List α → List α) (w : ℕ)

/-- The encrypted text, with no more than this many blocks. -/
def feedbackEncrypt : ℕ → List α → List α → List α
  | 0, _, _ => []
  | blocks + 1, last, text =>
    let block := zipWith op (text.take w) (key last)
    block ++ feedbackEncrypt blocks block (text.drop w)

/-- The text that was encrypted. -/
def feedbackDecrypt : ℕ → List α → List α → List α
  | 0, _, _ => []
  | blocks + 1, last, text =>
    zipWith op (text.take w) (key last) ++
      feedbackDecrypt blocks (text.take w) (text.drop w)

variable {op key w} {blocks : ℕ} {text : List α}

@[simp] theorem feedbackEncrypt_nil (blocks : ℕ) (last : List α) :
    feedbackEncrypt op key w blocks last [] = [] := by
  induction blocks generalizing last with
  | zero => rfl
  | succ blocks ih => simp [feedbackEncrypt, ih]

@[simp] theorem feedbackDecrypt_nil (blocks : ℕ) (last : List α) :
    feedbackDecrypt op key w blocks last [] = [] := by
  induction blocks generalizing last with
  | zero => rfl
  | succ blocks ih => simp [feedbackDecrypt, ih]

theorem zipWith_zipWith_cancel (hop : ∀ a b, op (op a b) b = a) {a b : List α}
    (h : a.length ≤ b.length) : zipWith op (zipWith op a b) b = a := by
  induction a generalizing b with
  | nil => simp
  | cons x a ih =>
    cases b with
    | nil => simp at h
    | cons y b =>
      simp only [length_cons, Nat.add_le_add_iff_right] at h
      rw [zipWith_cons_cons, zipWith_cons_cons, hop, ih h]

section Keys

variable (hkey : ∀ last, (key last).length = w)

include hkey

theorem length_zipWith_take (last text : List α) :
    (zipWith op (text.take w) (key last)).length = min w text.length := by
  rw [length_zipWith, hkey, length_take]
  omega

theorem length_feedbackEncrypt (h : text.length ≤ w * blocks) (last : List α) :
    (feedbackEncrypt op key w blocks last text).length = text.length := by
  induction blocks generalizing last text with
  | zero =>
    rw [feedbackEncrypt, length_nil]
    omega
  | succ blocks ih =>
    have hrest : (text.drop w).length ≤ w * blocks := by
      rw [length_drop]
      rw [Nat.mul_succ] at h
      omega
    rw [feedbackEncrypt, length_append, length_zipWith_take hkey, ih hrest, length_drop]
    omega

theorem length_feedbackDecrypt (h : text.length ≤ w * blocks) (last : List α) :
    (feedbackDecrypt op key w blocks last text).length = text.length := by
  induction blocks generalizing last text with
  | zero =>
    rw [feedbackDecrypt, length_nil]
    omega
  | succ blocks ih =>
    rw [Nat.mul_succ] at h
    rw [feedbackDecrypt, length_append, length_zipWith_take hkey, ih (by rw [length_drop]; omega),
      length_drop]
    omega

/-- What was encrypted is decrypted. -/
theorem feedbackDecrypt_feedbackEncrypt (hop : ∀ a b, op (op a b) b = a)
    (h : text.length ≤ w * blocks) (last : List α) :
    feedbackDecrypt op key w blocks last (feedbackEncrypt op key w blocks last text) = text := by
  induction blocks generalizing last text with
  | zero =>
    obtain rfl : text = [] := by simpa using h
    rfl
  | succ blocks ih =>
    rw [Nat.mul_succ] at h
    have hblock : (zipWith op (text.take w) (key last)).length = min w text.length :=
      length_zipWith_take hkey last text
    rw [feedbackEncrypt, feedbackDecrypt]
    rcases Nat.le_total text.length w with hshort | hlong
    · -- this is the last block, and it may be short
      have hnil : text.drop w = [] := drop_eq_nil_of_le hshort
      have htake : text.take w = text := take_of_length_le hshort
      have hcancel : zipWith op (zipWith op text (key last)) (key last) = text :=
        zipWith_zipWith_cancel hop (by rw [hkey]; exact hshort)
      rw [htake] at hblock
      simp only [htake, hnil, feedbackEncrypt_nil, append_nil]
      rw [take_of_length_le (by rw [hblock]; omega), hcancel,
        drop_eq_nil_of_le (by rw [hblock]; omega), feedbackDecrypt_nil, append_nil]
    · have hwidth : (zipWith op (text.take w) (key last)).length = w := by
        rw [hblock]
        omega
      have hcancel :
          zipWith op (zipWith op (text.take w) (key last)) (key last) = text.take w :=
        zipWith_zipWith_cancel hop (by rw [hkey, length_take]; omega)
      rw [take_left' hwidth, drop_left' hwidth, hcancel, ih (by rw [length_drop]; omega),
        take_append_drop]

/-- A block does not depend on what follows it. -/
theorem take_feedbackEncrypt (h : text.length ≤ w * blocks) (last : List α) (m : ℕ) :
    (feedbackEncrypt op key w blocks last text).take m =
      feedbackEncrypt op key w blocks last (text.take m) := by
  induction blocks generalizing last text m with
  | zero => simp [feedbackEncrypt]
  | succ blocks ih =>
    rw [Nat.mul_succ] at h
    have hblock : (zipWith op (text.take w) (key last)).length = min w text.length :=
      length_zipWith_take hkey last text
    have hrest : (text.drop w).length ≤ w * blocks := by
      rw [length_drop]
      omega
    rw [feedbackEncrypt, feedbackEncrypt, take_append, hblock]
    rcases Nat.le_total m (min w text.length) with hm | hm
    · have hnil : (text.take m).drop w = [] :=
        drop_eq_nil_of_le (by rw [length_take]; omega)
      have hzero : m - min w text.length = 0 := by omega
      simp only [hnil, feedbackEncrypt_nil]
      rw [hzero, take_zero, append_nil, append_nil, take_zipWith, take_take, take_take,
        Nat.min_comm w m, Nat.min_eq_left (by omega)]
      refine ext_getElem? fun i => ?_
      rw [getElem?_zipWith, getElem?_zipWith, getElem?_take, getElem?_take]
      by_cases hi : i < m <;> simp [hi]
    · rw [take_of_length_le (by rw [hblock]; exact hm), ih hrest]
      have htake : (text.take m).take w = text.take w := by
        rw [take_take]
        rcases Nat.le_total w text.length with hw | hw
        · rw [Nat.min_eq_left (by omega)]
        · rw [take_of_length_le (by omega), take_of_length_le (by omega)]
      have hdrop : (text.take m).drop w = (text.drop w).take (m - min w text.length) := by
        rw [drop_take]
        rcases Nat.le_total w text.length with hw | hw
        · rw [Nat.min_eq_left hw]
        · rw [drop_eq_nil_of_le hw, take_nil, take_nil]
      rw [htake, hdrop]

end Keys

/-- The number of blocks does not matter as long as the text fits. -/
theorem feedbackEncrypt_blocks {blocks' : ℕ} (h : text.length ≤ w * blocks)
    (h' : text.length ≤ w * blocks') (last : List α) :
    feedbackEncrypt op key w blocks last text = feedbackEncrypt op key w blocks' last text := by
  induction blocks generalizing blocks' last text with
  | zero =>
    obtain rfl : text = [] := by simpa using h
    simp
  | succ blocks ih =>
    cases blocks' with
    | zero =>
      obtain rfl : text = [] := by simpa using h'
      simp
    | succ blocks' =>
      rw [Nat.mul_succ] at h h'
      have hrest : (text.drop w).length ≤ w * blocks := by
        rw [length_drop]
        omega
      have hrest' : (text.drop w).length ≤ w * blocks' := by
        rw [length_drop]
        omega
      rw [feedbackEncrypt, feedbackEncrypt, ih hrest hrest']

end Library
