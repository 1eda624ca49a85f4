import Mathlib.Tactic

/-!
# Digits of a number

The digits of a number in some base, the highest first, without zeros in front of them or in a
fixed width.
-/

namespace Library

open List

variable {b rounds n : ℕ}

def digitsLoop (b : ℕ) : ℕ → ℕ → List ℕ → List ℕ
  | 0, _, acc => acc
  | rounds + 1, n, acc => if n < b then n :: acc else digitsLoop b rounds (n / b) (n % b :: acc)

/-- The digits of a number that has no more than `rounds` of them. -/
def digitsOf (b rounds n : ℕ) : List ℕ := digitsLoop b rounds n []

def digitsValue (b : ℕ) (ds : List ℕ) : ℕ := ds.foldl (fun acc d => acc * b + d) 0

/-- The `w` lowest digits of a number. -/
def fixedDigits (b : ℕ) : ℕ → ℕ → List ℕ
  | 0, _ => []
  | w + 1, n => n / b ^ w % b :: fixedDigits b w n

theorem digitsLoop_eq (rounds n : ℕ) (acc : List ℕ) :
    digitsLoop b rounds n acc = digitsOf b rounds n ++ acc := by
  induction rounds generalizing n acc with
  | zero => rfl
  | succ rounds ih =>
    rw [digitsOf, digitsLoop, digitsLoop]
    split
    · rfl
    · rw [ih, ih _ [n % b], append_assoc]
      rfl

theorem digitsOf_succ (rounds n : ℕ) :
    digitsOf b (rounds + 1) n =
      if n < b then [n] else digitsOf b rounds (n / b) ++ [n % b] := by
  rw [digitsOf, digitsLoop, digitsLoop_eq]

theorem digitsValue_append (ds : List ℕ) (d : ℕ) :
    digitsValue b (ds ++ [d]) = digitsValue b ds * b + d := by
  rw [digitsValue, foldl_append]
  rfl

theorem div_lt_pow (h : n < b ^ (rounds + 1)) : n / b < b ^ rounds :=
  Nat.div_lt_of_lt_mul (by rwa [Nat.mul_comm, ← pow_succ])

theorem digitsOf_ne_nil (hrounds : 0 < rounds) : digitsOf b rounds n ≠ [] := by
  obtain ⟨k, rfl⟩ := Nat.exists_eq_succ_of_ne_zero hrounds.ne'
  rw [Nat.succ_eq_add_one, digitsOf_succ]
  split
  · exact cons_ne_nil _ _
  · exact append_ne_nil_of_right_ne_nil _ (cons_ne_nil _ _)

theorem digitsValue_digitsOf (h : n < b ^ rounds) : digitsValue b (digitsOf b rounds n) = n := by
  induction rounds generalizing n with
  | zero =>
    have hn : n = 0 := Nat.lt_one_iff.mp (by rwa [pow_zero] at h)
    rw [hn]
    rfl
  | succ rounds ih =>
    rw [digitsOf_succ]
    split
    · simp [digitsValue]
    · rw [digitsValue_append, ih (div_lt_pow h), Nat.div_add_mod']

theorem lt_of_mem_digitsOf {d : ℕ} (hb : 0 < b) (h : d ∈ digitsOf b rounds n) : d < b := by
  induction rounds generalizing n with
  | zero => cases h
  | succ rounds ih =>
    rw [digitsOf_succ] at h
    split at h
    · next hlt => rwa [mem_singleton.mp h]
    rcases mem_append.mp h with h | h
    · exact ih h
    · rw [mem_singleton.mp h]
      exact Nat.mod_lt _ hb

theorem length_digitsOf_le_of_lt (rounds : ℕ) {k : ℕ} (h : n < b ^ (k + 1)) :
    (digitsOf b rounds n).length ≤ k + 1 := by
  induction rounds generalizing n k with
  | zero => exact Nat.zero_le _
  | succ rounds ih =>
    rw [digitsOf_succ]
    split
    · exact Nat.succ_le_succ (Nat.zero_le _)
    next hge =>
    cases k with
    | zero => exact absurd (by rwa [zero_add, pow_one] at h) hge
    | succ k =>
      rw [length_append]
      exact Nat.succ_le_succ (ih (div_lt_pow h))

theorem head_digitsOf (hb : 1 < b) (h : n < b ^ rounds) (hn : n ≠ 0) :
    ∀ d ds, digitsOf b rounds n = d :: ds → d ≠ 0 := by
  induction rounds generalizing n with
  | zero => exact absurd (Nat.lt_one_iff.mp (by rwa [pow_zero] at h)) hn
  | succ rounds ih =>
    intro d ds heq
    rw [digitsOf_succ] at heq
    split at heq
    · cases heq
      exact hn
    next hge =>
    have hdiv : n / b ≠ 0 := by
      rw [ne_eq, Nat.div_eq_zero_iff]
      omega
    have hih := ih (div_lt_pow h) hdiv
    cases hds : digitsOf b rounds (n / b) with
    | nil =>
      exfalso
      cases rounds with
      | zero => exact hdiv (Nat.lt_one_iff.mp (by simpa using div_lt_pow h))
      | succ k => exact digitsOf_ne_nil (Nat.succ_pos k) hds
    | cons x xs =>
      rw [hds, cons_append] at heq
      cases heq
      exact hih _ _ hds

theorem fixedDigits_succ (w n : ℕ) :
    fixedDigits b (w + 1) n = fixedDigits b w (n / b) ++ [n % b] := by
  induction w with
  | zero => simp [fixedDigits]
  | succ w ih =>
    rw [fixedDigits, ih, fixedDigits, Nat.div_div_eq_div_mul, ← pow_succ', cons_append]

theorem fixedDigits_zero (w : ℕ) : fixedDigits b w 0 = replicate w 0 := by
  induction w with
  | zero => rfl
  | succ w ih => rw [fixedDigits, ih, Nat.zero_div, Nat.zero_mod]; rfl

theorem fixedDigits_eq {w : ℕ} (h : n < b ^ (w + 1)) :
    fixedDigits b (w + 1) n =
      replicate (w + 1 - (digitsOf b (w + 1) n).length) 0 ++ digitsOf b (w + 1) n := by
  induction w generalizing n with
  | zero =>
    have hlt : n < b := by rwa [zero_add, pow_one] at h
    rw [digitsOf_succ, if_pos hlt]
    simp [fixedDigits, Nat.mod_eq_of_lt hlt]
  | succ w ih =>
    rw [fixedDigits_succ, digitsOf_succ]
    split
    · next hlt =>
      rw [Nat.div_eq_of_lt hlt, fixedDigits_zero, Nat.mod_eq_of_lt hlt]
      rfl
    · rw [ih (div_lt_pow h), length_append, length_singleton, Nat.add_sub_add_right, append_assoc]

end Library
