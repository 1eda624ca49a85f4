import Mathlib.Data.List.Sort

/-!
# Walking along two sorted lists

Two lists that are sorted by a key are walked along together: the element with the smaller key is
left behind, and elements with the same key are left behind together if their key is one that pairs
them; otherwise those of the first list are left behind first.
-/

namespace Library

open List

variable {α κ : Type} [LinearOrder κ] (key : α → κ) (pairs : κ → Bool)

/-- The elements with a key. -/
def runOf (k : κ) (l : List α) : List α := l.filter (key · = k)

def sortBy (l : List α) : List α := l.mergeSort (key · ≤ key ·)

def SortedBy (l : List α) : Prop := l.Pairwise (key · ≤ key ·)

/-- The elements that are left behind together. -/
def matched : List α → List α → List (α × α)
  | a :: as, b :: bs =>
    if key a < key b ∨ key a = key b ∧ pairs (key a) = false then matched as (b :: bs)
    else if key b < key a then matched (a :: as) bs
    else (a, b) :: matched as bs
  | _, _ => []
termination_by as bs => as.length + bs.length

/-- The elements that are left behind together with themselves. -/
def agreed [DecidableEq α] (as bs : List α) : List α :=
  ((matched key pairs as bs).filter fun p => p.1 = p.2).map Prod.fst

variable {key pairs} {k : κ} {as bs : List α}

theorem sortBy_perm (l : List α) : (sortBy key l).Perm l := l.mergeSort_perm _

theorem sortedBy_sortBy (l : List α) : SortedBy key (sortBy key l) := by
  have h : (sortBy key l).Pairwise fun a b => decide (key a ≤ key b) = true :=
    pairwise_mergeSort (fun a b c => by simpa using le_trans)
      (fun a b => by simpa using le_total _ _) l
  simpa [SortedBy] using h

/-- The sort is stable. -/
theorem runOf_sortBy (k : κ) (l : List α) : runOf key k (sortBy key l) = runOf key k l := by
  have hsorted : (runOf key k l).Pairwise fun a b => decide (key a ≤ key b) = true := by
    refine pairwise_of_forall_mem_list fun a ha b hb => ?_
    simp_all [runOf]
  have hsub : (runOf key k l).Sublist (sortBy key l) :=
    sublist_mergeSort (fun a b c => by simpa using le_trans)
      (fun a b => by simpa using le_total _ _) hsorted filter_sublist
  have hperm : (runOf key k (sortBy key l)).Perm (runOf key k l) := (sortBy_perm l).filter _
  refine (List.Sublist.eq_of_length ?_ hperm.length_eq.symm).symm
  simpa [runOf, sortBy] using hsub.filter (key · = k)

theorem runOf_cons_of_ne {a : α} {l : List α} (h : key a ≠ k) :
    runOf key k (a :: l) = runOf key k l := by
  simp [runOf, h]

theorem runOf_cons_of_lt {b : α} (hbs : SortedBy key (b :: bs)) (h : k < key b) :
    runOf key k (b :: bs) = [] := by
  rw [runOf, filter_eq_nil_iff]
  rintro x (_ | ⟨_, hx⟩)
  · simpa using h.ne'
  · simpa using (h.trans_le ((List.pairwise_cons.mp hbs).1 x hx)).ne'

/-- In sorted lists, the elements with one key are matched in order, if they are at all. -/
theorem mem_matched_iff (has : SortedBy key as) (hbs : SortedBy key bs) (p : α × α) :
    p ∈ matched key pairs as bs ↔ pairs (key p.1) = true ∧
      p ∈ (runOf key (key p.1) as).zip (runOf key (key p.1) bs) := by
  fun_induction matched key pairs as bs with
  | case1 a as b bs h ih =>
    rw [ih has.of_cons hbs]
    by_cases hk : key a = key p.1
    · rcases h with h | ⟨-, h⟩
      · rw [runOf_cons_of_lt hbs (hk ▸ h), zip_nil_right, zip_nil_right]
      · rw [← hk, h]
        exact iff_of_false (fun h => Bool.false_ne_true h.1) fun h => Bool.false_ne_true h.1
    · rw [runOf_cons_of_ne hk]
  | case2 a as b bs _ h ih =>
    rw [ih has hbs.of_cons]
    by_cases hk : key b = key p.1
    · rw [runOf_cons_of_lt has (hk ▸ h), zip_nil_left, zip_nil_left]
    · rw [runOf_cons_of_ne hk]
  | case3 a as b bs h h' ih =>
    have hab : key a = key b := le_antisymm (not_lt.mp h') (not_lt.mp fun hlt => h (.inl hlt))
    have hpairs : pairs (key a) = true := Bool.of_not_eq_false fun hfalse => h (.inr ⟨hab, hfalse⟩)
    rw [mem_cons, ih has.of_cons hbs.of_cons]
    by_cases hk : key a = key p.1
    · simp [runOf, ← hk, ← hab, hpairs]
    · rw [runOf_cons_of_ne hk, runOf_cons_of_ne (hab ▸ hk), or_iff_right]
      rintro rfl
      exact hk rfl
  | case4 as bs h =>
    cases as with
    | nil => simp [runOf]
    | cons a as =>
      cases bs with
      | nil => simp [runOf]
      | cons b bs => exact absurd rfl (h a as b bs rfl)

theorem map_fst_matched_sublist (as bs : List α) :
    ((matched key pairs as bs).map Prod.fst).Sublist as := by
  fun_induction matched key pairs as bs with
  | case1 a as b bs h ih => exact ih.cons a
  | case2 a as b bs _ h ih => exact ih
  | case3 a as b bs h h' ih => exact ih.cons_cons a
  | case4 as bs h => exact nil_sublist as

variable [DecidableEq α]

theorem agreed_sublist (as bs : List α) : (agreed key pairs as bs).Sublist as :=
  (List.filter_sublist.map Prod.fst).trans (map_fst_matched_sublist as bs)

theorem mem_agreed_iff (has : SortedBy key as) (hbs : SortedBy key bs) (c : α) :
    c ∈ agreed key pairs as bs ↔ pairs (key c) = true ∧
      (c, c) ∈ (runOf key (key c) as).zip (runOf key (key c) bs) := by
  rw [← mem_matched_iff has hbs (c, c)]
  simp [agreed]

end Library
