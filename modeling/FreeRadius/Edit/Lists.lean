import FreeRadius.Library.Alignment
import Mathlib.Data.List.Lex
import Mathlib.Data.Prod.Lex

/-!
# List union and intersection

`list_union` and `list_intersection` of `util/edit.c` for lists of leaf pairs. Both lists are sorted
by the numbers of the attributes and walked along together; pairs of one attribute right below the
root are compared in the order in which they stand.
-/

namespace FreeRadius.Edit

open Library List

/-- `fr_dict_attr_t`: the numbers of the attributes from below the root to this one, the number of
the root, and which object it is. Unknown attributes have objects of their own. -/
structure Da where
  path : List ℕ
  root : ℕ
  object : ℕ
  deriving DecidableEq

/-- A leaf pair that may be deleted. Values are equal if `fr_value_box_cmp` answers zero. -/
@[ext]
structure Pair (V : Type) where
  da : Da
  value : V
  deriving DecidableEq

variable {V : Type}

/-- The parent of the attribute is the root. -/
def Pair.top (vp : Pair V) : Prop := vp.da.path.length = 1

instance (vp : Pair V) : Decidable vp.top := inferInstanceAs (Decidable (_ = _))

/-- The loop over the two stacks. At the end of both, `da_b` is still the attribute of the round
before, so the answer is that `a` comes first. -/
def cmpStack : List ℕ → List ℕ → Ordering
  | a :: as, b :: bs => (compare a b).then (cmpStack as bs)
  | _ :: _, [] => .gt
  | [], _ => .lt

def frPairCmpByParentNum (a b : Pair V) : Ordering :=
  match a.da.path, b.da.path with
  -- `pair_cmp_by_num`, which also compares the parents
  | [m], [n] => (compare m n).then (compare a.da.root b.da.root)
  | as, bs => cmpStack as bs

/-- `fr_pair_list_sort`, which takes the earlier one of two pairs unless it is above the other. -/
def frPairListSort (l : List (Pair V)) : List (Pair V) :=
  l.mergeSort fun a b => frPairCmpByParentNum a b != .gt

variable [DecidableEq V]

/-- The loop of `list_union` from `a` on, with the copies that have been put behind `a`. There is no
result if two attributes of one number are not the same: the assertion fails, and without it the
loop does not end. -/
def unionLoop : List (Pair V) → List (Pair V) → List (Pair V) → Option (List (Pair V))
  | after, [], bs => some (after ++ bs)
  | after, a :: as, [] => some (a :: after ++ as)
  | after, a :: as, b :: bs =>
    match frPairCmpByParentNum a b with
    | .lt => (a :: after ++ ·) <$> unionLoop [] as (b :: bs)
    | .gt => unionLoop (b :: after) (a :: as) bs
    | .eq =>
      if a.da ≠ b.da then none
      else if a.value ≠ b.value then (a :: b :: after ++ ·) <$> unionLoop [] as bs
      else (a :: after ++ ·) <$> unionLoop [] as bs
termination_by _ as bs => as.length + bs.length

/-- The loop of `list_intersection` -/
def intersectionLoop : List (Pair V) → List (Pair V) → Option (List (Pair V))
  | [], _ => some []
  | _ :: _, [] => some []
  | a :: as, b :: bs =>
    match frPairCmpByParentNum a b with
    | .lt => intersectionLoop as (b :: bs)
    | .gt => intersectionLoop (a :: as) bs
    | .eq =>
      if a.da ≠ b.da then none
      else if a.value ≠ b.value then intersectionLoop as bs
      else (a :: ·) <$> intersectionLoop as bs
termination_by as bs => as.length + bs.length

/-- The types of a destination: leaves, structs, and the others that have children -/
inductive VpType where
  | leaf
  | struct
  | list
  deriving DecidableEq

inductive ListOp where
  | orEq
  | andEq

def listUnion (type : VpType) (dst src : List (Pair V)) : Option (List (Pair V)) :=
  if type = .struct then none else unionLoop [] (frPairListSort dst) (frPairListSort src)

def listIntersection (type : VpType) (dst src : List (Pair V)) : Option (List (Pair V)) :=
  if type = .struct then none else intersectionLoop (frPairListSort dst) (frPairListSort src)

/-- `fr_edit_list_apply_list_assignment`: the children of the destination afterwards. Without a
source list, they are the source. -/
def frEditListApplyListAssignment (editListEmpty : Bool) (type : VpType) (op : ListOp)
    (dst : List (Pair V)) (src : Option (List (Pair V))) : Option (List (Pair V)) :=
  if type = .leaf then none
  else match src with
    | none => some dst
    | some src =>
      if editListEmpty = false then none
      else match op with
        | .orEq => listUnion type dst src
        | .andEq => listIntersection type dst src

/-- The pairs that set theory asks for. -/
def ListOp.Wants (dst src : List (Pair V)) (vp : Pair V) : ListOp → Prop
  | orEq => vp ∈ dst ∨ vp ∈ src
  | andEq => vp ∈ dst ∧ vp ∈ src

/-- The order of the pairs: roots only count for attributes right below them. -/
def Pair.num (vp : Pair V) : List ℕ ×ₗ ℕ := toLex (vp.da.path, if vp.top then vp.da.root else 0)

/-- The pairs of the number of `vp`, taken in order from both lists. -/
def sameNum (dst src : List (Pair V)) (vp : Pair V) : List (Pair V × Pair V) :=
  (runOf Pair.num vp.num dst).zip (runOf Pair.num vp.num src)

/-- Pairs of one number right below the root that come at the same place have the same attribute, and
a pair that is in both lists is such a pair and comes at the same place. -/
def Aligned (dst src : List (Pair V)) : Prop :=
  (∀ vp ∈ dst, vp.top → ∀ p ∈ sameNum dst src vp, p.1.da = p.2.da) ∧
    ∀ vp ∈ dst, vp ∈ src → vp.top ∧ (vp, vp) ∈ sameNum dst src vp

instance (dst src : List (Pair V)) : Decidable (Aligned dst src) := inferInstanceAs (Decidable (_ ∧ _))

section Order

omit [DecidableEq V]

theorem cmpStack_eq (as bs : List ℕ) : cmpStack as bs = if bs < as then .gt else .lt := by
  induction as generalizing bs with
  | nil => cases bs <;> simp [cmpStack]
  | cons a as ih =>
    cases bs with
    | nil => simp [cmpStack]
    | cons b bs =>
      rw [cmpStack, ih]
      rcases lt_trichotomy a b with h | rfl | h
      · simp [compare_lt_iff_lt.mpr h, List.cons_lt_cons_iff, h.not_gt, h.ne']
      · simp
      · simp [compare_gt_iff_gt.mpr h, List.cons_lt_cons_iff, h]

/-- The numbers of which pairs are ever found to be the same. -/
def topNum (k : List ℕ ×ₗ ℕ) : Bool := (ofLex k).1.length = 1

variable (a b : Pair V)

theorem cmp_top (h : a.top ∧ b.top) :
    ∃ m n, frPairCmpByParentNum a b = (compare m n).then (compare a.da.root b.da.root) ∧
      a.num = toLex ([m], a.da.root) ∧ b.num = toLex ([n], b.da.root) := by
  obtain ⟨m, ha⟩ := length_eq_one_iff.mp h.1
  obtain ⟨n, hb⟩ := length_eq_one_iff.mp h.2
  exact ⟨m, n, by simp [frPairCmpByParentNum, Pair.num, Pair.top, ha, hb]⟩

theorem cmp_nested (h : ¬(a.top ∧ b.top)) :
    frPairCmpByParentNum a b = (if b.num < a.num then .gt else .lt) ∧
      (a.num = b.num → topNum a.num = false) := by
  have hcmp : frPairCmpByParentNum a b = cmpStack a.da.path b.da.path := by
    rw [frPairCmpByParentNum]
    split
    next ha hb => exact absurd ⟨congrArg length ha, congrArg length hb⟩ h
    next => rfl
  have htop : a.da.path = b.da.path → ¬a.top ∧ ¬b.top := by
    intro heq
    simp only [Pair.top, heq, and_self] at h ⊢
    exact h
  have hnum : b.num < a.num ↔ b.da.path < a.da.path := by
    rw [Pair.num, Pair.num, Prod.Lex.toLex_lt_toLex, or_iff_left]
    rintro ⟨heq, hlt⟩
    obtain ⟨ha, hb⟩ := htop heq.symm
    rw [if_neg ha, if_neg hb] at hlt
    exact lt_irrefl _ hlt
  refine ⟨by simp only [hcmp, cmpStack_eq, hnum], fun heq => ?_⟩
  exact decide_eq_false (htop (congrArg (fun k => (ofLex k).1) heq)).1

theorem cmp_eq_gt : frPairCmpByParentNum a b = .gt ↔ b.num < a.num := by
  by_cases h : a.top ∧ b.top
  · obtain ⟨m, n, hcmp, hnum, hnum'⟩ := cmp_top a b h
    rw [hcmp, hnum, hnum', Prod.Lex.toLex_lt_toLex, Ordering.then_eq_gt]
    simp [compare_gt_iff_gt, List.cons_lt_cons_iff, eq_comm (a := n)]
  · rw [(cmp_nested a b h).1]
    split <;> simp_all

/-- Of one nested attribute, the pair of the first list comes first. -/
theorem cmp_eq_lt : frPairCmpByParentNum a b = .lt ↔
    a.num < b.num ∨ a.num = b.num ∧ topNum a.num = false := by
  by_cases h : a.top ∧ b.top
  · obtain ⟨m, n, hcmp, hnum, hnum'⟩ := cmp_top a b h
    rw [hcmp, hnum, hnum', Prod.Lex.toLex_lt_toLex, Ordering.then_eq_lt]
    simp [compare_lt_iff_lt, List.cons_lt_cons_iff, topNum]
  · obtain ⟨hcmp, htop⟩ := cmp_nested a b h
    rw [hcmp, and_iff_left_of_imp htop, ← le_iff_lt_or_eq, ← not_lt]
    split <;> simp_all

theorem frPairListSort_eq (l : List (Pair V)) : frPairListSort l = sortBy Pair.num l := by
  rw [frPairListSort, sortBy]
  congr 1
  funext a b
  have h := cmp_eq_gt a b
  rw [← not_le] at h
  by_cases hle : a.num ≤ b.num <;> simp_all

theorem matched_cons (as bs : List (Pair V)) : matched Pair.num topNum (a :: as) (b :: bs) =
    match frPairCmpByParentNum a b with
    | .lt => matched Pair.num topNum as (b :: bs)
    | .gt => matched Pair.num topNum (a :: as) bs
    | .eq => (a, b) :: matched Pair.num topNum as bs := by
  have hlt := cmp_eq_lt a b
  have hgt := cmp_eq_gt a b
  rw [matched]
  cases h : frPairCmpByParentNum a b with
  | lt => rw [if_pos (hlt.mp h)]
  | gt => rw [if_neg fun h' => by simp [hlt.mpr h'] at h, if_pos (hgt.mp h)]
  | eq => rw [if_neg fun h' => by simp [hlt.mpr h'] at h, if_neg fun h' => by simp [hgt.mpr h'] at h]

end Order

/-- The walk finds no two attributes of one number that are not the same. -/
def sameDas (as bs : List (Pair V)) : Bool :=
  (matched Pair.num topNum as bs).all fun p => p.1.da = p.2.da

theorem isSome_intersectionLoop (as bs : List (Pair V)) :
    (intersectionLoop as bs).isSome = sameDas as bs := by
  fun_induction intersectionLoop as bs <;> simp_all [sameDas, matched, matched_cons]

theorem isSome_unionLoop (after as bs : List (Pair V)) :
    (unionLoop after as bs).isSome = sameDas as bs := by
  fun_induction unionLoop after as bs <;> simp_all [sameDas, matched, matched_cons]

theorem agreed_eq {a b : Pair V} (h : frPairCmpByParentNum a b = .eq) (as bs : List (Pair V)) :
    agreed Pair.num topNum (a :: as) (b :: bs) =
      if a = b then a :: agreed Pair.num topNum as bs else agreed Pair.num topNum as bs := by
  by_cases hab : a = b <;> simp_all [agreed, matched_cons]

theorem eq_of_intersectionLoop {as bs r : List (Pair V)} (h : intersectionLoop as bs = some r) :
    r = agreed Pair.num topNum as bs := by
  fun_induction intersectionLoop as bs generalizing r with
  | case1 bs => simp_all [matched, agreed]
  | case2 a as => simp_all [matched, agreed]
  | case3 a as b bs hcmp ih => simp only [agreed, matched_cons, hcmp, ih h]
  | case4 a as b bs hcmp ih => simp only [agreed, matched_cons, hcmp, ih h]
  | case5 a as b bs hcmp hda => cases h
  | case6 a as b bs hcmp hda hvalue ih =>
    rw [agreed_eq hcmp, if_neg fun h => hvalue (congrArg _ h), ih h]
  | case7 a as b bs hcmp hda hvalue ih =>
    obtain ⟨r, hr, rfl⟩ := Option.map_eq_some_iff.mp h
    rw [agreed_eq hcmp, if_pos (Pair.ext (not_not.mp hda) (not_not.mp hvalue)), ih hr]

/-- What is not copied is what `a` has already. -/
theorem count_of_unionLoop {after as bs r : List (Pair V)} (h : unionLoop after as bs = some r)
    (vp : Pair V) : r.count vp + (agreed Pair.num topNum as bs).count vp =
      after.count vp + as.count vp + bs.count vp := by
  fun_induction unionLoop after as bs generalizing r with
  | case1 after bs =>
    cases h
    simp [matched, agreed]
  | case2 after a as =>
    cases h
    simp [matched, agreed, count_cons]
    omega
  | case3 after a as b bs hcmp ih =>
    obtain ⟨r, hr, rfl⟩ := Option.map_eq_some_iff.mp h
    have := ih hr
    simp only [agreed, matched_cons, hcmp, cons_append, count_cons, count_append, count_nil] at this ⊢
    omega
  | case4 after a as b bs hcmp ih =>
    have := ih h
    simp only [agreed, matched_cons, hcmp, count_cons] at this ⊢
    omega
  | case5 after a as b bs hcmp hda => cases h
  | case6 after a as b bs hcmp hda hvalue ih =>
    obtain ⟨r, hr, rfl⟩ := Option.map_eq_some_iff.mp h
    have := ih hr
    rw [agreed_eq hcmp, if_neg fun h => hvalue (congrArg _ h)]
    simp only [cons_append, count_cons, count_append, count_nil] at this ⊢
    omega
  | case7 after a as b bs hcmp hda hvalue ih =>
    obtain ⟨r, hr, rfl⟩ := Option.map_eq_some_iff.mp h
    have := ih hr
    obtain rfl : a = b := Pair.ext (not_not.mp hda) (not_not.mp hvalue)
    rw [agreed_eq hcmp, if_pos rfl]
    simp only [cons_append, count_cons, count_append, count_nil] at this ⊢
    omega

section Assignment

variable {dst src : List (Pair V)}

omit [DecidableEq V] in
theorem topNum_num (vp : Pair V) : topNum vp.num = true ↔ vp.top := decide_eq_true_iff

omit [DecidableEq V] in
theorem sameDas_sortBy : sameDas (sortBy Pair.num dst) (sortBy Pair.num src) = true ↔
    ∀ vp ∈ dst, vp.top → ∀ p ∈ sameNum dst src vp, p.1.da = p.2.da := by
  rw [sameDas, all_eq_true]
  simp only [mem_matched_iff (sortedBy_sortBy dst) (sortedBy_sortBy src), runOf_sortBy,
    decide_eq_true_iff, topNum_num]
  constructor
  · intro h vp hvp htop p hp
    have hnum : p.1.num = vp.num := by simpa using (mem_filter.mp (of_mem_zip hp).1).2
    refine h p ⟨?_, by rw [hnum]; exact hp⟩
    rw [← topNum_num, hnum, topNum_num]
    exact htop
  · intro h p hp
    exact h p.1 (mem_of_mem_filter (of_mem_zip hp.2).1) hp.1 p hp.2

variable (dst src) in
/-- The pairs that come at the same place in both lists. -/
def kept : List (Pair V) := agreed Pair.num topNum (sortBy Pair.num dst) (sortBy Pair.num src)

theorem mem_kept_iff (vp : Pair V) :
    vp ∈ kept dst src ↔ vp.top ∧ (vp, vp) ∈ sameNum dst src vp := by
  rw [kept, mem_agreed_iff (sortedBy_sortBy dst) (sortedBy_sortBy src), runOf_sortBy, runOf_sortBy,
    topNum_num]
  rfl

theorem mem_of_mem_kept {vp : Pair V} (h : vp ∈ kept dst src) : vp ∈ dst ∧ vp ∈ src := by
  have := of_mem_zip ((mem_kept_iff vp).mp h).2
  exact ⟨mem_of_mem_filter this.1, mem_of_mem_filter this.2⟩

theorem nodup_kept (hdst : dst.Nodup) : (kept dst src).Nodup :=
  (agreed_sublist _ _).nodup ((sortBy_perm dst).nodup_iff.mpr hdst)

variable {r : List (Pair V)}

omit [DecidableEq V] in
theorem exists_some_iff {result : Option (List (Pair V))} {same : Bool} {P : List (Pair V) → Prop}
    {Q : Prop} (hsame : result.isSome = same) (h : ∀ r, result = some r → (P r ↔ Q)) :
    (∃ r, result = some r ∧ P r) ↔ same = true ∧ Q := by
  cases result <;> simp_all

variable {editListEmpty : Bool} {type : VpType}

theorem assignment_eq_none (op : ListOp) (h : ¬(editListEmpty = true ∧ type = .list)) :
    frEditListApplyListAssignment editListEmpty type op dst (some src) = none := by
  cases type <;> cases op <;> simp_all [frEditListApplyListAssignment, listUnion, listIntersection]

/-- With another list as the source, the list is right if and only if the two are aligned. -/
theorem assignment_some_iff (op : ListOp) (hdst : dst.Nodup) (hsrc : src.Nodup) :
    (∃ r, frEditListApplyListAssignment editListEmpty type op dst (some src) = some r ∧ r.Nodup ∧
      ∀ vp, vp ∈ r ↔ op.Wants dst src vp) ↔
    editListEmpty = true ∧ type = .list ∧ Aligned dst src := by
  by_cases h : editListEmpty = true ∧ type = .list
  · obtain ⟨rfl, rfl⟩ := h
    simp only [Aligned, ← sameDas_sortBy, ← mem_kept_iff, true_and, ← frPairListSort_eq]
    cases op with
    | orEq =>
      refine exists_some_iff (isSome_unionLoop _ _ _) fun r hr => ?_
      have hcount : ∀ vp, r.count vp + (kept dst src).count vp = dst.count vp + src.count vp := by
        intro vp
        rw [kept, ← frPairListSort_eq, ← frPairListSort_eq, count_of_unionLoop hr, count_nil,
          Nat.zero_add, frPairListSort_eq, frPairListSort_eq, (sortBy_perm dst).count_eq,
          (sortBy_perm src).count_eq]
      have hkept := fun vp => @mem_of_mem_kept V _ dst src vp
      have hnodup : (kept dst src).Nodup := nodup_kept hdst
      simp only [ListOp.Wants, nodup_iff_count_le_one, ← count_pos_iff] at *
      grind
    | andEq =>
      refine exists_some_iff (isSome_intersectionLoop _ _) fun r hr => ?_
      obtain rfl : r = kept dst src := by
        rw [eq_of_intersectionLoop hr, frPairListSort_eq, frPairListSort_eq, kept]
      constructor
      · exact fun h vp hd hs => (h.2 vp).mpr ⟨hd, hs⟩
      · exact fun h => ⟨nodup_kept hdst, fun vp => ⟨mem_of_mem_kept, fun hvp => h vp hvp.1 hvp.2⟩⟩
  · rw [assignment_eq_none op h]
    constructor
    · rintro ⟨r, hr, -⟩
      cases hr
    · exact fun h' => absurd ⟨h'.1, h'.2.1⟩ h

/-- A pair of an attribute right below the root -/
def samplePair (attr value : ℕ) : Pair ℕ := ⟨⟨[attr], 0, attr⟩, value⟩

end Assignment

end FreeRadius.Edit
