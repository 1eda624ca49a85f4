import FreeRadius.Rb.Rotate

/-!
# Deletion

The fixup works on a subtree with one black node too few on its paths. A node
with two children is deleted by taking its successor out of the parent chain;
the successor then takes the place of the node.
-/

namespace FreeRadius.Rb

open Library Library.RedBlack Library.RedBlack.CTree Option

variable {ι α : Type} [DecidableEq ι] {t : FrRbTree ι α} {T : CTree (ι × α)}
  {k : List (Frame (ι × α))} {L : List (ι × α)}

/-! ## The fixup -/

/-- A subtree that lacks a black node: its root is black, or becomes so. -/
def Lacking (T : CTree (ι × α)) (n : ℕ) : Prop :=
  T.colour = .black ∧ Balanced T .black n ∨ T.colour = .red ∧ Balanced T.blacken .black (n + 1)

variable {ca pc : Colour} {n : ℕ}

section Fixup

variable {a b : CTree (ι × α)} {w : ι × α}
  {s : Side} {pc : Colour} {p : ι × α} {S : CTree (ι × α)} {n : ℕ}

/-- The sibling is black afterwards. -/
theorem deleteRedSibling_spec (h : At t T (⟨s, pc, p, S⟩ :: k) L)
    (hk : PathBalanced (⟨s, pc, p, S⟩ :: k) pc (n + 1)) :
    ∃ t' pc' S' k', deleteRedSibling s t (.node p.1) (ptr S) = some (t', ptr S') ∧
      At t' T (⟨s, pc', p, S'⟩ :: k') L ∧ Rearranged t t' L ∧
      PathBalanced (⟨s, pc', p, S'⟩ :: k') pc' (n + 1) ∧ S'.colour = .black ∧
      (k' = k ∨ pc' = .red) := by
  have hcol := (at_sibling_iff.mp h).colour
  cases hS : S.colour with
  | black =>
    refine ⟨t, pc, S, k, ?_, h, Rearranged.refl _ _, hk, hS, .inl rfl⟩
    rw [hS] at hcol
    simp [deleteRedSibling, hcol]
  | red =>
    cases hk with
    | red hk hSb =>
      rw [hSb.colour_eq] at hS
      cases hS
    | @black _ _ _ _ _ c c' hk hSb =>
      obtain rfl : c' = .red := hSb.colour_eq.symm.trans hS
      obtain ⟨a, w, b, rfl, ha, hb⟩ := hSb.exists_join_red s
      obtain ⟨t₁, h₁, hat₁, r₁⟩ := (at_sibling_iff.mp h).setColour .black
      obtain ⟨t₂, h₂, hat₂, r₂⟩ := (at_cons_iff.mp hat₁).setColour .red
      rw [join_other] at hat₂
      obtain ⟨t₃, h₃, hat₃, r₃⟩ := hat₂.rotate
      have hat₄ := at_cons_iff.mpr (at_cons_iff.mpr hat₃)
      refine ⟨t₃, .red, a, _, ?_, hat₄, (r₁.trans r₂).trans r₃, .red (.black hk hb) ha,
        ha.colour_eq, .inr rfl⟩
      rw [ptr_join, colour_join] at hcol
      simp only [deleteRedSibling, ptr_join, hcol, bind_eq_bind, bind_some, if_true,
        h₁, h₂, h₃, hat₄.child_frame_other]

/-- The sibling has a red outer child afterwards. -/
theorem deleteInnerRed_spec {cb : Colour} (h : At t T (⟨s, pc, p, join s .black a w b⟩ :: k) L)
    (ha : Balanced a ca n) (hb : Balanced b cb n)
    (hred : ¬ (a.colour = .black ∧ b.colour = .black)) :
    ∃ t' a' w' b' ca', deleteInnerRed s t (.node p.1) (.node w.1) = some (t', .node w'.1) ∧
      At t' T (⟨s, pc, p, join s .black a' w' b'⟩ :: k) L ∧ Rearranged t t' L ∧
      Balanced a' ca' n ∧ Balanced b' .red n := by
  have hw := at_sibling_iff.mp h
  have hinner := at_cons_iff.mpr hw
  have hcol := (at_sibling_iff.mp hinner).colour
  cases cb with
  | red =>
    refine ⟨t, a, w, b, ca, ?_, h, Rearranged.refl _ _, ha, hb⟩
    rw [hb.colour_eq] at hcol
    simp only [deleteInnerRed, hw.child_join_other, hcol, bind_eq_bind, bind_some,
      reduceCtorEq, if_false]
  | black =>
    obtain rfl : ca = .red := by
      cases ca with
      | red => rfl
      | black => exact absurd ⟨ha.colour_eq, hb.colour_eq⟩ hred
    obtain ⟨a₁, v, a₂, rfl, ha₁, ha₂⟩ := ha.exists_join_red s
    obtain ⟨t₁, h₁, hat₁, r₁⟩ := hinner.setColour .black
    obtain ⟨t₂, h₂, hat₂, r₂⟩ := (at_cons_iff.mp hat₁).setColour .red
    rw [← join_other s .red, ← join_other s .black] at hat₂
    obtain ⟨t₃, h₃, hat₃, r₃⟩ := hat₂.rotate
    rw [join_other, join_other] at hat₃
    have hat₄ := at_sibling_iff.mp hat₃
    rw [Side.other_other] at hat₄
    refine ⟨t₃, a₁, v, _, .black, ?_, hat₄, (r₁.trans r₂).trans r₃, ha₁, ha₂.join_red hb⟩
    rw [hb.colour_eq] at hcol
    simp only [deleteInnerRed, hw.child_join_other, hcol, bind_eq_bind, bind_some,
      if_true, hw.child_join, ptr_join, FrRbTree.setColourUnlessNil, reduceCtorEq, if_false, h₁, h₂,
      h₃, hat₄.child_frame_other]

/-- What a step of the fixup leaves at `x`: a subtree further up that lacks a
black node, or the balanced tree. -/
def StepResult (t' : FrRbTree ι α) (x parent : Ptr ι) (L : List (ι × α)) (len : ℕ) : Prop :=
  (∃ T' k' pc' n', x = ptr T' ∧ parent = above k' ∧ At t' T' k' L ∧ Lacking T' n' ∧
    PathBalanced k' pc' (n' + 1) ∧ (k'.length < len ∨ T'.colour = .red)) ∨
  ∃ W m, x = t'.root ∧ At t' W [] L ∧ Balanced W .black m

section

variable (h : At t T (⟨s, pc, p, join s .black a w b⟩ :: k) L) (hT : Balanced T .black n)

include h hT

/-- Both children of the sibling are black: it becomes red. -/
theorem recolourSibling_spec (ha : Balanced a .black n) (hb : Balanced b .black n)
    (hk : PathBalanced (⟨s, pc, p, join s .black a w b⟩ :: k) pc (n + 1)) :
    ∃ t' T' c n', t.setColourUnlessNil (.node w.1) .red = some t' ∧ ptr T' = .node p.1 ∧
      T'.colour = pc ∧ At t' T' k L ∧ Rearranged t t' L ∧ Lacking T' n' ∧
      PathBalanced k c (n' + 1) := by
  obtain ⟨t', ht', hat, r⟩ := (at_sibling_iff.mp h).setColour .red
  have hat' := at_cons_iff.mp hat
  rw [join_other] at hat'
  have hS : Balanced (join s .red a w b) .red n := ha.join_red hb
  have hset : t.setColourUnlessNil (.node w.1) .red = some t' := by
    rw [FrRbTree.setColourUnlessNil, if_neg (by simp), ht']
  cases hk with
  | red hk _ =>
    refine ⟨t', _, _, n, hset, ptr_join .., colour_join .., hat', r, .inr ⟨colour_join .., ?_⟩, hk⟩
    rw [blacken_join]
    exact hT.join_black hS
  | black hk _ =>
    exact ⟨t', _, _, n + 1, hset, ptr_join .., colour_join .., hat', r,
      .inl ⟨colour_join .., hT.join_black hS⟩, hk⟩

/-- The outer child of the sibling is red: a rotation adds the black node. -/
theorem rotateSibling_spec (ha : Balanced a ca n) (hb : Balanced b .red n)
    (hk : PathBalanced (⟨s, pc, p, join s .black a w b⟩ :: k) pc (n + 1)) :
    ∃ t₁ t₂ t₃ t₄ W m, t.colour (.node p.1) = some pc ∧ t.setColour (.node w.1) pc = some t₁ ∧
      t₁.setColourUnlessNil (.node p.1) .black = some t₂ ∧
      blackenOuter s t₂ (.node w.1) = some t₃ ∧ rotate s t₃ (.node p.1) = some t₄ ∧
      At t₄ W [] L ∧ Rearranged t t₄ L ∧ Balanced W .black m := by
  obtain ⟨t₁, h₁, hat₁, r₁⟩ := (at_sibling_iff.mp h).setColour pc
  obtain ⟨t₂, h₂, hat₂, r₂⟩ := (at_cons_iff.mp hat₁).setColour .black
  have hw := at_cons_iff.mpr hat₂
  have hout := at_sibling_iff.mp (at_cons_iff.mpr hw)
  obtain ⟨b₁, v, b₂, rfl, hb₁, hb₂⟩ := hb.exists_join_red s
  obtain ⟨t₃, h₃, hat₃, r₃⟩ := hout.setColour .black
  have hat₃' := at_cons_iff.mp (at_cons_iff.mp hat₃)
  rw [join_other, join_other] at hat₃'
  obtain ⟨t₄, h₄, hat₄, r₄⟩ := hat₃'.rotate
  have hnew : ∃ m, Balanced (plug k (join s pc (join s .black T p a) w (join s .black b₁ v b₂)))
      .black m := by
    have hl : Balanced (join s .black T p a) .black (n + 1) := hT.join_black ha
    have hr : Balanced (join s .black b₁ v b₂) .black (n + 1) := hb₁.join_black hb₂
    cases hk with
    | red hk _ => exact hk.plug (hl.join_red hr) ⟨fun _ => rfl, fun heq => by cases heq⟩
    | black hk _ => exact hk.plug (hl.join_black hr) (fits_black _ _)
  obtain ⟨m, hm⟩ := hnew
  have hcol := hout.colour
  rw [ptr_join, colour_join] at hcol
  refine ⟨t₁, t₂, t₃, t₄, _, m, h.colour_frame, h₁, ?_, ?_, h₄, at_plug_iff.mpr hat₄,
    ((r₁.trans r₂).trans r₃).trans r₄, hm⟩
  · rw [FrRbTree.setColourUnlessNil, if_neg (by simp), h₂]
  · simp only [blackenOuter, hw.child_join_other, ptr_join, hcol, bind_eq_bind,
      bind_some, ne_eq, reduceCtorEq, not_false_eq_true, if_true, h₃]

end

omit [DecidableEq ι] in
/-- A sibling on a path that lacks a black node is a node. -/
theorem black_sibling (hk : PathBalanced (⟨s, pc, p, S⟩ :: k) pc (n + 1)) (hS : S.colour = .black) :
    ∃ a w b ca cb, S = join s .black a w b ∧ Balanced a ca n ∧ Balanced b cb n := by
  obtain ⟨c, hSb⟩ : ∃ c, Balanced S c (n + 1) := by
    cases hk with
    | red _ hSb => exact ⟨_, hSb⟩
    | black _ hSb => exact ⟨_, hSb⟩
  obtain ⟨c', a, w, b, rfl⟩ := hSb.exists_join s
  rw [colour_join] at hS
  subst hS
  obtain ⟨-, m, ca, cb, hm, ha, hb⟩ := hSb.of_join_black
  obtain rfl : n = m := by omega
  exact ⟨a, w, b, ca, cb, rfl, ha, hb⟩

theorem deleteFixupStep_spec (h : At t T (⟨s, pc, p, S⟩ :: k) L) (hT : Balanced T .black n)
    (hk : PathBalanced (⟨s, pc, p, S⟩ :: k) pc (n + 1)) :
    ∃ t' x parent, deleteFixupStep s t (.node p.1) = some (t', x, parent) ∧
      Rearranged t t' L ∧ StepResult t' x parent L (k.length + 1) := by
  obtain ⟨t₁, pc₁, S₁, k₁, h₁, hat₁, r₁, hk₁, hS₁, hlen⟩ := deleteRedSibling_spec h hk
  obtain ⟨a, w, b, ca, cb, rfl, ha, hb⟩ := black_sibling hk₁ hS₁
  have hw := at_sibling_iff.mp hat₁
  have hinner := at_cons_iff.mpr hw
  have hacol := hinner.colour
  have hbcol := (at_sibling_iff.mp hinner).colour
  rw [ptr_join] at h₁
  by_cases hblack : a.colour = .black ∧ b.colour = .black
  · obtain rfl : ca = .black := ha.colour_eq.symm.trans hblack.1
    obtain rfl : cb = .black := hb.colour_eq.symm.trans hblack.2
    obtain ⟨t₂, T', c, n', h₂, hptr, hcol, hat₂, r₂, hT', hk'⟩ :=
      recolourSibling_spec hat₁ hT ha hb hk₁
    refine ⟨t₂, .node p.1, above k₁, ?_, r₁.trans r₂,
      .inl ⟨T', k₁, c, n', hptr.symm, rfl, hat₂, hT', hk', ?_⟩⟩
    · simp only [deleteFixupStep, h.child_frame_other, bind_eq_bind, bind_some, h₁,
        hw.child_join, hacol, hw.child_join_other, hbcol, hblack, and_self, if_true, h₂,
        hat₂.parent_of_ptr hptr]
    · rcases hlen with rfl | rfl
      · exact .inl (Nat.lt_succ_self _)
      · exact .inr hcol
  · obtain ⟨t₂, a', w', b', ca', h₂, hat₂, r₂, ha', hb'⟩ := deleteInnerRed_spec hat₁ ha hb hblack
    have hk₂ : PathBalanced (⟨s, pc₁, p, join s .black a' w' b'⟩ :: k₁) pc₁ (n + 1) := by
      cases hk₁ with
      | red hk₁ _ => exact .red hk₁ (ha'.join_black hb')
      | black hk₁ _ => exact .black hk₁ (ha'.join_black hb')
    obtain ⟨t₃, t₄, t₅, t₆, W, m, hcol, h₃, h₄, h₅, h₆, hat₆, r₃, hW⟩ :=
      rotateSibling_spec hat₂ hT ha' hb' hk₂
    refine ⟨t₆, t₆.root, .node p.1, ?_, (r₁.trans r₂).trans r₃, .inr ⟨W, m, rfl, hat₆, hW⟩⟩
    simp only [deleteFixupStep, h.child_frame_other, bind_eq_bind, bind_some, h₁,
      hw.child_join, hacol, hw.child_join_other, hbcol, hblack, if_false, h₂, hcol, h₃, h₄, h₅, h₆]

end Fixup

theorem At.blackenUnlessNil (h : At t T k L) :
    ∃ t', t.setColourUnlessNil (ptr T) .black = some t' ∧ At t' T.blacken k L ∧
      Rearranged t t' L := by
  rcases T.eq_nil_or_join .left with rfl | ⟨c, a, x, b, rfl⟩
  · exact ⟨t, by simp [FrRbTree.setColourUnlessNil], h, Rearranged.refl _ _⟩
  · rw [ptr_join, blacken_join, FrRbTree.setColourUnlessNil, if_neg (by simp)]
    exact h.setColour .black

theorem deleteFixup_red (h : At t T k L) (hc : T.colour = .red) (hT : Lacking T n)
    (hk : PathBalanced k pc (n + 1)) (parent : Ptr ι) :
    ∃ t' T', Returns (fun fuel => deleteFixup fuel t (ptr T) parent) t' ∧ At t' T' [] L ∧
      Rearranged t t' L ∧ ∃ m, Balanced T' .black m := by
  obtain ⟨t', ht', hat, r⟩ := h.blackenUnlessNil
  have hb : Balanced T.blacken .black (n + 1) := by
    rcases hT with ⟨hblack, -⟩ | ⟨-, hb⟩
    · rw [hc] at hblack
      cases hblack
    · exact hb
  refine ⟨t', _, Returns.of_add 1 fun fuel => ?_, at_plug_iff.mpr hat, r,
    hk.plug hb (fits_black _ _)⟩
  simp only [deleteFixup, h.colour, hc, bind_eq_bind, bind_some, reduceCtorEq,
    and_false, if_false, ht']

theorem deleteFixup_root {m : ℕ} (h : At t T [] L) (hT : Balanced T .black m) (parent : Ptr ι) :
    ∃ t', Returns (fun fuel => deleteFixup fuel t t.root parent) t' ∧ At t' T [] L ∧
      Rearranged t t' L := by
  obtain ⟨t', ht', hat, r⟩ := h.blackenUnlessNil
  have hroot : t.root = ptr T := h.path
  rw [hT.blacken_eq] at hat
  refine ⟨t', Returns.of_add 1 fun fuel => ?_, hat, r⟩
  have hcol := h.colour
  rw [← hroot] at hcol ht'
  simp only [deleteFixup, hcol, bind_eq_bind, bind_some, ne_eq, not_true_eq_false,
    false_and, if_false, ht']

theorem deleteFixup_spec (h : At t T k L) (hT : Lacking T n) (hk : PathBalanced k pc (n + 1)) :
    ∃ t' T', Returns (fun fuel => deleteFixup fuel t (ptr T) (above k)) t' ∧ At t' T' [] L ∧
      Rearranged t t' L ∧ ∃ m, Balanced T' .black m := by
  -- by induction on the length of the path
  induction hlen : k.length using Nat.strong_induction_on generalizing t T k pc n with
  | _ len ih =>
    cases hc : T.colour with
    | red => exact deleteFixup_red h hc hT hk _
    | black =>
      have hTb : Balanced T .black n := by
        rcases hT with ⟨-, hb⟩ | ⟨hred, -⟩
        · exact hb
        · rw [hc] at hred
          cases hred
      cases hkc : k with
      | nil =>
        subst hkc
        obtain ⟨t', hret, hat, r⟩ := deleteFixup_root h hTb (above [])
        rw [show t.root = ptr T from h.path] at hret
        exact ⟨t', T, hret, hat, r, n, hTb⟩
      | cons f k₀ =>
        obtain ⟨s, fc, p, S⟩ := f
        subst hkc
        have hfc : fc = pc := by
          cases hk <;> rfl
        subst hfc
        obtain ⟨t₁, x, parent, h₁, r₁, hres⟩ := deleteFixupStep_spec h hTb hk
        have hroot : ptr T ≠ t.root := fun heq => by cases h.root_eq_iff.mp heq
        have hSne : S ≠ .nil := by
          cases hk with
          | red _ hS => exact fun heq => by subst heq; cases hS
          | black _ hS => exact fun heq => by subst heq; cases hS
        have hleft : ∃ l, t.child .left (.node p.1) = some l ∧
            (if ptr T = l then Side.left else .right) = s := by
          cases s with
          | left => exact ⟨_, h.child_frame, if_pos rfl⟩
          | right => exact ⟨_, h.child_frame_other, if_neg (h.ptr_ne_sibling (.inr hSne))⟩
        obtain ⟨l, hl, hside⟩ := hleft
        have hturn : ∀ fuel, deleteFixup (fuel + 1) t (ptr T) (.node p.1) =
            deleteFixup fuel t₁ x parent := by
          intro fuel
          simp only [deleteFixup, h.colour, hc, bind_eq_bind, bind_some, ne_eq, hroot,
            not_false_eq_true, and_self, if_true, hl, hside, h₁]
        have hrest : ∃ t' T', Returns (fun fuel => deleteFixup fuel t₁ x parent) t' ∧
            At t' T' [] L ∧ Rearranged t₁ t' L ∧ ∃ m, Balanced T' .black m := by
          rcases hres with ⟨T', k', pc', n', rfl, rfl, hat, hT', hk', hlt | hred⟩ |
            ⟨W, m, rfl, hat, hW⟩
          · simp only [List.length_cons] at hlen
            exact ih _ (by omega) hat hT' hk' rfl
          · exact deleteFixup_red hat hred hT' hk' _
          · obtain ⟨t', hret, hat', r⟩ := deleteFixup_root hat hW parent
            exact ⟨t', W, hret, hat', r, m, hW⟩
        obtain ⟨t', T', hret, hat, r, hbal⟩ := hrest
        exact ⟨t', T', hret.turn hturn, hat, r₁.trans r, hbal⟩

end FreeRadius.Rb
