import Mathlib.Tactic

/-!
# Red-black trees

Trees with coloured nodes, the path from a subtree up to the root as a list of
frames, and the balance of both. Everything is stated for a side and its mirror
image at once: `join s` makes a node whose first subtree is on side `s`.
-/

namespace Library.RedBlack

variable {β : Type}

inductive Colour where
  | black
  | red
  deriving DecidableEq

inductive Side where
  | left
  | right
  deriving DecidableEq

def Side.other : Side → Side
  | .left => .right
  | .right => .left

@[simp] theorem Side.other_other (s : Side) : s.other.other = s := by
  cases s <;> rfl

theorem Side.eq_other_of_ne {s s' : Side} (h : s' ≠ s) : s' = s.other := by
  cases s <;> cases s' <;> simp_all [Side.other]

inductive CTree (β : Type) where
  | nil
  | node (c : Colour) (l : CTree β) (x : β) (r : CTree β)

namespace CTree

def colour : CTree β → Colour
  | nil => .black
  | node c _ _ _ => c

def toList : CTree β → List β
  | nil => []
  | node _ l x r => l.toList ++ x :: r.toList

/-- A node with `a` on side `s` and `b` on the other side. -/
def join (s : Side) (c : Colour) (a : CTree β) (x : β) (b : CTree β) : CTree β :=
  match s with
  | .left => node c a x b
  | .right => node c b x a

theorem join_other (s : Side) (c : Colour) (a : CTree β) (x : β) (b : CTree β) :
    join s.other c a x b = join s c b x a := by
  cases s <;> rfl

theorem eq_nil_or_join (s : Side) (T : CTree β) : T = nil ∨ ∃ c a x b, T = join s c a x b := by
  cases T with
  | nil => exact .inl rfl
  | node c l x r =>
    right
    cases s with
    | left => exact ⟨c, l, x, r, rfl⟩
    | right => exact ⟨c, r, x, l, rfl⟩

@[simp] theorem colour_join (s : Side) (c : Colour) (a : CTree β) (x : β) (b : CTree β) :
    (join s c a x b).colour = c := by
  cases s <;> rfl

theorem toList_join_recolour (s : Side) (c c' : Colour) {a a' b b' : CTree β} (x : β)
    (ha : a.toList = a'.toList) (hb : b.toList = b'.toList) :
    (join s c a x b).toList = (join s c' a' x b').toList := by
  cases s <;> simp [join, toList, ha, hb]

theorem toList_join_perm (s : Side) (c : Colour) (a : CTree β) (x : β) (b : CTree β) :
    (join s c a x b).toList.Perm (x :: (a.toList ++ b.toList)) := by
  cases s with
  | left => exact List.perm_middle
  | right => exact List.perm_middle.trans (List.perm_append_comm.cons x)

def blacken : CTree β → CTree β
  | nil => nil
  | node _ l x r => node .black l x r

@[simp] theorem blacken_join (s : Side) (c : Colour) (a : CTree β) (x : β) (b : CTree β) :
    (join s c a x b).blacken = join s .black a x b := by
  cases s <;> rfl

/-- The numbers of black nodes on the paths from the root to the leaves. -/
def blackCounts : CTree β → List ℕ
  | nil => [0]
  | node c l _ r =>
    (l.blackCounts ++ r.blackCounts).map (· + if c = .black then 1 else 0)

/-- No red node has a red child. -/
def NoRedRed : CTree β → Prop
  | nil => True
  | node c l _ r => (c = .red → l.colour = .black ∧ r.colour = .black) ∧ l.NoRedRed ∧ r.NoRedRed

def depth : CTree β → ℕ
  | nil => 0
  | node _ l _ r => max l.depth r.depth + 1

end CTree

open CTree List

/-- A balanced tree whose root has colour `c`, with `n` black nodes on the way
to each leaf. -/
inductive Balanced : CTree β → Colour → ℕ → Prop
  | nil : Balanced nil .black 0
  | red {l r : CTree β} {x : β} {n : ℕ} : Balanced l .black n → Balanced r .black n →
      Balanced (node .red l x r) .red n
  | black {l r : CTree β} {x : β} {n : ℕ} {c c' : Colour} : Balanced l c n → Balanced r c' n →
      Balanced (node .black l x r) .black (n + 1)

namespace Balanced

variable {T a b : CTree β} {c c' : Colour} {n : ℕ} {x : β} {s : Side}

theorem colour_eq (h : Balanced T c n) : T.colour = c := by
  cases h <;> rfl

/-- At least every other node of a path is black. -/
theorem depth_le (h : Balanced T c n) : (c = .black → T.depth ≤ 2 * n) ∧
    T.depth ≤ 2 * n + 1 ∧ 2 ^ n ≤ T.toList.length + 1 := by
  induction h with
  | nil => simp [depth, toList]
  | red _ _ ihl ihr =>
    have hl := ihl.1 rfl
    have hr := ihr.1 rfl
    simp only [depth, toList, length_append, length_cons]
    exact ⟨nofun, by omega, by omega⟩
  | black _ _ ihl ihr =>
    simp only [depth, toList, length_append, length_cons, pow_succ]
    exact ⟨fun _ => by omega, by omega, by omega⟩

theorem join_red (ha : Balanced a .black n) (hb : Balanced b .black n) :
    Balanced (join s .red a x b) .red n := by
  cases s with
  | left => exact red ha hb
  | right => exact red hb ha

theorem join_black (ha : Balanced a c n) (hb : Balanced b c' n) :
    Balanced (join s .black a x b) .black (n + 1) := by
  cases s with
  | left => exact black ha hb
  | right => exact black hb ha

theorem of_join_red (h : Balanced (join s .red a x b) c n) :
    c = .red ∧ Balanced a .black n ∧ Balanced b .black n := by
  cases s with
  | left =>
    cases h with
    | red hl hr => exact ⟨rfl, hl, hr⟩
  | right =>
    cases h with
    | red hl hr => exact ⟨rfl, hr, hl⟩

theorem of_join_black (h : Balanced (join s .black a x b) c n) :
    c = .black ∧ ∃ m ca cb, n = m + 1 ∧ Balanced a ca m ∧ Balanced b cb m := by
  cases s with
  | left =>
    cases h with
    | black hl hr => exact ⟨rfl, _, _, _, rfl, hl, hr⟩
  | right =>
    cases h with
    | black hl hr => exact ⟨rfl, _, _, _, rfl, hr, hl⟩

theorem exists_join (s : Side) (h : Balanced T c (n + 1)) : ∃ c a x b, T = join s c a x b := by
  rcases T.eq_nil_or_join s with rfl | hj
  · cases h
  · exact hj

theorem exists_join_red (s : Side) (h : Balanced T .red n) :
    ∃ a x b, T = join s .red a x b ∧ Balanced a .black n ∧ Balanced b .black n := by
  rcases T.eq_nil_or_join s with rfl | ⟨c, a, x, b, rfl⟩
  · cases h
  have hc := h.colour_eq
  rw [colour_join] at hc
  subst hc
  exact ⟨a, x, b, rfl, h.of_join_red.2⟩

theorem blacken (h : Balanced T c n) : ∃ m, Balanced T.blacken .black m := by
  cases h with
  | nil => exact ⟨0, nil⟩
  | red hl hr => exact ⟨_, black hl hr⟩
  | black hl hr => exact ⟨_, black hl hr⟩

theorem blacken_red (h : Balanced T .red n) : Balanced T.blacken .black (n + 1) := by
  cases h with
  | red hl hr => exact black hl hr

theorem blacken_eq (h : Balanced T .black n) : T.blacken = T := by
  cases h <;> rfl

theorem noRedRed (h : Balanced T c n) : T.NoRedRed := by
  induction h with
  | nil => trivial
  | red hl hr ihl ihr => exact ⟨fun _ => ⟨hl.colour_eq, hr.colour_eq⟩, ihl, ihr⟩
  | black hl hr ihl ihr => exact ⟨fun h => (by cases h), ihl, ihr⟩

theorem blackCounts_eq (h : Balanced T c n) : ∀ m ∈ T.blackCounts, m = n := by
  induction h with
  | nil => simp [blackCounts]
  | red hl hr ihl ihr =>
    intro m hm
    simp only [blackCounts, mem_map, mem_append] at hm
    obtain ⟨m', hm' | hm', rfl⟩ := hm
    · simp [ihl m' hm']
    · simp [ihr m' hm']
  | black hl hr ihl ihr =>
    intro m hm
    simp only [blackCounts, mem_map, mem_append] at hm
    obtain ⟨m', hm' | hm', rfl⟩ := hm
    · simp [ihl m' hm']
    · simp [ihr m' hm']

end Balanced

/-! ## Paths to the root -/

/-- A node seen from its child on side `side`. -/
structure Frame (β : Type) where
  side : Side
  colour : Colour
  elem : β
  sibling : CTree β

def Frame.plug (f : Frame β) (T : CTree β) : CTree β := join f.side f.colour T f.elem f.sibling

/-- The whole tree, with `T` at the end of the path. -/
def plug : List (Frame β) → CTree β → CTree β
  | [], T => T
  | f :: k, T => plug k (f.plug T)

def pathElems : List (Frame β) → List β
  | [] => []
  | f :: k => f.elem :: (f.sibling.toList ++ pathElems k)

theorem plug_append (k k' : List (Frame β)) (T : CTree β) :
    plug (k ++ k') T = plug k' (plug k T) := by
  induction k generalizing T with
  | nil => rfl
  | cons f k ih => exact ih (f.plug T)

theorem toList_plug_congr (k : List (Frame β)) {T T' : CTree β} (h : T.toList = T'.toList) :
    (plug k T).toList = (plug k T').toList := by
  induction k generalizing T T' with
  | nil => exact h
  | cons f k ih => exact ih (toList_join_recolour _ _ _ _ h rfl)

theorem toList_plug (k : List (Frame β)) :
    ∃ l r, (∀ T, (plug k T).toList = l ++ T.toList ++ r) ∧ (l ++ r).Perm (pathElems k) := by
  induction k with
  | nil => exact ⟨[], [], fun T => by simp [plug], by simp [pathElems]⟩
  | cons f k ih =>
    obtain ⟨l, r, heq, hperm⟩ := ih
    cases hs : f.side with
    | left =>
      refine ⟨l, f.elem :: (f.sibling.toList ++ r), fun T => ?_, ?_⟩
      · simp [plug, heq, Frame.plug, hs, join, toList]
      refine perm_middle.trans (List.Perm.cons _ ?_)
      rw [← append_assoc]
      refine (List.perm_append_comm.append_right r).trans ?_
      rw [append_assoc]
      exact hperm.append_left _
    | right =>
      refine ⟨l ++ (f.sibling.toList ++ [f.elem]), r, fun T => ?_, ?_⟩
      · simp [plug, heq, Frame.plug, hs, join, toList]
      have h₁ : (l ++ (f.sibling.toList ++ [f.elem]) ++ r).Perm
          (f.elem :: (l ++ (f.sibling.toList ++ r))) := by
        have : l ++ (f.sibling.toList ++ [f.elem]) ++ r =
            (l ++ f.sibling.toList) ++ f.elem :: r := by simp
        rw [this]
        refine perm_middle.trans ?_
        rw [append_assoc]
      refine h₁.trans (List.Perm.cons _ ?_)
      rw [← append_assoc]
      refine (List.perm_append_comm.append_right r).trans ?_
      rw [append_assoc]
      exact hperm.append_left _

theorem toList_plug_perm (k : List (Frame β)) (T : CTree β) :
    (plug k T).toList.Perm (T.toList ++ pathElems k) := by
  obtain ⟨l, r, heq, hperm⟩ := toList_plug k
  rw [heq]
  refine (List.perm_append_comm.append_right r).trans ?_
  rw [append_assoc]
  exact hperm.append_left _

/-- Every element of a tree is the root of a subtree. -/
theorem exists_plug_of_mem (s : Side) {T : CTree β} {x : β} (h : x ∈ T.toList) :
    ∃ k c a b, T = plug k (join s c a x b) := by
  induction T with
  | nil => simp [toList] at h
  | node c l y r ihl ihr =>
    rw [toList, mem_append, mem_cons] at h
    rcases h with h | rfl | h
    · obtain ⟨k, c', a, b, rfl⟩ := ihl h
      exact ⟨k ++ [⟨.left, c, y, r⟩], c', a, b, by rw [plug_append]; rfl⟩
    · cases s with
      | left => exact ⟨[], c, l, r, rfl⟩
      | right => exact ⟨[], c, r, l, rfl⟩
    · obtain ⟨k, c', a, b, rfl⟩ := ihr h
      exact ⟨k ++ [⟨.right, c, y, l⟩], c', a, b, by rw [plug_append]; rfl⟩

/-- A path below which a tree with `n` black nodes on its paths is missing; `c`
is the colour of its first node, or black if there is none. The root is black. -/
inductive PathBalanced : List (Frame β) → Colour → ℕ → Prop
  | nil (n : ℕ) : PathBalanced [] .black n
  | red {s : Side} {x : β} {S : CTree β} {f : Frame β} {k : List (Frame β)} {n : ℕ} :
      PathBalanced (f :: k) .black n → Balanced S .black n →
      PathBalanced (⟨s, .red, x, S⟩ :: f :: k) .red n
  | black {s : Side} {x : β} {S : CTree β} {k : List (Frame β)} {n : ℕ} {c c' : Colour} :
      PathBalanced k c (n + 1) → Balanced S c' n → PathBalanced (⟨s, .black, x, S⟩ :: k) .black n

/-- A subtree of colour `c` fits below the path `k`, whose first node has colour `pc`. -/
structure Fits (k : List (Frame β)) (pc c : Colour) : Prop where
  parent : c = .red → pc = .black
  root : k = [] → c = .black

theorem fits_black (k : List (Frame β)) (pc : Colour) : Fits k pc .black :=
  ⟨fun h => (by cases h), fun _ => rfl⟩

theorem PathBalanced.plug {k : List (Frame β)} {pc c : Colour} {n : ℕ} {T : CTree β}
    (hk : PathBalanced k pc n) (hT : Balanced T c n) (hfit : Fits k pc c) :
    ∃ m, Balanced (RedBlack.plug k T) .black m := by
  induction hk generalizing T c with
  | nil n => exact ⟨n, hfit.root rfl ▸ hT⟩
  | red hk hS ih =>
    have hc : c = .black := by
      cases c with
      | black => rfl
      | red => cases hfit.parent rfl
    subst hc
    exact ih (hT.join_red hS) ⟨fun _ => rfl, fun h => (by cases h)⟩
  | black hk hS ih => exact ih (hT.join_black hS) (fits_black _ _)

theorem pathBalanced_of_plug {k : List (Frame β)} {T : CTree β} {m : ℕ}
    (h : Balanced (plug k T) .black m) :
    ∃ pc c n, PathBalanced k pc n ∧ Balanced T c n ∧ Fits k pc c := by
  induction k generalizing T with
  | nil => exact ⟨.black, .black, m, .nil m, h, fits_black _ _⟩
  | cons f k ih =>
    obtain ⟨pc, c, n, hk, hT, hfit⟩ := ih h
    obtain ⟨s, fc, x, S⟩ := f
    cases fc with
    | red =>
      obtain ⟨rfl, hT, hS⟩ := hT.of_join_red
      obtain rfl := hfit.parent rfl
      cases k with
      | nil => cases hfit.root rfl
      | cons g k => exact ⟨_, _, n, .red hk hS, hT, fits_black _ _⟩
    | black =>
      obtain ⟨rfl, n, ca, cb, rfl, hT, hS⟩ := hT.of_join_black
      exact ⟨.black, ca, n, .black hk hS, hT, fun _ => rfl, fun h => by cases h⟩

theorem Balanced.rename {k : List (Frame β)} {s : Side} {c : Colour} {a b : CTree β} {x : β} {m : ℕ}
    (h : Balanced (plug k (join s c a x b)) .black m) (y : β) :
    ∃ m', Balanced (plug k (join s c a y b)) .black m' := by
  obtain ⟨pc, c', n, hk, hx, hfit⟩ := pathBalanced_of_plug h
  refine hk.plug ?_ hfit
  cases c with
  | red =>
    obtain ⟨rfl, ha, hb⟩ := hx.of_join_red
    exact ha.join_red hb
  | black =>
    obtain ⟨rfl, n, ca, cb, rfl, ha, hb⟩ := hx.of_join_black
    exact ha.join_black hb

end Library.RedBlack
